import TraceMind.Control.Network
import TraceMind.Foundation.Caching

namespace TraceMind.Control

open Artifacts
open Queue (Document PyFloat PyText)
open Transport (HttpTransport SeenEntry dedupKey hasKey senderOf pairOf composite)
open Transport.FileQueueTransport (HandlerResult)

structure HttpClient where
  myId : Str
  peerEndpoints : OrderedDict Str Str
  named : myId ≠ []

namespace HttpClient

def rpcPath : Str := "/_transport/rpc".toList

def rstripSlash (s : Str) : Str := (s.reverse.dropWhile (fun c => c = '/')).reverse

def endpointUrl (c : HttpClient) (peer : Str) : Option Str :=
  (c.peerEndpoints.get? peer).map (fun base => rstripSlash base ++ rpcPath)

def makeEnvelope (c : HttpClient) (kind peer : Str) (message : Document) (key : Str) : Document :=
  ⟨[("from".toList, .str c.myId), ("to".toList, .str peer), ("kind".toList, .str kind),
    ("body".toList, message.json), ("idempotency_key".toList, .str key)], by
    have hbody : Json.wf message.json = true := message.wf
    simp [Json.wf, Json.wfFields, hbody]⟩

end HttpClient

structure NetworkController where
  topology : AgentNetworkTopology
  transport : HttpClient

structure LeafRequest where
  url : Str
  envelope : Document

def NetworkController.leafRequest (c : NetworkController) (peer : Str) (cycleNumber : ℤ) :
    Except CycleError LeafRequest :=
  match c.topology.leaves.get? peer with
  | none => .error (unknownLeaf peer)
  | some leaf =>
    match c.transport.endpointUrl peer with
    | none => .error (leafFailed peer
        ("no endpoint registered for peer '".toList ++ peer ++ ['\'']))
    | some url => .ok ⟨url, c.transport.makeEnvelope "request".toList peer
        (cycleMessage c.topology leaf cycleNumber) (cycleKey c.topology peer cycleNumber)⟩

def NetworkController.replyKey (c : NetworkController) (peer : Str) (cycleNumber : ℤ) : Str :=
  composite (c.transport.myId, cycleKey c.topology peer cycleNumber)

inductive Phase where
  | missed
  | running (execution : ℕ)
  | answered (execution : ℕ) (reply : Document)
  | returned (execution : ℕ) (reply : Document)
  | failed

structure Handling where
  call : ℕ
  url : Str
  envelope : Document
  phase : Phase

structure LeafCall (ε : Type) where
  peer : Str
  url : Str
  envelope : Document
  began : ℕ
  ended : Option (Except CycleError (LeafCycleResult ε × ℕ)) := none

structure LeafServer where
  transport : HttpTransport
  origin : Str → ℕ := fun _ => 0

structure Started where
  url : Str
  envelope : Document

structure Cycles (ε : Type) where
  servers : Str → LeafServer
  started : List Started := []
  finished : List (ℕ × HandlerResult) := []
  handlings : List Handling := []
  calls : List (LeafCall ε) := []

inductive CycleAction where
  | register (url peer : Str)
  | unregister (url peer : Str)
  | restart (url : Str)
  | call (c : NetworkController) (peer : Str) (cycleNumber : ℤ)
  | arrive (i : ℕ)
  | start (j : ℕ)
  | finish (j : ℕ) (result : HandlerResult)
  | record (j : ℕ)
  | receive (i j : ℕ)
  | giveUp (i : ℕ) (reason : Str)

namespace LeafServer

def fresh (t : HttpTransport) : LeafServer :=
  ⟨{ myId := t.myId, named := t.named }, fun _ => 0⟩

def originOf (py : PyText) (float : PyFloat) (d : Document) (s : LeafServer) : ℕ :=
  match dedupKey py float d with
  | some k => s.origin k
  | none => 0

def record (py : PyText) (float : PyFloat) (d reply : Document) (execution : ℕ) (s : LeafServer) :
    LeafServer where
  transport := s.transport.recordReply py float d reply
  origin :=
    match dedupKey py float d with
    | some k => Function.update s.origin k execution
    | none => s.origin

end LeafServer

namespace Cycles

variable {ε : Type} (py : PyText) (float : PyFloat) (sha : Sha256) (readers : LeafReaders ε)

def onServer (url : Str) (f : LeafServer → LeafServer) (s : Cycles ε) : Cycles ε :=
  { s with servers := Function.update s.servers url (f (s.servers url)) }

def overTransport (f : HttpTransport → HttpTransport) (s : LeafServer) : LeafServer :=
  { s with transport := f s.transport }

def killed (url : Str) (h : Handling) : Handling :=
  match h.phase with
  | .returned _ _ => h
  | _ => if h.url = url then { h with phase := .failed } else h

def restart (url : Str) (s : Cycles ε) : Cycles ε :=
  { s.onServer url (fun l => LeafServer.fresh l.transport) with
    handlings := s.handlings.map (killed url) }

def call (c : NetworkController) (peer : Str) (cycleNumber : ℤ) (s : Cycles ε) : Cycles ε :=
  match c.leafRequest peer cycleNumber with
  | .error _ => s
  | .ok r => { s with calls := s.calls ++
      [{ peer, url := r.url, envelope := r.envelope, began := s.started.length }] }

def lookup (d : Document) (l : LeafServer) : Phase :=
  match HttpTransport.rpcError py float d with
  | some _ => .failed
  | none =>
    match l.transport.cachedReply py float d with
    | some reply => .returned (l.originOf py float d) reply
    | none => .missed

def arrive (i : ℕ) (s : Cycles ε) : Cycles ε :=
  match s.calls[i]? with
  | none => s
  | some c => { s with handlings := s.handlings ++
      [{ call := i, url := c.url, envelope := c.envelope
         phase := lookup py float c.envelope (s.servers c.url) }] }

def setPhase (j : ℕ) (h : Handling) (phase : Phase) (s : Cycles ε) : Cycles ε :=
  { s with handlings := s.handlings.set j { h with phase } }

def start (j : ℕ) (s : Cycles ε) : Cycles ε :=
  match s.handlings[j]? with
  | none => s
  | some h =>
    match h.phase with
    | .missed =>
      let t := (s.servers h.url).transport
      if t.handlerKey py float h.envelope ∈ t.handlers then
        { s.setPhase j h (.running s.started.length) with
          started := s.started ++ [⟨h.url, h.envelope⟩] }
      else s.setPhase j h .failed
    | _ => s

def afterHandler (execution : ℕ) : HandlerResult → Phase
  | .reply reply => .answered execution reply
  | _ => .failed

def finish (j : ℕ) (result : HandlerResult) (s : Cycles ε) : Cycles ε :=
  match s.handlings[j]? with
  | none => s
  | some h =>
    match h.phase with
    | .running execution =>
      { s.setPhase j h (afterHandler execution result) with
        finished := s.finished ++ [(execution, result)] }
    | _ => s

def record (j : ℕ) (s : Cycles ε) : Cycles ε :=
  match s.handlings[j]? with
  | none => s
  | some h =>
    match h.phase with
    | .answered execution reply =>
      (s.setPhase j h (.returned execution reply)).onServer h.url
        (LeafServer.record py float h.envelope reply execution)
    | _ => s

def endCall (i : ℕ) (c : LeafCall ε) (r : Except CycleError (LeafCycleResult ε × ℕ))
    (s : Cycles ε) : Cycles ε :=
  { s with calls := s.calls.set i { c with ended := some r } }

def receive (i j : ℕ) (s : Cycles ε) : Cycles ε :=
  match s.calls[i]?, s.handlings[j]? with
  | some c, some h =>
    match c.ended, h.phase with
    | none, .returned execution reply =>
      if h.call = i then s.endCall i c
        ((parseLeafReply py float sha readers c.peer reply).map (fun r => (r, execution)))
      else s
    | _, _ => s
  | _, _ => s

def giveUp (i : ℕ) (reason : Str) (s : Cycles ε) : Cycles ε :=
  match s.calls[i]? with
  | none => s
  | some c =>
    match c.ended with
    | none => s.endCall i c (.error (leafFailed c.peer reason))
    | some _ => s

def step (a : CycleAction) (s : Cycles ε) : Cycles ε :=
  match a with
  | .register url peer =>
    s.onServer url (overTransport (HttpTransport.registerRequestHandler peer))
  | .unregister url peer =>
    s.onServer url (overTransport (HttpTransport.unregisterRequestHandler peer))
  | .restart url => s.restart url
  | .call c peer cycleNumber => s.call c peer cycleNumber
  | .arrive i => s.arrive py float i
  | .start j => s.start py float j
  | .finish j result => s.finish j result
  | .record j => s.record py float j
  | .receive i j => s.receive py float sha readers i j
  | .giveUp i reason => s.giveUp i reason

def run (as : List CycleAction) (s : Cycles ε) : Cycles ε :=
  as.foldl (fun s a => s.step py float sha readers a) s

def opened (servers : Str → HttpTransport) : Cycles ε :=
  { servers := fun url => LeafServer.fresh (servers url) }

end Cycles

end TraceMind.Control
