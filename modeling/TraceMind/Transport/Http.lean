import TraceMind.Transport.FileQueue

namespace TraceMind.Transport

open Queue (Document PyFloat PyText)

open FileQueueTransport (HandlerResult bodyOf)

inductive SeenEntry where
  | seen
  | reply (payload : Document)

structure HttpTransport where
  myId : Str
  handlers : List Str := []
  dedupSeen : Str → Option SeenEntry := fun _ => none
  inboxes : Str → List Document := fun _ => []
  named : myId ≠ []

namespace HttpTransport

section hooks

variable (py : PyText) (float : PyFloat)

def isDuplicate (d : Document) (t : HttpTransport) : Bool × HttpTransport :=
  match dedupKey py float d with
  | none => (false, t)
  | some k =>
    match t.dedupSeen k with
    | some _ => (true, t)
    | none => (false, { t with dedupSeen := Function.update t.dedupSeen k (some .seen) })

def deposit (d : Document) (t : HttpTransport) : HttpTransport :=
  let sender := senderOf py float d
  { t with inboxes := Function.update t.inboxes sender (t.inboxes sender ++ [d]) }

def missingSender : TransportError := .transport "inbound envelope is missing 'from' field".toList

def recv (peer : Str) (t : HttpTransport) : Option Document × HttpTransport :=
  match t.inboxes peer with
  | [] => (none, t)
  | d :: ds => (some d, { t with inboxes := Function.update t.inboxes peer ds })

def cachedReply (d : Document) (t : HttpTransport) : Option Document :=
  match dedupKey py float d with
  | none => none
  | some k =>
    match t.dedupSeen k with
    | some (.reply payload) => some payload
    | _ => none

def recordReply (d reply : Document) (t : HttpTransport) : HttpTransport :=
  match dedupKey py float d with
  | none => t
  | some k => { t with dedupSeen := Function.update t.dedupSeen k (some (.reply reply)) }

def handlerKey (d : Document) (t : HttpTransport) : Str :=
  textOr py float (d.get? "to".toList) t.myId

def rpcError (d : Document) : Option TransportError :=
  if senderOf py float d = [] then
    some (.transport "inbound RPC envelope is missing 'from' field".toList)
  else
    match bodyOf float d with
    | none => some (.transport "inbound RPC envelope body must be a mapping".toList)
    | some _ => none

def noRpcHandler (key : Str) : TransportError :=
  .network ("no RPC handler registered for '".toList ++ key ++ "'".toList) key

def handleRpc (result : HandlerResult) (d : Document) (t : HttpTransport) :
    Except TransportError Document × HttpTransport :=
  match rpcError py float d with
  | some e => (.error e, t)
  | none =>
    match t.cachedReply py float d with
    | some reply => (.ok reply, t)
    | none =>
      if t.handlerKey py float d ∈ t.handlers then
        match result with
        | .reply reply => (.ok reply, t.recordReply py float d reply)
        | _ => (.error .handler, t)
      else (.error (noRpcHandler (t.handlerKey py float d)), t)

def registerRequestHandler (peer : Str) (t : HttpTransport) : HttpTransport :=
  { t with handlers := peer :: t.handlers }

def unregisterRequestHandler (peer : Str) (t : HttpTransport) : HttpTransport :=
  { t with handlers := t.handlers.filter (fun h => h ≠ peer) }

end hooks

end HttpTransport

inductive Call where
  | depositing (d : Document)
  | deposited (d : Document)
  | dropped (d : Document)
  | missed (d : Document)
  | answered (d reply : Document)
  | returned (d reply : Document)
  | failed (d : Document)
  | refused (d : Document) (e : TransportError)

structure HttpServer where
  transport : HttpTransport
  calls : List Call := []
  received : List Document := []
  invoked : List Document := []
  suppressed : List Document := []

inductive HttpAction where
  | register (peer : Str)
  | unregister (peer : Str)
  | push (d : Document)
  | deposit (i : ℕ)
  | recv (peer : Str)
  | rpc (d : Document)
  | invoke (i : ℕ) (result : HandlerResult)
  | record (i : ℕ)

namespace HttpServer

section steps

variable (py : PyText) (float : PyFloat)

def push (d : Document) (s : HttpServer) : HttpServer :=
  if senderOf py float d = [] then
    { s with calls := s.calls ++ [.refused d HttpTransport.missingSender] }
  else
    let checked := s.transport.isDuplicate py float d
    if checked.1 then
      { s with calls := s.calls ++ [.dropped d], suppressed := d :: s.suppressed }
    else { s with calls := s.calls ++ [.depositing d], transport := checked.2 }

def deposit (i : ℕ) (s : HttpServer) : HttpServer :=
  match s.calls[i]? with
  | some (.depositing d) =>
    { s with calls := s.calls.set i (.deposited d), transport := s.transport.deposit py float d }
  | _ => s

def recv (peer : Str) (s : HttpServer) : HttpServer :=
  let given := s.transport.recv peer
  { s with transport := given.2, received := given.1.toList ++ s.received }

def rpc (d : Document) (s : HttpServer) : HttpServer :=
  match HttpTransport.rpcError py float d with
  | some e => { s with calls := s.calls ++ [.refused d e] }
  | none =>
    match s.transport.cachedReply py float d with
    | some reply =>
      { s with calls := s.calls ++ [.returned d reply], suppressed := d :: s.suppressed }
    | none => { s with calls := s.calls ++ [.missed d] }

def outcome (result : HandlerResult) (d : Document) : Call :=
  match result with
  | .reply reply => .answered d reply
  | _ => .failed d

def invoke (i : ℕ) (result : HandlerResult) (s : HttpServer) : HttpServer :=
  match s.calls[i]? with
  | some (.missed d) =>
    let key := s.transport.handlerKey py float d
    if key ∈ s.transport.handlers then
      { s with calls := s.calls.set i (outcome result d), invoked := d :: s.invoked }
    else { s with calls := s.calls.set i (.refused d (HttpTransport.noRpcHandler key)) }
  | _ => s

def record (i : ℕ) (s : HttpServer) : HttpServer :=
  match s.calls[i]? with
  | some (.answered d reply) =>
    { s with
      calls := s.calls.set i (.returned d reply)
      transport := s.transport.recordReply py float d reply }
  | _ => s

def step (a : HttpAction) (s : HttpServer) : HttpServer :=
  match a with
  | .register peer => { s with transport := s.transport.registerRequestHandler peer }
  | .unregister peer => { s with transport := s.transport.unregisterRequestHandler peer }
  | .push d => s.push py float d
  | .deposit i => s.deposit py float i
  | .recv peer => s.recv peer
  | .rpc d => s.rpc py float d
  | .invoke i result => s.invoke py float i result
  | .record i => s.record py float i

def run (as : List HttpAction) (s : HttpServer) : HttpServer :=
  as.foldl (fun s a => s.step py float a) s

end steps

end HttpServer

end TraceMind.Transport
