import TraceMind.Control.Proof
import TraceMind.Transport.Http

namespace TraceMind.Control

open Artifacts
open Queue (Document PyFloat PyText)
open Queue.TaskEnvelope (isFalse)
open Transport (textOr)

def cycleRunOp : Str := "controller.cycle.run".toList

structure LeafEdgeConfig where
  bundleRef : Str
  kpiKeys : List Str

structure AgentNetworkTopology where
  networkId : Str
  leaves : OrderedDict Str LeafEdgeConfig

inductive CycleError where
  | value (message : Str)
  | network (message peer : Str)
  | other (e : Queue.Error)

def cycleMessage (t : AgentNetworkTopology) (leaf : LeafEdgeConfig) (cycleNumber : ℤ) : Document :=
  ⟨[("op".toList, .str cycleRunOp), ("cycle_number".toList, .int cycleNumber),
    ("bundle_ref".toList, .str leaf.bundleRef), ("kpi_keys".toList, .arr (leaf.kpiKeys.map .str)),
    ("network_id".toList, .str t.networkId)], by
    have hkeys : Json.wfItems (leaf.kpiKeys.map .str) = true := by
      induction leaf.kpiKeys with
      | nil => rfl
      | cons k ks ih => simpa [Json.wfItems, Json.wf] using ih
    simp [Json.wf, Json.wfFields, hkeys]⟩

def cycleKey (t : AgentNetworkTopology) (peer : Str) (cycleNumber : ℤ) : Str :=
  t.networkId ++ ':' :: (peer ++ ":cycle:".toList ++ Json.intText cycleNumber)

theorem cycleKey_ne (t : AgentNetworkTopology) (peer : Str) (n : ℤ) : cycleKey t peer n ≠ [] := by
  simp [cycleKey]

def unknownLeaf (peer : Str) : CycleError :=
  .value ("unknown leaf peer '".toList ++ peer ++ ['\''])

def leafFailed (peer reason : Str) : CycleError :=
  .network ("leaf cycle failed for '".toList ++ peer ++ "': ".toList ++ reason) peer

section replies

structure LeafCycleResult (ε : Type) where
  peerId : Str
  cycleId : Str
  snapshot : Document
  report : Document
  proofReport : ProofReport
  escalation : Option ε

-- Python's `dict` of a decoded value, and the readers of the two reports in a reply; only their
-- results are used.
structure LeafReaders (ε : Type) where
  dict : Json → Except Queue.Error Document
  proofReport : Document → Except Queue.Error ProofReport
  escalation : Document → Except Queue.Error ε

variable {ε : Type} (py : PyText) (float : PyFloat) (sha : Sha256) (readers : LeafReaders ε)

def mappingAt (d : Document) (key : String) : Option Document :=
  (d.get? key.toList).bind Document.ofJson?

def dictAt (d : Document) (key : String) : Except CycleError Document :=
  match d.get? key.toList with
  | none => .ok Document.empty
  | some v => if isFalse float v then .ok Document.empty else (readers.dict v).mapError .other

def ProofReport.sealed (p : ProofReport) : ProofReport :=
  if p.reportHash.isEmpty then p.recomputeHash sha else p

def escalationAt (outputs : Document) : Except CycleError (Option ε) :=
  match mappingAt outputs "escalation" with
  | none => .ok none
  | some raw => ((readers.escalation raw).mapError .other).map some

def parseOutputs (peer : Str) (outputs proofRaw : Document) :
    Except CycleError (LeafCycleResult ε) := do
  let proof ← (readers.proofReport proofRaw).mapError .other
  let escalation ← escalationAt readers outputs
  let snapshot ← dictAt float readers outputs "snapshot"
  let report ← dictAt float readers outputs "report"
  return { peerId := peer, cycleId := textOr py float (outputs.get? "cycle_id".toList) proof.cycleId
           snapshot, report, proofReport := proof.sealed sha, escalation }

def replyError (reply : Document) : Option Str :=
  match reply.get? "error".toList with
  | none => none
  | some v => if isFalse float v then none else some (py.str v)

def parseLeafReply (peer : Str) (reply : Document) : Except CycleError (LeafCycleResult ε) :=
  match replyError py float reply with
  | some message => .error (.network message peer)
  | none =>
    match mappingAt reply "outputs" with
    | none => .error (.network
        ("leaf '".toList ++ peer ++ "' returned reply without outputs mapping".toList) peer)
    | some outputs =>
      match mappingAt outputs "proof_report" with
      | none => .error (.network
          ("leaf '".toList ++ peer ++ "' reply missing proof_report".toList) peer)
      | some proofRaw => parseOutputs py float sha readers peer outputs proofRaw

end replies

end TraceMind.Control
