import TraceMind.Basic
import TraceMind.Foundation.OrderedDict
import TraceMind.Foundation.Values
import Mathlib.Algebra.Order.Ring.Unbundled.Rat

namespace TraceMind.Governance

open Python

inductive ApprovalDecision where
  | approve
  | deny
  | timeout
deriving DecidableEq

inductive ApprovalStatus where
  | pending
  | decided (decision : ApprovalDecision)
deriving DecidableEq

structure ApprovalRecord where
  approvalId : Str
  flow : Str
  step : Str
  reason : Str
  requestedBy : Str
  ttlMs : ℤ
  defaultDecision : ApprovalDecision
  actors : List Str
  createdAt : ℚ
  payload : Doc
  status : ApprovalStatus := .pending
  decidedAt : Option ℚ := none
  decidedBy : Option Str := none
  note : Option Str := none

def ApprovalRecord.expired (r : ApprovalRecord) (now : ℚ) : Bool :=
  decide (r.status = .pending) && decide (0 < r.ttlMs) && decide (r.createdAt + r.ttlMs / 1000 ≤ now)

inductive StoreEntry where
  | pending (approvalId flow step reason requestedBy : Str) (ttlMs : ℤ)
      (defaultDecision : ApprovalDecision) (actors : List Str) (createdAt : ℚ)
      (payload : List (Str × Json))
  | decision (approvalId : Str) (decision : ApprovalDecision) (actor : Str) (note : Option Str)
      (ts : ℚ)

abbrev PendingMap := OrderedDict Str ApprovalRecord

structure HitlConfig where
  enabled : Bool
  queueSize : ℤ
  defaultTtlMs : ℤ

def HitlConfig.queueLimit (cfg : HitlConfig) : ℕ := cfg.queueSize.toNat

inductive HitlError where
  | runtimeError (message : Str)
  | keyError (message : Str)
  | valueError (message : Str)
  | timeoutError (message : Str)
  | typeError

def applyStoreEntry (initial : Bool) (p : PendingMap) : StoreEntry → PendingMap
  | .pending id flow step reason requestedBy ttlMs defaultDecision actors createdAt payload =>
    if initial || (p.get? id).isNone then
      p.store id ⟨id, flow, step, reason, requestedBy, ttlMs,
        if defaultDecision = .approve then .approve else .deny,
        actors.filter (fun s => !s.isEmpty), createdAt, ofJsonFields payload, .pending, none, none,
        none⟩
    else p
  | .decision id _ _ _ _ => p.erase id

def replayStore (log : List StoreEntry) : PendingMap :=
  log.foldl (applyStoreEntry true) OrderedDict.empty

inductive Phase where
  | idle
  | appending (e : StoreEntry)
  | appended

structure HitlManager where
  pending : PendingMap := OrderedDict.empty
  storeOffset : ℕ := 0
  phase : Phase := .idle

def HitlManager.start (log : List StoreEntry) : HitlManager where
  pending := replayStore log
  storeOffset := log.length

def HitlManager.syncStore (log : List StoreEntry) (m : HitlManager) : HitlManager :=
  { m with
    pending := (log.drop m.storeOffset).foldl (applyStoreEntry false) m.pending
    storeOffset := log.length }

structure Submission where
  flow : Str
  step : Str
  reason : Str
  requestedBy : Str
  ttlMs : Option ℤ
  default : Str
  actors : List Str
  payload : Doc

def Submission.record (a : Submission) (cfg : HitlConfig) (id : Str) (now : ℚ) :
    ApprovalRecord where
  approvalId := id
  flow := a.flow
  step := a.step
  reason := a.reason
  requestedBy := a.requestedBy
  ttlMs := a.ttlMs.getD cfg.defaultTtlMs
  defaultDecision := if lower a.default = "approve".toList then .approve else .deny
  actors := a.actors.filter (fun s => !s.isEmpty)
  createdAt := now
  payload := a.payload

def ApprovalRecord.entry (r : ApprovalRecord) (payload : List (Str × Json)) : StoreEntry :=
  .pending r.approvalId r.flow r.step r.reason r.requestedBy r.ttlMs r.defaultDecision r.actors
    r.createdAt payload

def normalizeDecision (value : Str) : Except HitlError ApprovalDecision :=
  let lowered := strip (lower value)
  if lowered ∈ ["approve", "approved", "ok", "yes"].map String.toList then .ok .approve
  else if lowered ∈ ["deny", "denied", "reject", "rejected", "no"].map String.toList then .ok .deny
  else .error (.valueError ("Unsupported decision '".toList ++ value ++ "'".toList))

namespace HitlManager

def submit (cfg : HitlConfig) (log : List StoreEntry) (a : Submission) (id : Str) (now : ℚ)
    (m : HitlManager) : Except HitlError ApprovalRecord × HitlManager :=
  if !cfg.enabled then (.error (.runtimeError "HITL approvals are disabled".toList), m)
  else
    let m := m.syncStore log
    if cfg.queueLimit ≠ 0 ∧ cfg.queueLimit ≤ m.pending.size then
      (.error (.runtimeError "approval queue is full".toList), m)
    else
      let record := a.record cfg id now
      let m := { m with pending := m.pending.store id record }
      match toJsonFields a.payload with
      | none => (.error .typeError, m)
      | some payload => (.ok record, { m with phase := .appending (record.entry payload) })

def decided (r : ApprovalRecord) (d : ApprovalDecision) (actor : Str) (note : Option Str)
    (now : ℚ) : ApprovalRecord :=
  { r with status := .decided d, decidedAt := some now, decidedBy := some actor, note := note }

def orElse (s fallback : Str) : Str := if s.isEmpty then fallback else s

def decide (log : List StoreEntry) (id decision actor : Str) (note : Option Str) (now : ℚ)
    (m : HitlManager) : Except HitlError ApprovalRecord × HitlManager :=
  let m := m.syncStore log
  match m.pending.get? id with
  | none =>
    (.error (.keyError ("Unknown approval_id '".toList ++ id ++ "'".toList)), m)
  | some r =>
    if r.status ≠ .pending then (.ok r, m)
    else
      match normalizeDecision decision with
      | .error e => (.error e, m)
      | .ok d =>
        if r.expired now then
          (.error (.timeoutError "approval has expired".toList),
            { m with
              pending := m.pending.modify id
                (fun r => decided r .timeout (orElse actor "system".toList) note now) })
        else
          let actor := orElse actor "unknown".toList
          (.ok (decided r d actor note now),
            { m with
              pending := m.pending.erase id
              phase := .appending (.decision id d actor note now) })

def markExpired (now : ℚ) (r : ApprovalRecord) : ApprovalRecord :=
  { r with status := .decided .timeout, decidedAt := some now, decidedBy := some "system".toList }

def get (log : List StoreEntry) (id : Str) (now : ℚ) (m : HitlManager) :
    Option ApprovalRecord × HitlManager :=
  let m := m.syncStore log
  match m.pending.get? id with
  | none => (none, m)
  | some r =>
    if r.expired now then (none, { m with pending := m.pending.modify id (markExpired now) })
    else (some r, m)

def listPending (log : List StoreEntry) (now : ℚ) (m : HitlManager) :
    List ApprovalRecord × HitlManager :=
  let m := m.syncStore log
  let left := (m.pending.entries.filter (fun e => e.2.expired now)).foldl
    (fun d e => d.erase e.1) m.pending
  (left.entries.map Prod.snd, { m with pending := left })

end HitlManager

structure SharedHitl where
  log : List StoreEntry := []
  managers : ℕ → HitlManager := fun _ => {}
  issued : List Str := []

inductive HitlAction where
  | start (i : ℕ)
  | submit (i : ℕ) (a : Submission) (id : Str) (now : ℚ)
  | decide (i : ℕ) (id decision actor : Str) (note : Option Str) (now : ℚ)
  | get (i : ℕ) (id : Str) (now : ℚ)
  | pending (i : ℕ) (now : ℚ)
  | append (i : ℕ)
  | measure (i : ℕ)

namespace SharedHitl

def put (s : SharedHitl) (i : ℕ) (m : HitlManager) : SharedHitl :=
  { s with managers := Function.update s.managers i m }

def call (s : SharedHitl) (i : ℕ) (f : HitlManager → HitlManager) : SharedHitl :=
  match (s.managers i).phase with
  | .idle => s.put i (f (s.managers i))
  | _ => s

def step (cfg : ℕ → HitlConfig) : HitlAction → SharedHitl → SharedHitl
  | .start i, s => s.put i (.start s.log)
  | .submit i a id now, s =>
    { s.call i (fun m => (m.submit (cfg i) s.log a id now).2) with issued := id :: s.issued }
  | .decide i id decision actor note now, s =>
    s.call i (fun m => (m.decide s.log id decision actor note now).2)
  | .get i id now, s => s.call i (fun m => (m.get s.log id now).2)
  | .pending i now, s => s.call i (fun m => (m.listPending s.log now).2)
  | .append i, s =>
    match (s.managers i).phase with
    | .appending e =>
      { s.put i { s.managers i with phase := .appended } with log := s.log ++ [e] }
    | _ => s
  | .measure i, s =>
    match (s.managers i).phase with
    | .appended => s.put i { s.managers i with storeOffset := s.log.length, phase := .idle }
    | _ => s

def run (cfg : ℕ → HitlConfig) (actions : List HitlAction) (s : SharedHitl) : SharedHitl :=
  actions.foldl (fun s a => step cfg a s) s

end SharedHitl

end TraceMind.Governance
