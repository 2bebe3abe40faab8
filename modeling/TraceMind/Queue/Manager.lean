import TraceMind.Foundation.Naming
import TraceMind.Foundation.OrderedDict
import TraceMind.Queue.Envelope

namespace TraceMind.Queue

structure IdempotencyEntry (ρ : Type) where
  result : ρ
  expiresAt : ℚ

structure IdempotencyStore (ρ : Type) where
  capacity : ℕ
  positive : 0 < capacity
  entries : OrderedDict Str (IdempotencyEntry ρ) := OrderedDict.empty

namespace IdempotencyStore

variable {ρ : Type}

def get (now : ℚ) (key : Str) (s : IdempotencyStore ρ) : Option ρ × IdempotencyStore ρ :=
  match s.entries.get? key with
  | none => (none, s)
  | some e =>
    if e.expiresAt ≤ now then (none, { s with entries := s.entries.erase key })
    else (some e.result, { s with entries := s.entries.moveToEnd key })

def remember (now : ℚ) (key : Str) (result : ρ) (ttl : ℚ) (s : IdempotencyStore ρ) :
    IdempotencyStore ρ :=
  if ttl ≤ 0 then s
  else { s with entries := (s.entries.store key ⟨result, now + ttl⟩).trim s.capacity }

end IdempotencyStore

structure DeadLetterRecord where
  entryId : Str
  flowId : Str
  task : Document
  error : Document
  attempt : ℤ
  timestamp : FloatText

inductive WriteOutcome where
  | whole
  | torn
  | refused
deriving DecidableEq

structure DeadLetterClock where
  milliseconds : ℕ
  pid : ℕ
  timestamp : FloatText
  outcome : WriteOutcome

-- The files of the directory of pending records; `none` is one that does not decode.
structure DeadLetterStore where
  pending : SortedMap Str (Option DeadLetterRecord) := SortedMap.empty

namespace DeadLetterStore

def entryIdAt (c : DeadLetterClock) : Str :=
  "dlq-".toList ++ Digits.padded 13 c.milliseconds ++ '-' :: Digits.padded 5 c.pid

def append (c : DeadLetterClock) (flowId : Str) (task error : Document) (attempt : ℤ)
    (s : DeadLetterStore) : DeadLetterStore :=
  let entryId := entryIdAt c
  match c.outcome with
  | .whole => ⟨s.pending.insert entryId (some ⟨entryId, flowId, task, error, attempt, c.timestamp⟩)⟩
  | .torn => ⟨s.pending.insert entryId none⟩
  | .refused => s

end DeadLetterStore

structure ManagedLease where
  offset : ℤ
  token : Str
  deadline : ℚ
  envelope : TaskEnvelope

structure EnqueueOutcome (ρ : Type) where
  queued : Bool
  envelope : Option TaskEnvelope
  cachedResult : Option ρ := none

structure TaskQueueManager (σ ρ : Type) where
  queue : σ
  idempotency : IdempotencyStore ρ
  deadLetters : Option DeadLetterStore := none
  defaultTtl : ℚ
  ttl_floor : 60 ≤ defaultTtl
  pendingKeys : SortedMap Str Str := SortedMap.empty
  taskOffsets : SortedMap Str ℤ := SortedMap.empty
  inflight : ℕ := 0

namespace TaskQueueManager

variable {σ ρ : Type} (w : WorkQueue σ)

def init (queue : σ) (idempotency : IdempotencyStore ρ) (deadLetters : Option DeadLetterStore)
    (defaultTtl : ℚ) : TaskQueueManager σ ρ :=
  { queue, idempotency, deadLetters, defaultTtl := max defaultTtl 60,
    ttl_floor := le_max_right _ _ }

def clearPending (e : TaskEnvelope) (m : TaskQueueManager σ ρ) : TaskQueueManager σ ρ :=
  match e.idempotencyKey with
  | none => m
  | some _ =>
    if m.pendingKeys.get? e.compositeKey = some e.taskId then
      { m with pendingKeys := m.pendingKeys.erase e.compositeKey }
    else m

def lookup (now : ℚ) (e : TaskEnvelope) (m : TaskQueueManager σ ρ) :
    Option ρ × TaskQueueManager σ ρ :=
  let r := m.idempotency.get now e.compositeKey
  (r.1, { m with idempotency := r.2 })

def reserve (e : TaskEnvelope) (m : TaskQueueManager σ ρ) : Bool × TaskQueueManager σ ρ :=
  if m.pendingKeys.contains e.compositeKey then (false, m)
  else (true, { m with pendingKeys := m.pendingKeys.insert e.compositeKey e.taskId })

def putEnvelope (clock : Clock) (e : TaskEnvelope) (m : TaskQueueManager σ ρ) :
    Except Error ℤ × TaskQueueManager σ ρ :=
  let r := w.put clock (.json e.toDict) m.queue
  (r.1, { m with queue := r.2 })

def register (e : TaskEnvelope) (offset : ℤ) (m : TaskQueueManager σ ρ) :
    TaskQueueManager σ ρ :=
  let m := { m with taskOffsets := m.taskOffsets.insert e.taskId offset }
  match e.idempotencyKey with
  | none => m
  | some _ =>
    if m.pendingKeys.contains e.compositeKey then m
    else { m with pendingKeys := m.pendingKeys.insert e.compositeKey e.taskId }

def storeEnvelope (clock : Clock) (e : TaskEnvelope) (m : TaskQueueManager σ ρ) :
    Except Error Unit × TaskQueueManager σ ρ :=
  match m.putEnvelope w clock e with
  | (.ok offset, m) => (.ok (), m.register e offset)
  | (.error err, m) => (.error err, m)

def storeQueued (clock : Clock) (e : TaskEnvelope) (m : TaskQueueManager σ ρ) :
    Except Error (EnqueueOutcome ρ) × TaskQueueManager σ ρ :=
  match m.storeEnvelope w clock e with
  | (.ok _, m) => (.ok ⟨true, some e, none⟩, m)
  | (.error err, m) => (.error err, m)

def enqueue (clock : Clock) (e : TaskEnvelope) (m : TaskQueueManager σ ρ) :
    Except Error (EnqueueOutcome ρ) × TaskQueueManager σ ρ :=
  match e.idempotencyKey with
  | none => m.storeQueued w clock e
  | some _ =>
    match m.lookup clock.monotonic e with
    | (some cached, m) => (.ok ⟨false, none, some cached⟩, m)
    | (none, m) =>
      match m.reserve e with
      | (false, m) => (.ok ⟨false, none, none⟩, m)
      | (true, m) => m.storeQueued w clock e

def manage (py : PyText) (float : PyFloat) (clock : Clock) (x : LeasedTask) :
    Except Error ManagedLease :=
  match x.task with
  | .json doc => do
    let envelope ← TaskEnvelope.fromDict py float clock doc
    pure ⟨x.offset, x.token, x.leaseDeadline, envelope⟩
  | .other _ => .error (.typeError "expected mapping for task field")

def lease (py : PyText) (float : PyFloat) (clock : Clock) (count leaseMs : ℤ)
    (m : TaskQueueManager σ ρ) : Except Error (List ManagedLease) × TaskQueueManager σ ρ :=
  let r := w.lease clock.monotonic count leaseMs m.queue
  let m := { m with queue := r.2 }
  match r.1.mapM (manage py float clock) with
  | .error err => (.error err, m)
  | .ok managed => (.ok managed, { m with inflight := m.inflight + managed.length })

def leave (l : ManagedLease) (m : TaskQueueManager σ ρ) : TaskQueueManager σ ρ :=
  { m with inflight := m.inflight - 1, taskOffsets := m.taskOffsets.erase l.envelope.taskId }

def ack (l : ManagedLease) (clear : Bool) (m : TaskQueueManager σ ρ) : TaskQueueManager σ ρ :=
  let m := leave l { m with queue := w.ack l.offset l.token m.queue }
  if clear then m.clearPending l.envelope else m

def nack (now : ℚ) (l : ManagedLease) (requeue : Bool) (m : TaskQueueManager σ ρ) :
    TaskQueueManager σ ρ :=
  let m := leave l { m with queue := w.nack now l.offset l.token requeue m.queue }
  if requeue then m else m.clearPending l.envelope

def keepPending (e : TaskEnvelope) (m : TaskQueueManager σ ρ) : TaskQueueManager σ ρ :=
  match e.idempotencyKey with
  | none => m
  | some _ => { m with pendingKeys := m.pendingKeys.insert e.compositeKey e.taskId }

def recordRetry (clock : Clock) (l : ManagedLease) (scheduledAt : FloatText)
    (m : TaskQueueManager σ ρ) : Except Error TaskEnvelope × TaskQueueManager σ ρ :=
  let m := m.ack w l false
  let e := l.envelope.withRetry (l.envelope.attempt + 1) scheduledAt
  match m.storeEnvelope w clock e with
  | (.ok _, m) => (.ok e, m.keepPending e)
  | (.error err, m) => (.error err, m)

def recordDeadLetter (c : DeadLetterClock) (l : ManagedLease) (error : Document) (reason : Str)
    (m : TaskQueueManager σ ρ) : TaskQueueManager σ ρ :=
  let m := m.ack w l true
  let e := l.envelope
  let error := error.setText "reason".toList reason
  let deadLetters := m.deadLetters.map (·.append c e.flowId e.toDict error (e.attempt + 1))
  { m with deadLetters }

def getCachedResult (now : ℚ) (e : TaskEnvelope) (m : TaskQueueManager σ ρ) :
    Option ρ × TaskQueueManager σ ρ :=
  m.lookup now e

end TaskQueueManager

end TraceMind.Queue
