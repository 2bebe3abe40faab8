import TraceMind.Foundation.Locking
import TraceMind.Queue.FileSpec

namespace TraceMind.Queue

open Locking

inductive QueueLock where
  | ioLock
  | lock
deriving DecidableEq

inductive Point where
  | idle
  | put (clock : Clock) (task : Task)
  | enter (clock : Clock) (task : Task) (offset : ℤ) (size seq : ℕ)
  | rotate
  | written
  | lease (now : ℚ) (count leaseMs : ℤ)
  | ack (offset : ℤ) (token : Str)
  | nack (now : ℚ) (offset : ℤ) (token : Str) (requeue : Bool)
  | reschedule (offset : ℤ) (availableAt : ℚ)
  | compact
  | compacted
  | unlock

namespace Opened

def write (clock : Clock) (task : Task) (n : Opened) : Opened × Point :=
  match n.prepare clock task with
  | (.error _, n) => (n, .written)
  | (.ok (offset, record, s), n) =>
    ({ n with disk := appendLog s.seq record n.disk },
      .enter clock task offset record.length s.seq)

def enterTask (float : PyFloat) (clock : Clock) (task : Task) (offset : ℤ) (size seq : ℕ)
    (n : Opened) : Opened :=
  match n.queue.segmentsBySeq.get? seq with
  | some s => n.added float clock task offset size s
  | none =>
    let availableAt := extractAvailableAt float task clock
    let q := n.queue.setEntry offset { task, segmentSeq := seq, availableAt }
    { n with queue := q.pushReady offset availableAt }

def settling (offset : ℤ) (token : Str) (n : Opened) : Option FileSegment :=
  match n.queue.entries.get? offset with
  | none => none
  | some e => if e.token = some token then n.queue.segmentsBySeq.get? e.segmentSeq else none

def ackLocked (offset : ℤ) (token : Str) (n : Opened) : Opened × Point :=
  match n.settling offset token with
  | some s => (n.settle offset s, .compact)
  | none => (n, .unlock)

def nackLocked (now : ℚ) (offset : ℤ) (token : Str) (requeue : Bool) (n : Opened) :
    Opened × Point :=
  if requeue then (n.nack now offset token true, .unlock)
  else
    match n.settling offset token with
    | some s => (n.settle offset s, .compact)
    | none => (n.nack now offset token false, .unlock)

def code (float : PyFloat) : Point → Instruction Opened Point QueueLock
  | .idle => .halt
  | .put clock task => .acquire .ioLock (write clock task)
  | .enter clock task offset size seq =>
    .acquire .lock (fun n => (n.enterTask float clock task offset size seq, .rotate))
  | .rotate => .release .lock (fun n => (n.maybeRotate, .written))
  | .written => .release .ioLock (fun n => (n, .idle))
  | .lease now count leaseMs => .acquire .lock (fun n => ((n.lease now count leaseMs).2, .unlock))
  | .ack offset token => .acquire .lock (ackLocked offset token)
  | .nack now offset token requeue => .acquire .lock (nackLocked now offset token requeue)
  | .reschedule offset availableAt =>
    .acquire .lock (fun n => (n.reschedule offset availableAt, .unlock))
  | .compact => .acquire .ioLock (fun n => (n.maybeCompactHead, .compacted))
  | .compacted => .release .ioLock (fun n => (n, .unlock))
  | .unlock => .release .lock (fun n => (n, .idle))

def entryPoint (c : Clock × Call) : Point :=
  match c.2 with
  | .put task => .put c.1 task
  | .lease count leaseMs => if count ≤ 0 then .idle else .lease c.1.monotonic count leaseMs
  | .ack offset token => .ack offset token
  | .nack offset token requeue => .nack c.1.monotonic offset token requeue
  | .reschedule offset availableAt => .reschedule offset availableAt

def threads (float : PyFloat) : Program (Clock × Call) Opened Point QueueLock :=
  ⟨entryPoint, code float⟩

def heldAt : Point → QueueLock → Bool
  | .enter .., .ioLock => true
  | .rotate, _ => true
  | .written, .ioLock => true
  | .compact, .lock => true
  | .compacted, _ => true
  | .unlock, .lock => true
  | _, _ => false

theorem write_held (clock : Clock) (task : Task) (n : Opened) (l : QueueLock) :
    heldAt (n.write clock task).2 l = true ↔ l = .ioLock := by
  unfold write
  split <;> cases l <;> simp [heldAt]

theorem ackLocked_held (offset : ℤ) (token : Str) (n : Opened) (l : QueueLock) :
    heldAt (n.ackLocked offset token).2 l = true ↔ l = .lock := by
  unfold ackLocked
  split <;> cases l <;> simp [heldAt]

theorem nackLocked_held (now : ℚ) (offset : ℤ) (token : Str) (requeue : Bool) (n : Opened)
    (l : QueueLock) : heldAt (n.nackLocked now offset token requeue).2 l = true ↔ l = .lock := by
  unfold nackLocked
  split
  · cases l <;> simp [heldAt]
  · split <;> cases l <;> simp [heldAt]

theorem entryPoint_held (c : Clock × Call) (l : QueueLock) : heldAt (entryPoint c) l = false := by
  obtain ⟨clock, call⟩ := c
  cases call with
  | lease count ms =>
    simp only [entryPoint]
    split <;> rfl
  | put _ => rfl
  | ack _ _ => rfl
  | nack _ _ _ => rfl
  | reschedule _ _ => rfl

def annotation (float : PyFloat) : Annotation (threads float) where
  held p l := heldAt p l = true
  halt p l h := by
    cases p <;> simp_all [threads, code, heldAt]
  entry c l := by
    simp [threads, entryPoint_held c l]
  acquire p l body d l' h := by
    cases p <;> simp only [threads, code, Instruction.acquire.injEq, reduceCtorEq] at h <;>
      obtain ⟨rfl, rfl⟩ := h
    case put =>
      rw [write_held]
      simp [heldAt]
    case ack =>
      rw [ackLocked_held]
      simp [heldAt]
    case nack =>
      rw [nackLocked_held]
      simp [heldAt]
    all_goals cases l' <;> simp [heldAt]
  release p l body d l' h := by
    cases p <;> simp only [threads, code, Instruction.release.injEq, reduceCtorEq] at h <;>
      obtain ⟨rfl, rfl⟩ := h
    all_goals cases l' <;> simp [heldAt]
  releases p l body h := by
    cases p <;> simp only [threads, code, Instruction.release.injEq, reduceCtorEq] at h <;>
      obtain ⟨rfl, -⟩ := h
    all_goals rfl

section cycles

variable {ι : Type} {float : PyFloat} {p : Point} {l : QueueLock}
  {s s' : Locking.State ι Opened Point QueueLock} {e : Locking.Event ι (Clock × Call)}

def isEnter : Point → Bool
  | .enter .. => true
  | _ => false

def isCompact : Point → Bool
  | .compact => true
  | _ => false

def writes (n : Opened) : Point → Bool
  | .put clock task => (n.prepare clock task).1.isOk
  | _ => false

def settles (n : Opened) : Point → Bool
  | .ack offset token => (n.settling offset token).isSome
  | .nack _ offset token requeue => !requeue && (n.settling offset token).isSome
  | _ => false

def Orderly (e : Locking.Event ι (Clock × Call)) (s : Locking.State ι Opened Point QueueLock) : Prop :=
  ∀ i, e = .advance i →
    (writes s.data (s.point i) = true → ∀ j, isCompact (s.point j) = false) ∧
    (settles s.data (s.point i) = true → ∀ j, isEnter (s.point j) = false)

theorem acquires_held {body : Opened → Opened × Point} (hc : code float p = .acquire l body)
    {l' : QueueLock} (hh : heldAt p l' = true) :
    (isEnter p = true ∧ l = .lock) ∨ (isCompact p = true ∧ l = .ioLock) := by
  cases p <;> simp only [code, Instruction.acquire.injEq, reduceCtorEq] at hc <;>
    simp_all [heldAt, isEnter, isCompact]

theorem held_enter (float : PyFloat) (h : isEnter p = true) :
    heldAt p .ioLock = true ∧ ∃ body, code float p = .acquire .lock body := by
  cases p <;> simp_all [isEnter, heldAt, code]

theorem held_compact (float : PyFloat) (h : isCompact p = true) :
    heldAt p .lock = true ∧ ∃ body, code float p = .acquire .ioLock body := by
  cases p <;> simp_all [isCompact, heldAt, code]

def Entangled (point : ι → Point) : Prop :=
  (∃ i, isEnter (point i) = true) ∧ ∃ j, isCompact (point j) = true

theorem circularWait_iff (h : ( annotation float).Holds s) :
    CircularWait (threads float) s ↔ Entangled s.point := by
  constructor
  · intro hc
    obtain ⟨i, j, ⟨l, hl⟩, ⟨l', ⟨body, hi⟩, hj⟩, k, l'', ⟨body', hjk⟩, -⟩ := hc.blocked
    have hhi : heldAt (s.point i) l = true := (h l i).mp hl
    have hhj : heldAt (s.point j) l' = true := (h l' j).mp hj
    rcases acquires_held hi hhi with ⟨hei, rfl⟩ | ⟨hei, rfl⟩
    · rcases acquires_held hjk hhj with ⟨hej, -⟩ | ⟨hej, -⟩
      · cases hp : s.point j <;> simp_all [heldAt, isEnter]
      · exact ⟨⟨i, hei⟩, j, hej⟩
    · rcases acquires_held hjk hhj with ⟨hej, -⟩ | ⟨hej, -⟩
      · exact ⟨⟨j, hej⟩, i, hei⟩
      · cases hp : s.point j <;> simp_all [heldAt, isCompact]
  · rintro ⟨⟨i, hi⟩, j, hj⟩
    obtain ⟨hhi, hwi⟩ := held_enter float hi
    obtain ⟨hhj, hwj⟩ := held_compact float hj
    exact CircularWait.pair ⟨.lock, hwi, (h _ j).mpr hhj⟩ ⟨.ioLock, hwj, (h _ i).mpr hhi⟩

theorem acquired_point {body : Opened → Opened × Point} (hc : code float p = .acquire l body)
    (n : Opened) :
    isEnter (body n).2 = writes n p ∧ isCompact (body n).2 = settles n p := by
  cases p <;> simp only [code, Instruction.acquire.injEq, reduceCtorEq] at hc <;>
    obtain ⟨rfl, rfl⟩ := hc
  case put clock task =>
    simp only [write, writes, settles]
    rcases n.prepare clock task with ⟨_ | _, _⟩ <;> exact ⟨rfl, rfl⟩
  case ack offset token =>
    simp only [ackLocked, writes, settles]
    rcases n.settling offset token with _ | _ <;> exact ⟨rfl, rfl⟩
  case nack now offset token requeue =>
    simp only [nackLocked, writes, settles]
    cases requeue
    · rcases n.settling offset token with _ | _ <;> exact ⟨rfl, rfl⟩
    · exact ⟨rfl, rfl⟩
  all_goals exact ⟨rfl, rfl⟩

theorem released_point {body : Opened → Opened × Point} (hc : code float p = .release l body)
    (n : Opened) :
    isEnter (body n).2 = writes n p ∧ isCompact (body n).2 = settles n p := by
  cases p <;> simp only [code, Instruction.release.injEq, reduceCtorEq] at hc <;>
    obtain ⟨rfl, rfl⟩ := hc
  all_goals exact ⟨rfl, rfl⟩

theorem not_isEnter_of_settles {n : Opened} (h : settles n p = true) : isEnter p = false := by
  cases p <;> simp_all [settles, isEnter]

theorem not_isCompact_of_writes {n : Opened} (h : writes n p = true) : isCompact p = false := by
  cases p <;> simp_all [writes, isCompact]

theorem entry_point (c : Clock × Call) :
    isEnter (entryPoint c) = false ∧ isCompact (entryPoint c) = false := by
  obtain ⟨clock, call⟩ := c
  cases call with
  | lease count ms =>
    simp only [entryPoint]
    split <;> exact ⟨rfl, rfl⟩
  | put _ => exact ⟨rfl, rfl⟩
  | ack _ _ => exact ⟨rfl, rfl⟩
  | nack _ _ _ => exact ⟨rfl, rfl⟩
  | reschedule _ _ => exact ⟨rfl, rfl⟩

variable [DecidableEq ι]

theorem entangled_moved {i : ι} {q : Point} (h : ¬Entangled s.point)
    (hq : isEnter q = writes s.data (s.point i) ∧ isCompact q = settles s.data (s.point i)) :
    Entangled (Function.update s.point i q) ↔ ¬Orderly (.advance i) s := by
  constructor
  · rintro ⟨⟨i₁, h₁⟩, i₂, h₂⟩ ho
    obtain ⟨hw, hs⟩ := ho i rfl
    by_cases hi₁ : i₁ = i
    · subst hi₁
      simp only [Function.update_self] at h₁
      have hne : i₂ ≠ i₁ := by
        rintro rfl
        simp only [Function.update_self] at h₂
        cases q <;> simp_all [isEnter, isCompact]
      rw [Function.update_of_ne hne] at h₂
      rw [hw (hq.1.symm.trans h₁) i₂] at h₂
      cases h₂
    · rw [Function.update_of_ne hi₁] at h₁
      by_cases hi₂ : i₂ = i
      · subst hi₂
        simp only [Function.update_self] at h₂
        rw [hs (hq.2.symm.trans h₂) i₁] at h₁
        cases h₁
      · rw [Function.update_of_ne hi₂] at h₂
        exact h ⟨⟨i₁, h₁⟩, i₂, h₂⟩
  · intro ho
    by_contra hne
    refine ho (fun i' he => ?_)
    cases he
    constructor
    · intro hw j
      by_contra hj
      rw [Bool.not_eq_false] at hj
      have hji : j ≠ i := by
        rintro rfl
        rw [not_isCompact_of_writes hw] at hj
        cases hj
      refine hne ⟨⟨i, ?_⟩, j, ?_⟩
      · simp only [Function.update_self]
        exact hq.1.trans hw
      · rw [Function.update_of_ne hji]
        exact hj
    · intro hs j
      by_contra hj
      rw [Bool.not_eq_false] at hj
      have hji : j ≠ i := by
        rintro rfl
        rw [not_isEnter_of_settles hs] at hj
        cases hj
      refine hne ⟨⟨j, ?_⟩, i, ?_⟩
      · rw [Function.update_of_ne hji]
        exact hj
      · simp only [Function.update_self]
        exact hq.2.trans hs

theorem entangled_performed (h : ¬Entangled s.point) (hp : Performed (threads float) s e s') : Entangled s'.point ↔ ¬Orderly e s := by
  cases hp with
  | @start i c hc =>
    obtain ⟨hn₁, hn₂⟩ := entry_point c
    refine iff_of_false ?_ (fun ho => ho (fun i' he' => nomatch he'))
    rintro ⟨⟨i₁, h₁⟩, i₂, h₂⟩
    by_cases hi₁ : i₁ = i
    · subst hi₁
      simp only [threads, Function.update_self, hn₁] at h₁
      cases h₁
    · by_cases hi₂ : i₂ = i
      · subst hi₂
        simp only [threads, Function.update_self, hn₂] at h₂
        cases h₂
      · simp only [Function.update_of_ne hi₁] at h₁
        simp only [Function.update_of_ne hi₂] at h₂
        exact h ⟨⟨i₁, h₁⟩, i₂, h₂⟩
  | acquire hc _ => exact entangled_moved h (acquired_point hc s.data)
  | release hc => exact entangled_moved h (released_point hc s.data)

theorem reaches_orderly {n : Opened} (h : Reaches (threads float) Orderly (.idle n .idle) s) :
    ( annotation float).Holds s ∧ ¬Entangled s.point := by
  refine ⟨(( annotation float).holds_idle n rfl).reaches h, ?_⟩
  refine h.induct (I := fun s => ¬Entangled s.point) ?_ ?_
  · rintro ⟨⟨i, hi⟩, -⟩
    cases hi
  · intro s e s' hn ho hp h'
    exact (entangled_performed hn hp).mp h' ho

theorem circular_wait_iff_disorder (float : PyFloat) (n : Opened)
    (s : Locking.State ι Opened Point QueueLock)
    (h : Reaches (threads float) Orderly (.idle n .idle) s) :
    ¬CircularWait (threads float) s ∧
      ∀ e s', perform (threads float) e s = some s' →
        (CircularWait (threads float) s' ↔ ¬Orderly e s) := by
  obtain ⟨hh, hn⟩ := reaches_orderly h
  refine ⟨fun hc => hn ((circularWait_iff hh).mp hc), fun e s' he => ?_⟩
  have hp := performed_iff.mp he
  rw [circularWait_iff (hh.performed hp)]
  exact entangled_performed hn hp

end cycles

def sampleQueue : Opened := rotateSegment ⟨emptyQueue plainConfig, {}⟩

theorem circular_wait_put_alone :
    ∃ s : Locking.State Bool Opened Point QueueLock,
      Reaches (threads plainConfig.float) Orderly (.idle sampleQueue .idle) s ∧
      s.holder .ioLock = some false ∧ ¬CircularWait (threads plainConfig.float) s := by
  have hr : Reaches (threads plainConfig.float) Orderly (.idle sampleQueue .idle)
      (Locking.State.move ⟨sampleQueue, Function.update (fun _ => .idle) false
        (.put (clockAt 0) plainTask), fun _ => none⟩ false (write (clockAt 0) plainTask) .ioLock
        (some false)) := by
    refine .tail (.single ⟨.start false (clockAt 0, .put plainTask), ?_, rfl⟩)
      ⟨.advance false, ?_, rfl⟩
    · intro i he
      cases he
    · intro i he
      cases he
      exact ⟨fun _ j => by cases j <;> rfl, fun hs => nomatch hs⟩
  exact ⟨_, hr, rfl, (circular_wait_iff_disorder plainConfig.float sampleQueue _ hr).1⟩

def leasedThenPut : List (Locking.Event Bool (Clock × Call)) :=
  [.start false (clockAt 0, .put plainTask), .advance false, .advance false, .advance false,
    .advance false, .start false (clockAt 0, .lease 1 1000), .advance false, .advance false,
    .start false (clockAt 0, .put plainTask), .start true (clockAt 0, .ack 0 (leaseToken 1))]

theorem circular_wait_put_ack :
    ∃ s : Locking.State Bool Opened Point QueueLock,
      Reaches (threads plainConfig.float) (fun _ _ => True) (.idle sampleQueue .idle) s ∧
      CircularWait (threads plainConfig.float) s := by
  have hrun : (performAll (threads plainConfig.float)
      (leasedThenPut ++ [.advance false, .advance true]) (.idle sampleQueue .idle)).map
      (fun s => isEnter (s.point false) && isCompact (s.point true)) = some true := by
    decide +kernel
  obtain ⟨s, hs, hp⟩ := Option.map_eq_some_iff.mp hrun
  have hr := reaches_of_performAll hs
  rw [Bool.and_eq_true] at hp
  have hh := (( annotation plainConfig.float).holds_idle sampleQueue rfl).reaches hr
  exact ⟨s, hr, (circularWait_iff hh).mpr ⟨⟨false, hp.1⟩, true, hp.2⟩⟩

end Opened

end TraceMind.Queue
