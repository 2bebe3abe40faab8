import TraceMind.Queue.Manager
import TraceMind.Queue.Memory

namespace TraceMind.Queue

namespace Dedup

inductive Phase (ρ : Type) where
  | idle
  | looked (e : TaskEnvelope)
  | reserved (e : TaskEnvelope)
  | stored (e : TaskEnvelope) (offset : ℤ)
  | leased (todo : List ManagedLease)
  | found (l : ManagedLease) (todo : List ManagedLease)
  | foundAcked (l : ManagedLease) (todo : List ManagedLease)
  | missed (l : ManagedLease) (todo : List ManagedLease)
  | ran (l : ManagedLease) (result : ρ) (todo : List ManagedLease)
  | acked (l : ManagedLease) (result : ρ) (todo : List ManagedLease)
  | cleared (l : ManagedLease) (result : ρ) (todo : List ManagedLease)
  | recorded (l : ManagedLease) (todo : List ManagedLease)

structure System (ι σ ρ : Type) where
  manager : TaskQueueManager σ ρ
  phase : ι → Phase ρ
  queued : List TaskEnvelope := []

inductive Event (ι ρ : Type) where
  | enqueue (thread : ι) (clock : Clock) (e : TaskEnvelope)
  | lease (thread : ι) (clock : Clock) (count leaseMs : ℤ)
  | advance (thread : ι) (clock : Clock) (result : ρ)

variable {ι σ ρ : Type}

def Event.clock : Event ι ρ → Clock
  | .enqueue _ c _ | .lease _ c _ _ | .advance _ c _ => c

section steps

variable (w : WorkQueue σ) (py : PyText) (float : PyFloat)

def lookupStep (clock : Clock) (e : TaskEnvelope) (m : TaskQueueManager σ ρ) :
    TaskQueueManager σ ρ × Phase ρ :=
  match e.idempotencyKey with
  | none => (m, .reserved e)
  | some _ =>
    match m.lookup clock.monotonic e with
    | (some _, m) => (m, .idle)
    | (none, m) => (m, .looked e)

def reserveStep (e : TaskEnvelope) (m : TaskQueueManager σ ρ) : TaskQueueManager σ ρ × Phase ρ :=
  match m.reserve e with
  | (false, m) => (m, .idle)
  | (true, m) => (m, .reserved e)

def leaseStep (clock : Clock) (count leaseMs : ℤ) (m : TaskQueueManager σ ρ) :
    TaskQueueManager σ ρ × Phase ρ :=
  match m.lease w py float clock count leaseMs with
  | (.ok leases, m) => (m, .leased leases)
  | (.error _, m) => (m, .idle)

def checkStep (clock : Clock) (l : ManagedLease) (todo : List ManagedLease)
    (m : TaskQueueManager σ ρ) : TaskQueueManager σ ρ × Phase ρ :=
  match m.getCachedResult clock.monotonic l.envelope with
  | (some _, m) => (m, .found l todo)
  | (none, m) => (m, .missed l todo)

def move (s : System ι σ ρ) [DecidableEq ι] (i : ι) (r : TaskQueueManager σ ρ × Phase ρ) :
    System ι σ ρ :=
  { s with manager := r.1, phase := Function.update s.phase i r.2 }

def storeStep [DecidableEq ι] (clock : Clock) (e : TaskEnvelope) (i : ι) (s : System ι σ ρ) :
    System ι σ ρ :=
  match s.manager.putEnvelope w clock e with
  | (.ok offset, m) =>
    { manager := m, phase := Function.update s.phase i (.stored e offset),
      queued := s.queued ++ [e] }
  | (.error _, m) => move s i (m, .idle)

def advance [DecidableEq ι] (clock : Clock) (result : ρ) (i : ι) (s : System ι σ ρ) :
    Option (System ι σ ρ) :=
  let m := s.manager
  match s.phase i with
  | .idle => none
  | .leased [] => some (move s i (m, .idle))
  | .looked e => some (move s i (reserveStep e m))
  | .reserved e => some (storeStep w clock e i s)
  | .stored e offset => some (move s i (m.register e offset, .idle))
  | .leased (l :: todo) => some (move s i (checkStep clock l todo m))
  | .found l todo => some (move s i (m.ack w l false, .foundAcked l todo))
  | .foundAcked l todo => some (move s i (m.clearPending l.envelope, .leased todo))
  | .missed l todo => some (move s i (m, .ran l result todo))
  | .ran l r todo => some (move s i (m.ack w l false, .acked l r todo))
  | .acked l r todo => some (move s i (m.clearPending l.envelope, .cleared l r todo))
  | .cleared l r todo =>
    let idempotency :=
      m.idempotency.remember clock.monotonic l.envelope.compositeKey r m.defaultTtl
    some (move s i ({ m with idempotency }, .recorded l todo))
  | .recorded l todo => some (move s i (m.clearPending l.envelope, .leased todo))

def perform [DecidableEq ι] (e : Event ι ρ) (s : System ι σ ρ) : Option (System ι σ ρ) :=
  match e with
  | .enqueue i clock env =>
    match s.phase i with
    | .idle => some (move s i (lookupStep clock env s.manager))
    | _ => none
  | .lease i clock count leaseMs =>
    match s.phase i with
    | .idle => some (move s i (leaseStep w py float clock count leaseMs s.manager))
    | _ => none
  | .advance i clock result => advance w clock result i s

end steps

section invariant

variable {w : WorkQueue σ} {py : PyText} {float : PyFloat} {k : Str} {i : ι} {p : Phase ρ}
  {s s' : System ι σ ρ}

def Recorded (k : Str) (m : TaskQueueManager σ ρ) : Prop :=
  (m.idempotency.entries.get? k).isSome = true

def Pending (k : Str) (m : TaskQueueManager σ ρ) : Prop := m.pendingKeys.contains k = true

def Reserves (k : Str) (p : Phase ρ) : Prop :=
  ∃ e, p = .reserved e ∧ e.idempotencyKey = some k

def InWindow (k : Str) (p : Phase ρ) : Prop :=
  ∃ l r todo, p = .cleared l r todo ∧ l.envelope.compositeKey = k

def Knows (k : Str) (p : Phase ρ) : Prop :=
  ∃ l todo, (p = .found l todo ∨ p = .foundAcked l todo ∨ p = .recorded l todo) ∧
    l.envelope.compositeKey = k

def queuedWith (k : Str) (s : System ι σ ρ) : ℕ :=
  s.queued.countP (fun e => e.idempotencyKey = some k)

def Guarded (k : Str) (s : System ι σ ρ) : Prop :=
  Pending k s.manager ∨ (∃ j, InWindow k (s.phase j)) ∨ Recorded k s.manager

structure Inv (k : Str) (s : System ι σ ρ) : Prop where
  queued : 0 < queuedWith k s → Guarded k s
  reserved : ∀ i, Reserves k (s.phase i) → Guarded k s
  once : queuedWith k s ≤ 1
  first : ∀ i, Reserves k (s.phase i) → queuedWith k s = 0
  single : ∀ i j, Reserves k (s.phase i) → Reserves k (s.phase j) → i = j
  knows : ∀ i, Knows k (s.phase i) → Recorded k s.manager

theorem Inv.init (m : TaskQueueManager σ ρ) :
    Inv k (⟨m, fun _ => .idle, []⟩ : System ι σ ρ) where
  queued h := absurd h (lt_irrefl 0)
  reserved := by
    rintro i ⟨e, he, -⟩
    cases he
  once := Nat.zero_le 1
  first := fun _ _ => rfl
  single := by
    rintro i j ⟨e, he, -⟩
    cases he
  knows := by
    rintro i ⟨l, todo, he | he | he, -⟩ <;> cases he

variable [DecidableEq ι]

structure Quiet (k : Str) (s : System ι σ ρ) (i : ι) (m : TaskQueueManager σ ρ) (p : Phase ρ) :
    Prop where
  reserves : Reserves k p → Reserves k (s.phase i)
  pending : Pending k s.manager → Pending k m ∨ InWindow k p ∨ Recorded k m
  window : InWindow k (s.phase i) → InWindow k p ∨ Recorded k m
  knows : Knows k p → Recorded k m

theorem Guarded.moved {m : TaskQueueManager σ ρ} (h : Guarded k s) (hq : Quiet k s i m p)
    (hr : Recorded k s.manager → Recorded k m) : Guarded k (move s i (m, p)) := by
  have hp : InWindow k p → ∃ j, InWindow k ((move s i (m, p)).phase j) := fun hw =>
    ⟨i, by simpa [move] using hw⟩
  rcases h with h | ⟨j, hj⟩ | h
  · rcases hq.pending h with h | h | h
    · exact Or.inl h
    · exact Or.inr (Or.inl (hp h))
    · exact Or.inr (Or.inr h)
  · by_cases hji : j = i
    · subst hji
      rcases hq.window hj with h | h
      · exact Or.inr (Or.inl (hp h))
      · exact Or.inr (Or.inr h)
    · exact Or.inr (Or.inl ⟨j, by simpa [move, hji] using hj⟩)
  · exact Or.inr (Or.inr (hr h))

theorem Inv.moved {m : TaskQueueManager σ ρ} (h : Inv k s) (hq : Quiet k s i m p)
    (hr : Recorded k s.manager → Recorded k m) : Inv k (move s i (m, p)) := by
  have hres : ∀ j, Reserves k ((move s i (m, p)).phase j) → Reserves k (s.phase j) := by
    intro j hj
    by_cases hji : j = i
    · subst hji
      exact hq.reserves (by simpa [move] using hj)
    · simpa [move, hji] using hj
  refine ⟨fun hc => (h.queued hc).moved hq hr, fun j hj => (h.reserved j (hres j hj)).moved hq hr,
    h.once, fun j hj => h.first j (hres j hj),
    fun a b ha hb => h.single a b (hres a ha) (hres b hb), fun j hj => ?_⟩
  by_cases hji : j = i
  · subst hji
    exact hq.knows (by simpa [move] using hj)
  · exact hr (h.knows j (by simpa [move, hji] using hj))

theorem Inv.reserve {e : TaskEnvelope} (h : Inv k s) (hp : s.phase i = .looked e)
    (hfree : s.manager.pendingKeys.contains e.compositeKey = false)
    (hset : e.idempotencyKey = some k → ¬Recorded k s.manager ∧ ∀ j, ¬InWindow k (s.phase j))
    (hr : Recorded k s.manager → Recorded k (s.manager.reserve e).2) :
    Inv k (move s i ((s.manager.reserve e).2, .reserved e)) := by
  have hm : (s.manager.reserve e).2 = { s.manager with
      pendingKeys := s.manager.pendingKeys.insert e.compositeKey e.taskId } := by
    simp [TaskQueueManager.reserve, hfree]
  by_cases hk : e.idempotencyKey = some k
  · have hkey : e.compositeKey = k := by simp [TaskEnvelope.compositeKey, hk]
    obtain ⟨hn, hw⟩ := hset hk
    have hguard : ¬Guarded k s := by
      rintro (hg | ⟨j, hj⟩ | hg)
      · rw [Pending, ← hkey, hfree] at hg
        cases hg
      · exact hw j hj
      · exact hn hg
    have hzero : queuedWith k s = 0 := by
      by_contra hne
      exact hguard (h.queued (Nat.pos_of_ne_zero hne))
    have hnone : ∀ j, ¬Reserves k (s.phase j) := fun j hj => hguard (h.reserved j hj)
    have honly : ∀ j, Reserves k ((move s i ((s.manager.reserve e).2, .reserved e)).phase j) →
        j = i := by
      intro j hj
      by_contra hji
      exact hnone j (by simpa [move, hji] using hj)
    have hguard' : Guarded k (move s i ((s.manager.reserve e).2, .reserved e)) := by
      left
      simp [Pending, move, hm, ← hkey, SortedMap.contains_insert]
    refine ⟨fun _ => hguard', fun _ _ => hguard', h.once, fun _ _ => hzero,
      fun a b ha hb => (honly a ha).trans (honly b hb).symm, fun j hj => ?_⟩
    by_cases hji : j = i
    · subst hji
      obtain ⟨l, todo, he | he | he, -⟩ := (by simpa [move] using hj : Knows k (.reserved e))
        <;> cases he
    · exact hr (h.knows j (by simpa [move, hji] using hj))
  · apply h.moved _ hr
    refine ⟨?_, fun hp' => Or.inl ?_, ?_, ?_⟩
    · rintro ⟨e', he', hk'⟩
      cases he'
      exact absurd hk' hk
    · rw [Pending] at hp' ⊢
      rw [hm, SortedMap.contains_insert, hp', Bool.or_true]
    · rintro ⟨l, r, todo, he, -⟩
      rw [hp] at he
      cases he
    · rintro ⟨l, todo, he | he | he, -⟩ <;> cases he

theorem Inv.store {e : TaskEnvelope} {m : TaskQueueManager σ ρ} {offset : ℤ} (h : Inv k s)
    (hp : s.phase i = .reserved e) (hpend : m.pendingKeys = s.manager.pendingKeys)
    (hrec : m.idempotency = s.manager.idempotency) :
    Inv k (⟨m, Function.update s.phase i (.stored e offset), s.queued ++ [e]⟩ :
      System ι σ ρ) := by
  have hres : ∀ j, Reserves k (Function.update s.phase i (.stored e offset) j) →
      j ≠ i ∧ Reserves k (s.phase j) := by
    intro j hj
    by_cases hji : j = i
    · subst hji
      obtain ⟨e', he', -⟩ := (by simpa using hj : Reserves k (.stored e offset))
      cases he'
    · exact ⟨hji, by simpa [hji] using hj⟩
  have hguard : Guarded k s → Guarded k (⟨m, Function.update s.phase i (.stored e offset),
      s.queued ++ [e]⟩ : System ι σ ρ) := by
    rintro (hg | ⟨j, hj⟩ | hg)
    · left
      rw [Pending] at hg ⊢
      rwa [hpend]
    · refine Or.inr (Or.inl ⟨j, ?_⟩)
      have hji : j ≠ i := by
        rintro rfl
        obtain ⟨l, r, todo, he, -⟩ := hj
        rw [hp] at he
        cases he
      simpa [hji] using hj
    · refine Or.inr (Or.inr ?_)
      rw [Recorded] at hg ⊢
      rwa [hrec]
  have hcount : queuedWith k (⟨m, Function.update s.phase i (.stored e offset),
      s.queued ++ [e]⟩ : System ι σ ρ) =
      queuedWith k s + if e.idempotencyKey = some k then 1 else 0 := by
    simp [queuedWith, List.countP_append, List.countP_cons]
  have hknows : ∀ j, Knows k (Function.update s.phase i (.stored e offset) j) →
      Recorded k m := by
    intro j hj
    rw [Recorded, hrec]
    by_cases hji : j = i
    · subst hji
      obtain ⟨l, todo, he | he | he, -⟩ := (by simpa using hj : Knows k (.stored e offset))
        <;> cases he
    · exact h.knows j (by simpa [hji] using hj)
  by_cases hk : e.idempotencyKey = some k
  · have hi : Reserves k (s.phase i) := ⟨e, hp, hk⟩
    have hzero := h.first i hi
    refine ⟨fun _ => hguard (h.reserved i hi), fun j hj => ?_, ?_, fun j hj => ?_,
      fun a b ha _ => ?_, hknows⟩
    · exact absurd (h.single j i (hres j hj).2 hi) (hres j hj).1
    · rw [hcount, if_pos hk, hzero]
    · exact absurd (h.single j i (hres j hj).2 hi) (hres j hj).1
    · exact absurd (h.single a i (hres a ha).2 hi) (hres a ha).1
  · rw [if_neg hk, Nat.add_zero] at hcount
    refine ⟨fun hc => hguard (h.queued (hcount ▸ hc)), fun j hj => hguard (h.reserved j (hres j hj).2),
      hcount ▸ h.once, fun j hj => hcount.trans (h.first j (hres j hj).2),
      fun a b ha hb => h.single a b (hres a ha).2 (hres b hb).2, hknows⟩

def isPlain : Phase ρ → Bool
  | .reserved _ | .cleared .. | .found .. | .foundAcked .. | .recorded .. => false
  | _ => true

omit [DecidableEq ι] in
theorem Quiet.plain {m : TaskQueueManager σ ρ} (hold : ¬InWindow k (s.phase i))
    (hp : isPlain p = true)
    (hm : Pending k s.manager → Pending k m ∨ Recorded k m) : Quiet k s i m p where
  reserves := by
    rintro ⟨e, rfl, -⟩
    cases hp
  pending h := (hm h).imp_right Or.inr
  window h := absurd h hold
  knows := by
    rintro ⟨l, todo, rfl | rfl | rfl, -⟩ <;> cases hp

theorem lookup_recorded {m : TaskQueueManager σ ρ} {now : ℚ} {e : TaskEnvelope} {r : ρ}
    (h : (m.lookup now e).1 = some r) : Recorded e.compositeKey (m.lookup now e).2 := by
  simp only [TaskQueueManager.lookup, IdempotencyStore.get] at h ⊢
  rcases he : m.idempotency.entries.get? e.compositeKey with _ | entry
  · simp [he] at h
  · simp only [he] at h ⊢
    split_ifs at h with hx
    simp [Recorded, hx, OrderedDict.get?_moveToEnd, he]

theorem clearPending_pending {m : TaskQueueManager σ ρ} (e : TaskEnvelope)
    (h : Pending k m) : Pending k (m.clearPending e) ∨ e.compositeKey = k := by
  unfold TaskQueueManager.clearPending
  split
  · exact Or.inl h
  · split_ifs
    · by_cases hk : k = e.compositeKey
      · exact Or.inr hk.symm
      · left
        rw [Pending] at h ⊢
        simp [SortedMap.contains_erase, hk, h]
    · exact Or.inl h

theorem register_pending {m : TaskQueueManager σ ρ} (e : TaskEnvelope) (o : ℤ)
    (h : Pending k m) : Pending k (m.register e o) := by
  unfold TaskQueueManager.register
  split
  · exact h
  · dsimp only
    split_ifs
    · exact h
    · rw [Pending] at h ⊢
      simp [SortedMap.contains_insert, h]

theorem remember_recorded (m : TaskQueueManager σ ρ) (now : ℚ) (r : ρ) :
    (((m.idempotency.remember now k r m.defaultTtl)).entries.get? k).isSome = true := by
  have hpos : ¬m.defaultTtl ≤ 0 := by
    have := m.ttl_floor
    intro hle
    linarith
  simp [IdempotencyStore.remember, hpos, OrderedDict.get?_trim_store m.idempotency.positive]

def Retained (k : Str) (e : Event ι ρ) (s s' : System ι σ ρ) : Prop :=
  ∀ entry, s.manager.idempotency.entries.get? k = some entry →
    e.clock.monotonic < entry.expiresAt ∧ Recorded k s'.manager

def Timely (k : Str) (e : Event ι ρ) (s : System ι σ ρ) : Prop :=
  ∀ i clock r env, e = .advance i clock r → s.phase i = .looked env →
    env.idempotencyKey = some k → ¬Recorded k s.manager ∧ ∀ j, ¬InWindow k (s.phase j)

theorem Inv.advance {clock : Clock} {r : ρ} (h : Inv k s)
    (hp : advance w clock r i s = some s')
    (hr : Recorded k s.manager → Recorded k s'.manager)
    (ht : Timely k (.advance i clock r) s) : Inv k s' := by
  have hold {q : Phase ρ} (hq : s.phase i = q) (hn : ∀ l r todo, q ≠ .cleared l r todo) :
      ¬InWindow k (s.phase i) := by
    rintro ⟨l, r, todo, he, -⟩
    exact hn l r todo (hq.symm.trans he)
  cases hphase : s.phase i with
  | idle => simp [Dedup.advance, hphase] at hp
  | looked e =>
    simp only [Dedup.advance, hphase, Option.some.injEq, reserveStep] at hp
    cases hfree : s.manager.pendingKeys.contains e.compositeKey with
    | true =>
      simp only [TaskQueueManager.reserve, hfree, if_true] at hp
      subst hp
      exact h.moved (.plain (hold hphase nofun) rfl Or.inl) hr
    | false =>
      have hm : s.manager.reserve e = (true, (s.manager.reserve e).2) := by
        simp [TaskQueueManager.reserve, hfree]
      rw [hm] at hp
      subst hp
      exact h.reserve hphase hfree (ht i clock r e rfl hphase) hr
  | reserved e =>
    simp only [Dedup.advance, hphase, Option.some.injEq, storeStep] at hp
    rcases hput : s.manager.putEnvelope w clock e with ⟨_ | offset, m⟩
    · rw [hput] at hp
      subst hp
      have hm : m = (s.manager.putEnvelope w clock e).2 := by rw [hput]
      exact h.moved (.plain (hold hphase nofun) rfl (fun hk => Or.inl (by rw [hm]; exact hk))) hr
    · rw [hput] at hp
      subst hp
      have hm : m = (s.manager.putEnvelope w clock e).2 := by rw [hput]
      exact h.store hphase (by rw [hm]; rfl) (by rw [hm]; rfl)
  | stored e offset =>
    simp only [Dedup.advance, hphase, Option.some.injEq] at hp
    subst hp
    exact h.moved (.plain (hold hphase nofun) rfl
      (fun hk => Or.inl (register_pending e offset hk))) hr
  | leased todo =>
    cases todo with
    | nil =>
      simp only [Dedup.advance, hphase, Option.some.injEq] at hp
      subst hp
      exact h.moved (.plain (hold hphase nofun) rfl Or.inl) hr
    | cons l todo =>
      simp only [Dedup.advance, hphase, Option.some.injEq, checkStep,
        TaskQueueManager.getCachedResult] at hp
      rcases hlook : s.manager.lookup clock.monotonic l.envelope with ⟨_ | found, m⟩
      · rw [hlook] at hp
        subst hp
        have hm : m = (s.manager.lookup clock.monotonic l.envelope).2 := by rw [hlook]
        exact h.moved (.plain (hold hphase nofun) rfl
          (fun hk => Or.inl (by rw [hm]; exact hk))) hr
      · rw [hlook] at hp
        subst hp
        have hm : m = (s.manager.lookup clock.monotonic l.envelope).2 := by rw [hlook]
        have hrec : Recorded l.envelope.compositeKey m := by
          rw [hm]
          exact lookup_recorded (r := found) (by rw [hlook])
        refine h.moved ⟨?_, fun hk => Or.inl (by rw [hm]; exact hk),
          fun hw => absurd hw (hold hphase nofun), ?_⟩ hr
        · rintro ⟨e, he, -⟩
          cases he
        · rintro ⟨l', todo', he | he | he, hk⟩
          · cases he
            rwa [← hk]
          · cases he
          · cases he
  | found l todo =>
    simp only [Dedup.advance, hphase, Option.some.injEq] at hp
    subst hp
    refine h.moved ⟨?_, Or.inl, fun hw => absurd hw (hold hphase nofun), ?_⟩ hr
    · rintro ⟨e, he, -⟩
      cases he
    · rintro ⟨l', todo', he | he | he, hk⟩
      · cases he
      · cases he
        exact hr (h.knows i ⟨l, todo, Or.inl hphase, hk⟩)
      · cases he
  | foundAcked l todo =>
    simp only [Dedup.advance, hphase, Option.some.injEq] at hp
    subst hp
    refine h.moved (.plain (hold hphase nofun) rfl (fun hk => ?_)) hr
    refine (clearPending_pending l.envelope hk).imp_right (fun hkey => ?_)
    exact hr (h.knows i ⟨l, todo, Or.inr (Or.inl hphase), hkey⟩)
  | missed l todo =>
    simp only [Dedup.advance, hphase, Option.some.injEq] at hp
    subst hp
    exact h.moved (.plain (hold hphase nofun) rfl Or.inl) hr
  | ran l result todo =>
    simp only [Dedup.advance, hphase, Option.some.injEq] at hp
    subst hp
    exact h.moved (.plain (hold hphase nofun) rfl Or.inl) hr
  | acked l result todo =>
    simp only [Dedup.advance, hphase, Option.some.injEq] at hp
    subst hp
    refine h.moved ⟨?_, fun hk => ?_, fun hw => absurd hw (hold hphase nofun), ?_⟩ hr
    · rintro ⟨e, he, -⟩
      cases he
    · exact (clearPending_pending l.envelope hk).imp_right
        (fun hkey => Or.inl ⟨l, result, todo, rfl, hkey⟩)
    · rintro ⟨l', todo', he | he | he, -⟩ <;> cases he
  | cleared l result todo =>
    simp only [Dedup.advance, hphase, Option.some.injEq] at hp
    subst hp
    have hrec : l.envelope.compositeKey = k → Recorded k { s.manager with
        idempotency := s.manager.idempotency.remember clock.monotonic l.envelope.compositeKey
          result s.manager.defaultTtl } := by
      rintro rfl
      exact remember_recorded s.manager clock.monotonic result
    refine h.moved ⟨?_, Or.inl, ?_, ?_⟩ hr
    · rintro ⟨e, he, -⟩
      cases he
    · rintro ⟨l', r', todo', he, hk⟩
      rw [hphase] at he
      cases he
      exact Or.inr (hrec hk)
    · rintro ⟨l', todo', he | he | he, hk⟩
      · cases he
      · cases he
      · cases he
        exact hrec hk
  | recorded l todo =>
    simp only [Dedup.advance, hphase, Option.some.injEq] at hp
    subst hp
    refine h.moved (.plain (hold hphase nofun) rfl (fun hk => ?_)) hr
    refine (clearPending_pending l.envelope hk).imp_right (fun hkey => ?_)
    exact hr (h.knows i ⟨l, todo, Or.inr (Or.inr hphase), hkey⟩)

theorem Inv.perform {e : Event ι ρ} (h : Inv k s) (hp : perform w py float e s = some s')
    (hr : Retained k e s s') (ht : Timely k e s) : Inv k s' := by
  have hrec : Recorded k s.manager → Recorded k s'.manager := by
    intro hk
    obtain ⟨entry, he⟩ := Option.isSome_iff_exists.mp hk
    exact (hr entry he).2
  cases e with
  | enqueue i clock env =>
    simp only [Dedup.perform] at hp
    split at hp
    · rename_i hphase
      cases hp
      have hold : ¬InWindow k (s.phase i) := by
        rintro ⟨l, r, todo, he, -⟩
        rw [hphase] at he
        cases he
      simp only [lookupStep] at hrec ⊢
      rcases hkey : env.idempotencyKey with _ | key
      · simp only [hkey] at hrec ⊢
        refine h.moved ⟨?_, Or.inl, fun hw => absurd hw hold, ?_⟩ hrec
        · rintro ⟨e', he', hk'⟩
          cases he'
          rw [hkey] at hk'
          cases hk'
        · rintro ⟨l, todo, he | he | he, -⟩ <;> cases he
      · simp only [hkey] at hrec ⊢
        have hm : ∀ {q : Phase ρ}, isPlain q = true →
            Quiet k s i (s.manager.lookup clock.monotonic env).2 q :=
          fun hq => .plain hold hq Or.inl
        rcases hlook : s.manager.lookup clock.monotonic env with ⟨_ | found, m⟩
        · rw [hlook] at hm
          simp only [hlook] at hrec ⊢
          exact h.moved (hm rfl) hrec
        · rw [hlook] at hm
          simp only [hlook] at hrec ⊢
          exact h.moved (hm rfl) hrec
    · cases hp
  | lease i clock count ms =>
    simp only [Dedup.perform] at hp
    split at hp
    · rename_i hphase
      cases hp
      have hold : ¬InWindow k (s.phase i) := by
        rintro ⟨l, r, todo, he, -⟩
        rw [hphase] at he
        cases he
      have hm : ∀ {q : Phase ρ}, isPlain q = true →
          Quiet k s i (s.manager.lease w py float clock count ms).2 q := by
        refine fun hq => .plain hold hq (fun hk => Or.inl ?_)
        simp only [TaskQueueManager.lease]
        split <;> exact hk
      simp only [leaseStep] at hrec ⊢
      rcases hlease : s.manager.lease w py float clock count ms with ⟨_ | leases, m⟩
      · rw [hlease] at hm
        simp only [hlease] at hrec ⊢
        exact h.moved (hm rfl) hrec
      · rw [hlease] at hm
        simp only [hlease] at hrec ⊢
        exact h.moved (hm rfl) hrec
    · cases hp
  | advance i clock r => exact h.advance hp hrec ht

def Reaches (w : WorkQueue σ) (py : PyText) (float : PyFloat)
    (allowed : Event ι ρ → System ι σ ρ → System ι σ ρ → Prop) :
    System ι σ ρ → System ι σ ρ → Prop :=
  Relation.ReflTransGen (fun s s' => ∃ e, perform w py float e s = some s' ∧ allowed e s s')

theorem enqueue_at_most_once (w : WorkQueue σ) (py : PyText) (float : PyFloat) (k : Str)
    (m : TaskQueueManager σ ρ) (s : System ι σ ρ)
    (h : Reaches w py float (fun e s s' => Retained k e s s' ∧ Timely k e s)
      ⟨m, fun _ => .idle, []⟩ s) : queuedWith k s ≤ 1 := by
  have hinv : Inv k s := by
    induction h with
    | refl => exact Inv.init m
    | tail _ ht ih =>
      obtain ⟨e, hp, hr, ht⟩ := ht
      exact ih.perform hp hr ht
  exact hinv.once

end invariant

def sampleStore : IdempotencyStore Unit := { capacity := 1024, positive := by decide }

def sampleManager : TaskQueueManager InMemoryWorkQueue Unit :=
  .init {} sampleStore none 3600

def keyedHeaders : Document := ⟨[("idempotency_key".toList, .str ['K'])], by decide⟩

def keyedTask (id : Char) : TaskEnvelope :=
  .new [id] "demo".toList Document.empty keyedHeaders Document.empty secondStamp

def runUnrecorded (k : Str) (ok : System Bool InMemoryWorkQueue Unit → Bool) :
    List (Event Bool Unit) → System Bool InMemoryWorkQueue Unit →
      Option (System Bool InMemoryWorkQueue Unit)
  | [], s => some s
  | e :: es, s =>
    if (s.manager.idempotency.entries.get? k).isSome || !ok s then none
    else
      (perform (InMemoryWorkQueue.workQueue plainConfig.float) plainPy plainConfig.float e s).bind
        (runUnrecorded k ok es)

theorem reaches_of_runUnrecorded {k : Str} {ok : System Bool InMemoryWorkQueue Unit → Bool}
    {A : Event Bool Unit → System Bool InMemoryWorkQueue Unit →
      System Bool InMemoryWorkQueue Unit → Prop}
    (hok : ∀ e s s', ¬Recorded k s.manager → ok s = true → A e s s')
    {es : List (Event Bool Unit)} {s s' : System Bool InMemoryWorkQueue Unit}
    (h : runUnrecorded k ok es s = some s') :
    Reaches (InMemoryWorkQueue.workQueue plainConfig.float) plainPy plainConfig.float
      A s s' := by
  induction es generalizing s with
  | nil =>
    cases h
    exact .refl
  | cons e es ih =>
    rw [runUnrecorded] at h
    split_ifs at h with hn
    obtain ⟨s₁, h₁, h₂⟩ := Option.bind_eq_some_iff.mp h
    rw [Bool.or_eq_true, not_or, Bool.not_eq_true', Bool.not_eq_false] at hn
    exact .head ⟨e, h₁, hok e s s₁ hn.1 hn.2⟩ (ih h₂)

theorem retained_of_unrecorded {k : Str} {e : Event Bool Unit}
    {s s' : System Bool InMemoryWorkQueue Unit} (h : ¬Recorded k s.manager) :
    Retained k e s s' := by
  intro entry he
  exact absurd (by rw [Recorded, he]; rfl) h

def isCleared : Phase Unit → Bool
  | .cleared .. => true
  | _ => false

def enqueueOnce : List (Event Bool Unit) :=
  [.enqueue false (clockAt 0) (keyedTask 'a'), .advance false (clockAt 0) (),
    .advance false (clockAt 0) (), .advance false (clockAt 0) ()]

theorem enqueue_at_most_once_sample :
    ∃ s, Reaches (InMemoryWorkQueue.workQueue plainConfig.float) plainPy plainConfig.float
        (fun e s s' => Retained ['K'] e s s' ∧ Timely ['K'] e s)
        (⟨sampleManager, fun _ => .idle, []⟩ : System Bool _ _) s ∧
      s.queued.length = 1 ∧ queuedWith ['K'] s ≤ 1 := by
  have hrun : (runUnrecorded ['K']
      (fun s => !isCleared (s.phase false) && !isCleared (s.phase true)) enqueueOnce
      ⟨sampleManager, fun _ => .idle, []⟩).map (fun s => s.queued.length) = some 1 := by
    decide +kernel
  obtain ⟨s, hs, hc⟩ := Option.map_eq_some_iff.mp hrun
  have hr := reaches_of_runUnrecorded
    (A := fun e s s' => Retained ['K'] e s s' ∧ Timely ['K'] e s) (fun e s s' hn hw =>
      ⟨retained_of_unrecorded hn, fun i clock r env _ _ _ => ⟨hn, fun j hj => by
        obtain ⟨l, r, todo, hp, -⟩ := hj
        cases j <;> simp [hp, isCleared] at hw⟩⟩) hs
  exact ⟨s, hr, hc, enqueue_at_most_once _ plainPy _ ['K'] sampleManager s hr⟩

def doubleEnqueue : List (Event Bool Unit) :=
  enqueueOnce ++ [.lease true (clockAt 0) 1 1000, .advance true (clockAt 0) (),
    .advance true (clockAt 0) (), .advance true (clockAt 0) (), .advance true (clockAt 0) (),
    .enqueue false (clockAt 0) (keyedTask 'b'), .advance false (clockAt 0) (),
    .advance false (clockAt 0) ()]

theorem enqueue_slips_between :
    ∃ s, Reaches (InMemoryWorkQueue.workQueue plainConfig.float) plainPy plainConfig.float
        (Retained ['K']) (⟨sampleManager, fun _ => .idle, []⟩ : System Bool _ _) s ∧
      queuedWith ['K'] s = 2 := by
  have hrun : (runUnrecorded ['K'] (fun _ => true) doubleEnqueue ⟨sampleManager, fun _ => .idle, []⟩).map
      (queuedWith ['K']) = some 2 := by
    decide +kernel
  obtain ⟨s, hs, hc⟩ := Option.map_eq_some_iff.mp hrun
  exact ⟨s, reaches_of_runUnrecorded (fun _ _ _ hn _ => retained_of_unrecorded hn) hs, hc⟩

end Dedup

end TraceMind.Queue
