import TraceMind.Validate.Schedule

namespace TraceMind.Validate

variable {R : Type} {random : Random R} {flow : FlowSpec} {limit : ℤ}
  {s : Simulation R} {st : StepState} {m : Machine R}

def work (s : Simulation R) : ℕ :=
  s.events.length + s.states.length + (s.states.flatMap StepState.heldLocks).length

theorem flatMap_length {states states' : List StepState} (h : states.Perm states') :
    (states.flatMap StepState.heldLocks).length = (states'.flatMap StepState.heldLocks).length :=
  (h.flatMap_right _).length_eq

theorem work_takeLock {req : LockRequest} (h : Scheduled flow s) (hm : st ∈ s.waiting)
    (table : LockTable.Table Str) :
    work { s with
      waiting := replaceState (st.acquire req) s.waiting
      locksHeld := table } = work s + 1 := by
  obtain ⟨others, hwait, hreplace, -⟩ := exists_others h.waiting_distinct hm
  have hreplace := flatMap_length (hreplace (st.acquire req) rfl)
  have hwait := flatMap_length hwait
  have hlen : (replaceState (st.acquire req) s.waiting).length = s.waiting.length :=
    List.length_map _
  simp only [List.flatMap_cons, StepState.acquire, List.length_append, List.length_cons,
    List.length_nil] at hreplace hwait
  simp only [work, Simulation.states, List.flatMap_append, List.length_append, hlen]
  simp only [StepState.acquire] at hreplace ⊢
  omega

theorem work_startStep (h : Scheduled flow s) (hm : st ∈ s.waiting) :
    work (startStep s st) = work s + 1 := by
  obtain ⟨others, hwait, -, hfilter⟩ := exists_others h.waiting_distinct hm
  have hlen := hwait.length_eq
  have hflat := flatMap_length hwait
  simp only [List.flatMap_cons, List.length_append, List.length_cons] at hlen hflat
  simp only [work, startStep, Simulation.states, hfilter, List.flatMap_append, List.flatMap_cons,
    List.flatMap_nil, List.length_append, List.length_cons, List.length_nil]
  omega

theorem work_addNext (s : Simulation R) (id : Str) : work s ≤ work (addNext flow s id) := by
  unfold addNext
  split_ifs
  · exact le_refl _
  · cases flow.steps.get? id with
    | none => exact le_refl _
    | some spec =>
      simp only [work, Simulation.states, List.flatMap_append, List.length_append]
      omega

theorem work_foldl_addNext (ids : List Str) (s : Simulation R) :
    work s ≤ work (ids.foldl (addNext flow) s) := by
  induction ids generalizing s with
  | nil => exact le_refl _
  | cons id ids ih => exact (work_addNext s id).trans (ih (addNext flow s id))

theorem work_retire {current : StepState} {rest : List StepState}
    (hp : s.running.Perm (current :: rest)) : work s < work (retire flow s current rest) := by
  refine lt_of_lt_of_le ?_ (work_foldl_addNext _ (retired s current rest))
  have hlen := hp.length_eq
  have hflat := flatMap_length hp
  simp only [List.flatMap_cons, List.length_append, List.length_cons] at hlen hflat
  simp only [work, retired, Simulation.states, List.flatMap_append, List.flatMap_cons,
    List.flatMap_nil, List.length_append, List.length_cons, List.length_nil]
  omega

theorem flatMap_length_le {α β : Type} {f : α → List β} {b : ℕ} {l : List α}
    (h : ∀ x ∈ l, (f x).length ≤ b) : (l.flatMap f).length ≤ l.length * b := by
  induction l with
  | nil => simp
  | cons x l ih =>
    have hx := h x List.mem_cons_self
    have hl := ih (fun y hy => h y (List.mem_cons_of_mem x hy))
    rw [List.flatMap_cons, List.length_append, List.length_cons, Nat.succ_mul]
    omega

def lockBound (flow : FlowSpec) : ℕ :=
  (flow.steps.entries.flatMap (fun e => e.2.locks)).length

def workBound (flow : FlowSpec) : ℕ :=
  3 * flow.steps.size + flow.steps.size * lockBound flow

theorem stepsOf_length (events : List Event) :
    events.length = (stepsOf .stepStarted events).length +
      (stepsOf .stepFinished events).length := by
  induction events with
  | nil => rfl
  | cons e events ih =>
    obtain ⟨kind, step, ts⟩ := e
    simp only [stepsOf, List.length_map, List.length_cons] at ih ⊢
    cases kind <;> simp <;> omega

theorem work_le (h : Scheduled flow s) : work s ≤ workBound flow := by
  have hsub : s.states.map StepState.id ⊆ flow.steps.entries.map Prod.fst := by
    intro id hid
    obtain ⟨st, hst, rfl⟩ := List.mem_map.mp hid
    exact List.mem_map.mpr ⟨_, OrderedDict.get?_eq_some.mp (h.known st hst), rfl⟩
  have hsize : s.states.length ≤ flow.steps.size := by
    have hle := (h.distinct.subperm hsub).length_le
    rwa [List.length_map, List.length_map] at hle
  have hheld : ∀ st ∈ s.states, st.heldLocks.length ≤ lockBound flow := by
    intro st hst
    obtain ⟨hlen, hle⟩ := h.acquired st hst
    have hmem := OrderedDict.get?_eq_some.mp (h.known st hst)
    have hlocks : st.spec.locks.Sublist (flow.steps.entries.flatMap (fun e => e.2.locks)) :=
      List.sublist_flatten_of_mem (List.mem_map.mpr ⟨_, hmem, rfl⟩)
    have hbound : st.spec.locks.length ≤ lockBound flow := hlocks.length_le
    omega
  have hflat := flatMap_length_le hheld
  have hevents := stepsOf_length s.events
  rw [h.started.length_eq, h.finished.length_eq] at hevents
  simp only [Simulation.states, List.length_append, List.length_map] at hevents hsize hflat
  have hmul : (s.waiting.length + s.running.length + s.completed.length) * lockBound flow ≤
      flow.steps.size * lockBound flow := Nat.mul_le_mul_right _ hsize
  simp only [work, workBound, Simulation.states, List.length_append] at hflat ⊢
  omega

theorem find_waiting {id : Str} (h : s.waiting.find? (fun w => w.id = id) = some st) :
    st ∈ s.waiting ∧ st.id = id := by
  have hid := List.find?_some h
  exact ⟨List.mem_of_find?_eq_some h, of_decide_eq_true hid⟩

theorem takeLock_spec (h : Scheduled flow s) (hm : st ∈ s.waiting) :
    Scheduled flow (takeLock s st).2 ∧ (takeLock s st).1 ∈ (takeLock s st).2.waiting ∧
      (takeLock s st).2.scheduled = s.scheduled ∧ (takeLock s st).2.completed = s.completed ∧
      (nextLock s st = none → takeLock s st = (st, s)) ∧
      work (takeLock s st).2 = work s + (nextLock s st).isSome.toNat := by
  unfold takeLock
  cases hn : nextLock s st with
  | none => exact ⟨h, hm, rfl, rfl, fun _ => rfl, rfl⟩
  | some req =>
    obtain ⟨others, -, hreplace, -⟩ := exists_others h.waiting_distinct hm
    refine ⟨h.lockTaken hm hn, ?_, rfl, rfl, (fun he => by cases he), work_takeLock h hm _⟩
    exact (hreplace (st.acquire req) rfl).mem_iff.mpr List.mem_cons_self

theorem turn_spec (limit : ℤ) (h : Scheduled flow s) (hm : st ∈ s.waiting) :
    Scheduled flow (turn limit s st).1 ∧ (turn limit s st).1.scheduled = s.scheduled ∧
      (turn limit s st).1.completed = s.completed ∧
      ((turn limit s st).2 = false → (turn limit s st).1 = s ∧ Blocked limit s st) ∧
      ((turn limit s st).2 = true → work s < work (turn limit s st).1) := by
  obtain ⟨hsched, hmem, hids, hcomp, hsame, hwork⟩ := takeLock_spec h hm
  unfold turn
  dsimp only
  split_ifs with hstart
  · refine ⟨hsched.stepStarted hmem, hids, hcomp, (fun hf => by cases hf), fun _ => ?_⟩
    rw [work_startStep hsched hmem, hwork]
    omega
  · refine ⟨hsched, hids, hcomp, fun hf => ?_, fun ht => ?_⟩
    · have hnone : nextLock s st = none := by simpa using hf
      have hself := hsame hnone
      rw [hself] at hstart ⊢
      refine ⟨rfl, ?_⟩
      obtain ⟨-, hle⟩ := h.acquired st (mem_states_of_waiting hm)
      rcases nextLock_eq_none hnone with hge | ⟨req, hreq, hcan⟩
      · have heq := le_antisymm hle hge
        exact Or.inr ⟨heq, not_lt.mp (fun hlt => hstart ⟨heq, hlt⟩)⟩
      · exact Or.inl ⟨req, hreq, (LockTable.canAcquire_eq_false h.tracks).mp hcan⟩
    · rw [hwork]
      have hsome : (nextLock s st).isSome = true := ht
      rw [hsome]
      exact Nat.lt_succ_self _

def PhaseHolds (limit : ℤ) (s : Simulation R) : Phase → Prop
  | .head => True
  | .turns candidates progress => progress = false →
      (s.waiting ≠ [] ∨ s.running ≠ []) ∧
        ∀ w ∈ s.waiting, w.id ∈ candidates ∨ Blocked limit s w
  | .done deadlocks =>
      (deadlocks = 0 ∧ s.waiting = [] ∧ s.running = []) ∨
        (deadlocks = 1 ∧ s.waiting ≠ [] ∧ s.running = [] ∧ ∀ w ∈ s.waiting, Blocked limit s w)

structure Sound (flow : FlowSpec) (limit : ℤ) (m : Machine R) : Prop where
  scheduled : Scheduled flow m.sim
  explored : Explored flow m.sim
  phase : PhaseHolds limit m.sim m.phase

theorem Explored.congr {s' : Simulation R} (h : Explored flow s)
    (hids : s'.scheduled = s.scheduled) (hcomp : s'.completed = s.completed) :
    Explored flow s' := by
  constructor
  · rw [hids]
    exact h.entries
  · rw [hids, hcomp]
    exact h.successors

theorem sortedRunning_perm (s : Simulation R) : (sortedRunning s).Perm s.running :=
  StableSort.sort_perm _ _

theorem Sound.endRound {progress : Bool} (h : Sound flow limit ⟨s, .turns [] progress⟩) :
    Sound flow limit (endRound flow s progress) := by
  have hperm := sortedRunning_perm s
  unfold Validate.endRound
  cases hsort : sortedRunning s with
  | cons current rest =>
    rw [hsort] at hperm
    exact ⟨h.scheduled.retire hperm.symm, h.explored.retire h.scheduled hperm.symm, trivial⟩
  | nil =>
    rw [hsort] at hperm
    have hrun : s.running = [] := hperm.symm.eq_nil
    dsimp only
    cases progress with
    | true => exact ⟨h.scheduled, h.explored, trivial⟩
    | false =>
      obtain ⟨hne, hblocked⟩ := h.phase rfl
      refine ⟨h.scheduled, h.explored, Or.inr ⟨rfl, ?_, hrun, ?_⟩⟩
      · exact hne.resolve_right (fun hr => hr hrun)
      · intro w hw
        exact (hblocked w hw).resolve_left (by simp)

theorem Sound.candidate {c : Str} {candidates : List Str} {progress : Bool}
    (h : Sound flow limit ⟨s, .turns (c :: candidates) progress⟩) :
    Sound flow limit (step random flow limit ⟨s, .turns (c :: candidates) progress⟩) := by
  unfold step
  dsimp only
  cases hfind : s.waiting.find? (fun w => w.id = c) with
  | none =>
    refine ⟨h.scheduled, h.explored, fun hp => ?_⟩
    obtain ⟨hne, hblocked⟩ := h.phase hp
    refine ⟨hne, fun w hw => (hblocked w hw).imp_left (fun hm => ?_)⟩
    have hnot := List.find?_eq_none.mp hfind w hw
    rcases List.mem_cons.mp hm with hid | hm
    · exact absurd (decide_eq_true hid) hnot
    · exact hm
  | some st =>
    obtain ⟨hm, hid⟩ := find_waiting hfind
    obtain ⟨hsched, hids, hcomp, hstuck, -⟩ := turn_spec limit h.scheduled hm
    refine ⟨hsched, h.explored.congr hids hcomp, fun hp => ?_⟩
    obtain ⟨hp, hturn⟩ := Bool.or_eq_false_iff.mp hp
    obtain ⟨hsame, hblock⟩ := hstuck hturn
    obtain ⟨hne, hblocked⟩ := h.phase hp
    dsimp only
    rw [hsame]
    refine ⟨hne, fun w hw => ?_⟩
    rcases hblocked w hw with hm' | hb
    · rcases List.mem_cons.mp hm' with hc | hm'
      · refine Or.inr ?_
        have hsame_state : w = st := by
          exact List.inj_on_of_nodup_map h.scheduled.waiting_distinct hw hm (hc.trans hid.symm)
        exact hsame_state ▸ hblock
      · exact Or.inl hm'
    · exact Or.inr hb

theorem Sound.step (random : Random R) (h : Sound flow limit m) :
    Sound flow limit (step random flow limit m) := by
  obtain ⟨s, phase⟩ := m
  cases phase with
  | head =>
    unfold Validate.step
    dsimp only
    split_ifs with hempty
    · exact ⟨h.scheduled, h.explored, Or.inl ⟨rfl, hempty⟩⟩
    · refine ⟨⟨h.scheduled.1, h.scheduled.2, h.scheduled.3, h.scheduled.4, h.scheduled.5,
        h.scheduled.6, h.scheduled.7, h.scheduled.8, h.scheduled.9⟩, ⟨h.explored.1, h.explored.2⟩,
        fun _ => ⟨?_, fun w hw => Or.inl ?_⟩⟩
      · by_contra hnot
        simp only [not_or, not_not] at hnot
        exact hempty hnot
      · exact (random.perm _ _).mem_iff.mpr (List.mem_map_of_mem hw)
  | turns candidates progress =>
    cases candidates with
    | nil => exact h.endRound
    | cons c candidates => exact h.candidate
  | done d => exact h

theorem Sound.iterate (random : Random R) (h : Sound flow limit m) (n : ℕ) :
    Sound flow limit ((Validate.step random flow limit)^[n] m) := by
  induction n with
  | zero => exact h
  | succ n ih =>
    rw [Function.iterate_succ_apply']
    exact ih.step random

theorem start_sound (seed : Option ℤ) : Sound flow limit (start random flow seed) :=
  ⟨(start_scheduled seed).1, (start_scheduled seed).2, trivial⟩

theorem candidate_work (random : Random R) (limit : ℤ) (c : Str) (candidates : List Str)
    (progress : Bool) (h : Scheduled flow s) :
    ∃ s' progress', step random flow limit ⟨s, .turns (c :: candidates) progress⟩ =
        ⟨s', .turns candidates progress'⟩ ∧ work s ≤ work s' ∧
        (progress' = true → progress = true ∨ work s < work s') := by
  unfold step
  dsimp only
  cases hfind : s.waiting.find? (fun w => w.id = c) with
  | none => exact ⟨s, progress, rfl, le_refl _, Or.inl⟩
  | some st =>
    obtain ⟨hm, -⟩ := find_waiting hfind
    obtain ⟨-, -, -, hstuck, hwork⟩ := turn_spec limit h hm
    refine ⟨_, _, rfl, ?_, fun hp => ?_⟩
    · cases ht : (turn limit s st).2 with
      | false => rw [(hstuck ht).1]
      | true => exact (hwork ht).le
    · rcases Bool.or_eq_true_iff.mp hp with hp | ht
      · exact Or.inl hp
      · exact Or.inr (hwork ht)

theorem turns_end (random : Random R) {candidates : List Str} {progress : Bool}
    (h : Sound flow limit ⟨s, .turns candidates progress⟩) :
    ∃ s' progress', (step random flow limit)^[candidates.length] ⟨s, .turns candidates progress⟩ =
        ⟨s', .turns [] progress'⟩ ∧ work s ≤ work s' ∧
        (progress' = true → progress = true ∨ work s < work s') := by
  induction candidates generalizing s progress with
  | nil => exact ⟨s, progress, rfl, le_refl _, Or.inl⟩
  | cons c candidates ih =>
    obtain ⟨s₁, p₁, hstep, hle₁, hp₁⟩ :=
      candidate_work random limit c candidates progress h.scheduled
    have hsound := h.step random
    rw [hstep] at hsound
    obtain ⟨s₂, p₂, hiter, hle₂, hp₂⟩ := ih hsound
    refine ⟨s₂, p₂, ?_, hle₁.trans hle₂, fun hp => ?_⟩
    · rw [List.length_cons, Function.iterate_succ_apply, hstep, hiter]
    · rcases hp₂ hp with hp | hlt
      · exact (hp₁ hp).imp_right (fun hlt => lt_of_lt_of_le hlt hle₂)
      · exact Or.inr (lt_of_le_of_lt hle₁ hlt)

theorem endRound_cases (flow : FlowSpec) (s : Simulation R) (progress : Bool) :
    (∃ d, (endRound flow s progress).phase = .done d) ∨
      ((endRound flow s progress).phase = .head ∧
        (work s < work (endRound flow s progress).sim ∨
          progress = true ∧ work s ≤ work (endRound flow s progress).sim)) := by
  have hperm := sortedRunning_perm s
  unfold endRound
  cases hsort : sortedRunning s with
  | cons current rest =>
    rw [hsort] at hperm
    exact Or.inr ⟨rfl, Or.inl (work_retire hperm.symm)⟩
  | nil =>
    cases progress with
    | true => exact Or.inr ⟨rfl, Or.inr ⟨rfl, le_refl _⟩⟩
    | false => exact Or.inl ⟨1, rfl⟩

theorem round (random : Random R) (h : Sound flow limit m) (hhead : m.phase = .head) :
    ∃ n, (∃ d, ((step random flow limit)^[n] m).phase = .done d) ∨
      (((step random flow limit)^[n] m).phase = .head ∧
        work m.sim < work ((step random flow limit)^[n] m).sim) := by
  obtain ⟨s, phase⟩ := m
  obtain rfl : phase = .head := hhead
  by_cases hempty : s.waiting = [] ∧ s.running = []
  · refine ⟨1, Or.inl ⟨0, ?_⟩⟩
    rw [Function.iterate_one, step]
    dsimp only
    rw [if_pos hempty]
  · have hstep : step random flow limit ⟨s, .head⟩ =
        ⟨{ s with rng := (random.shuffle s.rng (s.waiting.map StepState.id)).2 },
          .turns (random.shuffle s.rng (s.waiting.map StepState.id)).1 false⟩ := by
      rw [step]
      dsimp only
      rw [if_neg hempty]
    have hsound := h.step random
    rw [hstep] at hsound
    obtain ⟨s', progress, hiter, hle, hp⟩ := turns_end random hsound
    refine ⟨(random.shuffle s.rng (s.waiting.map StepState.id)).1.length + 1 + 1, ?_⟩
    rw [Function.iterate_succ_apply', Function.iterate_succ_apply, hstep, hiter]
    have hle' : work s ≤ work s' := hle
    rcases endRound_cases flow s' progress with hd | ⟨hh, hw | ⟨rfl, hw⟩⟩
    · exact Or.inl hd
    · exact Or.inr ⟨hh, lt_of_le_of_lt hle' hw⟩
    · rcases hp rfl with hf | hlt
      · cases hf
      · exact Or.inr ⟨hh, lt_of_lt_of_le hlt hw⟩

theorem finishes (random : Random R) (h : Sound flow limit m) (hhead : m.phase = .head) :
    ∃ n d, ((step random flow limit)^[n] m).phase = .done d := by
  induction hk : workBound flow - work m.sim using Nat.strong_induction_on generalizing m with
  | _ k ih =>
    obtain ⟨n, hd | ⟨hh, hlt⟩⟩ := round random h hhead
    · exact ⟨n, hd⟩
    · have hsound := h.iterate random n
      have hbound := work_le hsound.scheduled
      obtain ⟨n', d, hd⟩ := ih _ (by omega) hsound hh rfl
      exact ⟨n' + n, d, by rw [Function.iterate_add_apply]; exact hd⟩

theorem step_done {d : ℕ} (h : m.phase = .done d) : step random flow limit m = m := by
  obtain ⟨s, phase⟩ := m
  obtain rfl : phase = .done d := h
  rfl

theorem run_eq {n d : ℕ} (h : ((step random flow limit)^[n] m).phase = .done d) :
    run random flow limit n m =
      some (report ((step random flow limit)^[n] m).sim d) := by
  induction n generalizing m with
  | zero =>
    obtain ⟨s, phase⟩ := m
    obtain rfl : phase = .done d := h
    rfl
  | succ n ih =>
    rw [Function.iterate_succ_apply] at h ⊢
    obtain ⟨s, phase⟩ := m
    cases phase with
    | done d' =>
      have hiter : (step random flow limit)^[n] ⟨s, .done d'⟩ = ⟨s, .done d'⟩ :=
        Function.iterate_fixed (step_done rfl) n
      rw [step_done rfl, hiter] at h ⊢
      obtain rfl := Phase.done.inj h
      rfl
    | head => exact ih h
    | turns candidates progress => exact ih h

section reports

variable (random) (limit)

def moment (flow : FlowSpec) (seed : Option ℤ) (n : ℕ) : Machine R :=
  (step random flow limit)^[n] (start random flow seed)

theorem moment_sound (flow : FlowSpec) (seed : Option ℤ) (n : ℕ) :
    Sound flow limit (moment random limit flow seed n) := (start_sound seed).iterate random n

theorem stepsOf_nodup {flow : FlowSpec} (h : Scheduled flow s) (kind : EventKind) :
    (stepsOf kind s.events).Nodup := by
  have hd := h.distinct
  rw [Simulation.states, List.append_assoc, List.map_append] at hd
  cases kind with
  | stepStarted => exact h.started.nodup_iff.mpr hd.of_append_right
  | stepFinished =>
    rw [List.map_append] at hd
    exact h.finished.nodup_iff.mpr hd.of_append_right.of_append_right

theorem Sound.deadlocks {flow : FlowSpec} {limit : ℤ} {d : ℕ}
    (h : Sound flow limit ⟨s, .done d⟩) :
    (d = 0 ↔ ∀ id, Reachable flow id → id ∈ stepsOf .stepFinished s.events) ∧
      (d ≠ 0 → ∀ w ∈ s.waiting, Blocked limit s w) := by
  rcases h.phase with ⟨rfl, hwait, hrun⟩ | ⟨rfl, hwait, -, hblocked⟩
  · refine ⟨iff_of_true rfl (fun id hr => ?_), fun hne => absurd rfl hne⟩
    exact h.scheduled.finished.mem_iff.mpr (h.explored.completed h.scheduled hwait hrun hr)
  · refine ⟨iff_of_false one_ne_zero (fun hall => ?_), fun _ => hblocked⟩
    obtain ⟨w, hw⟩ := List.exists_mem_of_ne_nil _ hwait
    have hstates : w ∈ s.states := mem_states_of_waiting hw
    have hr := h.scheduled.reachable w.id
      ((h.scheduled.scheduled w.id).mpr (List.mem_map_of_mem hstates))
    have hdone := h.scheduled.finished.mem_iff.mp (hall w.id hr)
    have hd := h.scheduled.distinct
    rw [Simulation.states, List.append_assoc, List.map_append, List.map_append] at hd
    exact (List.nodup_append.mp hd).2.2 w.id (List.mem_map_of_mem hw) w.id
      (List.mem_append_right _ hdone) rfl

variable {random limit}

theorem moment_fixed {flow : FlowSpec} {seed : Option ℤ} {n d : ℕ}
    (hd : (moment random limit flow seed n).phase = .done d) {k : ℕ} (hle : n ≤ k) :
    moment random limit flow seed k = moment random limit flow seed n := by
  obtain ⟨j, rfl⟩ := Nat.exists_eq_add_of_le' hle
  rw [moment, Function.iterate_add_apply]
  exact Function.iterate_fixed (step_done hd) j

variable (random limit) (py : Queue.PyText) (int : PyInt)

theorem simulate_eq {flow : FlowSpec} {doc : Artifacts.JsonFields} {seed : Option ℤ} {n d : ℕ}
    (hflow : parseFlow py int doc = .ok flow)
    (hd : (moment random limit flow seed n).phase = .done d) {fuel : ℕ} (hle : n ≤ fuel) :
    simulate random limit py int fuel doc seed =
      Fuelled.ret (report (moment random limit flow seed n).sim d) := by
  have hfixed := moment_fixed hd hle
  have hphase : (moment random limit flow seed fuel).phase = .done d := by
    rw [hfixed]
    exact hd
  rw [simulate, hflow]
  dsimp only
  rw [run_eq hphase, ← moment, hfixed]

def keptOrder : Random Unit where
  seeded _ := ()
  shuffle r l := (l, r)
  perm _ l := List.Perm.refl l

def plainInt : PyInt
  | .int n => some n
  | _ => none

def singleDoc : Artifacts.JsonFields := [("steps".toList, .obj [("a".toList, .obj [])])]

end reports

end TraceMind.Validate
