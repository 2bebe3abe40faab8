import TraceMind.Validate.Progress

namespace TraceMind.Validate

variable {R : Type} {random : Random R} {flow : FlowSpec} {limit : ℤ}
  {s : Simulation R} {st current : StepState} {m : Machine R}

def Timely (flow : FlowSpec) (events : List Event) : Prop :=
  ∀ id spec started finished, flow.steps.get? id = some spec →
    ⟨.stepStarted, id, started⟩ ∈ events → ⟨.stepFinished, id, finished⟩ ∈ events →
    finished = started + spec.durationMs

def Ordered (events : List Event) : Prop := events.Pairwise (fun a b => a.ts ≤ b.ts)

def Punctual (now : ℕ) (current : StepState) : Prop :=
  current.startedAt = some now ∨
    ∃ t, current.startedAt = some t ∧ 0 < t ∧ now ≤ t + current.spec.durationMs

def PunctualNext (m : Machine R) : Prop :=
  ∀ progress current rest, m.phase = .turns [] progress →
    sortedRunning m.sim = current :: rest → Punctual m.sim.now current

structure Timed (s : Simulation R) : Prop where
  ordered : Ordered s.events
  past : ∀ e ∈ s.events, e.ts ≤ s.now
  running : ∀ st ∈ s.running, ∃ t, st.startedAt = some t ∧ ⟨.stepStarted, st.id, t⟩ ∈ s.events

theorem finishTime_eq_iff {now t : ℕ} (h : current.startedAt = some t) (hle : t ≤ now) :
    finishTime now current = t + current.spec.durationMs ↔ Punctual now current := by
  have hpunctual : Punctual now current ↔
      t = now ∨ 0 < t ∧ now ≤ t + current.spec.durationMs := by
    unfold Punctual
    rw [h]
    simp
  rw [hpunctual, finishTime, startKey, h]
  dsimp only
  split_ifs with hzero <;> omega

theorem now_le_finishTime (now : ℕ) (current : StepState) : now ≤ finishTime now current :=
  le_max_left _ _

theorem addNext_frame (flow : FlowSpec) (s : Simulation R) (id : Str) :
    (addNext flow s id).now = s.now ∧ (addNext flow s id).events = s.events ∧
      (addNext flow s id).running = s.running := by
  unfold addNext
  split_ifs
  · exact ⟨rfl, rfl, rfl⟩
  · cases flow.steps.get? id <;> exact ⟨rfl, rfl, rfl⟩

theorem foldl_addNext_frame (ids : List Str) (s : Simulation R) :
    (ids.foldl (addNext flow) s).now = s.now ∧ (ids.foldl (addNext flow) s).events = s.events ∧
      (ids.foldl (addNext flow) s).running = s.running := by
  induction ids generalizing s with
  | nil => exact ⟨rfl, rfl, rfl⟩
  | cons id ids ih =>
    obtain ⟨hn, he, hr⟩ := ih (addNext flow s id)
    obtain ⟨hn', he', hr'⟩ := addNext_frame flow s id
    exact ⟨hn.trans hn', he.trans he', hr.trans hr'⟩

theorem takeLock_frame (s : Simulation R) (st : StepState) :
    (takeLock s st).2.now = s.now ∧ (takeLock s st).2.events = s.events ∧
      (takeLock s st).2.running = s.running ∧ (takeLock s st).1.id = st.id := by
  unfold takeLock
  cases nextLock s st <;> exact ⟨rfl, rfl, rfl, rfl⟩

def Kept (s s' : Simulation R) : Prop :=
  s'.now = s.now ∧ s'.events = s.events ∧ s'.running = s.running

def Started (s s' : Simulation R) : Prop :=
  ∃ st : StepState, st.id ∈ s.waiting.map StepState.id ∧ s'.now = s.now ∧
    s'.events = s.events ++ [⟨.stepStarted, st.id, s.now⟩] ∧
    s'.running = s.running ++ [{ st with startedAt := some s.now }]

def Retired (s s' : Simulation R) (current : StepState) (rest : List StepState) : Prop :=
  s'.now = finishTime s.now current ∧
    s'.events = s.events ++ [⟨.stepFinished, current.id, finishTime s.now current⟩] ∧
    s'.running = rest

theorem turn_cases (limit : ℤ) (hm : st ∈ s.waiting) :
    Kept s (turn limit s st).1 ∨ Started s (turn limit s st).1 := by
  obtain ⟨hnow, hevents, hrun, hid⟩ := takeLock_frame s st
  unfold turn
  dsimp only
  split_ifs
  · refine Or.inr ⟨(takeLock s st).1, ?_, hnow, ?_, ?_⟩
    · rw [hid]
      exact List.mem_map_of_mem hm
    · simp only [startStep, hevents, hnow]
    · simp only [startStep, hrun, hnow]
  · exact Or.inl ⟨hnow, hevents, hrun⟩

theorem endRound_moves (flow : FlowSpec) (s : Simulation R) (progress : Bool) :
    (Kept s (endRound flow s progress).sim ∧ sortedRunning s = []) ∨
      ∃ current rest, sortedRunning s = current :: rest ∧
        Retired s (endRound flow s progress).sim current rest := by
  unfold endRound
  cases hsort : sortedRunning s with
  | cons current rest =>
    exact Or.inr ⟨current, rest, rfl, foldl_addNext_frame _ (retired s current rest)⟩
  | nil => cases progress <;> exact Or.inl ⟨⟨rfl, rfl, rfl⟩, rfl⟩

theorem step_cases (random : Random R) (flow : FlowSpec) (limit : ℤ) (m : Machine R) :
    Kept m.sim (step random flow limit m).sim ∨ Started m.sim (step random flow limit m).sim ∨
      ∃ progress current rest, m.phase = .turns [] progress ∧
        sortedRunning m.sim = current :: rest ∧
        Retired m.sim (step random flow limit m).sim current rest := by
  obtain ⟨s, phase⟩ := m
  cases phase with
  | done d => exact Or.inl ⟨rfl, rfl, rfl⟩
  | head =>
    unfold step
    dsimp only
    split_ifs <;> exact Or.inl ⟨rfl, rfl, rfl⟩
  | turns candidates progress =>
    cases candidates with
    | nil =>
      rcases endRound_moves flow s progress with ⟨hkept, -⟩ | ⟨current, rest, hsort, hret⟩
      · exact Or.inl hkept
      · exact Or.inr (Or.inr ⟨progress, current, rest, rfl, hsort, hret⟩)
    | cons c candidates =>
      unfold step
      dsimp only
      cases hfind : s.waiting.find? (fun w => w.id = c) with
      | none => exact Or.inl ⟨rfl, rfl, rfl⟩
      | some st =>
        rcases turn_cases limit (find_waiting hfind).1 with hk | hs
        · exact Or.inl hk
        · exact Or.inr (Or.inl hs)

theorem step_events (m : Machine R) : m.sim.events <+: (step random flow limit m).sim.events := by
  rcases step_cases random flow limit m with hk | ⟨st, -, -, he, -⟩ | ⟨p, c, r, -, -, -, he, -⟩
  · rw [hk.2.1]
  · rw [he]
    exact List.prefix_append _ _
  · rw [he]
    exact List.prefix_append _ _

theorem ordered_snoc {events : List Event} {now : ℕ} (h : Ordered events)
    (hp : ∀ e ∈ events, e.ts ≤ now) {e : Event} (he : now ≤ e.ts) : Ordered (events ++ [e]) := by
  refine List.pairwise_append.mpr ⟨h, List.pairwise_singleton _ _, ?_⟩
  intro a ha b hb
  rw [List.mem_singleton.mp hb]
  exact (hp a ha).trans he

theorem Timed.step (random : Random R) (flow : FlowSpec) (limit : ℤ) (h : Timed m.sim) :
    Timed (step random flow limit m).sim := by
  rcases step_cases random flow limit m with ⟨hn, he, hr⟩ | ⟨st, -, hn, he, hr⟩ |
    ⟨p, current, rest, -, hsort, hn, he, hr⟩
  · constructor
    · rw [he]
      exact h.ordered
    · rw [he, hn]
      exact h.past
    · rw [he, hr]
      exact h.running
  · constructor
    · rw [he]
      exact ordered_snoc h.ordered h.past (le_refl _)
    · rw [he, hn]
      intro e hm
      rcases List.mem_append.mp hm with hm | hm
      · exact h.past e hm
      · rw [List.mem_singleton.mp hm]
    · rw [he, hr]
      intro w hw
      rcases List.mem_append.mp hw with hw | hw
      · obtain ⟨t, ht, hm⟩ := h.running w hw
        exact ⟨t, ht, List.mem_append_left _ hm⟩
      · rw [List.mem_singleton.mp hw]
        exact ⟨_, rfl, List.mem_append_right _ (List.mem_singleton.mpr rfl)⟩
  · have hle := now_le_finishTime m.sim.now current
    constructor
    · rw [he]
      exact ordered_snoc h.ordered h.past hle
    · rw [he, hn]
      intro e hm
      rcases List.mem_append.mp hm with hm | hm
      · exact (h.past e hm).trans hle
      · rw [List.mem_singleton.mp hm]
    · rw [he, hr]
      intro w hw
      have hmem : w ∈ m.sim.running := by
        rw [← (sortedRunning_perm m.sim).mem_iff, hsort]
        exact List.mem_cons_of_mem current hw
      obtain ⟨t, ht, hm⟩ := h.running w hmem
      exact ⟨t, ht, List.mem_append_left _ hm⟩

section runs

theorem moment_succ (random : Random R) (limit : ℤ) (flow : FlowSpec) (seed : Option ℤ) (n : ℕ) :
    moment random limit flow seed (n + 1) =
      step random flow limit (moment random limit flow seed n) :=
  Function.iterate_succ_apply' _ _ _

theorem enter_frame (flow : FlowSpec) (s : Simulation R) (id : Str) :
    (enter flow s id).events = s.events ∧ (enter flow s id).running = s.running := by
  unfold enter
  cases flow.steps.get? id <;> exact ⟨rfl, rfl⟩

theorem foldl_enter_frame (flow : FlowSpec) (ids : List Str) (s : Simulation R) :
    (ids.foldl (enter flow) s).events = s.events ∧
      (ids.foldl (enter flow) s).running = s.running := by
  induction ids generalizing s with
  | nil => exact ⟨rfl, rfl⟩
  | cons id ids ih =>
    obtain ⟨he, hr⟩ := ih (enter flow s id)
    obtain ⟨he', hr'⟩ := enter_frame flow s id
    exact ⟨he.trans he', hr.trans hr'⟩

theorem start_events (random : Random R) (flow : FlowSpec) (seed : Option ℤ) :
    (start random flow seed).sim.events = [] ∧ (start random flow seed).sim.running = [] :=
  foldl_enter_frame flow flow.entrypoints _

variable (random) (limit) (flow) (seed : Option ℤ)

theorem moment_timed (n : ℕ) : Timed (moment random limit flow seed n).sim := by
  induction n with
  | zero =>
    obtain ⟨he, hr⟩ := start_events random flow seed
    constructor
    · rw [moment, Function.iterate_zero_apply, he]
      exact List.Pairwise.nil
    · rw [moment, Function.iterate_zero_apply, he]
      intro e hm
      cases hm
    · rw [moment, Function.iterate_zero_apply, hr]
      intro w hw
      cases hw
  | succ n ih =>
    rw [moment_succ]
    exact ih.step random flow limit

theorem moment_events {n k : ℕ} (h : n ≤ k) :
    (moment random limit flow seed n).sim.events <+:
      (moment random limit flow seed k).sim.events := by
  induction h with
  | refl => exact List.prefix_refl _
  | step _ ih =>
    rw [moment_succ]
    exact ih.trans (step_events _)

variable {random limit flow seed}

theorem start_unique (h : Scheduled flow s) {id : Str} {t t' : ℕ}
    (ht : ⟨.stepStarted, id, t⟩ ∈ s.events) (ht' : ⟨.stepStarted, id, t'⟩ ∈ s.events) : t = t' := by
  have he := List.inj_on_of_nodup_map (stepsOf_nodup h .stepStarted)
    (List.mem_filter.mpr ⟨ht, by simp⟩) (List.mem_filter.mpr ⟨ht', by simp⟩) rfl
  exact congrArg Event.ts he

theorem mem_stepsOf {kind : EventKind} {events : List Event} {id : Str} {t : ℕ}
    (h : ⟨kind, id, t⟩ ∈ events) : id ∈ stepsOf kind events :=
  List.mem_map.mpr ⟨_, List.mem_filter.mpr ⟨h, by simp⟩, rfl⟩

theorem retired_started (h : Timed s) {rest : List StepState}
    (hsort : sortedRunning s = current :: rest) :
    current ∈ s.running ∧ ∃ t, current.startedAt = some t ∧ t ≤ s.now ∧
      ⟨.stepStarted, current.id, t⟩ ∈ s.events := by
  have hmem : current ∈ s.running := by
    rw [← (sortedRunning_perm s).mem_iff, hsort]
    exact List.mem_cons_self
  obtain ⟨t, ht, he⟩ := h.running current hmem
  exact ⟨hmem, t, ht, h.past _ he, he⟩

theorem running_known (h : Scheduled flow s) (hm : current ∈ s.running) :
    flow.steps.get? current.id = some current.spec :=
  h.known current (List.mem_append_left _ (List.mem_append_right _ hm))

theorem Timely.step (h : Timely flow m.sim.events) (hs : Scheduled flow m.sim)
    (ht : Timed m.sim) (hp : PunctualNext m) :
    Timely flow (step random flow limit m).sim.events := by
  rcases step_cases random flow limit m with ⟨-, he, -⟩ | ⟨st, hwait, -, he, -⟩ |
    ⟨p, current, rest, hphase, hsort, -, he, -⟩
  · rw [he]
    exact h
  · rw [he]
    intro id spec started finished hspec hstart hfinish
    have hfin : ⟨.stepFinished, id, finished⟩ ∈ m.sim.events := by
      simpa using hfinish
    rcases List.mem_append.mp hstart with hstart | hstart
    · exact h id spec started finished hspec hstart hfin
    · -- The step waits, so it has not finished.
      obtain rfl : id = st.id := congrArg Event.step (List.mem_singleton.mp hstart)
      have hdone := hs.finished.mem_iff.mp (mem_stepsOf hfin)
      have hd := hs.distinct
      rw [Simulation.states, List.append_assoc, List.map_append, List.map_append] at hd
      exact absurd rfl ((List.nodup_append.mp hd).2.2 st.id hwait st.id
        (List.mem_append_right _ hdone))
  · rw [he]
    intro id spec started finished hspec hstart hfinish
    have hstart : ⟨.stepStarted, id, started⟩ ∈ m.sim.events := by
      simpa using hstart
    rcases List.mem_append.mp hfinish with hfinish | hfinish
    · exact h id spec started finished hspec hstart hfinish
    · obtain ⟨-, rfl, rfl⟩ := Event.mk.inj (List.mem_singleton.mp hfinish)
      obtain ⟨hrun, t, hat, hle, hevent⟩ := retired_started ht hsort
      obtain rfl := start_unique hs hstart hevent
      obtain rfl := Option.some.inj (hspec.symm.trans (running_known hs hrun))
      exact (finishTime_eq_iff hat hle).mpr (hp p current rest hphase hsort)

theorem punctual_of_timely (hs : Scheduled flow m.sim) (ht : Timed m.sim)
    (h : Timely flow (step random flow limit m).sim.events) : PunctualNext m := by
  intro progress current rest hphase hsort
  obtain ⟨s, phase⟩ := m
  obtain rfl : phase = .turns [] progress := hphase
  obtain ⟨hrun, t, hat, hle, hevent⟩ := retired_started ht hsort
  have hsort : sortedRunning s = current :: rest := hsort
  rcases endRound_moves flow s progress with ⟨-, hnil⟩ | ⟨current', rest', hsort', -, he, -⟩
  · rw [hsort] at hnil
    cases hnil
  · obtain ⟨rfl, -⟩ := List.cons.inj (hsort.symm.trans hsort')
    have hevents : (Validate.step random flow limit ⟨s, .turns [] progress⟩).sim.events =
        s.events ++ [⟨.stepFinished, current.id, finishTime s.now current⟩] := he
    rw [hevents] at h
    exact (finishTime_eq_iff hat hle).mp (h current.id current.spec t _ (running_known hs hrun)
      (List.mem_append_left _ hevent) (List.mem_append_right _ (List.mem_singleton.mpr rfl)))

theorem timely_of_punctual (h : ∀ n, PunctualNext (moment random limit flow seed n)) (n : ℕ) :
    Timely flow (moment random limit flow seed n).sim.events := by
  induction n with
  | zero =>
    rw [moment, Function.iterate_zero_apply, (start_events random flow seed).1]
    intro id spec started finished _ hm
    cases hm
  | succ n ih =>
    rw [moment_succ]
    exact ih.step (moment_sound random limit flow seed n).scheduled
      (moment_timed random flow limit seed n) (h n)

theorem Timely.prefix {events events' : List Event} (h : Timely flow events')
    (hp : events <+: events') : Timely flow events := by
  intro id spec started finished hspec hstart hfinish
  exact h id spec started finished hspec (hp.subset hstart) (hp.subset hfinish)

theorem timely_iff_punctual {n d : ℕ} (hd : (moment random limit flow seed n).phase = .done d) :
    Timely flow (moment random limit flow seed n).sim.events ↔
      ∀ k, PunctualNext (moment random limit flow seed k) := by
  constructor
  · intro h k
    have hnext : Timely flow (moment random limit flow seed (k + 1)).sim.events := by
      rcases le_total (k + 1) n with hle | hle
      · exact h.prefix (moment_events random flow limit seed hle)
      · rw [moment_fixed hd hle]
        exact h
    rw [moment_succ] at hnext
    exact punctual_of_timely (moment_sound random limit flow seed k).scheduled
      (moment_timed random flow limit seed k) hnext
  · intro h
    exact timely_of_punctual h n

end runs

def Serial (m : Machine R) : Prop :=
  match m.phase with
  | .head => m.sim.running = []
  | .turns _ _ => m.sim.running.length ≤ 1 ∧
      ∀ st ∈ m.sim.running, st.startedAt = some m.sim.now
  | .done _ => True

theorem turn_serial {s : Simulation R} (hlimit : capacity limit = 1)
    (h : s.running.length ≤ 1 ∧ ∀ st ∈ s.running, st.startedAt = some s.now) (st : StepState) :
    (turn limit s st).1.running.length ≤ 1 ∧
      ∀ w ∈ (turn limit s st).1.running, w.startedAt = some (turn limit s st).1.now := by
  obtain ⟨hnow, -, hrun, -⟩ := takeLock_frame s st
  unfold turn
  dsimp only
  split_ifs with hstart
  · have hnil : s.running = [] := by
      rw [hrun, hlimit] at hstart
      exact List.eq_nil_of_length_eq_zero (Nat.lt_one_iff.mp hstart.2)
    simp only [startStep, hrun, hnil, List.nil_append, List.length_singleton, le_refl, true_and]
    intro w hw
    rw [List.mem_singleton.mp hw]
  · rw [hrun, hnow]
    exact h

theorem Serial.step (hlimit : capacity limit = 1) (h : Serial m) :
    Serial (step random flow limit m) := by
  obtain ⟨s, phase⟩ := m
  cases phase with
  | done d => trivial
  | head =>
    have hnil : s.running = [] := h
    unfold Validate.step
    dsimp only
    split_ifs
    · trivial
    · simp [Serial, hnil]
  | turns candidates progress =>
    cases candidates with
    | nil =>
      have hlen : (sortedRunning s).length ≤ 1 := by
        rw [(sortedRunning_perm s).length_eq]
        exact h.1
      have hround : Serial (endRound flow s progress) := by
        unfold endRound
        cases hsort : sortedRunning s with
        | cons current rest =>
          rw [hsort] at hlen
          have hrest : rest = [] := List.eq_nil_of_length_eq_zero (by simpa using hlen)
          exact ((foldl_addNext_frame _ (retired s current rest)).2.2).trans hrest
        | nil =>
          cases progress with
          | true => exact List.Perm.eq_nil ((sortedRunning_perm s).symm.trans (by rw [hsort]))
          | false => trivial
      exact hround
    | cons c candidates =>
      unfold Validate.step
      dsimp only
      cases s.waiting.find? (fun w => w.id = c) with
      | none => exact h
      | some st => exact turn_serial hlimit h st

theorem moment_serial (random : Random R) (flow : FlowSpec) (hlimit : capacity limit = 1)
    (seed : Option ℤ) (n : ℕ) : Serial (moment random limit flow seed n) := by
  induction n with
  | zero => exact (start_events random flow seed).2
  | succ n ih =>
    rw [moment_succ]
    exact ih.step hlimit

theorem Serial.punctual (h : Serial m) : PunctualNext m := by
  intro progress current rest hphase hsort
  obtain ⟨s, phase⟩ := m
  obtain rfl : phase = .turns [] progress := hphase
  have hmem : current ∈ s.running := by
    rw [← (sortedRunning_perm s).mem_iff]
    exact hsort ▸ List.mem_cons_self
  exact Or.inl (h.2 current hmem)

theorem capacity_one {limit : ℤ} (h : limit ≤ 1) : capacity limit = 1 := by
  rw [capacity, max_eq_left h]
  rfl

section reports

open Artifacts (JsonFields)

variable (random) (limit) (py : Queue.PyText) (int : PyInt)

def pairDoc : JsonFields :=
  [("steps".toList, .obj [("a".toList, .obj []), ("b".toList, .obj [])])]

end reports

end TraceMind.Validate
