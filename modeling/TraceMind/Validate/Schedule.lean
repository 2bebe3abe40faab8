import TraceMind.Validate.Simulator

namespace TraceMind.Validate

variable {R : Type} {random : Random R} {flow : FlowSpec} {limit : ℤ}
  {s : Simulation R} {st : StepState}

def Simulation.states (s : Simulation R) : List StepState := s.waiting ++ s.running ++ s.completed

def Simulation.holds (s : Simulation R) : List LockRequest :=
  (s.waiting ++ s.running).flatMap StepState.heldLocks

def stepsOf (kind : EventKind) (events : List Event) : List Str :=
  (events.filter (fun e => e.event = kind)).map Event.step

inductive Reachable (flow : FlowSpec) : Str → Prop
  | entry {id spec} : id ∈ flow.entrypoints → flow.steps.get? id = some spec → Reachable flow id
  | next {id spec n spec'} : Reachable flow id → flow.steps.get? id = some spec →
      n ∈ spec.nextSteps → flow.steps.get? n = some spec' → Reachable flow n

structure Scheduled (flow : FlowSpec) (s : Simulation R) : Prop where
  distinct : (s.states.map StepState.id).Nodup
  scheduled : ∀ id, id ∈ s.scheduled ↔ id ∈ s.states.map StepState.id
  known : ∀ st ∈ s.states, flow.steps.get? st.id = some st.spec
  acquired : ∀ st ∈ s.states, st.heldLocks.length = st.acquiredIndex ∧
    st.acquiredIndex ≤ st.spec.locks.length
  reachable : ∀ id ∈ s.scheduled, Reachable flow id
  started : (stepsOf .stepStarted s.events).Perm ((s.running ++ s.completed).map StepState.id)
  finished : (stepsOf .stepFinished s.events).Perm (s.completed.map StepState.id)
  tracks : LockTable.Tracks s.locksHeld s.holds
  exclusive : LockTable.Exclusive s.holds

structure Explored (flow : FlowSpec) (s : Simulation R) : Prop where
  entries : ∀ id ∈ flow.entrypoints, ∀ spec, flow.steps.get? id = some spec → id ∈ s.scheduled
  successors : ∀ st ∈ s.completed, ∀ n ∈ st.spec.nextSteps, ∀ spec,
    flow.steps.get? n = some spec → n ∈ s.scheduled

def Blocked (limit : ℤ) (s : Simulation R) (st : StepState) : Prop :=
  (∃ req, st.spec.locks[st.acquiredIndex]? = some req ∧
    ∃ r ∈ s.holds, r.name = req.name ∧ (r.mode = .exclusive ∨ req.mode = .exclusive)) ∨
  (st.acquiredIndex = st.spec.locks.length ∧ capacity limit ≤ s.running.length)

section lists

variable {states : List StepState}

theorem replaceState_ids (st : StepState) (states : List StepState) :
    (replaceState st states).map StepState.id = states.map StepState.id := by
  unfold replaceState
  rw [List.map_map]
  refine List.map_congr_left (fun w _ => ?_)
  rw [Function.comp_apply]
  split_ifs with h
  · exact h.symm
  · rfl

theorem replaceState_eq_self (h : st.id ∉ states.map StepState.id) :
    replaceState st states = states := by
  unfold replaceState
  refine (List.map_congr_left (fun w hw => ?_)).trans (List.map_id states)
  rw [if_neg]
  · rfl
  · intro he
    exact h (List.mem_map.mpr ⟨w, hw, he⟩)

theorem filter_ids_eq_self (h : st.id ∉ states.map StepState.id) :
    states.filter (fun w => w.id ≠ st.id) = states := by
  refine List.filter_eq_self.mpr (fun w hw => decide_eq_true (fun he => ?_))
  exact h (List.mem_map.mpr ⟨w, hw, he⟩)

theorem exists_others (hn : (states.map StepState.id).Nodup) (hm : st ∈ states) :
    ∃ others, states.Perm (st :: others) ∧
      (∀ st', st'.id = st.id → (replaceState st' states).Perm (st' :: others)) ∧
      states.filter (fun w => w.id ≠ st.id) = others := by
  obtain ⟨before, after, rfl⟩ := List.append_of_mem hm
  rw [List.map_append, List.map_cons, List.nodup_middle, List.nodup_cons] at hn
  have hnot : st.id ∉ before.map StepState.id ∧ st.id ∉ after.map StepState.id := by
    simpa only [List.mem_append, not_or] using hn.1
  refine ⟨before ++ after, List.perm_middle, fun st' he => ?_, ?_⟩
  · have hreplace : replaceState st' (before ++ st :: after) = before ++ st' :: after := by
      rw [← he] at hnot
      have happend : replaceState st' (before ++ st :: after) =
          replaceState st' before ++ (if st.id = st'.id then st' else st) ::
            replaceState st' after := by
        simp only [replaceState, List.map_append, List.map_cons]
      rw [happend, replaceState_eq_self hnot.1, replaceState_eq_self hnot.2, if_pos he.symm]
    rw [hreplace]
    exact List.perm_middle
  · rw [List.filter_append, List.filter_cons_of_neg (by simp), filter_ids_eq_self hnot.1,
      filter_ids_eq_self hnot.2]

end lists

theorem nextLock_eq_some {req : LockRequest} :
    nextLock s st = some req ↔ st.spec.locks[st.acquiredIndex]? = some req ∧
      LockTable.canAcquire s.locksHeld req = true := by
  unfold nextLock
  cases hr : st.spec.locks[st.acquiredIndex]? with
  | none => simp
  | some r =>
    dsimp only
    split_ifs with hc
    · constructor
      · intro he
        obtain rfl := Option.some.inj he
        exact ⟨rfl, hc⟩
      · exact And.left
    · constructor
      · intro he
        cases he
      · rintro ⟨he, hc'⟩
        obtain rfl := Option.some.inj he
        exact absurd hc' hc

theorem nextLock_eq_none (h : nextLock s st = none) :
    st.spec.locks.length ≤ st.acquiredIndex ∨ ∃ req, st.spec.locks[st.acquiredIndex]? = some req ∧
      LockTable.canAcquire s.locksHeld req = false := by
  cases hr : st.spec.locks[st.acquiredIndex]? with
  | none => exact Or.inl (List.getElem?_eq_none_iff.mp hr)
  | some req =>
    refine Or.inr ⟨req, rfl, Bool.eq_false_iff.mpr (fun hc => ?_)⟩
    rw [nextLock_eq_some.mpr ⟨hr, hc⟩] at h
    cases h

theorem Scheduled.waiting_distinct (h : Scheduled flow s) :
    (s.waiting.map StepState.id).Nodup := by
  have hd := h.distinct
  simp only [Simulation.states, List.map_append] at hd
  exact hd.of_append_left.of_append_left

theorem mem_states_of_waiting (hm : st ∈ s.waiting) : st ∈ s.states :=
  List.mem_append_left _ (List.mem_append_left _ hm)

theorem holds_perm {waiting waiting' running : List StepState} (h : waiting.Perm waiting') :
    ((waiting ++ running).flatMap StepState.heldLocks).Perm
      ((waiting' ++ running).flatMap StepState.heldLocks) :=
  (h.append_right running).flatMap_right _

theorem Scheduled.lockTaken {req : LockRequest} (h : Scheduled flow s) (hm : st ∈ s.waiting)
    (hn : nextLock s st = some req) :
    Scheduled flow { s with
      waiting := replaceState (st.acquire req) s.waiting
      locksHeld := LockTable.acquire s.locksHeld req } := by
  obtain ⟨hreq, hcan⟩ := nextLock_eq_some.mp hn
  obtain ⟨others, hwait, hreplace, -⟩ := exists_others h.waiting_distinct hm
  have hreplace := hreplace (st.acquire req) rfl
  have hids : (replaceState (st.acquire req) s.waiting ++ s.running ++ s.completed).map
      StepState.id = s.states.map StepState.id := by
    simp only [Simulation.states, List.map_append, replaceState_ids]
  have hmem : ∀ w ∈ replaceState (st.acquire req) s.waiting ++ s.running ++ s.completed,
      w = st.acquire req ∨ w ∈ s.states := by
    intro w hw
    rw [List.append_assoc, List.mem_append, hreplace.mem_iff, List.mem_cons] at hw
    rw [Simulation.states, List.append_assoc, List.mem_append, hwait.mem_iff, List.mem_cons]
    tauto
  have hholds : ((replaceState (st.acquire req) s.waiting ++ s.running).flatMap
      StepState.heldLocks).Perm (req :: s.holds) := by
    refine (holds_perm hreplace).trans (List.Perm.trans ?_ ((holds_perm hwait).symm.cons req))
    simp only [List.cons_append, List.flatMap_cons, StepState.acquire, List.append_assoc]
    exact List.perm_middle
  have hst := mem_states_of_waiting hm
  refine ⟨?_, ?_, ?_, ?_, h.reachable, h.started, h.finished, ?_, ?_⟩
  · exact hids ▸ h.distinct
  · intro id
    rw [h.scheduled id]
    exact iff_of_eq (congrArg (id ∈ ·) hids.symm)
  · intro w hw
    rcases hmem w hw with rfl | hw
    · exact h.known st hst
    · exact h.known w hw
  · intro w hw
    rcases hmem w hw with rfl | hw
    · obtain ⟨hlen, -⟩ := h.acquired st hst
      have hlt := (List.getElem?_eq_some_iff.mp hreq).1
      exact ⟨by simp [StepState.acquire, hlen], hlt⟩
    · exact h.acquired w hw
  · exact (h.tracks.acquire req).perm hholds.symm
  · exact (h.exclusive.acquire h.tracks hcan).perm hholds.symm

theorem stepsOf_snoc (kind : EventKind) (events : List Event) (e : Event) :
    stepsOf kind (events ++ [e]) =
      stepsOf kind events ++ if e.event = kind then [e.step] else [] := by
  rw [stepsOf, List.filter_append, List.map_append, stepsOf]
  split_ifs with he
  · rw [List.filter_cons_of_pos (by simpa using he)]
    rfl
  · rw [List.filter_cons_of_neg (by simpa using he)]
    rfl

theorem Scheduled.stepStarted (h : Scheduled flow s) (hm : st ∈ s.waiting) :
    Scheduled flow (startStep s st) := by
  obtain ⟨others, hwait, -, hfilter⟩ := exists_others h.waiting_distinct hm
  have hids : (s.states.map StepState.id).Perm ((startStep s st).states.map StepState.id) := by
    have hcons := hwait.map StepState.id
    simp only [startStep, Simulation.states, List.map_append, hfilter]
    refine List.perm_iff_count.mpr (fun id => ?_)
    have hcount := hcons.count_eq id
    simp only [List.map_cons, List.count_cons, List.count_append, List.map_nil, List.count_nil,
      StepState.id] at hcount ⊢
    omega
  have hmem : ∀ w ∈ (startStep s st).states, w = { st with startedAt := some s.now } ∨
      w ∈ s.states := by
    intro w hw
    simp only [startStep, Simulation.states, List.mem_append, List.mem_singleton,
      List.mem_filter] at hw ⊢
    tauto
  have hholds : s.holds.Perm (startStep s st).holds := by
    refine (holds_perm hwait).trans ?_
    simp only [startStep, Simulation.holds, hfilter, List.cons_append, List.flatMap_cons,
      List.flatMap_append, List.flatMap_nil, List.append_nil]
    refine List.perm_append_comm.trans ?_
    rw [List.append_assoc]
  have hst := mem_states_of_waiting hm
  refine ⟨hids.nodup_iff.mp h.distinct, ?_, ?_, ?_, h.reachable, ?_, ?_, ?_, ?_⟩
  · intro id
    rw [← hids.mem_iff]
    exact h.scheduled id
  · intro w hw
    rcases hmem w hw with rfl | hw
    · exact h.known st hst
    · exact h.known w hw
  · intro w hw
    rcases hmem w hw with rfl | hw
    · exact h.acquired st hst
    · exact h.acquired w hw
  · simp only [startStep, stepsOf_snoc, if_true]
    refine (h.started.append_right [st.id]).trans ?_
    simp only [List.map_append, List.append_assoc, List.map_cons, List.map_nil]
    exact List.perm_append_comm.append_left _
  · simp only [startStep, stepsOf_snoc, reduceCtorEq, if_false, List.append_nil]
    exact h.finished
  · exact h.tracks.perm hholds
  · exact h.exclusive.perm hholds

theorem Scheduled.added {id : Str} {spec : StepSpec} (h : Scheduled flow s)
    (hid : id ∉ s.scheduled) (hspec : flow.steps.get? id = some spec) (hr : Reachable flow id) :
    Scheduled flow { s with
      scheduled := s.scheduled ++ [spec.id]
      waiting := s.waiting ++ [StepState.new spec] } := by
  obtain rfl := flow.named id spec hspec
  have hnot : spec.id ∉ s.states.map StepState.id := fun hm => hid ((h.scheduled _).mpr hm)
  have hperm : (s.waiting ++ [StepState.new spec] ++ s.running ++ s.completed).Perm
      (StepState.new spec :: s.states) := by
    rw [Simulation.states]
    simp only [List.append_assoc, List.cons_append, List.nil_append]
    exact List.perm_middle
  have hids := hperm.map StepState.id
  have hmem : ∀ w ∈ s.waiting ++ [StepState.new spec] ++ s.running ++ s.completed,
      w = StepState.new spec ∨ w ∈ s.states := by
    intro w hw
    exact List.mem_cons.mp (hperm.mem_iff.mp hw)
  have hholds : (s.waiting ++ [StepState.new spec] ++ s.running).flatMap StepState.heldLocks =
      s.holds := by
    simp only [Simulation.holds, List.flatMap_append, List.flatMap_cons, List.flatMap_nil,
      StepState.new, List.append_nil]
  refine ⟨?_, ?_, ?_, ?_, ?_, h.started, h.finished, ?_, ?_⟩
  · exact hids.nodup_iff.mpr (List.nodup_cons.mpr ⟨hnot, h.distinct⟩)
  · intro id
    rw [List.mem_append, List.mem_singleton, h.scheduled id]
    refine Iff.trans ?_ hids.mem_iff.symm
    rw [List.map_cons, List.mem_cons, or_comm]
    rfl
  · intro w hw
    rcases hmem w hw with rfl | hw
    · exact hspec
    · exact h.known w hw
  · intro w hw
    rcases hmem w hw with rfl | hw
    · exact ⟨rfl, Nat.zero_le _⟩
    · exact h.acquired w hw
  · intro id hid
    rcases List.mem_append.mp hid with hid | hid
    · exact h.reachable id hid
    · exact List.mem_singleton.mp hid ▸ hr
  · exact h.tracks.perm (List.Perm.of_eq hholds.symm)
  · exact h.exclusive.perm (List.Perm.of_eq hholds.symm)

theorem Scheduled.addNext {id : Str} (h : Scheduled flow s)
    (hr : ∀ spec, flow.steps.get? id = some spec → Reachable flow id) :
    Scheduled flow (addNext flow s id) := by
  unfold Validate.addNext
  split_ifs with hid
  · exact h
  · cases hspec : flow.steps.get? id with
    | none => exact h
    | some spec => exact h.added (fun hm => hid (Or.inr hm)) hspec (hr spec hspec)

def retired (s : Simulation R) (current : StepState) (rest : List StepState) : Simulation R :=
  { s with
    now := finishTime s.now current
    running := rest
    locksHeld := LockTable.release s.locksHeld current.heldLocks
    events := s.events ++ [⟨.stepFinished, current.id, finishTime s.now current⟩]
    completed := s.completed ++ [{ current with finishedAt := some (finishTime s.now current) }] }

theorem Scheduled.retired {current : StepState} {rest : List StepState} (h : Scheduled flow s)
    (hp : s.running.Perm (current :: rest)) : Scheduled flow (retired s current rest) := by
  have hids : (s.states.map StepState.id).Perm
      ((Validate.retired s current rest).states.map StepState.id) := by
    have hcons := hp.map StepState.id
    simp only [Validate.retired, Simulation.states, List.map_append]
    refine List.perm_iff_count.mpr (fun id => ?_)
    have hcount := hcons.count_eq id
    simp only [List.map_cons, List.count_cons, List.count_append, List.map_nil, List.count_nil,
      StepState.id] at hcount ⊢
    omega
  have hmem : ∀ w ∈ (Validate.retired s current rest).states,
      w = { current with finishedAt := some (finishTime s.now current) } ∨ w ∈ s.states := by
    intro w hw
    have hrest : w ∈ rest → w ∈ s.running := fun hm =>
      hp.mem_iff.mpr (List.mem_cons_of_mem current hm)
    simp only [Validate.retired, Simulation.states, List.mem_append, List.mem_singleton] at hw ⊢
    tauto
  have hcurrent : current ∈ s.states :=
    List.mem_append_left _ (List.mem_append_right _ (hp.mem_iff.mpr List.mem_cons_self))
  have hholds : s.holds.Perm
      (current.heldLocks ++ (s.waiting ++ rest).flatMap StepState.heldLocks) := by
    have hflat := hp.flatMap_right StepState.heldLocks
    simp only [Simulation.holds, List.flatMap_append]
    refine (hflat.append_left _).trans ?_
    rw [List.flatMap_cons, ← List.append_assoc, ← List.append_assoc]
    exact List.perm_append_comm.append_right _
  refine ⟨hids.nodup_iff.mp h.distinct, ?_, ?_, ?_, h.reachable, ?_, ?_, ?_, ?_⟩
  · intro id
    rw [← hids.mem_iff]
    exact h.scheduled id
  · intro w hw
    rcases hmem w hw with rfl | hw
    · exact h.known current hcurrent
    · exact h.known w hw
  · intro w hw
    rcases hmem w hw with rfl | hw
    · exact h.acquired current hcurrent
    · exact h.acquired w hw
  · simp only [Validate.retired, stepsOf_snoc, reduceCtorEq, if_false, List.append_nil]
    refine h.started.trans ?_
    have hcons := hp.map StepState.id
    simp only [List.map_append]
    refine List.perm_iff_count.mpr (fun id => ?_)
    have hcount := hcons.count_eq id
    simp only [List.map_cons, List.count_cons, List.count_append, List.map_nil, List.count_nil,
      StepState.id] at hcount ⊢
    omega
  · simp only [Validate.retired, stepsOf_snoc, if_true, List.map_append]
    exact h.finished.append_right _
  · exact (h.tracks.perm hholds).release
  · exact (h.exclusive.perm hholds).sublist (List.sublist_append_right _ _)

theorem foldl_addNext {ids : List Str} (h : Scheduled flow s)
    (hr : ∀ id ∈ ids, ∀ spec, flow.steps.get? id = some spec → Reachable flow id) :
    Scheduled flow (ids.foldl (addNext flow) s) := by
  induction ids generalizing s with
  | nil => exact h
  | cons id ids ih =>
    exact ih (h.addNext (hr id List.mem_cons_self))
      (fun j hj => hr j (List.mem_cons_of_mem id hj))

theorem retire_eq {current : StepState} {rest : List StepState} :
    retire flow s current rest =
      current.spec.nextSteps.foldl (addNext flow) (retired s current rest) := rfl

theorem Scheduled.retire {current : StepState} {rest : List StepState} (h : Scheduled flow s)
    (hp : s.running.Perm (current :: rest)) : Scheduled flow (retire flow s current rest) := by
  have hcurrent : current ∈ s.states :=
    List.mem_append_left _ (List.mem_append_right _ (hp.mem_iff.mpr List.mem_cons_self))
  have hr : Reachable flow current.id :=
    h.reachable _ ((h.scheduled _).mpr (List.mem_map_of_mem hcurrent))
  rw [retire_eq]
  refine foldl_addNext (h.retired hp) (fun id hid spec hspec => ?_)
  exact hr.next (h.known current hcurrent) hid hspec

theorem addNext_completed (s : Simulation R) (id : Str) :
    (addNext flow s id).completed = s.completed := by
  unfold addNext
  split_ifs
  · rfl
  · cases flow.steps.get? id <;> rfl

theorem addNext_mono {s : Simulation R} {id : Str} (j : Str) (h : id ∈ s.scheduled) :
    id ∈ (addNext flow s j).scheduled := by
  unfold addNext
  split_ifs
  · exact h
  · cases flow.steps.get? j with
    | none => exact h
    | some spec => exact List.mem_append_left _ h

theorem mem_addNext {id : Str} {spec : StepSpec} (h : Scheduled flow s)
    (hspec : flow.steps.get? id = some spec) : id ∈ (addNext flow s id).scheduled := by
  unfold addNext
  split_ifs with hid
  · refine hid.elim (fun hc => ?_) (fun hs => hs)
    rw [h.scheduled, Simulation.states, List.map_append]
    exact List.mem_append_right _ hc
  · rw [hspec]
    exact List.mem_append_right _ (List.mem_singleton.mpr (flow.named id spec hspec).symm)

theorem foldl_addNext_completed (ids : List Str) (s : Simulation R) :
    (ids.foldl (addNext flow) s).completed = s.completed := by
  induction ids generalizing s with
  | nil => rfl
  | cons id ids ih => exact (ih (addNext flow s id)).trans (addNext_completed s id)

theorem foldl_addNext_mono (ids : List Str) {s : Simulation R} {id : Str}
    (h : id ∈ s.scheduled) : id ∈ (ids.foldl (addNext flow) s).scheduled := by
  induction ids generalizing s with
  | nil => exact h
  | cons j ids ih => exact ih (addNext_mono j h)

theorem mem_foldl_addNext {ids : List Str} {id : Str} {spec : StepSpec} (h : Scheduled flow s)
    (hr : ∀ id ∈ ids, ∀ spec, flow.steps.get? id = some spec → Reachable flow id)
    (hid : id ∈ ids) (hspec : flow.steps.get? id = some spec) :
    id ∈ (ids.foldl (addNext flow) s).scheduled := by
  induction ids generalizing s with
  | nil => cases hid
  | cons j ids ih =>
    rcases List.mem_cons.mp hid with rfl | hid
    · exact foldl_addNext_mono ids (mem_addNext h hspec)
    · exact ih (h.addNext (hr j List.mem_cons_self))
        (fun i hi => hr i (List.mem_cons_of_mem j hi)) hid

theorem Explored.retire {current : StepState} {rest : List StepState} (hx : Explored flow s)
    (h : Scheduled flow s) (hp : s.running.Perm (current :: rest)) :
    Explored flow (retire flow s current rest) := by
  have hcurrent : current ∈ s.states :=
    List.mem_append_left _ (List.mem_append_right _ (hp.mem_iff.mpr List.mem_cons_self))
  have hr : Reachable flow current.id :=
    h.reachable _ ((h.scheduled _).mpr (List.mem_map_of_mem hcurrent))
  constructor
  · intro id hid spec hspec
    exact foldl_addNext_mono _ (hx.entries id hid spec hspec)
  · intro st hst n hn spec hspec
    rw [retire_eq] at hst ⊢
    rw [foldl_addNext_completed] at hst
    rcases List.mem_append.mp hst with hst | hst
    · exact foldl_addNext_mono _ (hx.successors st hst n hn spec hspec)
    · obtain rfl := List.mem_singleton.mp hst
      exact mem_foldl_addNext (h.retired hp)
        (fun id hid spec hspec => hr.next (h.known current hcurrent) hid hspec) hn hspec

theorem Explored.completed (hx : Explored flow s) (h : Scheduled flow s) (hw : s.waiting = [])
    (hrun : s.running = []) {id : Str} (hr : Reachable flow id) :
    id ∈ s.completed.map StepState.id := by
  have hall : ∀ id, id ∈ s.scheduled ↔ id ∈ s.completed.map StepState.id := by
    intro id
    rw [h.scheduled, Simulation.states, hw, hrun]
    rfl
  induction hr with
  | entry he hspec => exact (hall _).mp (hx.entries _ he _ hspec)
  | next hid hspec hn hspec' ih =>
    obtain ⟨st, hst, rfl⟩ := List.mem_map.mp ih
    have hknown := h.known st (List.mem_append_right _ hst)
    obtain rfl := Option.some.inj (hspec.symm.trans hknown)
    exact (hall _).mp (hx.successors st hst _ hn _ hspec')

theorem Scheduled.entered {id : Str} (h : Scheduled flow s) (hid : id ∉ s.scheduled)
    (he : id ∈ flow.entrypoints) : Scheduled flow (enter flow s id) := by
  unfold enter
  cases hspec : flow.steps.get? id with
  | none => exact h
  | some spec => exact h.added hid hspec (.entry he hspec)

theorem mem_enter {id j : Str} :
    j ∈ (enter flow s id).scheduled ↔
      j ∈ s.scheduled ∨ (j = id ∧ ∃ spec, flow.steps.get? id = some spec) := by
  unfold enter
  cases hspec : flow.steps.get? id with
  | none => simp
  | some spec => simp [flow.named id spec hspec]

theorem enter_completed (s : Simulation R) (id : Str) :
    (enter flow s id).completed = s.completed := by
  unfold enter
  cases flow.steps.get? id <;> rfl

theorem foldl_enter {ids : List Str} (h : Scheduled flow s) (hn : ids.Nodup)
    (hs : ∀ id ∈ ids, id ∉ s.scheduled) (he : ∀ id ∈ ids, id ∈ flow.entrypoints) :
    Scheduled flow (ids.foldl (enter flow) s) ∧
      (ids.foldl (enter flow) s).completed = s.completed ∧
      (∀ id ∈ s.scheduled, id ∈ (ids.foldl (enter flow) s).scheduled) ∧
      ∀ id ∈ ids, ∀ spec, flow.steps.get? id = some spec →
        id ∈ (ids.foldl (enter flow) s).scheduled := by
  induction ids generalizing s with
  | nil => exact ⟨h, rfl, fun _ => id, by simp⟩
  | cons i ids ih =>
    obtain ⟨hni, hn⟩ := List.nodup_cons.mp hn
    have hfresh : ∀ id ∈ ids, id ∉ (enter flow s i).scheduled := by
      intro id hid hm
      rcases mem_enter.mp hm with hm | ⟨rfl, -⟩
      · exact hs id (List.mem_cons_of_mem i hid) hm
      · exact hni hid
    obtain ⟨hsched, hcomp, hmono, hnew⟩ := ih
      (h.entered (hs i List.mem_cons_self) (he i List.mem_cons_self)) hn hfresh
      (fun id hid => he id (List.mem_cons_of_mem i hid))
    refine ⟨hsched, hcomp.trans (enter_completed s i), ?_, ?_⟩
    · intro id hid
      exact hmono id (mem_enter.mpr (Or.inl hid))
    · intro id hid spec hspec
      rcases List.mem_cons.mp hid with rfl | hid
      · exact hmono id (mem_enter.mpr (Or.inr ⟨rfl, spec, hspec⟩))
      · exact hnew id hid spec hspec

theorem start_scheduled (seed : Option ℤ) :
    Scheduled flow (start random flow seed).sim ∧ Explored flow (start random flow seed).sim := by
  have hempty : Scheduled flow (⟨0, [], [], [], [], [], .empty, random.seeded (seed.getD 0)⟩ :
      Simulation R) := by
    refine ⟨List.nodup_nil, fun _ => Iff.rfl, ?_, ?_, ?_, List.Perm.nil, List.Perm.nil,
      LockTable.Tracks.empty, ?_⟩
    · intro st hst
      cases hst
    · intro st hst
      cases hst
    · intro id hid
      cases hid
    · intro name hname
      cases hname
  obtain ⟨hs, hc, -, hnew⟩ := foldl_enter hempty flow.entry_nodup (by simp) (fun _ h => h)
  refine ⟨hs, hnew, ?_⟩
  intro st hst
  rw [start, hc] at hst
  cases hst

end TraceMind.Validate
