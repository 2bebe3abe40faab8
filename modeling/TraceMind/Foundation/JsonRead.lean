import TraceMind.Foundation.JsonSpec

namespace Json

theorem word_wf {s : List Char} {v : Json} (h : word s = some v) : wf v = true := by
  unfold word at h
  split_ifs at h <;> cases h <;> rfl

theorem number_wf {s : List Char} {v : Json} (hs : ∀ c ∈ s, isAtomChar c = true)
    (h : number s = some v) : wf v = true := by
  have hnum := h
  unfold number at h
  dsimp only at h
  split_ifs at h <;> cases h
  · rfl
  · have htext : isFloatText s = true := by
      rw [isFloatText, hnum]
    exact Bool.and_eq_true_iff.mpr ⟨htext, List.all_eq_true.mpr hs⟩

theorem atom_wf {s : List Char} {v : Json} (hs : ∀ c ∈ s, isAtomChar c = true)
    (h : atom s = some v) : wf v = true := by
  unfold atom at h
  cases hw : word s with
  | some w =>
    rw [hw] at h
    cases h
    exact word_wf hw
  | none =>
    rw [hw] at h
    exact number_wf hs h

section containers

variable {k : List Char} {v : Json}

theorem wfItems_append {vs ws : List Json} (hv : wfItems vs = true) (hw : wfItems ws = true) :
    wfItems (vs ++ ws) = true := by
  induction vs with
  | nil => exact hw
  | cons x xs ih =>
    obtain ⟨hx, hxs⟩ := Bool.and_eq_true_iff.mp hv
    exact Bool.and_eq_true_iff.mpr ⟨hx, ih hxs⟩

theorem setField_keys (v : Json) (fs : List (List Char × Json)) :
    k ∈ fs.map Prod.fst ∧ (setField k v fs).map Prod.fst = fs.map Prod.fst ∨
      k ∉ fs.map Prod.fst ∧ (setField k v fs).map Prod.fst = fs.map Prod.fst ++ [k] := by
  induction fs with
  | nil => exact .inr ⟨List.not_mem_nil, rfl⟩
  | cons f fs ih =>
    obtain ⟨k', v'⟩ := f
    unfold setField
    by_cases hk : k' = k
    · subst hk
      simp
    · simp only [if_neg hk, List.map_cons, List.mem_cons, Ne.symm hk, false_or, List.cons_append,
        List.cons.injEq, true_and]
      exact ih

theorem setField_wf {fs : List (List Char × Json)} (hv : wf v = true)
    (h : wfFields fs = true) : wfFields (setField k v fs) = true := by
  induction fs with
  | nil => exact Bool.and_eq_true_iff.mpr ⟨hv, rfl⟩
  | cons f fs ih =>
    obtain ⟨k', v'⟩ := f
    obtain ⟨hv', hfs⟩ := Bool.and_eq_true_iff.mp h
    unfold setField
    split_ifs
    · exact Bool.and_eq_true_iff.mpr ⟨hv, hfs⟩
    · exact Bool.and_eq_true_iff.mpr ⟨hv', ih hfs⟩

theorem setField_wf_obj {fs : List (List Char × Json)} (hv : wf v = true)
    (h : wf (.obj fs) = true) : wf (.obj (setField k v fs)) = true := by
  obtain ⟨hnd, hfs⟩ := Bool.and_eq_true_iff.mp h
  have hkeys := of_decide_eq_true hnd
  refine Bool.and_eq_true_iff.mpr ⟨decide_eq_true ?_, setField_wf hv hfs⟩
  rcases setField_keys v fs with ⟨-, hsame⟩ | ⟨hk, hnew⟩
  · rw [hsame]
    exact hkeys
  · rw [hnew]
    refine List.nodup_append.mpr ⟨hkeys, List.pairwise_singleton _ k, fun a ha b hb hab => ?_⟩
    exact hk (List.mem_singleton.mp hb ▸ hab ▸ ha)

end containers

section states

def Frame.Wf : Frame → Prop
  | .items done => wfItems done = true
  | .fields done => wf (.obj done) = true
  | .field done _ => wf (.obj done) = true

def Mode.Wf : Mode → Prop
  | .done v => wf v = true
  | .atom rev => ∀ c ∈ rev, isAtomChar c = true
  | _ => True

structure State.Wf (s : State) : Prop where
  frames : ∀ f ∈ s.stack, f.Wf
  mode : s.mode.Wf

variable {K : List Frame} {v : Json} {c : Char} {s t : State}

theorem push_wf {f : Frame} (hf : f.Wf) (hK : ∀ g ∈ K, g.Wf) : ∀ g ∈ f :: K, g.Wf := by
  intro g hg
  rcases List.mem_cons.mp hg with rfl | hg
  · exact hf
  · exact hK g hg

theorem complete_wf (hK : ∀ f ∈ K, f.Wf) (hv : wf v = true) (h : complete K v = some s) :
    s.Wf := by
  unfold complete at h
  split at h <;> cases h
  · exact ⟨hK, hv⟩
  · next done K =>
    have hdone : wfItems done = true := hK _ List.mem_cons_self
    refine ⟨push_wf ?_ fun g hg => hK g (List.mem_cons_of_mem _ hg), trivial⟩
    exact wfItems_append hdone (Bool.and_eq_true_iff.mpr ⟨hv, rfl⟩)
  · next done k K =>
    have hdone : wf (.obj done) = true := hK _ List.mem_cons_self
    exact ⟨push_wf (setField_wf_obj hv hdone) fun g hg => hK g (List.mem_cons_of_mem _ hg),
      trivial⟩

theorem close_wf (hK : ∀ f ∈ K, f.Wf) (h : close K c = some s) : s.Wf := by
  unfold close at h
  split at h
  · next done K =>
    have hdone : wf (.arr done) = true := hK _ List.mem_cons_self
    split_ifs at h
    exact complete_wf (fun g hg => hK g (List.mem_cons_of_mem _ hg)) hdone h
  · next done K =>
    have hdone : wf (.obj done) = true := hK _ List.mem_cons_self
    split_ifs at h
    exact complete_wf (fun g hg => hK g (List.mem_cons_of_mem _ hg)) hdone h
  · cases h

theorem next_wf (hs : s.Wf) (h : next s c = some t) : t.Wf := by
  unfold next at h
  by_cases hb : isBlank c = true
  · rw [if_pos hb] at h
    cases h
    exact hs
  · rw [if_neg hb] at h
    split at h
    · split_ifs at h
      · cases h
        exact ⟨hs.frames, trivial⟩
      · exact close_wf hs.frames h
    · split_ifs at h
      · cases h
        exact ⟨hs.frames, trivial⟩
      · exact close_wf hs.frames h
    · cases h

theorem startValue_wf (hK : ∀ f ∈ K, f.Wf) (h : startValue K c = some s) : s.Wf := by
  unfold startValue at h
  split_ifs at h with ho ha hq hat <;> cases h
  · exact ⟨push_wf rfl hK, trivial⟩
  · exact ⟨push_wf rfl hK, trivial⟩
  · exact ⟨hK, trivial⟩
  · exact ⟨hK, fun d hd => List.mem_singleton.mp hd ▸ hat⟩

theorem startKey_wf (hK : ∀ f ∈ K, f.Wf) (h : startKey K c = some s) : s.Wf := by
  unfold startKey at h
  split_ifs at h
  cases h
  exact ⟨hK, trivial⟩

theorem stringStep_wf {b : Bool} {r : List Char} {e : Escape} (hK : ∀ f ∈ K, f.Wf)
    (h : stringStep K b r e c = some s) : s.Wf := by
  unfold stringStep at h
  split_ifs at h
  · unfold completeKey at h
    split at h <;> cases h
    next done K =>
    have hdone : Frame.Wf (.field done r.reverse) := hK (.fields done) List.mem_cons_self
    exact ⟨push_wf hdone fun g hg => hK g (List.mem_cons_of_mem _ hg), trivial⟩
  · exact complete_wf hK rfl h
  · cases h
    exact ⟨hK, trivial⟩
  · obtain ⟨q, -, rfl⟩ := Option.map_eq_some_iff.mp h
    exact ⟨hK, trivial⟩

theorem step_wf (hs : s.Wf) (h : step s c = some t) : t.Wf := by
  obtain ⟨K, m⟩ := s
  have hK := hs.frames
  cases m with
  | value =>
    simp only [step] at h
    split_ifs at h
    · cases h
      exact hs
    · exact startValue_wf hK h
  | valueOrEnd =>
    simp only [step] at h
    split_ifs at h
    · cases h
      exact hs
    · exact close_wf hK h
    · exact startValue_wf hK h
  | key =>
    simp only [step] at h
    split_ifs at h
    · cases h
      exact hs
    · exact startKey_wf hK h
  | keyOrEnd =>
    simp only [step] at h
    split_ifs at h
    · cases h
      exact hs
    · exact close_wf hK h
    · exact startKey_wf hK h
  | colon =>
    simp only [step] at h
    split_ifs at h
    · cases h
      exact hs
    · cases h
      exact ⟨hK, trivial⟩
  | after => exact next_wf hs h
  | done v => exact next_wf hs h
  | atom r =>
    have hr : ∀ d ∈ r, isAtomChar d = true := hs.mode
    simp only [step] at h
    split_ifs at h with hend hat
    · obtain ⟨v, hv, h⟩ := Option.bind_eq_some_iff.mp h
      obtain ⟨u, hu, h⟩ := Option.bind_eq_some_iff.mp h
      have hwf := atom_wf (fun d hd => hr d (List.mem_reverse.mp hd)) hv
      exact next_wf (complete_wf hK hwf hu) h
    · cases h
      refine ⟨hK, fun d hd => ?_⟩
      rcases List.mem_cons.mp hd with rfl | hd
      · exact hat
      · exact hr d hd
  | string b r e => exact stringStep_wf hK h

theorem run_wf {cs : List Char} : ∀ {s t : State}, s.Wf → run s cs = some t → t.Wf := by
  induction cs with
  | nil =>
    intro s t hs h
    cases h
    exact hs
  | cons c cs ih =>
    intro s t hs h
    rw [run_cons, Option.bind_eq_some_iff] at h
    obtain ⟨u, hu, h⟩ := h
    exact ih (step_wf hs hu) h

end states

theorem loads_wf {cs : List Char} {v : Json} (h : loads cs = some v) : wf v = true := by
  obtain ⟨s, hs, h⟩ := Option.bind_eq_some_iff.mp h
  have hwf : s.Wf := run_wf (s := ⟨[], .value⟩) ⟨List.forall_mem_nil _, trivial⟩ hs
  unfold finish at h
  split at h
  · cases h
    exact hwf.mode
  · exact atom_wf (fun d hd => hwf.mode d (List.mem_reverse.mp hd)) h
  · cases h

theorem merge_wf {v : Json} (h : readable v = true) : wf (merge v) = true :=
  loads_wf (loads_merge Style.compact h)

end Json
