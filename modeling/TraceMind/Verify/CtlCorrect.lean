import TraceMind.Verify.Ctl

namespace TraceMind.Verify.Ctl

open Branching BoundedSearch

section loop

variable {test : Finset ℕ → ℕ × List ℕ → Bool} {edges : List (ℕ × List ℕ)}

theorem closePass_subset (s : Finset ℕ) (b : Bool) :
    s ⊆ (closePass test edges (s, b)).1 := by
  induction edges generalizing s b with
  | nil => exact subset_rfl
  | cons e es ih =>
    simp only [closePass]
    split_ifs
    · exact ih s b
    · exact (Finset.subset_insert _ _).trans (ih _ _)
    · exact ih s b

theorem closePass_changed (s : Finset ℕ) : (closePass test edges (s, true)).2 = true := by
  induction edges generalizing s with
  | nil => rfl
  | cons e es ih =>
    simp only [closePass]
    split_ifs <;> exact ih _

theorem closePass_unchanged {s : Finset ℕ} (h : (closePass test edges (s, false)).2 = false) :
    (closePass test edges (s, false)).1 = s ∧ ∀ e ∈ edges, e.1 ∈ s ∨ test s e = false := by
  induction edges with
  | nil => simp [closePass]
  | cons e es ih =>
    simp only [closePass] at h ⊢
    split_ifs at h ⊢ with h1 h2
    · obtain ⟨hs, hall⟩ := ih h
      exact ⟨hs, List.forall_mem_cons.mpr ⟨Or.inl h1, hall⟩⟩
    · rw [closePass_changed] at h
      cases h
    · obtain ⟨hs, hall⟩ := ih h
      exact ⟨hs, List.forall_mem_cons.mpr ⟨Or.inr (by simpa using h2), hall⟩⟩

theorem closePass_sound {P : ℕ → Prop}
    (htest : ∀ s, (∀ i ∈ s, P i) → ∀ e ∈ edges, test s e = true → P e.1)
    {s : Finset ℕ} {b : Bool} (hs : ∀ i ∈ s, P i) :
    ∀ i ∈ (closePass test edges (s, b)).1, P i := by
  induction edges generalizing s b with
  | nil => exact hs
  | cons e es ih =>
    have ih' := fun {t : Finset ℕ} {c : Bool} => ih (s := t) (b := c)
      (fun t ht a ha => htest t ht a (List.mem_cons_of_mem _ ha))
    simp only [closePass]
    split_ifs with h1 h2
    · exact ih' hs
    · refine ih' (fun i hi => ?_)
      rcases Finset.mem_insert.mp hi with rfl | hi
      · exact htest s hs e List.mem_cons_self h2
      · exact hs i hi
    · exact ih' hs

def unsettled (edges : List (ℕ × List ℕ)) (s : Finset ℕ) : ℕ :=
  (edges.filter (fun e => decide (e.1 ∉ s))).length

theorem unsettled_mono {s t : Finset ℕ} (h : s ⊆ t) : unsettled edges t ≤ unsettled edges s := by
  refine (List.monotone_filter_right edges (fun e he => ?_)).length_le
  simp only [decide_eq_true_eq] at he ⊢
  exact fun hs => he (h hs)

theorem unsettled_lt {s t : Finset ℕ} (h : s ⊆ t) {e : ℕ × List ℕ} (he : e ∈ edges)
    (hs : e.1 ∉ s) (ht : e.1 ∈ t) : unsettled edges t < unsettled edges s := by
  induction edges with
  | nil => simp at he
  | cons a es ih =>
    have hmono : unsettled es t ≤ unsettled es s := unsettled_mono h
    unfold unsettled at ih hmono ⊢
    rcases List.mem_cons.mp he with rfl | he
    · simp only [List.filter_cons, hs, ht, not_true, not_false_iff, decide_true, decide_false,
        if_true, List.length_cons]
      simpa using Nat.lt_succ_of_le hmono
    · have hlt := ih he
      by_cases ha : a.1 ∈ s
      · simpa [List.filter_cons, ha, h ha] using hlt
      · by_cases ha' : a.1 ∈ t
        · simpa [List.filter_cons, ha, ha'] using Nat.lt_succ_of_lt hlt
        · simpa [List.filter_cons, ha, ha'] using hlt

theorem closePass_progress {s : Finset ℕ} (h : (closePass test edges (s, false)).2 = true) :
    ∃ e ∈ edges, e.1 ∉ s ∧ e.1 ∈ (closePass test edges (s, false)).1 := by
  induction edges with
  | nil => simp [closePass] at h
  | cons e es ih =>
    simp only [closePass] at h ⊢
    split_ifs at h ⊢ with h1 h2
    · obtain ⟨a, ha, hs⟩ := ih h
      exact ⟨a, List.mem_cons_of_mem _ ha, hs⟩
    · exact ⟨e, List.mem_cons_self, h1, closePass_subset _ _ (Finset.mem_insert_self _ _)⟩
    · obtain ⟨a, ha, hs⟩ := ih h
      exact ⟨a, List.mem_cons_of_mem _ ha, hs⟩

theorem closeLoop_spec (test : Finset ℕ → ℕ × List ℕ → Bool) (edges : List (ℕ × List ℕ))
    {P : ℕ → Prop}
    (htest : ∀ s, (∀ i ∈ s, P i) → ∀ e ∈ edges, test s e = true → P e.1) (fuel : ℕ)
    (s : Finset ℕ) (hf : unsettled edges s < fuel) (hs : ∀ i ∈ s, P i) :
    ∃ t, closeLoop test edges fuel s = some t ∧ s ⊆ t ∧ (∀ i ∈ t, P i) ∧
      ∀ e ∈ edges, test t e = true → e.1 ∈ t := by
  induction fuel generalizing s with
  | zero => exact absurd hf (Nat.not_lt_zero _)
  | succ fuel ih =>
    have hsub : s ⊆ (closePass test edges (s, false)).1 := closePass_subset s false
    have hsound : ∀ i ∈ (closePass test edges (s, false)).1, P i := closePass_sound htest hs
    cases hc : (closePass test edges (s, false)).2 with
    | true =>
      obtain ⟨e, he, hes, het⟩ := closePass_progress hc
      have hlt := unsettled_lt hsub he hes het
      obtain ⟨t, ht, hst, hPt, hclosed⟩ := ih _ (by omega) hsound
      refine ⟨t, ?_, hsub.trans hst, hPt, hclosed⟩
      simpa [closeLoop, hc] using ht
    | false =>
      obtain ⟨heq, hall⟩ := closePass_unchanged hc
      refine ⟨s, ?_, subset_rfl, hs, fun e he hte => ?_⟩
      · simp [closeLoop, hc, heq]
      · rcases hall e he with h | h
        · exact h
        · rw [h] at hte
          cases hte

theorem unsettled_le_length (s : Finset ℕ) : unsettled edges s ≤ edges.length :=
  List.length_filter_le _ _

end loop

section model

variable {V : Type} {m : ExplorationResult V}

theorem step_of_mem (hm : m.WellFormed) {e : ℕ × List ℕ} (he : e ∈ m.edges) {j : ℕ} :
    Step m e.1 j ↔ j ∈ e.2 := by
  have hl := lookup_of_mem hm.keys_nodup he
  constructor
  · rintro ⟨js, hjs, hj⟩
    rw [hl] at hjs
    cases hjs
    exact hj
  · exact fun hj => ⟨e.2, hl, hj⟩

theorem mem_of_step {i j : ℕ} (h : Step m i j) : ∃ js, (i, js) ∈ m.edges ∧ j ∈ js := by
  obtain ⟨js, hl, hj⟩ := h
  obtain ⟨l₁, l₂, he, -⟩ := List.lookup_eq_some_iff.mp hl
  exact ⟨js, he ▸ by simp, hj⟩

theorem step_lt (hm : m.WellFormed) {i j : ℕ} (h : Step m i j) :
    i < m.states.length ∧ j < m.states.length := by
  obtain ⟨js, he, hj⟩ := mem_of_step h
  exact ⟨hm.keys_lt i (List.mem_map_of_mem he), hm.targets_lt _ he j hj⟩

theorem anyIn_iff (hm : m.WellFormed) {e : ℕ × List ℕ} (he : e ∈ m.edges) {s : Finset ℕ} :
    anyIn s e.2 = true ↔ ∃ j, Step m e.1 j ∧ j ∈ s := by
  simp [anyIn, step_of_mem hm he]

theorem allIn_iff (hm : m.WellFormed) {e : ℕ × List ℕ} (he : e ∈ m.edges) {s : Finset ℕ} :
    allIn s e.2 = true ↔ (∃ j, Step m e.1 j) ∧ ∀ j, Step m e.1 j → j ∈ s := by
  have hne : e.2 ≠ [] ↔ ∃ j, j ∈ e.2 :=
    ⟨List.exists_mem_of_ne_nil e.2, fun ⟨j, hj⟩ => List.ne_nil_of_mem hj⟩
  simp only [allIn, step_of_mem hm he, Bool.and_eq_true, Bool.not_eq_true', List.isEmpty_eq_false_iff,
    hne, List.all_eq_true, decide_eq_true_eq]

theorem closeLoop_can (hm : m.WellFormed) {fuel : ℕ} (hf : m.edges.length < fuel)
    (p : ℕ → Prop) [DecidablePred p] (right : Finset ℕ) :
    ∃ t, closeLoop (fun s e => decide (p e.1) && anyIn s e.2) m.edges fuel right = some t ∧
      ∀ i, i ∈ t ↔ Can (Step m) p (· ∈ right) i := by
  obtain ⟨t, ht, hsub, hsound, hclosed⟩ := closeLoop_spec
    (fun s e => decide (p e.1) && anyIn s e.2) m.edges (P := Can (Step m) p (· ∈ right))
    (fun s hs e he hte => by
      obtain ⟨hp, hany⟩ := (Bool.and_eq_true_iff).mp hte
      obtain ⟨j, hj, hjs⟩ := (anyIn_iff hm he).mp hany
      exact Can.next (of_decide_eq_true hp) hj (hs j hjs))
    fuel right (lt_of_le_of_lt (unsettled_le_length right) hf) (fun i hi => Can.now hi)
  refine ⟨t, ht, fun i => ⟨hsound i, fun hc => ?_⟩⟩
  induction hc with
  | now hq => exact hsub hq
  | next hp hst _ ih =>
    obtain ⟨js, he, -⟩ := mem_of_step hst
    refine hclosed _ he ?_
    simp only [hp, decide_true, Bool.true_and]
    exact (anyIn_iff hm he).mpr ⟨_, hst, ih⟩

theorem closeLoop_must (hm : m.WellFormed) {fuel : ℕ} (hf : m.edges.length < fuel)
    (p : ℕ → Prop) [DecidablePred p] (right : Finset ℕ) :
    ∃ t, closeLoop (fun s e => decide (p e.1) && allIn s e.2) m.edges fuel right = some t ∧
      ∀ i, i ∈ t ↔ Must (Step m) p (· ∈ right) i := by
  obtain ⟨t, ht, hsub, hsound, hclosed⟩ := closeLoop_spec
    (fun s e => decide (p e.1) && allIn s e.2) m.edges (P := Must (Step m) p (· ∈ right))
    (fun s hs e he hte => by
      obtain ⟨hp, hall⟩ := (Bool.and_eq_true_iff).mp hte
      obtain ⟨hex, hin⟩ := (allIn_iff hm he).mp hall
      exact Must.next (of_decide_eq_true hp) hex (fun j hj => hs j (hin j hj)))
    fuel right (lt_of_le_of_lt (unsettled_le_length right) hf) (fun i hi => Must.now hi)
  refine ⟨t, ht, fun i => ⟨hsound i, fun hc => ?_⟩⟩
  induction hc with
  | now hq => exact hsub hq
  | next hp hex _ ih =>
    obtain ⟨j, hj⟩ := hex
    obtain ⟨js, he, -⟩ := mem_of_step hj
    refine hclosed _ he ?_
    simp only [hp, decide_true, Bool.true_and]
    exact (allIn_iff hm he).mpr ⟨⟨j, hj⟩, ih⟩

theorem satEF_spec (hm : m.WellFormed) {fuel : ℕ} (hf : m.edges.length < fuel)
    (child : Finset ℕ) :
    ∃ t, satEF fuel m child = some t ∧ ∀ i, i ∈ t ↔ EF (Step m) (· ∈ child) i := by
  obtain ⟨t, ht, hi⟩ := closeLoop_can hm hf (fun _ => True) child
  refine ⟨t, by simpa [satEF] using ht, fun i => ?_⟩
  rw [hi, EF_iff_EU, EU_iff_can]

theorem satAF_spec (hm : m.WellFormed) {fuel : ℕ} (hf : m.edges.length < fuel)
    (child : Finset ℕ) :
    ∃ t, satAF fuel m child = some t ∧ ∀ i, i ∈ t ↔ AF (Step m) (· ∈ child) i := by
  obtain ⟨t, ht, hi⟩ := closeLoop_must hm hf (fun _ => True) child
  have hloop : closeLoop (fun sat e => allIn sat e.2) m.edges fuel child = some t := by
    simpa using ht
  refine ⟨_, by rw [satAF, hloop]; rfl, fun i => ?_⟩
  rw [AF_iff_AU, AU_iff_must, ← hi]
  simp only [Finset.mem_union, Finset.mem_filter, Bool.and_eq_true, decide_eq_true_eq]
  constructor
  · rintro (h | ⟨-, -, h⟩)
    · exact h
    · exact (hi i).mpr (Must.now h)
  · exact Or.inl

theorem satUntil_spec (hm : m.WellFormed) {fuel : ℕ} (hf : m.edges.length < fuel)
    (left right : Finset ℕ) :
    (∃ t, satUntil fuel m .EU left right = some t ∧
      ∀ i, i ∈ t ↔ EU (Step m) (· ∈ left) (· ∈ right) i) ∧
    ∃ t, satUntil fuel m .AU left right = some t ∧
      ∀ i, i ∈ t ↔ AU (Step m) (· ∈ left) (· ∈ right) i := by
  constructor
  · obtain ⟨t, ht, hi⟩ := closeLoop_can hm hf (· ∈ left) right
    exact ⟨t, ht, fun i => by rw [hi, EU_iff_can]⟩
  · obtain ⟨t, ht, hi⟩ := closeLoop_must hm hf (· ∈ left) right
    exact ⟨t, ht, fun i => by rw [hi, AU_iff_must]⟩

theorem mem_satEX (hm : m.WellFormed) (child : Finset ℕ) (i : ℕ) :
    i ∈ satEX m child ↔ EX (Step m) (· ∈ child) i := by
  rw [EX_iff]
  simp only [satEX, List.mem_toFinset, List.mem_map, List.mem_filter]
  constructor
  · rintro ⟨e, ⟨he, hany⟩, rfl⟩
    exact (anyIn_iff hm he).mp hany
  · rintro ⟨j, hj, hc⟩
    obtain ⟨js, he, -⟩ := mem_of_step hj
    exact ⟨(i, js), ⟨he, (anyIn_iff hm he).mpr ⟨j, hj, hc⟩⟩, rfl⟩

def InRange (m : ExplorationResult V) (i j : ℕ) : Prop := i = j ∧ i < m.states.length

theorem inRange_bisim (hm : m.WellFormed) : Bisim (Step m) (Step m) (InRange m) where
  forth := by
    rintro a b a' ⟨rfl, -⟩ hs
    exact ⟨a', hs, rfl, (step_lt hm hs).2⟩
  back := by
    rintro a b b' ⟨rfl, -⟩ hs
    exact ⟨b', hs, rfl, (step_lt hm hs).2⟩

theorem can_lt (hm : m.WellFormed) {p q : ℕ → Prop} (hq : ∀ i, q i → i < m.states.length)
    {i : ℕ} (h : Can (Step m) p q i) : i < m.states.length := by
  cases h with
  | now hi => exact hq i hi
  | next _ hst _ => exact (step_lt hm hst).1

theorem must_lt (hm : m.WellFormed) {p q : ℕ → Prop} (hq : ∀ i, q i → i < m.states.length)
    {i : ℕ} (h : Must (Step m) p q i) : i < m.states.length := by
  cases h with
  | now hi => exact hq i hi
  | next _ hex _ =>
    obtain ⟨t, ht⟩ := hex
    exact (step_lt hm ht).1

def Denotes (m : ExplorationResult V) (enabled : State V → List Str) (e : Expr)
    (s : Finset ℕ) : Prop :=
  ∀ i, i ∈ s ↔ i < m.states.length ∧ Holds m enabled e i

variable {enabled : State V → List Str}

theorem Denotes.lt {e : Expr} {s : Finset ℕ} (h : Denotes m enabled e s) (i : ℕ) (hi : i ∈ s) :
    i < m.states.length :=
  ((h i).mp hi).1

theorem Denotes.agree {e : Expr} {s : Finset ℕ} (h : Denotes m enabled e s) :
    Agree (InRange m) (· ∈ s) (Holds m enabled e) := by
  rintro i j ⟨rfl, hi⟩
  exact (h i).trans (and_iff_right hi)

theorem Denotes.of_agree {e : Expr} {s : Finset ℕ} {p : ℕ → Prop} (hs : ∀ i, i ∈ s ↔ p i)
    (hlt : ∀ i, p i → i < m.states.length) (ha : Agree (InRange m) p (Holds m enabled e)) :
    Denotes m enabled e s := by
  intro i
  rw [hs]
  exact ⟨fun hp => ⟨hlt i hp, (ha i i ⟨rfl, hlt i hp⟩).mp hp⟩,
    fun hi => (ha i i ⟨rfl, hi.1⟩).mpr hi.2⟩

theorem mem_compl {i : ℕ} {s : Finset ℕ} :
    i ∈ allStates m \ s ↔ i < m.states.length ∧ i ∉ s := by
  rw [Finset.mem_sdiff, allStates, Finset.mem_range]

theorem Denotes.compl {e : Expr} {s : Finset ℕ} (h : Denotes m enabled e s) :
    Denotes m enabled (.not e) (allStates m \ s) := by
  intro i
  rw [mem_compl, h i, Holds]
  tauto

theorem Denotes.of_compl {e d : Expr} {s : Finset ℕ} (h : Denotes m enabled d s)
    (he : ∀ i, Holds m enabled e i ↔ ¬ Holds m enabled d i) :
    Denotes m enabled e (allStates m \ s) := by
  intro i
  rw [h.compl i, Holds, he]

theorem satEF_denotes (hm : m.WellFormed) {fuel : ℕ} (hf : m.edges.length < fuel) {c : Expr}
    {a : Finset ℕ} (hd : Denotes m enabled c a) :
    ∃ t, satEF fuel m a = some t ∧ Denotes m enabled (.ctl .EF c) t := by
  obtain ⟨t, ht, hmem⟩ := satEF_spec hm hf a
  refine ⟨t, ht, Denotes.of_agree hmem (fun i hi => ?_) ((inRange_bisim hm).EF_agree hd.agree)⟩
  rw [EF_iff_EU, EU_iff_can] at hi
  exact can_lt hm hd.lt hi

theorem satAF_denotes (hm : m.WellFormed) {fuel : ℕ} (hf : m.edges.length < fuel) {c : Expr}
    {a : Finset ℕ} (hd : Denotes m enabled c a) :
    ∃ t, satAF fuel m a = some t ∧ Denotes m enabled (.ctl .AF c) t := by
  obtain ⟨t, ht, hmem⟩ := satAF_spec hm hf a
  refine ⟨t, ht, Denotes.of_agree hmem (fun i hi => ?_) ((inRange_bisim hm).AF_agree hd.agree)⟩
  rw [AF_iff_AU, AU_iff_must] at hi
  exact must_lt hm hd.lt hi

theorem satUntil_denotes (hm : m.WellFormed) {fuel : ℕ} (hf : m.edges.length < fuel) {l r : Expr}
    {a b : Finset ℕ} (hda : Denotes m enabled l a) (hdb : Denotes m enabled r b) (op : UntilOp) :
    ∃ t, satUntil fuel m op a b = some t ∧ Denotes m enabled (.until op l r) t := by
  obtain ⟨⟨t, ht, hmem⟩, t', ht', hmem'⟩ := satUntil_spec hm hf a b
  have hZ := inRange_bisim hm
  cases op with
  | EU =>
    refine ⟨t, ht, Denotes.of_agree hmem (fun i hi => ?_) (hZ.EU_agree hda.agree hdb.agree)⟩
    rw [EU_iff_can] at hi
    exact can_lt hm hdb.lt hi
  | AU =>
    refine ⟨t', ht', Denotes.of_agree hmem' (fun i hi => ?_) (hZ.AU_agree hda.agree hdb.agree)⟩
    rw [AU_iff_must] at hi
    exact must_lt hm hdb.lt hi

theorem satEX_denotes (hm : m.WellFormed) {c : Expr} {a : Finset ℕ}
    (hd : Denotes m enabled c a) : Denotes m enabled (.ctl .EX c) (satEX m a) := by
  refine Denotes.of_agree (mem_satEX hm a) (fun i hi => ?_) ((inRange_bisim hm).EX_agree hd.agree)
  obtain ⟨j, hj, -⟩ := EX_iff.mp hi
  exact (step_lt hm hj).1

theorem sat_denotes (hm : m.WellFormed) {fuel : ℕ} (hf : m.edges.length < fuel) (e : Expr) :
    ∃ s, sat fuel m enabled e = some s ∧ Denotes m enabled e s := by
  induction e with
  | predicate n v =>
    refine ⟨_, rfl, fun i => ?_⟩
    simp only [Finset.mem_filter, allStates, Finset.mem_range, Holds]
    refine and_congr_right (fun hi => ?_)
    simp [List.getElem?_eq_getElem hi]
  | not c ih =>
    obtain ⟨s, hs, hd⟩ := ih
    exact ⟨_, by rw [sat, hs]; rfl, hd.compl⟩
  | and l r ihl ihr =>
    obtain ⟨a, ha, hda⟩ := ihl
    obtain ⟨b, hb, hdb⟩ := ihr
    refine ⟨a ∩ b, by simp [sat, ha, hb], fun i => ?_⟩
    rw [Finset.mem_inter, hda i, hdb i, Holds]
    tauto
  | or l r ihl ihr =>
    obtain ⟨a, ha, hda⟩ := ihl
    obtain ⟨b, hb, hdb⟩ := ihr
    refine ⟨a ∪ b, by simp [sat, ha, hb], fun i => ?_⟩
    rw [Finset.mem_union, hda i, hdb i, Holds]
    tauto
  | ctl op c ih =>
    obtain ⟨a, ha, hd⟩ := ih
    cases op with
    | EX => exact ⟨satEX m a, by simp [sat, ha], satEX_denotes hm hd⟩
    | EF =>
      obtain ⟨t, ht, hdt⟩ := satEF_denotes hm hf hd
      exact ⟨t, by simp [sat, ha, ht], hdt⟩
    | AF =>
      obtain ⟨t, ht, hdt⟩ := satAF_denotes hm hf hd
      exact ⟨t, by simp [sat, ha, ht], hdt⟩
    | EG =>
      obtain ⟨t, ht, hdt⟩ := satAF_denotes hm hf hd.compl
      exact ⟨allStates m \ t, by simp [sat, ha, ht], hdt.of_compl (fun i => EG_iff_not_AF)⟩
    | AG =>
      obtain ⟨t, ht, hdt⟩ := satEF_denotes hm hf hd.compl
      exact ⟨allStates m \ t, by simp [sat, ha, ht], hdt.of_compl (fun i => AG_iff_not_EF)⟩
  | «until» op l r ihl ihr =>
    obtain ⟨a, ha, hda⟩ := ihl
    obtain ⟨b, hb, hdb⟩ := ihr
    obtain ⟨t, ht, hdt⟩ := satUntil_denotes hm hf hda hdb op
    exact ⟨t, by simp [sat, ha, hb, ht], hdt⟩

theorem checkCtl_denotes (hm : m.WellFormed) (enabled : State V → List Str) (e : Expr) :
    Denotes m enabled e (checkCtl e m enabled) := by
  obtain ⟨s, hs, hd⟩ := sat_denotes hm (Nat.lt_succ_self _) e
  rw [checkCtl, hs]
  exact hd

theorem check_ctl_textbook (m : ExplorationResult V) (hm : m.WellFormed)
    (enabled : State V → List Str) (e : Expr) :
    (∀ i, i ∈ checkCtl e m enabled ↔ i < m.states.length ∧ Holds m enabled e i) ∧
    ∀ fuel, m.edges.length < fuel → sat fuel m enabled e = some (checkCtl e m enabled) := by
  refine ⟨checkCtl_denotes hm enabled e, fun fuel hf => ?_⟩
  obtain ⟨s, hs, hd⟩ := sat_denotes hm hf e
  rw [hs, Option.some.injEq]
  ext i
  rw [hd i, checkCtl_denotes hm enabled e i]

end model

def branchState (facts : List Str) : State Bool :=
  ⟨SortedMap.ofList (facts.map (fun f => (f, true))), [], [], []⟩

def branchModel : ExplorationResult Bool where
  states := [branchState [['p']], branchState [['p'], ['q']], branchState [['p']]]
  edges := [(0, [1, 2]), (2, [2])]
  predecessors := []
  deadlocks := []
  hashMode := .full
  maxDepth := 16

theorem branchModel_wellFormed : branchModel.WellFormed :=
  ⟨by decide, by decide, by decide⟩

theorem check_ctl_textbook_branch :
    Holds branchModel (fun _ => [])
      (.until .EU (.predicate "has".toList (some ['p'])) (.predicate "has".toList (some ['q']))) 0 ∧
    ¬ Holds branchModel (fun _ => [])
      (.until .AU (.predicate "has".toList (some ['p'])) (.predicate "has".toList (some ['q']))) 0 := by
  have heu := (check_ctl_textbook branchModel branchModel_wellFormed (fun _ => [])
    (.until .EU (.predicate "has".toList (some ['p'])) (.predicate "has".toList (some ['q'])))).1 0
  have hau := (check_ctl_textbook branchModel branchModel_wellFormed (fun _ => [])
    (.until .AU (.predicate "has".toList (some ['p'])) (.predicate "has".toList (some ['q'])))).1 0
  exact ⟨(heu.mp (by decide)).2, fun h => absurd (hau.mpr ⟨by decide, h⟩) (by decide)⟩

end TraceMind.Verify.Ctl
