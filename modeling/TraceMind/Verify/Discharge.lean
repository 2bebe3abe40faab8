import TraceMind.Verify.Compositional
import TraceMind.Verify.JointSpec
import TraceMind.Verify.RoundTrip

namespace TraceMind.Verify

open BoundedSearch Ctl

variable {V : Type}

section references

variable {ids : List Str}

theorem predicateComponent_mem {v c : Str} (h : predicateComponent v ids = some c) : c ∈ ids := by
  suffices hf : ∀ best : Option Str,
      ids.foldl (fun best cid => if refersTo v cid then longer best cid else best) best = some c →
      best = some c ∨ c ∈ ids by
    rcases hf none h with h | h
    · cases h
    · exact h
  clear h
  induction ids with
  | nil => exact fun _ h => Or.inl h
  | cons a ids ih =>
    intro best h
    rw [List.foldl_cons] at h
    rcases ih _ h with h | h
    · have hbest : best = some c ∨ a = c := by
        split_ifs at h
        · unfold longer at h
          split at h
          · exact Or.inr (Option.some.inj h)
          · split_ifs at h
            · exact Or.inr (Option.some.inj h)
            · exact Or.inl h
        · exact Or.inl h
      rcases hbest with hb | rfl
      · exact Or.inl hb
      · exact Or.inr List.mem_cons_self
    · exact Or.inr (List.mem_cons_of_mem _ h)

theorem contains_add {s : StrSet} {x k : Str} :
    (s.add x).contains k = true ↔ k = x ∨ s.contains k = true := by
  rw [StrSet.add, SortedMap.contains_insert]
  simp

theorem collectRefs_mono (e : Expr) {out : StrSet} {c : Str} (h : out.contains c = true) :
    (collectRefs ids e out).contains c = true := by
  induction e generalizing out with
  | predicate n v =>
    cases v with
    | none => exact h
    | some w =>
      rw [collectRefs]
      split
      · exact h
      · exact contains_add.mpr (Or.inr h)
  | not c ih => exact ih h
  | and l r ihl ihr => exact ihr (ihl h)
  | or l r ihl ihr => exact ihr (ihl h)
  | ctl op c ih => exact ih h
  | «until» op l r ihl ihr => exact ihr (ihl h)

theorem collectRefs_mem {e : Expr} {out : StrSet} {c : Str}
    (h : (collectRefs ids e out).contains c = true) : out.contains c = true ∨ c ∈ ids := by
  induction e generalizing out with
  | predicate n v =>
    cases v with
    | none => exact Or.inl h
    | some w =>
      rw [collectRefs] at h
      split at h
      · exact Or.inl h
      · rename_i cid hc
        rcases contains_add.mp h with rfl | h
        · exact Or.inr (predicateComponent_mem hc)
        · exact Or.inl h
  | not c ih => exact ih h
  | and l r ihl ihr => exact (ihr h).elim ihl Or.inr
  | or l r ihl ihr => exact (ihr h).elim ihl Or.inr
  | ctl op c ih => exact ih h
  | «until» op l r ihl ihr => exact (ihr h).elim ihl Or.inr

def RefsIn (ids : List Str) (s : StrSet) (_ : Str) (v : Option Str) : Prop :=
  ∀ w c, v = some w → predicateComponent w ids = some c → s.contains c = true

theorem collectRefs_all (ids : List Str) (e : Expr) (out : StrSet) :
    e.All (RefsIn ids (collectRefs ids e out)) := by
  have hlift {e : Expr} {out : StrSet} (h : e.All (RefsIn ids out)) (r : Expr) :
      e.All (RefsIn ids (collectRefs ids r out)) :=
    h.imp (fun _ _ hv w c hw hc => collectRefs_mono r (hv w c hw hc))
  induction e generalizing out with
  | predicate n v =>
    rintro w c rfl hc
    rw [collectRefs, hc]
    exact contains_add.mpr (Or.inl rfl)
  | not c ih => exact ih out
  | and l r ihl ihr => exact ⟨hlift (ihl out) r, ihr _⟩
  | or l r ihl ihr => exact ⟨hlift (ihl out) r, ihr _⟩
  | ctl op c ih => exact ih out
  | «until» op l r ihl ihr => exact ⟨hlift (ihl out) r, ihr _⟩

def OnlyRefs (ids : List Str) (cid : Str) (e : Expr) : Prop :=
  e.All (fun _ v => ∀ w c, v = some w → predicateComponent w ids = some c → c = cid)

theorem onlyRefs_of_keys {e : Expr} {cid : Str} (h : (referencedComponents e ids).keys = [cid]) :
    OnlyRefs ids cid e ∧ cid ∈ ids := by
  have hmem : (referencedComponents e ids).contains cid = true :=
    SortedMap.mem_keys_iff.mp (h ▸ List.mem_cons_self)
  refine ⟨(collectRefs_all ids e SortedMap.empty).imp (fun _ _ hv w c hw hc => ?_), ?_⟩
  · have hk := SortedMap.mem_keys_iff.mpr (hv w c hw hc)
    change c ∈ (referencedComponents e ids).keys at hk
    rw [h] at hk
    exact List.mem_singleton.mp hk
  · rcases collectRefs_mem hmem with hn | hn
    · cases hn
    · exact hn

end references

theorem all_noTerminal {e : Expr} (h : containsTerminal e = false) :
    e.All (fun n _ => lower n ≠ "terminal".toList) := by
  induction e with
  | predicate n v => exact of_decide_eq_false h
  | not c ih => exact ih h
  | and l r ihl ihr =>
    obtain ⟨hl, hr⟩ := Bool.or_eq_false_iff.mp h
    exact ⟨ihl hl, ihr hr⟩
  | or l r ihl ihr =>
    obtain ⟨hl, hr⟩ := Bool.or_eq_false_iff.mp h
    exact ⟨ihl hl, ihr hr⟩
  | ctl op c ih => exact ih h
  | «until» op l r ihl ihr =>
    obtain ⟨hl, hr⟩ := Bool.or_eq_false_iff.mp h
    exact ⟨ihl hl, ihr hr⟩

inductive Shape : Expr → Expr → CtlOp → Prop
  | ag {p : Expr} : Shape (.ctl .AG p) p .AG
  | ef {p : Expr} : Shape (.ctl .EF p) p .EF

structure Discharged (f : Str) (ids : List Str) (cls : Classification) (e p : Expr)
    (op : CtlOp) : Prop where
  shape : Shape e p op
  flat : hasCtlNodes p = false
  noTerminal : containsTerminal p = false
  components : cls.components = (referencedComponents e ids).keys
  decomposable : cls.propertyClass = .decomposable → op = .AG
  safetyGlobal : cls.propertyClass = .safetyGlobal → op = .AG

theorem classifyOther_class (f : Str) (e : Expr) (refs : List Str) :
    (classifyOther f e refs).propertyClass = .outOfClass ∧
      (classifyOther f e refs).compositional = false := by
  unfold classifyOther
  split_ifs <;> exact ⟨rfl, rfl⟩

theorem classifyAG_spec {f : Str} {p : Expr} {ids refs : List Str}
    (hc : hasCtlNodes p = false) (ht : containsTerminal p = false)
    (hr : refs = (referencedComponents (.ctl .AG p) ids).keys) :
    Discharged f ids (classifyAG f p ids refs) (.ctl .AG p) p .AG := by
  unfold classifyAG
  dsimp only
  split_ifs with h1 h2
  · exact ⟨.ag, hc, ht, hr, fun _ => rfl, nofun⟩
  · exact ⟨.ag, hc, ht, hr, nofun, nofun⟩
  · exact ⟨.ag, hc, ht, hr, nofun, fun _ => rfl⟩

theorem classifyEF_spec {f : Str} {p : Expr} {ids refs : List Str}
    (hc : hasCtlNodes p = false) (ht : containsTerminal p = false)
    (hr : refs = (referencedComponents (.ctl .EF p) ids).keys)
    (hcls : (classifyEF f p ids refs).propertyClass ≠ .outOfClass) :
    Discharged f ids (classifyEF f p ids refs) (.ctl .EF p) p .EF := by
  unfold classifyEF at hcls ⊢
  split_ifs at hcls ⊢ with h1
  · exact ⟨.ef, hc, ht, hr, nofun, nofun⟩
  · exact absurd rfl hcls

theorem classifyExpr_spec {f : Str} {e : Expr} {ids : List Str}
    (h : (classifyExpr f e ids).propertyClass ≠ .outOfClass) :
    ∃ p op, Discharged f ids (classifyExpr f e ids) e p op := by
  unfold classifyExpr at h ⊢
  dsimp only at h ⊢
  split_ifs at h ⊢ with ht
  · exact absurd rfl h
  · replace ht := Bool.eq_false_iff.mpr ht
    split at h
    · rename_i p
      split_ifs at h ⊢ with hc
      · exact absurd (classifyOther_class _ _ _).1 h
      · exact ⟨p, .AG, classifyAG_spec (Bool.eq_false_iff.mpr hc) ht rfl⟩
    · rename_i p
      split_ifs at h ⊢ with hc
      · exact absurd (classifyOther_class _ _ _).1 h
      · exact ⟨p, .EF, classifyEF_spec (Bool.eq_false_iff.mpr hc) ht rfl h⟩
    · exact absurd (classifyOther_class _ _ _).1 h

theorem classifyFormula_eq {f : Str} {ids : List Str} {cls : Classification}
    (h : classifyFormula f ids = .ok cls) :
    ∃ e, parseExpr f = .ok e ∧ cls = classifyExpr f e ids := by
  obtain ⟨e, he, hc⟩ := Fallible.bind_eq_ok.mp h
  cases hc
  exact ⟨e, he, rfl⟩

section truth

variable {ids : List Str} {y : List (State V)} {enabled enabled' : State V → List Str}

def noSteps (_ : State V) : List Str := []

theorem truth_noTerminal {e : Expr} (h : containsTerminal e = false) (s : State V) :
    truth enabled s e = truth enabled' s e := by
  refine truth_congr ((all_noTerminal h).imp (fun n v hn => ?_))
  unfold evalPredicate
  rw [if_neg hn, if_neg hn]

theorem all_and {P Q : Str → Option Str → Prop} {e : Expr} (hp : e.All P) (hq : e.All Q) :
    e.All (fun n v => P n v ∧ Q n v) := by
  induction e with
  | predicate n v => exact ⟨hp, hq⟩
  | not c ih => exact ih hp hq
  | and l r ihl ihr => exact ⟨ihl hp.1 hq.1, ihr hp.2 hq.2⟩
  | or l r ihl ihr => exact ⟨ihl hp.1 hq.1, ihr hp.2 hq.2⟩
  | ctl op c ih => exact ih hp hq
  | «until» op l r ihl ihr => exact ⟨ihl hp.1 hq.1, ihr hp.2 hq.2⟩

theorem truth_local (h : PrefixFree ids) (hy : y.length = ids.length) {i : ℕ} {cid : Str}
    {st : State V} (hc : ids[i]? = some cid) (hst : y[i]? = some st) {p : Expr}
    (ht : containsTerminal p = false) (ho : OnlyRefs ids cid p) :
    truth enabled (project y ids) p = truth enabled' (project [st] [cid]) p := by
  refine truth_congr ((all_and (all_noTerminal ht) ho).imp (fun n v hv => ?_))
  exact evalPredicate_local h hy (p := (cid, st)) (mem_zip_iff.mpr ⟨i, hc, hst⟩) hv.1 hv.2

theorem truth_splitConjuncts (s : State V) (p : Expr) :
    truth enabled s p = (splitConjuncts p).all (truth enabled s) := by
  induction p with
  | and l r ihl ihr => rw [splitConjuncts, List.all_append, ← ihl, ← ihr, truth]
  | predicate n v => simp [splitConjuncts]
  | not c => simp [splitConjuncts]
  | or l r => simp [splitConjuncts]
  | ctl op c => simp [splitConjuncts]
  | «until» op l r => simp [splitConjuncts]

theorem splitConjuncts_all {P : Str → Option Str → Prop} {p : Expr} :
    p.All P ↔ ∀ c ∈ splitConjuncts p, c.All P := by
  induction p with
  | and l r ihl ihr =>
    simp only [splitConjuncts, List.mem_append, Expr.All, ihl, ihr]
    constructor
    · rintro ⟨hl, hr⟩ c (hc | hc)
      · exact hl c hc
      · exact hr c hc
    · exact fun h => ⟨fun c hc => h c (Or.inl hc), fun c hc => h c (Or.inr hc)⟩
  | predicate n v => simp [splitConjuncts]
  | not c => simp [splitConjuncts]
  | or l r => simp [splitConjuncts]
  | ctl op c => simp [splitConjuncts]
  | «until» op l r => simp [splitConjuncts]

theorem splitConjuncts_false {q : Expr → Bool} (hq : ∀ l r, q (.and l r) = (q l || q r)) {p : Expr}
    (h : q p = false) : ∀ c ∈ splitConjuncts p, q c = false := by
  induction p with
  | and l r ihl ihr =>
    rw [hq, Bool.or_eq_false_iff] at h
    intro c hc
    rw [splitConjuncts, List.mem_append] at hc
    rcases hc with hc | hc
    · exact ihl h.1 c hc
    · exact ihr h.2 c hc
  | predicate n v => simpa [splitConjuncts] using h
  | not c => simpa [splitConjuncts] using h
  | or l r => simpa [splitConjuncts] using h
  | ctl op c => simpa [splitConjuncts] using h
  | «until» op l r => simpa [splitConjuncts] using h

end truth

section semantics

theorem fromComponents_eq {components : List (ComponentAdapter V)} {ids : List Str}
    {a : JointAdapter V} (h : JointAdapter.fromComponents components (some ids) = .ok a) :
    a = ⟨components, ids⟩ ∧ components.length = ids.length ∧ [] ∉ ids ∧ ids.Nodup := by
  unfold JointAdapter.fromComponents at h
  split_ifs at h
  obtain ⟨u, hu, rfl⟩ := Fallible.map_eq_ok.mp h
  unfold JointAdapter.checkIds at hu
  split_ifs at hu with h1 h2 h3
  exact ⟨rfl, (not_not.mp h1).symm, h3, h2⟩

def Sem (a : JointAdapter V) (bound : ℕ) (y0 : List (State V)) (p : Expr) : CtlOp → Prop
  | .AG => ∀ k y, Walk (Next a.moves) y0 k y → k ≤ bound →
      truth noSteps (project y a.componentIds) p = true
  | .EF => ∃ k y, Walk (Next a.moves) y0 k y ∧ k ≤ bound ∧
      truth noSteps (project y a.componentIds) p = true
  | _ => False

theorem sem_AG_split (a : JointAdapter V) (bound : ℕ) (y0 : List (State V)) (p : Expr) :
    Sem a bound y0 p .AG ↔ ∀ c ∈ splitConjuncts p, Sem a bound y0 c .AG := by
  simp only [Sem, truth_splitConjuncts (p := p), List.all_eq_true]
  exact ⟨fun h c hc k y hw hk => h k y hw hk c hc, fun h k y hw hk c hc => h c hc k y hw hk⟩

variable [DecidableEq V] {a : JointAdapter V} {maxDepth : ℤ} {mode : HashMode}
  {y0 : List (State V)}

theorem checkCtl_sem (h : a.Fit) (hi : JointAdapter.initialStates a.components = .ok y0)
    (hparts : a.PartsDetermined mode y0) {x : Memo V × Search (State V) Str (Hash V)}
    {nodes : List (List (State V) × ℕ)} (hex : a.Product maxDepth mode y0 x nodes) {e p : Expr}
    {op : CtlOp} (hs : Shape e p op) (hc : hasCtlNodes p = false)
    (ht : containsTerminal p = false) (hr : Readable mode p) (enabled : State V → List Str) :
    0 ∈ checkCtl e (Explorer.result maxDepth mode x.2) enabled ↔
      Sem a maxDepth.toNat y0 p op := by
  have hdet := h.determined (h.root_length hi) hparts
  have htr (s : State V) : truth enabled s p = truth noSteps s p := truth_noTerminal ht s
  cases hs with
  | ag =>
    rw [Explorer.mem_AG_iff hex hdet hc hr]
    simp only [htr, Sem]
  | ef =>
    rw [Explorer.mem_EF_iff hex hdet hc hr]
    simp only [htr, Sem]

variable {f : Str} {e : Expr}

theorem verifyOne_run (h : a.Fit)
    (hfrom : JointAdapter.fromComponents a.components (some a.componentIds) = .ok a)
    {m : ExplorationResult V} {memo : Memo V}
    (hrun : Explorer.run a.adapter [] maxDepth mode = .ok (m, memo)) (he : parseExpr f = .ok e) :
    ∃ b, verifyOne a.components a.componentIds maxDepth mode f = .ok (b, m.states.length) ∧
      (b = true ↔ 0 ∈ checkCtl e m (a.enabledSteps memo)) := by
  obtain ⟨y0, x, nodes, -, rfl, rfl, hex⟩ := h.run_spec hrun
  obtain ⟨v, hv, hsat⟩ := JointAdapter.verdictOf_ok hex he true
  have hvs : [f].mapM (verdictOf a x.1 (Explorer.result maxDepth mode x.2) true) = .ok [v] :=
    Fallible.mapM_eq_ok.mpr (.cons hv .nil)
  refine ⟨v.satisfied, Fallible.bind_eq_ok.mpr ⟨_, Fallible.bind_eq_ok.mpr ⟨a, hfrom,
    Fallible.bind_eq_ok.mpr ⟨_, hrun, Fallible.bind_eq_ok.mpr ⟨_, hvs, rfl⟩⟩⟩, rfl⟩, hsat⟩

theorem run_of_verifyOne {components : List (ComponentAdapter V)} {ids : List Str} {b : Bool}
    {n : ℕ} (hv : verifyOne components ids maxDepth mode f = .ok (b, n)) :
    ∃ a m memo, JointAdapter.fromComponents components (some ids) = .ok a ∧
      Explorer.run a.adapter [] maxDepth mode = .ok (m, memo) := by
  obtain ⟨rep, hrep, -⟩ := Fallible.bind_eq_ok.mp hv
  obtain ⟨a, ha, hrest⟩ := Fallible.bind_eq_ok.mp hrep
  obtain ⟨⟨m, memo⟩, hrun, -⟩ := Fallible.bind_eq_ok.mp hrest
  exact ⟨a, m, memo, ha, hrun⟩

theorem verifyOne_of_expands (h : a.Fit) (hparts : a.PartsDetermined mode y0)
    (hfrom : JointAdapter.fromComponents a.components (some a.componentIds) = .ok a)
    (hexp : a.Expands maxDepth y0) (he : parseExpr f = .ok e) {p : Expr} {op : CtlOp}
    (hs : Shape e p op) (hc : hasCtlNodes p = false) (ht : containsTerminal p = false)
    (hr : Readable mode p) :
    ∃ b n, verifyOne a.components a.componentIds maxDepth mode f = .ok (b, n) ∧
      (b = true ↔ Sem a maxDepth.toNat y0 p op) := by
  obtain ⟨m, memo, hrun⟩ := h.run_ok hexp mode
  obtain ⟨b, hb, hiff⟩ := verifyOne_run h hfrom hrun he
  obtain ⟨y0', x, nodes, hi, rfl, rfl, hex⟩ := h.run_spec hrun
  have hy : y0' = y0 := by
    have := hi.symm.trans hexp.init
    cases this
    rfl
  subst hy
  exact ⟨b, _, hb, hiff.trans (checkCtl_sem h hi hparts hex hs hc ht hr _)⟩

end semantics

section localization

variable {a : JointAdapter V} {maxDepth : ℤ} {y0 : List (State V)} {i : ℕ}
  {c : ComponentAdapter V} {cid : Str} {root : State V}

def alone (cid : Str) (c : ComponentAdapter V) : JointAdapter V := ⟨[c], [cid]⟩

theorem alone_fit (cid : Str) (c : ComponentAdapter V) : (alone cid c).Fit :=
  ⟨prefixFree_singleton cid, rfl⟩

theorem singleton_of_walk {k : ℕ} {y : List (State V)}
    (hw : Walk (Next (alone cid c).moves) [root] k y) :
    ∃ st k', y = [st] ∧ k' ≤ k ∧ Walk (Next c.successors) root k' st := by
  have hlen := (alone_fit cid c).reach_length hw.reach
  obtain ⟨st, rfl⟩ := List.length_eq_one_iff.mp hlen
  obtain ⟨k', hk, hw'⟩ := (alone_fit cid c).walk_project hw (i := 0) rfl rfl rfl
  exact ⟨st, k', rfl, hk, hw'⟩

theorem alone_expands (cid : Str) (h : a.Fit) (hexp : a.Expands maxDepth y0)
    (hc : a.components[i]? = some c) (hroot : y0[i]? = some root) :
    (alone cid c).Expands maxDepth [root] := by
  refine ⟨JointAdapter.initialStates_eq_ok.mpr (.cons ?_ .nil), fun k y hw hk => ?_⟩
  · have hf := JointAdapter.initialStates_eq_ok.mp hexp.init
    obtain ⟨hi, hc'⟩ := List.getElem?_eq_some_iff.mp hc
    obtain ⟨hi', hr'⟩ := List.getElem?_eq_some_iff.mp hroot
    rw [← hc', ← hr']
    exact hf.get hi hi'
  · obtain ⟨st, k', rfl, hk', hw'⟩ := singleton_of_walk hw
    have hok := h.walk_set hexp.ok hc hroot hw' (by omega)
    refine (alone_fit cid c).moves_ok_iff.mpr (fun j d s hd hs => ?_)
    cases j with
    | zero =>
      cases hd
      cases hs
      exact hok
    | succ j => simp [alone] at hd

theorem sem_alone_iff (h : a.Fit) (hexp : a.Expands maxDepth y0)
    (hc : a.components[i]? = some c) (hid : a.componentIds[i]? = some cid)
    (hroot : y0[i]? = some root) {p : Expr} (ht : containsTerminal p = false)
    (ho : OnlyRefs a.componentIds cid p) (op : CtlOp) :
    Sem (alone cid c) maxDepth.toNat [root] p op ↔ Sem a maxDepth.toNat y0 p op := by
  have hlen : ∀ {k y}, Walk (Next a.moves) y0 k y → y.length = a.componentIds.length :=
    fun hw => (h.reach_length hw.reach).trans (h.root_length hexp.init)
  have hlt : i < y0.length := (List.getElem?_eq_some_iff.mp hroot).1
  have halone := alone_expands cid h hexp hc hroot
  -- A walk on either side has a counterpart that shows the same facts of the component.
  have hup {k : ℕ} {y : List (State V)} (hw : Walk (Next (alone cid c).moves) [root] k y)
      (hk : k ≤ maxDepth.toNat) : ∃ k' z, Walk (Next a.moves) y0 k' z ∧ k' ≤ maxDepth.toNat ∧
        truth noSteps (project z a.componentIds) p = truth noSteps (project y [cid]) p := by
    obtain ⟨st, k', rfl, hk', hw'⟩ := singleton_of_walk hw
    have hz := h.walk_lift hexp.ok hc hroot hw' (by omega)
    exact ⟨k', _, hz, by omega, truth_local h.prefixFree (hlen hz) hid
      (List.getElem?_set_self hlt) ht ho⟩
  have hdown {k : ℕ} {y : List (State V)} (hw : Walk (Next a.moves) y0 k y)
      (hk : k ≤ maxDepth.toNat) : ∃ k' z, Walk (Next (alone cid c).moves) [root] k' z ∧
        k' ≤ maxDepth.toNat ∧
        truth noSteps (project z [cid]) p = truth noSteps (project y a.componentIds) p := by
    have hi : i < y.length := by rw [h.reach_length hw.reach]; exact hlt
    obtain ⟨k', hk', hw'⟩ := h.walk_project hw hc hroot (List.getElem?_eq_getElem hi)
    have hz := (alone_fit cid c).walk_lift halone.ok (i := 0) rfl rfl hw' (by omega)
    exact ⟨k', _, hz, by omega, (truth_local h.prefixFree (hlen hw) hid
      (List.getElem?_eq_getElem hi) ht ho).symm⟩
  cases op with
  | AG =>
    constructor
    · intro hall k y hw hk
      obtain ⟨k', z, hz, hk', heq⟩ := hdown hw hk
      exact heq ▸ hall k' z hz hk'
    · intro hall k y hw hk
      obtain ⟨k', z, hz, hk', heq⟩ := hup hw hk
      exact heq ▸ hall k' z hz hk'
  | EF =>
    constructor
    · rintro ⟨k, y, hw, hk, hp⟩
      obtain ⟨k', z, hz, hk', heq⟩ := hup hw hk
      exact ⟨k', z, hz, hk', heq.trans hp⟩
    · rintro ⟨k, y, hw, hk, hp⟩
      obtain ⟨k', z, hz, hk', heq⟩ := hdown hw hk
      exact ⟨k', z, hz, hk', heq.trans hp⟩
  | EX => exact Iff.rfl
  | EG => exact Iff.rfl
  | AF => exact Iff.rfl

end localization

section context

variable {ctx : Context V} {components : List (ComponentAdapter V)} {y0 : List (State V)}

structure Context.Star (ctx : Context V) (components : List (ComponentAdapter V)) : Prop where
  concrete : ctx.concrete = ctx.allIds.zip components
  length : components.length = ctx.allIds.length

def Context.product (ctx : Context V) (components : List (ComponentAdapter V)) : JointAdapter V :=
  ⟨components, ctx.allIds⟩

theorem Context.Star.fit (h : ctx.Star components) (hpf : PrefixFree ctx.allIds) :
    (ctx.product components).Fit :=
  ⟨hpf, h.length⟩

theorem Context.Star.concreteGet (h : ctx.Star components) (hnd : ctx.allIds.Nodup) {i : ℕ}
    {cid : Str} {c : ComponentAdapter V} (hid : ctx.allIds[i]? = some cid) (hc : components[i]? = some c) :
    concreteGet ctx.concrete cid = .ok c := by
  have hnd' : (ctx.concrete.reverse.map Prod.fst).Nodup := by
    rw [List.map_reverse, List.nodup_reverse, h.concrete,
      List.map_fst_zip (le_of_eq h.length.symm)]
    exact hnd
  have hmem : (cid, c) ∈ ctx.concrete.reverse := by
    rw [List.mem_reverse, h.concrete]
    exact mem_zip_iff.mpr ⟨i, hid, hc⟩
  rw [Verify.concreteGet, lookup_of_mem hnd' hmem]

structure Context.Settled (ctx : Context V) (components : List (ComponentAdapter V))
    (y0 : List (State V)) : Prop where
  star : ctx.Star components
  prefixFree : PrefixFree ctx.allIds
  built : JointAdapter.fromComponents components (some ctx.allIds) = .ok (ctx.product components)
  expands : (ctx.product components).Expands ctx.maxDepth y0
  parts : (ctx.product components).PartsDetermined ctx.mode y0

theorem Context.Settled.fit (h : ctx.Settled components y0) : (ctx.product components).Fit :=
  h.star.fit h.prefixFree

theorem Context.Settled.locate (h : ctx.Settled components y0) {cid : Str}
    (hcid : cid ∈ ctx.allIds) : ∃ (i : ℕ) (c : ComponentAdapter V) (root : State V),
      ctx.allIds[i]? = some cid ∧ components[i]? = some c ∧ y0[i]? = some root ∧
      concreteGet ctx.concrete cid = .ok c ∧
      JointAdapter.fromComponents [c] (some [cid]) = .ok (alone cid c) ∧
      (alone cid c).PartsDetermined ctx.mode [root] ∧
      (alone cid c).Expands ctx.maxDepth [root] := by
  obtain ⟨i, hi, hget⟩ := List.getElem_of_mem hcid
  have hid : ctx.allIds[i]? = some cid := by rw [List.getElem?_eq_getElem hi, hget]
  have hci : i < components.length := h.star.length ▸ hi
  have hcomp : components[i]? = some components[i] := List.getElem?_eq_getElem hci
  have hlt : i < y0.length := by
    rw [h.fit.root_length h.expands.init]
    exact hi
  have hroot : y0[i]? = some y0[i] := List.getElem?_eq_getElem hlt
  have hne : cid ≠ [] := fun hnil => (fromComponents_eq h.built).2.2.1 (hnil ▸ hcid)
  refine ⟨i, _, _, hid, hcomp, hroot, h.star.concreteGet h.prefixFree.nodup hid hcomp, ?_, ?_,
    alone_expands cid h.fit h.expands hcomp hroot⟩
  · simp [JointAdapter.fromComponents, JointAdapter.checkIds, Ne.symm hne, Except.map, alone]
  · intro j c root hc hrt
    cases j with
    | zero =>
      cases hc
      cases hrt
      exact h.parts i _ _ hcomp hroot
    | succ j => simp [alone] at hc

variable [DecidableEq V]

theorem Context.Star.monoVerify_eq (h : ctx.Star components) (hnd : ctx.allIds.Nodup) (f : Str) :
    ctx.monoVerify f = verifyOne components ctx.allIds ctx.maxDepth ctx.mode f := by
  have hall : ctx.allIds.mapM (Verify.concreteGet ctx.concrete) = .ok components := by
    rw [Fallible.mapM_eq_ok, List.forall₂_iff_get]
    refine ⟨h.length.symm, fun i hi hi' => ?_⟩
    exact h.concreteGet hnd (List.getElem?_eq_getElem hi) (List.getElem?_eq_getElem hi')
  rw [Context.monoVerify, hall]
  rfl

theorem parse_of_verifyOne {ids : List Str} {maxDepth : ℤ} {mode : HashMode} {f : Str} {b : Bool}
    {n : ℕ} (h : verifyOne components ids maxDepth mode f = .ok (b, n)) :
    ∃ e, parseExpr f = .ok e := by
  obtain ⟨rep, hrep, -⟩ := Fallible.bind_eq_ok.mp h
  obtain ⟨a, -, hrest⟩ := Fallible.bind_eq_ok.mp hrep
  obtain ⟨⟨m, memo⟩, -, hrest⟩ := Fallible.bind_eq_ok.mp hrest
  obtain ⟨vs, hvs, -⟩ := Fallible.bind_eq_ok.mp hrest
  cases Fallible.mapM_eq_ok.mp hvs with
  | cons hv _ => exact JointAdapter.parse_of_verdictOf hv

theorem Context.Settled.of_run (hstar : ctx.Star components) (hpf : PrefixFree ctx.allIds)
    (hparts : ∀ y0, JointAdapter.initialStates components = .ok y0 →
      (ctx.product components).PartsDetermined ctx.mode y0) {a : JointAdapter V}
    {m : ExplorationResult V} {memo : Memo V}
    (hfrom : JointAdapter.fromComponents components (some ctx.allIds) = .ok a)
    (hrun : Explorer.run a.adapter [] ctx.maxDepth ctx.mode = .ok (m, memo)) :
    ∃ y0, ctx.Settled components y0 := by
  obtain ⟨rfl, -⟩ := fromComponents_eq hfrom
  have hfit := hstar.fit hpf
  obtain ⟨y0, x, nodes, hi, -, -, hex⟩ := hfit.run_spec hrun
  exact ⟨y0, hstar, hpf, hfrom, hfit.expands hi (hparts y0 hi) hex, hparts y0 hi⟩

variable {f : Str} {e p : Expr} {op : CtlOp}

theorem Context.Settled.mono (h : ctx.Settled components y0) (he : parseExpr f = .ok e)
    (hs : Shape e p op) (hc : hasCtlNodes p = false) (ht : containsTerminal p = false)
    (hr : Readable ctx.mode p) :
    ∃ b n, ctx.monoVerify f = .ok (b, n) ∧
      (b = true ↔ Sem (ctx.product components) ctx.maxDepth.toNat y0 p op) := by
  rw [h.star.monoVerify_eq h.prefixFree.nodup]
  exact verifyOne_of_expands h.fit h.parts h.built h.expands he hs hc ht hr

theorem Context.Settled.exactLocal_ok (h : ctx.Settled components y0) (he : parseExpr f = .ok e)
    {cid : Str} (hcid : cid ∈ ctx.allIds) : ∃ b, ctx.exactLocal f cid = .ok b := by
  obtain ⟨i, c, root, -, -, -, hget, hfrom, -, hexp⟩ := h.locate hcid
  obtain ⟨m, memo, hrun⟩ := (alone_fit cid c).run_ok hexp ctx.mode
  obtain ⟨b, hb, -⟩ := verifyOne_run (alone_fit cid c) hfrom hrun he
  exact ⟨b, Fallible.bind_eq_ok.mpr ⟨c, hget, Fallible.map_eq_ok.mpr ⟨_, hb, rfl⟩⟩⟩

theorem Context.Settled.exactLocal (h : ctx.Settled components y0) (he : parseExpr f = .ok e)
    (hs : Shape e p op) (hc : hasCtlNodes p = false) (ht : containsTerminal p = false)
    (hr : Readable ctx.mode p) {cid : Str} (hcid : cid ∈ ctx.allIds)
    (ho : OnlyRefs ctx.allIds cid p) :
    ∃ b, ctx.exactLocal f cid = .ok b ∧
      (b = true ↔ Sem (ctx.product components) ctx.maxDepth.toNat y0 p op) := by
  obtain ⟨i, c, root, hid, hcomp, hroot, hget, hfrom, hparts, hexp⟩ := h.locate hcid
  obtain ⟨b, n, hb, hiff⟩ :=
    verifyOne_of_expands (alone_fit cid c) hparts hfrom hexp he hs hc ht hr
  refine ⟨b, Fallible.bind_eq_ok.mpr ⟨c, hget, Fallible.map_eq_ok.mpr ⟨_, hb, rfl⟩⟩,
    hiff.trans ?_⟩
  exact sem_alone_iff h.fit h.expands hcomp hid hroot ht ho op

theorem parse_of_conjunctVerify {conj : Expr} {r : Bool × Option ℕ}
    (h : ctx.conjunctVerify conj = .ok r) :
    ∃ e, parseExpr (Context.conjunctText conj) = .ok e := by
  unfold Context.conjunctVerify at h
  split at h
  · obtain ⟨b, hb, -⟩ := Fallible.map_eq_ok.mp h
    obtain ⟨c, -, hc⟩ := Fallible.bind_eq_ok.mp hb
    obtain ⟨q, hq, -⟩ := Fallible.map_eq_ok.mp hc
    exact parse_of_verifyOne hq
  · obtain ⟨q, hq, -⟩ := Fallible.map_eq_ok.mp h
    obtain ⟨cs, -, hc⟩ := Fallible.bind_eq_ok.mp hq
    exact parse_of_verifyOne hc

theorem Context.Settled.conjunct (h : ctx.Settled components y0) {conj : Expr}
    (hc : hasCtlNodes conj = false) (ht : containsTerminal conj = false)
    (hw : conj.All Reparsed) (hn : conj.All (fun _ v => NoParen v))
    (hr : Readable ctx.mode conj) :
    ∃ r, ctx.conjunctVerify conj = .ok r ∧
      (r.1 = true ↔ Sem (ctx.product components) ctx.maxDepth.toNat y0 conj .AG) := by
  have he : parseExpr (Context.conjunctText conj) = .ok (.ctl .AG conj) :=
    (parseExpr_unparse (e := .ctl .AG conj) hw).1 hn
  unfold Context.conjunctVerify
  split
  · rename_i cid hk
    obtain ⟨ho, hcid⟩ := onlyRefs_of_keys hk
    obtain ⟨b, hb, hiff⟩ := h.exactLocal he .ag hc ht hr hcid ho
    exact ⟨(b, none), Fallible.map_eq_ok.mpr ⟨b, hb, rfl⟩, hiff⟩
  · obtain ⟨b, n, hb, hiff⟩ := h.mono he .ag hc ht hr
    exact ⟨(b, some n), Fallible.map_eq_ok.mpr ⟨(b, n), hb, rfl⟩, hiff⟩

theorem forall₂_all {α β : Type} {R : α → β → Prop} {q : α → Prop} {g : β → Bool} {xs : List α}
    {ys : List β} (h : List.Forall₂ R xs ys) (hq : ∀ x y, R x y → (g y = true ↔ q x)) :
    ys.all g = true ↔ ∀ x ∈ xs, q x := by
  induction h with
  | nil => simp
  | cons hxy _ ih =>
    rw [List.all_cons, Bool.and_eq_true, ih, hq _ _ hxy]
    simp

theorem readable_conjuncts {mode : HashMode} (hr : Readable mode p) :
    ∀ c ∈ splitConjuncts p, Readable mode c := by
  intro c hc
  rcases hr with hr | hr
  · exact Or.inl hr
  · exact Or.inr (splitConjuncts_all.mp hr c hc)

theorem Context.Settled.decomposed (h : ctx.Settled components y0)
    (he : parseExpr f = .ok (.ctl .AG p)) (hc : hasCtlNodes p = false)
    (ht : containsTerminal p = false) (hr : Readable ctx.mode p) :
    (p.All (fun _ v => NoParen v) → ∃ b n, ctx.decomposed f = .ok (b, n) ∧
      (b = true ↔ Sem (ctx.product components) ctx.maxDepth.toNat y0 p .AG)) ∧
    (¬ p.All (fun _ v => NoParen v) → ∀ r, ctx.decomposed f ≠ .ok r) := by
  have hflat := splitConjuncts_false (q := hasCtlNodes) (fun _ _ => rfl) hc
  have hterm := splitConjuncts_false (q := containsTerminal) (fun _ _ => rfl) ht
  have himg : p.All Reparsed := show (Expr.ctl .AG p).All Reparsed from parseExpr_reparsed he
  have hw := splitConjuncts_all.mp himg
  constructor
  · intro hn
    have hspec (c : Expr) (hcm : c ∈ splitConjuncts p) := h.conjunct (hflat c hcm) (hterm c hcm)
      (hw c hcm) (splitConjuncts_all.mp hn c hcm) (readable_conjuncts hr c hcm)
    have hres : ∃ results, List.Forall₂ (fun c r => ctx.conjunctVerify c = .ok r ∧
        (r.1 = true ↔ Sem (ctx.product components) ctx.maxDepth.toNat y0 c .AG))
        (splitConjuncts p) results := by
      generalize splitConjuncts p = cs at hspec
      induction cs with
      | nil => exact ⟨[], .nil⟩
      | cons c cs ih =>
        obtain ⟨r, hr⟩ := hspec c List.mem_cons_self
        obtain ⟨rs, hrs⟩ := ih (fun d hd => hspec d (List.mem_cons_of_mem _ hd))
        exact ⟨r :: rs, .cons hr hrs⟩
    obtain ⟨results, hf⟩ := hres
    refine ⟨_, _, Fallible.bind_eq_ok.mpr ⟨_, he, Fallible.bind_eq_ok.mpr ⟨results,
      Fallible.mapM_eq_ok.mpr (hf.imp (fun _ _ hcr => hcr.1)), rfl⟩⟩, ?_⟩
    rw [forall₂_all hf (fun _ _ hcr => hcr.2), sem_AG_split]
  · intro hn r hdec
    rw [splitConjuncts_all] at hn
    push Not at hn
    obtain ⟨c, hcm, hbad⟩ := hn
    obtain ⟨e', he', hrest⟩ := Fallible.bind_eq_ok.mp hdec
    rw [he] at he'
    cases he'
    obtain ⟨results, hres, -⟩ := Fallible.bind_eq_ok.mp hrest
    have hf := Fallible.mapM_eq_ok.mp hres
    obtain ⟨i, hi, rfl⟩ := List.getElem_of_mem hcm
    obtain ⟨e', hp⟩ := parse_of_conjunctVerify (hf.get hi (hf.length_eq ▸ hi))
    have hall : ((splitConjuncts p)[i]).All Reparsed := hw _ hcm
    obtain ⟨err, hperr⟩ := (parseExpr_unparse (e := .ctl .AG _) hall).2 hbad
    have := hp.symm.trans hperr
    cases this

variable {cls : Classification}

theorem Context.Settled.dischargeAs_single (h : ctx.Settled components y0)
    (he : parseExpr f = .ok e) (hd : Discharged f ctx.allIds cls e p op)
    (hr : Readable ctx.mode p) (hone : cls.propertyClass = .singleComponent)
    (hlen : cls.components.length = 1) :
    ∃ d, ctx.dischargeAs f cls = .ok d ∧ (d.verdict.satisfied = true ↔
      Sem (ctx.product components) ctx.maxDepth.toNat y0 p op) := by
  obtain ⟨cid, hcid⟩ := List.length_eq_one_iff.mp hlen
  have hkeys : (referencedComponents p ctx.allIds).keys = [cid] := by
    have := hd.components.symm.trans hcid
    obtain ⟨⟩ | ⟨⟩ := hd.shape <;> exact this
  obtain ⟨ho, hmem⟩ := onlyRefs_of_keys hkeys
  obtain ⟨b, hb, hiff⟩ := h.exactLocal he hd.shape hd.flat hd.noTerminal hr hmem ho
  refine ⟨⟨⟨f, b, .singleComponent, .compositionalLocal⟩, [], none⟩, ?_, hiff⟩
  unfold Context.dischargeAs
  rw [hone, hcid]
  exact Fallible.map_eq_ok.mpr ⟨b, hb, rfl⟩

theorem Context.Settled.dischargeAs_decomposable (h : ctx.Settled components y0)
    (he : parseExpr f = .ok e) (hd : Discharged f ctx.allIds cls e p op)
    (hr : Readable ctx.mode p) (hdec : cls.propertyClass = .decomposable) :
    (e.All (fun _ v => NoParen v) → ∃ d, ctx.dischargeAs f cls = .ok d ∧
      (d.verdict.satisfied = true ↔
        Sem (ctx.product components) ctx.maxDepth.toNat y0 p op)) ∧
    (¬ e.All (fun _ v => NoParen v) → ∀ d, ctx.dischargeAs f cls ≠ .ok d) := by
  obtain rfl := hd.decomposable hdec
  obtain ⟨⟩ := hd.shape
  obtain ⟨hgood, hbad⟩ := h.decomposed he hd.flat hd.noTerminal hr
  unfold Context.dischargeAs
  rw [hdec]
  constructor
  · intro hno
    obtain ⟨b, m, hb, hiff⟩ := hgood hno
    exact ⟨_, Fallible.map_eq_ok.mpr ⟨(b, m), hb, rfl⟩, hiff⟩
  · intro hno d hd'
    obtain ⟨r, hr', -⟩ := Fallible.map_eq_ok.mp hd'
    exact hbad hno r hr'

end context

section claim

variable [DecidableEq V]

theorem local_discharge_iff (ctx : Context V) (components : List (ComponentAdapter V))
    (hstar : ctx.Star components) (hids : PrefixFree ctx.allIds) (hmode : ctx.mode = .full)
    (f : Str) (e : Expr)
    (cls : Classification) (he : parseExpr f = .ok e)
    (hcls : classifyFormula f ctx.allIds = .ok cls)
    (hclass : cls.propertyClass = .decomposable ∨
      cls.propertyClass = .singleComponent ∧ cls.components.length = 1)
    (b : Bool) (n : ℕ) (hprod : ctx.monoVerify f = .ok (b, n)) :
    (ctx.dischargeAs f cls).map (fun d => d.verdict.satisfied) = .ok b ↔
      cls.propertyClass = .singleComponent ∨ e.All (fun _ v => NoParen v) := by
  have hparts : ∀ y0, (ctx.product components).PartsDetermined ctx.mode y0 :=
    fun y0 => hmode ▸ JointAdapter.partsDetermined_full
  obtain ⟨a, m, memo, hfrom, hrun⟩ :=
    run_of_verifyOne ((hstar.monoVerify_eq hids.nodup f).symm.trans hprod)
  obtain ⟨y0, hset⟩ := Context.Settled.of_run hstar hids (fun y0 _ => hparts y0) hfrom hrun
  obtain ⟨e', he', rfl⟩ := classifyFormula_eq hcls
  cases he.symm.trans he'
  have hin : (classifyExpr f e ctx.allIds).propertyClass ≠ .outOfClass := by
    rcases hclass with h | ⟨h, -⟩ <;> rw [h] <;> decide
  obtain ⟨p, op, hd⟩ := classifyExpr_spec hin
  have hread : Readable ctx.mode p := Or.inl hmode
  obtain ⟨b', n', hb', hsem⟩ := hset.mono he hd.shape hd.flat hd.noTerminal hread
  cases hprod.symm.trans hb'
  have hagree {d : Discharge} (hiff : d.verdict.satisfied = true ↔
      Sem (ctx.product components) ctx.maxDepth.toNat y0 p op) : d.verdict.satisfied = b :=
    Bool.eq_iff_iff.mpr (hiff.trans hsem.symm)
  rcases hclass with hdec | ⟨hone, hlen⟩
  · obtain ⟨hgood, hbad⟩ := hset.dischargeAs_decomposable he hd hread hdec
    have hne : ¬ PropertyClass.decomposable = .singleComponent := by decide
    rw [hdec, or_iff_right hne]
    constructor
    · intro h
      obtain ⟨d, hd', -⟩ := Fallible.map_eq_ok.mp h
      by_contra hno
      exact hbad hno d hd'
    · intro hno
      obtain ⟨d, hd', hiff⟩ := hgood hno
      exact Fallible.map_eq_ok.mpr ⟨d, hd', hagree hiff⟩
  · obtain ⟨d, hd', hiff⟩ := hset.dischargeAs_single he hd hread hone hlen
    exact ⟨fun _ => Or.inl hone, fun _ => Fallible.map_eq_ok.mpr ⟨d, hd', hagree hiff⟩⟩

end claim

def writer (fact : Str) : TraceMindAdapter Bool where
  plan := ⟨SortedMap.ofList [(['s'], ⟨['s'], [], [fact], []⟩)], []⟩
  initialStore := SortedMap.ofList []
  changedPaths := []
  initialPending := [['s']]
  initialDone := []

def pairComponents : List (ComponentAdapter Bool) :=
  [(writer ['x']).component, (writer ['y']).component]

def pairContext : Context Bool where
  allIds := [['a'], ['b']]
  concrete := [(['a'], (writer ['x']).component), (['b'], (writer ['y']).component)]
  absComponents := []
  cyclicLeaf := none
  maxDepth := 2
  mode := .full

theorem pairContext_star : pairContext.Star pairComponents := ⟨rfl, rfl⟩

theorem pairContext_prefixFree : PrefixFree pairContext.allIds :=
  show PrefixFree [['a'], ['b']] by decide

def pairFormula : Str := "AG (!has(a.z) && !has(b.z))".toList

def parenFormula : Str := "AG (peer(), has(x)) && !has(b.z))".toList

def parenExpr : Expr :=
  .ctl .AG (.and (.predicate "has".toList (some ").x".toList))
    (.not (.predicate "has".toList (some "b.z".toList))))

theorem local_discharge_raises :
    ¬ ∀ (ctx : Context Bool) (components : List (ComponentAdapter Bool)), ctx.Star components →
      PrefixFree ctx.allIds → ctx.mode = .full →
      ∀ (f : Str) (e : Expr) (cls : Classification), parseExpr f = .ok e →
      classifyFormula f ctx.allIds = .ok cls →
      (cls.propertyClass = .decomposable ∨
        cls.propertyClass = .singleComponent ∧ cls.components.length = 1) →
      ∀ (b : Bool) (n : ℕ), ctx.monoVerify f = .ok (b, n) →
        (ctx.dischargeAs f cls).map (fun d => d.verdict.satisfied) = .ok b := by
  intro h
  have hlocal := h pairContext pairComponents pairContext_star pairContext_prefixFree rfl
    parenFormula parenExpr
    (classifyExpr parenFormula parenExpr pairContext.allIds) (by decide +kernel)
    (by decide +kernel) (Or.inl (by decide +kernel)) false 4 (by decide +kernel)
  have hraise : (pairContext.dischargeAs parenFormula
      (classifyExpr parenFormula parenExpr pairContext.allIds)).map
        (fun d => d.verdict.satisfied) = .error (.valueError "unexpected token '.'") := by
    decide +kernel
  rw [hraise] at hlocal
  cases hlocal

def pairExpr : Expr :=
  .ctl .AG (.and (.not (.predicate "has".toList (some "a.z".toList)))
    (.not (.predicate "has".toList (some "b.z".toList))))

theorem local_discharge_pair :
    pairContext.monoVerify pairFormula = .ok (true, 4) ∧
    (pairContext.dischargeAs pairFormula
      (classifyExpr pairFormula pairExpr pairContext.allIds)).map
        (fun d => d.verdict.satisfied) = .ok true := by
  have hprod : pairContext.monoVerify pairFormula = .ok (true, 4) := by decide +kernel
  refine ⟨hprod, (local_discharge_iff pairContext pairComponents pairContext_star
    pairContext_prefixFree rfl pairFormula pairExpr
    (classifyExpr pairFormula pairExpr pairContext.allIds) (by decide +kernel)
    (by decide +kernel) (Or.inl (by decide +kernel)) true 4 hprod).mpr (Or.inr ?_)⟩
  constructor
  · intro w hw
    cases hw
    decide
  · intro w hw
    cases hw
    decide

end TraceMind.Verify
