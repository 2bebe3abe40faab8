import TraceMind.Verify.Discharge
import TraceMind.Verify.InterfaceSpec

namespace TraceMind.Verify

open BoundedSearch Ctl

variable {V : Type}

section leaf

variable [PyValue V]

theorem image_congr (a : InterfaceAdapter) {s t : State V} (h : s.store = t.store) :
    a.image s = a.image t := by
  unfold InterfaceAdapter.image presentIn
  rw [h]

theorem interface_determined (a : InterfaceAdapter) (mode : HashMode) (root : State V) :
    Determined (State.stableHash mode) (a.component V).successors root := by
  intro y z _ _ hk ys hy
  have hst := State.store_of_hash hk
  have hsucc : a.successors y = a.successors z := by
    unfold InterfaceAdapter.successors presentIn
    rw [hst]
  refine ⟨ys, ?_, fun y' hy' => ⟨y', hy', rfl⟩⟩
  rw [← hy]
  exact congrArg Except.ok hsucc.symm

variable [DecidableEq V] {leaf : TraceMindAdapter V} {maxDepth : ℤ} {mode : HashMode}
  {r : ExplorationResult V} {root : State V}

theorem leaf_step (hrun : Explorer.run leaf.component.stateless () maxDepth mode = .ok (r, ()))
    (hroot : leaf.initialState = .ok root)
    (hdet : Determined (State.stableHash mode) leaf.successors root) {k : ℕ} {s t : State V}
    (hw : Walk (Next leaf.successors) root k s) (hk : k < maxDepth.toNat)
    (ht : Next leaf.successors s t) (atoms : List Str) :
    Next ((abstractResult atoms r).component V).successors ((abstractResult atoms r).image s)
      ((abstractResult atoms r).image t) := by
  obtain ⟨root', x, nodes, hroot', rfl, hex⟩ := explored_of_run hrun
  cases hroot.symm.trans hroot'
  obtain ⟨i, n, hn, hkey, hle, -⟩ := hex.of_walk hdet hw (le_of_lt hk)
  obtain ⟨ys, hy, hmem⟩ := ht
  obtain ⟨zs, hz, hmatch⟩ := hdet s n.1 hw.reach
    (hex.walk n (List.mem_of_getElem? hn)).reach hkey.symm ys hy
  obtain ⟨z, hzm, hzt⟩ := hmatch t hmem
  obtain ⟨j, n', he, hn', hkey', -⟩ := hex.hits_edge hn (lt_of_le_of_lt hle hk) ⟨zs, hz, hzm⟩
  have hstep : Step (Explorer.result maxDepth mode x.2) i j := he
  have hedge := abstract_edge atoms hstep (Explorer.state_of_node hex hn)
    (Explorer.state_of_node hex hn')
  have hks : n.1.stableHash mode = s.stableHash mode := hkey
  have hkt : n'.1.stableHash mode = t.stableHash mode := Eq.trans hkey' hzt
  change (abstractResult atoms _).image n'.1 ∈
    ((abstractResult atoms _).successors ((abstractResult atoms _).image n.1)).map Prod.snd at hedge
  rw [image_congr _ (State.store_of_hash hks), image_congr _ (State.store_of_hash hkt)] at hedge
  exact ⟨_, rfl, hedge⟩

theorem leaf_run_ok (hroot : leaf.initialState = .ok root)
    (hok : ∀ k s, Walk (Next leaf.successors) root k s → k < maxDepth.toNat →
      ∃ ys, leaf.successors s = .ok ys) (mode : HashMode) :
    ∃ r, Explorer.run leaf.component.stateless () maxDepth mode = .ok (r, ()) := by
  have hinit : leaf.component.stateless.initialState () = .ok (root, ()) := by
    change leaf.initialState.map _ = _
    rw [hroot]
    rfl
  rcases search_spec (m := ()) (stateless_lawful leaf.component maxDepth mode) trivial with
    ⟨y, k, e, hw, hb, hy, -⟩ | ⟨x, nodes, hx, -⟩
  · obtain ⟨ys, hys⟩ := hok k y hw hb
    cases hys.symm.trans hy
  · refine ⟨Explorer.result maxDepth mode x.2, ?_⟩
    rw [Explorer.run, hinit]
    change (search _ () (id root) >>= _) = _
    rw [hx]
    rfl

end leaf

section shadow

def shadow (maps : List (State V → State V)) (y : List (State V)) : List (State V) :=
  List.zipWith (fun φ st => φ st) maps y

variable {maps : List (State V → State V)} {y : List (State V)} {i : ℕ} {st : State V}
  {φ : State V → State V}

theorem shadow_get (hφ : maps[i]? = some φ) (hst : y[i]? = some st) :
    (shadow maps y)[i]? = some (φ st) := by
  rw [shadow, List.getElem?_zipWith, hφ, hst]

theorem get_of_shadow {st' : State V} (h : (shadow maps y)[i]? = some st') :
    ∃ φ st, maps[i]? = some φ ∧ y[i]? = some st ∧ φ st = st' := by
  rw [shadow, List.getElem?_zipWith_eq_some] at h
  obtain ⟨φ, st, hφ, hst, rfl⟩ := h
  exact ⟨φ, st, hφ, hst, rfl⟩

theorem shadow_length (h : y.length = maps.length) : (shadow maps y).length = y.length := by
  rw [shadow, List.length_zipWith, ← h, min_self]

theorem shadow_set (hφ : maps[i]? = some φ) (t : State V) :
    shadow maps (y.set i t) = (shadow maps y).set i (φ t) := by
  refine List.ext_getElem? (fun j => ?_)
  rw [List.getElem?_set, shadow, List.getElem?_zipWith, List.getElem?_set]
  by_cases hij : i = j
  · subst hij
    have hi := (List.getElem?_eq_some_iff.mp hφ).1
    rw [if_pos rfl, if_pos rfl, hφ]
    by_cases hy : i < y.length
    · rw [if_pos hy, if_pos (by rw [shadow, List.length_zipWith]; omega)]
    · rw [if_neg hy, if_neg (by rw [shadow, List.length_zipWith]; omega)]
  · rw [if_neg hij, if_neg hij, shadow, List.getElem?_zipWith]

structure Follows (a b : JointAdapter V) (maps : List (State V → State V)) (bound : ℕ)
    (y0 : List (State V)) : Prop where
  ids : b.componentIds = a.componentIds
  length : maps.length = a.componentIds.length
  step : ∀ (i : ℕ) (c : ComponentAdapter V) (φ : State V → State V) (root : State V),
    a.components[i]? = some c → maps[i]? = some φ → y0[i]? = some root →
    ∃ d, b.components[i]? = some d ∧ d.initialState = .ok (φ root) ∧
      (∀ k s, Walk (Next d.successors) (φ root) k s → k < bound → ∃ ys, d.successors s = .ok ys) ∧
      ∀ k s t, Walk (Next c.successors) root k s → k < bound → Next c.successors s t →
        Next d.successors (φ s) (φ t)

variable {a b : JointAdapter V} {maxDepth : ℤ} {y0 : List (State V)}

theorem JointAdapter.Fit.expands_of_parts (h : b.Fit)
    (hinit : JointAdapter.initialStates b.components = .ok y0)
    (hok : ∀ (i : ℕ) (d : ComponentAdapter V) (root : State V), b.components[i]? = some d →
      y0[i]? = some root → ∀ k s, Walk (Next d.successors) root k s → k < maxDepth.toNat →
        ∃ ys, d.successors s = .ok ys) :
    b.Expands maxDepth y0 := by
  refine ⟨hinit, fun k y hw hk => h.moves_ok_iff.mpr (fun i d st hd hst => ?_)⟩
  have hi : i < y0.length := by
    rw [← h.reach_length hw.reach]
    exact (List.getElem?_eq_some_iff.mp hst).1
  obtain ⟨k', hk', hw'⟩ := h.walk_project hw hd (List.getElem?_eq_getElem hi) hst
  exact hok i d _ hd (List.getElem?_eq_getElem hi) k' st hw' (by omega)

theorem Follows.expands (hf : Follows a b maps maxDepth.toNat y0) (ha : a.Fit) (hb : b.Fit)
    (hexp : a.Expands maxDepth y0) : b.Expands maxDepth (shadow maps y0) := by
  have hlen : y0.length = maps.length := (ha.root_length hexp.init).trans hf.length.symm
  -- Every component of `b` stands for one of `a`.
  have hpart {i : ℕ} {d : ComponentAdapter V} (hd : b.components[i]? = some d) :
      ∃ c φ root, a.components[i]? = some c ∧ maps[i]? = some φ ∧ y0[i]? = some root := by
    have hi : i < a.componentIds.length := by
      rw [← hf.ids, ← hb.length]
      exact (List.getElem?_eq_some_iff.mp hd).1
    have hc : i < a.components.length := ha.length ▸ hi
    have hm : i < maps.length := hf.length ▸ hi
    exact ⟨_, _, _, List.getElem?_eq_getElem hc, List.getElem?_eq_getElem hm,
      List.getElem?_eq_getElem (hlen ▸ hm)⟩
  refine hb.expands_of_parts ?_ (fun i d root hd hroot => ?_)
  · rw [JointAdapter.initialStates_eq_ok, List.forall₂_iff_get]
    refine ⟨?_, fun i hi hi' => ?_⟩
    · rw [shadow_length hlen, hb.length, hf.ids, ha.root_length hexp.init]
    · obtain ⟨c, φ, root, hc, hφ, hroot⟩ := hpart (List.getElem?_eq_getElem hi)
      obtain ⟨d, hd, hinit, -⟩ := hf.step i c φ root hc hφ hroot
      have hst := shadow_get hφ hroot
      rw [List.getElem?_eq_getElem hi, Option.some.injEq] at hd
      rw [List.getElem?_eq_getElem hi', Option.some.injEq] at hst
      rw [List.get_eq_getElem, List.get_eq_getElem]
      exact hd ▸ hst ▸ hinit
  · obtain ⟨c, φ, root', hc, hφ, hroot'⟩ := hpart hd
    obtain ⟨d', hd', -, hok, -⟩ := hf.step i c φ root' hc hφ hroot'
    cases hd.symm.trans hd'
    cases hroot.symm.trans (shadow_get hφ hroot')
    exact hok

theorem Follows.walk (hf : Follows a b maps maxDepth.toNat y0) (ha : a.Fit) (hb : b.Fit)
    (hexp : a.Expands maxDepth y0) {k : ℕ} (hw : Walk (Next a.moves) y0 k y)
    (hk : k ≤ maxDepth.toNat) : Walk (Next b.moves) (shadow maps y0) k (shadow maps y) := by
  induction hw with
  | refl => exact .refl
  | @tail k u v huv hn ih =>
    have hwk := ih (by omega)
    obtain ⟨-, i, c, st, t, hc, hst, hct, rfl⟩ := ha.next_iff.mp hn
    have hi : i < a.componentIds.length := ha.length ▸ (List.getElem?_eq_some_iff.mp hc).1
    have hφ := List.getElem?_eq_getElem (hf.length ▸ hi : i < maps.length)
    have hroot := List.getElem?_eq_getElem
      ((ha.root_length hexp.init).symm ▸ hi : i < y0.length)
    obtain ⟨k', hk', hcw⟩ := ha.walk_project huv hc hroot hst
    obtain ⟨d, hd, -, -, hstep⟩ := hf.step i c _ _ hc hφ hroot
    have hdt := hstep k' st t hcw (by omega) hct
    refine hwk.tail (hb.next_iff.mpr ⟨(hf.expands ha hb hexp).ok k _ hwk (by omega), i, d, _, _,
      hd, shadow_get hφ hst, hdt, shadow_set hφ t⟩)

theorem truth_shadow {ids : List Str} (h : PrefixFree ids) (hy : y.length = ids.length)
    (hm : maps.length = ids.length) {p : Expr} (ht : containsTerminal p = false)
    (hp : p.All (fun n v => ∀ (i : ℕ) (cid k : Str) (φ : State V → State V) (st : State V),
      ids[i]? = some cid → maps[i]? = some φ → y[i]? = some st → v = some (qualify cid k) →
      evalPredicate noSteps n (some k) st = evalPredicate noSteps n (some k) (φ st))) :
    truth noSteps (project (shadow maps y) ids) p = truth noSteps (project y ids) p := by
  have hlen : (shadow maps y).length = ids.length := (shadow_length (hy.trans hm.symm)).trans hy
  refine truth_congr ((all_and (all_noTerminal ht) hp).imp (fun n v hv => ?_))
  obtain ⟨hn, hv⟩ := hv
  cases v with
  | none =>
    unfold evalPredicate
    rw [if_neg hn, if_neg hn]
  | some w =>
    rw [Bool.eq_iff_iff, evalPredicate_project h hlen hn noSteps noSteps,
      evalPredicate_project h hy hn noSteps noSteps]
    constructor
    · rintro ⟨q, hq, k, rfl, hk⟩
      obtain ⟨i, hid, hst⟩ := mem_zip_iff.mp hq
      obtain ⟨φ, st, hφ, hst', he⟩ := get_of_shadow hst
      refine ⟨(q.1, st), mem_zip_iff.mpr ⟨i, hid, hst'⟩, k, rfl, ?_⟩
      rw [hv i q.1 k φ st hid hφ hst' rfl, he]
      exact hk
    · rintro ⟨q, hq, k, rfl, hk⟩
      obtain ⟨i, hid, hst⟩ := mem_zip_iff.mp hq
      have hi := (List.getElem?_eq_some_iff.mp hid).1
      obtain ⟨φ, hφ⟩ : ∃ φ, maps[i]? = some φ :=
        ⟨_, List.getElem?_eq_getElem (hm ▸ hi : i < maps.length)⟩
      refine ⟨(q.1, φ q.2), mem_zip_iff.mpr ⟨i, hid, shadow_get hφ hst⟩, k, rfl, ?_⟩
      rw [← hv i q.1 k φ q.2 hid hφ hst rfl]
      exact hk

end shadow

end TraceMind.Verify
