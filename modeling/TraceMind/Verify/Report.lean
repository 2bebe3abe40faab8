import TraceMind.Verify.Paths
import TraceMind.Verify.JointSpec

namespace TraceMind.Verify

open BoundedSearch Branching Ctl

structure InvariantResult where
  expr : Str
  ok : Bool
  violatedAt : Option ℕ
  path : List ℕ
  reason : Str

structure PropertySpec where
  name : Str
  formula : Str

structure PropertyResult where
  name : Str
  formula : Str
  ok : Bool
  counterexample : List ℕ
  reason : Str

def errorText : Err → String
  | .valueError message => message
  | .keyError message => "'" ++ message ++ "'"
  | .typeError message => message
  | .indexError message => message

def parseErrorReason (exc : Err) : Str := ("parse error: " ++ errorText exc).toList

section functions

variable {V : Type}

def firstFalse (enabled : State V → List Str) (e : Expr) :
    List (State V × ℕ) → Except Err (Option ℕ)
  | [] => .ok none
  | (state, idx) :: rest => do
    let b ← evalStateExpr enabled state e
    if b then firstFalse enabled e rest else .ok (some idx)

def invariantResult (m : ExplorationResult V) (raw : Str) : Option ℕ → InvariantResult
  | none => ⟨raw, true, none, [], []⟩
  | some idx => ⟨raw, false, some idx, m.pathTo idx, "violated".toList⟩

def checkInvariant (m : ExplorationResult V) (enabled : State V → List Str) (raw : Str) :
    Except Err InvariantResult :=
  match parseExpr raw with
  | .error exc => .ok ⟨raw, false, none, [], parseErrorReason exc⟩
  | .ok e =>
    if hasCtlNodes e then
      .ok ⟨raw, false, none, [], "CTL operators are not allowed in invariants".toList⟩
    else (firstFalse enabled e m.states.zipIdx).map (invariantResult m raw)

def checkInvariants (invariants : List Str) (m : ExplorationResult V)
    (enabled : State V → List Str) : Except Err (List InvariantResult) :=
  invariants.mapM (checkInvariant m enabled)

def nearestReachable (targets : Finset ℕ) (m : ExplorationResult V) : Option ℕ :=
  (List.range m.states.length).find? (fun idx => decide (idx ∈ targets))

def counterexample (e : Expr) (m : ExplorationResult V) (enabled : State V → List Str) : List ℕ :=
  match nearestReachable (checkCtl (.not e) m enabled) m with
  | none => []
  | some target => m.pathTo target

def checkProperty (m : ExplorationResult V) (enabled : State V → List Str) (spec : PropertySpec) :
    PropertyResult :=
  match parseExpr spec.formula with
  | .error exc => ⟨spec.name, spec.formula, false, [], parseErrorReason exc⟩
  | .ok e =>
    if 0 ∈ checkCtl e m enabled then ⟨spec.name, spec.formula, true, [], []⟩
    else ⟨spec.name, spec.formula, false, counterexample e m enabled,
      "not satisfied from initial state".toList⟩

def checkProperties (props : List PropertySpec) (m : ExplorationResult V)
    (enabled : State V → List Str) : List PropertyResult :=
  props.map (checkProperty m enabled)

end functions

section scan

variable {V : Type} {r : ExplorationResult V} {enabled : State V → List Str} {e p : Expr} {i : ℕ}

def Falsified (r : ExplorationResult V) (enabled : State V → List Str) (p : Expr) (i : ℕ) : Prop :=
  ∃ s, r.states[i]? = some s ∧ evalStateExpr enabled s p = .ok false

def FirstFalsified (r : ExplorationResult V) (enabled : State V → List Str) (p : Expr) (i : ℕ) :
    Prop := Falsified r enabled p i ∧ ∀ j, j < i → ¬ Falsified r enabled p j

def ViolationPath (r : ExplorationResult V) (enabled : State V → List Str) (p : Expr)
    (path : List ℕ) : Prop := ∃ j, PathFromTo r.edges 0 j path ∧ Falsified r enabled p j

theorem falsified_iff (hp : hasCtlNodes p = false) (hi : i < r.states.length) :
    Falsified r enabled p i ↔ ¬ Holds r enabled p i := by
  have hget := List.getElem?_eq_getElem hi
  rw [holds_truth hp hget]
  constructor
  · rintro ⟨s, hs, ht⟩
    rw [hget] at hs
    cases hs
    rw [evalStateExpr_eq enabled _ hp, Except.ok.injEq] at ht
    rw [ht]
    exact Bool.false_ne_true
  · intro ht
    refine ⟨_, hget, ?_⟩
    rw [evalStateExpr_eq enabled _ hp, Bool.eq_false_iff.mpr ht]

theorem not_falsified_of_le (hi : r.states.length ≤ i) : ¬ Falsified r enabled p i := by
  rintro ⟨s, hs, -⟩
  rw [List.getElem?_eq_none hi] at hs
  cases hs

theorem firstFalse_eq (hp : hasCtlNodes e = false) (xs : List (State V × ℕ)) :
    firstFalse enabled e xs =
      .ok ((xs.find? (fun x => !truth enabled x.1 e)).map Prod.snd) := by
  induction xs with
  | nil => rfl
  | cons x xs ih =>
    obtain ⟨s, idx⟩ := x
    rw [firstFalse, evalStateExpr_eq enabled s hp, List.find?_cons]
    change (if truth enabled s e = true then _ else _) = _
    cases truth enabled s e with
    | true => exact ih
    | false => rfl

theorem falsified_get (hp : hasCtlNodes p = false) (hi : i < r.states.length) :
    Falsified r enabled p i ↔ truth enabled r.states[i] p = false := by
  rw [falsified_iff hp hi, holds_truth hp (List.getElem?_eq_getElem hi), Bool.not_eq_true]

theorem find_firstFalsified (hp : hasCtlNodes p = false) (test : ℕ → Bool)
    (htest : ∀ i, i < r.states.length → test i = true) {x : State V × ℕ}
    (h : r.states.zipIdx.find? (fun x => !truth enabled x.1 p && test x.2) = some x) :
    FirstFalsified r enabled p x.2 := by
  obtain ⟨hx, i, hi, hget, hbefore⟩ := List.find?_eq_some_iff_getElem.mp h
  rw [List.length_zipIdx] at hi
  rw [List.getElem_zipIdx, Nat.zero_add] at hget
  subst hget
  rw [Bool.and_eq_true, Bool.not_eq_true'] at hx
  refine ⟨(falsified_get hp hi).mpr hx.1, fun j hj => ?_⟩
  have hj' := lt_trans hj hi
  rw [falsified_get hp hj', Bool.not_eq_false]
  have hb := hbefore j hj
  rw [List.getElem_zipIdx, Nat.zero_add] at hb
  simpa [htest j hj'] using hb

theorem find_none (hp : hasCtlNodes p = false) (test : ℕ → Bool)
    (htest : ∀ i, i < r.states.length → test i = true)
    (h : r.states.zipIdx.find? (fun x => !truth enabled x.1 p && test x.2) = none) :
    ∀ i, ¬ Falsified r enabled p i := by
  intro i hf
  have hi : i < r.states.length := by
    by_contra hge
    exact not_falsified_of_le (not_lt.mp hge) hf
  have hmem : (r.states[i], i) ∈ r.states.zipIdx := by
    rw [List.mem_zipIdx_iff_getElem?]
    exact List.getElem?_eq_getElem hi
  have hnone := List.find?_eq_none.mp h _ hmem
  rw [(falsified_get hp hi).mp hf, htest i hi] at hnone
  exact hnone rfl

end scan

section formulas

variable {V : Type} {r : ExplorationResult V} {enabled : State V → List Str} {e p : Expr} {i : ℕ}

theorem reach_in_range (hr : r.WellFormed) (hi : i < r.states.length) {j : ℕ}
    (h : Relation.ReflTransGen (Step r) i j) : j < r.states.length := by
  cases h with
  | refl => exact hi
  | tail _ hs => exact (step_lt hr hs).2

theorem holds_AG_iff (hr : r.WellFormed) (hp : hasCtlNodes p = false) (hi : i < r.states.length) :
    Holds r enabled (.ctl .AG p) i ↔
      ∀ j, Relation.ReflTransGen (Step r) i j → ¬ Falsified r enabled p j := by
  rw [Holds, AG_iff_reach]
  refine forall₂_congr (fun j hj => ?_)
  rw [falsified_iff hp (reach_in_range hr hi hj), not_not]

theorem mem_checkCtl_AG (hr : r.WellFormed) (hp : hasCtlNodes p = false) :
    i ∈ checkCtl (.ctl .AG p) r enabled ↔ i < r.states.length ∧
      ∀ j, Relation.ReflTransGen (Step r) i j → ¬ Falsified r enabled p j := by
  rw [checkCtl_denotes hr]
  exact and_congr_right (fun hi => holds_AG_iff hr hp hi)

end formulas

section judging

variable {V : Type}

structure Judges (r : ExplorationResult V) (enabled : State V → List Str) (raw : Str)
    (res : InvariantResult) : Prop where
  expr : res.expr = raw
  ok_iff : ∀ e, parseExpr raw = .ok e → hasCtlNodes e = false →
    (res.ok = true ↔ ∀ i, ¬ Falsified r enabled e i)
  violated : ∀ e, parseExpr raw = .ok e → hasCtlNodes e = false → res.ok = false →
    ∃ i, res.violatedAt = some i ∧ FirstFalsified r enabled e i

theorem checkInvariant_spec (r : ExplorationResult V) (enabled : State V → List Str) (raw : Str) :
    ∃ res, checkInvariant r enabled raw = .ok res ∧ Judges r enabled raw res := by
  rw [checkInvariant]
  cases hparse : parseExpr raw with
  | error exc =>
    refine ⟨_, rfl, rfl, fun e he => ?_, fun e he => ?_⟩
    · rw [hparse] at he
      cases he
    · rw [hparse] at he
      cases he
  | ok e =>
    dsimp only
    cases hctl : hasCtlNodes e with
    | true =>
      refine ⟨_, rfl, rfl, fun e' he hc => ?_, fun e' he hc => ?_⟩
      · rw [hparse] at he
        cases he
        rw [hctl] at hc
        cases hc
      · rw [hparse] at he
        cases he
        rw [hctl] at hc
        cases hc
    | false =>
      have htest : ∀ i, i < r.states.length → (fun _ : ℕ => true) i = true := fun _ _ => rfl
      have hfind : firstFalse enabled e r.states.zipIdx = _ := firstFalse_eq hctl _
      rw [if_neg Bool.false_ne_true, hfind]
      cases hf : r.states.zipIdx.find? (fun x => !truth enabled x.1 e) with
      | none =>
        have hnone := find_none hctl _ htest (by simpa using hf)
        refine ⟨_, rfl, rfl, fun e' he _ => ?_, fun e' _ _ hok => ?_⟩
        · rw [hparse] at he
          cases he
          exact ⟨fun _ => hnone, fun _ => rfl⟩
        · cases hok
      | some x =>
        have hfirst := find_firstFalsified hctl _ htest (x := x) (by simpa using hf)
        refine ⟨_, rfl, rfl, fun e' he _ => ?_, fun e' he _ _ => ?_⟩
        · rw [hparse] at he
          cases he
          refine ⟨fun hok => ?_, fun hall => absurd hfirst.1 (hall x.2)⟩
          cases hok
        · rw [hparse] at he
          cases he
          exact ⟨x.2, rfl, hfirst⟩

end judging

section invariants

variable {μ V : Type} [DecidableEq V] {a : Adapter μ V} {m m' : μ} {maxDepth : ℤ} {mode : HashMode}
  {r : ExplorationResult V}

theorem Explorer.run_rooted (h : Explorer.run a m maxDepth mode = .ok (r, m')) :
    0 < r.states.length ∧ ∀ i, i < r.states.length → Relation.ReflTransGen (Step r) 0 i := by
  obtain ⟨root, m1, s, -, hs, rfl⟩ := Explorer.run_eq_ok h
  exact ⟨(search_layered hs).1.pos, (search_rooted hs).reached⟩

theorem check_invariants_iff (h : Explorer.run a m maxDepth mode = .ok (r, m'))
    (enabled : State V → List Str) (invariants : List Str) :
    ∃ results, checkInvariants invariants r enabled = .ok results ∧
      results.map InvariantResult.expr = invariants ∧
      ∀ res ∈ results, ∀ e, parseExpr res.expr = .ok e → hasCtlNodes e = false →
        (res.ok = true ↔ 0 ∈ checkCtl (.ctl .AG e) r enabled) ∧
        (res.ok = false → ∃ i, res.violatedAt = some i ∧ Falsified r enabled e i) := by
  obtain ⟨results, hresults⟩ : ∃ results, checkInvariants invariants r enabled = .ok results :=
    Fallible.mapM_ok (fun raw _ =>
      (checkInvariant_spec r enabled raw).imp (fun _ hres => hres.1))
  have hjudges {raw : Str} {res : InvariantResult} (hres : checkInvariant r enabled raw = .ok res) :
      Judges r enabled raw res := by
    obtain ⟨res', hres', hj⟩ := checkInvariant_spec r enabled raw
    rw [hres] at hres'
    cases hres'
    exact hj
  refine ⟨results, hresults, ?_, fun res hmem e he hctl => ?_⟩
  · have hall := Fallible.mapM_eq_ok.mp hresults
    clear hresults
    induction hall with
    | nil => rfl
    | cons hres _ ih => rw [List.map_cons, ih, (hjudges hres).expr]
  · obtain ⟨raw, -, hres⟩ := Fallible.mapM_mem hresults hmem
    have hj := hjudges hres
    rw [hj.expr] at he
    obtain ⟨hpos, hreach⟩ := Explorer.run_rooted h
    refine ⟨?_, fun hok => (hj.violated e he hctl hok).imp (fun i hi => ⟨hi.1, hi.2.1⟩)⟩
    rw [hj.ok_iff e he hctl, mem_checkCtl_AG (Explorer.run_wellFormed h) hctl, and_iff_right hpos]
    constructor
    · exact fun hall j _ => hall j
    · intro hall i hi
      have hlt : i < r.states.length := by
        by_contra hge
        exact not_falsified_of_le (not_lt.mp hge) hi
      exact hall i (hreach i hlt) hi

def neverDone (name : String) : Expr := .not (.predicate "done".toList (some name.toList))

theorem check_invariants_of_round_trip :
    ∃ r u res, Explorer.run roundTrip.stateless () 8 .full = .ok (r, u) ∧
      checkInvariants ["!done(b)".toList] r roundTrip.enabledSteps = .ok [res] ∧
      res.violatedAt = some 1 ∧
      0 ∉ checkCtl (.ctl .AG (neverDone "b")) r roundTrip.enabledSteps := by
  have hrun : ∃ r u res, Explorer.run roundTrip.stateless () 8 .full = .ok (r, u) ∧
      checkInvariants ["!done(b)".toList] r roundTrip.enabledSteps = .ok [res] ∧
      res.expr = "!done(b)".toList ∧ res.ok = false ∧ res.violatedAt = some 1 :=
    ⟨_, _, _, rfl, rfl, by decide +kernel, by decide +kernel, by decide +kernel⟩
  obtain ⟨r, u, res, hr, hres, hexpr, hok, hat⟩ := hrun
  obtain ⟨results, hresults, -, hall⟩ :=
    check_invariants_iff hr roundTrip.enabledSteps ["!done(b)".toList]
  rw [hres] at hresults
  cases hresults
  have hparse : parseExpr res.expr = .ok (neverDone "b") := by
    rw [hexpr]
    decide +kernel
  obtain ⟨hiff, -⟩ := hall res (List.mem_singleton_self res) _ hparse rfl
  refine ⟨r, u, res, hr, hres, hat, fun h0 => ?_⟩
  rw [hiff.mpr h0] at hok
  cases hok

end invariants

section properties

variable {V : Type} {r : ExplorationResult V} {enabled : State V → List Str} {p : Expr}

theorem nearestReachable_root {targets : Finset ℕ} (hpos : 0 < r.states.length)
    (h : 0 ∈ targets) : nearestReachable targets r = some 0 := by
  rw [nearestReachable, List.range_eq_range', ← Nat.succ_pred_eq_of_pos hpos, List.range'_succ,
    List.find?_cons, decide_eq_true h]

theorem counterexample_root (hr : r.WellFormed) (hpos : 0 < r.states.length)
    (h : 0 ∉ checkCtl (.ctl .AG p) r enabled) :
    counterexample (.ctl .AG p) r enabled = r.pathTo 0 := by
  have hmem : 0 ∈ checkCtl (.not (.ctl .AG p)) r enabled := by
    rw [checkCtl_denotes hr] at h ⊢
    exact ⟨hpos, fun hh => h ⟨hpos, hh⟩⟩
  rw [counterexample, nearestReachable_root hpos hmem]

theorem checkProperty_formula (spec : PropertySpec) :
    (checkProperty r enabled spec).formula = spec.formula := by
  rw [checkProperty]
  cases parseExpr spec.formula with
  | error exc => rfl
  | ok e =>
    dsimp only
    split_ifs <;> rfl

theorem checkProperty_failed {spec : PropertySpec} {e : Expr}
    (he : parseExpr (checkProperty r enabled spec).formula = .ok e)
    (hok : (checkProperty r enabled spec).ok = false) :
    0 ∉ checkCtl e r enabled ∧
      (checkProperty r enabled spec).counterexample = counterexample e r enabled := by
  rw [checkProperty_formula] at he
  rw [checkProperty, he] at hok ⊢
  dsimp only at hok ⊢
  split_ifs at hok ⊢ with h0
  exact ⟨h0, rfl⟩

theorem firstViolation_eq (hp : hasCtlNodes p = false) (xs : List (State V × ℕ)) :
    firstViolation enabled p r xs =
      .ok ((xs.find? (fun x => !truth enabled x.1 p && decide (r.pathTo x.2 ≠ []))).map
        (fun x => r.pathTo x.2)) := by
  induction xs with
  | nil => rfl
  | cons x xs ih =>
    obtain ⟨s, sid⟩ := x
    rw [firstViolation, evalStateExpr_eq enabled s hp, List.find?_cons]
    change (if truth enabled s p = true then _ else _) = _
    cases truth enabled s p with
    | true => exact ih
    | false =>
      rw [if_neg Bool.false_ne_true]
      split_ifs with hnil
      · rw [ih]
        simp [hnil]
      · simp [hnil]

theorem pathTo_ne_nil {i : ℕ} (hi : i < r.states.length) : r.pathTo i ≠ [] := by
  obtain ⟨pre, hpre⟩ := (pathTo_walks hi).extends
  rw [hpre]
  exact List.append_ne_nil_of_right_ne_nil _ (List.cons_ne_nil _ _)

theorem FirstFalsified.lt {k : ℕ} (h : FirstFalsified r enabled p k) : k < r.states.length := by
  by_contra hge
  exact not_falsified_of_le (not_lt.mp hge) h.1

theorem FirstFalsified.unique {k k' : ℕ} (h : FirstFalsified r enabled p k)
    (h' : FirstFalsified r enabled p k') : k = k' := by
  rcases lt_trichotomy k k' with hlt | heq | hgt
  · exact absurd h.1 (h'.2 k hlt)
  · exact heq
  · exact absurd h'.1 (h.2 k' hgt)

theorem probeViolation_first (hp : hasCtlNodes p = false) {i : ℕ} (hi : Falsified r enabled p i) :
    ∃ k, FirstFalsified r enabled p k ∧ probeViolation enabled p r = .ok (some (r.pathTo k)) := by
  have htest : ∀ i, i < r.states.length → (fun i => decide (r.pathTo i ≠ [])) i = true :=
    fun i hi => decide_eq_true (pathTo_ne_nil hi)
  rw [probeViolation, hp, if_neg Bool.false_ne_true, firstViolation_eq hp]
  cases hf : r.states.zipIdx.find?
      (fun x => !truth enabled x.1 p && decide (r.pathTo x.2 ≠ [])) with
  | none => exact absurd hi (find_none hp _ htest hf i)
  | some x => exact ⟨x.2, find_firstFalsified hp _ htest hf, rfl⟩

end properties

section violation

variable {μ V : Type} [DecidableEq V] {a : Adapter μ V} {m m' : μ} {maxDepth : ℤ} {mode : HashMode}
  {r : ExplorationResult V} {enabled : State V → List Str} {p : Expr} {target : ℕ}

theorem violation_pathTo_iff (h : Explorer.run a m maxDepth mode = .ok (r, m'))
    (ht : target < r.states.length) :
    ViolationPath r enabled p (r.pathTo target) ↔ Falsified r enabled p target ∧
      ∀ q l, r.predecessors.lookup 0 = some (q, l) → Behind r.predecessors target q := by
  rcases path_to_cases h ht with ⟨hs, hall⟩ | ⟨hhead, q, l, hq, hnot⟩
  · constructor
    · rintro ⟨j, hj, hf⟩
      have hlast := hj.last
      rw [hs.path.last] at hlast
      cases hlast
      exact ⟨hf, hall⟩
    · exact fun hf => ⟨target, hs.path, hf.1⟩
  · constructor
    · rintro ⟨j, hj, -⟩
      exact absurd hj.head hhead
    · exact fun hf => absurd (hf.2 q l hq) hnot

theorem behind_root_iff {preds : List (ℕ × (ℕ × Str))} {q : ℕ} : Behind preds 0 q ↔ q = 0 := by
  constructor
  · intro hq
    cases Relation.ReflTransGen.cases_head hq with
    | inl he => exact he.symm
    | inr he =>
      obtain ⟨_, ⟨hne, -⟩, -⟩ := he
      exact absurd rfl hne
  · rintro rfl
    exact .refl

def RootShows (r : ExplorationResult V) (enabled : State V → List Str) (p : Expr) : Prop :=
  Falsified r enabled p 0 ∧ ∀ q l, r.predecessors.lookup 0 = some (q, l) → q = 0

def FirstShows (r : ExplorationResult V) (enabled : State V → List Str) (p : Expr) : Prop :=
  ((∃ i, i < r.states.length ∧
      ∀ j, Relation.ReflTransGen (Step r) i j → ¬ Falsified r enabled p j) ∧
    Falsified r enabled p 0) ∨
  ((∀ i, i < r.states.length →
      ∃ j, Relation.ReflTransGen (Step r) i j ∧ Falsified r enabled p j) ∧
    ∀ k, FirstFalsified r enabled p k →
      ∀ q l, r.predecessors.lookup 0 = some (q, l) → Behind r.predecessors k q)

theorem counterexample_iff (h : Explorer.run a m maxDepth mode = .ok (r, m'))
    (h0 : 0 ∉ checkCtl (.ctl .AG p) r enabled) :
    ViolationPath r enabled p (counterexample (.ctl .AG p) r enabled) ↔
      RootShows r enabled p := by
  have hpos := (Explorer.run_rooted h).1
  rw [counterexample_root (Explorer.run_wellFormed h) hpos h0, violation_pathTo_iff h hpos]
  exact and_congr_right (fun _ => forall₃_congr (fun q l _ => behind_root_iff))

theorem witness_iff (h : Explorer.run a m maxDepth mode = .ok (r, m'))
    (hp : hasCtlNodes p = false) (h0 : 0 ∉ checkCtl (.ctl .AG p) r enabled) {path : List ℕ}
    (hw : witnessViolationPath r enabled (.ctl .AG p) (checkCtl (.ctl .AG p) r enabled) =
      .ok path) : ViolationPath r enabled p path ↔ FirstShows r enabled p := by
  have hwf := Explorer.run_wellFormed h
  have hpos := (Explorer.run_rooted h).1
  have hmem {i : ℕ} : i ∈ checkCtl (.ctl .AG p) r enabled ↔ i < r.states.length ∧
      ∀ j, Relation.ReflTransGen (Step r) i j → ¬ Falsified r enabled p j :=
    mem_checkCtl_AG hwf hp
  generalize hsat : checkCtl (.ctl .AG p) r enabled = sat at h0 hw hmem
  rw [witnessViolationPath, if_neg h0] at hw
  dsimp only [agBody] at hw
  by_cases hempty : sat = ∅
  · subst hempty
    have hnone : ∀ i, i < r.states.length →
        ∃ j, Relation.ReflTransGen (Step r) i j ∧ Falsified r enabled p j := by
      intro i hi
      by_contra hno
      push Not at hno
      exact Finset.notMem_empty i (hmem.mpr ⟨hi, hno⟩)
    obtain ⟨j, -, hj⟩ := hnone 0 hpos
    obtain ⟨k, hk, hprobe⟩ := probeViolation_first hp hj
    rw [if_neg (fun hc => hc.1 rfl), hprobe] at hw
    cases hw
    change ViolationPath r enabled p (r.pathTo k) ↔ _
    rw [violation_pathTo_iff h hk.lt, and_iff_right hk.1]
    constructor
    · refine fun hall => Or.inr ⟨hnone, fun k' hk' => ?_⟩
      rw [hk'.unique hk]
      exact hall
    · rintro (⟨⟨i, hi, hall⟩, -⟩ | ⟨-, hall⟩)
      · obtain ⟨j, hj, hf⟩ := hnone i hi
        exact absurd hf (hall j hj)
      · exact hall k hk
  · have hout : bfsPathOutside r.edges sat = [0] := by rw [bfsPathOutside, if_pos ⟨h0, hempty⟩]
    rw [hout, if_pos ⟨hempty, List.cons_ne_nil _ _⟩] at hw
    cases hw
    obtain ⟨i, hi⟩ := Finset.nonempty_iff_ne_empty.mpr hempty
    have hsome := hmem.mp hi
    constructor
    · rintro ⟨j, hj, hf⟩
      cases hj.last
      exact Or.inl ⟨⟨i, hsome⟩, hf⟩
    · rintro (⟨-, hf⟩ | ⟨hall, -⟩)
      · exact ⟨0, ⟨rfl, rfl, List.isChain_singleton 0⟩, hf⟩
      · obtain ⟨j, hj, hf⟩ := hall i hsome.1
        exact absurd hf (hsome.2 j hj)

theorem verdictOf_failed {aj : JointAdapter V} {memo : Memo V} {pc : Bool} {f : Str}
    {v : JointVerdict V} (hv : verdictOf aj memo r pc f = .ok v) {e : Expr}
    (he : parseExpr v.formula = .ok e) (hs : v.satisfied = false) :
    0 ∉ checkCtl e r (aj.enabledSteps memo) ∧
      witnessViolationPath r (aj.enabledSteps memo) e (checkCtl e r (aj.enabledSteps memo)) =
        .ok v.violationPath := by
  obtain ⟨e', he', hv⟩ := Fallible.bind_eq_ok.mp hv
  dsimp only at hv
  split_ifs at hv with h0
  · cases hv
    cases hs
  · obtain ⟨path, hpath, hv⟩ := Fallible.bind_eq_ok.mp hv
    have hfields : v.formula = f ∧ v.violationPath = path := by
      rw [failedVerdict] at hv
      split_ifs at hv
      · obtain ⟨steps, -, hv⟩ := Fallible.map_eq_ok.mp hv
        rw [← hv]
        exact ⟨rfl, rfl⟩
      · cases hv
        exact ⟨rfl, rfl⟩
    rw [hfields.1, he', Except.ok.injEq] at he
    rw [← he, hfields.2]
    exact ⟨h0, hpath⟩

theorem jointVerify_eq_ok {components : List (ComponentAdapter V)} {formulas : List Str}
    {ids : Option (List Str)} {pc : Bool} {report : JointReport V}
    (h : jointVerify components formulas ids maxDepth mode pc = .ok report) :
    ∃ aj r memo, JointAdapter.fromComponents components ids = .ok aj ∧
      Explorer.run aj.adapter [] maxDepth mode = .ok (r, memo) ∧
      formulas.mapM (verdictOf aj memo r pc) = .ok report.verdicts := by
  obtain ⟨aj, haj, h⟩ := Fallible.bind_eq_ok.mp h
  obtain ⟨⟨r, memo⟩, hrun, h⟩ := Fallible.bind_eq_ok.mp h
  obtain ⟨verdicts, hv, h⟩ := Fallible.bind_eq_ok.mp h
  cases h
  exact ⟨aj, r, memo, haj, hrun, hv⟩

theorem violation_paths_iff :
    (∀ (a : Adapter μ V) (m m' : μ) (maxDepth : ℤ) (mode : HashMode) (r : ExplorationResult V),
      Explorer.run a m maxDepth mode = .ok (r, m') →
      ∀ (enabled : State V → List Str) (props : List PropertySpec),
      ∀ res ∈ checkProperties props r enabled, ∀ p, hasCtlNodes p = false →
        parseExpr res.formula = .ok (.ctl .AG p) → res.ok = false →
        (ViolationPath r enabled p res.counterexample ↔ RootShows r enabled p)) ∧
    (∀ (components : List (ComponentAdapter V)) (formulas : List Str) (ids : Option (List Str))
        (maxDepth : ℤ) (mode : HashMode) (pc : Bool) (report : JointReport V),
      jointVerify components formulas ids maxDepth mode pc = .ok report →
      ∃ aj r memo, JointAdapter.fromComponents components ids = .ok aj ∧
        Explorer.run aj.adapter [] maxDepth mode = .ok (r, memo) ∧
        ∀ v ∈ report.verdicts, ∀ p, hasCtlNodes p = false →
          parseExpr v.formula = .ok (.ctl .AG p) → v.satisfied = false →
          (ViolationPath r (aj.enabledSteps memo) p v.violationPath ↔
            FirstShows r (aj.enabledSteps memo) p)) := by
  constructor
  · intro a m m' maxDepth mode r h enabled props res hres p _ hparse hok
    obtain ⟨spec, -, rfl⟩ := List.mem_map.mp hres
    obtain ⟨h0, hpath⟩ := checkProperty_failed hparse hok
    rw [hpath]
    exact counterexample_iff h h0
  · intro components formulas ids maxDepth mode pc report h
    obtain ⟨aj, r, memo, haj, hrun, hverdicts⟩ := jointVerify_eq_ok h
    refine ⟨aj, r, memo, haj, hrun, fun v hv p hp hparse hs => ?_⟩
    obtain ⟨f, -, hf⟩ := Fallible.mapM_mem hverdicts hv
    obtain ⟨h0, hw⟩ := verdictOf_failed hf hparse hs
    exact witness_iff hrun hp h0 hw

end violation

def neverB : Str := "AG !done(agent0.b)".toList

theorem neverB_report :
    ∃ aj r memo report v res s, JointAdapter.fromComponents [roundTrip] none = .ok aj ∧
      Explorer.run aj.adapter [] 8 .full = .ok (r, memo) ∧
      jointVerify [roundTrip] [neverB] none 8 .full false = .ok report ∧
      report.verdicts = [v] ∧ v.formula = neverB ∧ v.satisfied = false ∧ v.violationPath = [0] ∧
      checkProperties [⟨[], neverB⟩] r (aj.enabledSteps memo) = [res] ∧ res.formula = neverB ∧
      res.ok = false ∧ res.counterexample = [1, 0] ∧ r.states[0]? = some s ∧
      evalStateExpr (aj.enabledSteps memo) s (neverDone "agent0.b") = .ok true := by
  refine ⟨_, _, _, _, _, _, _, rfl, rfl, rfl, rfl, ?_, ?_, ?_, rfl, ?_, ?_, ?_, rfl, ?_⟩
  all_goals decide +kernel

theorem parse_neverB : parseExpr neverB = .ok (.ctl .AG (neverDone "agent0.b")) := by
  decide +kernel

theorem violation_path_at_root :
    ∃ aj r memo report v res, JointAdapter.fromComponents [roundTrip] none = .ok aj ∧
      Explorer.run aj.adapter [] 8 .full = .ok (r, memo) ∧
      parseExpr neverB = .ok (.ctl .AG (neverDone "agent0.b")) ∧
      jointVerify [roundTrip] [neverB] none 8 .full false = .ok report ∧
      report.verdicts = [v] ∧ v.satisfied = false ∧ v.violationPath = [0] ∧
      checkProperties [⟨[], neverB⟩] r (aj.enabledSteps memo) = [res] ∧
      res.ok = false ∧ res.counterexample = [1, 0] ∧
      ¬ ViolationPath r (aj.enabledSteps memo) (neverDone "agent0.b") v.violationPath ∧
      ¬ ViolationPath r (aj.enabledSteps memo) (neverDone "agent0.b") res.counterexample := by
  obtain ⟨aj, r, memo, report, v, res, s, haj, hrun, hreport, hv, -, hsat, hpath, hres, -, hok,
    hcex, hs, htrue⟩ := neverB_report
  refine ⟨aj, r, memo, report, v, res, haj, hrun, parse_neverB, hreport, hv, hsat, hpath, hres, hok,
    hcex, ?_, ?_⟩
  · rintro ⟨j, hj, t, ht, hf⟩
    have hlast := hj.last
    rw [hpath, List.getLast?_singleton] at hlast
    cases hlast
    rw [hs] at ht
    cases ht
    rw [htrue] at hf
    cases hf
  · rintro ⟨j, hj, -⟩
    have hhead := hj.head
    rw [hcex] at hhead
    cases hhead

theorem violation_paths_of_neverB :
    ∃ aj r memo report v res, JointAdapter.fromComponents [roundTrip] none = .ok aj ∧
      Explorer.run aj.adapter [] 8 .full = .ok (r, memo) ∧
      jointVerify [roundTrip] [neverB] none 8 .full false = .ok report ∧
      report.verdicts = [v] ∧ v.violationPath = [0] ∧
      (ViolationPath r (aj.enabledSteps memo) (neverDone "agent0.b") [0] ↔
        FirstShows r (aj.enabledSteps memo) (neverDone "agent0.b")) ∧
      checkProperties [⟨[], neverB⟩] r (aj.enabledSteps memo) = [res] ∧
      (ViolationPath r (aj.enabledSteps memo) (neverDone "agent0.b") res.counterexample ↔
        RootShows r (aj.enabledSteps memo) (neverDone "agent0.b")) := by
  obtain ⟨aj, r, memo, report, v, res, s, haj, hrun, hreport, hv, hvf, hsat, hpath, hres, hrf, hok,
    -⟩ := neverB_report
  obtain ⟨aj', r', memo', haj', hrun', hall⟩ :=
    (violation_paths_iff (μ := Unit)).2 _ _ _ _ _ _ _ hreport
  rw [haj] at haj'
  cases haj'
  rw [hrun] at hrun'
  cases hrun'
  have hjoint := hall v (by rw [hv]; exact List.mem_singleton_self v) _ rfl
    (by rw [hvf]; exact parse_neverB) hsat
  rw [hpath] at hjoint
  have hmem : res ∈ checkProperties [⟨[], neverB⟩] r (aj.enabledSteps memo) := by
    rw [hres]
    exact List.mem_singleton_self res
  refine ⟨aj, r, memo, report, v, res, haj, hrun, hreport, hv, hpath, hjoint, hres, ?_⟩
  exact violation_paths_iff.1 _ _ _ _ _ _ hrun _ _ res hmem _ rfl (by rw [hrf]; exact parse_neverB)
    hok

end TraceMind.Verify
