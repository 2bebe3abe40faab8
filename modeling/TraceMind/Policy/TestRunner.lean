import TraceMind.Foundation.BoundedSearch
import TraceMind.Foundation.Loops
import TraceMind.Policy.Reordering

namespace TraceMind.Policy

open Artifacts
open Python (numOf pyEq eqItem eqNum)
open Queue (Document Error PyFloat PyText)

section contains

variable (value : Str → Option ℚ)

mutual

def matchContains : Json → Json → Bool
  | .obj fs, .obj gs => matchFields fs gs
  | .obj _, _ => false
  | .arr vs, .arr ws => matchItems vs ws
  | .arr _, _ => false
  | v, w => pyEq value v w

def matchFields : List (Str × Json) → List (Str × Json) → Bool
  | [], _ => true
  | (k, v) :: fs, gs =>
    match gs.lookup k with
    | none => false
    | some w => matchContains v w && matchFields fs gs

def matchItems : List Json → List Json → Bool
  | [], _ => true
  | v :: vs, ws =>
    match Greedy.search (matchContains v) ws with
    | none => false
    | some rest => matchItems vs rest

end

mutual

def Embeds : Json → Json → Prop
  | .obj fs, .obj gs => FieldsEmbed fs gs
  | .obj _, _ => False
  | .arr vs, .arr ws => ∃ us : List Json, us.Sublist ws ∧ ItemsEmbed vs us
  | .arr _, _ => False
  | v, w => pyEq value v w = true

def FieldsEmbed : List (Str × Json) → List (Str × Json) → Prop
  | [], _ => True
  | (k, v) :: fs, gs => (∃ w, gs.lookup k = some w ∧ Embeds v w) ∧ FieldsEmbed fs gs

def ItemsEmbed : List Json → List Json → Prop
  | [], [] => True
  | v :: vs, u :: us => Embeds v u ∧ ItemsEmbed vs us
  | _, _ => False

end

mutual

def numeric : Json → Bool
  | .nan => false
  | .arr vs => numericItems vs
  | .obj fs => numericFields fs
  | _ => true

def numericItems : List Json → Bool
  | [] => true
  | v :: vs => numeric v && numericItems vs

def numericFields : List (Str × Json) → Bool
  | [] => true
  | (_, v) :: fs => numeric v && numericFields fs

end

end contains

section scalars

variable {value : Str → Option ℚ} {u v w : Json} {x : Python.Num}

def isScalar : Json → Bool
  | .arr _ | .obj _ => false
  | _ => true

theorem cmp_eq {x y : Python.Num} : x.cmp y = some .eq ↔ x = y ∧ x ≠ .nan := by
  cases x with
  | nan => simp [Python.Num.cmp]
  | inf a =>
    cases y with
    | nan => simp [Python.Num.cmp]
    | inf b => cases a <;> cases b <;> simp [Python.Num.cmp]
    | fin q => cases a <;> simp [Python.Num.cmp]
  | fin p =>
    cases y with
    | nan => simp [Python.Num.cmp]
    | inf b => cases b <;> simp [Python.Num.cmp]
    | fin q =>
      rw [Python.Num.cmp]
      split_ifs with hlt heq
      · simp [hlt.ne]
      · simp [heq]
      · simp [heq]

theorem pyEq_number (hv : numOf value v = some x) :
    pyEq value v w = true ↔ numOf value w = some x ∧ x ≠ .nan := by
  rw [pyEq, hv]
  cases hw : numOf value w with
  | some y =>
    rw [decide_eq_true_eq, cmp_eq, Option.some.injEq]
    constructor
    · rintro ⟨rfl, hx⟩
      exact ⟨rfl, hx⟩
    · rintro ⟨rfl, hx⟩
      exact ⟨rfl, hx⟩
  | none =>
    have hfalse : eqItem value v w = false := by
      have hnum : eqNum value v w = false := by rw [eqNum, hv, hw]
      cases v <;> cases w <;> first | exact hnum | (cases hw; done) | cases hv
    rw [hfalse]
    simp

theorem pyEq_text {s : Str} : pyEq value (.str s) w = true ↔ w = .str s := by
  rw [pyEq]
  cases w <;> simp [numOf, eqItem, eqNum, eq_comm]

theorem pyEq_null : pyEq value .null w = true ↔ w = .null := by
  rw [pyEq]
  cases w <;> simp [numOf, eqItem, eqNum]

theorem numOf_numeric (h : numeric v = true) (hv : numOf value v = some x) : x ≠ .nan := by
  rintro rfl
  cases v with
  | nan => cases h
  | float t =>
    rw [numOf] at hv
    cases hval : value t with
    | none =>
      rw [hval] at hv
      cases hv
    | some q =>
      rw [hval] at hv
      cases hv
  | null | bool _ | infinity _ | int _ | str _ | arr _ | obj _ => cases hv

theorem scalar_cases (value : Str → Option ℚ) (h : isScalar v = true) :
    v = .null ∨ (∃ s, v = .str s) ∨ ∃ y, numOf value v = some y := by
  cases v with
  | null => exact .inl rfl
  | str s => exact .inr (.inl ⟨s, rfl⟩)
  | float t => exact .inr (.inr (Python.numOf_float t))
  | bool b => exact .inr (.inr ⟨_, rfl⟩)
  | int n => exact .inr (.inr ⟨_, rfl⟩)
  | nan => exact .inr (.inr ⟨_, rfl⟩)
  | infinity n => exact .inr (.inr ⟨_, rfl⟩)
  | arr vs => cases h
  | obj fs => cases h

theorem pyEq_refl (h : isScalar v = true) (hn : numeric v = true) : pyEq value v v = true := by
  obtain rfl | ⟨s, rfl⟩ | ⟨y, hy⟩ := scalar_cases value h
  · exact pyEq_null.mpr rfl
  · exact pyEq_text.mpr rfl
  · exact (pyEq_number hy).mpr ⟨hy, numOf_numeric hn hy⟩

theorem pyEq_trans (h : isScalar u = true) (huv : pyEq value u v = true)
    (hvw : pyEq value v w = true) : pyEq value u w = true := by
  obtain rfl | ⟨s, rfl⟩ | ⟨y, hy⟩ := scalar_cases value h
  · rw [pyEq_null.mp huv] at hvw
    exact hvw
  · rw [pyEq_text.mp huv] at hvw
    exact hvw
  · obtain ⟨hv, hnan⟩ := (pyEq_number hy).mp huv
    exact (pyEq_number hy).mpr ⟨((pyEq_number hv).mp hvw).1, hnan⟩

theorem isScalar_of_pyEq (h : isScalar u = true) (huv : pyEq value u v = true) :
    isScalar v = true := by
  obtain rfl | ⟨s, rfl⟩ | ⟨y, hy⟩ := scalar_cases value h
  · rw [pyEq_null.mp huv]
    rfl
  · rw [pyEq_text.mp huv]
    rfl
  · obtain ⟨hv, -⟩ := (pyEq_number hy).mp huv
    cases v with
    | arr vs => cases hv
    | obj fs => cases hv
    | null | bool _ | nan | infinity _ | int _ | float _ | str _ => rfl

theorem matchContains_scalar (h : isScalar v = true) :
    matchContains value v w = pyEq value v w := by
  cases v with
  | arr vs => cases h
  | obj fs => cases h
  | null | bool _ | nan | infinity _ | int _ | float _ | str _ => rw [matchContains] <;> simp

theorem embeds_scalar (h : isScalar v = true) : Embeds value v w ↔ pyEq value v w = true := by
  cases v with
  | arr vs => cases h
  | obj fs => cases h
  | null | bool _ | nan | infinity _ | int _ | float _ | str _ => rw [Embeds] <;> simp

theorem scalar_trans (h : isScalar u = true) (huv : Embeds value u v) (hvw : Embeds value v w) :
    Embeds value u w := by
  have he := (embeds_scalar h).mp huv
  rw [embeds_scalar (isScalar_of_pyEq h he)] at hvw
  exact (embeds_scalar h).mpr (pyEq_trans h he hvw)

theorem sortKeys_scalar (h : isScalar v = true) (he : sortKeys v = sortKeys w) : w = v := by
  cases v with
  | arr vs => cases h
  | obj fs => cases h
  | null | bool _ | nan | infinity _ | int _ | float _ | str _ =>
    cases w <;> simp_all [sortKeys]

theorem embeds_of_scalar (h : isScalar v = true) (hn : numeric v = true)
    (he : sortKeys v = sortKeys w) : Embeds value v w := by
  rw [sortKeys_scalar h he]
  exact (embeds_scalar h).mpr (pyEq_refl h hn)

end scalars

section embeddings

variable {value : Str → Option ℚ}

theorem fieldsEmbed_iff {fs gs : List (Str × Json)} : FieldsEmbed value fs gs ↔
    ∀ f ∈ fs, ∃ w, gs.lookup f.1 = some w ∧ Embeds value f.2 w := by
  induction fs with
  | nil => simp [FieldsEmbed]
  | cons f fs ih =>
    obtain ⟨k, v⟩ := f
    rw [FieldsEmbed, ih, List.forall_mem_cons]

theorem itemsEmbed_iff {vs us : List Json} :
    ItemsEmbed value vs us ↔ List.Forall₂ (Embeds value) vs us := by
  induction vs generalizing us with
  | nil => cases us <;> simp [ItemsEmbed]
  | cons v vs ih =>
    cases us with
    | nil => simp [ItemsEmbed]
    | cons u us => rw [ItemsEmbed, ih, List.forall₂_cons]

theorem matchItems_eq (vs ws : List Json) :
    matchItems value vs ws = Greedy.finds (vs.map (matchContains value)) ws := by
  induction vs generalizing ws with
  | nil => rw [matchItems, List.map_nil, Greedy.finds]
  | cons v vs ih =>
    rw [matchItems, List.map_cons, Greedy.finds]
    cases Greedy.search (matchContains value v) ws with
    | none => rfl
    | some rest => exact ih rest

mutual

theorem matchContains_iff : ∀ v w : Json, matchContains value v w = true ↔ Embeds value v w
  | .obj fs, w => by
    cases w with
    | obj gs =>
      rw [matchContains, Embeds]
      exact matchFields_iff fs gs
    | null | bool _ | nan | infinity _ | int _ | float _ | str _ | arr _ =>
      simp [matchContains, Embeds]
  | .arr vs, w => by
    cases w with
    | arr ws =>
      rw [matchContains, Embeds, matchItems_eq, Greedy.finds_iff]
      exact exists_congr (fun us => and_congr_right' (matchEach_iff vs us))
    | null | bool _ | nan | infinity _ | int _ | float _ | str _ | obj _ =>
      simp [matchContains, Embeds]
  | .null, w => by rw [matchContains_scalar rfl, embeds_scalar rfl]
  | .bool _, w => by rw [matchContains_scalar rfl, embeds_scalar rfl]
  | .nan, w => by rw [matchContains_scalar rfl, embeds_scalar rfl]
  | .infinity _, w => by rw [matchContains_scalar rfl, embeds_scalar rfl]
  | .int _, w => by rw [matchContains_scalar rfl, embeds_scalar rfl]
  | .float _, w => by rw [matchContains_scalar rfl, embeds_scalar rfl]
  | .str _, w => by rw [matchContains_scalar rfl, embeds_scalar rfl]

theorem matchFields_iff : ∀ fs gs : List (Str × Json),
    matchFields value fs gs = true ↔ FieldsEmbed value fs gs
  | [], gs => by simp [matchFields, FieldsEmbed]
  | (k, v) :: fs, gs => by
    rw [matchFields, FieldsEmbed]
    cases gs.lookup k with
    | none => simp
    | some w => simp [matchContains_iff v w, matchFields_iff fs gs]

theorem matchEach_iff : ∀ vs us : List Json,
    List.Forall₂ (fun p u => p u = true) (vs.map (matchContains value)) us ↔
      ItemsEmbed value vs us
  | [], us => by cases us <;> simp [ItemsEmbed]
  | v :: vs, us => by
    cases us with
    | nil => simp [ItemsEmbed]
    | cons u us =>
      rw [List.map_cons, List.forall₂_cons, ItemsEmbed, matchContains_iff v u, matchEach_iff vs us]

end

theorem sublist_forall₂ {R : Json → Json → Prop} {us vs ws : List Json} (hsub : us.Sublist vs)
    (h : List.Forall₂ R vs ws) : ∃ xs, xs.Sublist ws ∧ List.Forall₂ R us xs := by
  induction hsub generalizing ws with
  | slnil => exact ⟨[], List.nil_sublist ws, .nil⟩
  | cons v hsub ih =>
    cases h with
    | cons hv hrest =>
      obtain ⟨xs, hxs, hus⟩ := ih hrest
      exact ⟨xs, hxs.cons _, hus⟩
  | cons_cons v hsub ih =>
    cases h with
    | cons hv hrest =>
      obtain ⟨xs, hxs, hus⟩ := ih hrest
      exact ⟨_ :: xs, hxs.cons_cons _, .cons hv hus⟩

mutual

theorem Embeds.trans : ∀ {u v w : Json}, Embeds value u v → Embeds value v w → Embeds value u w
  | .obj fs, v, w, huv, hvw => by
    cases v with
    | obj gs =>
      cases w with
      | obj hs =>
        rw [Embeds] at huv hvw ⊢
        exact FieldsEmbed.trans huv hvw
      | null | bool _ | nan | infinity _ | int _ | float _ | str _ | arr _ => simp [Embeds] at hvw
    | null | bool _ | nan | infinity _ | int _ | float _ | str _ | arr _ => simp [Embeds] at huv
  | .arr us, v, w, huv, hvw => by
    cases v with
    | arr vs =>
      cases w with
      | arr ws =>
        rw [Embeds] at huv hvw ⊢
        obtain ⟨vs', hsub, hus⟩ := huv
        obtain ⟨ws', hsub', hvs⟩ := hvw
        obtain ⟨xs, hxs, hitems⟩ := sublist_forall₂ hsub (itemsEmbed_iff.mp hvs)
        exact ⟨xs, hxs.trans hsub', ItemsEmbed.trans hus (itemsEmbed_iff.mpr hitems)⟩
      | null | bool _ | nan | infinity _ | int _ | float _ | str _ | obj _ => simp [Embeds] at hvw
    | null | bool _ | nan | infinity _ | int _ | float _ | str _ | obj _ => simp [Embeds] at huv
  | .null, _, _, huv, hvw => scalar_trans rfl huv hvw
  | .bool _, _, _, huv, hvw => scalar_trans rfl huv hvw
  | .nan, _, _, huv, hvw => scalar_trans rfl huv hvw
  | .infinity _, _, _, huv, hvw => scalar_trans rfl huv hvw
  | .int _, _, _, huv, hvw => scalar_trans rfl huv hvw
  | .float _, _, _, huv, hvw => scalar_trans rfl huv hvw
  | .str _, _, _, huv, hvw => scalar_trans rfl huv hvw

theorem FieldsEmbed.trans : ∀ {fs gs hs : List (Str × Json)},
    FieldsEmbed value fs gs → FieldsEmbed value gs hs → FieldsEmbed value fs hs
  | [], _, _, _, _ => trivial
  | (k, u) :: fs, gs, hs, huv, hvw => by
    obtain ⟨⟨v, hv, hu⟩, hfs⟩ := huv
    obtain ⟨l, r, rfl, -⟩ := List.lookup_eq_some_iff.mp hv
    obtain ⟨w, hw, hwv⟩ := fieldsEmbed_iff.mp hvw (k, v) (by simp)
    exact ⟨⟨w, hw, Embeds.trans hu hwv⟩, FieldsEmbed.trans hfs hvw⟩

theorem ItemsEmbed.trans : ∀ {us vs ws : List Json},
    ItemsEmbed value us vs → ItemsEmbed value vs ws → ItemsEmbed value us ws
  | [], vs, ws, huv, hvw => by
    cases itemsEmbed_iff.mp huv with
    | nil => exact hvw
  | u :: us, vs, ws, huv, hvw => by
    cases vs with
    | nil => exact huv.elim
    | cons v vs =>
      cases ws with
      | nil => exact hvw.elim
      | cons w ws => exact ⟨Embeds.trans huv.1 hvw.1, ItemsEmbed.trans huv.2 hvw.2⟩

end

theorem keys_of_wf {fs : List (Str × Json)} (h : Json.wf (.obj fs) = true) :
    (fs.map Prod.fst).Nodup := by
  rw [Json.wf, Bool.and_eq_true, decide_eq_true_eq] at h
  exact h.1

mutual

theorem embeds_of_sortKeys : ∀ {v w : Json}, Json.wf w = true → numeric v = true →
    sortKeys v = sortKeys w → Embeds value v w
  | .obj fs, w, hw, hn, he => by
    cases w with
    | obj gs =>
      rw [Embeds]
      rw [sortKeys, sortKeys, Json.obj.injEq] at he
      have hp : (sortKeysFields fs).Perm (sortKeysFields gs) :=
        (sortFields_perm _).symm.trans (he ▸ sortFields_perm _)
      refine fieldsEmbed_of_sortKeys hw hn (fun f hf => ?_)
      have hmem : (f.1, sortKeys f.2) ∈ sortKeysFields gs := by
        refine hp.subset ?_
        rw [sortKeysFields_eq]
        exact List.mem_map_of_mem hf
      rw [sortKeysFields_eq] at hmem
      obtain ⟨g, hg, heq⟩ := List.mem_map.mp hmem
      obtain ⟨hk, hv⟩ := Prod.ext_iff.mp heq
      exact ⟨g.2, hk ▸ hg, hv.symm⟩
    | null | bool _ | nan | infinity _ | int _ | float _ | str _ | arr _ => simp [sortKeys] at he
  | .arr vs, w, hw, hn, he => by
    cases w with
    | arr ws =>
      rw [Embeds]
      rw [sortKeys, sortKeys, Json.arr.injEq] at he
      exact ⟨ws, List.Sublist.refl ws, itemsEmbed_of_sortKeys hw hn he⟩
    | null | bool _ | nan | infinity _ | int _ | float _ | str _ | obj _ => simp [sortKeys] at he
  | .null, _, _, hn, he => embeds_of_scalar rfl hn he
  | .bool _, _, _, hn, he => embeds_of_scalar rfl hn he
  | .nan, _, _, hn, he => embeds_of_scalar rfl hn he
  | .infinity _, _, _, hn, he => embeds_of_scalar rfl hn he
  | .int _, _, _, hn, he => embeds_of_scalar rfl hn he
  | .float _, _, _, hn, he => embeds_of_scalar rfl hn he
  | .str _, _, _, hn, he => embeds_of_scalar rfl hn he

theorem fieldsEmbed_of_sortKeys : ∀ {fs gs : List (Str × Json)}, Json.wf (.obj gs) = true →
    numericFields fs = true → (∀ f ∈ fs, ∃ w, (f.1, w) ∈ gs ∧ sortKeys f.2 = sortKeys w) →
    FieldsEmbed value fs gs
  | [], _, _, _, _ => trivial
  | (k, v) :: fs, gs, hw, hn, h => by
    rw [numericFields, Bool.and_eq_true] at hn
    obtain ⟨w, hmem, he⟩ := h (k, v) List.mem_cons_self
    have hlook : gs.lookup k = some w := BoundedSearch.lookup_of_mem (keys_of_wf hw) hmem
    refine ⟨⟨w, hlook, ?_⟩, ?_⟩
    · exact embeds_of_sortKeys (wf_lookup hw hlook) hn.1 he
    · exact fieldsEmbed_of_sortKeys hw hn.2 (fun f hf => h f (List.mem_cons_of_mem _ hf))

theorem itemsEmbed_of_sortKeys : ∀ {vs ws : List Json}, Json.wfItems ws = true →
    numericItems vs = true → sortKeysItems vs = sortKeysItems ws → ItemsEmbed value vs ws
  | [], ws, _, _, he => by
    cases ws with
    | nil => trivial
    | cons w ws => simp [sortKeysItems] at he
  | v :: vs, ws, hw, hn, he => by
    cases ws with
    | nil => simp [sortKeysItems] at he
    | cons w ws =>
      rw [Json.wfItems, Bool.and_eq_true] at hw
      rw [numericItems, Bool.and_eq_true] at hn
      rw [sortKeysItems, sortKeysItems, List.cons.injEq] at he
      exact ⟨embeds_of_sortKeys hw.1 hn.1 he.1, itemsEmbed_of_sortKeys hw.2 hn.2 he.2⟩

end

theorem embeds_refl {v : Json} (hv : Json.wf v = true) (hn : numeric v = true) :
    Embeds value v v := embeds_of_sortKeys hv hn rfl

theorem embeds_of_canonicalJson {v w : Json} (hv : Json.wf v = true) (hw : Json.wf w = true)
    (hn : numeric v = true) (h : canonicalJson v = canonicalJson w) : Embeds value v w :=
  embeds_of_sortKeys hw hn
    (Json.render_injective canonicalStyle (sortKeys_wf _ hv) (sortKeys_wf _ hw) h)

end embeddings

section runner

variable (py : PyText) (float : PyFloat)

inductive Status where
  | pass
  | fail
  | warn
deriving DecidableEq

inductive Diff where
  | missing (actual : Json)
  | mismatch (expected actual : Json)

structure TestResult where
  testId : Str
  stability : Str
  intentRefs : List Str
  status : Status
  reason : Str
  diff : Option Diff

def asMapping : Option Json → Option (List (Str × Json))
  | some (.obj fs) => some fs
  | _ => none

def asSequence : Option Json → Option (List Json)
  | some (.arr vs) => some vs
  | _ => none

def documentOf (v : Option Json) : Document := (v.bind Document.ofJson?).getD Document.empty

def normalizeInputs (test : List (Str × Json)) : Document × Document :=
  match (asMapping (test.lookup "inputs".toList)).or (asMapping (test.lookup "input".toList)) with
  | none => (Document.empty, Document.empty)
  | some inputs =>
    (documentOf (inputs.lookup "obs".toList), documentOf (inputs.lookup "state".toList))

def normalizeExpected (test : List (Str × Json)) : Option (List (Str × Json)) :=
  (asMapping (test.lookup "expected".toList)).or (asMapping (test.lookup "expect".toList))

def textOr (fields : List (Str × Json)) (key : String) (default : String) : Str :=
  ((fields.lookup key.toList).map py.str).getD default.toList

def judge (expected : Option (List (Str × Json))) (actual : ActionLog) :
    Bool × Str × Option Diff :=
  match expected with
  | none => (false, "missing expected/expect block".toList, some (.missing actual.json))
  | some expected =>
    let mode := textOr py expected "mode" "exact"
    let log := orNone expected "action_log"
    let diff := some (.mismatch log actual.json)
    if mode = "exact".toList then
      if actual.bytes = canonicalJson log then (true, "ok".toList, none)
      else (false, "exact mismatch".toList, diff)
    else if mode = "contains".toList then
      if matchContains (floatValue float) log actual.json then (true, "ok".toList, none)
      else (false, "contains mismatch".toList, diff)
    else (false, "unsupported expect mode '".toList ++ mode ++ "'".toList, diff)

def statusOf (stability : Str) : Bool → Status
  | true => .pass
  | false => if stability = "evolving".toList then .warn else .fail

def resultOf (test : List (Str × Json)) (actual : ActionLog) : TestResult :=
  let stability := textOr py test "stability" ""
  let verdict := judge py float (normalizeExpected test) actual
  { testId := textOr py test "id" ""
    stability := stability
    intentRefs := ((asSequence (test.lookup "intent_refs".toList)).getD []).map py.str
    status := statusOf stability verdict.1
    reason := verdict.2.1
    diff := verdict.2.2 }

def runTest (rules : List Rule) (test : List (Str × Json)) : Except Error TestResult := do
  let inputs := normalizeInputs test
  let actual ← evaluateRules py float (envOf inputs.1 inputs.2) rules {}
  return resultOf py float test actual

def TestResult.blocking (r : TestResult) : Bool :=
  r.status = .fail && (r.stability = "hard".toList || r.stability = "compat".toList)

structure PolicyRunOutcome where
  exitCode : ℕ
  passed : ℕ
  failed : ℕ
  warnings : ℕ
  results : List TestResult

def outcomeOf (results : List TestResult) : PolicyRunOutcome :=
  { exitCode := if results.any TestResult.blocking then 1 else 0
    passed := results.countP (fun r => r.status = .pass)
    failed := results.countP (fun r => r.status = .fail)
    warnings := results.countP (fun r => r.status = .warn)
    results := results }

def testsOf (suite : Document) : Except Error (List (List (Str × Json))) :=
  match asMapping (suite.get? "spec".toList) with
  | none => .error (.valueError "suite.spec must be an object")
  | some spec =>
    match asSequence (spec.lookup "tests".toList) with
    | none => .error (.valueError "suite.spec.tests must be an array")
    | some tests => .ok (mappings tests)

def runTestSuite (suite policy : Document) : Except Error PolicyRunOutcome := do
  let tests ← testsOf suite
  let rules ← normalizeRules py float (policy.get? "rules".toList)
  return outcomeOf (← tests.mapM (runTest py float rules))

structure Relaxes (test test' : List (Str × Json)) : Prop where
  inputs : normalizeInputs test' = normalizeInputs test
  logs : ∃ e e', normalizeExpected test = some e ∧ normalizeExpected test' = some e' ∧
    textOr py e "mode" "exact" = "exact".toList ∧ textOr py e' "mode" "exact" = "contains".toList ∧
    orNone e' "action_log" = orNone e "action_log" ∧ numeric (orNone e "action_log") = true

end runner

section suites

variable {py : PyText} {float : PyFloat} {test test' : List (Str × Json)} {rules : List Rule}
  {log : ActionLog} {policy suite : Document}

theorem asMapping_wf {fs gs : List (Str × Json)} (h : Json.wf (.obj fs) = true) {key : Str}
    (hg : asMapping (fs.lookup key) = some gs) : Json.wf (.obj gs) = true := by
  cases hv : fs.lookup key with
  | none =>
    rw [hv] at hg
    cases hg
  | some v =>
    have hw := wf_lookup h hv
    rw [hv] at hg
    cases v with
    | obj hs =>
      cases hg
      exact hw
    | null | bool _ | nan | infinity _ | int _ | float _ | str _ | arr _ => cases hg

theorem normalizeExpected_wf {e : List (Str × Json)} (h : Json.wf (.obj test) = true)
    (he : normalizeExpected test = some e) : Json.wf (.obj e) = true := by
  rw [normalizeExpected, Option.or_eq_some_iff] at he
  obtain he | ⟨-, he⟩ := he
  · exact asMapping_wf h he
  · exact asMapping_wf h he

theorem testsOf_wf {tests : List (List (Str × Json))} (h : testsOf suite = .ok tests) :
    ∀ test ∈ tests, Json.wf (.obj test) = true := by
  rw [testsOf] at h
  cases hs : asMapping (suite.get? "spec".toList) with
  | none =>
    rw [hs] at h
    cases h
  | some spec =>
    have hspec := asMapping_wf suite.wf hs
    simp only [hs] at h
    cases ht : spec.lookup "tests".toList with
    | none =>
      rw [ht] at h
      cases h
    | some v =>
      have hw := wf_lookup hspec ht
      rw [ht] at h
      cases v with
      | arr vs =>
        cases h
        exact fun test htest => mappings_wf hw htest
      | null | bool _ | nan | infinity _ | int _ | float _ | str _ | obj _ => cases h

theorem actual_wf {obs state : Document}
    (hrules : normalizeRules py float (policy.get? "rules".toList) = .ok rules)
    (h : evaluateRules py float (envOf obs state) rules {} = .ok log) :
    Json.wf log.json = true := by
  have hlog : evaluate py float (policy.get? "rules".toList) obs state = .ok log :=
    Fallible.bind_eq_ok.mpr ⟨rules, hrules, h⟩
  obtain ⟨-, rfl⟩ := evaluate_ok.mp hlog
  exact sortedLog_wf (rawsOf_wf policy)

theorem statusOf_pass {stability : Str} {b : Bool} : statusOf stability b = .pass ↔ b = true := by
  cases b with
  | true => simp [statusOf]
  | false =>
    rw [statusOf]
    split_ifs <;> simp

theorem judge_exact {e : List (Str × Json)}
    (hmode : textOr py e "mode" "exact" = "exact".toList) :
    (judge py float (some e) log).1 = true ↔ log.bytes = canonicalJson (orNone e "action_log") := by
  simp only [judge, if_pos hmode]
  split_ifs with h <;> simp [h]

theorem judge_contains {e : List (Str × Json)}
    (hmode : textOr py e "mode" "exact" = "contains".toList) :
    (judge py float (some e) log).1 =
      matchContains (floatValue float) (orNone e "action_log") log.json := by
  have hne : "contains".toList ≠ "exact".toList := by decide
  simp only [judge, hmode, if_neg hne, if_true]
  split_ifs with h <;> simp [h]

theorem Relaxes.judged (h : Relaxes py test test') (hwf : Json.wf (.obj test) = true)
    (hlog : Json.wf log.json = true)
    (hpass : (judge py float (normalizeExpected test) log).1 = true) :
    (judge py float (normalizeExpected test') log).1 = true := by
  obtain ⟨e, e', he, he', hexact, hcontains, hsame, hnum⟩ := h.logs
  rw [he, judge_exact hexact] at hpass
  rw [he', judge_contains hcontains, hsame, matchContains_iff]
  exact embeds_of_canonicalJson (orNone_wf (normalizeExpected_wf hwf he) _) hlog hnum hpass.symm

theorem Relaxes.runTest {r : TestResult} (h : Relaxes py test test')
    (hwf : Json.wf (.obj test) = true)
    (hrules : normalizeRules py float (policy.get? "rules".toList) = .ok rules)
    (hr : runTest py float rules test = .ok r) :
    ∃ r', Policy.runTest py float rules test' = .ok r' ∧ (r.status = .pass → r'.status = .pass) := by
  obtain ⟨log, hlog, hres⟩ := Fallible.bind_eq_ok.mp hr
  cases hres
  refine ⟨resultOf py float test' log, Fallible.bind_eq_ok.mpr ⟨log, ?_, rfl⟩, ?_⟩
  · rw [h.inputs]
    exact hlog
  · simp only [resultOf, statusOf_pass]
    exact h.judged hwf (actual_wf hrules hlog)

theorem runTestSuite_ok {outcome : PolicyRunOutcome} :
    runTestSuite py float suite policy = .ok outcome ↔ ∃ tests rules results,
      testsOf suite = .ok tests ∧ normalizeRules py float (policy.get? "rules".toList) = .ok rules ∧
      List.Forall₂ (fun t r => runTest py float rules t = .ok r) tests results ∧
      outcomeOf results = outcome := by
  rw [runTestSuite]
  simp only [Fallible.bind_eq_ok, Fallible.mapM_eq_ok]
  constructor
  · rintro ⟨tests, ht, rules, hr, results, hres, ho⟩
    exact ⟨tests, rules, results, ht, hr, hres, Except.ok.inj ho⟩
  · rintro ⟨tests, rules, results, ht, hr, hres, rfl⟩
    exact ⟨tests, ht, rules, hr, results, hres, rfl⟩

theorem relaxed_results {tests tests' : List (List (Str × Json))} {results : List TestResult}
    (h : List.Forall₂ (fun t t' => t' = t ∨ Relaxes py t t') tests tests')
    (hwf : ∀ test ∈ tests, Json.wf (.obj test) = true)
    (hrules : normalizeRules py float (policy.get? "rules".toList) = .ok rules)
    (hr : List.Forall₂ (fun t r => runTest py float rules t = .ok r) tests results) :
    ∃ results', List.Forall₂ (fun t r => runTest py float rules t = .ok r) tests' results' ∧
      List.Forall₂ (fun r r' : TestResult => r.status = .pass → r'.status = .pass)
        results results' := by
  induction h generalizing results with
  | nil =>
    cases hr
    exact ⟨[], .nil, .nil⟩
  | cons hstep _ ih =>
    cases hr with
    | cons hfirst hrest =>
      obtain ⟨hw, hws⟩ := List.forall_mem_cons.mp hwf
      obtain ⟨rs, hrs, hpass⟩ := ih hws hrest
      rcases hstep with rfl | hrel
      · exact ⟨_ :: rs, .cons hfirst hrs, .cons id hpass⟩
      · obtain ⟨r', hr', hp⟩ := hrel.runTest hw hrules hfirst
        exact ⟨r' :: rs, .cons hr' hrs, .cons hp hpass⟩

end suites

theorem contains_mode_complete (py : PyText) (float : PyFloat) :
    (∀ v w : Json, matchContains (floatValue float) v w = true ↔ Embeds (floatValue float) v w) ∧
    (∀ v : Json, Json.wf v = true → numeric v = true →
      matchContains (floatValue float) v v = true) ∧
    (∀ u v w : Json, matchContains (floatValue float) u v = true →
      matchContains (floatValue float) v w = true → matchContains (floatValue float) u w = true) ∧
    ∀ (policy suite suite' : Document) (tests tests' : List (List (Str × Json)))
      (outcome : PolicyRunOutcome), testsOf suite = .ok tests → testsOf suite' = .ok tests' →
      List.Forall₂ (fun t t' => t' = t ∨ Relaxes py t t') tests tests' →
      runTestSuite py float suite policy = .ok outcome →
      ∃ outcome', runTestSuite py float suite' policy = .ok outcome' ∧
        List.Forall₂ (fun r r' : TestResult => r.status = .pass → r'.status = .pass)
          outcome.results outcome'.results := by
  refine ⟨matchContains_iff, ?_, ?_, ?_⟩
  · intro v hv hn
    exact (matchContains_iff v v).mpr (embeds_refl hv hn)
  · intro u v w huv hvw
    rw [matchContains_iff] at huv hvw ⊢
    exact huv.trans hvw
  · intro policy suite suite' tests tests' outcome ht ht' hrel hrun
    obtain ⟨ts, rules, results, hts, hrules, hresults, rfl⟩ := runTestSuite_ok.mp hrun
    cases ht.symm.trans hts
    obtain ⟨results', hresults', hpass⟩ :=
      relaxed_results hrel (testsOf_wf ht) hrules hresults
    exact ⟨outcomeOf results',
      runTestSuite_ok.mpr ⟨tests', rules, results', ht', hrules, hresults', rfl⟩, hpass⟩

end TraceMind.Policy
