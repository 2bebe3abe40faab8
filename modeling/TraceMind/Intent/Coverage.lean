import TraceMind.Intent.TreeSpec

namespace TraceMind.Intent

open Artifacts (JsonFields sortTexts)

def extractIntentNodes (payload : JsonFields) : List JsonFields :=
  ((extractIntents payload).getD []).filterMap asObject

def extractParentIntent (intent : JsonFields) : Option Str :=
  match (objectAt "trace_links" intent).bind (nonemptyAt "parent_intent") with
  | some parent => some parent
  | none =>
    match ((objectAt "metadata" intent).bind (objectAt "trace_links")).bind
        (nonemptyAt "parent_intent") with
    | some parent => some parent
    | none =>
      ((objectAt "spec" intent).bind (objectAt "trace_links")).bind (nonemptyAt "parent_intent")

def isTestSuite (payload : JsonFields) : Except Err Bool :=
  match payload.lookup "kind".toList with
  | none => .ok true
  | some .null => .ok true
  | some (.str s) => .ok (s = "TestSuite".toList)
  | some (.arr _) => .error (.typeError "unhashable type: 'list'")
  | some (.obj _) => .error (.typeError "unhashable type: 'dict'")
  | some _ => .ok false

def nonemptyTexts (items : List Json) : List Str :=
  items.filterMap (fun v =>
    match v with
    | .str (c :: cs) => some (c :: cs)
    | _ => none)

def testRow (name : Str) (e : Json × ℕ) : Option (Str × List Str) :=
  (asObject e.1).map (fun test =>
    ((nonemptyAt "id" test).getD (name ++ "#test-".toList ++ Json.intText e.2),
      nonemptyTexts ((arrayAt "intent_refs" test).getD [])))

def extractTests (suite : Str × JsonFields) : Except Err (List (Str × List Str)) :=
  (isTestSuite suite.2).map (fun known =>
    if known then
      (((objectAt "spec" suite.2).bind (arrayAt "tests")).getD []).zipIdx.filterMap
        (testRow suite.1)
    else [])

def collectTests (suites : List (Str × JsonFields)) : Except Err (List (Str × List Str)) :=
  (suites.mapM extractTests).map List.flatten

structure PolicyRefs where
  total : ℕ
  withRefs : ℕ
  refs : List Str

def extractPolicyRuleRefs (payload : JsonFields) : PolicyRefs :=
  let rules := ((arrayAt "rules" payload).getD []).filterMap asObject
  let current := rules.map (fun rule => nonemptyTexts ((arrayAt "intent_refs" rule).getD []))
  ⟨rules.length, current.countP (fun refs => !refs.isEmpty), current.flatten⟩

structure CoverageSummary where
  totalIntents : ℕ
  leafIntents : ℕ
  testsScanned : ℕ
  testsWithoutIntents : ℕ
  intentsWithoutTests : ℕ
  uncoveredLeafIntents : ℕ
  policyRulesScanned : ℕ
  policyRulesWithIntentRefs : ℕ
  policyUnknownIntentRefs : ℕ
  warnings : ℕ

structure IntentCoverageOutcome where
  exitCode : ℕ
  uncoveredLeafIntents : List Str
  intentsWithoutTests : List Str
  testsWithoutIntents : List Str
  warnings : List Str
  summary : CoverageSummary

def intentIds (payload : JsonFields) : List Str :=
  ((extractIntentNodes payload).filterMap (nonemptyAt "id")).dedup

def parentIds (payload : JsonFields) : List Str :=
  (extractIntentNodes payload).filterMap (fun node =>
    (nonemptyAt "id" node).bind (fun _ => extractParentIntent node))

def leafIds (payload : JsonFields) : List Str :=
  sortTexts ((intentIds payload).filter (· ∉ parentIds payload))

def coveredByTests (existing : List Str) (tests : List (Str × List Str)) : List Str :=
  (tests.flatMap Prod.snd).filter (· ∈ existing)

def testsWithoutIntents (existing : List Str) (tests : List (Str × List Str)) : List Str :=
  ((tests.filter (fun t => t.2.any (· ∉ existing))).map Prod.fst).dedup

def warningOf (name : String) (ids : List Str) : List Str :=
  if ids.isEmpty then [] else [name.toList ++ ": ".toList ++ [','].intercalate ids]

def coverageOutcome (intents : JsonFields) (tests : List (Str × List Str))
    (policy : Option JsonFields) : IntentCoverageOutcome :=
  let existing := intentIds intents
  let leaves := leafIds intents
  let covered := coveredByTests existing tests
  let withoutIntents := sortTexts (testsWithoutIntents existing tests)
  let withoutTests := sortTexts (existing.filter (· ∉ covered))
  let uncovered := sortTexts (leaves.filter (· ∉ covered))
  let nonLeafUncovered := sortTexts (withoutTests.filter (· ∉ leaves))
  let rules := (policy.map extractPolicyRuleRefs).getD ⟨0, 0, []⟩
  let unknown := sortTexts (rules.refs.filter (· ∉ existing)).dedup
  let warnings := warningOf "non_leaf_intents_without_tests" nonLeafUncovered ++
    warningOf "policy_unknown_intent_refs" unknown
  { exitCode := if uncovered.isEmpty then 0 else 1
    uncoveredLeafIntents := uncovered
    intentsWithoutTests := withoutTests
    testsWithoutIntents := withoutIntents
    warnings := warnings
    summary := {
      totalIntents := existing.length
      leafIntents := leaves.length
      testsScanned := tests.length
      testsWithoutIntents := withoutIntents.length
      intentsWithoutTests := withoutTests.length
      uncoveredLeafIntents := uncovered.length
      policyRulesScanned := rules.total
      policyRulesWithIntentRefs := rules.withRefs
      policyUnknownIntentRefs := unknown.length
      warnings := warnings.length } }

def computeIntentsCoverage (intents : JsonFields) (suites : List (Str × JsonFields))
    (policy : Option JsonFields) : Except Err IntentCoverageOutcome :=
  if (extractIntentNodes intents).isEmpty then .error (.valueError "intent tree missing intents[]")
  else (collectTests suites).bind (fun tests =>
    if tests.isEmpty then .error (.valueError "no TestSuite tests found")
    else .ok (coverageOutcome intents tests policy))

section places

variable {intent : JsonFields} {p : Str}

def linkMaps (intent : JsonFields) : List JsonFields :=
  (objectAt "trace_links" intent).toList ++
    ((objectAt "metadata" intent).bind (objectAt "trace_links")).toList ++
    ((objectAt "spec" intent).bind (objectAt "trace_links")).toList

theorem extractTraceLinks_fst (intent : JsonFields) (index : ℕ) :
    (extractTraceLinks intent index).1 = (linkMaps intent).headD [] := by
  rw [extractTraceLinks, linkMaps]
  cases objectAt "trace_links" intent with
  | some links => rfl
  | none =>
    cases (objectAt "metadata" intent).bind (objectAt "trace_links") with
    | some links => rfl
    | none => cases (objectAt "spec" intent).bind (objectAt "trace_links") <;> rfl

theorem extractParentIntent_eq (intent : JsonFields) :
    extractParentIntent intent = (linkMaps intent).findSome? (nonemptyAt "parent_intent") := by
  rw [extractParentIntent, linkMaps, List.findSome?_append, List.findSome?_append]
  have hone : ∀ o : Option JsonFields, o.toList.findSome? (nonemptyAt "parent_intent") =
      o.bind (nonemptyAt "parent_intent") := by
    intro o
    cases o with
    | none => rfl
    | some links =>
      rw [Option.toList_some, List.findSome?_cons, List.findSome?_nil, Option.bind_some]
      cases nonemptyAt "parent_intent" links <;> rfl
  rw [hone, hone, hone]
  cases (objectAt "trace_links" intent).bind (nonemptyAt "parent_intent") with
  | some parent => rfl
  | none =>
    cases ((objectAt "metadata" intent).bind (objectAt "trace_links")).bind
      (nonemptyAt "parent_intent") <;> rfl

theorem parentLink_named {links : JsonFields} :
    parentLink links = .named p ↔ nonemptyAt "parent_intent" links = some p := by
  rw [parentLink, nonemptyAt]
  generalize links.lookup "parent_intent".toList = v
  rcases v with - | v
  · simp
  · cases v with
    | str s => cases s <;> simp
    | _ => simp

theorem extractParentIntent_named {r : Row} (h : parentLink r.links = .named p) :
    extractParentIntent r.intent = some p := by
  rw [Row.links, extractTraceLinks_fst, parentLink_named] at h
  rw [extractParentIntent_eq]
  cases hm : linkMaps r.intent with
  | nil =>
    rw [hm] at h
    cases h
  | cons links rest =>
    rw [hm] at h
    rw [List.findSome?_cons, show nonemptyAt "parent_intent" links = some p from h]

end places

section agreement

variable {payload : JsonFields} {a b id : Str} {intent : JsonFields}

def treeRows (payload : JsonFields) : List Row := rowsOf ((extractIntents payload).getD [])

def CoverageParent (payload : JsonFields) (a b : Str) : Prop :=
  ∃ node ∈ extractIntentNodes payload, nonemptyAt "id" node = some a ∧
    extractParentIntent node = some b

theorem node_of_row {r : Row} (h : r ∈ treeRows payload) :
    r.intent ∈ extractIntentNodes payload ∧ nonemptyAt "id" r.intent = some r.id := by
  obtain ⟨e, he, rfl⟩ := List.mem_map.mp h
  obtain ⟨o, ho, hrow⟩ := List.mem_filterMap.mp he
  obtain ⟨id, hid, rfl⟩ := Option.map_eq_some_iff.mp hrow
  exact ⟨List.mem_filterMap.mpr ⟨_, mem_objectsOf ho, rfl⟩, hid⟩

theorem row_of_node (h : intent ∈ extractIntentNodes payload)
    (hid : nonemptyAt "id" intent = some id) : ∃ index, ⟨id, index, intent⟩ ∈ treeRows payload := by
  obtain ⟨v, hv, he⟩ := List.mem_filterMap.mp h
  cases v with
  | obj fields =>
    cases he
    obtain ⟨i, hi⟩ := objectsOf_mem hv
    exact ⟨i, List.mem_map.mpr ⟨(id, i, intent), List.mem_filterMap.mpr
      ⟨(i, intent), hi, Option.map_eq_some_iff.mpr ⟨id, hid, rfl⟩⟩, rfl⟩⟩
  | _ => cases he

theorem mem_treeIds : id ∈ idsOf (treeRows payload) ↔
    ∃ node ∈ extractIntentNodes payload, nonemptyAt "id" node = some id := by
  constructor
  · intro h
    obtain ⟨r, hr, rfl⟩ := List.mem_map.mp h
    exact ⟨r.intent, (node_of_row hr).1, (node_of_row hr).2⟩
  · rintro ⟨node, hnode, hid⟩
    obtain ⟨index, hr⟩ := row_of_node hnode hid
    exact List.mem_map.mpr ⟨_, hr, rfl⟩

theorem mem_intentIds : id ∈ intentIds payload ↔ id ∈ idsOf (treeRows payload) := by
  rw [intentIds, List.mem_dedup, List.mem_filterMap, mem_treeIds]

theorem mem_leafIds : id ∈ leafIds payload ↔
    id ∈ idsOf (treeRows payload) ∧ ∀ a, ¬CoverageParent payload a id := by
  have hparents : id ∈ parentIds payload ↔ ∃ a, CoverageParent payload a id := by
    rw [parentIds, List.mem_filterMap]
    constructor
    · rintro ⟨node, hnode, he⟩
      obtain ⟨a, ha, hp⟩ := Option.bind_eq_some_iff.mp he
      exact ⟨a, node, hnode, ha, hp⟩
    · rintro ⟨a, node, hnode, ha, hp⟩
      exact ⟨node, hnode, Option.bind_eq_some_iff.mpr ⟨a, ha, hp⟩⟩
  rw [leafIds, (Artifacts.sortTexts_perm _).mem_iff, List.mem_filter, decide_eq_true_eq,
    mem_intentIds, hparents, not_exists]

def RootNamesNoParent (payload : JsonFields) : Prop :=
  ∀ r, IsRoot (treeRows payload) r → ∀ links ∈ linkMaps r.intent,
    nonemptyAt "parent_intent" links = none

theorem coverageParent_iff (hparents : ∀ r ∈ treeRows payload, ParentOk (treeRows payload) r)
    (hroot : RootNamesNoParent payload) :
    CoverageParent payload a b ↔ Parent (treeRows payload) a b := by
  constructor
  · rintro ⟨node, hnode, hid, hp⟩
    obtain ⟨index, hr⟩ := row_of_node hnode hid
    refine ⟨_, hr, rfl, ?_⟩
    rcases hparents _ hr with hl | ⟨p, -, hl⟩
    · rw [extractParentIntent_eq, List.findSome?_eq_none_iff.mpr (hroot _ ⟨hr, hl⟩)] at hp
      cases hp
    · rw [hl, Option.some.inj ((extractParentIntent_named hl).symm.trans hp)]
  · rintro ⟨r, hr, rfl, hl⟩
    exact ⟨r.intent, (node_of_row hr).1, (node_of_row hr).2, extractParentIntent_named hl⟩

theorem rootNamesNoParent_of_iff
    (hids : (idsOf (treeRows payload)).Nodup)
    (h : ∀ a b, CoverageParent payload a b ↔ Parent (treeRows payload) a b) :
    RootNamesNoParent payload := by
  intro r hr
  rw [← List.findSome?_eq_none_iff, ← extractParentIntent_eq]
  cases hp : extractParentIntent r.intent with
  | none => rfl
  | some p =>
    have hcov : CoverageParent payload r.id p :=
      ⟨r.intent, (node_of_row hr.1).1, (node_of_row hr.1).2, hp⟩
    obtain ⟨c, hc, hid, hl⟩ := (h r.id p).mp hcov
    rw [row_of_id hids hc hr.1 hid, hr.2] at hl
    cases hl

theorem computeIntentsCoverage_ok {suites : List (Str × JsonFields)} {policy : Option JsonFields}
    {tests : List (Str × List Str)} {outcome : IntentCoverageOutcome}
    (htests : collectTests suites = .ok tests)
    (h : computeIntentsCoverage payload suites policy = .ok outcome) :
    outcome = coverageOutcome payload tests policy := by
  rw [computeIntentsCoverage, htests] at h
  split_ifs at h
  obtain ⟨found, he, hout⟩ := Fallible.bind_eq_ok.mp h
  cases he
  split_ifs at hout
  exact (Except.ok.inj hout).symm

theorem not_covered_iff {tests : List (Str × List Str)} (h : id ∈ idsOf (treeRows payload)) :
    id ∉ coveredByTests (intentIds payload) tests ↔ ∀ t ∈ tests, id ∉ t.2 := by
  have hid : id ∈ intentIds payload := mem_intentIds.mpr h
  rw [coveredByTests, List.mem_filter, decide_eq_true_eq, and_iff_left hid, List.mem_flatMap]
  simp only [not_exists, not_and]

structure CoverageAgrees (payload : JsonFields) : Prop where
  total : (validateIntentTree payload).isSome = true
  verdict : validateIntentTree payload = some [] ↔ TreePayload payload
  parents : validateIntentTree payload = some [] → ∀ a b,
    CoverageParent payload a b ↔ Parent (treeRows payload) a b
  leaves : validateIntentTree payload = some [] → ∀ id,
    id ∈ leafIds payload ↔ Leaf (treeRows payload) id
  report : validateIntentTree payload = some [] → ∀ suites policy tests outcome,
    collectTests suites = .ok tests → computeIntentsCoverage payload suites policy = .ok outcome →
      ∀ id, id ∈ outcome.uncoveredLeafIntents ↔
        Leaf (treeRows payload) id ∧ ∀ t ∈ tests, id ∉ t.2

theorem coverage_agrees_iff (payload : JsonFields) :
    CoverageAgrees payload ↔ (TreePayload payload → RootNamesNoParent payload) := by
  obtain ⟨htotal, hverdict⟩ := validateIntentTree_iff payload
  have htree : TreePayload payload → IsTree ((extractIntents payload).getD []) := by
    rintro ⟨items, hitems, ht⟩
    rw [hitems]
    exact ht
  constructor
  · intro h ht
    exact rootNamesNoParent_of_iff (htree ht).unique (h.parents (hverdict.mpr ht))
  · intro h
    have hparents : validateIntentTree payload = some [] → ∀ a b,
        CoverageParent payload a b ↔ Parent (treeRows payload) a b := by
      intro hv a b
      have ht := hverdict.mp hv
      exact coverageParent_iff (htree ht).parents (h ht)
    have hleaves : validateIntentTree payload = some [] → ∀ id,
        id ∈ leafIds payload ↔ Leaf (treeRows payload) id := by
      intro hv id
      rw [mem_leafIds, Leaf]
      simp only [hparents hv]
    refine ⟨htotal, hverdict, hparents, hleaves, ?_⟩
    intro hv suites policy tests outcome htests hout id
    have hmem : id ∈ outcome.uncoveredLeafIntents ↔ id ∈ sortTexts ((leafIds payload).filter
        (· ∉ coveredByTests (intentIds payload) tests)) := by
      rw [computeIntentsCoverage_ok htests hout]
      rfl
    rw [hmem, (Artifacts.sortTexts_perm _).mem_iff, List.mem_filter, hleaves hv,
      decide_eq_true_eq]
    exact and_congr_right (fun hleaf => not_covered_iff hleaf.1)

def rootInMetadata : JsonFields :=
  [("intents".toList, .arr [
    .obj [("id".toList, .str ['A']), ("trace_links".toList, .obj []),
      ("metadata".toList, .obj [("trace_links".toList,
        .obj [("parent_intent".toList, .str ['B'])])])],
    .obj [("id".toList, .str ['B']), ("success_criteria".toList, .arr []),
      ("trace_links".toList, .obj [("parent_intent".toList, .str ['A'])])]])]

theorem rootInMetadata_leaf : Leaf (treeRows rootInMetadata) ['B'] := by
  have hnone : (treeRows rootInMetadata).all (fun r => parentLink r.links ≠ .named ['B']) = true :=
    by decide +kernel
  refine ⟨by decide +kernel, ?_⟩
  rintro a ⟨r, hr, -, hl⟩
  exact of_decide_eq_true (List.all_eq_true.mp hnone r hr) hl

theorem leaf_lost_to_metadata : ¬CoverageAgrees rootInMetadata := by
  intro h
  have haccepted : validateIntentTree rootInMetadata = some [] := by decide +kernel
  have hnone : leafIds rootInMetadata = [] := by decide +kernel
  have hleaf := (h.leaves haccepted ['B']).mpr rootInMetadata_leaf
  rw [hnone] at hleaf
  cases hleaf

end agreement

end TraceMind.Intent
