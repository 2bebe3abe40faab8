import TraceMind.Intent.Completeness

namespace TraceMind.Intent

open Queue (Document PyFloat PyText Error)

section diff

def severityRank : Severity → ℕ
  | .off => 0
  | .warn => 1
  | .error => 2

structure ProfileChange where
  kind : Str
  target : Str
  before : Option Str
  after : Option Str
  weakens : Bool
  note : Str

structure ProfileChangeImpact where
  profileId : Str
  operation : Str
  baselineProfile : Str
  changes : List ProfileChange

namespace ProfileChangeImpact

def weakensGate (m : ProfileChangeImpact) : Bool := m.changes.any (·.weakens)

end ProfileChangeImpact

variable (baseline proposed : Profile)

def severityChange (d : Dimension) : Option ProfileChange :=
  let b := baseline.severity d
  let a := proposed.severity d
  if a = b then none
  else
    let weakens : Bool := severityRank a < severityRank b
    some {
      kind := "severity".toList
      target := d.value
      before := some b.value
      after := some a.value
      weakens
      note := if weakens then "downgrade weakens gate".toList
        else "upgrade strengthens gate".toList }

def droppedSlot (slot : Str) : ProfileChange where
  kind := "required_slot".toList
  target := slot
  before := some "required".toList
  after := none
  weakens := true
  note := "dropped required slot weakens gate".toList

def addedSlot (slot : Str) : ProfileChange where
  kind := "required_slot".toList
  target := slot
  before := none
  after := some "required".toList
  weakens := false
  note := "added required slot strengthens gate".toList

def sortedDiff (xs ys : List Str) : List Str :=
  Artifacts.sortTexts (xs.dedup.filter (· ∉ ys))

def targetChange : List ProfileChange :=
  if baseline.requiredSlotsDimension = proposed.requiredSlotsDimension then []
  else
    let targetOff : Bool := proposed.severity proposed.requiredSlotsDimension = .off
    [{
      kind := "required_slots_dimension".toList
      target := proposed.requiredSlotsDimension.value
      before := some baseline.requiredSlotsDimension.value
      after := some proposed.requiredSlotsDimension.value
      weakens := targetOff
      note :=
        if targetOff then
          "retargeted onto an off dimension; required-slot enforcement disabled".toList
        else "retargeted required-slot enforcement".toList }]

def diffProfiles (operation : Str) : ProfileChangeImpact where
  profileId := proposed.profileId
  operation
  baselineProfile := baseline.profileId
  changes :=
    allDimensions.filterMap (severityChange baseline proposed) ++
      (sortedDiff baseline.requiredSlots proposed.requiredSlots).map droppedSlot ++
      (sortedDiff proposed.requiredSlots baseline.requiredSlots).map addedSlot ++
      targetChange baseline proposed

end diff

section impact

variable {baseline proposed : Profile}

theorem severityChange_weakens {d : Dimension} :
    (∃ c, severityChange baseline proposed d = some c ∧ c.weakens = true) ↔
      severityRank (proposed.severity d) < severityRank (baseline.severity d) := by
  rw [severityChange]
  by_cases h : proposed.severity d = baseline.severity d
  · rw [if_pos h, h]
    simp
  · rw [if_neg h]
    constructor
    · rintro ⟨c, hc, hw⟩
      cases hc
      exact of_decide_eq_true hw
    · exact fun hlt => ⟨_, rfl, decide_eq_true hlt⟩

theorem sortedDiff_eq_nil {xs ys : List Str} : sortedDiff xs ys = [] ↔ ∀ s ∈ xs, s ∈ ys := by
  have hlen := (Artifacts.sortFields_perm ((xs.dedup.filter (· ∉ ys)).map (fun t => (t, ())))).length_eq
  rw [sortedDiff, Artifacts.sortTexts, List.map_eq_nil_iff, ← List.length_eq_zero_iff, hlen,
    List.length_map, List.length_eq_zero_iff, List.filter_eq_nil_iff]
  simp

theorem targetChange_weakens : (targetChange baseline proposed).any (·.weakens) = false ↔
    (baseline.requiredSlotsDimension ≠ proposed.requiredSlotsDimension →
      proposed.severity proposed.requiredSlotsDimension ≠ .off) := by
  rw [targetChange]
  by_cases h : baseline.requiredSlotsDimension = proposed.requiredSlotsDimension
  · rw [if_pos h]
    exact iff_of_true rfl (fun hne => absurd h hne)
  · rw [if_neg h, List.any_cons, List.any_nil, Bool.or_false]
    show decide (_ = _) = false ↔ _
    rw [decide_eq_false_iff_not]
    exact ⟨fun hne _ => hne, fun himp => himp h⟩

theorem weakensGate_iff {operation : Str} :
    (diffProfiles baseline proposed operation).weakensGate = false ↔
      (∀ d, severityRank (baseline.severity d) ≤ severityRank (proposed.severity d)) ∧
      (∀ s ∈ baseline.requiredSlots, s ∈ proposed.requiredSlots) ∧
      (baseline.requiredSlotsDimension ≠ proposed.requiredSlotsDimension →
        proposed.severity proposed.requiredSlotsDimension ≠ .off) := by
  have hsev : (allDimensions.filterMap (severityChange baseline proposed)).any (·.weakens) =
      false ↔ ∀ d, severityRank (baseline.severity d) ≤ severityRank (proposed.severity d) := by
    rw [List.any_eq_false]
    constructor
    · intro h d
      by_contra hlt
      obtain ⟨c, hc, hw⟩ := severityChange_weakens.mpr (not_le.mp hlt)
      exact h c (List.mem_filterMap.mpr ⟨d, mem_allDimensions d, hc⟩) hw
    · intro h c hc hw
      obtain ⟨d, -, hd⟩ := List.mem_filterMap.mp hc
      exact absurd (severityChange_weakens.mp ⟨c, hd, hw⟩) (not_lt.mpr (h d))
  have hdrop : ((sortedDiff baseline.requiredSlots proposed.requiredSlots).map droppedSlot).any
      (·.weakens) = false ↔ ∀ s ∈ baseline.requiredSlots, s ∈ proposed.requiredSlots := by
    rw [← sortedDiff_eq_nil, List.any_map, List.any_eq_false, List.eq_nil_iff_forall_not_mem]
    exact ⟨fun h s hs => h s hs rfl, fun h s hs => absurd hs (h s)⟩
  have hadd : ((sortedDiff proposed.requiredSlots baseline.requiredSlots).map addedSlot).any
      (·.weakens) = false := by
    rw [List.any_map, List.any_eq_false]
    exact fun s _ => Bool.false_ne_true
  rw [ProfileChangeImpact.weakensGate, diffProfiles, List.any_append, List.any_append,
    List.any_append, Bool.or_eq_false_iff, Bool.or_eq_false_iff, Bool.or_eq_false_iff, hsev, hdrop,
    hadd, targetChange_weakens]
  tauto

end impact

section gate

variable {py : PyText} {float : PyFloat} {rs : Resolvers} {baseline proposed : Profile}

def Sealed (py : PyText) (float : PyFloat) (rs : Resolvers) (ds : Dispositions) (profile : Profile)
    (i : Inputs) : Prop :=
  ∃ r, compute5w1hCompleteness py float rs .seal ds profile i = .ok r ∧ r.sealed = some true

theorem errors_eq_zero {j : Judged} {ds : Dispositions} : j.errors rs .seal ds = 0 ↔
    ∀ d, (j.verdict d).isError rs .seal (ds.get? d) = false := by
  rw [Judged.errors, List.countP_eq_zero]
  simp only [Bool.not_eq_true]
  exact ⟨fun h d => h d (mem_allDimensions d), fun h d _ => h d⟩

theorem sealed_iff {ds : Dispositions} {profile : Profile} {i : Inputs} :
    Sealed py float rs ds profile i ↔ ∃ raw missing, rawStatus py float i = .ok raw ∧
      missingRequiredSlots float i.body profile = .ok missing ∧
      ∀ d, profile.severity d = .error → Clean (raw d) (SlotsHit profile missing d) ∨
        DimensionVerdict.closedBy rs (ds.get? d) = true := by
  constructor
  · rintro ⟨r, hr, hseal⟩
    obtain ⟨j, hj, rfl⟩ := Fallible.map_eq_ok.mp hr
    obtain ⟨raw, hraw, hj⟩ := Fallible.bind_eq_ok.mp hj
    obtain ⟨missing, hmissing, hj⟩ := Fallible.bind_eq_ok.mp hj
    cases hj
    refine ⟨raw, missing, hraw, hmissing, fun d => ?_⟩
    have hzero := of_decide_eq_true (Option.some.inj hseal)
    exact isError_seal.mp (errors_eq_zero.mp hzero d)
  · rintro ⟨raw, missing, hraw, hmissing, hall⟩
    have hj : ∃ j, judge py float .seal profile i = .ok j ∧ j.verdict = fun d =>
        degraded profile missing d (verdictOf py .seal profile i.body d (raw d)) :=
      ⟨_, Fallible.bind_eq_ok.mpr ⟨raw, hraw, Fallible.bind_eq_ok.mpr ⟨missing, hmissing, rfl⟩⟩, rfl⟩
    obtain ⟨j, hj, hv⟩ := hj
    refine ⟨_, Fallible.map_eq_ok.mpr ⟨j, hj, rfl⟩, congrArg some (decide_eq_true ?_)⟩
    refine errors_eq_zero.mpr (fun d => ?_)
    rw [hv]
    exact isError_seal.mpr (hall d)

theorem missing_of_subset {body : Document} {missing : List Str}
    (hsub : ∀ s ∈ baseline.requiredSlots, s ∈ proposed.requiredSlots)
    (h : missingRequiredSlots float body proposed = .ok missing) :
    ∃ left, missingRequiredSlots float body baseline = .ok left ∧ ∀ s ∈ left, s ∈ missing := by
  by_cases hb : baseline.requiredSlots = []
  · refine ⟨[], ?_, fun s hs => absurd hs List.not_mem_nil⟩
    rw [missingRequiredSlots, hb]
    rfl
  · have hp : ¬proposed.requiredSlots.isEmpty = true := by
      obtain ⟨s, hs⟩ := List.exists_mem_of_ne_nil _ hb
      rw [List.isEmpty_iff]
      exact List.ne_nil_of_mem (hsub s hs)
    rw [missingRequiredSlots, if_neg hp] at h
    obtain ⟨keys, hkeys, rfl⟩ := Fallible.map_eq_ok.mp h
    refine ⟨baseline.requiredSlots.filter (· ∉ keys), ?_, fun s hs => ?_⟩
    · rw [missingRequiredSlots, if_neg (by simpa using hb)]
      exact Fallible.map_eq_ok.mpr ⟨keys, hkeys, rfl⟩
    · rw [List.mem_filter] at hs ⊢
      exact ⟨hsub s hs.1, hs.2⟩

def Upholds (py : PyText) (float : PyFloat) (rs : Resolvers) (baseline proposed : Profile) : Prop :=
  ∀ ds i, Sealed py float rs ds proposed i → Sealed py float rs ds baseline i

def TargetKept (baseline proposed : Profile) : Prop :=
  baseline.requiredSlotsDimension = proposed.requiredSlotsDimension ∨
    baseline.severity baseline.requiredSlotsDimension ≠ .error ∨ baseline.requiredSlots = []

theorem severity_error_of_rank {d : Dimension}
    (h : severityRank (baseline.severity d) ≤ severityRank (proposed.severity d))
    (hb : baseline.severity d = .error) : proposed.severity d = .error := by
  rw [hb] at h
  cases hp : proposed.severity d with
  | error => rfl
  | warn => rw [hp] at h; exact absurd h (by decide)
  | off => rw [hp] at h; exact absurd h (by decide)

theorem upholds_of_targetKept {operation : Str}
    (h : (diffProfiles baseline proposed operation).weakensGate = false)
    (hkept : TargetKept baseline proposed) : Upholds py float rs baseline proposed := by
  obtain ⟨hrank, hsub, -⟩ := weakensGate_iff.mp h
  intro ds i hp
  obtain ⟨raw, missing, hraw, hmissing, hall⟩ := sealed_iff.mp hp
  obtain ⟨left, hleft, hle⟩ := missing_of_subset hsub hmissing
  refine sealed_iff.mpr ⟨raw, left, hraw, hleft, fun d hd => ?_⟩
  rcases hall d (severity_error_of_rank (hrank d) hd) with (hna | ⟨hsat, hmiss⟩) | hclosed
  · exact Or.inl (Or.inl hna)
  · refine Or.inl (Or.inr ⟨hsat, ?_⟩)
    rintro ⟨hne, rfl⟩
    rcases hkept with heq | hsev | hnil
    · obtain ⟨s, hs⟩ := List.exists_mem_of_ne_nil left hne
      exact hmiss ⟨List.ne_nil_of_mem (hle s hs), heq⟩
    · exact hsev hd
    · rw [missingRequiredSlots, hnil] at hleft
      cases hleft
      exact hne rfl
  · exact Or.inr hclosed

def fullBody : Document :=
  ⟨[("actors".toList, .arr [.str "operator".toList]), ("context".toList, .str "c".toList),
    ("goal".toList, .str "g".toList), ("inputs".toList, .arr [.str "x".toList]),
    ("property_pattern_refs".toList, .arr [.str "p".toList])], rfl⟩

def fullPlan : Document :=
  ⟨[("rules".toList, .arr [.obj [("triggers".toList, .arr [.str "t".toList])]])], rfl⟩

def fullNetwork : Document := ⟨[("network_id".toList, .str "n".toList)], rfl⟩

def fullInputs : Inputs := ⟨fullBody, some fullPlan, some fullNetwork, fun _ => none⟩

theorem fullInputs_raw (py : PyText) (float : PyFloat) :
    ∃ raw, rawStatus py float fullInputs = .ok raw ∧ ∀ d, (raw d).status = .satisfied := by
  refine ⟨_, rfl, fun d => ?_⟩
  cases d <;> rfl

theorem fullInputs_missing (float : PyFloat) (profile : Profile) :
    missingRequiredSlots float fullBody profile = .ok profile.requiredSlots := by
  rw [missingRequiredSlots]
  split_ifs with h
  · rw [List.isEmpty_iff.mp h]
  · have hkeys : slotKeys (slotsOf float fullBody) = .ok [] := rfl
    rw [hkeys, Except.map]
    simp

def waiver : Disposition :=
  { kind := .waived, rationale := some "r".toList, signer := some "s".toList }

theorem targetKept_of_upholds (hup : Upholds py float rs baseline proposed) :
    TargetKept baseline proposed := by
  by_contra hnot
  rw [TargetKept, not_or, not_or, not_not] at hnot
  obtain ⟨hne, hsev, hslots⟩ := hnot
  obtain ⟨raw, hraw, hsat⟩ := fullInputs_raw py float
  let ds : Dispositions := [(proposed.requiredSlotsDimension, waiver)]
  have hp : Sealed py float rs ds proposed fullInputs := by
    refine sealed_iff.mpr ⟨raw, _, hraw, fullInputs_missing float proposed, fun d _ => ?_⟩
    by_cases hd : d = proposed.requiredSlotsDimension
    · rw [hd, Dispositions.get?, List.find?_cons_of_pos (by simp)]
      exact Or.inr rfl
    · exact Or.inl (Or.inr ⟨hsat d, fun hit => hd hit.2⟩)
  obtain ⟨raw', left, hraw', hleft, hall⟩ := sealed_iff.mp (hup ds fullInputs hp)
  cases (fullInputs_missing float baseline).symm.trans hleft
  cases hraw.symm.trans hraw'
  rcases hall _ hsev with (hna | ⟨-, hmiss⟩) | hclosed
  · rw [hsat] at hna
    cases hna
  · exact hmiss ⟨hslots, rfl⟩
  · rw [Dispositions.get?, List.find?_cons_of_neg (by simpa using Ne.symm hne)] at hclosed
    cases hclosed

end gate

theorem unflagged_change_upholds (py : PyText) (float : PyFloat) (rs : Resolvers)
    (baseline proposed : Profile) (operation : Str) :
    ((diffProfiles baseline proposed operation).weakensGate = false →
        Upholds py float rs baseline proposed) ↔
      ((diffProfiles baseline proposed operation).weakensGate = false →
        TargetKept baseline proposed) := by
  constructor
  · exact fun hup h => targetKept_of_upholds (hup h)
  · exact fun hkept h => upholds_of_targetKept h (hkept h)

def slotProfile (target : Dimension) : Profile where
  profileId := "demo".toList
  severities := fun _ => none
  requiredSlots := ["region".toList]
  vocabularyHints := fun _ => none
  heuristicKeywords := fun _ => []
  requiredSlotsDimension := target

def noResolvers : Resolvers := ⟨fun _ => false, "[]".toList⟩

theorem retarget_unflagged :
    let baseline := slotProfile .what
    let proposed := slotProfile .when
    (diffProfiles baseline proposed "update_profile".toList).weakensGate = false ∧
      Sealed Queue.plainPy (fun _ => none) noResolvers [] proposed fullInputs ∧
      ¬Sealed Queue.plainPy (fun _ => none) noResolvers [] baseline fullInputs := by
  refine ⟨by decide, ⟨_, rfl, by decide⟩, ?_⟩
  rintro ⟨r, hr, hseal⟩
  cases hr
  exact absurd hseal (by decide)

end TraceMind.Intent
