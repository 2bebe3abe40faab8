import TraceMind.Validate.Static

namespace TraceMind.Validate

open Artifacts (JsonFields sortTexts)
open Queue (PyText)

section meaning

def Operator.Holds (x value : ℚ) : Operator → Prop
  | .le => x ≤ value
  | .ge => value ≤ x
  | .lt => x < value
  | .gt => value < x
  | .eqeq => x = value
  | .eq => x = value

variable (float : FloatOfText)

def Reads (expr : Str) (op : Operator) (value : ℚ) : Prop :=
  (operators.find? (fun o => startsWith o.text (strip expr)) = some op ∧
    float (strip ((strip expr).drop op.text.length)) = some (.fin value)) ∨
  (operators.find? (fun o => startsWith o.text (strip expr)) = none ∧ op = .eq ∧
    float (strip expr) = some (.fin value))

def Means (expr : Str) (x : ℚ) : Prop := ∃ op value, Reads float expr op value ∧ op.Holds x value

def NumericCondition (c : Condition) : Prop :=
  ∀ key f, c.get? key = some f → ∃ op value, Reads float f.expr op value

def Satisfied (c : Condition) (x : Str → ℚ) : Prop :=
  ∀ key f, c.get? key = some f → Means float f.expr (x key)

def Together (f g : FieldCondition) : Prop := ∃ x, Means float f.expr x ∧ Means float g.expr x

def ArmPair.Numeric (p : ArmPair) : Prop :=
  NumericCondition float p.first.condition ∧ NumericCondition float p.second.condition

def ArmPair.Shares (p : ArmPair) (key : Str) (f g : FieldCondition) : Prop :=
  p.first.condition.get? key = some f ∧ p.second.condition.get? key = some g

def ArmPair.Satisfiable (p : ArmPair) : Prop :=
  ∃ x, Satisfied float p.first.condition x ∧ Satisfied float p.second.condition x

def ArmPair.Uniform (p : ArmPair) : Prop :=
  (∀ key f g, p.Shares key f g → Together float f g) ∨
    (∀ key f g, p.Shares key f g → ¬ Together float f g)

end meaning

section ranges

def NumericRange.ofBounds (r : BoundedRange Extended) : NumericRange :=
  ⟨.real r.lower, r.lowerInclusive, .real r.upper, r.upperInclusive⟩

theorem rangesOverlap_ofBounds (r s : BoundedRange Extended) :
    rangesOverlap (.ofBounds r) (.ofBounds s) = (r.meet s).inhabited := by
  have hlower : (if s.lower < r.lower then (Number.real r.lower, r.lowerInclusive)
      else if r.lower < s.lower then (Number.real s.lower, s.lowerInclusive)
      else (Number.real r.lower, r.lowerInclusive && s.lowerInclusive)) =
      (Number.real (r.meet s).lower, (r.meet s).lowerInclusive) := by
    simp only [BoundedRange.meet]
    rcases lt_trichotomy r.lower s.lower with h | h | h
    · rw [if_neg h.not_gt, if_pos h, if_neg h.not_gt, if_pos h, max_eq_right h.le]
    · simp [h]
    · rw [if_pos h, if_pos h, max_eq_left h.le]
  have hupper : (if r.upper < s.upper then (Number.real r.upper, r.upperInclusive)
      else if s.upper < r.upper then (Number.real s.upper, s.upperInclusive)
      else (Number.real r.upper, r.upperInclusive && s.upperInclusive)) =
      (Number.real (r.meet s).upper, (r.meet s).upperInclusive) := by
    simp only [BoundedRange.meet]
    rcases lt_trichotomy r.upper s.upper with h | h | h
    · rw [if_pos h, if_pos h, min_eq_left h.le]
    · simp [h]
    · rw [if_neg h.not_gt, if_pos h, if_neg h.not_gt, if_pos h, min_eq_right h.le]
  simp only [rangesOverlap, NumericRange.ofBounds, Number.lt, decide_eq_true_eq, hlower, hupper,
    Number.eq, BoundedRange.inhabited]
  split_ifs with hlt heq
  · simp [hlt]
  · simp [heq]
  · simp [hlt, heq]

def finite (q : ℚ) : Extended := ((q : WithTop ℚ) : WithBot (WithTop ℚ))

def unbounded : Extended := ((⊤ : WithTop ℚ) : WithBot (WithTop ℚ))

theorem finite_lt {p q : ℚ} : finite p < finite q ↔ p < q := by simp [finite]

theorem finite_inj {p q : ℚ} : finite p = finite q ↔ p = q := by simp [finite]

theorem bot_lt_finite (q : ℚ) : ⊥ < finite q := WithBot.bot_lt_coe _

theorem finite_lt_unbounded (q : ℚ) : finite q < unbounded :=
  WithBot.coe_lt_coe.mpr (WithTop.coe_lt_top q)

theorem exists_finite {e : Extended} {p q : Extended} (hp : p < e) (hq : e < q) :
    ∃ x, e = finite x := by
  induction e using WithBot.recBotCoe with
  | bot => exact absurd hp not_lt_bot
  | coe t =>
    induction t using WithTop.recTopCoe with
    | top => exact absurd hq (not_lt_of_ge (by
        induction q using WithBot.recBotCoe with
        | bot => exact bot_le
        | coe u => exact WithBot.coe_le_coe.mpr le_top))
    | coe x => exact ⟨x, rfl⟩

def Operator.bounds (value : ℚ) : Operator → BoundedRange Extended
  | .le => ⟨⊥, false, finite value, true⟩
  | .ge => ⟨finite value, true, unbounded, false⟩
  | .lt => ⟨⊥, false, finite value, false⟩
  | .gt => ⟨finite value, false, unbounded, false⟩
  | .eqeq => ⟨finite value, true, finite value, true⟩
  | .eq => ⟨finite value, true, finite value, true⟩

theorem range_fin (op : Operator) (value : ℚ) :
    op.range (.fin value) = .ofBounds (op.bounds value) := by
  cases op <;> rfl

theorem above_finite {inclusive : Bool} {value x : ℚ} :
    BoundedRange.Above (finite value) inclusive (finite x) ↔
      value < x ∨ inclusive = true ∧ value = x := by
  rw [BoundedRange.Above, finite_lt, finite_inj]

theorem below_finite {inclusive : Bool} {value x : ℚ} :
    BoundedRange.Below (finite value) inclusive (finite x) ↔
      x < value ∨ inclusive = true ∧ x = value := by
  rw [BoundedRange.Below, finite_lt, finite_inj]

theorem above_bot (x : ℚ) : BoundedRange.Above ⊥ false (finite x) := Or.inl (bot_lt_finite x)

theorem below_unbounded (x : ℚ) : BoundedRange.Below unbounded false (finite x) :=
  Or.inl (finite_lt_unbounded x)

theorem mem_bounds (op : Operator) (x value : ℚ) :
    BoundedRange.Mem (finite x) (op.bounds value) ↔ op.Holds x value := by
  unfold BoundedRange.Mem
  cases op with
  | le => simp [Operator.bounds, Operator.Holds, above_bot, below_finite, le_iff_lt_or_eq]
  | ge => simp [Operator.bounds, Operator.Holds, below_unbounded, above_finite, le_iff_lt_or_eq]
  | lt => simp [Operator.bounds, Operator.Holds, above_bot, below_finite]
  | gt => simp [Operator.bounds, Operator.Holds, below_unbounded, above_finite]
  | eqeq =>
    simp only [Operator.bounds, Operator.Holds, above_finite, below_finite]
    grind
  | eq =>
    simp only [Operator.bounds, Operator.Holds, above_finite, below_finite]
    grind

theorem finite_of_mem {op : Operator} {value : ℚ} {e : Extended}
    (h : BoundedRange.Mem e (op.bounds value)) : ∃ x, e = finite x := by
  obtain ⟨hl | ⟨hl, hle⟩, hu | ⟨hu, hue⟩⟩ := h
  · exact exists_finite hl hu
  · cases op <;> first | exact ⟨value, hue⟩ | cases hu
  · cases op <;> first | exact ⟨value, hle.symm⟩ | cases hl
  · cases op <;> first | exact ⟨value, hue⟩ | cases hu

variable {float : FloatOfText} {f g : FieldCondition}

theorem parseNumericExpr_reads {expr : Str} {op : Operator} {value : ℚ}
    (h : Reads float expr op value) :
    parseNumericExpr float expr = some (.ofBounds (op.bounds value)) := by
  rw [← range_fin]
  rcases h with ⟨hop, hv⟩ | ⟨hop, rfl, hv⟩
  · simp only [parseNumericExpr, hop, hv, Option.map_some]
  · simp only [parseNumericExpr, hop, hv, Option.map_some]

theorem reads_unique {expr : Str} {op op' : Operator} {value value' : ℚ}
    (h : Reads float expr op value) (h' : Reads float expr op' value') :
    op = op' ∧ value = value' := by
  rcases h with ⟨hop, hv⟩ | ⟨hop, rfl, hv⟩
  · rcases h' with ⟨hop', hv'⟩ | ⟨hop', rfl, hv'⟩
    · obtain rfl := Option.some.inj (hop.symm.trans hop')
      have he : Number.fin value = Number.fin value' := Option.some.inj (hv.symm.trans hv')
      exact ⟨rfl, finite_inj.mp (Number.real.inj he)⟩
    · rw [hop] at hop'
      cases hop'
  · rcases h' with ⟨hop', hv'⟩ | ⟨hop', rfl, hv'⟩
    · rw [hop] at hop'
      cases hop'
    · have he : Number.fin value = Number.fin value' := Option.some.inj (hv.symm.trans hv')
      exact ⟨rfl, finite_inj.mp (Number.real.inj he)⟩

theorem means_iff {expr : Str} {op : Operator} {value x : ℚ} (h : Reads float expr op value) :
    Means float expr x ↔ op.Holds x value := by
  constructor
  · rintro ⟨op', value', h', hx⟩
    obtain ⟨rfl, rfl⟩ := reads_unique h h'
    exact hx
  · exact fun hx => ⟨op, value, h, hx⟩

theorem Operator.exists_holds (op : Operator) (value : ℚ) : ∃ x, op.Holds x value := by
  cases op with
  | le => exact ⟨value, le_refl value⟩
  | ge => exact ⟨value, le_refl value⟩
  | lt => exact exists_lt value
  | gt => exact exists_gt value
  | eqeq => exact ⟨value, rfl⟩
  | eq => exact ⟨value, rfl⟩

theorem fieldOverlap_iff {op op' : Operator} {value value' : ℚ}
    (hf : f.numeric = parseNumericExpr float f.expr)
    (hg : g.numeric = parseNumericExpr float g.expr)
    (hrf : Reads float f.expr op value) (hrg : Reads float g.expr op' value') :
    fieldOverlap f g = true ↔ Together float f g := by
  rw [fieldOverlap, hf, hg, parseNumericExpr_reads hrf, parseNumericExpr_reads hrg]
  dsimp only
  rw [rangesOverlap_ofBounds, BoundedRange.inhabited_meet]
  constructor
  · rintro ⟨e, hm, hm'⟩
    obtain ⟨x, rfl⟩ := finite_of_mem hm
    exact ⟨x, (means_iff hrf).mpr ((mem_bounds op x value).mp hm),
      (means_iff hrg).mpr ((mem_bounds op' x value').mp hm')⟩
  · rintro ⟨x, hx, hx'⟩
    exact ⟨finite x, (mem_bounds op x value).mpr ((means_iff hrf).mp hx),
      (mem_bounds op' x value').mpr ((means_iff hrg).mp hx')⟩

end ranges

section conditions

variable {py : PyText} {float : FloatOfText} {p : ArmPair} {a b c : Condition}

def Parsed (float : FloatOfText) (c : Condition) : Prop :=
  ∀ key f, c.get? key = some f → f.numeric = parseNumericExpr float f.expr

theorem Parsed.empty : Parsed float OrderedDict.empty := by
  intro key f h
  cases h

theorem Parsed.assign (hc : Parsed float c) (key expr : Str) :
    Parsed float (c.assign key ⟨expr, parseNumericExpr float expr⟩) := by
  intro k f h
  rw [OrderedDict.get?_assign] at h
  split_ifs at h
  · obtain rfl := Option.some.inj h
    rfl
  · exact hc k f h

theorem normalizeCondition_parsed (condition : JsonFields) :
    Parsed float (normalizeCondition py float condition) := by
  unfold normalizeCondition
  induction condition using List.reverseRecOn with
  | nil => exact Parsed.empty
  | append_singleton fields f ih =>
    rw [List.foldl_append]
    exact ih.assign f.1 (py.str f.2)

theorem mem_sharedFields {key : Str} {f g : FieldCondition} :
    (key, f, g) ∈ sharedFields a b ↔ a.get? key = some f ∧ b.get? key = some g := by
  simp only [sharedFields, List.mem_filterMap, Option.map_eq_some_iff, Prod.mk.injEq]
  constructor
  · rintro ⟨⟨k, f'⟩, hm, g', hg, rfl, rfl, rfl⟩
    exact ⟨OrderedDict.get?_eq_some.mpr hm, hg⟩
  · rintro ⟨hf, hg⟩
    exact ⟨(key, f), OrderedDict.get?_eq_some.mp hf, g, hg, rfl, rfl, rfl⟩

theorem conditionsOverlap_iff :
    conditionsOverlap a b = true ↔
      ∃ key f g, a.get? key = some f ∧ b.get? key = some g ∧ fieldOverlap f g = true := by
  have hany : conditionsOverlap a b =
      (sharedFields a b).any (fun f => fieldOverlap f.2.1 f.2.2) := by
    unfold conditionsOverlap
    cases sharedFields a b <;> rfl
  rw [hany, List.any_eq_true]
  constructor
  · rintro ⟨⟨key, f, g⟩, hm, ho⟩
    obtain ⟨hf, hg⟩ := mem_sharedFields.mp hm
    exact ⟨key, f, g, hf, hg, ho⟩
  · rintro ⟨key, f, g, hf, hg, ho⟩
    exact ⟨(key, f, g), mem_sharedFields.mpr ⟨hf, hg⟩, ho⟩

theorem overlap_iff (hn : p.Numeric float) (ha : Parsed float p.first.condition)
    (hb : Parsed float p.second.condition) :
    p.overlap = true ↔ ∃ key f g, p.Shares key f g ∧ Together float f g := by
  rw [ArmPair.overlap, conditionsOverlap_iff]
  constructor
  · rintro ⟨key, f, g, hf, hg, ho⟩
    obtain ⟨op, value, hrf⟩ := hn.1 key f hf
    obtain ⟨op', value', hrg⟩ := hn.2 key g hg
    exact ⟨key, f, g, ⟨hf, hg⟩, (fieldOverlap_iff (ha key f hf) (hb key g hg) hrf hrg).mp ho⟩
  · rintro ⟨key, f, g, ⟨hf, hg⟩, ht⟩
    obtain ⟨op, value, hrf⟩ := hn.1 key f hf
    obtain ⟨op', value', hrg⟩ := hn.2 key g hg
    exact ⟨key, f, g, hf, hg, (fieldOverlap_iff (ha key f hf) (hb key g hg) hrf hrg).mpr ht⟩

theorem exists_means (hn : NumericCondition float c) {key : Str} {f : FieldCondition}
    (hf : c.get? key = some f) : ∃ x, Means float f.expr x := by
  obtain ⟨op, value, hr⟩ := hn key f hf
  obtain ⟨x, hx⟩ := op.exists_holds value
  exact ⟨x, op, value, hr, hx⟩

theorem satisfiable_iff (hn : p.Numeric float) :
    p.Satisfiable float ↔ ∀ key f g, p.Shares key f g → Together float f g := by
  constructor
  · rintro ⟨x, hx, hx'⟩ key f g ⟨hf, hg⟩
    exact ⟨x key, hx key f hf, hx' key g hg⟩
  · intro hall
    have hfield : ∀ key, ∃ v, (∀ f, p.first.condition.get? key = some f → Means float f.expr v) ∧
        ∀ g, p.second.condition.get? key = some g → Means float g.expr v := by
      intro key
      cases hf : p.first.condition.get? key with
      | none =>
        cases hg : p.second.condition.get? key with
        | none => exact ⟨0, by simp, by simp⟩
        | some g =>
          obtain ⟨v, hv⟩ := exists_means hn.2 hg
          exact ⟨v, by simp, by simpa using hv⟩
      | some f =>
        cases hg : p.second.condition.get? key with
        | none =>
          obtain ⟨v, hv⟩ := exists_means hn.1 hf
          exact ⟨v, by simpa using hv, by simp⟩
        | some g =>
          obtain ⟨v, hv, hv'⟩ := hall key f g ⟨hf, hg⟩
          exact ⟨v, by simpa using hv, by simpa using hv'⟩
    choose x hx using hfield
    exact ⟨x, fun key f hf => (hx key).1 f hf, fun key g hg => (hx key).2 g hg⟩

end conditions

section reports

variable {py : PyText} {float : FloatOfText} {p : ArmPair} {c : Conflict}

theorem kind_of_idConflicts {missing collision : ConflictKind} {detail noun : Str}
    {ids : List Str} (h : c ∈ idConflicts missing collision detail noun ids) :
    c.kind = missing ∨ c.kind = collision := by
  obtain ⟨e, -, he⟩ := List.mem_flatMap.mp h
  rcases List.mem_append.mp he with h | h
  · split_ifs at h
    · exact Or.inl (List.mem_singleton.mp h ▸ rfl)
    · cases h
  · split_ifs at h
    · exact Or.inr (List.mem_singleton.mp h ▸ rfl)
    · cases h

theorem kind_of_envConflicts {fid : Str} {env : Option Json} (h : c ∈ envConflicts fid env) :
    c.kind = .flowEnvInvalid := by
  cases env with
  | none => cases h
  | some v =>
    cases v with
    | null => cases h
    | obj fields =>
      obtain ⟨f, -, hf⟩ := List.mem_flatMap.mp h
      split_ifs at hf
      · cases hf
      · exact List.mem_singleton.mp hf ▸ rfl
    | _ => exact List.mem_singleton.mp h ▸ rfl

theorem kind_of_lockEntry {fid : Str} {entry : JsonFields} (h : c ∈ (lockEntry py fid entry).1) :
    c.kind = .flowLockInvalid := by
  unfold lockEntry at h
  dsimp only at h
  split_ifs at h
  · exact List.mem_singleton.mp h ▸ rfl
  · cases h
  · cases h
  · exact List.mem_singleton.mp h ▸ rfl

theorem kind_of_flowConflicts {flow : JsonFields} (h : c ∈ flowConflicts py flow) :
    c.kind = .flowEnvInvalid ∨ c.kind = .flowLockInvalid := by
  rcases List.mem_append.mp h with h | h
  · exact Or.inl (kind_of_envConflicts h)
  · obtain ⟨entry, -, he⟩ := List.mem_flatMap.mp h
    exact Or.inr (kind_of_lockEntry he)

theorem kind_of_lockConflicts {name : Str} {slot : LockSlot}
    (h : c ∈ lockConflicts py name slot) : c.kind = .flowLockConflict := by
  rcases List.mem_append.mp h with h | h
  · split_ifs at h
    · exact List.mem_singleton.mp h ▸ rfl
    · cases h
  · split_ifs at h
    · exact List.mem_singleton.mp h ▸ rfl
    · cases h

theorem kind_of_cronConflicts {expr : Str} {users : List Str}
    (h : c ∈ cronConflicts py expr users) : c.kind = .flowCronOverlap := by
  unfold cronConflicts at h
  split_ifs at h
  · exact List.mem_singleton.mp h ▸ rfl
  · cases h

theorem filter_eq_nil {l : List Conflict} (h : ∀ c ∈ l, c.kind ≠ .policyArmOverlap) :
    l.filter (fun c => c.kind = .policyArmOverlap) = [] :=
  List.filter_eq_nil_iff.mpr (fun c hc => by simpa using h c hc)

theorem filter_policyConflicts (policies : List JsonFields) :
    (policies.flatMap (policyConflicts py float)).filter (fun c => c.kind = .policyArmOverlap) =
      ((policies.flatMap (armPairs py float)).filter ArmPair.overlap).map ArmPair.conflict := by
  rw [List.filter_eq_self.mpr, List.filter_flatMap, List.map_flatMap]
  · rfl
  · intro c hc
    obtain ⟨policy, -, hp⟩ := List.mem_flatMap.mp hc
    obtain ⟨p, -, rfl⟩ := List.mem_map.mp hp
    rfl

theorem findConflicts_overlaps (flows policies : List JsonFields) :
    (findConflicts py float flows policies).filter (fun c => c.kind = .policyArmOverlap) =
      ((policies.flatMap (armPairs py float)).filter ArmPair.overlap).map ArmPair.conflict := by
  unfold findConflicts
  simp only [List.filter_append]
  rw [filter_eq_nil, filter_eq_nil, filter_eq_nil, filter_eq_nil, filter_eq_nil,
    filter_policyConflicts]
  · rfl
  · intro c hc
    obtain ⟨e, -, he⟩ := List.mem_flatMap.mp hc
    rw [kind_of_cronConflicts he]
    decide
  · intro c hc
    obtain ⟨e, -, he⟩ := List.mem_flatMap.mp hc
    rw [kind_of_lockConflicts he]
    decide
  · intro c hc
    obtain ⟨flow, -, hf⟩ := List.mem_flatMap.mp hc
    rcases kind_of_flowConflicts hf with hk | hk <;> rw [hk] <;> decide
  · intro c hc
    rcases kind_of_idConflicts hc with hk | hk <;> rw [hk] <;> decide
  · intro c hc
    rcases kind_of_idConflicts hc with hk | hk <;> rw [hk] <;> decide

theorem mem_pairsOf {pid : Str} {arms : List Arm} (h : p ∈ pairsOf pid arms) :
    p.first ∈ arms ∧ p.second ∈ arms := by
  induction arms with
  | nil => cases h
  | cons a arms ih =>
    rcases List.mem_append.mp h with h | h
    · obtain ⟨b, hb, rfl⟩ := List.mem_map.mp h
      exact ⟨List.mem_cons_self, List.mem_cons_of_mem a hb⟩
    · exact ⟨List.mem_cons_of_mem a (ih h).1, List.mem_cons_of_mem a (ih h).2⟩

theorem normalizedArms_parsed {policy : JsonFields} {arm : Arm}
    (h : arm ∈ normalizedArms py float policy) : Parsed float arm.condition := by
  obtain ⟨fields, -, rfl⟩ := List.mem_map.mp h
  unfold normalizeArm
  dsimp only
  split
  · exact normalizeCondition_parsed _
  · exact Parsed.empty

theorem overlap_reported (py : PyText) (float : FloatOfText) (flows policies : List JsonFields) :
    (findConflicts py float flows policies).filter (fun c => c.kind = .policyArmOverlap) =
      ((policies.flatMap (armPairs py float)).filter ArmPair.overlap).map ArmPair.conflict ∧
    ∀ p ∈ policies.flatMap (armPairs py float), p.Numeric float →
      ((∀ key f g, ¬ p.Shares key f g) → p.overlap = false) ∧
      ((∃ key f g, p.Shares key f g) → p.Uniform float →
        (p.overlap = true ↔ p.Satisfiable float)) := by
  refine ⟨findConflicts_overlaps flows policies, fun p hp hn => ?_⟩
  obtain ⟨policy, -, hpol⟩ := List.mem_flatMap.mp hp
  obtain ⟨hfirst, hsecond⟩ := mem_pairsOf hpol
  have hiff := overlap_iff hn (normalizedArms_parsed hfirst) (normalizedArms_parsed hsecond)
  constructor
  · intro hnone
    rw [Bool.eq_false_iff]
    intro ho
    obtain ⟨key, f, g, hs, -⟩ := hiff.mp ho
    exact hnone key f g hs
  · rintro ⟨key, f, g, hs⟩ huniform
    rw [hiff, satisfiable_iff hn]
    constructor
    · rintro ⟨key', f', g', hs', ht⟩
      rcases huniform with hall | hno
      · exact hall
      · exact absurd ht (hno key' f' g' hs')
    · intro hall
      exact ⟨key, f, g, hs, hall key f g hs⟩

def naturalFloat : FloatOfText := fun text =>
  if text ≠ [] ∧ text.all Char.isDigit = true then
    some (.fin (text.foldl (fun n c => 10 * n + (c.toNat - 48)) 0 : ℕ))
  else none

def armDoc (field expr : Str) : Json :=
  .obj [("name".toList, .str field), ("if".toList, .obj [(field, .str expr)])]

def policyDoc (arms : List Json) : JsonFields :=
  [("policy_id".toList, .str "p".toList), ("arms".toList, .arr arms)]

def armOf (field expr : Str) : Arm := normalizeArm Queue.plainPy naturalFloat
  [("name".toList, .str field), ("if".toList, .obj [(field, .str expr)])]

theorem armOf_get? {field expr key : Str} {f : FieldCondition}
    (h : (armOf field expr).condition.get? key = some f) : key = field ∧ f.expr = expr := by
  have he : (key, f) ∈ [(field, FieldCondition.mk expr (parseNumericExpr naturalFloat expr))] :=
    OrderedDict.get?_eq_some.mp h
  obtain ⟨rfl, rfl⟩ := Prod.mk.inj (List.mem_singleton.mp he)
  exact ⟨rfl, rfl⟩

theorem armOf_numeric {field expr : Str} {op : Operator} {value : ℚ}
    (h : Reads naturalFloat expr op value) :
    NumericCondition naturalFloat (armOf field expr).condition := by
  intro key f hf
  obtain ⟨-, rfl⟩ := armOf_get? hf
  exact ⟨op, value, h⟩

theorem reads_below_five : Reads naturalFloat "< 5".toList .lt 5 := by
  left
  decide +kernel

theorem reads_above_three : Reads naturalFloat "> 3".toList .gt 3 := by
  left
  decide +kernel

theorem four_between : (4 : ℚ) < 5 ∧ (3 : ℚ) < 4 := by
  decide +kernel

def sharedPair : ArmPair :=
  ⟨"p".toList, armOf "x".toList "< 5".toList, armOf "x".toList "> 3".toList⟩

theorem sharedPair_numeric : sharedPair.Numeric naturalFloat :=
  ⟨armOf_numeric reads_below_five, armOf_numeric reads_above_three⟩

theorem sharedPair_uniform : sharedPair.Uniform naturalFloat := by
  left
  rintro key f g ⟨hf, hg⟩
  obtain ⟨-, hf⟩ := armOf_get? hf
  obtain ⟨-, hg⟩ := armOf_get? hg
  exact ⟨4, ⟨.lt, 5, hf ▸ reads_below_five, four_between.1⟩,
    ⟨.gt, 3, hg ▸ reads_above_three, four_between.2⟩⟩

theorem shared_reported :
    sharedPair ∈ [policyDoc [armDoc "x".toList "< 5".toList,
      armDoc "x".toList "> 3".toList]].flatMap (armPairs Queue.plainPy naturalFloat) ∧
    sharedPair.Numeric naturalFloat ∧ sharedPair.Uniform naturalFloat ∧
    (sharedPair.overlap = true ↔ sharedPair.Satisfiable naturalFloat) := by
  have hm : sharedPair ∈ [policyDoc [armDoc "x".toList "< 5".toList,
      armDoc "x".toList "> 3".toList]].flatMap (armPairs Queue.plainPy naturalFloat) :=
    List.mem_cons_self
  refine ⟨hm, sharedPair_numeric, sharedPair_uniform, ?_⟩
  exact ((overlap_reported Queue.plainPy naturalFloat [] _).2 sharedPair hm sharedPair_numeric).2
    ⟨"x".toList, _, _, rfl, rfl⟩ sharedPair_uniform

def unsharedPair : ArmPair :=
  ⟨"p".toList, armOf "x".toList "< 5".toList, armOf "y".toList "> 3".toList⟩

theorem unsharedPair_satisfiable : unsharedPair.Satisfiable naturalFloat := by
  refine ⟨fun _ => 4, ?_, ?_⟩
  · intro key f hf
    obtain ⟨-, hf⟩ := armOf_get? hf
    exact ⟨.lt, 5, hf ▸ reads_below_five, four_between.1⟩
  · intro key f hf
    obtain ⟨-, hf⟩ := armOf_get? hf
    exact ⟨.gt, 3, hf ▸ reads_above_three, four_between.2⟩

theorem unshared_not_reported :
    ¬ ∀ p ∈ [policyDoc [armDoc "x".toList "< 5".toList, armDoc "y".toList "> 3".toList]].flatMap
        (armPairs Queue.plainPy naturalFloat),
      p.Numeric naturalFloat → (p.overlap = true ↔ p.Satisfiable naturalFloat) := by
  intro h
  have hiff := h unsharedPair List.mem_cons_self
    ⟨armOf_numeric reads_below_five, armOf_numeric reads_above_three⟩
  have ho : unsharedPair.overlap = false := by decide +kernel
  rw [ho] at hiff
  exact Bool.false_ne_true (hiff.mpr unsharedPair_satisfiable)

end reports

end TraceMind.Validate
