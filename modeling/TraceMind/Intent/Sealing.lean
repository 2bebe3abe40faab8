import TraceMind.Intent.Steps
import TraceMind.Intent.ProfileGovernance

namespace TraceMind.Intent

open Artifacts

section closure

variable {rs : Resolvers} {ds : Dispositions} {j : Judged}

theorem not_isError_seal {disp : Option Disposition} {v : DimensionVerdict} :
    v.isError rs .seal disp = false ↔ (v.severity = .error → v.closed rs disp = true) := by
  rw [DimensionVerdict.isError, DimensionVerdict.closed]
  cases v.satisfied <;> cases DimensionVerdict.closedBy rs disp <;> simp

theorem allDimsClosed_iff : allDimsClosed (j.report rs .seal ds) = true ↔
    ∀ d, (j.verdict d).severity = .error → (j.verdict d).closed rs (ds.get? d) = true := by
  have hcount : allDimsClosed (j.report rs .seal ds) = true ↔ j.errors rs .seal ds = 0 := by
    simp [allDimsClosed, Judged.report, Judged.sealed]
  rw [hcount, Judged.errors, List.countP_eq_zero]
  constructor
  · intro h d
    exact not_isError_seal.mp (by simpa using h d (mem_allDimensions d))
  · intro h d _
    rw [not_isError_seal.mpr (h d)]
    decide

end closure

section sealing

variable {Source : Type} {sha : Sha256} {c : Call Source}

namespace Call

def Seals (c : Call Source) : Prop := c.before.status = .working ∧ c.after.status = .sealed

def Computed (c : Call Source) : Prop :=
  ∃ (a : SealArgs Source) (j : Judged), c.op = .sealSession a ∧ strip a.signer ≠ [] ∧
    c.world.judge a.source .seal = .ok j ∧
    (∀ d, (j.verdict d).severity = .error →
      (j.verdict d).closed c.world.resolvers (a.dispositions.get? d) = true) ∧
    (sealGate a (j.report c.world.resolvers .seal a.dispositions)).passed = true

def Refused (sha : Sha256) (c : Call Source) : Prop :=
  (∃ r, apply sha c.world c.before c.op = .error r) ∧ c.after = c.before

def Asserts (c : Call Source) : Prop :=
  c.before.status = .working ∧ c.before.currentStep = .accept ∧
    ∃ facts signOff note, c.op = .advance facts human signOff note ∧
      facts.humanSignoffAndAllDimsClosed = true ∧
      (signOff.orElse (fun _ => c.before.signOff)).isSome = true

end Call

theorem advance_from_accept {s : Session} (sha : Sha256) (facts : GateFacts)
    (signOff : Option SignOff) (note : Option Str) (hworking : s.status = .working)
    (hstep : s.currentStep = .accept) (hfacts : facts.humanSignoffAndAllDimsClosed = true)
    (hso : (signOff.orElse (fun _ => s.signOff)).isSome = true) :
    ∃ s', advance sha s facts human signOff note = .ok s' ∧ s'.status = .sealed := by
  obtain ⟨so, hso⟩ := Option.isSome_iff_exists.mp hso
  have hnext : s.currentStep.next = some .sealed := by rw [hstep]; rfl
  have hgate : requireGate .sealed facts = .ok () :=
    requireGate_ok.mpr (fun g hg => by cases hg; exact hfacts)
  have hclosing : closing s .sealed signOff = .ok (some so, .sealed) := by
    rw [closing, if_pos rfl, hso]
  refine ⟨{ s with
    currentStep := .sealed, status := .sealed, signOff := some so
    turns := appendTurn sha s.turns human .note none note none }, ?_, rfl⟩
  exact Fallible.bind_eq_ok.mpr ⟨(), rfl, Fallible.bind_eq_ok.mpr ⟨(), pass_iff.mpr hworking,
    Fallible.bind_eq_ok.mpr ⟨_, requireTarget_ok.mpr hnext, Fallible.bind_eq_ok.mpr ⟨(), rfl,
      Fallible.bind_eq_ok.mpr ⟨(), hgate, Fallible.bind_eq_ok.mpr ⟨_, hclosing, rfl⟩⟩⟩⟩⟩⟩

theorem Enters.accept {s s' : Session} {facts : GateFacts} {role : Str} {signOff : Option SignOff}
    (h : Enters sha s facts role signOff s') (hsealed : s'.status = .sealed) :
    s.currentStep = .accept ∧ role = Intent.human ∧ facts.humanSignoffAndAllDimsClosed = true ∧
      (signOff.orElse (fun _ => s.signOff)).isSome = true := by
  rcases h.closing with ⟨hstep, -, hso, heq⟩ | ⟨-, hstatus, -⟩
  · have hnext := h.next
    have hhuman := h.human
    have hgate := h.gate
    rw [hstep] at hnext hhuman hgate
    refine ⟨?_, hhuman rfl, hgate _ rfl, heq ▸ hso⟩
    cases hc : s.currentStep <;> rw [hc] at hnext <;> first | rfl | cases hnext
  · rw [hstatus, h.working] at hsealed
    cases hsealed

theorem call_seals {s : Session} {e : World Source × Op Source} (h : (call sha s e).Seals) :
    (call sha s e).Asserts ∨ (call sha s e).Computed := by
  obtain ⟨hbefore, hafter⟩ := h
  rcases call_cases sha s e with he | hacc
  · rw [he] at hafter
    exact absurd (hbefore.symm.trans hafter) (by decide)
  · obtain ⟨w, op⟩ := e
    generalize hs' : (call sha s (w, op)).after = s' at hacc hafter
    cases hacc with
    | advance facts role signOff note _ h =>
      obtain ⟨hstep, rfl, hfacts, hso⟩ := h.accept hafter
      exact Or.inl ⟨h.working, hstep, facts, signOff, note, rfl, hfacts, hso⟩
    | revert _ _ _ _ _ => exact absurd (hbefore.symm.trans hafter) (by decide)
    | clarify _ _ => exact absurd (hbefore.symm.trans hafter) (by decide)
    | embedCompleteness _ _ _ => exact absurd (hbefore.symm.trans hafter) (by decide)
    | sealSession a j _ hsigner hj hclosed hpassed _ =>
      exact Or.inr ⟨a, j, rfl, hsigner, hj, allDimsClosed_iff.mp hclosed, hpassed⟩

theorem Call.Asserts.seals {s : Session} {e : World Source × Op Source}
    (h : (call sha s e).Asserts) : (call sha s e).Seals ∧ ¬(call sha s e).Computed := by
  obtain ⟨hworking, hstep, facts, signOff, note, hop, hfacts, hso⟩ := h
  obtain ⟨s', hok, hsealed⟩ := advance_from_accept sha facts signOff note hworking hstep hfacts hso
  have hafter : (call sha s e).after = s' := by
    rw [call] at hop ⊢
    simp only at hop ⊢
    rw [hop]
    exact congrArg (kept s) hok
  refine ⟨⟨hworking, by rw [hafter]; exact hsealed⟩, ?_⟩
  rintro ⟨a, j, ha, -⟩
  rw [hop] at ha
  cases ha

theorem call_refused {s : Session} {e : World Source × Op Source}
    (h : (call sha s e).before.status = .sealed) : (call sha s e).Refused sha := by
  obtain ⟨r, hr⟩ := apply_sealed sha e.1 e.2 h
  exact ⟨⟨r, hr⟩, congrArg (kept s) hr⟩

def SealedByClosure (sha : Sha256) (cs : List (Call Source)) : Prop :=
  ∀ c ∈ cs, (c.Seals → c.Computed) ∧ (c.before.status = .sealed → c.Refused sha)

def allFacts : GateFacts := ⟨true, true, true⟩

def step (signOff : Option SignOff) : World Unit × Op Unit :=
  (noFiles, .advance allFacts human signOff none)

def assertedRun : List (World Unit × Op Unit) :=
  [step none, step none, step none, step none, step none, step (some { signer := "ops".toList })]

end sealing

end TraceMind.Intent

namespace TraceMind.Intent

open Queue (Document PyFloat PyText Error)

section closing

variable {rs : Resolvers} {disp : Option Disposition}

def ValidClosure (rs : Resolvers) (disp : Option Disposition) : Prop :=
  ∃ d, disp = some d ∧
    (d.kind = .waived ∧ given d.rationale = true ∧ given d.signer = true ∨
      d.kind = .dynamic ∧ ∃ ref, d.resolverRef = some ref ∧ ref ≠ [] ∧ rs.isRegistered ref = true)

theorem validateDisposition_nil {d : Disposition} (h : d.kind ≠ .resolved) :
    validateDisposition rs d = [] ↔
      (d.kind = .waived ∧ given d.rationale = true ∧ given d.signer = true ∨
        d.kind = .dynamic ∧ ∃ ref, d.resolverRef = some ref ∧ ref ≠ [] ∧
          rs.isRegistered ref = true) := by
  rw [validateDisposition]
  cases hk : d.kind with
  | resolved => exact absurd hk h
  | waived => cases given d.rationale <;> cases given d.signer <;> simp
  | dynamic =>
    cases hr : d.resolverRef with
    | none => simp
    | some ref =>
      cases ref with
      | nil => simp
      | cons c cs => cases hreg : rs.isRegistered (c :: cs) <;> simp [hreg]

theorem closedBy_iff : DimensionVerdict.closedBy rs disp = true ↔ ValidClosure rs disp := by
  rw [DimensionVerdict.closedBy, ValidClosure, Option.any_eq_true]
  refine exists_congr (fun d => and_congr_right (fun _ => ?_))
  rw [Bool.and_eq_true, List.isEmpty_iff, decide_eq_true_eq]
  constructor
  · rintro ⟨hnil, hkind⟩
    exact (validateDisposition_nil hkind).mp hnil
  · intro h
    have hkind : d.kind ≠ .resolved := by
      rcases h with ⟨hk, -⟩ | ⟨hk, -⟩ <;> rw [hk] <;> decide
    exact ⟨(validateDisposition_nil hkind).mpr h, hkind⟩

end closing

section raw

variable {py : PyText} {float : PyFloat} {i : Inputs}

def Applies (x : Except Error RawStatus) : Prop := ∀ st, x = .ok st → st.status ≠ .notApplicable

theorem Applies.ret {st : RawStatus} (h : st.status ≠ .notApplicable) : Applies (.ok st) := by
  intro st' he
  cases he
  exact h

theorem Applies.bind {α : Type} {x : Except Error α} {f : α → Except Error RawStatus}
    (h : ∀ a, Applies (f a)) : Applies (x >>= f) := by
  intro st he
  obtain ⟨a, -, hf⟩ := Fallible.bind_eq_ok.mp he
  exact h a st hf

theorem evalWho_applies (body : Document) : Applies (evalWho float body) := by
  rw [evalWho]
  split_ifs
  · exact .bind (fun _ => .ret (fun hc => by cases hc))
  · exact .ret (fun hc => by cases hc)

theorem evalWhy_applies (body : Document) : (evalWhy body).status ≠ .notApplicable := by
  rw [evalWhy]
  split_ifs <;> exact fun hc => by cases hc

theorem evalWhat_applies (body : Document) : Applies (evalWhat float body) := by
  rw [evalWhat]
  split_ifs
  · exact .ret (fun hc => by cases hc)
  · exact .bind (fun _ => .bind (fun _ => .ret (fun hc => by cases hc)))
  · exact .bind (fun _ => .bind (fun _ => .ret (fun hc => by cases hc)))

theorem evalWhen_applies (body : Document) (plan : Option Document)
    (categories : Str → Option Str) : Applies (evalWhen py float body plan categories) := by
  rw [evalWhen]
  refine .bind (fun trigger => ?_)
  cases trigger with
  | some name => exact .ret (fun hc => by cases hc)
  | none =>
    refine .bind (fun refs => ?_)
    cases refs.find? (fun r => categories (py.str r) = some "liveness".toList) with
    | some r => exact .ret (fun hc => by cases hc)
    | none =>
      refine .bind (fun keys => ?_)
      cases keys.find? (startsWith "when_".toList) with
      | some k => exact .ret (fun hc => by cases hc)
      | none => exact .ret (fun hc => by cases hc)

theorem evalWhere_applies (body : Document) (network : Option Document) :
    Applies (evalWhere py float body network) := by
  rw [evalWhere]
  cases networkId network with
  | some id => exact .ret (fun hc => by cases hc)
  | none =>
    refine .bind (fun keys => ?_)
    cases keys.find? isWhereKey with
    | some k => exact .ret (fun hc => by cases hc)
    | none => exact .ret (fun hc => by cases hc)

theorem evalHow_applies (body : Document) : Applies (evalHow float body) := by
  rw [evalHow]
  split_ifs
  · exact .bind (fun _ => .ret (fun hc => by cases hc))
  · exact .ret (fun hc => by cases hc)

theorem rawStatus_applies {raw : Dimension → RawStatus} (h : rawStatus py float i = .ok raw)
    (d : Dimension) : (raw d).status ≠ .notApplicable := by
  obtain ⟨who, hwho, h⟩ := Fallible.bind_eq_ok.mp h
  obtain ⟨what, hwhat, h⟩ := Fallible.bind_eq_ok.mp h
  obtain ⟨when, hwhen, h⟩ := Fallible.bind_eq_ok.mp h
  obtain ⟨where_, hwhere, h⟩ := Fallible.bind_eq_ok.mp h
  obtain ⟨how, hhow, h⟩ := Fallible.bind_eq_ok.mp h
  cases h
  cases d with
  | who => exact evalWho_applies _ _ hwho
  | why => exact evalWhy_applies _
  | what => exact evalWhat_applies _ _ hwhat
  | when => exact evalWhen_applies _ _ _ _ hwhen
  | where_ => exact evalWhere_applies _ _ _ hwhere
  | how => exact evalHow_applies _ _ hhow

end raw

section contract

variable (py : PyText) (float : PyFloat) (rs : Resolvers) (ds : Dispositions) (profile : Profile)
  (i : Inputs)

def ErrorDimensionsClosed : Prop :=
  ∃ raw missing, rawStatus py float i = .ok raw ∧
    missingRequiredSlots float i.body profile = .ok missing ∧
    ∀ d, profile.severity d = .error →
      (raw d).status = .satisfied ∧ ¬SlotsHit profile missing d ∨ ValidClosure rs (ds.get? d)

def MissingSlotBlocks : Prop :=
  ∀ missing, missingRequiredSlots float i.body profile = .ok missing → missing ≠ [] →
    Sealed py float rs ds profile i → ValidClosure rs (ds.get? profile.requiredSlotsDimension)

def DesignAgrees : Prop :=
  Sealed py float rs [] profile i →
    ∃ r, compute5w1hCompleteness py float rs .design [] profile i = .ok r ∧ r.errors = 0

theorem sealed_iff_closed :
    Sealed py float rs ds profile i ↔ ErrorDimensionsClosed py float rs ds profile i := by
  rw [sealed_iff, ErrorDimensionsClosed]
  refine exists_congr (fun raw => exists_congr (fun missing =>
    and_congr_right (fun hraw => and_congr_right (fun _ =>
      forall_congr' (fun d => imp_congr_right (fun _ => ?_))))))
  rw [closedBy_iff, Clean, or_iff_right (rawStatus_applies hraw d)]

theorem missing_slot_blocks (h : profile.severity profile.requiredSlotsDimension = .error) :
    MissingSlotBlocks py float rs ds profile i := by
  intro missing hmissing hne hsealed
  obtain ⟨raw, missing', -, hmissing', hall⟩ :=
    (sealed_iff_closed py float rs ds profile i).mp hsealed
  cases hmissing.symm.trans hmissing'
  exact (hall _ h).resolve_left (fun hc => hc.2 ⟨hne, rfl⟩)

variable {py float rs ds profile i}

theorem verdictOf_satisfied {mode : Mode} {body : Document} {d : Dimension} {raw : RawStatus}
    (hsev : profile.severity d ≠ .off) (h : raw.status = .satisfied) :
    (verdictOf py mode profile body d raw).status = .satisfied ∧
      (verdictOf py mode profile body d raw).severity = profile.severity d := by
  have hne : ¬(mode = .design ∧ raw.status = .missing) := by
    rintro ⟨-, hc⟩
    cases h.symm.trans hc
  rw [verdictOf]
  dsimp only
  rw [if_neg hsev, if_neg hne]
  dsimp only
  rw [if_pos h]
  exact ⟨rfl, rfl⟩

theorem verdictOf_severity (mode : Mode) (body : Document) (d : Dimension) (raw : RawStatus) :
    (verdictOf py mode profile body d raw).severity = profile.severity d := by
  rw [verdictOf]
  dsimp only
  generalize (if mode = .design ∧ raw.status = .missing then scanProse py body d profile
    else none) = keyword
  cases keyword <;> split_ifs <;> rfl

theorem not_isError_design {missing : List Str} {body : Document} {d : Dimension} {raw : RawStatus}
    (h : profile.severity d = .error → raw.status = .satisfied ∧ ¬SlotsHit profile missing d) :
    (degraded profile missing d (verdictOf py .design profile body d raw)).isError rs .design none =
      false := by
  rw [DimensionVerdict.isError, degraded_severity, verdictOf_severity]
  by_cases he : profile.severity d = .error
  · obtain ⟨hsat, hhit⟩ := h he
    have hoff : profile.severity d ≠ .off := by rw [he]; decide
    have hv : (degraded profile missing d
        (verdictOf py .design profile body d raw)).satisfied = true := by
      rw [degraded_satisfied (by rw [verdictOf_severity]; exact hoff)]
      exact Or.inr ⟨(verdictOf_satisfied hoff hsat).1, hhit⟩
    rw [hv]
    rfl
  · simp [he]

variable (py float rs ds profile i)

theorem design_agrees : DesignAgrees py float rs profile i := by
  intro h
  obtain ⟨raw, missing, hraw, hmissing, hall⟩ :=
    (sealed_iff_closed py float rs [] profile i).mp h
  have hclosed : ∀ d, profile.severity d = .error →
      (raw d).status = .satisfied ∧ ¬SlotsHit profile missing d := by
    intro d hd
    refine (hall d hd).resolve_right ?_
    rintro ⟨disp, hdisp, -⟩
    cases hdisp
  have hj : ∃ j, judge py float .design profile i = .ok j ∧ j.verdict = fun d =>
      degraded profile missing d (verdictOf py .design profile i.body d (raw d)) :=
    ⟨_, Fallible.bind_eq_ok.mpr ⟨raw, hraw, Fallible.bind_eq_ok.mpr ⟨missing, hmissing, rfl⟩⟩, rfl⟩
  obtain ⟨j, hj, hv⟩ := hj
  refine ⟨_, Fallible.map_eq_ok.mpr ⟨j, hj, rfl⟩, ?_⟩
  refine List.countP_eq_zero.mpr (fun d _ => ?_)
  have hfalse : (j.verdict d).isError rs .design none = false := by
    rw [hv]
    exact not_isError_design (hclosed d)
  rw [Bool.not_eq_true]
  exact hfalse

def SlotsListed : Prop :=
  ∀ mode missing r, missingRequiredSlots float i.body profile = .ok missing →
    compute5w1hCompleteness py float rs mode ds profile i = .ok r →
    ∃ fields, r.toDict = .obj fields ∧
      ("missing_required_slots".toList, .arr (missing.map .str)) ∈ fields

theorem slots_listed : SlotsListed py float rs ds profile i := by
  intro mode missing r hmissing hr
  obtain ⟨j, hj, rfl⟩ := Fallible.map_eq_ok.mp hr
  obtain ⟨raw, -, hj⟩ := Fallible.bind_eq_ok.mp hj
  obtain ⟨missing', hmissing', hj⟩ := Fallible.bind_eq_ok.mp hj
  cases hmissing.symm.trans hmissing'
  cases hj
  refine ⟨_, rfl, List.mem_append_left _ ?_⟩
  simp

theorem seal_mode_contract :
    (Sealed py float rs ds profile i ↔ ErrorDimensionsClosed py float rs ds profile i) ∧
      (profile.severity profile.requiredSlotsDimension = .error →
        MissingSlotBlocks py float rs ds profile i) ∧
      SlotsListed py float rs ds profile i ∧
      DesignAgrees py float rs profile i :=
  ⟨sealed_iff_closed py float rs ds profile i, missing_slot_blocks py float rs ds profile i,
    slots_listed py float rs ds profile i, design_agrees py float rs profile i⟩

end contract

def warnedSlot : Profile where
  profileId := "where_slot.v1".toList
  severities d := some (defaultSeverities d)
  requiredSlots := ["region".toList]
  vocabularyHints _ := none
  heuristicKeywords _ := []
  requiredSlotsDimension := .where_

def coreResolvers : Resolvers where
  isRegistered s := s = "constant".toList
  listing := "['constant']".toList

theorem warnedSlot_sealed (py : PyText) (float : PyFloat) (rs : Resolvers) :
    Sealed py float rs [] warnedSlot fullInputs := by
  obtain ⟨raw, hraw, hsat⟩ := fullInputs_raw py float
  refine (sealed_iff_closed py float rs [] warnedSlot fullInputs).mpr
    ⟨raw, _, hraw, fullInputs_missing float warnedSlot, fun d hd => Or.inl ⟨hsat d, ?_⟩⟩
  rintro ⟨-, rfl⟩
  cases hd

theorem warned_slot_does_not_block :
    ¬((Sealed Queue.plainPy (fun _ => none) coreResolvers [] warnedSlot fullInputs ↔
        ErrorDimensionsClosed Queue.plainPy (fun _ => none) coreResolvers [] warnedSlot
          fullInputs) ∧
      MissingSlotBlocks Queue.plainPy (fun _ => none) coreResolvers [] warnedSlot fullInputs ∧
      DesignAgrees Queue.plainPy (fun _ => none) coreResolvers warnedSlot fullInputs) := by
  rintro ⟨-, hblocks, -⟩
  obtain ⟨disp, hdisp, -⟩ := hblocks _ (fullInputs_missing _ warnedSlot)
    (List.cons_ne_nil _ _) (warnedSlot_sealed _ _ _)
  cases hdisp

end TraceMind.Intent
