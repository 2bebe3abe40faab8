import TraceMind.Control.Convergence
import TraceMind.Foundation.Loops

namespace TraceMind.Control

open Fallible (bind_eq_ok)
open Queue (PyText)

section controller

variable {F σ : Type}

abbrev L1Runner (σ : Type) := σ → ℕ → Except MetaError L1CycleResult × σ

structure MetaController (F σ : Type) where
  l1Runner : L1Runner σ
  detector : ConvergenceDetector F
  escalator : Escalator := {}
  maxCycles : ℤ := 10
  kpiKeys : Option (List Str) := none

structure MetaControllerResult (F : Type) where
  totalCycles : ℤ
  converged : Bool
  finalVerdict : ConvergenceVerdict F
  escalation : Option (EscalationReport F)
  cycleRecords : List (CycleRecord F)

structure MetaProgress (F σ : Type) where
  state : σ
  tracker : KpiTracker F
  records : List (CycleRecord F) := []

structure Times where
  cycle : ℕ → Str
  report : Stamp

structure MetaRun (F : Type) where
  calls : List ℕ
  result : Except MetaError (MetaControllerResult F)

variable [Floats F] (py : PyText) (times : Times)

namespace MetaController

variable (c : MetaController F σ)

def feed (k : ℕ) (p : MetaProgress F σ) : Except MetaError (MetaProgress F σ) := do
  let result ← (c.l1Runner p.state k).1
  let rec_ ← CycleRecord.fromCycleOutputs py
    ("cycle-".toList ++ intText k ++ '-' :: times.cycle k) result c.kpiKeys
  return {
    state := (c.l1Runner p.state k).2
    tracker := p.tracker.record rec_
    records := p.records ++ [rec_] }

def finish (total : ℤ) (p : MetaProgress F σ) (v : ConvergenceVerdict F) :
    Except MetaError (MetaControllerResult F) := do
  let escalation ← c.escalator.evaluate times.report p.tracker [v]
  return ⟨total, false, v, escalation, p.records⟩

def body (k : ℕ) (p : MetaProgress F σ) :
    Except MetaError (MetaProgress F σ ⊕ MetaControllerResult F) := do
  let p ← c.feed py times k p
  let v ← c.detector.evaluate p.tracker
  if v.converged then return .inr ⟨k, true, v, none, p.records⟩
  else if v.needsEscalation then return .inr (← c.finish times k p v)
  else return .inl p

def afterLoop : MetaProgress F σ ⊕ MetaControllerResult F →
    Except MetaError (MetaControllerResult F)
  | .inr r => .ok r
  | .inl p => do
    let v ← c.detector.evaluate p.tracker
    c.finish times c.maxCycles p v

def run (p : MetaProgress F σ) : MetaRun F :=
  let out := EarlyExit.loop (c.body py times) c.maxCycles.toNat 1 p
  ⟨out.1, out.2 >>= c.afterLoop times⟩

end MetaController

end controller

section promise

variable {F σ : Type} [Floats F] (py : PyText) (times : Times) (c : MetaController F σ)
  (p : MetaProgress F σ)

namespace MetaController

def fed : ℕ → Except MetaError (MetaProgress F σ)
  | 0 => .ok p
  | k + 1 => fed k >>= c.feed py times (k + 1)

def verdictAfter (k : ℕ) : Except MetaError (ConvergenceVerdict F) :=
  c.fed py times p k >>= fun q => c.detector.evaluate q.tracker

def Decisive (v : ConvergenceVerdict F) : Prop := v.converged = true ∨ v.needsEscalation = true

def Undecided (k : ℕ) : Prop := ∃ v, c.verdictAfter py times p k = .ok v ∧ ¬Decisive v

structure Promise (out : MetaRun F) : Prop where
  gapless : out.calls = List.range' 1 out.calls.length
  budget : out.calls.length ≤ c.maxCycles.toNat
  goesOn : ∀ k, 1 ≤ k → k < out.calls.length → c.Undecided py times p k
  stops : out.calls.length < c.maxCycles.toNat →
    ∃ v, c.verdictAfter py times p out.calls.length = .ok v ∧ Decisive v
  answer : ∃ r, out.result = .ok r ∧
    (r.converged = true ∨ ∃ report, r.escalation = some report ∧ report.verdicts ≠ [])

def Answered (q : MetaProgress F σ) : Prop :=
  ∃ v, c.detector.evaluate q.tracker = .ok v ∧ (v.converged = true ∨ v.needsEscalation = true ∧
    (errorTexts (q.tracker.window.flatMap CycleRecord.errors)).isSome = true)

def Settles : Prop :=
  (∃ k q, 1 ≤ k ∧ k ≤ c.maxCycles.toNat ∧
    (∀ j, 1 ≤ j → j < k → c.Undecided py times p j) ∧ c.fed py times p k = .ok q ∧
    c.Answered q) ∨
  c.maxCycles ≤ 0 ∧ ∃ v, c.detector.evaluate p.tracker = .ok v ∧ v.needsEscalation = true ∧
    (errorTexts (p.tracker.window.flatMap CycleRecord.errors)).isSome = true

end MetaController

end promise

section loop

variable {F σ : Type} [Floats F] {py : PyText} {times : Times} {c : MetaController F σ}
  {p q t : MetaProgress F σ} {k : ℕ}

namespace MetaController

theorem body_goes_on : c.body py times k t = .ok (.inl q) ↔
    c.feed py times k t = .ok q ∧ ∃ v, c.detector.evaluate q.tracker = .ok v ∧ ¬Decisive v := by
  rw [body, bind_eq_ok]
  constructor
  · rintro ⟨q', hfeed, h⟩
    obtain ⟨v, hv, h⟩ := bind_eq_ok.mp h
    split_ifs at h with hconv hneeds
    · cases h
    · obtain ⟨r, -, h⟩ := bind_eq_ok.mp h
      cases h
    · cases h
      exact ⟨hfeed, v, hv, not_or.mpr ⟨hconv, hneeds⟩⟩
  · rintro ⟨hfeed, v, hv, hnot⟩
    obtain ⟨hconv, hneeds⟩ := not_or.mp hnot
    refine ⟨q, hfeed, bind_eq_ok.mpr ⟨v, hv, ?_⟩⟩
    rw [if_neg hconv, if_neg hneeds]
    rfl

theorem finish_answers {total : ℤ} {v : ConvergenceVerdict F} {r : MetaControllerResult F}
    (h : c.finish times total q v = .ok r) : r.converged = false ∧
      ((∃ report, r.escalation = some report ∧ report.verdicts ≠ []) →
        v.needsEscalation = true ∧
          (errorTexts (q.tracker.window.flatMap CycleRecord.errors)).isSome = true) := by
  obtain ⟨e, he, hr⟩ := bind_eq_ok.mp h
  cases hr
  refine ⟨rfl, ?_⟩
  rintro ⟨report, rfl, -⟩
  rw [Escalator.evaluate] at he
  cases hneeds : v.needsEscalation with
  | false =>
    rw [List.filter_cons_of_neg (by rw [hneeds]; exact Bool.false_ne_true)] at he
    cases he
  | true =>
    rw [List.filter_cons_of_pos hneeds] at he
    obtain ⟨errors, herrors, -⟩ := bind_eq_ok.mp he
    rw [Escalator.recentErrors] at herrors
    refine ⟨rfl, ?_⟩
    cases htexts : errorTexts (q.tracker.window.flatMap CycleRecord.errors) with
    | none =>
      rw [htexts] at herrors
      cases herrors
    | some texts => rfl

theorem finish_ok (c : MetaController F σ) (times : Times) (total : ℤ)
    {v : ConvergenceVerdict F} (hneeds : v.needsEscalation = true)
    (htexts : (errorTexts (q.tracker.window.flatMap CycleRecord.errors)).isSome = true) :
    ∃ r, c.finish times total q v = .ok r ∧
      ∃ report, r.escalation = some report ∧ report.verdicts ≠ [] := by
  obtain ⟨texts, htexts⟩ := Option.isSome_iff_exists.mp htexts
  rw [finish, Escalator.evaluate, List.filter_cons_of_pos hneeds]
  dsimp only
  rw [Escalator.recentErrors, htexts]
  exact ⟨_, rfl, _, rfl, List.cons_ne_nil _ _⟩

theorem body_answers {r : MetaControllerResult F} (h : c.body py times k t = .ok (.inr r))
    (hanswer : r.converged = true ∨ ∃ report, r.escalation = some report ∧ report.verdicts ≠ []) :
    ∃ q, c.feed py times k t = .ok q ∧ c.Answered q := by
  obtain ⟨q, hfeed, h⟩ := bind_eq_ok.mp h
  obtain ⟨v, hv, h⟩ := bind_eq_ok.mp h
  refine ⟨q, hfeed, v, hv, ?_⟩
  split_ifs at h with hconv hneeds
  · exact Or.inl hconv
  · obtain ⟨r', hfinish, h⟩ := bind_eq_ok.mp h
    cases h
    obtain ⟨hfalse, hreport⟩ := finish_answers hfinish
    rw [hfalse] at hanswer
    exact Or.inr (hreport (hanswer.resolve_left Bool.false_ne_true))
  · cases h

theorem body_ok (hfeed : c.feed py times k t = .ok q) (h : c.Answered q) :
    ∃ r, c.body py times k t = .ok (.inr r) ∧
      (r.converged = true ∨ ∃ report, r.escalation = some report ∧ report.verdicts ≠ []) := by
  obtain ⟨v, hv, hanswer⟩ := h
  have hbody : c.body py times k t =
      if v.converged then .ok (.inr ⟨k, true, v, none, q.records⟩)
      else if v.needsEscalation then (c.finish times k q v).map .inr
      else .ok (.inl q) := by
    rw [body, hfeed]
    change (c.detector.evaluate q.tracker >>= _) = _
    rw [hv]
    change (if _ then _ else _) = _
    split_ifs
    · rfl
    · cases c.finish times k q v <;> rfl
    · rfl
  rw [hbody]
  by_cases hconv : v.converged = true
  · rw [if_pos hconv]
    exact ⟨_, rfl, Or.inl rfl⟩
  · obtain ⟨hneeds, htexts⟩ := hanswer.resolve_left hconv
    obtain ⟨r, hr, hreport⟩ := finish_ok c times k hneeds htexts
    rw [if_neg hconv, if_pos hneeds, hr]
    exact ⟨r, rfl, Or.inr hreport⟩

theorem undecided_of_body (hfed : c.fed py times p k = .ok t)
    (hbody : c.body py times (k + 1) t = .ok (.inl q)) :
    c.fed py times p (k + 1) = .ok q ∧ c.Undecided py times p (k + 1) := by
  obtain ⟨hfeed, v, hv, hnot⟩ := body_goes_on.mp hbody
  have hnext : c.fed py times p (k + 1) = .ok q := bind_eq_ok.mpr ⟨t, hfed, hfeed⟩
  exact ⟨hnext, v, bind_eq_ok.mpr ⟨q, hnext, hv⟩, hnot⟩

theorem body_of_undecided (hfed : c.fed py times p k = .ok t)
    (h : c.Undecided py times p (k + 1)) : ∃ q, c.body py times (k + 1) t = .ok (.inl q) := by
  obtain ⟨v, hverdict, hnot⟩ := h
  obtain ⟨q, hnext, hv⟩ := bind_eq_ok.mp hverdict
  obtain ⟨t', ht', hfeed⟩ := bind_eq_ok.mp hnext
  rw [hfed] at ht'
  cases ht'
  exact ⟨q, body_goes_on.mpr ⟨hfeed, v, hv, hnot⟩⟩

theorem fed_of_before (h : EarlyExit.Before (c.body py times) 1 p k t) :
    c.fed py times p k = .ok t ∧ ∀ j, 1 ≤ j → j ≤ k → c.Undecided py times p j := by
  induction h with
  | start =>
    refine ⟨rfl, ?_⟩
    intro j hj hj'
    omega
  | @next i t t' _ hbody ih =>
    rw [Nat.add_comm] at hbody
    obtain ⟨hnext, hundecided⟩ := undecided_of_body ih.1 hbody
    refine ⟨hnext, ?_⟩
    intro j hj hj'
    rcases Nat.lt_or_eq_of_le hj' with hlt | rfl
    · exact ih.2 j hj (Nat.le_of_lt_succ hlt)
    · exact hundecided

theorem not_undecided (hfed : c.fed py times p k = .ok q) {v : ConvergenceVerdict F}
    (hv : c.detector.evaluate q.tracker = .ok v) (hdecisive : Decisive v) :
    ¬c.Undecided py times p k := by
  rintro ⟨u, hu, hnot⟩
  obtain ⟨q', hq', hu⟩ := bind_eq_ok.mp hu
  rw [hfed] at hq'
  cases hq'
  rw [hv] at hu
  cases hu
  exact hnot hdecisive

theorem decisive_of_answered (h : c.Answered q) :
    ∃ v, c.detector.evaluate q.tracker = .ok v ∧ Decisive v := by
  obtain ⟨v, hv, hanswer⟩ := h
  exact ⟨v, hv, hanswer.imp_right And.left⟩

theorem promise_of_ends {i : ℕ} (hi : i < c.maxCycles.toNat)
    (hbefore : EarlyExit.Before (c.body py times) 1 p i t)
    (hcalls : (c.run py times p).calls = List.range' 1 (i + 1))
    (hends : EarlyExit.Ends (c.body py times) 1 i t
      (EarlyExit.loop (c.body py times) c.maxCycles.toNat 1 p).2) :
    c.Promise py times p (c.run py times p) ↔ c.Settles py times p := by
  obtain ⟨hfed, hundecided⟩ := fed_of_before hbefore
  obtain ⟨hbody, hstop⟩ := hends
  rw [Nat.add_comm] at hbody
  have hlength : (c.run py times p).calls.length = i + 1 := by rw [hcalls, List.length_range']
  constructor
  · intro h
    obtain ⟨r, hr, hanswer⟩ := h.answer
    obtain ⟨w, hw, hr⟩ := bind_eq_ok.mp hr
    rw [hw] at hbody hstop
    cases w with
    | inl q => exact absurd rfl (hstop q)
    | inr r' =>
      cases hr
      obtain ⟨q, hfeed, hq⟩ := body_answers hbody hanswer
      refine Or.inl ⟨i + 1, q, Nat.succ_pos i, hi, ?_, bind_eq_ok.mpr ⟨t, hfed, hfeed⟩, hq⟩
      intro j hj hj'
      exact hundecided j hj (Nat.le_of_lt_succ hj')
  · rintro (⟨k, q, hk, hk', hall, hq, hanswer⟩ | ⟨hmax, -⟩)
    · obtain ⟨v, hv, hdecisive⟩ := decisive_of_answered hanswer
      have hge : i + 1 ≤ k := by
        by_contra hlt
        exact not_undecided hq hv hdecisive (hundecided k hk (by omega))
      have hle : k ≤ i + 1 := by
        by_contra hlt
        obtain ⟨q', hgoes⟩ := body_of_undecided hfed (hall (i + 1) (Nat.succ_pos i) (by omega))
        rw [hgoes] at hbody
        exact hstop q' hbody.symm
      obtain rfl : k = i + 1 := Nat.le_antisymm hle hge
      obtain ⟨t', ht', hfeed⟩ := bind_eq_ok.mp hq
      rw [hfed] at ht'
      cases ht'
      obtain ⟨r, hr, hreport⟩ := body_ok hfeed hanswer
      rw [hr] at hbody
      refine ⟨?_, ?_, ?_, ?_, r, ?_, hreport⟩
      · rw [hlength]
        exact hcalls
      · rw [hlength]
        exact hi
      · intro j hj hj'
        rw [hlength] at hj'
        exact hundecided j hj (Nat.le_of_lt_succ hj')
      · intro _
        rw [hlength]
        exact ⟨v, bind_eq_ok.mpr ⟨q, hq, hv⟩, hdecisive⟩
      · rw [run, ← hbody]
        rfl
    · omega

theorem promise_of_exhausted
    (hbefore : EarlyExit.Before (c.body py times) 1 p c.maxCycles.toNat t)
    (hloop : EarlyExit.loop (c.body py times) c.maxCycles.toNat 1 p =
      (List.range' 1 c.maxCycles.toNat, .ok (.inl t))) :
    c.Promise py times p (c.run py times p) ↔ c.Settles py times p := by
  obtain ⟨hfed, hundecided⟩ := fed_of_before hbefore
  have hcalls : (c.run py times p).calls = List.range' 1 c.maxCycles.toNat := by rw [run, hloop]
  have hlength : (c.run py times p).calls.length = c.maxCycles.toNat := by
    rw [hcalls, List.length_range']
  have hresult : (c.run py times p).result =
      c.detector.evaluate t.tracker >>= fun v => c.finish times c.maxCycles t v := by
    rw [run, hloop]
    rfl
  constructor
  · intro h
    obtain ⟨r, hr, hanswer⟩ := h.answer
    rw [hresult] at hr
    obtain ⟨v, hv, hfinish⟩ := bind_eq_ok.mp hr
    obtain ⟨hfalse, hreport⟩ := finish_answers hfinish
    rw [hfalse] at hanswer
    obtain ⟨hneeds, htexts⟩ := hreport (hanswer.resolve_left Bool.false_ne_true)
    rcases Nat.eq_zero_or_pos c.maxCycles.toNat with hzero | hpos
    · rw [hzero] at hfed
      cases hfed
      exact Or.inr ⟨Int.toNat_eq_zero.mp hzero, v, hv, hneeds, htexts⟩
    · exact absurd (hundecided _ hpos le_rfl) (not_undecided hfed hv (Or.inr hneeds))
  · rintro (⟨k, q, hk, hk', -, hq, hanswer⟩ | ⟨hmax, v, hv, hneeds, htexts⟩)
    · obtain ⟨v, hv, hdecisive⟩ := decisive_of_answered hanswer
      exact absurd (hundecided k hk hk') (not_undecided hq hv hdecisive)
    · have hzero : c.maxCycles.toNat = 0 := Int.toNat_eq_zero.mpr hmax
      rw [hzero] at hfed
      cases hfed
      obtain ⟨r, hr, hreport⟩ := finish_ok c times c.maxCycles hneeds htexts
      refine ⟨?_, ?_, ?_, ?_, r, ?_, Or.inr hreport⟩
      · rw [hlength]
        exact hcalls
      · exact hlength.le
      · intro j hj hj'
        omega
      · intro hlt
        omega
      · rw [hresult, hv]
        exact hr

theorem promise_iff (c : MetaController F σ) (py : PyText) (times : Times) (p : MetaProgress F σ) :
    c.Promise py times p (c.run py times p) ↔ c.Settles py times p := by
  rcases EarlyExit.loop_spec (c.body py times) c.maxCycles.toNat 1 p with
    ⟨i, t, hi, hbefore, hcalls, hends⟩ | ⟨t, hbefore, hloop⟩
  · exact promise_of_ends hi hbefore hcalls hends
  · exact promise_of_exhausted hbefore hloop

end MetaController

end loop

instance : Floats ℤ where
  zero := 0
  sub a b := a - b
  abs a := |a|
  lt a b := a < b
  fixed := intText
  signed := intText
  str := intText
  ofJson v :=
    match v with
    | .int n => some n
    | _ => none

def fallingRunner : L1Runner Unit := fun s k =>
  (.ok {
    snapshot := [("environment".toList, .obj [("metrics".toList, .obj [(['x'], .int (9 - k))])])]
    report := [("status".toList, .str "ok".toList)] }, s)

def fallingController : MetaController ℤ Unit where
  l1Runner := fallingRunner
  detector := { targetKpi := ['x'], targetValue := 0, tolerance := 1, stallThreshold := 1 }
  maxCycles := 3

def sampleTimes : Times := ⟨fun _ => [], ⟨[], []⟩⟩

def freshStart : MetaProgress ℤ Unit := ⟨(), { windowSize := 3 }, []⟩

theorem improving_run_unanswered : ¬fallingController.Promise Queue.plainPy sampleTimes freshStart
    (fallingController.run Queue.plainPy sampleTimes freshStart) := by
  intro h
  obtain ⟨r, hr, hanswer⟩ := h.answer
  have hrun : ((fallingController.run Queue.plainPy sampleTimes freshStart).result.toOption.map
      fun r => (r.converged, r.escalation.isSome)) = some (false, false) := by decide +kernel
  rw [hr] at hrun
  obtain ⟨hconverged, hnone⟩ := Prod.mk.inj (Option.some.inj hrun)
  rcases hanswer with hyes | ⟨report, hreport, -⟩
  · rw [hyes] at hconverged
    cases hconverged
  · rw [hreport] at hnone
    cases hnone

end TraceMind.Control
