import TraceMind.Verify.Report

namespace TraceMind.Verify

open BoundedSearch Branching Ctl

section deepening

variable {μ V : Type} {r r' : ExplorationResult V} {enabled : State V → List Str} {p q : Expr}

structure Deepened (r r' : ExplorationResult V) : Prop where
  states : r.states <+: r'.states
  edges : ∀ i js, r.edges.lookup i = some js → r'.edges.lookup i = some js

theorem Explorer.run_deepened [DecidableEq V] {a : Adapter μ V} {m m1 m2 : μ} {d d' : ℤ}
    {mode : HashMode} (hle : d ≤ d') (h : Explorer.run a m d mode = .ok (r, m1))
    (h' : Explorer.run a m d' mode = .ok (r', m2)) : Deepened r r' := by
  obtain ⟨root, m0, s, hi, hs, rfl⟩ := Explorer.run_eq_ok h
  obtain ⟨root', m0', s', hi', hs', rfl⟩ := Explorer.run_eq_ok h'
  rw [hi] at hi'
  cases hi'
  have hbound : (Explorer.space a d mode).bound ≤ d'.toNat := Int.toNat_le_toNat hle
  obtain ⟨hstates, hedges⟩ := search_within hbound hs hs'
  exact ⟨hstates, hedges⟩

theorem Deepened.extends (h : Deepened r r') (hr : r.WellFormed) :
    Extends (Step r) (Step r') (fun i => i < r.states.length) where
  closed := fun _ hs => (step_lt hr hs).2
  sub := by
    rintro s t - ⟨js, hl, ht⟩
    exact ⟨js, h.edges s js hl, ht⟩
  same := by
    rintro s t u - ⟨js, hl, -⟩ ⟨js', hl', hu⟩
    rw [h.edges s js hl] at hl'
    cases hl'
    exact ⟨js, hl, hu⟩

theorem Deepened.holds_iff (h : Deepened r r') (hp : hasCtlNodes p = false) {i : ℕ}
    (hi : i < r.states.length) : Holds r enabled p i ↔ Holds r' enabled p i := by
  have hget := List.getElem?_eq_getElem hi
  have hget' : r'.states[i]? = some r.states[i] := List.prefix_iff_getElem?.mp h.states i hi
  rw [holds_truth hp hget, holds_truth hp hget']

theorem Deepened.mem_checkCtl (h : Deepened r r') (hr : r.WellFormed) (hr' : r'.WellFormed)
    {e : Expr} (hpos : 0 < r.states.length)
    (hforth : Holds r enabled e 0 → Holds r' enabled e 0) (h0 : 0 ∈ checkCtl e r enabled) :
    0 ∈ checkCtl e r' enabled := by
  rw [checkCtl_denotes hr] at h0
  rw [checkCtl_denotes hr']
  exact ⟨lt_of_lt_of_le hpos h.states.length_le, hforth h0.2⟩

theorem verdicts_deepen [DecidableEq V] {a : Adapter μ V} {m m1 m2 : μ} {d d' : ℤ}
    {mode : HashMode} (hle : d ≤ d') (h : Explorer.run a m d mode = .ok (r, m1))
    (h' : Explorer.run a m d' mode = .ok (r', m2)) (enabled : State V → List Str)
    (hp : hasCtlNodes p = false) (hq : hasCtlNodes q = false) :
    (0 ∈ checkCtl (.ctl .EF p) r enabled → 0 ∈ checkCtl (.ctl .EF p) r' enabled) ∧
    (0 ∈ checkCtl (.ctl .AF p) r enabled → 0 ∈ checkCtl (.ctl .AF p) r' enabled) ∧
    (0 ∈ checkCtl (.until .EU p q) r enabled → 0 ∈ checkCtl (.until .EU p q) r' enabled) ∧
    (0 ∈ checkCtl (.until .AU p q) r enabled → 0 ∈ checkCtl (.until .AU p q) r' enabled) ∧
    (0 ∉ checkCtl (.ctl .AG p) r enabled → 0 ∉ checkCtl (.ctl .AG p) r' enabled) := by
  have hr := Explorer.run_wellFormed h
  have hr' := Explorer.run_wellFormed h'
  have hpos := (Explorer.run_rooted h).1
  have hdeep := Explorer.run_deepened hle h h'
  have hE := hdeep.extends hr
  have htrue : ∀ i, i < r.states.length → True → True := fun _ _ _ => trivial
  have hP : ∀ i, i < r.states.length → Holds r enabled p i → Holds r' enabled p i :=
    fun i hi => (hdeep.holds_iff hp hi).mp
  have hnP : ∀ i, i < r.states.length → ¬ Holds r enabled p i → ¬ Holds r' enabled p i :=
    fun i hi hh hh' => hh ((hdeep.holds_iff hp hi).mpr hh')
  have hQ : ∀ i, i < r.states.length → Holds r enabled q i → Holds r' enabled q i :=
    fun i hi => (hdeep.holds_iff hq hi).mp
  refine ⟨hdeep.mem_checkCtl hr hr' hpos ?_, hdeep.mem_checkCtl hr hr' hpos ?_,
    hdeep.mem_checkCtl hr hr' hpos ?_, hdeep.mem_checkCtl hr hr' hpos ?_, ?_⟩
  · intro hh
    exact EF_iff_EU.mpr (hE.EU htrue hP hpos (EF_iff_EU.mp hh))
  · intro hh
    exact AF_iff_AU.mpr (hE.AU htrue hP hpos (AF_iff_AU.mp hh))
  · exact hE.EU hP hQ hpos
  · exact hE.AU hP hQ hpos
  · intro h0 h0'
    rw [checkCtl_denotes hr] at h0
    rw [checkCtl_denotes hr'] at h0'
    refine h0 ⟨hpos, AG_iff_not_EF.mpr (fun hEF => AG_iff_not_EF.mp h0'.2 ?_)⟩
    exact EF_iff_EU.mpr (hE.EU htrue hnP hpos (EF_iff_EU.mp hEF))

theorem verdicts_deepen_of_round_trip :
    ∃ r r' u u', Explorer.run roundTrip.stateless () 1 .full = .ok (r, u) ∧
      Explorer.run roundTrip.stateless () 8 .full = .ok (r', u') ∧
      0 ∉ checkCtl (.ctl .AG (neverDone "b")) r' roundTrip.enabledSteps := by
  have hrun : ∃ r r' u u', Explorer.run roundTrip.stateless () 1 .full = .ok (r, u) ∧
      Explorer.run roundTrip.stateless () 8 .full = .ok (r', u') ∧
      0 ∉ checkCtl (.ctl .AG (neverDone "b")) r roundTrip.enabledSteps :=
    ⟨_, _, _, _, rfl, rfl, by decide +kernel⟩
  obtain ⟨r, r', u, u', h, h', h0⟩ := hrun
  obtain ⟨-, -, -, -, hAG⟩ := verdicts_deepen (q := neverDone "b") (by decide) h h'
    roundTrip.enabledSteps (p := neverDone "b") rfl rfl
  exact ⟨r, r', u, u', h, h', hAG h0⟩

end deepening

end TraceMind.Verify
