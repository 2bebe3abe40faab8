import TraceMind.Verify.Deepening
import TraceMind.Verify.Exploration

namespace TraceMind.Verify

open BoundedSearch Ctl

section saturation

variable {V : Type} {c : ComponentAdapter V} {root s : State V} {d d' : ℤ} {k : ℕ}
  {r r₁ r' : ExplorationResult V}

theorem Explores.closed (hd : 0 ≤ d) (h : Explores c d root r) (h₁ : Explores c (d + 1) root r₁)
    (he : r₁.states = r.states) (hw : Walk (Next c.successors) root k s) : s ∈ r.states := by
  induction hw with
  | refl => exact (h.listed _).mpr ⟨0, Nat.zero_le _, .refl⟩
  | @tail n t u hw ht ih =>
    obtain ⟨j, hj, hwj⟩ := (h.listed t).mp ih
    rw [← he]
    exact (h₁.listed u).mpr ⟨j + 1, by omega, hwj.tail ht⟩

theorem Explores.distance_le (h : Explores c d root r) {i : ℕ} (hi : r.states[i]? = some s) :
    ∃ j, j ≤ d.toNat ∧ Distance c root s j := by
  obtain ⟨n, hn, hw⟩ := (h.listed s).mp (List.mem_of_getElem? hi)
  obtain ⟨j, hj⟩ := exists_distance hw
  exact ⟨j, (hj.2 hw).trans hn, hj⟩

theorem Explores.saturated (hd : 0 ≤ d) (hle : d + 1 ≤ d') (h : Explores c d root r)
    (h₁ : Explores c (d + 1) root r₁) (h' : Explores c d' root r') (he : r₁.states = r.states)
    (hdeep : Deepened r₁ r') :
    r'.states = r₁.states ∧ ∀ i, r'.edges.lookup i = r₁.edges.lookup i := by
  have hsub : r'.states ⊆ r₁.states := by
    intro s hs
    obtain ⟨n, -, hw⟩ := (h'.listed s).mp hs
    rw [he]
    exact h.closed hd h₁ he hw
  have hstates : r'.states = r₁.states := by
    have hlen := (h'.once.subperm hsub).length_le
    exact (hdeep.states.eq_of_length_le hlen).symm
  refine ⟨hstates, fun i => ?_⟩
  rcases hl : r₁.edges.lookup i with _ | js
  · rcases hi : r₁.states[i]? with _ | s
    · apply h'.outside i
      rw [hstates]
      exact List.getElem?_eq_none_iff.mp hi
    · obtain ⟨j, hj, hdist⟩ := h.distance_le (he ▸ hi)
      obtain ⟨ys, hys, hall⟩ := h₁.expanded i s j hi hdist (by omega)
      obtain ⟨ys', hys', hall'⟩ := h'.expanded i s j (hstates ▸ hi) hdist (by omega)
      rw [hl, Option.getD_none, List.forall₂_nil_right_iff] at hall
      rw [hys, hall] at hys'
      cases hys'
      rcases hl' : r'.edges.lookup i with _ | js
      · rfl
      · rw [hl', Option.getD_some, List.forall₂_nil_left_iff] at hall'
        exact absurd (hall' ▸ hl') (h'.filled i)
  · exact hdeep.edges i js hl

theorem holds_congr (hs : r'.states = r.states) (hl : ∀ i, r'.edges.lookup i = r.edges.lookup i)
    (enabled : State V → List Str) (e : Expr) : Holds r' enabled e = Holds r enabled e := by
  have hstep : Step r' = Step r := by
    funext i j
    simp only [Step, Edge, hl]
  induction e with
  | predicate n v => simp only [Holds, hs]
  | not e ih => simp only [Holds, ih]
  | and p q hp hq => simp only [Holds, hp, hq]
  | or p q hp hq => simp only [Holds, hp, hq]
  | ctl op e ih => cases op <;> simp only [Holds, hstep, ih]
  | «until» op p q hp hq => cases op <;> simp only [Holds, hstep, hp, hq]

theorem exhausted_verdicts_final [DecidableEq V] {u u₁ u' : Unit} (hd : 0 ≤ d) (hle : d + 1 ≤ d')
    (h : Explorer.run c.stateless () d .full = .ok (r, u))
    (h₁ : Explorer.run c.stateless () (d + 1) .full = .ok (r₁, u₁))
    (h' : Explorer.run c.stateless () d' .full = .ok (r', u'))
    (hlen : r₁.states.length = r.states.length) :
    r'.states = r.states ∧ (∀ i, r'.edges.lookup i = r₁.edges.lookup i) ∧
      (∀ i, i ∈ r'.deadlocks ↔ i ∈ r₁.deadlocks) ∧
      ∀ (enabled : State V → List Str) (e : Expr), checkCtl e r' enabled = checkCtl e r₁ enabled := by
  obtain ⟨root, hroot, hr⟩ := explores_of_run h
  obtain ⟨root₁, hroot₁, hr₁⟩ := explores_of_run h₁
  obtain ⟨root', hroot', hr'⟩ := explores_of_run h'
  cases hroot.symm.trans hroot₁
  cases hroot.symm.trans hroot'
  have he : r₁.states = r.states :=
    ((Explorer.run_deepened (by omega) h h₁).states.eq_of_length_le hlen.le).symm
  obtain ⟨hs, hl⟩ := hr.saturated hd hle hr₁ hr' he (Explorer.run_deepened hle h₁ h')
  refine ⟨hs.trans he, hl, fun i => ?_, fun enabled e => ?_⟩
  · rw [hr'.deadlocks, hr₁.deadlocks, hs, hl]
  · ext i
    rw [checkCtl_denotes (Explorer.run_wellFormed h'),
      checkCtl_denotes (Explorer.run_wellFormed h₁), hs, holds_congr hs hl]

theorem round_trip_verdicts_final :
    ∃ r r₁ r' u u₁ u', Explorer.run roundTrip.stateless () 4 .full = .ok (r, u) ∧
      Explorer.run roundTrip.stateless () (4 + 1) .full = .ok (r₁, u₁) ∧
      Explorer.run roundTrip.stateless () 8 .full = .ok (r', u') ∧
      ∀ e, checkCtl e r' roundTrip.enabledSteps = checkCtl e r₁ roundTrip.enabledSteps := by
  have hrun : ∃ r r₁ r' u u₁ u', Explorer.run roundTrip.stateless () 4 .full = .ok (r, u) ∧
      Explorer.run roundTrip.stateless () (4 + 1) .full = .ok (r₁, u₁) ∧
      Explorer.run roundTrip.stateless () 8 .full = .ok (r', u') ∧
      r₁.states.length = r.states.length :=
    ⟨_, _, _, _, _, _, rfl, rfl, rfl, by decide +kernel⟩
  obtain ⟨r, r₁, r', u, u₁, u', h, h₁, h', hlen⟩ := hrun
  exact ⟨r, r₁, r', u, u₁, u', h, h₁, h', fun e =>
    (exhausted_verdicts_final (by decide) (by decide) h h₁ h' hlen).2.2.2 roundTrip.enabledSteps e⟩

end saturation

end TraceMind.Verify
