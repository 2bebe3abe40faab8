import TraceMind.Governance.Limits
import TraceMind.Governance.HalfOpen

namespace TraceMind.Governance

open Reservation (count giveBack count_giveBack_update)

namespace RateTracker

def counts (t : RateTracker) : ℕ × ℕ := (t.pending, t.active)

variable {now : ℚ} {t : RateTracker}

theorem counts_peeked (now : ℚ) (t : RateTracker) : (t.peeked now).counts = t.counts := by
  unfold RateTracker.peeked
  split_ifs <;> rfl

theorem counts_refused (h : (t.checkAndReserve now).1 = false) :
    (t.checkAndReserve now).2.counts = t.counts := by
  by_cases he : t.settings.enabled = true
  · rw [checkAndReserve_eq now t he] at h ⊢
    split_ifs at h ⊢
    exact counts_peeked now t
  · rw [checkAndReserve, if_neg he] at h
    cases h

theorem counts_cancel_reserved (h : (t.checkAndReserve now).1 = true) :
    (t.checkAndReserve now).2.cancelPending.counts = t.counts := by
  by_cases he : t.settings.enabled = true
  · have hsettings := peeked_settings now t
    rw [checkAndReserve_eq now t he] at h ⊢
    split_ifs at h ⊢
    rw [cancelPending, if_pos (by dsimp only; rw [hsettings, he]), counts, Nat.add_sub_cancel]
    exact counts_peeked now t
  · rw [checkAndReserve, if_neg he, cancelPending, if_neg he]

end RateTracker

namespace CircuitBreaker

inductive Reachable (settings : BreakerSettings) : CircuitBreaker → Prop where
  | new : Reachable settings { settings }
  | canExecute {b : CircuitBreaker} (now : ℚ) :
      Reachable settings b → Reachable settings (b.canExecute now).2
  | recordSuccess {b : CircuitBreaker} (now : ℚ) :
      Reachable settings b → Reachable settings (b.recordSuccess now)
  | recordFailure {b : CircuitBreaker} (now : ℚ) (timeout : Bool) :
      Reachable settings b → Reachable settings (b.recordFailure now timeout)
  | releaseHalfOpenSlot {b : CircuitBreaker} :
      Reachable settings b → Reachable settings b.releaseHalfOpenSlot

variable {settings : BreakerSettings} {b : CircuitBreaker} {n : ℕ} {now : ℚ}

theorem Reachable.slots (h : Reachable settings b) : ∃ n, b.Slots n := by
  induction h with
  | new => exact ⟨0, slots_new settings⟩
  | @canExecute b now _ ih =>
    obtain ⟨n, hn⟩ := ih
    cases hd : (b.canExecute now).1 with
    | false => exact ⟨n, (hn.canExecute now).2 hd⟩
    | true => exact ⟨_, (hn.canExecute now).1 hd⟩
  | recordSuccess now _ ih =>
    obtain ⟨n, hn⟩ := ih
    exact ⟨0, hn.recordSuccess.1⟩
  | recordFailure now timeout _ ih =>
    obtain ⟨n, hn⟩ := ih
    exact ⟨0, (hn.recordFailure timeout).1⟩
  | releaseHalfOpenSlot _ ih =>
    obtain ⟨n, hn⟩ := ih
    exact ⟨n - 1, hn.release rfl⟩

theorem Reachable.finish (h : Reachable settings b) (now : ℚ) (r : Report) :
    Reachable settings (b.finish now r) := by
  unfold CircuitBreaker.finish
  dsimp only
  split_ifs
  · exact h.releaseHalfOpenSlot.recordSuccess now
  · exact h.releaseHalfOpenSlot.recordFailure now _

theorem Slots.inflight_released (h : b.Slots n) (hd : (b.canExecute now).1 = true) :
    (b.canExecute now).2.releaseHalfOpenSlot.halfOpenInflight = b.halfOpenInflight := by
  have hafter := (h.canExecute now).1 hd
  rw [(hafter.release rfl).inflight, h.inflight]
  by_cases hstate : (b.canExecute now).2.state = .halfOpen
  · rw [hstate, slotIn, if_pos rfl, Nat.add_sub_cancel]
  · have hzero := hafter.free hstate
    omega

theorem Slots.inflight_refused (h : b.Slots n) (hd : (b.canExecute now).1 = false) :
    (b.canExecute now).2.halfOpenInflight = b.halfOpenInflight := by
  rw [((h.canExecute now).2 hd).inflight, h.inflight]

end CircuitBreaker

namespace GovernanceManager

def countsAt (m : GovernanceManager) : LimitKey → ℕ × ℕ :=
  count (fun st => st.rate.counts) (0, 0) m.limitStates

def inflightAt (m : GovernanceManager) : BreakerKey → ℕ :=
  count CircuitBreaker.halfOpenInflight 0 m.breakerStates

variable {m m' : GovernanceManager} {now : ℚ}

theorem limitStates_rollback {taken : List LimitKey} (hnodup : taken.Nodup)
    (m : GovernanceManager) :
    (m.rollbackLimits taken).limitStates = giveBack LimitState.cancelPending taken m.limitStates :=
  funext (limitStates_foldl_updateLimit _ hnodup m)

theorem counts_ensureLimitState (key : LimitKey) (settings : LimitSettings)
    (m : GovernanceManager) : (m.ensureLimitState key settings).rate.counts = m.countsAt key := by
  unfold ensureLimitState countsAt count
  cases m.limitStates key <;> rfl

theorem countsAt_rollback_set {taken taken' : List LimitKey} {key : LimitKey} {st : LimitState}
    (hnodup : taken.Nodup) (hnodup' : taken'.Nodup) (hfresh : key ∉ taken)
    (hsame : ∀ k ≠ key, (k ∈ taken' ↔ k ∈ taken))
    (hst : (if key ∈ taken' then st.cancelPending else st).rate.counts = m.countsAt key) :
    ((m.setLimit key st).rollbackLimits taken').countsAt = (m.rollbackLimits taken).countsAt := by
  unfold countsAt
  rw [limitStates_rollback hnodup, limitStates_rollback hnodup']
  exact funext (count_giveBack_update hfresh hsame hst)

theorem countsAt_reserveLimits {scopes : List (LimitKey × LimitSettings)} {taken : List LimitKey}
    {r : Rejection} (h : m.reserveLimits now scopes taken = (.error r, m'))
    (hnodup : (taken ++ scopes.map Prod.fst).Nodup) :
    m'.countsAt = (m.rollbackLimits taken).countsAt := by
  induction scopes generalizing taken m with
  | nil => cases h
  | cons scope scopes ih =>
    obtain ⟨key, settings⟩ := scope
    rw [List.map_cons, List.append_cons] at hnodup
    have htaken' := (List.nodup_append.mp hnodup).1
    have htaken := (List.nodup_append.mp htaken').1
    have hfresh : key ∉ taken := fun hmem =>
      (List.nodup_append.mp htaken').2.2 key hmem key (List.mem_singleton_self key) rfl
    have hcounts := counts_ensureLimitState key settings m
    rw [reserveLimits] at h
    dsimp only at h
    split_ifs at h with hrate
    · have hback := (RateTracker.counts_cancel_reserved hrate).trans hcounts
      split at h
      · rw [ih h hnodup]
        refine countsAt_rollback_set htaken htaken' hfresh (fun k hk => by simp [hk]) ?_
        rw [if_pos (by simp)]
        exact hback
      · obtain ⟨-, rfl⟩ := Prod.mk.inj h
        refine countsAt_rollback_set htaken htaken hfresh (fun k hk => Iff.rfl) ?_
        rw [if_neg hfresh]
        exact hback
    · obtain ⟨-, rfl⟩ := Prod.mk.inj h
      refine countsAt_rollback_set htaken htaken hfresh (fun k hk => Iff.rfl) ?_
      rw [if_neg hfresh]
      exact (RateTracker.counts_refused (Bool.eq_false_iff.mpr hrate)).trans hcounts

def Worked (m : GovernanceManager) : Prop :=
  ∀ key b, m.breakerStates key = some b → ∃ settings, b.Reachable settings

theorem worked_new (cfg : GovernanceConfig) : Worked { config := cfg } := fun _ _ hb => by cases hb

theorem Worked.congr (h : m.Worked) (hm : m'.breakerStates = m.breakerStates) : m'.Worked := by
  intro key b hb
  rw [hm] at hb
  exact h key b hb

theorem Worked.ensure (h : m.Worked) (key : BreakerKey) (settings : BreakerSettings) :
    ∃ settings', (m.ensureBreakerState key settings).Reachable settings' := by
  unfold ensureBreakerState
  cases hb : m.breakerStates key with
  | none => exact ⟨settings, .new⟩
  | some b => exact h key b hb

theorem Worked.set {b : CircuitBreaker} (h : m.Worked) (key : BreakerKey)
    (hb : ∃ settings, b.Reachable settings) : (m.setBreaker key b).Worked := by
  intro j b' hj
  have hget : (m.setBreaker key b).breakerStates j =
      if j = key then some b else m.breakerStates j := Function.update_apply ..
  rw [hget] at hj
  split_ifs at hj
  · obtain rfl := Option.some.inj hj
    exact hb
  · exact h j b' hj

theorem Worked.foldl_updateBreaker {f : CircuitBreaker → CircuitBreaker}
    (hf : ∀ settings b, CircuitBreaker.Reachable settings b → (f b).Reachable settings)
    (keys : List BreakerKey) (h : m.Worked) : (keys.foldl (updateBreaker f) m).Worked := by
  induction keys generalizing m with
  | nil => exact h
  | cons key keys ih =>
    refine ih ?_
    unfold updateBreaker
    split
    · exact h
    · rename_i b hb
      obtain ⟨settings, hreach⟩ := h key b hb
      exact h.set key ⟨settings, hf settings b hreach⟩

theorem Worked.release (h : m.Worked) (keys : List BreakerKey) :
    (m.releaseBreakers keys).Worked :=
  h.foldl_updateBreaker (fun _ _ hb => hb.releaseHalfOpenSlot) keys

theorem Worked.reserveBreakers (h : m.Worked) (now : ℚ)
    (scopes : List (BreakerKey × BreakerSettings)) (taken : List BreakerKey) :
    (m.reserveBreakers now scopes taken).2.Worked := by
  induction scopes generalizing taken m with
  | nil => exact h
  | cons scope scopes ih =>
    obtain ⟨key, settings⟩ := scope
    obtain ⟨settings', hreach⟩ := h.ensure key settings
    have hset := h.set key ⟨settings', hreach.canExecute now⟩
    rw [GovernanceManager.reserveBreakers]
    split_ifs
    · exact ih hset _
    · exact hset.release taken

theorem Worked.check (h : m.Worked) (request : RequestDescriptor) :
    (m.check now request).2.Worked := by
  have hchecked := check_checked now request m
  have hb := h.reserveBreakers now (m.breakersFor request) []
  revert hchecked
  generalize m.check now request = w
  intro hchecked
  cases hchecked with
  | off => exact h
  | open_ hr => rwa [hr] at hb
  | limited hr hl =>
    rw [hr] at hb
    exact (hb.congr (breakerStates_reserveLimits hl)).release _
  | admitted hr hl =>
    rw [hr] at hb
    exact hb.congr (breakerStates_reserveLimits hl)

theorem Worked.finalize (h : m.Worked) (d : GovernanceDecision) (r : Report) :
    (m.finalize now d r).Worked := by
  unfold GovernanceManager.finalize
  split_ifs
  · refine Worked.foldl_updateBreaker (fun _ _ hb => hb.finish now r) _ ?_
    exact h.congr (breakerStates_foldl_updateLimit ..)
  · exact h

theorem Worked.activate (h : m.Worked) (d : GovernanceDecision) : (m.activate now d).Worked := by
  unfold GovernanceManager.activate
  split_ifs
  · exact h.congr (breakerStates_foldl_updateLimit ..)
  · exact h

theorem Worked.cancel (h : m.Worked) (d : GovernanceDecision) : (m.cancel d).Worked := by
  unfold GovernanceManager.cancel
  split_ifs
  · exact (h.congr (breakerStates_foldl_updateLimit ..)).release _
  · exact h

theorem breakerStates_release {taken : List BreakerKey} (hnodup : taken.Nodup)
    (m : GovernanceManager) : (m.releaseBreakers taken).breakerStates =
      giveBack CircuitBreaker.releaseHalfOpenSlot taken m.breakerStates :=
  funext (breakerStates_foldl_updateBreaker _ hnodup m)

theorem inflight_ensureBreakerState (key : BreakerKey) (settings : BreakerSettings)
    (m : GovernanceManager) :
    (m.ensureBreakerState key settings).halfOpenInflight = m.inflightAt key := by
  unfold ensureBreakerState inflightAt count
  cases m.breakerStates key <;> rfl

theorem inflightAt_release_set {taken taken' : List BreakerKey} {key : BreakerKey}
    {b : CircuitBreaker} (hnodup : taken.Nodup) (hnodup' : taken'.Nodup) (hfresh : key ∉ taken)
    (hsame : ∀ k ≠ key, (k ∈ taken' ↔ k ∈ taken))
    (hb : (if key ∈ taken' then b.releaseHalfOpenSlot else b).halfOpenInflight =
      m.inflightAt key) :
    ((m.setBreaker key b).releaseBreakers taken').inflightAt =
      (m.releaseBreakers taken).inflightAt := by
  unfold inflightAt
  rw [breakerStates_release hnodup, breakerStates_release hnodup']
  exact funext (count_giveBack_update hfresh hsame hb)

theorem inflightAt_reserveBreakers {scopes : List (BreakerKey × BreakerSettings)}
    {taken : List BreakerKey} (hm : m.Worked) (now : ℚ)
    (hnodup : (taken ++ scopes.map Prod.fst).Nodup) :
    (∀ handles m', m.reserveBreakers now scopes taken = (.ok handles, m') → handles.Nodup ∧
      (m'.releaseBreakers handles).inflightAt = (m.releaseBreakers taken).inflightAt) ∧
    (∀ r m', m.reserveBreakers now scopes taken = (.error r, m') →
      m'.inflightAt = (m.releaseBreakers taken).inflightAt) := by
  induction scopes generalizing taken m with
  | nil =>
    refine ⟨fun handles m' h => ?_, fun r m' h => (by cases h)⟩
    cases h
    exact ⟨by simpa using hnodup, rfl⟩
  | cons scope scopes ih =>
    obtain ⟨key, settings⟩ := scope
    rw [List.map_cons, List.append_cons] at hnodup
    have htaken' := (List.nodup_append.mp hnodup).1
    have htaken := (List.nodup_append.mp htaken').1
    have hfresh : key ∉ taken := fun hmem =>
      (List.nodup_append.mp htaken').2.2 key hmem key (List.mem_singleton_self key) rfl
    have hinflight := inflight_ensureBreakerState key settings m
    obtain ⟨settings', hreach⟩ := hm.ensure key settings
    obtain ⟨n, hslots⟩ := hreach.slots
    have hset := hm.set key ⟨settings', hreach.canExecute now⟩
    rw [reserveBreakers]
    split_ifs with hd
    · have hback : ((m.setBreaker key ((m.ensureBreakerState key settings).canExecute now).2)
          |>.releaseBreakers (taken ++ [key])).inflightAt =
            (m.releaseBreakers taken).inflightAt := by
        refine inflightAt_release_set htaken htaken' hfresh (fun k hk => by simp [hk]) ?_
        rw [if_pos (by simp)]
        exact (hslots.inflight_released hd).trans hinflight
      rw [← hback]
      exact ih hset hnodup
    · refine ⟨fun handles m' h => (by cases h), fun r m' h => ?_⟩
      obtain ⟨-, rfl⟩ := Prod.mk.inj h
      refine inflightAt_release_set htaken htaken hfresh (fun k hk => Iff.rfl) ?_
      rw [if_neg hfresh]
      exact (hslots.inflight_refused (Bool.eq_false_iff.mpr hd)).trans hinflight

section checking

variable {request : RequestDescriptor}

theorem limitsFor_nodup (request : RequestDescriptor) (m : GovernanceManager) :
    ((m.limitsFor request).map Prod.fst).Nodup := by
  unfold limitsFor
  split_ifs
  · exact limitScopes_nodup ..
  · exact List.nodup_nil

theorem check_refused_restores (hm : m.Worked)
    (hrefused : (m.check now request).1.allowed = false) :
    (m.check now request).2.countsAt = m.countsAt ∧
      (m.check now request).2.inflightAt = m.inflightAt := by
  have hchecked := check_checked now request m
  have hnodup : ([] ++ (m.breakersFor request).map Prod.fst).Nodup := breakersFor_nodup request m
  have hbreakers := inflightAt_reserveBreakers hm now hnodup
  revert hchecked hrefused
  generalize m.check now request = w
  intro hrefused hchecked
  cases hchecked with
  | off => cases hrefused
  | open_ hb =>
    have hlimits := limitStates_reserveBreakers hb
    refine ⟨?_, hbreakers.2 _ _ hb⟩
    unfold countsAt
    rw [hlimits]
  | @limited handles r m₁ m₂ hb hl =>
    obtain ⟨hnodup, hinflight⟩ := hbreakers.1 _ _ hb
    have hcounts := countsAt_reserveLimits hl (limitsFor_nodup request m₁)
    have hlimits := limitStates_reserveBreakers hb
    have hstates := breakerStates_reserveLimits hl
    constructor
    · unfold countsAt at hcounts ⊢
      rw [releaseBreakers, limitStates_foldl_updateBreaker, hcounts, ← hlimits]
      rfl
    · rw [← show (m.releaseBreakers []).inflightAt = m.inflightAt from rfl, ← hinflight]
      unfold inflightAt
      rw [breakerStates_release hnodup, breakerStates_release hnodup, hstates]
  | admitted hb hl => cases hrefused

end checking

end GovernanceManager

namespace System

theorem reaches_worked {allowed : Event → System → Prop} {cfg : GovernanceConfig} {now : ℚ}
    {s : System} (hr : Reaches allowed (start cfg now) s) : s.manager.Worked := by
  induction hr with
  | refl => exact GovernanceManager.worked_new cfg
  | @tail t u _ hstep ih =>
    obtain ⟨e, -, rfl⟩ := hstep
    cases e with
    | check now request => exact ih.check request
    | activate id now =>
      simp only [System.perform]
      split
      · exact ih
      · exact ih.activate _
    | finalize id now report =>
      simp only [System.perform]
      split
      · exact ih
      · exact ih.finalize _ _
    | cancel id =>
      simp only [System.perform]
      split
      · exact ih
      · exact ih.cancel _

def guarded : GovernanceConfig :=
  { enabled := true
    limits :=
      { enabled := true, perFlow := OrderedDict.empty.store ['f'] { concurrency := some 2 } }
    breaker :=
      { enabled := true
        perFlow :=
          OrderedDict.empty.store ['f'] { failureThreshold := 1, halfOpenMaxCalls := 2 } } }

def crowded : System :=
  [.check 0 flowRequest, .check 0 flowRequest, .activate 0 0, .activate 1 0, .finalize 1 0 failed,
    .check 30 flowRequest].foldl (fun s e => s.perform e) (start guarded 0)

theorem crowded_refuses :
    (crowded.manager.check 30 flowRequest).1.allowed = false ∧
      crowded.manager.countsAt (.flow ['f']) = (1, 1) ∧
      crowded.manager.inflightAt (.flow ['f']) = 1 := by
  decide +kernel

theorem check_refused_restores_crowded :
    (crowded.manager.check 30 flowRequest).2.countsAt = crowded.manager.countsAt ∧
      (crowded.manager.check 30 flowRequest).2.inflightAt = crowded.manager.inflightAt := by
  have hreach : Reaches (fun _ _ => True) (start guarded 0) crowded :=
    reaches_foldl _ (fun _ _ _ => trivial)
  exact GovernanceManager.check_refused_restores (reaches_worked hreach) crowded_refuses.1

end System

end TraceMind.Governance
