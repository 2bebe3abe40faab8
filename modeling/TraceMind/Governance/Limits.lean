import TraceMind.Governance.Run
import Mathlib.Data.Rat.Floor

namespace TraceMind.Governance

open SlidingWindow (countIn)

namespace RateTracker

structure Accounts (checked activated : ℕ) (log : List ℚ) (now : ℚ) (t : RateTracker) : Prop where
  pending : t.pending = if t.settings.enabled then checked else 0
  active : t.active = if t.settings.enabled && t.settings.concurrency.isSome then activated else 0
  concurrency : ∀ c, t.settings.enabled = true → t.settings.concurrency = some c →
    (t.active : ℤ) + t.pending ≤ max 0 c
  width : t.qps.window = 1
  qps : ∀ q, t.settings.enabled = true → t.settings.qps = some q →
    t.qps.Tracks log now ∧ (countIn 1 now log : ℤ) + t.pending ≤ max 0 ⌈q⌉ ∧
      ∀ u, (countIn 1 u log : ℤ) ≤ max 0 ⌈q⌉

variable {checked activated : ℕ} {log : List ℚ} {now now' : ℚ} {t : RateTracker}

theorem accounts_new (settings : LimitSettings) (now : ℚ) :
    Accounts 0 0 [] now { settings } := by
  refine ⟨?_, ?_, fun c _ _ => ?_, rfl, fun q _ _ => ⟨RollingWindow.tracks_new 1 now, ?_, ?_⟩⟩
  · split_ifs <;> rfl
  · split_ifs <;> rfl
  · exact le_max_left 0 c
  · exact le_max_left 0 ⌈q⌉
  · exact fun u => le_max_left 0 ⌈q⌉

theorem Accounts.later (h : Accounts checked activated log now t) (hnow : now ≤ now') :
    Accounts checked activated log now' t := by
  refine ⟨h.pending, h.active, h.concurrency, h.width, fun q he hq => ?_⟩
  obtain ⟨htracks, hnowle, hall⟩ := h.qps q he hq
  have hcount : countIn 1 now' log ≤ countIn 1 now log :=
    SlidingWindow.countIn_le_countIn hnow htracks.past
  exact ⟨htracks.later hnow, by omega, hall⟩

theorem Accounts.peek (h : Accounts checked activated log now t) :
    Accounts checked activated log now (t.peek now) := by
  have hwidth : ¬t.qps.window ≤ 0 := by
    rw [h.width]
    norm_num
  have hpeek : (t.peek now).qps = t.qps.prune now := by
    rw [RateTracker.peek, RollingWindow.totalAt, if_neg hwidth]
  refine ⟨h.pending, h.active, h.concurrency, ?_, fun q he hq => ?_⟩
  · rw [hpeek]
    exact h.width
  · obtain ⟨htracks, hbounds⟩ := h.qps q he hq
    rw [hpeek]
    exact ⟨htracks.prune, hbounds⟩

theorem Accounts.peeked (h : Accounts checked activated log now t) :
    Accounts checked activated log now (t.peeked now) := by
  unfold RateTracker.peeked
  split_ifs
  · exact h.peek
  · exact h

theorem peeked_settings (now : ℚ) (t : RateTracker) : (t.peeked now).settings = t.settings := by
  unfold RateTracker.peeked
  split_ifs <;> rfl

theorem checkAndReserve_eq (now : ℚ) (t : RateTracker) (he : t.settings.enabled = true) :
    t.checkAndReserve now =
      if t.exceedsQps now || (t.peeked now).exceedsConcurrency then (false, t.peeked now)
      else (true, { t.peeked now with pending := (t.peeked now).pending + 1 }) := by
  rw [checkAndReserve, if_pos he]
  dsimp only
  cases t.exceedsQps now <;> cases (t.peeked now).exceedsConcurrency <;> rfl

theorem Accounts.refused (h : Accounts checked activated log now t)
    (hr : (t.checkAndReserve now).1 = false) :
    Accounts checked activated log now (t.checkAndReserve now).2 := by
  by_cases he : t.settings.enabled = true
  · rw [checkAndReserve_eq now t he] at hr ⊢
    split_ifs at hr ⊢
    exact h.peeked
  · rw [checkAndReserve, if_neg he] at hr
    cases hr

theorem Accounts.count_lt (h : Accounts checked activated log now t)
    (he : t.settings.enabled = true) {q : ℚ} (hq : t.settings.qps = some q)
    (hx : t.exceedsQps now = false) : (countIn 1 now log : ℤ) + t.pending < ⌈q⌉ := by
  obtain ⟨htracks, -⟩ := h.qps q he hq
  have hwidth : ¬t.qps.window ≤ 0 := by
    rw [h.width]
    norm_num
  have htotal : (t.qps.totalAt now).1 = countIn 1 now log := by
    rw [RollingWindow.totalAt, if_neg hwidth, ← h.width]
    exact htracks.total_prune
  rw [exceedsQps, hq, decide_eq_false_iff_not, htotal, not_le] at hx
  rw [Int.lt_ceil]
  push_cast
  exact hx

theorem Accounts.reserved (h : Accounts checked activated log now t)
    (hr : (t.checkAndReserve now).1 = true) :
    Accounts (checked + 1) activated log now (t.checkAndReserve now).2 := by
  by_cases he : t.settings.enabled = true
  · have hp := h.peeked
    have hs := peeked_settings now t
    have he' : (t.peeked now).settings.enabled = true := by rw [hs, he]
    have hpending : (t.peeked now).pending = t.pending := by
      rw [hp.pending, h.pending, hs]
    rw [checkAndReserve_eq now t he] at hr ⊢
    split_ifs at hr ⊢ with hx
    rw [Bool.or_eq_true, not_or, Bool.not_eq_true, Bool.not_eq_true] at hx
    refine ⟨?_, hp.active, fun c _ hc => ?_, hp.width, fun q _ hq => ?_⟩
    · have := hp.pending
      rw [if_pos he'] at this ⊢
      exact congrArg (· + 1) this
    · have hlt := hx.2
      rw [exceedsConcurrency, hc, decide_eq_false_iff_not, not_le] at hlt
      push_cast
      omega
    · have hlt := h.count_lt he (by rw [← hs]; exact hq) hx.1
      obtain ⟨htracks, -, hall⟩ := hp.qps q he' hq
      refine ⟨htracks, ?_, hall⟩
      push_cast
      rw [hpending]
      omega
  · rw [checkAndReserve, if_neg he]
    rw [Bool.not_eq_true] at he
    have hpending := h.pending
    have hactive := h.active
    refine ⟨?_, ?_, fun c he' => ?_, h.width, fun q he' => ?_⟩
    · rwa [he] at hpending ⊢
    · exact hactive
    · cases he.symm.trans he'
    · cases he.symm.trans he'

theorem Accounts.cancelled (h : Accounts (checked + 1) activated log now t) :
    Accounts checked activated log now t.cancelPending := by
  by_cases he : t.settings.enabled = true
  · have hpending := h.pending
    rw [if_pos he] at hpending
    rw [cancelPending, if_pos he]
    refine ⟨?_, h.active, fun c _ hc => ?_, h.width, fun q _ hq => ?_⟩
    · rw [if_pos he, hpending, Nat.add_sub_cancel]
    · have hle := h.concurrency c he hc
      push_cast [hpending] at hle ⊢
      omega
    · obtain ⟨htracks, hnow, hall⟩ := h.qps q he hq
      refine ⟨htracks, ?_, hall⟩
      push_cast [hpending] at hnow ⊢
      omega
  · rw [cancelPending, if_neg he]
    rw [Bool.not_eq_true] at he
    have hpending := h.pending
    refine ⟨?_, h.active, h.concurrency, h.width, h.qps⟩
    rwa [he] at hpending ⊢

theorem Accounts.started (h : Accounts (checked + 1) activated log now t) :
    Accounts checked (activated + 1) (log ++ [now]) now (t.activate now) := by
  by_cases he : t.settings.enabled = true
  · have hpending := h.pending
    have hactive := h.active
    rw [if_pos he] at hpending
    rw [he, Bool.true_and] at hactive
    rw [activate, if_pos he]
    refine ⟨?_, ?_, fun c _ hc => ?_, ?_, fun q _ hq => ?_⟩
    · rw [if_pos he, hpending, Nat.add_sub_cancel]
    · dsimp only
      rw [he, Bool.true_and]
      split_ifs with hc
      · rw [if_pos hc] at hactive
        rw [hactive]
      · rw [if_neg hc] at hactive
        exact hactive
    · have hle := h.concurrency c he hc
      have hsome : t.settings.concurrency.isSome = true := by
        rw [hc]
        rfl
      dsimp only
      rw [if_pos hsome]
      push_cast [hpending] at hle ⊢
      omega
    · dsimp only
      split_ifs
      · rw [RollingWindow.observe]
        split_ifs
        · exact h.width
        · exact h.width
      · exact h.width
    · obtain ⟨htracks, hnow, hall⟩ := h.qps q he hq
      have hsome : t.settings.qps.isSome = true := by
        rw [hq]
        rfl
      have hwidth : 0 < t.qps.window := by
        rw [h.width]
        norm_num
      have hcount : countIn 1 now (log ++ [now]) = countIn 1 now log + 1 :=
        SlidingWindow.countIn_append_now (by norm_num)
      dsimp only
      rw [if_pos hsome]
      push_cast [hpending] at hnow ⊢
      refine ⟨htracks.observe hwidth, ?_, fun u => ?_⟩
      · rw [hcount]
        push_cast
        omega
      · have hb := SlidingWindow.countIn_append_le (b := (max 0 ⌈q⌉).toNat) htracks.past
          (fun u => by have := hall u; omega) (by omega : countIn 1 now log + 1 ≤ _) u
        omega
  · rw [activate, if_neg he]
    rw [Bool.not_eq_true] at he
    have hpending := h.pending
    have hactive := h.active
    refine ⟨?_, ?_, fun c he' => ?_, h.width, fun q he' => ?_⟩
    · rwa [he] at hpending ⊢
    · rwa [he] at hactive ⊢
    · cases he.symm.trans he'
    · cases he.symm.trans he'

theorem Accounts.released (h : Accounts checked (activated + 1) log now t) :
    Accounts checked activated log now t.release := by
  have hactive := h.active
  rw [release]
  split_ifs with hc
  · rw [if_pos hc] at hactive
    refine ⟨h.pending, ?_, fun c he hcc => ?_, h.width, h.qps⟩
    · rw [if_pos hc, hactive, Nat.add_sub_cancel]
    · have hle := h.concurrency c he hcc
      push_cast [hactive] at hle ⊢
      omega
  · rw [if_neg hc] at hactive
    exact ⟨h.pending, by rw [if_neg hc, hactive], h.concurrency, h.width, h.qps⟩

theorem Accounts.unused {settings : LimitSettings} (he : settings.enabled = true)
    (h : Accounts checked activated log now { settings }) : checked = 0 := by
  have hpending := h.pending
  rw [if_pos he] at hpending
  exact hpending.symm

end RateTracker

namespace GovernanceManager

variable {m : GovernanceManager} {key : LimitKey}

theorem limitStates_updateLimit (f : LimitState → LimitState) (m : GovernanceManager)
    (key j : LimitKey) : (m.updateLimit f key).limitStates j =
      if j = key then (m.limitStates key).map f else m.limitStates j := by
  unfold updateLimit
  split
  · rename_i h
    split_ifs with hj
    · rw [hj, h]
      rfl
    · rfl
  · rename_i st h
    rw [h]
    exact Function.update_apply ..

theorem limitStates_foldl_updateLimit (f : LimitState → LimitState) {keys : List LimitKey}
    (hk : keys.Nodup) (m : GovernanceManager) (j : LimitKey) :
    (keys.foldl (updateLimit f) m).limitStates j =
      if j ∈ keys then (m.limitStates j).map f else m.limitStates j := by
  induction keys generalizing m with
  | nil => rfl
  | cons key keys ih =>
    rw [List.nodup_cons] at hk
    rw [List.foldl_cons, ih hk.2, limitStates_updateLimit]
    by_cases hj : j = key
    · subst hj
      rw [if_neg hk.1, if_pos rfl, if_pos List.mem_cons_self]
    · simp only [List.mem_cons, hj, false_or, if_false]

theorem limitStates_foldl_updateBreaker (f : CircuitBreaker → CircuitBreaker)
    (keys : List BreakerKey) (m : GovernanceManager) :
    (keys.foldl (updateBreaker f) m).limitStates = m.limitStates := by
  induction keys generalizing m with
  | nil => rfl
  | cons key keys ih =>
    rw [List.foldl_cons, ih]
    unfold updateBreaker
    split <;> rfl

theorem limitStates_reserveBreakers {now : ℚ} {scopes : List (BreakerKey × BreakerSettings)}
    {taken : List BreakerKey} {m m' : GovernanceManager} {r : Except Rejection (List BreakerKey)}
    (h : reserveBreakers now scopes taken m = (r, m')) : m'.limitStates = m.limitStates := by
  induction scopes generalizing taken m with
  | nil =>
    cases h
    rfl
  | cons scope scopes ih =>
    rw [reserveBreakers] at h
    split_ifs at h
    · rw [ih h]
      rfl
    · obtain ⟨-, rfl⟩ := Prod.mk.inj h
      rw [releaseBreakers, limitStates_foldl_updateBreaker]
      rfl

section registered

variable {cfg : GovernanceConfig}

structure Registered (cfg : GovernanceConfig) (m : GovernanceManager) : Prop where
  config : m.config = cfg
  states : ∀ key st, m.limitStates key = some st →
    cfg.limits.settings? key = some st.settings ∧ st.rate.settings = st.settings

theorem checkAndReserve_settings (now : ℚ) (t : RateTracker) :
    (t.checkAndReserve now).2.settings = t.settings := by
  have hpeeked := RateTracker.peeked_settings now t
  unfold RateTracker.checkAndReserve
  dsimp only
  split_ifs
  · exact hpeeked
  · exact hpeeked
  · exact hpeeked
  · rfl

theorem cancelPending_settings (t : RateTracker) : t.cancelPending.settings = t.settings := by
  unfold RateTracker.cancelPending
  split_ifs <;> rfl

theorem activate_settings (now : ℚ) (t : RateTracker) : (t.activate now).settings = t.settings := by
  unfold RateTracker.activate
  split_ifs <;> rfl

theorem release_settings (t : RateTracker) : t.release.settings = t.settings := by
  unfold RateTracker.release
  split_ifs <;> rfl

theorem Registered.set {st : LimitState} (h : Registered cfg m)
    (hst : cfg.limits.settings? key = some st.settings ∧ st.rate.settings = st.settings) :
    Registered cfg (m.setLimit key st) := by
  refine ⟨h.config, fun j st' hj => ?_⟩
  have hget : (m.setLimit key st).limitStates j = if j = key then some st else m.limitStates j :=
    Function.update_apply ..
  rw [hget] at hj
  split_ifs at hj with he
  · obtain rfl := Option.some.inj hj
    rw [he]
    exact hst
  · exact h.states j st' hj

theorem Registered.ensure {settings : LimitSettings} (h : Registered cfg m)
    (hs : cfg.limits.settings? key = some settings) :
    cfg.limits.settings? key = some (m.ensureLimitState key settings).settings ∧
      (m.ensureLimitState key settings).rate.settings =
        (m.ensureLimitState key settings).settings := by
  unfold ensureLimitState
  cases hst : m.limitStates key with
  | none => exact ⟨hs, rfl⟩
  | some st => exact h.states key st hst

theorem Registered.foldl_updateLimit {f : LimitState → LimitState}
    (hf : ∀ st, (f st).settings = st.settings ∧ (f st).rate.settings = st.rate.settings)
    (keys : List LimitKey) (h : Registered cfg m) :
    Registered cfg (keys.foldl (updateLimit f) m) := by
  induction keys generalizing m with
  | nil => exact h
  | cons key keys ih =>
    refine ih ?_
    unfold updateLimit
    split
    · exact h
    · rename_i st hst
      obtain ⟨hs, hr⟩ := h.states key st hst
      refine h.set ?_
      rw [(hf st).1, (hf st).2]
      exact ⟨hs, hr⟩

theorem Registered.setBreaker (h : Registered cfg m) (key : BreakerKey) (b : CircuitBreaker) :
    Registered cfg (m.setBreaker key b) :=
  ⟨h.config, h.states⟩

theorem Registered.foldl_updateBreaker {f : CircuitBreaker → CircuitBreaker}
    (keys : List BreakerKey) (h : Registered cfg m) :
    Registered cfg (keys.foldl (updateBreaker f) m) := by
  induction keys generalizing m with
  | nil => exact h
  | cons key keys ih =>
    refine ih ?_
    unfold updateBreaker
    split
    · exact h
    · exact h.setBreaker ..

theorem Registered.reserveBreakers (h : Registered cfg m) (now : ℚ)
    (scopes : List (BreakerKey × BreakerSettings)) (taken : List BreakerKey) :
    Registered cfg (m.reserveBreakers now scopes taken).2 := by
  induction scopes generalizing taken m with
  | nil => exact h
  | cons scope scopes ih =>
    rw [GovernanceManager.reserveBreakers]
    split_ifs
    · exact ih (h.setBreaker ..) _
    · exact Registered.foldl_updateBreaker taken (h.setBreaker ..)

theorem Registered.rollback (h : Registered cfg m) (keys : List LimitKey) :
    Registered cfg (m.rollbackLimits keys) :=
  h.foldl_updateLimit (f := LimitState.cancelPending)
    (fun st => ⟨rfl, cancelPending_settings st.rate⟩) keys

theorem Registered.reserveLimits {scopes : List (LimitKey × LimitSettings)}
    (h : Registered cfg m) (hscopes : ∀ e ∈ scopes, cfg.limits.settings? e.1 = some e.2)
    (now : ℚ) (taken : List LimitKey) :
    Registered cfg (m.reserveLimits now scopes taken).2 := by
  induction scopes generalizing taken m with
  | nil => exact h
  | cons scope scopes ih =>
    obtain ⟨key, settings⟩ := scope
    obtain ⟨hs, hr⟩ := h.ensure (hscopes _ List.mem_cons_self)
    have hrate := (checkAndReserve_settings now (m.ensureLimitState key settings).rate).trans hr
    have hset : ∀ st : LimitState, st.settings = (m.ensureLimitState key settings).settings →
        st.rate.settings = (m.ensureLimitState key settings).settings →
        Registered cfg (m.setLimit key st) :=
      fun st h₁ h₂ => h.set ⟨by rw [h₁]; exact hs, by rw [h₁, h₂]⟩
    rw [GovernanceManager.reserveLimits]
    dsimp only
    split_ifs
    · split
      · exact ih (hset _ (by rfl) (by exact hrate)) (fun e he => hscopes e (List.mem_cons_of_mem _ he)) _
      · refine (hset _ (by rfl) ?_).rollback taken
        exact (cancelPending_settings _).trans hrate
    · exact (hset _ (by rfl) (by exact hrate)).rollback taken

theorem Registered.limitsFor (h : Registered cfg m) (request : RequestDescriptor) :
    ∀ e ∈ m.limitsFor request, cfg.limits.settings? e.1 = some e.2 := by
  intro e he
  unfold GovernanceManager.limitsFor at he
  rw [h.config] at he
  split_ifs at he
  · exact limitScopes_settings he
  · cases he

theorem Registered.check (h : Registered cfg m) (now : ℚ) (request : RequestDescriptor) :
    Registered cfg (m.check now request).2 := by
  have hchecked := check_checked now request m
  have hb := h.reserveBreakers now (m.breakersFor request) []
  revert hchecked
  generalize m.check now request = w
  intro hchecked
  cases hchecked with
  | off => exact h
  | open_ hr => rwa [hr] at hb
  | limited hr hl =>
    rw [hr] at hb
    have hlimits := hb.reserveLimits (hb.limitsFor request) now []
    rw [hl] at hlimits
    exact Registered.foldl_updateBreaker _ hlimits
  | admitted hr hl =>
    rw [hr] at hb
    have hlimits := hb.reserveLimits (hb.limitsFor request) now []
    rwa [hl] at hlimits

end registered

end GovernanceManager

namespace System

def checkedIn (key : LimitKey) (s : System) : ℕ :=
  s.live.countP (fun l => !l.activated && decide (key ∈ l.decision.limitReservations))

def activatedIn (key : LimitKey) (s : System) : ℕ :=
  s.live.countP (fun l => l.activated && decide (key ∈ l.decision.limitReservations))

def timesIn (key : LimitKey) (s : System) : List ℚ :=
  (s.activations.filter (fun a => a.1 = key)).map Prod.snd

section checking

variable {s : System} {now : ℚ} {m m' : GovernanceManager} {taken : List LimitKey}

def Holding (s : System) (now : ℚ) (taken : List LimitKey) (m : GovernanceManager) : Prop :=
  ∀ key settings, (m.ensureLimitState key settings).rate.Accounts
    (s.checkedIn key + taken.count key) (s.activatedIn key) (s.timesIn key) now

theorem Holding.exists_state {key : LimitKey} (h : Holding s now (key :: taken) m) :
    ∃ st, m.limitStates key = some st := by
  cases hst : m.limitStates key with
  | some st => exact ⟨st, rfl⟩
  | none =>
    have hnew := h key {}
    rw [GovernanceManager.ensureLimitState, hst, List.count_cons_self] at hnew
    have hzero := hnew.unused rfl
    omega

theorem Holding.cancel {key : LimitKey} (h : Holding s now (key :: taken) m) :
    Holding s now taken (m.updateLimit LimitState.cancelPending key) := by
  intro j settings
  have hj := h j settings
  rw [GovernanceManager.ensureLimitState, GovernanceManager.limitStates_updateLimit]
  split_ifs with he
  · subst he
    obtain ⟨st, hst⟩ := h.exists_state
    rw [GovernanceManager.ensureLimitState, hst, List.count_cons_self] at hj
    rw [hst]
    exact RateTracker.Accounts.cancelled hj
  · rw [List.count_cons_of_ne (Ne.symm he)] at hj
    exact hj

theorem Holding.rollback (h : Holding s now taken m) :
    Holding s now [] (m.rollbackLimits taken) := by
  induction taken generalizing m with
  | nil => exact h
  | cons key taken ih => exact ih h.cancel

theorem Holding.set {key : LimitKey} {st : LimitState} {extra : List LimitKey}
    (h : Holding s now taken m) (hextra : ∀ j, j ≠ key → extra.count j = taken.count j)
    (hst : st.rate.Accounts (s.checkedIn key + extra.count key) (s.activatedIn key)
      (s.timesIn key) now) : Holding s now extra (m.setLimit key st) := by
  intro j settings
  have hget : (m.setLimit key st).limitStates j = if j = key then some st else m.limitStates j :=
    Function.update_apply ..
  rw [GovernanceManager.ensureLimitState, hget]
  split_ifs with he
  · subst he
    exact hst
  · rw [hextra j he]
    exact h j settings

theorem Holding.reserveLimits {scopes : List (LimitKey × LimitSettings)}
    (h : Holding s now taken m) :
    (∀ taken' m', m.reserveLimits now scopes taken = (.ok taken', m') →
      taken' = taken ++ scopes.map Prod.fst ∧ Holding s now taken' m') ∧
    ∀ r m', m.reserveLimits now scopes taken = (.error r, m') → Holding s now [] m' := by
  induction scopes generalizing taken m with
  | nil =>
    refine ⟨fun taken' m' hr => ?_, fun r m' hr => ?_⟩
    · cases hr
      exact ⟨(List.append_nil _).symm, h⟩
    · cases hr
  | cons scope scopes ih =>
    obtain ⟨key, settings⟩ := scope
    have hkey := h key settings
    have hsnoc : ∀ j, j ≠ key → (taken ++ [key]).count j = taken.count j := by
      intro j hj
      rw [List.count_append, List.count_singleton, if_neg (by simpa using Ne.symm hj), add_zero]
    have hself : (taken ++ [key]).count key = taken.count key + 1 := by
      rw [List.count_append, List.count_singleton_self]
    rw [GovernanceManager.reserveLimits]
    dsimp only
    split_ifs with hrate
    · have hreserved := hkey.reserved hrate
      have hsum : s.checkedIn key + (taken ++ [key]).count key =
          s.checkedIn key + taken.count key + 1 := by rw [hself, add_assoc]
      split
      · have hnext : ∀ st : LimitState, st.rate = _ →
            Holding s now (taken ++ [key]) (m.setLimit key st) :=
          fun st hst => h.set hsnoc (by rw [hsum, hst]; exact hreserved)
        refine ⟨fun taken' m' hr => ?_, fun r m' hr => (ih (hnext _ rfl)).2 r m' hr⟩
        obtain ⟨rfl, hm'⟩ := (ih (hnext _ rfl)).1 taken' m' hr
        exact ⟨by simp, hm'⟩
      · refine ⟨fun taken' m' hr => (by cases hr), fun r m' hr => ?_⟩
        obtain ⟨-, rfl⟩ := Prod.mk.inj hr
        exact (h.set (fun _ _ => rfl) hreserved.cancelled).rollback
    · refine ⟨fun taken' m' hr => (by cases hr), fun r m' hr => ?_⟩
      obtain ⟨-, rfl⟩ := Prod.mk.inj hr
      exact (h.set (fun _ _ => rfl) (hkey.refused (Bool.eq_false_iff.mpr hrate))).rollback

theorem Holding.congr (h : Holding s now taken m) (hm : m'.limitStates = m.limitStates) :
    Holding s now taken m' := by
  intro key settings
  rw [GovernanceManager.ensureLimitState, hm]
  exact h key settings

theorem Holding.check (h : Holding s now [] m) (request : RequestDescriptor) :
    Holding s now (m.check now request).1.limitReservations (m.check now request).2 ∧
      (m.check now request).1.limitReservations.Nodup ∧
      ((m.check now request).1.allowed = false →
        (m.check now request).1.limitReservations = []) := by
  have hchecked := GovernanceManager.check_checked now request m
  revert hchecked
  generalize m.check now request = w
  intro hchecked
  cases hchecked with
  | off => exact ⟨h, List.nodup_nil, fun _ => rfl⟩
  | open_ hb =>
    exact ⟨h.congr (GovernanceManager.limitStates_reserveBreakers hb), List.nodup_nil, fun _ => rfl⟩
  | limited hb hl =>
    have h₁ := h.congr (GovernanceManager.limitStates_reserveBreakers hb)
    have h₂ := h₁.reserveLimits.2 _ _ hl
    exact ⟨h₂.congr (GovernanceManager.limitStates_foldl_updateBreaker ..), List.nodup_nil,
      fun _ => rfl⟩
  | admitted hb hl =>
    have h₁ := h.congr (GovernanceManager.limitStates_reserveBreakers hb)
    obtain ⟨htaken, h₂⟩ := h₁.reserveLimits.1 _ _ hl
    refine ⟨h₂, ?_, fun hfalse => (by cases hfalse)⟩
    rw [GovernanceManager.granted, htaken, List.nil_append]
    unfold GovernanceManager.limitsFor
    split_ifs
    · exact limitScopes_nodup ..
    · exact List.nodup_nil

end checking

section invariant

variable {cfg : GovernanceConfig} {s : System} {l : Live}

def WellBracketed (e : Event) (s : System) : Prop :=
  match e with
  | .check now _ => s.now ≤ now
  | .activate id now => s.now ≤ now ∧ ∀ l, s.find id = some l → l.activated = false
  | .finalize id now _ => s.now ≤ now ∧ ∀ l, s.find id = some l → l.activated = true
  | .cancel id => ∀ l, s.find id = some l → l.activated = false

structure Inv (cfg : GovernanceConfig) (s : System) : Prop where
  numbered : s.Numbered
  registered : s.manager.Registered cfg
  decisions : ∀ l ∈ s.live, l.decision.allowed = true ∧ l.decision.limitReservations.Nodup
  accounts : Holding s s.now [] s.manager

theorem Inv.init (cfg : GovernanceConfig) (now : ℚ) : Inv cfg { manager := { config := cfg }, now } :=
  ⟨⟨List.nodup_nil, nofun⟩, ⟨rfl, fun _ _ h => by cases h⟩, nofun,
    fun _ settings => RateTracker.accounts_new settings now⟩

theorem Holding.later {now now' : ℚ} {taken : List LimitKey} {m : GovernanceManager}
    (h : Holding s now taken m) (hnow : now ≤ now') : Holding s now' taken m :=
  fun key settings => (h key settings).later hnow

theorem Inv.checked (h : Inv cfg s) {now : ℚ} (hnow : s.now ≤ now) (request : RequestDescriptor) :
    Inv cfg (s.checked now request) := by
  obtain ⟨hhold, hnodup, hrefused⟩ := (h.accounts.later hnow).check request
  refine ⟨h.numbered.perform (.check now request), h.registered.check now request,
    fun l hl => ?_, fun key settings => ?_⟩
  · rw [System.checked] at hl
    dsimp only at hl
    split_ifs at hl with hallowed
    · rcases List.mem_cons.mp hl with rfl | hl
      · exact ⟨hallowed, hnodup⟩
      · exact h.decisions l hl
    · exact h.decisions l hl
  · have hkey := hhold key settings
    have hcount : (s.checked now request).checkedIn key =
        s.checkedIn key + (s.manager.check now request).1.limitReservations.count key := by
      rw [checkedIn, System.checked]
      dsimp only
      split_ifs with hallowed
      · rw [List.countP_cons, hnodup.count]
        simp [checkedIn]
      · rw [hrefused (Bool.eq_false_iff.mpr hallowed)]
        rfl
    have hactive : (s.checked now request).activatedIn key = s.activatedIn key := by
      rw [activatedIn, System.checked]
      dsimp only
      split_ifs
      · rw [List.countP_cons]
        simp [activatedIn]
      · rfl
    rw [hcount, hactive, List.count_nil, add_zero]
    exact hkey

theorem Holding.exists_of_pos {now : ℚ} {m : GovernanceManager} {key : LimitKey}
    (h : Holding s now [] m) (hpos : 0 < s.checkedIn key + s.activatedIn key) :
    ∃ st, m.limitStates key = some st := by
  cases hst : m.limitStates key with
  | some st => exact ⟨st, rfl⟩
  | none =>
    have hnew := h key { concurrency := some 0 }
    rw [GovernanceManager.ensureLimitState, hst] at hnew
    have hchecked : s.checkedIn key = 0 := hnew.unused rfl
    have hactive : 0 = s.activatedIn key := hnew.active
    omega

theorem Holding.step (h : Holding s s.now [] s.manager) (s' : System)
    (f : LimitState → LimitState) (g : RateTracker → RateTracker)
    (hf : ∀ st, (f st).rate = g st.rate) {keys : List LimitKey} (hkeys : keys.Nodup)
    (hnow : s.now ≤ s'.now)
    (hm : s'.manager.limitStates =
      (keys.foldl (GovernanceManager.updateLimit f) s.manager).limitStates)
    (hpos : ∀ key ∈ keys, 0 < s.checkedIn key + s.activatedIn key)
    (hin : ∀ key ∈ keys, ∀ t,
      RateTracker.Accounts (s.checkedIn key) (s.activatedIn key) (s.timesIn key) s'.now t →
      (g t).Accounts (s'.checkedIn key) (s'.activatedIn key) (s'.timesIn key) s'.now)
    (hout : ∀ key ∉ keys, s'.checkedIn key = s.checkedIn key ∧
      s'.activatedIn key = s.activatedIn key ∧ s'.timesIn key = s.timesIn key) :
    Holding s' s'.now [] s'.manager := by
  intro key settings
  have hkey := (h key settings).later hnow
  rw [GovernanceManager.ensureLimitState, hm,
    GovernanceManager.limitStates_foldl_updateLimit f hkeys]
  split_ifs with hk
  · obtain ⟨st, hst⟩ := h.exists_of_pos (hpos key hk)
    rw [GovernanceManager.ensureLimitState, hst] at hkey
    rw [hst]
    change (f st).rate.Accounts _ _ _ _
    rw [hf]
    exact hin key hk st.rate hkey
  · obtain ⟨h₁, h₂, h₃⟩ := hout key hk
    rw [h₁, h₂, h₃]
    exact hkey

section removal

variable (h : Inv cfg s) (hl : l ∈ s.live) (key : LimitKey)

def Holds (l : Live) (key : LimitKey) : Bool := decide (key ∈ l.decision.limitReservations)

include h hl in
theorem Inv.checkedIn_eq : s.checkedIn key = (s.others l.id).countP (fun l => !l.activated &&
    decide (key ∈ l.decision.limitReservations)) + if !l.activated && Holds l key then 1 else 0 := by
  rw [checkedIn, (h.numbered.perm_others hl).countP_eq, List.countP_cons]
  rfl

include h hl in
theorem Inv.activatedIn_eq : s.activatedIn key = (s.others l.id).countP (fun l => l.activated &&
    decide (key ∈ l.decision.limitReservations)) + if l.activated && Holds l key then 1 else 0 := by
  rw [activatedIn, (h.numbered.perm_others hl).countP_eq, List.countP_cons]
  rfl

include h in
theorem Inv.others_decisions (id : ℕ) : ∀ x ∈ s.others id,
    x.decision.allowed = true ∧ x.decision.limitReservations.Nodup :=
  fun x hx => h.decisions x (mem_others hx).1

end removal

theorem Inv.cancelled (h : Inv cfg s) (hl : l ∈ s.live) (hwait : l.activated = false) :
    Inv cfg (s.cancelled l) := by
  obtain ⟨hallowed, hnodup⟩ := h.decisions l hl
  have hmanager : (s.cancelled l).manager = (l.decision.limitReservations.foldl
      (GovernanceManager.updateLimit LimitState.cancelPending) s.manager).releaseBreakers
        l.decision.breakerReservations := by
    rw [System.cancelled, GovernanceManager.cancel, if_pos hallowed]
  have hchecked : ∀ key, s.checkedIn key =
      (s.cancelled l).checkedIn key + if Holds l key then 1 else 0 := by
    intro key
    rw [h.checkedIn_eq hl key, hwait]
    rfl
  have hactive : ∀ key, s.activatedIn key = (s.cancelled l).activatedIn key := by
    intro key
    rw [h.activatedIn_eq hl key, hwait]
    rfl
  refine ⟨⟨(h.numbered.others l.id).1, (h.numbered.others l.id).2⟩, ?_, h.others_decisions l.id,
    h.accounts.step (s.cancelled l) LimitState.cancelPending RateTracker.cancelPending
      (fun _ => rfl) hnodup (le_refl s.now) ?_ (fun key hk => ?_) (fun key hk t ht => ?_)
      (fun key hk => ⟨?_, ?_, rfl⟩)⟩
  · rw [hmanager]
    exact GovernanceManager.Registered.foldl_updateBreaker _ (h.registered.rollback _)
  · rw [hmanager, GovernanceManager.releaseBreakers,
      GovernanceManager.limitStates_foldl_updateBreaker]
  · rw [hchecked, Holds, if_pos (decide_eq_true hk)]
    omega
  · rw [hchecked, hactive, Holds, if_pos (decide_eq_true hk)] at ht
    exact ht.cancelled
  · rw [hchecked, Holds, if_neg (by simpa using hk), add_zero]
  · exact (hactive key).symm

theorem Inv.finalized (h : Inv cfg s) (hl : l ∈ s.live) (hrun : l.activated = true) {now : ℚ}
    (hnow : s.now ≤ now) (report : Report) : Inv cfg (s.finalized l now report) := by
  obtain ⟨hallowed, hnodup⟩ := h.decisions l hl
  have hmanager : (s.finalized l now report).manager = l.decision.breakerReservations.foldl
      (GovernanceManager.updateBreaker (CircuitBreaker.finish now report))
      (l.decision.limitReservations.foldl
        (GovernanceManager.updateLimit (LimitState.finish now report)) s.manager) := by
    rw [System.finalized, GovernanceManager.finalize, if_pos hallowed]
  have hchecked : ∀ key, s.checkedIn key = (s.finalized l now report).checkedIn key := by
    intro key
    rw [h.checkedIn_eq hl key, hrun]
    rfl
  have hactive : ∀ key, s.activatedIn key =
      (s.finalized l now report).activatedIn key + if Holds l key then 1 else 0 := by
    intro key
    rw [h.activatedIn_eq hl key, hrun]
    rfl
  refine ⟨⟨(h.numbered.others l.id).1, (h.numbered.others l.id).2⟩, ?_, h.others_decisions l.id,
    h.accounts.step (s.finalized l now report) (LimitState.finish now report) RateTracker.release
      (fun _ => rfl) hnodup hnow ?_ (fun key hk => ?_) (fun key hk t ht => ?_)
      (fun key hk => ⟨?_, ?_, rfl⟩)⟩
  · rw [hmanager]
    exact GovernanceManager.Registered.foldl_updateBreaker _
      (h.registered.foldl_updateLimit (f := LimitState.finish now report)
        (fun st => ⟨rfl, GovernanceManager.release_settings st.rate⟩) _)
  · rw [hmanager, GovernanceManager.limitStates_foldl_updateBreaker]
  · rw [hactive, Holds, if_pos (decide_eq_true hk)]
    omega
  · rw [hchecked, hactive, Holds, if_pos (decide_eq_true hk)] at ht
    exact ht.released
  · exact (hchecked key).symm
  · rw [hactive, Holds, if_neg (by simpa using hk), add_zero]

theorem timesIn_activated (hnodup : l.decision.limitReservations.Nodup) (now : ℚ)
    (key : LimitKey) : (s.activated l now).timesIn key =
      s.timesIn key ++ if key ∈ l.decision.limitReservations then [now] else [] := by
  rw [timesIn, System.activated, List.filter_append, List.map_append, List.filter_map, timesIn]
  congr 1
  have hfilter : l.decision.limitReservations.filter
      ((fun a : LimitKey × ℚ => decide (a.1 = key)) ∘ fun k => (k, now)) =
      if key ∈ l.decision.limitReservations then [key] else [] := by
    change l.decision.limitReservations.filter (fun k => decide (k = key)) = _
    rw [List.filter_eq, hnodup.count]
    split_ifs <;> rfl
  rw [hfilter]
  split_ifs <;> rfl

theorem Inv.activated (h : Inv cfg s) (hl : l ∈ s.live) (hwait : l.activated = false) {now : ℚ}
    (hnow : s.now ≤ now) : Inv cfg (s.activated l now) := by
  obtain ⟨hallowed, hnodup⟩ := h.decisions l hl
  have hmanager : (s.activated l now).manager = l.decision.limitReservations.foldl
      (GovernanceManager.updateLimit (LimitState.activate now)) s.manager := by
    rw [System.activated, GovernanceManager.activate, if_pos hallowed]
  have hchecked : ∀ key, s.checkedIn key =
      (s.activated l now).checkedIn key + if Holds l key then 1 else 0 := by
    intro key
    rw [h.checkedIn_eq hl key, hwait, checkedIn, System.activated, List.countP_cons]
    rfl
  have hactive : ∀ key, (s.activated l now).activatedIn key =
      s.activatedIn key + if Holds l key then 1 else 0 := by
    intro key
    rw [h.activatedIn_eq hl key, hwait, activatedIn, System.activated, List.countP_cons]
    rfl
  refine ⟨h.numbered.activated hl now, ?_, fun x hx => ?_,
    h.accounts.step (s.activated l now) (LimitState.activate now) (RateTracker.activate now)
      (fun _ => rfl) hnodup hnow ?_ (fun key hk => ?_) (fun key hk t ht => ?_)
      (fun key hk => ⟨?_, ?_, ?_⟩)⟩
  · rw [hmanager]
    exact h.registered.foldl_updateLimit (f := LimitState.activate now)
      (fun st => ⟨rfl, GovernanceManager.activate_settings now st.rate⟩) _
  · rcases List.mem_cons.mp hx with rfl | hx
    · exact ⟨hallowed, hnodup⟩
    · exact h.others_decisions l.id x hx
  · rw [hmanager]
  · rw [hchecked, Holds, if_pos (decide_eq_true hk)]
    omega
  · rw [hchecked, Holds, if_pos (decide_eq_true hk)] at ht
    rw [hactive, Holds, if_pos (decide_eq_true hk), timesIn_activated hnodup, if_pos hk]
    exact ht.started
  · rw [hchecked, Holds, if_neg (by simpa using hk), add_zero]
  · rw [hactive, Holds, if_neg (by simpa using hk), add_zero]
  · rw [timesIn_activated hnodup, if_neg hk, List.append_nil]

theorem Inv.perform (h : Inv cfg s) {e : Event} (he : WellBracketed e s) :
    Inv cfg (s.perform e) := by
  cases e with
  | check now request => exact h.checked he request
  | activate id now =>
    simp only [System.perform]
    split
    · exact h
    · rename_i l hfind
      exact h.activated (find_some hfind).1 (he.2 l hfind) he.1
  | finalize id now report =>
    simp only [System.perform]
    split
    · exact h
    · rename_i l hfind
      exact h.finalized (find_some hfind).1 (he.2 l hfind) he.1 report
  | cancel id =>
    simp only [System.perform]
    split
    · exact h
    · rename_i l hfind
      exact h.cancelled (find_some hfind).1 (he l hfind)

end invariant

structure WithinLimits (cfg : GovernanceConfig) (key : LimitKey) (st : LimitState) (s : System) :
    Prop where
  settings : cfg.limits.settings? key = some st.settings
  off : st.settings.enabled = false → st.rate.pending = 0 ∧ st.rate.active = 0
  pending : st.settings.enabled = true → st.rate.pending = s.checkedIn key
  active : st.settings.enabled = true → st.settings.concurrency ≠ none →
    st.rate.active = s.activatedIn key
  uncounted : st.settings.concurrency = none → st.rate.active = 0
  concurrency : st.settings.enabled = true → ∀ c, st.settings.concurrency = some c →
    (st.rate.active : ℤ) + st.rate.pending ≤ max 0 c
  qps : st.settings.enabled = true → ∀ q, st.settings.qps = some q →
    ∀ t, (countIn 1 t (s.timesIn key) : ℤ) ≤ max 0 ⌈q⌉

theorem within_limits {cfg : GovernanceConfig} {now : ℚ} {s : System}
    (hr : Reaches WellBracketed (start cfg now) s) (key : LimitKey) :
    (∀ st, s.manager.limitStates key = some st → WithinLimits cfg key st s) ∧
      (s.manager.limitStates key = none → s.checkedIn key = 0 ∧ s.activatedIn key = 0 ∧
        ∀ t, countIn 1 t (s.timesIn key) = 0) := by
  have h : Inv cfg s := by
    induction hr with
    | refl => exact Inv.init cfg now
    | tail _ hstep ih =>
      obtain ⟨e, he, rfl⟩ := hstep
      exact ih.perform he
  constructor
  · intro st hst
    obtain ⟨hs, hrate⟩ := h.registered.states key st hst
    have ha := h.accounts key st.settings
    rw [GovernanceManager.ensureLimitState, hst] at ha
    have hpending : st.rate.pending = if st.settings.enabled then s.checkedIn key else 0 :=
      hrate ▸ ha.pending
    have hactive : st.rate.active =
        if st.settings.enabled && st.settings.concurrency.isSome then s.activatedIn key else 0 :=
      hrate ▸ ha.active
    refine ⟨hs, fun hoff => ?_, fun hon => ?_, fun hon hc => ?_, fun hc => ?_, fun hon c hc => ?_,
      fun hon q hq => ?_⟩
    · rw [hoff] at hpending hactive
      exact ⟨hpending, hactive⟩
    · rwa [if_pos hon] at hpending
    · rwa [hon, Option.isSome_iff_ne_none.mpr hc] at hactive
    · rw [hc, Option.isSome_none, Bool.and_false] at hactive
      exact hactive
    · exact ha.concurrency c (hrate ▸ hon) (hrate ▸ hc)
    · exact (ha.qps q (hrate ▸ hon) (hrate ▸ hq)).2.2
  · intro hnone
    have ha := h.accounts key { concurrency := some 0, qps := some 0 }
    rw [GovernanceManager.ensureLimitState, hnone] at ha
    refine ⟨ha.unused rfl, ha.active.symm, fun t => ?_⟩
    have hle := (ha.qps 0 rfl rfl).2.2 t
    rw [Int.ceil_zero, max_self] at hle
    omega

def sampleRequest : RequestDescriptor := { flow := ['f'] }

def limited (globalScope flow : LimitSettings) : GovernanceConfig :=
  { enabled := true
    limits := { enabled := true, globalScope, perFlow := OrderedDict.empty.store ['f'] flow } }

def bothLimits : GovernanceConfig :=
  limited { qps := some 2, concurrency := some 1 } { qps := some 5 }

def checkedOnce (cfg : GovernanceConfig) : System :=
  (start cfg 0).perform (.check 0 sampleRequest)

def activatedOnce (cfg : GovernanceConfig) : System := (checkedOnce cfg).perform (.activate 0 0)

theorem reaches_checkedOnce (cfg : GovernanceConfig) :
    Reaches WellBracketed (start cfg 0) (checkedOnce cfg) :=
  .single ⟨.check 0 sampleRequest, le_refl (0 : ℚ), rfl⟩

theorem reaches_activatedOnce {cfg : GovernanceConfig}
    (h : ((checkedOnce cfg).find 0).all (fun l => !l.activated) = true) :
    Reaches WellBracketed (start cfg 0) (activatedOnce cfg) := by
  refine (reaches_checkedOnce cfg).tail ⟨.activate 0 0, ⟨le_refl (0 : ℚ), fun l hl => ?_⟩, rfl⟩
  exact Bool.not_eq_true' _ ▸ (Option.all_eq_true _ _).mp h l hl

def countersAt (key : LimitKey) (s : System) : Option (ℕ × ℕ) :=
  (s.manager.limitStates key).map (fun st => (st.rate.pending, st.rate.active))

theorem within_limits_sample :
    (activatedOnce bothLimits).activatedIn .global = 1 ∧
      countersAt .global (activatedOnce bothLimits) = some (0, 1) ∧
      ∀ st, (activatedOnce bothLimits).manager.limitStates .global = some st →
        WithinLimits bothLimits .global st (activatedOnce bothLimits) :=
  ⟨by decide +kernel, by decide +kernel,
    (within_limits (reaches_activatedOnce (by decide +kernel)) .global).1⟩

def switchedOff : GovernanceConfig := limited { qps := some 2 } { enabled := false }

def belowZero : GovernanceConfig :=
  limited {} { concurrency := some (-1), qps := some (-1) }

theorem uncounted_scopes :
    (Reaches WellBracketed (start bothLimits 0) (activatedOnce bothLimits) ∧
      countersAt (.flow ['f']) (activatedOnce bothLimits) = some (0, 0) ∧
      (activatedOnce bothLimits).activatedIn (.flow ['f']) = 1) ∧
    (Reaches WellBracketed (start switchedOff 0) (checkedOnce switchedOff) ∧
      countersAt (.flow ['f']) (checkedOnce switchedOff) = some (0, 0) ∧
      (checkedOnce switchedOff).checkedIn (.flow ['f']) = 1) ∧
    (Reaches WellBracketed (start belowZero 0) (checkedOnce belowZero) ∧
      (countersAt (.flow ['f']) (checkedOnce belowZero)).any
        (fun n => decide (-1 < (n.2 : ℤ) + n.1)) = true ∧
      ¬(countIn 1 0 ((checkedOnce belowZero).timesIn (.flow ['f'])) : ℤ) ≤ ⌈(-1 : ℚ)⌉) := by
  refine ⟨⟨reaches_activatedOnce (by decide +kernel), by decide +kernel, by decide +kernel⟩,
    ⟨reaches_checkedOnce _, by decide +kernel, by decide +kernel⟩,
    reaches_checkedOnce _, by decide +kernel, ?_⟩
  have hceil : ⌈(-1 : ℚ)⌉ = -1 := Int.ceil_intCast (-1)
  rw [hceil]
  omega

end System

end TraceMind.Governance
