import TraceMind.Governance.Run

namespace TraceMind.Governance

namespace CircuitBreaker

structure Slots (n : ℕ) (b : CircuitBreaker) : Prop where
  inflight : b.halfOpenInflight = n
  free : b.state ≠ .halfOpen → n = 0
  bounded : (n : ℤ) ≤ maxCalls b.settings
  off : b.settings.enabled = false → b.state = .closed

variable {n : ℕ} {b : CircuitBreaker} {now : ℚ}

theorem one_le_maxCalls (s : BreakerSettings) : 1 ≤ maxCalls s := le_max_left ..

theorem Slots.empty (hn : b.halfOpenInflight = 0)
    (hoff : b.settings.enabled = false → b.state = .closed) : b.Slots 0 :=
  ⟨hn, fun _ => rfl, Int.le_trans (by decide) (one_le_maxCalls b.settings), hoff⟩

theorem Slots.of_same {b' : CircuitBreaker} (h : b.Slots n)
    (hs : b'.settings = b.settings) (hstate : b'.state = b.state)
    (hn : b'.halfOpenInflight = b.halfOpenInflight) : b'.Slots n :=
  ⟨hn.trans h.inflight, by rw [hstate]; exact h.free, by rw [hs]; exact h.bounded,
    by rw [hs, hstate]; exact h.off⟩

def slotIn (state : BreakerState) : ℕ := if state = .halfOpen then 1 else 0

theorem slots_new (settings : BreakerSettings) : Slots 0 { settings } :=
  .empty rfl (fun _ => rfl)

theorem Slots.tryHalfOpen (h : b.Slots n) (hstate : b.state = .halfOpen)
    (hon : b.settings.enabled = true) :
    (b.tryHalfOpen.1 = true → b.tryHalfOpen.2.Slots (n + slotIn b.tryHalfOpen.2.state)) ∧
      (b.tryHalfOpen.1 = false → b.tryHalfOpen.2.Slots n) := by
  unfold CircuitBreaker.tryHalfOpen
  split_ifs with hfull
  · exact ⟨fun hf => (by cases hf), fun _ => h⟩
  · refine ⟨fun _ => ⟨?_, ?_, ?_, ?_⟩, fun hf => by cases hf⟩
    · dsimp only
      rw [h.inflight, hstate]
      rfl
    · exact fun hne => absurd hstate hne
    · dsimp only
      rw [hstate, slotIn, if_pos rfl]
      have hlt := Int.not_le.mp hfull
      rw [h.inflight] at hlt
      exact Int.add_one_le_of_lt hlt
    · exact fun hoff => absurd (hon.symm.trans hoff) (by decide)

theorem shouldTrip_same (now : ℚ) (b : CircuitBreaker) :
    (b.shouldTrip now).2.settings = b.settings ∧ (b.shouldTrip now).2.state = b.state ∧
      (b.shouldTrip now).2.halfOpenInflight = b.halfOpenInflight := by
  unfold shouldTrip
  dsimp only
  split_ifs <;> exact ⟨rfl, rfl, rfl⟩

theorem slots_trip (hon : b.settings.enabled = true) : (b.trip now).Slots 0 :=
  .empty rfl (fun hoff => absurd (hon.symm.trans hoff) (by decide))

theorem Slots.tryClosed (h : b.Slots n) (hstate : b.state = .closed)
    (hon : b.settings.enabled = true) :
    ((b.tryClosed now).1 = true →
        (b.tryClosed now).2.Slots (n + slotIn (b.tryClosed now).2.state)) ∧
      ((b.tryClosed now).1 = false → (b.tryClosed now).2.Slots n) := by
  obtain ⟨hs, hst, hn⟩ := shouldTrip_same now b
  have hzero : n = 0 := h.free (by rw [hstate]; decide)
  unfold CircuitBreaker.tryClosed
  dsimp only
  split_ifs
  · exact ⟨fun hf => (by cases hf), fun _ => hzero ▸ slots_trip (hs ▸ hon)⟩
  · refine ⟨fun _ => ?_, fun hf => by cases hf⟩
    rw [hst, hstate]
    exact h.of_same hs hst hn

theorem Slots.canExecute (now : ℚ) (h : b.Slots n) :
    ((b.canExecute now).1 = true →
        (b.canExecute now).2.Slots (n + slotIn (b.canExecute now).2.state)) ∧
      ((b.canExecute now).1 = false → (b.canExecute now).2.Slots n) := by
  unfold CircuitBreaker.canExecute
  split_ifs with hon
  · split
    · rename_i hstate
      have hzero : n = 0 := h.free (by rw [hstate]; decide)
      split
      · exact ⟨fun hf => (by cases hf), fun _ => h.of_same rfl rfl rfl⟩
      · split_ifs
        · subst hzero
          have hopen : b.transitionToHalfOpen.Slots 0 :=
            ⟨rfl, fun _ => rfl, h.bounded,
              fun hoff => absurd (hon.symm.trans hoff) (by decide)⟩
          exact hopen.tryHalfOpen rfl hon
        · exact ⟨fun hf => (by cases hf), fun _ => h⟩
    · rename_i hstate
      exact h.tryHalfOpen hstate hon
    · rename_i hstate
      exact h.tryClosed hstate hon
  · have hclosed := h.off (Bool.eq_false_iff.mpr hon)
    refine ⟨fun _ => ?_, fun hf => (by cases hf)⟩
    rw [hclosed]
    exact h

theorem Slots.release {k : ℕ} (h : b.Slots n) (hk : k = n - 1) : b.releaseHalfOpenSlot.Slots k := by
  refine ⟨?_, fun hstate => ?_, Int.le_trans ?_ h.bounded, h.off⟩
  · rw [releaseHalfOpenSlot, h.inflight, hk]
  · rw [hk, h.free hstate]
  · rw [hk]
    exact Int.ofNat_le.mpr (Nat.sub_le ..)

theorem slots_reset (b : CircuitBreaker) : b.reset.Slots 0 :=
  .empty rfl (fun _ => rfl)

theorem Slots.recordSuccess (h : b.Slots n) :
    (b.recordSuccess now).Slots 0 ∧ (b.recordSuccess now).state ≠ .halfOpen := by
  unfold CircuitBreaker.recordSuccess
  split_ifs
  · split
    · exact ⟨slots_reset b, by simp [reset]⟩
    · exact ⟨slots_reset b, by simp [reset]⟩
    · rename_i hstate
      have hne : b.state ≠ .halfOpen := by rw [hstate]; decide
      exact ⟨(h.free hne ▸ h).of_same rfl rfl rfl, hne⟩
  · rename_i hoff
    have hne : b.state ≠ .halfOpen := by rw [h.off (Bool.eq_false_iff.mpr hoff)]; decide
    exact ⟨h.free hne ▸ h, hne⟩

theorem observeFailure_same (now : ℚ) (timeout : Bool) (b : CircuitBreaker) :
    (b.observeFailure now timeout).settings = b.settings ∧
      (b.observeFailure now timeout).state = b.state ∧
      (b.observeFailure now timeout).halfOpenInflight = b.halfOpenInflight := by
  unfold observeFailure
  split_ifs <;> exact ⟨rfl, rfl, rfl⟩

theorem Slots.recordFailure (h : b.Slots n) (timeout : Bool) :
    (b.recordFailure now timeout).Slots 0 ∧ (b.recordFailure now timeout).state ≠ .halfOpen := by
  unfold CircuitBreaker.recordFailure
  dsimp only
  obtain ⟨hs, hst, hn⟩ := observeFailure_same now timeout b
  have h' := h.of_same hs hst hn
  revert hs h'
  generalize b.observeFailure now timeout = b'
  intro hs h'
  by_cases hon : b.settings.enabled = true
  · have hon' : b'.settings.enabled = true := hs ▸ hon
    obtain ⟨hs', hst', hn'⟩ := shouldTrip_same now b'
    rw [if_pos hon]
    split
    · exact ⟨slots_trip hon', by simp [trip]⟩
    · rename_i hclosed
      have hne : b'.state ≠ .halfOpen := by rw [hclosed]; decide
      split_ifs
      · exact ⟨slots_trip (hs' ▸ hon'), by simp [trip]⟩
      · exact ⟨(h'.free hne ▸ h').of_same hs' hst' hn', hst' ▸ hne⟩
    · rename_i hopened
      have hne : b'.state ≠ .halfOpen := by rw [hopened]; decide
      exact ⟨h'.free hne ▸ h', hne⟩
  · have hne : b.state ≠ .halfOpen := by rw [h.off (Bool.eq_false_iff.mpr hon)]; decide
    rw [if_neg hon]
    exact ⟨h.free hne ▸ h, hne⟩

theorem Slots.finish (h : b.Slots n) (now : ℚ) (r : Report) :
    (b.finish now r).Slots 0 ∧ (b.finish now r).state ≠ .halfOpen := by
  have hrelease := h.release rfl
  unfold CircuitBreaker.finish
  dsimp only
  split_ifs
  · exact hrelease.recordSuccess
  · exact hrelease.recordFailure _

end CircuitBreaker

namespace GovernanceManager

variable {m m' : GovernanceManager} {now : ℚ}

theorem breakerStates_updateBreaker (f : CircuitBreaker → CircuitBreaker) (m : GovernanceManager)
    (key j : BreakerKey) : (updateBreaker f m key).breakerStates j =
      if j = key then (m.breakerStates j).map f else m.breakerStates j := by
  unfold updateBreaker
  split
  · rename_i hnone
    split_ifs with hj
    · rw [hj, hnone]
      rfl
    · rfl
  · rename_i b hb
    rw [setBreaker]
    dsimp only
    rw [Function.update_apply]
    split_ifs with hj
    · rw [hj, hb]
      rfl
    · rfl

theorem breakerStates_foldl_updateBreaker (f : CircuitBreaker → CircuitBreaker)
    {keys : List BreakerKey} (hk : keys.Nodup) (m : GovernanceManager) (j : BreakerKey) :
    (keys.foldl (updateBreaker f) m).breakerStates j =
      if j ∈ keys then (m.breakerStates j).map f else m.breakerStates j := by
  induction keys generalizing m with
  | nil => rfl
  | cons key keys ih =>
    rw [List.nodup_cons] at hk
    rw [List.foldl_cons, ih hk.2, breakerStates_updateBreaker]
    by_cases hj : j = key
    · subst hj
      rw [if_neg hk.1, if_pos rfl, if_pos List.mem_cons_self]
    · simp only [List.mem_cons, hj, false_or, if_false]

theorem breakerStates_foldl_updateLimit (f : LimitState → LimitState) (keys : List LimitKey)
    (m : GovernanceManager) :
    (keys.foldl (updateLimit f) m).breakerStates = m.breakerStates := by
  induction keys generalizing m with
  | nil => rfl
  | cons key keys ih =>
    rw [List.foldl_cons, ih]
    unfold updateLimit
    split <;> rfl

theorem breakerStates_reserveLimits {scopes : List (LimitKey × LimitSettings)}
    {taken : List LimitKey} {r : Except Rejection (List LimitKey)}
    (h : reserveLimits now scopes taken m = (r, m')) : m'.breakerStates = m.breakerStates := by
  induction scopes generalizing taken m with
  | nil =>
    cases h
    rfl
  | cons scope scopes ih =>
    rw [reserveLimits] at h
    dsimp only at h
    split_ifs at h
    · split at h
      · rw [ih h]
        rfl
      · obtain ⟨-, rfl⟩ := Prod.mk.inj h
        rw [rollbackLimits, breakerStates_foldl_updateLimit]
        rfl
    · obtain ⟨-, rfl⟩ := Prod.mk.inj h
      rw [rollbackLimits, breakerStates_foldl_updateLimit]
      rfl

theorem breakersFor_nodup (request : RequestDescriptor) (m : GovernanceManager) :
    ((m.breakersFor request).map Prod.fst).Nodup := by
  unfold breakersFor
  split_ifs
  · exact breakerScopes_nodup ..
  · exact List.nodup_nil

theorem ensureBreakerState_state (key : BreakerKey) (settings : BreakerSettings)
    (m : GovernanceManager) : (m.ensureBreakerState key settings).state = m.breakerState key := by
  unfold ensureBreakerState breakerState
  cases m.breakerStates key <;> rfl

theorem ensureBreakerState_setBreaker (key j : BreakerKey) (b : CircuitBreaker)
    (settings : BreakerSettings) (m : GovernanceManager) :
    (m.setBreaker key b).ensureBreakerState j settings =
      if j = key then b else m.ensureBreakerState j settings := by
  unfold ensureBreakerState setBreaker
  dsimp only
  rw [Function.update_apply]
  split_ifs <;> rfl

end GovernanceManager

namespace System

open CircuitBreaker (Slots slotIn)

def occupants (key : BreakerKey) (s : System) : ℕ :=
  s.live.countP (fun l => decide ((key, s.episodes key) ∈ l.admitted))

def slots (key : BreakerKey) (s : System) : ℕ :=
  if s.manager.breakerState key = .halfOpen then s.occupants key else 0

def Taking (s : System) (taken : List BreakerKey) (m : GovernanceManager) : Prop :=
  ∀ key settings, (m.ensureBreakerState key settings).Slots
    (s.slots key + if key ∈ taken then slotIn (m.breakerState key) else 0)

section checking

variable {s : System} {taken : List BreakerKey} {m m' : GovernanceManager} {now : ℚ}

theorem Taking.congr (h : Taking s taken m) (hm : m'.breakerStates = m.breakerStates) :
    Taking s taken m' := by
  intro key settings
  rw [GovernanceManager.ensureBreakerState, GovernanceManager.breakerState, hm]
  exact h key settings

theorem Taking.set {extra : List BreakerKey} {key : BreakerKey} {b : CircuitBreaker}
    (h : Taking s taken m) (hextra : ∀ j, j ≠ key → (j ∈ extra ↔ j ∈ taken))
    (hb : b.Slots (s.slots key + if key ∈ extra then slotIn b.state else 0)) :
    Taking s extra (m.setBreaker key b) := by
  intro j settings
  have hstate : (m.setBreaker key b).breakerState j =
      if j = key then b.state else m.breakerState j := by
    rw [← GovernanceManager.ensureBreakerState_state j settings,
      GovernanceManager.ensureBreakerState_setBreaker]
    split_ifs
    · rfl
    · exact GovernanceManager.ensureBreakerState_state ..
  rw [GovernanceManager.ensureBreakerState_setBreaker, hstate]
  by_cases hj : j = key
  · subst hj
    rw [if_pos rfl, if_pos rfl]
    exact hb
  · rw [if_neg hj, if_neg hj]
    simp only [hextra j hj]
    exact h j settings

theorem Taking.release (h : Taking s taken m) (hnodup : taken.Nodup) :
    Taking s [] (m.releaseBreakers taken) := by
  intro key settings
  have hkey := h key settings
  rw [if_neg List.not_mem_nil, GovernanceManager.ensureBreakerState,
    GovernanceManager.releaseBreakers,
    GovernanceManager.breakerStates_foldl_updateBreaker _ hnodup]
  rw [← GovernanceManager.ensureBreakerState_state key settings,
    GovernanceManager.ensureBreakerState] at hkey
  by_cases hmem : key ∈ taken
  · rw [if_pos hmem] at hkey ⊢
    cases hb : m.breakerStates key with
    | none =>
      rw [hb] at hkey
      exact hkey
    | some b =>
      rw [hb] at hkey
      change b.Slots (s.slots key + slotIn b.state) at hkey
      change b.releaseHalfOpenSlot.Slots _
      refine hkey.release ?_
      by_cases hstate : b.state = .halfOpen
      · rw [hstate]
        rfl
      · have hzero := hkey.free hstate
        omega
  · rw [if_neg hmem] at hkey ⊢
    exact hkey

theorem Taking.reserveBreakers {scopes : List (BreakerKey × BreakerSettings)}
    (h : Taking s taken m) (hnodup : (taken ++ scopes.map Prod.fst).Nodup) :
    (∀ taken' m', m.reserveBreakers now scopes taken = (.ok taken', m') →
      taken' = taken ++ scopes.map Prod.fst ∧ Taking s taken' m') ∧
    (∀ r m', m.reserveBreakers now scopes taken = (.error r, m') → Taking s [] m') := by
  induction scopes generalizing taken m with
  | nil =>
    refine ⟨fun taken' m' hr => ?_, fun r m' hr => (by cases hr)⟩
    cases hr
    exact ⟨by simp, h⟩
  | cons scope scopes ih =>
    obtain ⟨key, settings⟩ := scope
    rw [List.map_cons, List.append_cons] at hnodup
    have htaken := (List.nodup_append.mp hnodup).1
    have hfresh : key ∉ taken := fun hmem =>
      (List.nodup_append.mp htaken).2.2 key hmem key (List.mem_singleton_self key) rfl
    have hkey := h key settings
    rw [if_neg hfresh] at hkey
    have hdecision := hkey.canExecute now
    rw [GovernanceManager.reserveBreakers]
    split_ifs with hallowed
    · have hnext : Taking s (taken ++ [key]) (m.setBreaker key
          ((m.ensureBreakerState key settings).canExecute now).2) := by
        refine h.set (fun j hj => by simp [hj]) ?_
        rw [if_pos (by simp)]
        exact hdecision.1 hallowed
      refine ⟨fun taken' m' hr => ?_, fun r m' hr => (ih hnext hnodup).2 r m' hr⟩
      obtain ⟨rfl, hm'⟩ := (ih hnext hnodup).1 taken' m' hr
      exact ⟨by simp, hm'⟩
    · refine ⟨fun taken' m' hr => (by cases hr), fun r m' hr => ?_⟩
      obtain ⟨-, rfl⟩ := Prod.mk.inj hr
      have hnext : Taking s taken (m.setBreaker key
          ((m.ensureBreakerState key settings).canExecute now).2) := by
        refine h.set (fun _ _ => Iff.rfl) ?_
        rw [if_neg hfresh]
        exact hdecision.2 (Bool.eq_false_iff.mpr hallowed)
      exact hnext.release (List.nodup_append.mp htaken).1

theorem Taking.check (h : Taking s [] m) (now : ℚ) (request : RequestDescriptor) :
    Taking s (m.check now request).1.breakerReservations (m.check now request).2 ∧
      (m.check now request).1.breakerReservations.Nodup ∧
      ((m.check now request).1.allowed = false →
        (m.check now request).1.breakerReservations = []) := by
  have hchecked := GovernanceManager.check_checked now request m
  have hnodup : ([] ++ (m.breakersFor request).map Prod.fst).Nodup :=
    GovernanceManager.breakersFor_nodup request m
  revert hchecked
  generalize m.check now request = w
  intro hchecked
  cases hchecked with
  | off => exact ⟨h, List.nodup_nil, fun _ => rfl⟩
  | open_ hb => exact ⟨(h.reserveBreakers hnodup).2 _ _ hb, List.nodup_nil, fun _ => rfl⟩
  | limited hb hl =>
    obtain ⟨rfl, h₁⟩ := (h.reserveBreakers hnodup).1 _ _ hb
    have h₂ := h₁.congr (GovernanceManager.breakerStates_reserveLimits hl)
    exact ⟨h₂.release hnodup, List.nodup_nil, fun _ => rfl⟩
  | admitted hb hl =>
    obtain ⟨rfl, h₁⟩ := (h.reserveBreakers hnodup).1 _ _ hb
    exact ⟨h₁.congr (GovernanceManager.breakerStates_reserveLimits hl), hnodup,
      fun hfalse => (by cases hfalse)⟩

end checking

section invariant

variable {s : System} {l : Live}

structure SlotInv (s : System) : Prop where
  numbered : s.Numbered
  decisions : ∀ l ∈ s.live, l.decision.allowed = true ∧ l.decision.breakerReservations.Nodup
  admitted : ∀ l ∈ s.live, ∀ e ∈ l.admitted,
    e.1 ∈ l.decision.breakerReservations ∧ e.2 ≤ s.episodes e.1
  taking : Taking s [] s.manager

def Careful (e : Event) (s : System) : Prop :=
  match e with
  | .cancel id => ∀ l, s.find id = some l → ∀ key ∈ l.decision.breakerReservations, ∀ b,
    s.manager.breakerStates key = some b → b.state = .halfOpen → 0 < b.halfOpenInflight →
      (key, s.episodes key) ∈ l.admitted
  | _ => True

theorem SlotInv.init (cfg : GovernanceConfig) (now : ℚ) : SlotInv (start cfg now) :=
  ⟨⟨List.nodup_nil, nofun⟩, nofun, nofun, fun _ settings => CircuitBreaker.slots_new settings⟩

theorem mem_admittedIn {m : GovernanceManager} {d : GovernanceDecision} {e : BreakerKey × ℕ} :
    e ∈ s.admittedIn m d ↔ e.1 ∈ d.breakerReservations ∧ m.breakerState e.1 = .halfOpen ∧
      e.2 = s.episodesAfter m e.1 := by
  rw [admittedIn, List.mem_map]
  constructor
  · rintro ⟨k, hk, rfl⟩
    obtain ⟨hmem, hstate⟩ := List.mem_filter.mp hk
    exact ⟨hmem, of_decide_eq_true hstate, rfl⟩
  · rintro ⟨hmem, hstate, he⟩
    exact ⟨e.1, List.mem_filter.mpr ⟨hmem, decide_eq_true hstate⟩, Prod.ext rfl he.symm⟩

theorem le_episodesAfter (m : GovernanceManager) (key : BreakerKey) :
    s.episodes key ≤ s.episodesAfter m key := by
  unfold episodesAfter
  split_ifs
  · exact Nat.le_succ _
  · exact le_refl _

theorem SlotInv.count_before (h : SlotInv s) {m : GovernanceManager} {key : BreakerKey}
    (hstate : m.breakerState key = .halfOpen) :
    s.live.countP (fun l => decide ((key, s.episodesAfter m key) ∈ l.admitted)) =
      s.slots key := by
  unfold slots
  split_ifs with hbefore
  · have hsame : s.episodesAfter m key = s.episodes key := by
      rw [episodesAfter, if_neg (fun hne => hne.1 hbefore)]
    rw [hsame, occupants]
  · have hnew : s.episodesAfter m key = s.episodes key + 1 := by
      rw [episodesAfter, if_pos ⟨hbefore, hstate⟩]
    rw [hnew]
    refine List.countP_eq_zero.mpr (fun l hl hmem => ?_)
    have hle := (h.admitted l hl _ (of_decide_eq_true hmem)).2
    exact absurd hle (Nat.not_succ_le_self _)

theorem SlotInv.slots_checked (h : SlotInv s) {now : ℚ} {request : RequestDescriptor}
    (hrefused : (s.manager.check now request).1.allowed = false →
      (s.manager.check now request).1.breakerReservations = [])
    {key : BreakerKey} (hstate : (s.manager.check now request).2.breakerState key = .halfOpen) :
    (s.checked now request).slots key = s.slots key +
      if key ∈ (s.manager.check now request).1.breakerReservations then 1 else 0 := by
  have hbefore := h.count_before hstate
  rw [slots, System.checked]
  dsimp only
  rw [if_pos hstate, occupants]
  dsimp only
  by_cases hallowed : (s.manager.check now request).1.allowed = true
  · rw [if_pos hallowed, List.countP_cons, hbefore]
    simp only [decide_eq_true_eq, mem_admittedIn, hstate, and_true]
  · rw [if_neg hallowed, hbefore, hrefused (Bool.eq_false_iff.mpr hallowed)]
    rfl

theorem SlotInv.checked (h : SlotInv s) (now : ℚ) (request : RequestDescriptor) :
    SlotInv (s.checked now request) := by
  obtain ⟨htaking, hnodup, hrefused⟩ := h.taking.check now request
  refine ⟨h.numbered.perform (.check now request), fun l hl => ?_, fun l hl e he => ?_,
    fun key settings => ?_⟩
  · rw [System.checked] at hl
    dsimp only at hl
    split_ifs at hl with hallowed
    · rcases List.mem_cons.mp hl with rfl | hl
      · exact ⟨hallowed, hnodup⟩
      · exact h.decisions l hl
    · exact h.decisions l hl
  · have hold : l ∈ s.live → e.1 ∈ l.decision.breakerReservations ∧
        e.2 ≤ (s.checked now request).episodes e.1 := fun hl =>
      ⟨(h.admitted l hl e he).1, (h.admitted l hl e he).2.trans (le_episodesAfter _ _)⟩
    rw [System.checked] at hl
    dsimp only at hl
    split_ifs at hl with hallowed
    · rcases List.mem_cons.mp hl with rfl | hl
      · obtain ⟨hmem, -, he⟩ := mem_admittedIn.mp he
        exact ⟨hmem, he.le⟩
      · exact hold hl
    · exact hold hl
  · have hkey := htaking key settings
    have hens : (s.checked now request).manager = (s.manager.check now request).2 := rfl
    rw [if_neg List.not_mem_nil, add_zero, hens]
    by_cases hstate : (s.manager.check now request).2.breakerState key = .halfOpen
    · rw [h.slots_checked hrefused hstate]
      rw [hstate] at hkey
      exact hkey
    · have hzero : (s.checked now request).slots key = 0 := by rw [slots, hens, if_neg hstate]
      rw [← GovernanceManager.ensureBreakerState_state key settings] at hstate
      rw [hzero, ← hkey.free hstate]
      exact hkey

theorem SlotInv.activated (h : SlotInv s) (hl : l ∈ s.live) (now : ℚ) :
    SlotInv (s.activated l now) := by
  have hstates : (s.activated l now).manager.breakerStates = s.manager.breakerStates := by
    rw [System.activated]
    dsimp only
    unfold GovernanceManager.activate
    split_ifs
    · exact GovernanceManager.breakerStates_foldl_updateLimit ..
    · rfl
  have hslots : ∀ key, (s.activated l now).slots key = s.slots key := by
    intro key
    have hcount : (s.activated l now).occupants key = s.occupants key := by
      rw [occupants, occupants, (h.numbered.perm_others hl).countP_eq, List.countP_cons,
        System.activated, List.countP_cons]
    rw [slots, slots, GovernanceManager.breakerState, hstates, hcount]
    rfl
  refine ⟨h.numbered.activated hl now, fun x hx => ?_, fun x hx => ?_, fun key settings => ?_⟩
  · rcases List.mem_cons.mp hx with rfl | hx
    · exact h.decisions l hl
    · exact h.decisions x (mem_others hx).1
  · rcases List.mem_cons.mp hx with rfl | hx
    · exact h.admitted l hl
    · exact h.admitted x (mem_others hx).1
  · rw [hslots]
    exact h.taking.congr hstates key settings

section removal

variable {s' : System} (h : SlotInv s) (hl : l ∈ s.live) (hlive : s'.live = s.others l.id)
  (hepisodes : s'.episodes = s.episodes)

include h hl hlive hepisodes in
theorem SlotInv.occupants_removed (key : BreakerKey) : s.occupants key = s'.occupants key +
    if (key, s.episodes key) ∈ l.admitted then 1 else 0 := by
  rw [occupants, occupants, (h.numbered.perm_others hl).countP_eq, List.countP_cons, hlive,
    hepisodes]
  simp only [decide_eq_true_eq]

include h hl hlive hepisodes in
theorem SlotInv.removed (hnext : s'.next = s.next) (f : CircuitBreaker → CircuitBreaker)
    (hm : ∀ key, s'.manager.breakerStates key =
      if key ∈ l.decision.breakerReservations then (s.manager.breakerStates key).map f
      else s.manager.breakerStates key)
    (hf : ∀ key ∈ l.decision.breakerReservations, ∀ b, s.manager.breakerStates key = some b →
      b.Slots (s.slots key) → (f b).Slots (s'.slots key)) : SlotInv s' := by
  have hsub : ∀ x ∈ s'.live, x ∈ s.live := fun x hx => (mem_others (hlive ▸ hx)).1
  refine ⟨⟨?_, fun x hx => ?_⟩, fun x hx => h.decisions x (hsub x hx), fun x hx => ?_,
    fun key settings => ?_⟩
  · rw [hlive]
    exact (h.numbered.others l.id).1
  · rw [hnext]
    exact h.numbered.below x (hsub x hx)
  · rw [hepisodes]
    exact h.admitted x (hsub x hx)
  · have hkey := h.taking key settings
    rw [if_neg List.not_mem_nil, add_zero] at hkey ⊢
    rw [GovernanceManager.ensureBreakerState] at hkey ⊢
    by_cases hmem : key ∈ l.decision.breakerReservations
    · rw [hm, if_pos hmem]
      cases hb : s.manager.breakerStates key with
      | none =>
        have hclosed : s'.slots key = 0 := by
          rw [slots, GovernanceManager.breakerState, hm, if_pos hmem, hb]
          rfl
        rw [hclosed]
        exact CircuitBreaker.slots_new settings
      | some b =>
        rw [hb] at hkey
        exact hf key hmem b hb hkey
    · have hsame : s'.slots key = s.slots key := by
        have hnot : (key, s.episodes key) ∉ l.admitted := fun ha => hmem (h.admitted l hl _ ha).1
        rw [slots, slots, GovernanceManager.breakerState, hm, if_neg hmem,
          h.occupants_removed hl hlive hepisodes key, if_neg hnot]
        rfl
      rw [hm, if_neg hmem, hsame]
      exact hkey

end removal

theorem SlotInv.finalized (h : SlotInv s) (hl : l ∈ s.live) (now : ℚ) (report : Report) :
    SlotInv (s.finalized l now report) := by
  obtain ⟨hallowed, hnodup⟩ := h.decisions l hl
  have hm : ∀ key, (s.finalized l now report).manager.breakerStates key =
      if key ∈ l.decision.breakerReservations then
        (s.manager.breakerStates key).map (CircuitBreaker.finish now report)
      else s.manager.breakerStates key := by
    intro key
    rw [System.finalized]
    dsimp only
    rw [GovernanceManager.finalize, if_pos hallowed,
      GovernanceManager.breakerStates_foldl_updateBreaker _ hnodup,
      GovernanceManager.breakerStates_foldl_updateLimit]
  refine h.removed hl rfl rfl rfl (CircuitBreaker.finish now report) hm
    (fun key hmem b hb hslots => ?_)
  have hfinish := hslots.finish now report
  have hzero : (s.finalized l now report).slots key = 0 := by
    have hstate : (s.finalized l now report).manager.breakerState key =
        (b.finish now report).state := by
      rw [GovernanceManager.breakerState, hm, if_pos hmem, hb]
      rfl
    rw [slots, hstate, if_neg hfinish.2]
  rw [hzero]
  exact hfinish.1

theorem SlotInv.cancelled (h : SlotInv s) (hl : l ∈ s.live)
    (hcareful : ∀ key ∈ l.decision.breakerReservations, ∀ b,
      s.manager.breakerStates key = some b → b.state = .halfOpen → 0 < b.halfOpenInflight →
        (key, s.episodes key) ∈ l.admitted) : SlotInv (s.cancelled l) := by
  obtain ⟨hallowed, hnodup⟩ := h.decisions l hl
  have hm : ∀ key, (s.cancelled l).manager.breakerStates key =
      if key ∈ l.decision.breakerReservations then
        (s.manager.breakerStates key).map CircuitBreaker.releaseHalfOpenSlot
      else s.manager.breakerStates key := by
    intro key
    rw [System.cancelled]
    dsimp only
    rw [GovernanceManager.cancel, if_pos hallowed, GovernanceManager.releaseBreakers,
      GovernanceManager.breakerStates_foldl_updateBreaker _ hnodup,
      GovernanceManager.breakerStates_foldl_updateLimit]
  refine h.removed hl rfl rfl rfl CircuitBreaker.releaseHalfOpenSlot hm
    (fun key hmem b hb hslots => hslots.release ?_)
  have hbefore : s.manager.breakerState key = b.state := by
    rw [GovernanceManager.breakerState, hb]
  have hafter : (s.cancelled l).manager.breakerState key = b.state := by
    rw [GovernanceManager.breakerState, hm, if_pos hmem, hb]
    rfl
  have hremoved : s.occupants key = (s.cancelled l).occupants key +
      if (key, s.episodes key) ∈ l.admitted then 1 else 0 := by
    have hlive : (s.cancelled l).live = s.others l.id := rfl
    have hepisodes : (s.cancelled l).episodes = s.episodes := rfl
    exact h.occupants_removed hl hlive hepisodes key
  have hinflight := hslots.inflight
  rw [slots, hbefore] at hinflight
  rw [slots, slots, hafter, hbefore]
  split_ifs with hstate
  · rw [if_pos hstate] at hinflight
    have hown : 0 < b.halfOpenInflight → (key, s.episodes key) ∈ l.admitted :=
      hcareful key hmem b hb hstate
    split_ifs at hremoved with hin
    · omega
    · have hnone : ¬0 < b.halfOpenInflight := fun hpos => hin (hown hpos)
      omega
  · rfl

theorem SlotInv.perform (h : SlotInv s) {e : Event} (he : Careful e s) : SlotInv (s.perform e) := by
  cases e with
  | check now request => exact h.checked now request
  | activate id now =>
    simp only [System.perform]
    split
    · exact h
    · rename_i l hfind
      exact h.activated (find_some hfind).1 now
  | finalize id now report =>
    simp only [System.perform]
    split
    · exact h
    · rename_i l hfind
      exact h.finalized (find_some hfind).1 now report
  | cancel id =>
    simp only [System.perform]
    split
    · exact h
    · rename_i l hfind
      exact h.cancelled (find_some hfind).1 (he l hfind)

end invariant

theorem reaches_slotInv {cfg : GovernanceConfig} {now : ℚ} {s : System}
    (hr : Reaches Careful (start cfg now) s) : SlotInv s := by
  induction hr with
  | refl => exact .init cfg now
  | tail _ hstep ih =>
    obtain ⟨e, he, rfl⟩ := hstep
    exact ih.perform he

theorem half_open_bounded {cfg : GovernanceConfig} {now : ℚ} {s : System}
    (hr : Reaches Careful (start cfg now) s) {key : BreakerKey} {b : CircuitBreaker}
    (hb : s.manager.breakerStates key = some b) (hstate : b.state = .halfOpen) :
    (s.occupants key : ℤ) ≤ max 1 b.settings.halfOpenMaxCalls := by
  have hkey := (reaches_slotInv hr).taking key b.settings
  rw [if_neg List.not_mem_nil, add_zero, GovernanceManager.ensureBreakerState, hb, slots,
    GovernanceManager.breakerState, hb] at hkey
  dsimp only at hkey
  rw [if_pos hstate] at hkey
  exact hkey.bounded

def oneFailure : BreakerSettings := { failureThreshold := 1 }

def oneCall : GovernanceConfig :=
  { enabled := true
    breaker := { enabled := true, perFlow := OrderedDict.empty.store ['f'] oneFailure } }

def flowRequest : RequestDescriptor := { flow := ['f'] }

def failed : Report := ⟨"error".toList, none, none, none⟩

def halfOpened : List Event :=
  [.check 0 flowRequest, .check 0 flowRequest, .finalize 1 0 failed, .check 30 flowRequest]

def ran (es : List Event) : System := es.foldl (fun s e => s.perform e) (start oneCall 0)

theorem reaches_ran {allowed : Event → System → Prop} (es : List Event)
    (h : ∀ s, ∀ e ∈ es, allowed e s) : Reaches allowed (start oneCall 0) (ran es) :=
  reaches_foldl es h

theorem half_open_bounded_sample : (ran halfOpened).occupants (.flow ['f']) = 1 ∧
    ∃ b, (ran halfOpened).manager.breakerStates (.flow ['f']) = some b ∧ b.state = .halfOpen ∧
      ((ran halfOpened).occupants (.flow ['f']) : ℤ) ≤ max 1 b.settings.halfOpenMaxCalls := by
  have hr : Reaches Careful (start oneCall 0) (ran halfOpened) := by
    refine reaches_ran halfOpened (fun s e he => ?_)
    simp only [halfOpened, List.mem_cons, List.not_mem_nil, or_false] at he
    rcases he with rfl | rfl | rfl | rfl <;> trivial
  have hstate : (ran halfOpened).manager.breakerState (.flow ['f']) = .halfOpen := by
    decide +kernel
  refine ⟨by decide +kernel, ?_⟩
  unfold GovernanceManager.breakerState at hstate
  split at hstate
  · cases hstate
  · rename_i b hb
    exact ⟨b, hb, hstate, half_open_bounded hr hb hstate⟩

theorem cancel_frees_foreign_slot :
    Reaches (fun _ _ => True) (start oneCall 0)
        (ran (halfOpened ++ [.cancel 0, .check 30 flowRequest])) ∧
      ((ran (halfOpened ++ [.cancel 0, .check 30 flowRequest])).manager.breakerStates
        (.flow ['f'])).map (fun b => (b.state, max 1 b.settings.halfOpenMaxCalls)) =
          some (.halfOpen, 1) ∧
      (ran (halfOpened ++ [.cancel 0, .check 30 flowRequest])).occupants (.flow ['f']) = 2 :=
  ⟨reaches_ran _ (fun _ _ _ => trivial), by decide +kernel, by decide +kernel⟩

end System

end TraceMind.Governance
