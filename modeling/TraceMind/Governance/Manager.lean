import TraceMind.Governance.Trackers

namespace TraceMind.Governance

structure LimitState where
  settings : LimitSettings
  rate : RateTracker
  budget : BudgetTracker

structure Report where
  status : Str
  errorCode : Option Str
  tokens : Option ℚ
  cost : Option ℚ

namespace LimitState

def new (settings : LimitSettings) : LimitState := ⟨settings, { settings }, { settings }⟩

def cancelPending (s : LimitState) : LimitState := { s with rate := s.rate.cancelPending }

def activate (now : ℚ) (s : LimitState) : LimitState := { s with rate := s.rate.activate now }

def finish (now : ℚ) (r : Report) (s : LimitState) : LimitState :=
  { s with
    rate := s.rate.release
    budget := (s.budget.record r.tokens r.cost now).snapshot now }

end LimitState

def containsText (needle : Str) : Str → Bool
  | [] => needle.isEmpty
  | c :: cs => startsWith needle (c :: cs) || containsText needle cs

def looksLikeTimeout (errorCode : Option Str) : Bool :=
  match truthy errorCode with
  | none => false
  | some e =>
    containsText "timeout".toList (lower e) || lower e = "asyncio.timeouterror".toList

def CircuitBreaker.finish (now : ℚ) (r : Report) (b : CircuitBreaker) : CircuitBreaker :=
  let b := b.releaseHalfOpenSlot
  if r.status = "ok".toList then b.recordSuccess now
  else b.recordFailure now (looksLikeTimeout r.errorCode)

inductive ErrorCode where
  | circuitOpen
  | rateLimited
  | budgetExceeded
deriving DecidableEq

structure GovernanceDecision where
  allowed : Bool
  errorCode : Option ErrorCode := none
  scope : Option Str := none
  budgetKind : Option BudgetKind := none
  limitReservations : List LimitKey := []
  breakerReservations : List BreakerKey := []

structure GovernanceManager where
  config : GovernanceConfig
  limitStates : LimitKey → Option LimitState := fun _ => none
  breakerStates : BreakerKey → Option CircuitBreaker := fun _ => none

structure Rejection where
  errorCode : ErrorCode
  scope : Str
  budgetKind : Option BudgetKind := none

namespace GovernanceManager

def setLimit (key : LimitKey) (s : LimitState) (m : GovernanceManager) : GovernanceManager :=
  { m with limitStates := Function.update m.limitStates key (some s) }

def setBreaker (key : BreakerKey) (b : CircuitBreaker) (m : GovernanceManager) :
    GovernanceManager :=
  { m with breakerStates := Function.update m.breakerStates key (some b) }

def ensureLimitState (key : LimitKey) (settings : LimitSettings) (m : GovernanceManager) :
    LimitState :=
  (m.limitStates key).getD (.new settings)

def ensureBreakerState (key : BreakerKey) (settings : BreakerSettings) (m : GovernanceManager) :
    CircuitBreaker :=
  (m.breakerStates key).getD { settings }

def updateLimit (f : LimitState → LimitState) (m : GovernanceManager) (key : LimitKey) :
    GovernanceManager :=
  match m.limitStates key with
  | none => m
  | some s => m.setLimit key (f s)

def updateBreaker (f : CircuitBreaker → CircuitBreaker) (m : GovernanceManager)
    (key : BreakerKey) : GovernanceManager :=
  match m.breakerStates key with
  | none => m
  | some b => m.setBreaker key (f b)

def rollbackLimits (keys : List LimitKey) (m : GovernanceManager) : GovernanceManager :=
  keys.foldl (updateLimit LimitState.cancelPending) m

def releaseBreakers (keys : List BreakerKey) (m : GovernanceManager) : GovernanceManager :=
  keys.foldl (updateBreaker CircuitBreaker.releaseHalfOpenSlot) m

def reserveBreakers (now : ℚ) : List (BreakerKey × BreakerSettings) → List BreakerKey →
    GovernanceManager → Except Rejection (List BreakerKey) × GovernanceManager
  | [], taken, m => (.ok taken, m)
  | (key, settings) :: scopes, taken, m =>
    let d := (m.ensureBreakerState key settings).canExecute now
    let m := m.setBreaker key d.2
    if d.1 then reserveBreakers now scopes (taken ++ [key]) m
    else (.error ⟨.circuitOpen, formatBreakerScope key, none⟩, m.releaseBreakers taken)

def reserveLimits (now : ℚ) : List (LimitKey × LimitSettings) → List LimitKey →
    GovernanceManager → Except Rejection (List LimitKey) × GovernanceManager
  | [], taken, m => (.ok taken, m)
  | (key, settings) :: scopes, taken, m =>
    let s := m.ensureLimitState key settings
    let rate := s.rate.checkAndReserve now
    let s := { s with rate := rate.2 }
    if rate.1 then
      let budget := s.budget.canAccept now
      let s := { s with budget := budget.2 }
      match budget.1 with
      | none => reserveLimits now scopes (taken ++ [key]) (m.setLimit key s)
      | some kind => (.error ⟨.budgetExceeded, formatLimitScope key, some kind⟩,
          (m.setLimit key s.cancelPending).rollbackLimits taken)
    else (.error ⟨.rateLimited, formatLimitScope key, none⟩, (m.setLimit key s).rollbackLimits taken)

def refused (r : Rejection) : GovernanceDecision :=
  { allowed := false, errorCode := some r.errorCode, scope := some r.scope,
    budgetKind := r.budgetKind }

def granted (reservations : List LimitKey) (handles : List BreakerKey) : GovernanceDecision :=
  { allowed := true, limitReservations := reservations, breakerReservations := handles }

def breakersFor (request : RequestDescriptor) (m : GovernanceManager) :
    List (BreakerKey × BreakerSettings) :=
  if m.config.breakerEnabled then breakerScopes m.config.breaker request else []

def limitsFor (request : RequestDescriptor) (m : GovernanceManager) :
    List (LimitKey × LimitSettings) :=
  if m.config.limitsEnabled then limitScopes m.config.limits request else []

def checkLimits (now : ℚ) (request : RequestDescriptor) (handles : List BreakerKey)
    (m : GovernanceManager) : GovernanceDecision × GovernanceManager :=
  match reserveLimits now (m.limitsFor request) [] m with
  | (.error r, m) => (refused r, m.releaseBreakers handles)
  | (.ok reservations, m) => (granted reservations handles, m)

def check (now : ℚ) (request : RequestDescriptor) (m : GovernanceManager) :
    GovernanceDecision × GovernanceManager :=
  if m.config.limitsEnabled || m.config.breakerEnabled then
    match reserveBreakers now (m.breakersFor request) [] m with
    | (.error r, m) => (refused r, m)
    | (.ok handles, m) => m.checkLimits now request handles
  else ({ allowed := true }, m)

inductive Checked (now : ℚ) (request : RequestDescriptor) (m : GovernanceManager) :
    GovernanceDecision × GovernanceManager → Prop
  | off : Checked now request m ({ allowed := true }, m)
  | open_ {r : Rejection} {m₁ : GovernanceManager}
      (hb : m.reserveBreakers now (m.breakersFor request) [] = (.error r, m₁)) :
      Checked now request m (refused r, m₁)
  | limited {handles : List BreakerKey} {r : Rejection} {m₁ m₂ : GovernanceManager}
      (hb : m.reserveBreakers now (m.breakersFor request) [] = (.ok handles, m₁))
      (hl : m₁.reserveLimits now (m₁.limitsFor request) [] = (.error r, m₂)) :
      Checked now request m (refused r, m₂.releaseBreakers handles)
  | admitted {handles : List BreakerKey} {reservations : List LimitKey}
      {m₁ m₂ : GovernanceManager}
      (hb : m.reserveBreakers now (m.breakersFor request) [] = (.ok handles, m₁))
      (hl : m₁.reserveLimits now (m₁.limitsFor request) [] = (.ok reservations, m₂)) :
      Checked now request m (granted reservations handles, m₂)

theorem check_checked (now : ℚ) (request : RequestDescriptor) (m : GovernanceManager) :
    Checked now request m (m.check now request) := by
  unfold check
  split_ifs
  · split
    · rename_i hb
      exact .open_ hb
    · rename_i hb
      unfold checkLimits
      split
      · rename_i hl
        exact .limited hb hl
      · rename_i hl
        exact .admitted hb hl
  · exact .off

def activate (now : ℚ) (d : GovernanceDecision) (m : GovernanceManager) : GovernanceManager :=
  if d.allowed then d.limitReservations.foldl (updateLimit (LimitState.activate now)) m else m

def finalize (now : ℚ) (d : GovernanceDecision) (r : Report) (m : GovernanceManager) :
    GovernanceManager :=
  if d.allowed then
    d.breakerReservations.foldl (updateBreaker (CircuitBreaker.finish now r))
      (d.limitReservations.foldl (updateLimit (LimitState.finish now r)) m)
  else m

def cancel (d : GovernanceDecision) (m : GovernanceManager) : GovernanceManager :=
  if d.allowed then
    (d.limitReservations.foldl (updateLimit LimitState.cancelPending) m).releaseBreakers
      d.breakerReservations
  else m

end GovernanceManager

end TraceMind.Governance
