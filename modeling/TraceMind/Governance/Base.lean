import TraceMind.Basic
import TraceMind.Foundation.OrderedDict
import Mathlib.Algebra.Order.Ring.Unbundled.Rat

namespace TraceMind.Governance

inductive LimitKey where
  | policy (binding arm : Str)
  | flow (name : Str)
  | global
deriving DecidableEq

inductive BreakerKey where
  | policy (binding : Str)
  | flow (name : Str)
  | global
deriving DecidableEq

structure LimitSettings where
  enabled : Bool := true
  qps : Option ℚ := none
  concurrency : Option ℤ := none
  tokensPerMin : Option ℚ := none
  costPerHour : Option ℚ := none

namespace LimitSettings

def isActive (s : LimitSettings) : Bool :=
  s.enabled && (s.qps.isSome || s.concurrency.isSome || s.tokensPerMin.isSome ||
    s.costPerHour.isSome)

end LimitSettings

structure LimitsConfig where
  enabled : Bool := false
  globalScope : LimitSettings := {}
  perFlow : OrderedDict Str LimitSettings := OrderedDict.empty
  perPolicyArm : OrderedDict (Str × Str) LimitSettings := OrderedDict.empty

namespace LimitsConfig

def anyLimits (c : LimitsConfig) : Bool :=
  c.enabled && (c.globalScope.isActive || c.perFlow.entries.any (fun e => e.2.isActive) ||
    c.perPolicyArm.entries.any (fun e => e.2.isActive))

end LimitsConfig

structure BreakerSettings where
  enabled : Bool := true
  windowSec : ℚ := 30
  failureThreshold : ℤ := 5
  timeoutThreshold : ℤ := 5
  cooldownSec : ℚ := 30
  halfOpenMaxCalls : ℤ := 1

namespace BreakerSettings

def isActive (s : BreakerSettings) : Bool :=
  s.enabled && (decide (0 < s.failureThreshold) || decide (0 < s.timeoutThreshold))

end BreakerSettings

structure BreakerConfig where
  enabled : Bool := false
  globalScope : BreakerSettings := {}
  perFlow : OrderedDict Str BreakerSettings := OrderedDict.empty
  perPolicy : OrderedDict Str BreakerSettings := OrderedDict.empty

namespace BreakerConfig

def anyBreakers (c : BreakerConfig) : Bool :=
  c.enabled && (c.globalScope.isActive || c.perFlow.entries.any (fun e => e.2.isActive) ||
    c.perPolicy.entries.any (fun e => e.2.isActive))

end BreakerConfig

structure GovernanceConfig where
  enabled : Bool := false
  limits : LimitsConfig := {}
  breaker : BreakerConfig := {}

namespace GovernanceConfig

def limitsEnabled (c : GovernanceConfig) : Bool := c.enabled && c.limits.anyLimits

def breakerEnabled (c : GovernanceConfig) : Bool := c.enabled && c.breaker.anyBreakers

end GovernanceConfig

structure RequestDescriptor where
  flow : Str
  binding : Option Str := none
  policyArm : Option Str := none

section scopes

def truthy : Option Str → Option Str
  | some (c :: cs) => some (c :: cs)
  | _ => none

def scopeOf {α β : Type} (key : α) : Option β → List (α × β)
  | none => []
  | some settings => [(key, settings)]

def policyLimit (limits : LimitsConfig) (r : RequestDescriptor) :
    List (LimitKey × LimitSettings) :=
  match truthy r.binding, truthy r.policyArm with
  | some b, some a => scopeOf (.policy b a) (limits.perPolicyArm.get? (b, a))
  | _, _ => []

def flowLimit (limits : LimitsConfig) (r : RequestDescriptor) : List (LimitKey × LimitSettings) :=
  match truthy (some r.flow) with
  | some f => scopeOf (.flow f) (limits.perFlow.get? f)
  | none => []

def globalLimit (limits : LimitsConfig) : List (LimitKey × LimitSettings) :=
  if limits.globalScope.isActive then [(.global, limits.globalScope)] else []

def limitScopes (limits : LimitsConfig) (r : RequestDescriptor) :
    List (LimitKey × LimitSettings) :=
  if limits.enabled then policyLimit limits r ++ flowLimit limits r ++ globalLimit limits else []

def policyBreaker (breaker : BreakerConfig) (r : RequestDescriptor) :
    List (BreakerKey × BreakerSettings) :=
  match truthy r.binding with
  | some b => scopeOf (.policy b) (breaker.perPolicy.get? b)
  | none => []

def flowBreaker (breaker : BreakerConfig) (r : RequestDescriptor) :
    List (BreakerKey × BreakerSettings) :=
  match truthy (some r.flow) with
  | some f => scopeOf (.flow f) (breaker.perFlow.get? f)
  | none => []

def globalBreaker (breaker : BreakerConfig) : List (BreakerKey × BreakerSettings) :=
  if breaker.globalScope.isActive then [(.global, breaker.globalScope)] else []

def breakerScopes (breaker : BreakerConfig) (r : RequestDescriptor) :
    List (BreakerKey × BreakerSettings) :=
  if breaker.enabled then
    policyBreaker breaker r ++ flowBreaker breaker r ++ globalBreaker breaker
  else []

def formatLimitScope : LimitKey → Str
  | .global => "global".toList
  | .flow name => "flow:".toList ++ name
  | .policy name arm => "policy:".toList ++ name ++ ':' :: arm

def formatBreakerScope : BreakerKey → Str
  | .global => "global".toList
  | .flow name => "flow:".toList ++ name
  | .policy name => "policy:".toList ++ name

section keys

variable {α β : Type} {key : α} {o : Option β}

theorem scopeOf_nodup (key : α) (o : Option β) : ((scopeOf key o).map Prod.fst).Nodup := by
  cases o with
  | none => exact List.nodup_nil
  | some settings => exact List.nodup_singleton key

theorem mem_scopeOf {e : α × β} (h : e ∈ scopeOf key o) : e.1 = key ∧ o = some e.2 := by
  cases o with
  | none => cases h
  | some settings =>
    obtain rfl := List.mem_singleton.mp h
    exact ⟨rfl, rfl⟩

end keys

def LimitsConfig.settings? (c : LimitsConfig) : LimitKey → Option LimitSettings
  | .policy binding arm => c.perPolicyArm.get? (binding, arm)
  | .flow name => c.perFlow.get? name
  | .global => some c.globalScope

variable {c : LimitsConfig} {r : RequestDescriptor} {e : LimitKey × LimitSettings}

theorem mem_policyLimit (h : e ∈ policyLimit c r) :
    (∃ b a, e.1 = .policy b a) ∧ c.settings? e.1 = some e.2 := by
  unfold policyLimit at h
  split at h
  · obtain ⟨hkey, hget⟩ := mem_scopeOf h
    rw [hkey]
    exact ⟨⟨_, _, rfl⟩, hget⟩
  · cases h

theorem mem_flowLimit (h : e ∈ flowLimit c r) :
    (∃ f, e.1 = .flow f) ∧ c.settings? e.1 = some e.2 := by
  unfold flowLimit at h
  split at h
  · obtain ⟨hkey, hget⟩ := mem_scopeOf h
    rw [hkey]
    exact ⟨⟨_, rfl⟩, hget⟩
  · cases h

theorem mem_globalLimit (h : e ∈ globalLimit c) :
    e.1 = .global ∧ c.settings? e.1 = some e.2 := by
  unfold globalLimit at h
  split_ifs at h
  · obtain rfl := List.mem_singleton.mp h
    exact ⟨rfl, rfl⟩
  · cases h

theorem limitScopes_settings (h : e ∈ limitScopes c r) : c.settings? e.1 = some e.2 := by
  unfold limitScopes at h
  split_ifs at h
  · rcases List.mem_append.mp h with h | h
    · rcases List.mem_append.mp h with h | h
      · exact (mem_policyLimit h).2
      · exact (mem_flowLimit h).2
    · exact (mem_globalLimit h).2
  · cases h

theorem nodup_of_kinds {α : Type} (kind : α → ℕ) {k₁ k₂ k₃ : List α} (h₁ : k₁.Nodup)
    (h₂ : k₂.Nodup) (h₃ : k₃.Nodup) (e₁ : ∀ k ∈ k₁, kind k = 0) (e₂ : ∀ k ∈ k₂, kind k = 1)
    (e₃ : ∀ k ∈ k₃, kind k = 2) : (k₁ ++ k₂ ++ k₃).Nodup := by
  rw [List.nodup_append, List.nodup_append]
  refine ⟨⟨h₁, h₂, fun a ha b hb hab => ?_⟩, h₃, fun a ha b hb hab => ?_⟩
  · have hkind := e₂ b hb
    rw [← hab, e₁ a ha] at hkind
    cases hkind
  · have hkind := e₃ b hb
    rw [← hab] at hkind
    rcases List.mem_append.mp ha with ha | ha
    · rw [e₁ a ha] at hkind
      cases hkind
    · rw [e₂ a ha] at hkind
      cases hkind

def LimitKey.kind : LimitKey → ℕ
  | .policy _ _ => 0
  | .flow _ => 1
  | .global => 2

def BreakerKey.kind : BreakerKey → ℕ
  | .policy _ => 0
  | .flow _ => 1
  | .global => 2

theorem limitScopes_nodup (c : LimitsConfig) (r : RequestDescriptor) :
    ((limitScopes c r).map Prod.fst).Nodup := by
  unfold limitScopes
  split_ifs
  · rw [List.map_append, List.map_append]
    refine nodup_of_kinds LimitKey.kind ?_ ?_ ?_ (fun k hk => ?_) (fun k hk => ?_) (fun k hk => ?_)
    · unfold policyLimit
      split
      · exact scopeOf_nodup ..
      · exact List.nodup_nil
    · unfold flowLimit
      split
      · exact scopeOf_nodup ..
      · exact List.nodup_nil
    · unfold globalLimit
      split_ifs
      · exact List.nodup_singleton _
      · exact List.nodup_nil
    · obtain ⟨x, hx, rfl⟩ := List.mem_map.mp hk
      obtain ⟨⟨_, _, hp⟩, -⟩ := mem_policyLimit hx
      rw [hp]
      rfl
    · obtain ⟨x, hx, rfl⟩ := List.mem_map.mp hk
      obtain ⟨⟨_, hf⟩, -⟩ := mem_flowLimit hx
      rw [hf]
      rfl
    · obtain ⟨x, hx, rfl⟩ := List.mem_map.mp hk
      rw [(mem_globalLimit hx).1]
      rfl
  · exact List.nodup_nil

theorem breakerScopes_nodup (c : BreakerConfig) (r : RequestDescriptor) :
    ((breakerScopes c r).map Prod.fst).Nodup := by
  unfold breakerScopes
  split_ifs
  · rw [List.map_append, List.map_append]
    have hpolicy : ((policyBreaker c r).map Prod.fst).Nodup ∧
        ∀ k ∈ (policyBreaker c r).map Prod.fst, k.kind = 0 := by
      unfold policyBreaker
      split
      · refine ⟨scopeOf_nodup .., fun k hk => ?_⟩
        obtain ⟨x, hx, rfl⟩ := List.mem_map.mp hk
        rw [(mem_scopeOf hx).1]
        rfl
      · exact ⟨List.nodup_nil, nofun⟩
    have hflow : ((flowBreaker c r).map Prod.fst).Nodup ∧
        ∀ k ∈ (flowBreaker c r).map Prod.fst, k.kind = 1 := by
      unfold flowBreaker
      split
      · refine ⟨scopeOf_nodup .., fun k hk => ?_⟩
        obtain ⟨x, hx, rfl⟩ := List.mem_map.mp hk
        rw [(mem_scopeOf hx).1]
        rfl
      · exact ⟨List.nodup_nil, nofun⟩
    have hglobal : ((globalBreaker c).map Prod.fst).Nodup ∧
        ∀ k ∈ (globalBreaker c).map Prod.fst, k.kind = 2 := by
      unfold globalBreaker
      split_ifs
      · refine ⟨List.nodup_singleton _, fun k hk => ?_⟩
        obtain rfl := List.mem_singleton.mp hk
        rfl
      · exact ⟨List.nodup_nil, nofun⟩
    exact nodup_of_kinds BreakerKey.kind hpolicy.1 hflow.1 hglobal.1 hpolicy.2 hflow.2 hglobal.2
  · exact List.nodup_nil

end scopes

end TraceMind.Governance
