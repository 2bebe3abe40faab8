import TraceMind.Queue.Envelope
import TraceMind.Foundation.Fallible
import TraceMind.Foundation.OrderedDict
import Mathlib.Algebra.Order.Ring.Rat

namespace TraceMind.Policy

open Queue (Error PyText)

structure ArmState where
  pulls : ℕ := 0
  totalReward : ℚ := 0

def ArmState.avgReward (a : ArmState) : ℚ := if a.pulls = 0 then 0 else a.totalReward / a.pulls

structure BanditState where
  arms : OrderedDict Str ArmState := OrderedDict.empty
  totalPulls : ℕ := 0

namespace BanditState

def arm (a : Str) (b : BanditState) : ArmState := (b.arms.get? a).getD {}

def ensureArm (a : Str) (b : BanditState) : BanditState :=
  if (b.arms.get? a).isSome then b else { b with arms := b.arms.store a {} }

def update (a : Str) (reward : ℚ) (b : BanditState) : BanditState :=
  let known := b.ensureArm a
  { arms := known.arms.assign a
      { pulls := (known.arm a).pulls + 1
        totalReward := (known.arm a).totalReward + reward }
    totalPulls := b.totalPulls + 1 }

section arms

variable (a x : Str) (b : BanditState)

@[simp] theorem arm_ensureArm : (b.ensureArm a).arm x = b.arm x := by
  rw [ensureArm]
  split_ifs with h
  · rfl
  · rw [arm, arm, OrderedDict.get?_store]
    split_ifs with hx
    · subst hx
      rw [Option.not_isSome_iff_eq_none.mp h]
      rfl
    · rfl

theorem arm_ensureArms (arms : List Str) :
    (arms.foldl (fun b a => b.ensureArm a) b).arm x = b.arm x := by
  induction arms generalizing b with
  | nil => rfl
  | cons a arms ih =>
    rw [List.foldl_cons, ih]
    exact arm_ensureArm a x b

theorem pulls_update (reward : ℚ) :
    ((b.update a reward).arm x).pulls = (b.arm x).pulls + if x = a then 1 else 0 := by
  rw [update, arm, OrderedDict.get?_assign]
  split_ifs with hx
  · subst hx
    simp
  · exact congrArg ArmState.pulls (arm_ensureArm a x b)

end arms

end BanditState

structure Draw where
  roll : ℚ
  index : ℕ

def Draw.choice (d : Draw) (arms : List Str) : Option Str := arms[d.index % arms.length]?

inductive Selector where
  | epsilonGreedy (epsilon : ℚ)
  | ucb1 (c : ℚ)

section select

-- `c * sqrt(2 * log(total) / pulls)`, as the floating-point library computes it.
variable (bonus : ℚ → ℕ → ℕ → ℚ)

def isClose (a b : ℚ) : Bool := decide (|a - b| ≤ max |a| |b| / 1000000000)

def bestAverage (b : BanditState) (arms : List Str) : ℚ :=
  match arms.map (fun a => (b.arm a).avgReward) with
  | [] => 0
  | v :: vs => vs.foldl max v

def selectEpsilon (epsilon : ℚ) (d : Draw) (arms : List Str) (b : BanditState) : Option Str :=
  let unexplored := arms.filter (fun a => (b.arm a).pulls = 0)
  if unexplored ≠ [] then d.choice unexplored
  else if d.roll < epsilon then d.choice arms
  else d.choice (arms.filter (fun a => isClose (b.arm a).avgReward (bestAverage b arms)))

def ucbValue (c : ℚ) (total : ℕ) (a : ArmState) : ℚ :=
  a.avgReward + (if 0 < a.pulls ∧ 0 < c then bonus c total a.pulls else 0)

def bestOf (value : Str → ℚ) : List Str → Option Str
  | [] => none
  | a :: arms =>
    match bestOf value arms with
    | none => some a
    | some x => if value x ≤ value a then some a else some x

def selectUcb (c : ℚ) (d : Draw) (arms : List Str) (b : BanditState) : Option Str :=
  let unexplored := arms.filter (fun a => (b.arm a).pulls = 0)
  if unexplored ≠ [] then d.choice unexplored
  else
    let pulls := b.arms.entries.foldl (fun n (e : Str × ArmState) => n + e.2.pulls) 0
    let total := if pulls = 0 then 1 else pulls
    bestOf (fun a => ucbValue bonus c total (b.arm a)) arms

structure Strategy where
  selector : Selector
  state : BanditState := {}

def Strategy.select (d : Draw) (arms : List Str) (s : Strategy) : Option Str × Strategy :=
  let known := arms.foldl (fun b a => b.ensureArm a) s.state
  let choice :=
    match s.selector with
    | .epsilonGreedy epsilon => selectEpsilon epsilon d arms known
    | .ucb1 c => selectUcb bonus c d arms known
  (choice, { s with state := known })

def Strategy.update (arm : Str) (reward : ℚ) (s : Strategy) : Strategy :=
  { s with state := s.state.update arm reward }

end select

structure TuningConfig where
  strategy : Str
  params : List (Str × ℚ)
  version : Str := "local".toList
  source : Str := "local".toList

structure BanditTuner where
  factory : Selector
  defaultConfig : TuningConfig
  strategies : OrderedDict Str Strategy := OrderedDict.empty
  configs : OrderedDict Str TuningConfig := OrderedDict.empty

namespace BanditTuner

section tuner

variable (py : PyText) (float : Json → Except Error ℚ) (bonus : ℚ → ℕ → ℕ → ℚ)

def normalizeStrategy (name : Str) : Str :=
  let lowered := lower name
  if lowered ∈ ["epsilon".toList, "epsilon_greedy".toList, "eps".toList] then "epsilon".toList
  else if lowered ∈ ["ucb".toList, "ucb1".toList] then "ucb1".toList
  else lowered

def given (params : List (Str × Json)) (key other : Str) : Json :=
  match OrderedDict.find key params with
  | some .null | none => (OrderedDict.find other params).getD .null
  | some v => v

def number (v : Json) (default : ℚ) : Except Error ℚ :=
  match v with
  | .null => .ok default
  | v => float v

def parseParams (params : List (Str × Json)) (default : TuningConfig) :
    Except Error (Str × List (Str × ℚ)) := do
  let name := normalizeStrategy
    (((OrderedDict.find "strategy".toList params).map py.str).getD default.strategy)
  if name = "epsilon".toList then
    let epsilon ← number float (given params "epsilon".toList "alpha".toList)
      ((OrderedDict.find "epsilon".toList default.params).getD (1 / 10))
    if 0 ≤ epsilon ∧ epsilon ≤ 1 then .ok (name, [("epsilon".toList, epsilon)])
    else .error (.valueError "epsilon must be in [0, 1]")
  else if name = "ucb1".toList then
    match given params "c".toList "exploration_bonus".toList with
    | .null => .ok (name, [("c".toList, (OrderedDict.find "c".toList default.params).getD 1)])
    | v =>
      let c ← float v
      .ok (name, [("c".toList, max 0 c)])
  else .error (.valueError "Unsupported strategy")

def buildStrategy (name : Str) (params : List (Str × ℚ)) : Except Error Strategy :=
  if name = "epsilon".toList then
    let epsilon := (OrderedDict.find "epsilon".toList params).getD (1 / 10)
    if 0 ≤ epsilon ∧ epsilon ≤ 1 then .ok { selector := .epsilonGreedy epsilon }
    else .error (.valueError "epsilon must be in [0, 1]")
  else if name = "ucb1".toList then
    let c := (OrderedDict.find "c".toList params).getD 1
    if c < 0 then .error (.valueError "c must be >= 0") else .ok { selector := .ucb1 c }
  else .error (.valueError "Unsupported strategy")

def ensureStrategy (binding : Str) (t : BanditTuner) : Strategy × BanditTuner :=
  match t.strategies.get? binding with
  | some s => (s, t)
  | none =>
    ({ selector := t.factory },
      { t with
        strategies := t.strategies.assign binding { selector := t.factory }
        configs := t.configs.assign binding t.defaultConfig })

def choose (binding : Str) (candidates : List Str) (d : Draw) (t : BanditTuner) :
    Except Error Str × BanditTuner :=
  match candidates.eraseDups with
  | [] => (.error (.valueError "candidates must be a non-empty iterable"), t)
  | arms =>
    let r := t.ensureStrategy binding
    let s := r.1.select bonus d arms
    let t := { r.2 with strategies := r.2.strategies.assign binding s.2 }
    match s.1 with
    | none => (.error (.valueError "Strategy selected unknown arm"), t)
    | some arm => (.ok arm, t)

def update (binding arm : Str) (reward : ℚ) (t : BanditTuner) : BanditTuner :=
  let r := t.ensureStrategy binding
  { r.2 with strategies := r.2.strategies.assign binding (r.1.update arm reward) }

def configure (binding : Str) (params : List (Str × Json)) (version source : Str)
    (t : BanditTuner) : Except Error (TuningConfig × BanditTuner) := do
  let parsed ← parseParams py float params t.defaultConfig
  let strategy ← buildStrategy parsed.1 parsed.2
  let cfg : TuningConfig := ⟨parsed.1, parsed.2, version, source⟩
  .ok (cfg,
    { t with
      strategies := t.strategies.assign binding strategy
      configs := t.configs.assign binding cfg })

def stats (binding : Str) (t : BanditTuner) : List (Str × ArmState) :=
  match t.strategies.get? binding with
  | none => []
  | some s => s.state.arms.entries

def pulls (binding arm : Str) (t : BanditTuner) : ℕ :=
  ((OrderedDict.find arm (t.stats binding)).map ArmState.pulls).getD 0

end tuner

section statistics

variable {py : PyText} {float : Json → Except Error ℚ} {bonus : ℚ → ℕ → ℕ → ℚ}
  {binding arm : Str} {t u : BanditTuner}

def learned (binding : Str) (t : BanditTuner) : BanditState :=
  ((t.strategies.get? binding).map Strategy.state).getD {}

theorem pulls_eq : t.pulls binding arm = ((t.learned binding).arm arm).pulls := by
  rw [pulls, stats, learned]
  cases t.strategies.get? binding with
  | none => rfl
  | some s =>
    rw [Option.map_some, Option.getD_some, BanditState.arm, OrderedDict.get?]
    cases OrderedDict.find arm s.state.arms.entries <;> rfl

theorem learned_assign {s : Strategy} (h : u.strategies = t.strategies.assign binding s) :
    u.learned binding = s.state := by
  rw [learned, h, OrderedDict.get?_assign, if_pos rfl]
  rfl

theorem ensureStrategy_spec :
    (t.ensureStrategy binding).1.state = t.learned binding ∧
      (t.ensureStrategy binding).2.defaultConfig = t.defaultConfig := by
  rw [ensureStrategy, learned]
  cases t.strategies.get? binding with
  | none => exact ⟨rfl, rfl⟩
  | some s => exact ⟨rfl, rfl⟩

theorem pulls_update (a : Str) (reward : ℚ) :
    (t.update binding a reward).pulls binding arm = t.pulls binding arm + if arm = a then 1 else 0 := by
  rw [pulls_eq, pulls_eq, learned_assign rfl, Strategy.update, BanditState.pulls_update,
    ensureStrategy_spec.1]

theorem select_pulls {s : Strategy} (d : Draw) (arms : List Str) :
    ((s.select bonus d arms).2.state.arm arm).pulls = (s.state.arm arm).pulls :=
  congrArg ArmState.pulls (BanditState.arm_ensureArms arm s.state arms)

theorem choose_spec (arm : Str) (candidates : List Str) (d : Draw) :
    (t.choose bonus binding candidates d).2.pulls binding arm = t.pulls binding arm ∧
      (t.choose bonus binding candidates d).2.defaultConfig = t.defaultConfig := by
  rw [choose]
  cases candidates.eraseDups with
  | nil => exact ⟨rfl, rfl⟩
  | cons a arms =>
    dsimp only
    have hpulls : ∀ u : BanditTuner, u.strategies = (t.ensureStrategy binding).2.strategies.assign
        binding ((t.ensureStrategy binding).1.select bonus d (a :: arms)).2 →
        u.pulls binding arm = t.pulls binding arm := by
      intro u hu
      rw [pulls_eq, pulls_eq, learned_assign hu, select_pulls, ensureStrategy_spec.1]
    cases ((t.ensureStrategy binding).1.select bonus d (a :: arms)).1 with
    | none => exact ⟨hpulls _ rfl, ensureStrategy_spec.2⟩
    | some choice => exact ⟨hpulls _ rfl, ensureStrategy_spec.2⟩

theorem buildStrategy_state {name : Str} {params : List (Str × ℚ)} {s : Strategy}
    (h : buildStrategy name params = .ok s) : s.state = {} := by
  simp only [buildStrategy] at h
  split_ifs at h <;> cases h <;> rfl

theorem configure_cases {params : List (Str × Json)} {version source : Str}
    {r : TuningConfig × BanditTuner}
    (h : t.configure py float binding params version source = .ok r) :
    ∃ parsed s, parseParams py float params t.defaultConfig = .ok parsed ∧
      buildStrategy parsed.1 parsed.2 = .ok s ∧
      r = (⟨parsed.1, parsed.2, version, source⟩,
        { t with
          strategies := t.strategies.assign binding s
          configs := t.configs.assign binding ⟨parsed.1, parsed.2, version, source⟩ }) := by
  obtain ⟨parsed, hparsed, h⟩ := Fallible.bind_eq_ok.mp h
  obtain ⟨s, hs, h⟩ := Fallible.bind_eq_ok.mp h
  exact ⟨parsed, s, hparsed, hs, (Except.ok.inj h).symm⟩

theorem configure_spec {params : List (Str × Json)} {version source : Str}
    {r : TuningConfig × BanditTuner}
    (h : t.configure py float binding params version source = .ok r) :
    (∀ arm, r.2.pulls binding arm = 0) ∧ r.2.defaultConfig = t.defaultConfig := by
  obtain ⟨parsed, s, -, hs, rfl⟩ := configure_cases h
  refine ⟨fun arm => ?_, rfl⟩
  rw [pulls_eq, learned_assign rfl, buildStrategy_state hs]
  rfl

theorem configure_again {params : List (Str × Json)} {version source : Str}
    {r : TuningConfig × BanditTuner}
    (h : t.configure py float binding params version source = .ok r)
    (hu : u.defaultConfig = t.defaultConfig) :
    ∃ r', u.configure py float binding params version source = .ok r' := by
  obtain ⟨parsed, s, hparsed, hs, -⟩ := configure_cases h
  rw [← hu] at hparsed
  refine ⟨_, Fallible.bind_eq_ok.mpr ⟨parsed, hparsed, Fallible.bind_eq_ok.mpr ⟨s, hs, rfl⟩⟩⟩

end statistics

end BanditTuner

structure BindingPolicy where
  endpoint : Option Str := none
  policyRef : Option Str := none

structure PolicyDecision where
  arms : List Str
  remoteVersion : Option Str
  fallback : Bool

inductive Reply where
  | failed
  | result (r : Json)

structure McpPolicyAdapter where
  tuner : BanditTuner
  bindings : OrderedDict Str BindingPolicy := OrderedDict.empty
  versions : OrderedDict Str Str := OrderedDict.empty

namespace McpPolicyAdapter

section adapter

variable (py : PyText) (float : Json → Except Error ℚ)

def isMcpEndpoint (endpoint : Option Str) : Bool := endpoint.any (startsWith "mcp:".toList)

def extractParams (r : Json) : List (Str × Json) × Option Str :=
  match r with
  | .obj fs =>
    (match OrderedDict.find "params".toList fs with
      | some (.obj ps) => ps
      | _ => [],
      match OrderedDict.find "version".toList fs with
      | some .null | none => none
      | some v => some (py.str v))
  | _ => ([], none)

def remoteVersion (version : Option Str) : Str :=
  match version with
  | none | some [] => "remote".toList
  | some v => v

def applyParams (binding : Str) (params : List (Str × Json)) (version : Option Str)
    (t : BanditTuner) : Except Error (Option Str × BanditTuner) :=
  if params = [] then .ok (version, t)
  else
    match t.configure py float binding params (remoteVersion version) "remote".toList with
    | .ok r => .ok (some r.1.version, r.2)
    | .error (.valueError _) => .ok (none, t)
    | .error e => .error e

def noteVersion (binding : Str) (applied : Option Str) (versions : OrderedDict Str Str) :
    OrderedDict Str Str :=
  match applied with
  | none | some [] => versions
  | some v => versions.assign binding v

def applyReply (binding : Str) (r : Json) (a : McpPolicyAdapter) :
    Except Error (Option Str × McpPolicyAdapter) := do
  let p := extractParams py r
  let applied ← applyParams py float binding p.1 p.2 a.tuner
  .ok (applied.1,
    { a with
      tuner := applied.2
      versions := noteVersion binding applied.1 a.versions })

def armNames (vs : List Json) : List Str :=
  (vs.filterMap (fun v =>
    match v with
    | .str (c :: cs) => some (c :: cs)
    | _ => none)).eraseDups

def fetchArms (candidates : List Str) : Reply → Option (List Str)
  | .result (.obj fs) =>
    match OrderedDict.find "arms".toList fs with
    | some (.arr vs) => if armNames vs = [] then some candidates else some (armNames vs)
    | _ => some candidates
  | _ => none

def isRemote (binding : Str) (a : McpPolicyAdapter) : Bool :=
  (a.bindings.get? binding).any (fun b => isMcpEndpoint b.endpoint)

def prepare (binding : Str) (candidates : List Str) (get listArms : Reply) (a : McpPolicyAdapter) :
    PolicyDecision × McpPolicyAdapter :=
  if a.isRemote binding then
    match get with
    | .failed => (⟨candidates, none, true⟩, a)
    | .result r =>
      match a.applyReply py float binding r with
      | .error _ => (⟨candidates, none, true⟩, a)
      | .ok applied =>
        match fetchArms candidates listArms with
        | none => (⟨candidates, none, true⟩, applied.2)
        | some arms => (⟨arms, applied.1, false⟩, applied.2)
  else (⟨candidates, none, true⟩, a)

def postRun (binding : Option Str) (reply : Reply) (a : McpPolicyAdapter) : McpPolicyAdapter :=
  match binding with
  | none | some [] => a
  | some b =>
    if a.isRemote b then
      match reply with
      | .failed => a
      | .result r =>
        match a.applyReply py float b r with
        | .error _ => a
        | .ok applied => applied.2
    else a

end adapter

end McpPolicyAdapter

inductive TuningCall where
  | prepare (candidates : List Str) (get listArms : Reply)
  | postRun (reply : Reply)
  | choose (candidates : List Str) (draw : Draw)
  | update (arm : Str) (reward : ℚ)

namespace McpPolicyAdapter

section runs

variable (py : PyText) (float : Json → Except Error ℚ) (bonus : ℚ → ℕ → ℕ → ℚ) (binding : Str)

def perform (a : McpPolicyAdapter) : TuningCall → McpPolicyAdapter
  | .prepare candidates get listArms => (a.prepare py float binding candidates get listArms).2
  | .postRun reply => a.postRun py float (some binding) reply
  | .choose candidates draw => { a with tuner := (a.tuner.choose bonus binding candidates draw).2 }
  | .update arm reward => { a with tuner := a.tuner.update binding arm reward }

def run (es : List TuningCall) (a : McpPolicyAdapter) : McpPolicyAdapter :=
  es.foldl (perform py float bonus binding) a

def isUpdateOf (arm : Str) : TuningCall → Bool
  | .update a _ => decide (a = arm)
  | _ => false

def updates (es : List TuningCall) (arm : Str) : ℕ := es.countP (isUpdateOf arm)

def answer : TuningCall → Option Json
  | .prepare _ (.result r) _ => some r
  | .postRun (.result r) => some r
  | _ => none

def Unchanged (params : List (Str × Json)) (version : Option Str) (es : List TuningCall) : Prop :=
  ∀ e ∈ es, ∀ r, answer e = some r → extractParams py r = (params, version)

def fetches (a : McpPolicyAdapter) : TuningCall → Bool
  | .postRun reply => decide (binding ≠ []) && a.isRemote binding && (answer (.postRun reply)).isSome
  | e => a.isRemote binding && (answer e).isSome

end runs

section preservation

variable {py : PyText} {float : Json → Except Error ℚ} {bonus : ℚ → ℕ → ℕ → ℚ} {binding : Str}
  {params : List (Str × Json)} {version : Option Str} {a b : McpPolicyAdapter} {e : TuningCall}
  {es : List TuningCall} {arm : Str}

def Configured (py : PyText) (float : Json → Except Error ℚ) (binding : Str)
    (params : List (Str × Json)) (version : Option Str) (a : McpPolicyAdapter) : Prop :=
  params ≠ [] ∧ ∃ r, a.tuner.configure py float binding params (remoteVersion version)
    "remote".toList = .ok r

theorem Configured.congr (h : Configured py float binding params version a)
    (hb : b.tuner.defaultConfig = a.tuner.defaultConfig) :
    Configured py float binding params version b := by
  obtain ⟨hne, r, hr⟩ := h
  exact ⟨hne, BanditTuner.configure_again hr hb⟩

theorem applyReply_spec (h : Configured py float binding params version a) {r : Json}
    (hr : extractParams py r = (params, version)) :
    ∃ applied, a.applyReply py float binding r = .ok applied ∧
      (∀ arm, applied.2.tuner.pulls binding arm = 0) ∧
      applied.2.tuner.defaultConfig = a.tuner.defaultConfig ∧
      applied.2.bindings = a.bindings := by
  obtain ⟨hne, c, hc⟩ := h
  have happly : applyParams py float binding params version a.tuner =
      .ok (some c.1.version, c.2) := by
    rw [applyParams, if_neg hne, hc]
  obtain ⟨hpulls, hdefault⟩ := BanditTuner.configure_spec hc
  refine ⟨(some c.1.version,
    { a with
      tuner := c.2
      versions := noteVersion binding (some c.1.version) a.versions }), ?_, hpulls, hdefault, rfl⟩
  rw [applyReply, hr, happly]
  rfl

structure Performed (binding arm : Str) (a : McpPolicyAdapter) (e : TuningCall)
    (b : McpPolicyAdapter) : Prop where
  pulls : b.tuner.pulls binding arm =
    if a.fetches binding e then 0
    else a.tuner.pulls binding arm + if isUpdateOf arm e then 1 else 0
  config : b.tuner.defaultConfig = a.tuner.defaultConfig
  bindings : b.bindings = a.bindings

theorem prepare_unserved {candidates : List Str} {get listArms : Reply}
    (h : a.isRemote binding = false) :
    (a.prepare py float binding candidates get listArms).2 = a := by
  simp [prepare, h]

theorem prepare_failed {candidates : List Str} {listArms : Reply} :
    (a.prepare py float binding candidates .failed listArms).2 = a := by
  rw [prepare]
  split_ifs <;> rfl

theorem prepare_applied {candidates : List Str} {listArms : Reply} {r : Json}
    {applied : Option Str × McpPolicyAdapter} (h : a.isRemote binding = true)
    (happlied : a.applyReply py float binding r = .ok applied) :
    (a.prepare py float binding candidates (.result r) listArms).2 = applied.2 := by
  simp only [prepare, h, if_true, happlied]
  cases fetchArms candidates listArms <;> rfl

theorem postRun_unserved {reply : Reply} (h : binding = [] ∨ a.isRemote binding = false) :
    a.postRun py float (some binding) reply = a := by
  cases binding with
  | nil => rfl
  | cons c cs =>
    rcases h with h | h
    · cases h
    · simp [postRun, h]

theorem postRun_failed : a.postRun py float (some binding) .failed = a := by
  cases binding with
  | nil => rfl
  | cons c cs =>
    simp only [postRun]
    split_ifs <;> rfl

theorem postRun_applied {r : Json} {applied : Option Str × McpPolicyAdapter} (hne : binding ≠ [])
    (h : a.isRemote binding = true) (happlied : a.applyReply py float binding r = .ok applied) :
    a.postRun py float (some binding) (.result r) = applied.2 := by
  cases binding with
  | nil => exact absurd rfl hne
  | cons c cs => simp only [postRun, h, if_true, happlied]

theorem performed_same (hf : a.fetches binding e = false) (hu : isUpdateOf arm e = false) :
    Performed binding arm a e a :=
  ⟨by simp [hf, hu], rfl, rfl⟩

theorem perform_spec (bonus : ℚ → ℕ → ℕ → ℚ) (arm : Str) (h : Configured py float binding params version a)
    (he : ∀ r, answer e = some r → extractParams py r = (params, version)) :
    Performed binding arm a e (a.perform py float bonus binding e) := by
  cases e with
  | prepare candidates get listArms =>
    cases hremote : a.isRemote binding with
    | false =>
      rw [perform, prepare_unserved hremote]
      exact performed_same (by simp [fetches, hremote]) rfl
    | true =>
      cases get with
      | failed =>
        rw [perform, prepare_failed]
        exact performed_same (by simp [fetches, answer]) rfl
      | result r =>
        obtain ⟨applied, happlied, hpulls, hconfig, hbindings⟩ := applyReply_spec h (he r rfl)
        rw [perform, prepare_applied hremote happlied]
        exact ⟨by simp [fetches, hremote, answer, hpulls], hconfig, hbindings⟩
  | postRun reply =>
    by_cases hserved : binding ≠ [] ∧ a.isRemote binding = true
    · obtain ⟨hne, hremote⟩ := hserved
      cases reply with
      | failed =>
        rw [perform, postRun_failed]
        exact performed_same (by simp [fetches, answer]) rfl
      | result r =>
        obtain ⟨applied, happlied, hpulls, hconfig, hbindings⟩ := applyReply_spec h (he r rfl)
        rw [perform, postRun_applied hne hremote happlied]
        exact ⟨by simp [fetches, hne, hremote, answer, hpulls], hconfig, hbindings⟩
    · have hor : binding = [] ∨ a.isRemote binding = false := by
        by_cases hne : binding = []
        · exact .inl hne
        · exact .inr (by simpa [hne] using hserved)
      rw [perform, postRun_unserved hor]
      refine performed_same ?_ rfl
      rcases hor with hor | hor <;> simp [fetches, hor]
  | choose candidates draw =>
    obtain ⟨hpulls, hconfig⟩ := BanditTuner.choose_spec arm candidates draw
    exact ⟨by simpa [perform, fetches, answer, isUpdateOf] using hpulls, hconfig, rfl⟩
  | update x reward =>
    refine ⟨?_, BanditTuner.ensureStrategy_spec.2, rfl⟩
    simp [perform, fetches, answer, isUpdateOf, BanditTuner.pulls_update, eq_comm]

theorem fetches_congr (h : b.bindings = a.bindings) : b.fetches binding e = a.fetches binding e := by
  have hremote : b.isRemote binding = a.isRemote binding := by
    rw [isRemote, isRemote, h]
  cases e <;> simp only [fetches, hremote]

theorem updates_snoc : updates (es ++ [e]) arm = updates es arm + if isUpdateOf arm e then 1 else 0 := by
  rw [updates, List.countP_append, ← updates, List.countP_singleton]

theorem run_snoc : run py float bonus binding (es ++ [e]) a =
    (run py float bonus binding es a).perform py float bonus binding e := by
  rw [run, List.foldl_append]
  rfl

theorem run_kept (bonus : ℚ → ℕ → ℕ → ℚ) (h : Configured py float binding params version a)
    (hes : Unchanged py params version es) :
    (run py float bonus binding es a).tuner.defaultConfig = a.tuner.defaultConfig ∧
      (run py float bonus binding es a).bindings = a.bindings := by
  induction es using List.reverseRecOn with
  | nil => exact ⟨rfl, rfl⟩
  | append_singleton es e ih =>
    obtain ⟨hconfig, hbindings⟩ := ih (fun f hf => hes f (List.mem_append_left _ hf))
    have hstep := perform_spec bonus [] (h.congr hconfig) (hes e (by simp))
    rw [run_snoc]
    exact ⟨hstep.config.trans hconfig, hstep.bindings.trans hbindings⟩

theorem pulls_run_snoc (h : Configured py float binding params version a)
    (hes : Unchanged py params version (es ++ [e])) (arm : Str) :
    (run py float bonus binding (es ++ [e]) a).tuner.pulls binding arm =
      if a.fetches binding e then 0
      else (run py float bonus binding es a).tuner.pulls binding arm +
        if isUpdateOf arm e then 1 else 0 := by
  obtain ⟨hconfig, hbindings⟩ :=
    run_kept bonus h (fun f hf => hes f (List.mem_append_left _ hf))
  have hstep := perform_spec bonus arm (h.congr hconfig) (hes e (by simp))
  rw [run_snoc, hstep.pulls, fetches_congr hbindings]

theorem updates_eq_zero : (∀ arm, updates es arm = 0) ↔ ∀ arm reward, .update arm reward ∉ es := by
  constructor
  · intro h arm reward hmem
    have hne := List.countP_eq_zero.mp (h arm) _ hmem
    simp [isUpdateOf] at hne
  · intro h arm
    refine List.countP_eq_zero.mpr (fun e he => ?_)
    cases e with
    | update x reward => exact absurd he (h x reward)
    | _ => simp [isUpdateOf]

theorem stats_exact_iff {t : BanditTuner} {cfg : TuningConfig} (hne : params ≠ [])
    (hfirst : t.configure py float binding params (remoteVersion version) "remote".toList =
      .ok (cfg, a.tuner))
    (hes : Unchanged py params version es) :
    (∀ before rest, es = before ++ rest → ∀ arm,
        (run py float bonus binding before a).tuner.pulls binding arm = updates before arm) ↔
      ∀ before e rest, es = before ++ e :: rest → a.fetches binding e = true →
        ∀ arm reward, .update arm reward ∉ before := by
  obtain ⟨hfresh, hdefault⟩ := BanditTuner.configure_spec hfirst
  have hconf : Configured py float binding params version a :=
    ⟨hne, BanditTuner.configure_again hfirst hdefault⟩
  constructor
  · intro h before e rest hsplit hfetch
    refine updates_eq_zero.mp (fun arm => ?_)
    have hsplit' : es = (before ++ [e]) ++ rest := by simp [hsplit]
    have hcount := h (before ++ [e]) rest hsplit' arm
    rw [pulls_run_snoc hconf (fun f hf => hes f (hsplit' ▸ List.mem_append_left _ hf)),
      if_pos hfetch, updates_snoc] at hcount
    omega
  · intro h before rest hsplit arm
    induction before using List.reverseRecOn generalizing rest with
    | nil => exact hfresh arm
    | append_singleton before e ih =>
      have hsplit' : es = before ++ e :: rest := by simp [hsplit]
      rw [pulls_run_snoc hconf (fun f hf => hes f (hsplit ▸ List.mem_append_left _ hf)),
        updates_snoc]
      split_ifs with hfetch hupdate
      · cases e with
        | update x reward => simp [fetches, answer] at hfetch
        | _ => cases hupdate
      · rw [updates_eq_zero.mpr (h before e rest hsplit' hfetch)]
      · rw [ih (e :: rest) hsplit']
      · rw [ih (e :: rest) hsplit']

end preservation

def plainNumber : Json → Except Error ℚ
  | .int n => .ok n
  | _ => .error (.typeError "float() argument must be a string or a real number")

def demo : Str := "demo:read".toList

def fast : Str := "flow_fast".toList

def demoParams : List (Str × Json) :=
  [("strategy".toList, .str "ucb1".toList), ("c".toList, .int 1)]

def demoReply : Reply :=
  .result (.obj [("params".toList, .obj demoParams), ("version".toList, .str "v1".toList)])

def demoTuner : BanditTuner where
  factory := .ucb1 1
  defaultConfig := ⟨"ucb1".toList, [("c".toList, 1)], "local".toList, "local".toList⟩

def demoConfig : TuningConfig := ⟨"ucb1".toList, [("c".toList, 1)], "v1".toList, "remote".toList⟩

def demoAdapter : McpPolicyAdapter where
  tuner := { demoTuner with
    strategies := demoTuner.strategies.assign demo { selector := .ucb1 1 }
    configs := demoTuner.configs.assign demo demoConfig }
  bindings := OrderedDict.empty.store demo ⟨some "mcp:policy".toList, none⟩

theorem demo_configured : demoTuner.configure Queue.plainPy plainNumber demo demoParams
    (remoteVersion (some "v1".toList)) "remote".toList = .ok (demoConfig, demoAdapter.tuner) :=
  rfl

theorem demo_answer {e : TuningCall} {r : Json}
    (he : e ∈ [TuningCall.prepare [fast] demoReply .failed, .update fast 1, .update fast 0,
      .postRun demoReply])
    (hr : answer e = some r) :
    extractParams Queue.plainPy r = (demoParams, some "v1".toList) := by
  simp only [List.mem_cons, List.not_mem_nil, or_false] at he
  rcases he with rfl | rfl | rfl | rfl <;> cases hr <;> rfl

def fetchedOnce : List TuningCall :=
  [.prepare [fast] demoReply .failed, .update fast 1, .update fast 0]

theorem fetched_once_counted :
    (run Queue.plainPy plainNumber (fun _ _ _ => 0) demo fetchedOnce demoAdapter).tuner.pulls
      demo fast = 2 := by
  have hsame : Unchanged Queue.plainPy demoParams (some "v1".toList) fetchedOnce := by
    intro e he r hr
    exact demo_answer (List.mem_append_left [.postRun demoReply] he) hr
  have hone : ∀ before e rest, fetchedOnce = before ++ e :: rest →
      demoAdapter.fetches demo e = true → ∀ arm reward, .update arm reward ∉ before := by
    intro before e rest hsplit hfetch
    cases before with
    | nil => simp
    | cons f before =>
      have hmem : e ∈ [TuningCall.update fast 1, .update fast 0] := by
        rw [(List.cons.inj hsplit).2]
        simp
      simp only [List.mem_cons, List.not_mem_nil, or_false] at hmem
      rcases hmem with rfl | rfl <;> simp [fetches, answer] at hfetch
  exact (stats_exact_iff (List.cons_ne_nil _ _) demo_configured hsame).mpr hone fetchedOnce []
    (List.append_nil _).symm fast

theorem fetch_discards_update :
    Unchanged Queue.plainPy demoParams (some "v1".toList) [.update fast 1, .postRun demoReply] ∧
      (run Queue.plainPy plainNumber (fun _ _ _ => 0) demo [.update fast 1, .postRun demoReply]
        demoAdapter).tuner.pulls demo fast = 0 ∧
      updates [.update fast 1, .postRun demoReply] fast = 1 := by
  refine ⟨fun e he r hr => ?_, rfl, rfl⟩
  exact demo_answer (by simp only [List.mem_cons, List.not_mem_nil, or_false] at he ⊢; tauto) hr

end McpPolicyAdapter

end TraceMind.Policy
