import TraceMind.Dsl.CompilerSpec

namespace TraceMind.Dsl

abbrev Fields := List (Str × Json)

section values

variable (literal : Str → Option Json)

def fieldsOf : Option Json → Option Fields
  | some (.obj fields) => some fields
  | _ => none

def setDefaultField (k : Str) (v : Json) (d : Fields) : Fields :=
  match OrderedDict.find k d with
  | some _ => d
  | none => setItem k v d

def ensureState (state : Fields) : Fields :=
  match fieldsOf (OrderedDict.find "steps".toList state) with
  | none =>
    [("inputs".toList, .obj state), ("steps".toList, .obj []), ("current".toList, .obj [])]
  | some _ =>
    setDefaultField "current".toList (.obj []) (setDefaultField "inputs".toList (.obj []) state)

def splitDots : Str → List Str
  | [] => [[]]
  | c :: cs =>
    if c = '.' then [] :: splitDots cs
    else ((c :: (splitDots cs).headD []) :: (splitDots cs).tail)

def lookupParts : Json → List Str → Json
  | cur, [] => cur
  | .obj fields, p :: ps => lookupParts ((OrderedDict.find p fields).getD .null) ps
  | _, _ :: _ => .null

def lookupPath (root : Json) (dotted : Str) : Json := lookupParts root (splitDots dotted)

def stepFields (state : Fields) : Fields :=
  (fieldsOf (OrderedDict.find "steps".toList state)).getD []

def stepReference (state : Fields) (stepPath : Str) : Json :=
  match partition ".".toList stepPath with
  | none => (OrderedDict.find stepPath (stepFields state)).getD (.obj [])
  | some (name, []) => (OrderedDict.find name (stepFields state)).getD (.obj [])
  | some (name, remainder) =>
    lookupPath ((OrderedDict.find name (stepFields state)).getD (.obj [])) remainder

def evaluateWord (state : Fields) (text : Str) : Except Str Json :=
  match OrderedDict.find "current".toList state with
  | none => .ok (.str text)
  | some (.obj current) => .ok ((OrderedDict.find text current).getD (.str text))
  | some _ => .error "object has no attribute 'get'".toList

def evaluateText (state : Fields) (text : Str) : Except Str Json :=
  if startsWith "$input.".toList text then
    .ok (lookupPath ((OrderedDict.find "inputs".toList state).getD (.obj [])) (text.drop 7))
  else if startsWith "$step.".toList text then .ok (stepReference state (text.drop 6))
  else
    match literal text with
    | some v => .ok v
    | none => evaluateWord state text

mutual

def evaluateValue (state : Fields) : Json → Except Str Json
  | .str value => evaluateText literal state (strip value)
  | .arr items => (evaluateItems state items).map .arr
  | .obj fields => (evaluateFields state fields).map .obj
  | v => .ok v

def evaluateItems (state : Fields) : List Json → Except Str (List Json)
  | [] => .ok []
  | v :: vs => do
    let u ← evaluateValue state v
    let us ← evaluateItems state vs
    .ok (u :: us)

def evaluateFields (state : Fields) : Fields → Except Str Fields
  | [] => .ok []
  | (k, v) :: es => do
    let u ← evaluateValue state v
    let us ← evaluateFields state es
    .ok ((k, u) :: us)

end

end values

section calls

variable {W : Type}

abbrev Handler (W : Type) := Fields → Json → W → Fields × W

-- What is read of Python: `ast.literal_eval` where it does not raise, and the table of handlers.
structure Calls (W : Type) where
  literal : Str → Option Json
  handlers : Str → Option (Handler W)

structure StepContext where
  step : Str
  kind : Option Str := none
  config : Fields

structure Invocation where
  step : Str
  config : Fields
  args : Json

def defaultHandler : Handler W := fun config args world =>
  ([("target".toList, ((fieldsOf (OrderedDict.find "call".toList config)).bind
      (OrderedDict.find "target".toList)).getD .null), ("args".toList, args)], world)

def Calls.handlerOf (E : Calls W) : Option Json → Handler W
  | some (.str target) => (E.handlers target).getD defaultHandler
  | _ => defaultHandler

def recordResult (step : Str) (result : Fields) (state : Fields) : Fields :=
  setItem "current".toList (.obj result)
    (setItem "steps".toList (.obj (setItem step (.obj result) (stepFields state))) state)

def invoke (E : Calls W) (ctx : StepContext) (x : Fields × W) :
    Except Str (Invocation × Fields × W) :=
  match fieldsOf (OrderedDict.find "call".toList ctx.config) with
  | none => .error "Call step missing configuration".toList
  | some callSpec => do
    let args ← evaluateValue E.literal (ensureState x.1)
      ((OrderedDict.find "args".toList callSpec).getD (.obj []))
    let result := E.handlerOf (OrderedDict.find "target".toList callSpec) ctx.config args x.2
    .ok (⟨ctx.step, ctx.config, args⟩, recordResult ctx.step result.1 (ensureState x.1), result.2)

def call (E : Calls W) (ctx : StepContext) (x : Fields × W) : Except Str (Fields × W) :=
  (invoke E ctx x).map Prod.snd

def switch (ctx : StepContext) (state : Fields) : Fields :=
  setItem "current".toList (.obj [("config".toList, .obj ctx.config)]) (ensureState state)

def emitOutputs (literal : Str → Option Json) (ctx : StepContext) (state : Fields) :
    Except Str Fields := do
  let evaluated ← evaluateValue literal (ensureState state)
    ((OrderedDict.find "outputs".toList ctx.config).getD (.obj []))
  match evaluated with
  | .obj fields =>
    .ok (setItem "current".toList (.obj fields)
      (setItem "outputs".toList (.obj fields) (ensureState state)))
  | _ => .error "Outputs step must evaluate to a mapping".toList

inductive StepType where
  | switch
  | emit
  | call
deriving DecidableEq

def resolveStepType (ctx : StepContext) : StepType :=
  if ctx.kind = some "switch".toList then .switch
  else if (OrderedDict.find "outputs".toList ctx.config).isSome then .emit
  else .call

end calls

def callConfig (target : Str) (args : Fields) : Fields :=
  [("call".toList, .obj [("target".toList, .str target), ("args".toList, .obj args)])]

def textFields (es : List (Str × Str)) : Fields := es.map (fun e => (e.1, .str e.2))

def switchConfig (keyFrom : Str) (cases : List (Str × Str)) : Fields :=
  [("key_from".toList, .str keyFrom), ("cases".toList, .obj (textFields cases)),
    ("default".toList, .str defaultCase)]

def emitConfig (outputs : Fields) : Fields := [("outputs".toList, .obj outputs)]

def FlowCompilation.configOf (f : FlowCompilation) (s : FlowStep) : Fields :=
  match s.kind with
  | .call target args => callConfig target args
  | .switch keyFrom => switchConfig keyFrom (f.cases s.id)
  | .emit outputs => emitConfig outputs
  | .finish => []

section readable

variable {literal : Str → Option Json} {state : Fields}

def isWord (literal : Str → Option Json) (text : Str) : Bool :=
  !startsWith "$input.".toList text && !startsWith "$step.".toList text && (literal text).isNone

mutual

def hasWord (literal : Str → Option Json) : Json → Bool
  | .str value => isWord literal (strip value)
  | .arr items => anyWord literal items
  | .obj fields => anyWordIn literal fields
  | _ => false

def anyWord (literal : Str → Option Json) : List Json → Bool
  | [] => false
  | v :: vs => hasWord literal v || anyWord literal vs

def anyWordIn (literal : Str → Option Json) : Fields → Bool
  | [] => false
  | (_, v) :: es => hasWord literal v || anyWordIn literal es

end

def settled (state : Fields) : Bool :=
  match OrderedDict.find "current".toList state with
  | none => true
  | some v => (fieldsOf (some v)).isSome

def readable (literal : Str → Option Json) (state : Fields) (v : Json) : Bool :=
  settled state || !hasWord literal v

theorem evaluateWord_ok_iff (state : Fields) (text : Str) :
    (∃ u, evaluateWord state text = .ok u) ↔ settled state = true := by
  rw [evaluateWord, settled]
  cases h : OrderedDict.find "current".toList state with
  | none => simp
  | some v => cases v <;> simp [fieldsOf]

theorem evaluateText_ok_iff {text : Str} :
    (∃ u, evaluateText literal state text = .ok u) ↔
      (settled state || !isWord literal text) = true := by
  rw [evaluateText, isWord]
  cases hin : startsWith "$input.".toList text with
  | true => simp
  | false =>
    cases hstep : startsWith "$step.".toList text with
    | true => simp
    | false =>
      cases hlit : literal text with
      | some v => simp
      | none =>
        have hword := evaluateWord_ok_iff state text
        simpa using hword

theorem pair_ok_iff {α β γ : Type} {x : Except Str α} {y : Except Str β} {f : α → β → γ} :
    (∃ c, (do let a ← x; let b ← y; .ok (f a b)) = Except.ok (ε := Str) c) ↔
      (∃ a, x = .ok a) ∧ ∃ b, y = .ok b := by
  cases x with
  | error e => exact ⟨fun ⟨c, h⟩ => (by cases h), fun ⟨⟨a, h⟩, _⟩ => (by cases h)⟩
  | ok a =>
    cases y with
    | error e => exact ⟨fun ⟨c, h⟩ => (by cases h), fun ⟨_, ⟨b, h⟩⟩ => (by cases h)⟩
    | ok b => exact ⟨fun _ => ⟨⟨a, rfl⟩, ⟨b, rfl⟩⟩, fun _ => ⟨f a b, rfl⟩⟩

theorem map_ok_iff {α β : Type} {x : Except Str α} {f : α → β} :
    (∃ b, x.map f = .ok b) ↔ ∃ a, x = .ok a := by
  cases x with
  | error e => exact ⟨fun ⟨c, h⟩ => (by cases h), fun ⟨a, h⟩ => (by cases h)⟩
  | ok a => exact ⟨fun _ => ⟨a, rfl⟩, fun _ => ⟨f a, rfl⟩⟩

mutual

theorem evaluateValue_ok_iff : ∀ v : Json,
    (∃ u, evaluateValue literal state v = .ok u) ↔ readable literal state v = true
  | .str value => by
    rw [evaluateValue, readable, hasWord]
    exact evaluateText_ok_iff
  | .arr items => by
    rw [evaluateValue, readable, hasWord, map_ok_iff]
    exact evaluateItems_ok_iff items
  | .obj fields => by
    rw [evaluateValue, readable, hasWord, map_ok_iff]
    exact evaluateFields_ok_iff fields
  | .null => by simp [evaluateValue, readable, hasWord]
  | .bool b => by simp [evaluateValue, readable, hasWord]
  | .nan => by simp [evaluateValue, readable, hasWord]
  | .infinity b => by simp [evaluateValue, readable, hasWord]
  | .int n => by simp [evaluateValue, readable, hasWord]
  | .float text => by simp [evaluateValue, readable, hasWord]

theorem evaluateItems_ok_iff : ∀ vs : List Json,
    (∃ us, evaluateItems literal state vs = .ok us) ↔
      (settled state || !anyWord literal vs) = true
  | [] => by simp [evaluateItems, anyWord]
  | v :: vs => by
    have hv := evaluateValue_ok_iff v
    have hvs := evaluateItems_ok_iff vs
    rw [readable] at hv
    rw [evaluateItems, anyWord, pair_ok_iff, hv, hvs]
    cases settled state <;> simp

theorem evaluateFields_ok_iff : ∀ es : Fields,
    (∃ us, evaluateFields literal state es = .ok us) ↔
      (settled state || !anyWordIn literal es) = true
  | [] => by simp [evaluateFields, anyWordIn]
  | (k, v) :: es => by
    have hv := evaluateValue_ok_iff v
    have hes := evaluateFields_ok_iff es
    rw [readable] at hv
    rw [evaluateFields, anyWordIn, pair_ok_iff, hv, hes]
    cases settled state <;> simp

end

theorem readable_of_settled (literal : Str → Option Json) (h : settled state = true) (v : Json) :
    readable literal state v = true := by
  rw [readable, h, Bool.true_or]

theorem find_setDefaultField_ne {k j : Str} (v : Json) (d : Fields) (h : j ≠ k) :
    OrderedDict.find j (setDefaultField k v d) = OrderedDict.find j d := by
  rw [setDefaultField]
  cases OrderedDict.find k d with
  | some u => rfl
  | none => exact (find_setItem ..).trans (if_neg h)

theorem find_setDefaultField_self (k : Str) (v : Json) (d : Fields) :
    OrderedDict.find k (setDefaultField k v d) = some ((OrderedDict.find k d).getD v) := by
  rw [setDefaultField]
  cases h : OrderedDict.find k d with
  | some u => exact h
  | none => exact (find_setItem ..).trans (if_pos rfl)

theorem settled_of_find {fields : Fields}
    (h : OrderedDict.find "current".toList state = some (.obj fields)) : settled state = true := by
  rw [settled, h]
  rfl

theorem settled_ensureState (h : settled state = true) : settled (ensureState state) = true := by
  rw [ensureState]
  cases fieldsOf (OrderedDict.find "steps".toList state) with
  | none => rfl
  | some fields =>
    rw [settled] at h ⊢
    rw [find_setDefaultField_self, find_setDefaultField_ne _ _ (by decide)]
    cases hc : OrderedDict.find "current".toList state with
    | none => rfl
    | some v =>
      rw [hc] at h
      exact h

theorem settled_recordResult (step : Str) (result state : Fields) :
    settled (recordResult step result state) = true :=
  settled_of_find ((find_setItem ..).trans (if_pos rfl))

end readable

section invoking

variable {W : Type} {E : Calls W} {x : Fields × W}

theorem invoke_ok_iff (E : Calls W) (step target : Str) (kind : Option Str) (args : Fields)
    (x : Fields × W) :
    (∃ r, invoke E ⟨step, kind, callConfig target args⟩ x = .ok r) ↔
      readable E.literal (ensureState x.1) (.obj args) = true := by
  rw [← evaluateValue_ok_iff]
  constructor
  · rintro ⟨r, h⟩
    obtain ⟨u, hu, -⟩ := Fallible.bind_eq_ok.mp h
    exact ⟨u, hu⟩
  · rintro ⟨u, hu⟩
    exact ⟨_, Fallible.bind_eq_ok.mpr ⟨u, hu, rfl⟩⟩

theorem invoke_spec {ctx : StepContext} {r : Invocation × Fields × W}
    (h : invoke E ctx x = .ok r) : r.1.step = ctx.step ∧ settled r.2.1 = true := by
  rw [invoke] at h
  cases hc : fieldsOf (OrderedDict.find "call".toList ctx.config) with
  | none =>
    rw [hc] at h
    cases h
  | some callSpec =>
    rw [hc] at h
    obtain ⟨u, -, h⟩ := Fallible.bind_eq_ok.mp h
    cases h
    exact ⟨rfl, settled_recordResult ..⟩

theorem emitOutputs_ok (literal : Str → Option Json) (step : Str) (kind : Option Str)
    (outputs : Fields) {state : Fields} (h : settled state = true) :
    ∃ state', emitOutputs literal ⟨step, kind, emitConfig outputs⟩ state = .ok state' := by
  obtain ⟨u, hu⟩ := evaluateValue_ok_iff (.obj outputs) |>.mpr
    (readable_of_settled literal (settled_ensureState h) (.obj outputs))
  obtain ⟨fields, -, rfl⟩ := Fallible.map_eq_ok.mp hu
  exact ⟨_, Fallible.bind_eq_ok.mpr ⟨_, hu, rfl⟩⟩

end invoking

end TraceMind.Dsl
