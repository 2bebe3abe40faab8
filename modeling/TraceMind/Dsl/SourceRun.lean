import TraceMind.Dsl.Acceptance
import TraceMind.Dsl.Execution

namespace TraceMind.Dsl

section runs

variable {W : Type}

structure Memory (W : Type) where
  state : Fields
  world : W
  results : Fields := []

def Memory.record (m : Memory W) (step : Str) (x : Fields × W) : Memory W where
  state := x.1
  world := x.2
  results := setItem step ((OrderedDict.find "current".toList x.1).getD .null) m.results

def callStep (E : Calls W) (id target : Str) (args : Fields) (m : Memory W) :
    Except Str (Invocation × Memory W) :=
  (invoke E { step := id, config := callConfig target args } (m.state, m.world)).map
    (fun r => (r.1, m.record id r.2))

def valueAt (inputs results : Fields) (path : Str) : Json :=
  if startsWith "$.inputs.".toList path then lookupPath (.obj inputs) (path.drop 9)
  else lookupPath (.obj results) (path.drop 7)

def Condition.holds (c : Condition) (inputs results : Fields) : Bool :=
  match valueAt inputs results c.keyFrom with
  | .str v => decide (v ∈ c.caseValues)
  | _ => false

def nextCall : List WdlStep → Option Str → Option Str
  | [], next => next
  | .call id _ _ _ :: _, _ => some id
  | .when _ _ _ :: _, _ => none

abbrev Decision (W : Type) := Condition → Option Str → Memory W → Bool

abbrev Event := Option Invocation

mutual

def walk (eval : LiteralEval) (E : Calls W) (enter : Decision W) :
    WdlStep → Option Str → Memory W → Except Str (List Event × Memory W)
  | .call id target args _, _, m => do
    let rendered ← renderNamed args
    let r ← callStep E id target rendered m
    .ok ([some r.1], r.2)
  | .when condition steps location, next, m => do
    let c ← parseCondition eval condition location
    let r ← (if enter c next m then walkAll eval E enter steps next m else .ok ([], m))
    .ok (none :: r.1, r.2)

def walkAll (eval : LiteralEval) (E : Calls W) (enter : Decision W) :
    List WdlStep → Option Str → Memory W → Except Str (List Event × Memory W)
  | [], _, m => .ok ([], m)
  | s :: ss, next, m => do
    let r ← walk eval E enter s (nextCall ss next) m
    let rs ← walkAll eval E enter ss next r.2
    .ok (r.1 ++ rs.1, rs.2)

end

def meant (inputs : Fields) : Decision W := fun c _ m => c.holds inputs m.results

def start (inputs : Fields) (world : W) : Memory W where
  state := inputs
  world := world

def sourceRun (eval : LiteralEval) (E : Calls W) (w : WdlWorkflow) (inputs : Fields) (world : W) :
    Except Str (List Event × Memory W) :=
  walkAll eval E (meant inputs) w.steps none (start inputs world)

end runs

section events

variable {W : Type} {eval : LiteralEval} {E : Calls W} {enter : Decision W}

theorem callStep_spec {id target : Str} {args : Fields} {m : Memory W} {r : Invocation × Memory W}
    (h : callStep E id target args m = .ok r) : r.1.step = id ∧ settled r.2.state = true := by
  obtain ⟨q, hq, rfl⟩ := Fallible.map_eq_ok.mp h
  exact invoke_spec hq

theorem walk_call {id target : Str} {args : List Named} {location : SourceSpan} {next : Option Str}
    {m : Memory W} {r : List Event × Memory W} :
    walk eval E enter (.call id target args location) next m = .ok r ↔
      ∃ rendered q, renderNamed args = .ok rendered ∧ callStep E id target rendered m = .ok q ∧
        r = ([some q.1], q.2) := by
  rw [walk]
  constructor
  · intro h
    obtain ⟨rendered, hr, h⟩ := Fallible.bind_eq_ok.mp h
    obtain ⟨q, hq, h⟩ := Fallible.bind_eq_ok.mp h
    cases h
    exact ⟨rendered, q, hr, hq, rfl⟩
  · rintro ⟨rendered, q, hr, hq, rfl⟩
    exact Fallible.bind_eq_ok.mpr ⟨rendered, hr, Fallible.bind_eq_ok.mpr ⟨q, hq, rfl⟩⟩

theorem walk_when {condition : Str} {steps : List WdlStep} {location : SourceSpan}
    {next : Option Str} {m : Memory W} {r : List Event × Memory W} :
    walk eval E enter (.when condition steps location) next m = .ok r ↔
      ∃ c q, parseCondition eval condition location = .ok c ∧
        (if enter c next m then walkAll eval E enter steps next m else .ok ([], m)) = .ok q ∧
        r = (none :: q.1, q.2) := by
  rw [walk]
  constructor
  · intro h
    obtain ⟨c, hc, h⟩ := Fallible.bind_eq_ok.mp h
    obtain ⟨q, hq, h⟩ := Fallible.bind_eq_ok.mp h
    cases h
    exact ⟨c, q, hc, hq, rfl⟩
  · rintro ⟨c, q, hc, hq, rfl⟩
    exact Fallible.bind_eq_ok.mpr ⟨c, hc, Fallible.bind_eq_ok.mpr ⟨q, hq, rfl⟩⟩

theorem walkAll_cons {s : WdlStep} {ss : List WdlStep} {next : Option Str} {m : Memory W}
    {r : List Event × Memory W} :
    walkAll eval E enter (s :: ss) next m = .ok r ↔
      ∃ q qs, walk eval E enter s (nextCall ss next) m = .ok q ∧
        walkAll eval E enter ss next q.2 = .ok qs ∧ r = (q.1 ++ qs.1, qs.2) := by
  rw [walkAll]
  constructor
  · intro h
    obtain ⟨q, hq, h⟩ := Fallible.bind_eq_ok.mp h
    obtain ⟨qs, hqs, h⟩ := Fallible.bind_eq_ok.mp h
    cases h
    exact ⟨q, qs, hq, hqs, rfl⟩
  · rintro ⟨q, qs, hq, hqs, rfl⟩
    exact Fallible.bind_eq_ok.mpr ⟨q, hq, Fallible.bind_eq_ok.mpr ⟨qs, hqs, rfl⟩⟩

theorem callIds_append (is js : List Item) : callIds (is ++ js) = callIds is ++ callIds js :=
  List.filterMap_append

theorem callIds_itemsOf_when (condition : Str) (steps : List WdlStep) (location : SourceSpan) :
    callIds (itemsOf (.when condition steps location)) = callIds (itemsAll steps) := by
  rw [itemsOf]
  rfl

theorem callIds_itemsAll_cons (s : WdlStep) (ss : List WdlStep) :
    callIds (itemsAll (s :: ss)) = callIds (itemsOf s) ++ callIds (itemsAll ss) := by
  rw [itemsAll, callIds_append]

mutual

theorem walk_calls : ∀ (s : WdlStep) {next : Option Str} {m : Memory W}
    {r : List Event × Memory W}, walk eval E enter s next m = .ok r →
    (∀ i, some i ∈ r.1 → i.step ∈ callIds (itemsOf s)) ∧
      (settled m.state = true ∨ (∃ i, some i ∈ r.1) → settled r.2.state = true)
  | .call id target args location, next, m, r => by
    intro h
    obtain ⟨rendered, q, -, hq, rfl⟩ := walk_call.mp h
    obtain ⟨hstep, hset⟩ := callStep_spec hq
    refine ⟨fun i hi => ?_, fun _ => hset⟩
    rw [Option.some.inj (List.mem_singleton.mp hi), hstep]
    exact List.mem_cons_self
  | .when condition steps location, next, m, r => by
    intro h
    obtain ⟨c, q, -, hq, rfl⟩ := walk_when.mp h
    rw [callIds_itemsOf_when]
    split_ifs at hq with henter
    · obtain ⟨hids, hset⟩ := walkAll_calls steps hq
      refine ⟨fun i hi => hids i (by simpa using hi), fun hs => hset (hs.imp_right ?_)⟩
      rintro ⟨i, hi⟩
      exact ⟨i, by simpa using hi⟩
    · cases hq
      refine ⟨fun i hi => absurd hi (by simp), fun hs => ?_⟩
      rcases hs with hs | ⟨i, hi⟩
      · exact hs
      · exact absurd hi (by simp)

theorem walkAll_calls : ∀ (ss : List WdlStep) {next : Option Str} {m : Memory W}
    {r : List Event × Memory W}, walkAll eval E enter ss next m = .ok r →
    (∀ i, some i ∈ r.1 → i.step ∈ callIds (itemsAll ss)) ∧
      (settled m.state = true ∨ (∃ i, some i ∈ r.1) → settled r.2.state = true)
  | [], next, m, r => by
    intro h
    rw [walkAll] at h
    cases h
    refine ⟨fun i hi => absurd hi (by simp), fun hs => ?_⟩
    rcases hs with hs | ⟨i, hi⟩
    · exact hs
    · exact absurd hi (by simp)
  | s :: ss, next, m, r => by
    intro h
    obtain ⟨q, qs, hq, hqs, rfl⟩ := walkAll_cons.mp h
    obtain ⟨hids, hset⟩ := walk_calls s hq
    obtain ⟨hidss, hsets⟩ := walkAll_calls ss hqs
    rw [callIds_itemsAll_cons]
    refine ⟨fun i hi => ?_, fun hs => hsets ?_⟩
    · rcases List.mem_append.mp hi with hi | hi
      · exact List.mem_append_left _ (hids i hi)
      · exact List.mem_append_right _ (hidss i hi)
    · rcases hs with hs | ⟨i, hi⟩
      · exact Or.inl (hset (Or.inl hs))
      · rcases List.mem_append.mp hi with hi | hi
        · exact Or.inl (hset (Or.inr ⟨i, hi⟩))
        · exact Or.inr ⟨i, hi⟩

end

theorem walkAll_head {ss : List WdlStep} {next : Option Str} {m : Memory W}
    {r : List Event × Memory W} (h : walkAll eval E enter ss next m = .ok r) {id : Str}
    (hid : nextCall ss next = some id) (hne : ss ≠ []) :
    ∃ i rest, r.1 = some i :: rest ∧ i.step = id := by
  cases ss with
  | nil => exact absurd rfl hne
  | cons s ss =>
    obtain ⟨q, qs, hq, -, rfl⟩ := walkAll_cons.mp h
    cases s with
    | call id' target args location =>
      obtain ⟨rendered, q', -, hq', rfl⟩ := walk_call.mp hq
      rw [nextCall, Option.some.injEq] at hid
      exact ⟨q'.1, qs.1, rfl, (callStep_spec hq').1.trans hid⟩
    | «when» condition steps location => cases hid

end events

def flagEval : LiteralEval := fun text =>
  if text = "'on'".toList then .ok (.text "on".toList)
  else .error "malformed node or string".toList

def plainCalls : Calls Unit := ⟨fun _ => none, fun _ => none⟩

def flagFlow : WdlWorkflow where
  version := "1".toList
  name := "demo".toList
  steps := [.when "$input.flag == 'on'".toList [.call "a".toList "op".toList [] {}] {}]
  outputs := []
  location := {}

def flagInputs (v : Str) : Fields := [("flag".toList, .str v)]

end TraceMind.Dsl
