import TraceMind.Dsl.Wdl
import TraceMind.Foundation.Fallible
import TraceMind.Foundation.OrderedDict
import Mathlib.Algebra.Order.Ring.Rat

namespace TraceMind.Dsl.Evaluator

abbrev Fields := List (Str × Json)

inductive PyFloat where
  | finite (q : ℚ)
  | nan
  | infinity (negative : Bool)

inductive Error where
  | policyEvaluation (message : Str)
  | other (message : Str)

structure Machine (V : Type) where
  state : OrderedDict Str V
  drawn : ℕ

-- The stream of draws, the value that `epsilon` has, and what Python itself does with texts and
-- values. `eval` may take draws of its own, through the `random` of the policies.
structure Python (V : Type) where
  random : ℕ → ℚ
  epsilon : V
  literal : Str → Option V
  eval : Str → Machine V → Except Str (V × ℕ)
  scalar : Json → V
  dict : List (Str × V) → V
  list : List V → V
  float : V → Except Str (Option PyFloat)

section evaluation

variable {V : Type} (py : Python V)

def evalText (value : Str) (m : Machine V) : Except Error (V × Machine V) :=
  let expr := strip value
  match m.state.get? expr with
  | some v => .ok (v, m)
  | none =>
    if expr = "epsilon".toList then .ok (py.epsilon, m)
    else
      match py.literal expr with
      | some v => .ok (v, m)
      | none =>
        match py.eval expr m with
        | .ok (v, drawn) => .ok (v, { m with drawn := drawn })
        | .error exc => .error (.policyEvaluation
            ("Failed to evaluate expression '".toList ++ expr ++ "': ".toList ++ exc))

mutual

def evalValue : Json → Machine V → Except Error (V × Machine V)
  | .str value, m => evalText py value m
  | .obj fields, m => do
    let (vs, m) ← evalFields fields m
    .ok (py.dict vs, m)
  | .arr items, m => do
    let (vs, m) ← evalItems items m
    .ok (py.list vs, m)
  | value, m => .ok (py.scalar value, m)

def evalItems : List Json → Machine V → Except Error (List V × Machine V)
  | [], m => .ok ([], m)
  | value :: rest, m => do
    let (v, m) ← evalValue value m
    let (vs, m) ← evalItems rest m
    .ok (v :: vs, m)

def evalFields : List (List Char × Json) → Machine V → Except Error (List (Str × V) × Machine V)
  | [], m => .ok ([], m)
  | (k, value) :: rest, m => do
    let (v, m) ← evalValue value m
    let (vs, m) ← evalFields rest m
    .ok ((k, v) :: vs, m)

end

def clamp : PyFloat → ℚ
  | .finite q => max 0 (min 1 q)
  | .nan => 1
  | .infinity negative => if negative then 0 else 1

def evalProbability (probability : Json) (m : Machine V) : Except Error (ℚ × Machine V) := do
  let (value, m) ← evalValue py probability m
  match py.float value with
  | .error exc => .error (.other exc)
  | .ok none => .ok (0, m)
  | .ok (some prob) => .ok (clamp prob, m)

end evaluation

section choose

variable {V : Type} (py : Python V)

def splitAssignment (expr : Str) : Except Error (Str × Str) :=
  match partition ":=".toList expr with
  | some (target, value) => .ok (strip target, strip value)
  | none =>
    match partition "=".toList expr with
    | some (target, value) => .ok (strip target, strip value)
    | none => .error (.policyEvaluation
        ("choose expression must contain '=' or ':=': ".toList ++ expr))

def isAssignment (expression : Str) : Bool := expression.contains '='

def inferChooseTarget : List Json → Except Error (Option Str)
  | [] => .ok none
  | .obj option :: rest =>
    match option.lookup "expression".toList with
    | some (.str expression) =>
      if isAssignment expression then (splitAssignment expression).map (fun s => some s.1)
      else inferChooseTarget rest
    | _ => inferChooseTarget rest
  | _ :: rest => inferChooseTarget rest

def assignTo (target expression : Str) (m : Machine V) : Except Error (Machine V) := do
  let (value, m) ← evalText py expression m
  .ok { m with state := m.state.assign target value }

def applyChooseOption (option : Fields) (defaultTarget : Option Str) (m : Machine V) :
    Except Error (Machine V) :=
  match option.lookup "expression".toList with
  | some (.str expression) =>
    if isAssignment expression then do
      let (target, value) ← splitAssignment expression
      assignTo py target value m
    else
      match defaultTarget with
      | some (c :: cs) => assignTo py (c :: cs) expression m
      | _ => (evalText py expression m).map Prod.snd
  | _ => .error (.policyEvaluation "choose option missing expression".toList)

def declared (option : Fields) : Option Json :=
  match option.lookup "probability".toList with
  | some .null => none
  | probability => probability

def drawOption (option : Fields) (m : Machine V) : Except Error (Bool × Machine V) :=
  match declared option with
  | none => .ok (false, m)
  | some probability => do
    let (probValue, m) ← evalProbability py probability m
    if 0 < probValue then
      .ok (decide (py.random m.drawn < probValue), { m with drawn := m.drawn + 1 })
    else .ok (false, m)

def chooseFrom (defaultTarget : Option Str) :
    List (Json × ℕ) → Option (Fields × ℕ) → Machine V → Except Error (Option ℕ × Machine V)
  | [], none, m => .ok (none, m)
  | [], some (fallback, i), m =>
    (applyChooseOption py fallback defaultTarget m).map (fun m => (some i, m))
  | (.obj option, i) :: rest, fallback, m => do
    let (won, m) ← drawOption py option m
    if won then (applyChooseOption py option defaultTarget m).map (fun m => (some i, m))
    else chooseFrom defaultTarget rest (some (fallback.getD (option, i))) m
  | _ :: rest, fallback, m => chooseFrom defaultTarget rest fallback m

-- A text is a sequence of texts in Python.
def sequenceOf : Option Json → Option (List Json)
  | some (.arr items) => some items
  | some (.str s) => some (s.map (fun c => .str [c]))
  | _ => none

def execChoose (stmt : Fields) (m : Machine V) : Except Error (Option ℕ × Machine V) :=
  match sequenceOf (stmt.lookup "options".toList) with
  | some (option :: options) => do
    let defaultTarget ← inferChooseTarget (option :: options)
    chooseFrom py defaultTarget (option :: options).zipIdx none m
  | _ => .error (.policyEvaluation "choose requires non-empty options".toList)

end choose

section draws

variable {V : Type} (py : Python V)

def firstWinner : List (Json × ℕ) → Machine V → Except Error (Option (Fields × ℕ) × Machine V)
  | [], m => .ok (none, m)
  | (.obj option, i) :: rest, m => do
    let (won, m) ← drawOption py option m
    if won then .ok (some (option, i), m) else firstWinner rest m
  | _ :: rest, m => firstWinner rest m

def firstMapping : List (Json × ℕ) → Option (Fields × ℕ)
  | [] => none
  | (.obj option, i) :: _ => some (option, i)
  | _ :: rest => firstMapping rest

def firstDefault : List (Json × ℕ) → Option (Fields × ℕ)
  | [] => none
  | (.obj option, i) :: rest =>
    match declared option with
    | none => some (option, i)
    | some _ => firstDefault rest
  | _ :: rest => firstDefault rest

def applyFound (defaultTarget : Option Str) :
    Option (Fields × ℕ) × Machine V → Except Error (Option ℕ × Machine V)
  | (none, m) => .ok (none, m)
  | (some (option, i), m) =>
    (applyChooseOption py option defaultTarget m).map (fun m => (some i, m))

variable {py} {defaultTarget : Option Str} {m m' : Machine V} {applied : Option ℕ}
  {options : List (Json × ℕ)} {option : Fields} {i : ℕ}

theorem chooseFrom_eq (options : List (Json × ℕ)) (fallback : Option (Fields × ℕ))
    (m : Machine V) :
    chooseFrom py defaultTarget options fallback m = firstWinner py options m >>= fun r =>
      applyFound py defaultTarget (r.1.or (fallback.or (firstMapping options)), r.2) := by
  induction options generalizing fallback m with
  | nil =>
    cases fallback with
    | none => rfl
    | some f => rfl
  | cons entry rest ih =>
    obtain ⟨value, i⟩ := entry
    cases value with
    | obj option =>
      rw [chooseFrom, firstWinner]
      cases drawOption py option m with
      | error e => rfl
      | ok r =>
        obtain ⟨won, m1⟩ := r
        cases won with
        | true => rfl
        | false =>
          change chooseFrom py defaultTarget rest _ m1 = _
          rw [ih]
          cases fallback with
          | none => rfl
          | some f => rfl
    | _ => exact ih fallback m

theorem drawOption_declared {m1 : Machine V} (h : drawOption py option m = .ok (true, m1)) :
    ∃ p, declared option = some p := by
  cases hp : declared option with
  | none =>
    rw [drawOption, hp] at h
    cases h
  | some p => exact ⟨p, rfl⟩

theorem firstWinner_mem {m1 : Machine V}
    (h : firstWinner py options m = .ok (some (option, i), m1)) :
    (.obj option, i) ∈ options ∧ ∃ p, declared option = some p := by
  induction options generalizing m with
  | nil => cases h
  | cons entry rest ih =>
    obtain ⟨value, j⟩ := entry
    cases value with
    | obj o =>
      rw [firstWinner] at h
      obtain ⟨⟨won, m2⟩, hd, h⟩ := Fallible.bind_eq_ok.mp h
      cases won with
      | true =>
        cases h
        exact ⟨List.mem_cons_self, drawOption_declared hd⟩
      | false => exact (ih h).imp_left (List.mem_cons_of_mem _)
    | _ => exact (ih h).imp_left (List.mem_cons_of_mem _)

theorem firstMapping_mem (h : firstMapping options = some (option, i)) :
    (.obj option, i) ∈ options := by
  induction options with
  | nil => cases h
  | cons entry rest ih =>
    obtain ⟨value, j⟩ := entry
    cases value with
    | obj o =>
      cases h
      exact List.mem_cons_self
    | _ => exact List.mem_cons_of_mem _ (ih h)

theorem firstDefault_mem (h : firstDefault options = some (option, i)) :
    (.obj option, i) ∈ options ∧ declared option = none := by
  induction options with
  | nil => cases h
  | cons entry rest ih =>
    obtain ⟨value, j⟩ := entry
    cases value with
    | obj o =>
      rw [firstDefault] at h
      cases hp : declared o with
      | none =>
        rw [hp] at h
        cases h
        exact ⟨List.mem_cons_self, hp⟩
      | some p =>
        rw [hp] at h
        exact (ih h).imp_left (List.mem_cons_of_mem _)
    | _ => exact (ih h).imp_left (List.mem_cons_of_mem _)

theorem firstMapping_of_default {d : Fields × ℕ} (h : firstDefault options = some d) :
    ∃ f, firstMapping options = some f := by
  induction options with
  | nil => cases h
  | cons entry rest ih =>
    obtain ⟨value, j⟩ := entry
    cases value with
    | obj o => exact ⟨(o, j), rfl⟩
    | _ => exact ih h

end draws

section statement

variable {V : Type} {py : Python V} {m m' : Machine V} {applied : Option ℕ}

def DeclaresAt (options : List Json) (i : ℕ) : Prop :=
  ∃ option p, options[i]? = some (.obj option) ∧ declared option = some p

theorem get_of_zipIdx {options : List Json} {option : Fields} {i : ℕ}
    (h : (.obj option, i) ∈ options.zipIdx) : options[i]? = some (.obj option) :=
  List.mem_zipIdx_iff_getElem?.mp h

theorem execChoose_ok {stmt : Fields} {options : List Json}
    (ho : sequenceOf (stmt.lookup "options".toList) = some options)
    (h : execChoose py stmt m = .ok (applied, m')) :
    ∃ winner m1, firstWinner py options.zipIdx m = .ok (winner, m1) ∧
      applied = (winner.or (firstMapping options.zipIdx)).map Prod.snd := by
  rw [execChoose, ho] at h
  cases options with
  | nil => cases h
  | cons option rest =>
    obtain ⟨target, -, h⟩ := Fallible.bind_eq_ok.mp h
    rw [chooseFrom_eq] at h
    obtain ⟨⟨winner, m1⟩, hw, h⟩ := Fallible.bind_eq_ok.mp h
    refine ⟨winner, m1, hw, ?_⟩
    rw [Option.none_or] at h
    cases hf : winner.or (firstMapping (option :: rest).zipIdx) with
    | none =>
      rw [hf] at h
      cases h
      rfl
    | some found =>
      rw [hf] at h
      obtain ⟨m2, -, he⟩ := Fallible.map_eq_ok.mp h
      cases he
      rfl

def RespectsDraws (options : List Json) (d : ℕ) (winner applied : Option ℕ) : Prop :=
  (∀ i, applied = some i → DeclaresAt options i → winner = some i) ∧
    (applied = some d ↔ winner = none)

theorem choose_default_iff {stmt : Fields} {options : List Json} {d : Fields × ℕ}
    (ho : sequenceOf (stmt.lookup "options".toList) = some options)
    (hd : firstDefault options.zipIdx = some d) (h : execChoose py stmt m = .ok (applied, m')) :
    ∃ winner m1, firstWinner py options.zipIdx m = .ok (winner, m1) ∧
      (RespectsDraws options d.2 (winner.map Prod.snd) applied ↔
        (winner ≠ none ∨ firstMapping options.zipIdx = some d)) := by
  obtain ⟨winner, m1, hw, happlied⟩ := execChoose_ok ho h
  refine ⟨winner, m1, hw, ?_⟩
  obtain ⟨dopt, di⟩ := d
  obtain ⟨hdmem, hdnone⟩ := firstDefault_mem hd
  have hdget := get_of_zipIdx hdmem
  cases winner with
  | some w =>
    obtain ⟨wopt, wi⟩ := w
    obtain ⟨hwmem, p, hp⟩ := firstWinner_mem hw
    have hwget := get_of_zipIdx hwmem
    cases happlied
    refine ⟨fun _ => Or.inl (Option.some_ne_none _), fun _ => ⟨fun i hi _ => hi, ?_⟩⟩
    constructor
    · intro hi
      cases hi
      rw [hdget] at hwget
      cases hwget
      rw [hdnone] at hp
      cases hp
    · intro hi
      cases hi
  | none =>
    obtain ⟨⟨fopt, fi⟩, hf⟩ := firstMapping_of_default hd
    rw [hf] at happlied ⊢
    cases happlied
    have hfget := get_of_zipIdx (firstMapping_mem hf)
    rw [or_iff_right (fun hne => hne rfl)]
    constructor
    · rintro ⟨-, hiff⟩
      have hi := hiff.mpr rfl
      cases hi
      rw [hdget] at hfget
      cases hfget
      rfl
    · intro he
      cases he
      refine ⟨fun i hi hdecl => ?_, fun _ => rfl, fun _ => rfl⟩
      cases hi
      obtain ⟨option, p, hget, hp⟩ := hdecl
      rw [hdget] at hget
      cases hget
      rw [hdnone] at hp
      cases hp

end statement

abbrev Literal := Str ⊕ ℚ

-- Python on the three literals of the statements below, every draw being 0.9.
def literals : Python Literal where
  random := fun _ => 9 / 10
  epsilon := .inr 0
  literal := fun s =>
    if s = "0.5".toList then some (.inr (1 / 2))
    else if s = "'A'".toList then some (.inl ['A'])
    else if s = "'B'".toList then some (.inl ['B']) else none
  eval := fun _ _ => .error "name is not defined".toList
  scalar := fun _ => .inr 0
  dict := fun _ => .inl []
  list := fun _ => .inl []
  float := fun v => .ok (v.getRight?.map .finite)

def explore : Json := .obj [("expression".toList, .str "action = 'B'".toList),
  ("probability".toList, .str "0.5".toList)]

def exploit : Json := .obj [("expression".toList, .str "action = 'A'".toList),
  ("probability".toList, .null)]

def chooseStatement (options : List Json) : Fields := [("options".toList, .arr options)]

def fresh : Machine Literal := ⟨.empty, 0⟩

theorem ok_of_toOption {ε α : Type} {x : Except ε α} {a : α} (h : x.toOption = some a) :
    x = .ok a := by
  cases x with
  | error e => cases h
  | ok b =>
    cases h
    rfl

theorem choose_applies_failed_draw :
    ∃ m' m1, execChoose literals (chooseStatement [explore, exploit]) fresh = .ok (some 0, m') ∧
      m'.state.get? "action".toList = some (.inl ['B']) ∧
      firstWinner literals [explore, exploit].zipIdx fresh = .ok (none, m1) ∧
      (firstDefault [explore, exploit].zipIdx).map Prod.snd = some 1 ∧
      ¬RespectsDraws [explore, exploit] 1 none (some 0) := by
  have hrun : (execChoose literals (chooseStatement [explore, exploit]) fresh).toOption.map
      (fun r => (r.1, r.2.state.get? "action".toList)) =
        some (some 0, some (.inl ['B'])) := by
    decide +kernel
  have hdraws : (firstWinner literals [explore, exploit].zipIdx fresh).toOption.map
      (fun r => r.1.map Prod.snd) = some none := by
    decide +kernel
  obtain ⟨⟨applied, m'⟩, hr, he⟩ := Option.map_eq_some_iff.mp hrun
  obtain ⟨⟨winner, m1⟩, hw, hn⟩ := Option.map_eq_some_iff.mp hdraws
  cases winner with
  | some w => cases hn
  | none =>
    obtain ⟨rfl, hs⟩ := Prod.mk.inj he
    refine ⟨m', m1, ok_of_toOption hr, hs, ok_of_toOption hw, rfl, ?_⟩
    rintro ⟨hdraw, -⟩
    cases hdraw 0 rfl ⟨_, _, rfl, rfl⟩

theorem choose_applies_default :
    ∃ m' winner m1,
      execChoose literals (chooseStatement [exploit, explore]) fresh = .ok (some 0, m') ∧
      firstWinner literals [exploit, explore].zipIdx fresh = .ok (winner, m1) ∧
      RespectsDraws [exploit, explore] 0 (winner.map Prod.snd) (some 0) := by
  have hrun : (execChoose literals (chooseStatement [exploit, explore]) fresh).toOption.map
      Prod.fst = some (some 0) := by
    decide +kernel
  obtain ⟨⟨applied, m'⟩, hr, rfl⟩ := Option.map_eq_some_iff.mp hrun
  have h := ok_of_toOption hr
  have ho : sequenceOf ((chooseStatement [exploit, explore]).lookup "options".toList) =
      some [exploit, explore] := rfl
  obtain ⟨winner, m1, hw, hiff⟩ := choose_default_iff (d := (_, 0)) ho rfl h
  exact ⟨m', winner, m1, h, hw, hiff.mpr (Or.inr rfl)⟩

end TraceMind.Dsl.Evaluator
