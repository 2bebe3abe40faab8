import TraceMind.Policy.Deterministic
import TraceMind.Foundation.Fallible

namespace TraceMind.Policy

open Artifacts
open Queue (Document Error PyFloat)
open Python (orderable)

section semantics

variable (float : PyFloat) (env : Json)

def compares (op : CompareOp) (left right : Json) : Bool :=
  typesCompatible left right &&
    match op with
    | .eq => Python.pyEq (floatValue float) left right
    | .ne => !Python.pyEq (floatValue float) left right
    | .gt | .ge | .lt | .le =>
      match Python.pyOrder (floatValue float) left right with
      | .ok o => op.holds o
      | .error _ => false

def comparesOperands (op : CompareOp) : Json → Bool
  | .arr [a, b] => compares float op (resolveValue env a) (resolveValue env b)
  | _ => false

mutual

def conditionHolds : Json → Bool
  | .obj fs => fieldsHold fs
  | _ => false

def fieldsHold : List (Str × Json) → Bool
  | [(op, value)] =>
    if op = "all".toList then allHold value
    else if op = "any".toList then anyHolds value
    else if op = "not".toList then !conditionHolds value
    else
      match CompareOp.ofText op with
      | some op => comparesOperands float env op value
      | none => false
  | _ => false

def allHold : Json → Bool
  | .arr vs => itemsHold vs
  | _ => false

def anyHolds : Json → Bool
  | .arr vs => itemHolds vs
  | _ => false

def itemsHold : List Json → Bool
  | [] => true
  | v :: vs => conditionHolds v && itemsHold vs

def itemHolds : List Json → Bool
  | [] => false
  | v :: vs => conditionHolds v || itemHolds vs

end

def comparable (op : CompareOp) (left right : Json) : Bool :=
  match op with
  | .eq | .ne => true
  | .gt | .ge | .lt | .le => !typesCompatible left right || orderable (floatValue float) left right

def comparableOperands (op : CompareOp) : Json → Bool
  | .arr [a, b] => comparable float op (resolveValue env a) (resolveValue env b)
  | _ => true

mutual

def Ordered : Json → Bool
  | .obj fs => orderedFields fs
  | _ => true

def orderedFields : List (Str × Json) → Bool
  | [(op, value)] =>
    if op = "all".toList then orderedAll value
    else if op = "any".toList then orderedAny value
    else if op = "not".toList then Ordered value
    else
      match CompareOp.ofText op with
      | some op => comparableOperands float env op value
      | none => true
  | _ => true

def orderedAll : Json → Bool
  | .arr vs => orderedUntilFalse vs
  | _ => true

def orderedAny : Json → Bool
  | .arr vs => orderedUntilTrue vs
  | _ => true

def orderedUntilFalse : List Json → Bool
  | [] => true
  | v :: vs => Ordered v && (!conditionHolds float env v || orderedUntilFalse vs)

def orderedUntilTrue : List Json → Bool
  | [] => true
  | v :: vs => Ordered v && (conditionHolds float env v || orderedUntilTrue vs)

end

end semantics

section totality

variable {float : PyFloat} {env : Json}

def Agrees (result : Except Error Bool) (ordered value : Bool) : Prop :=
  if ordered then result = .ok value else ∃ message, result = .error (.typeError message)

theorem agrees_ok {value : Bool} : Agrees (.ok value) true value := rfl

theorem compareValues_incompatible (op : CompareOp) {left right : Json}
    (ht : typesCompatible left right = false) :
    Agrees (compareValues float op left right) (comparable float op left right)
      (compares float op left right) := by
  have hcmp : compareValues float op left right = .ok false := by simp [compareValues, ht]
  have hspec : compares float op left right = false := by simp [compares, ht]
  have hc : comparable float op left right = true := by cases op <;> simp [comparable, ht]
  rw [hcmp, hspec, hc]
  exact agrees_ok

theorem compareValues_ordering (op : CompareOp) {left right : Json} (heq : op ≠ .eq)
    (hne : op ≠ .ne) (ht : typesCompatible left right = true) :
    Agrees (compareValues float op left right) (comparable float op left right)
      (compares float op left right) := by
  have hc : comparable float op left right =
      (Python.pyOrder (floatValue float) left right).isOk := by
    rw [Python.pyOrder_isOk]
    cases op <;> simp_all [comparable]
  rw [hc]
  cases hp : Python.pyOrder (floatValue float) left right with
  | ok o =>
    have hcmp : compareValues float op left right = .ok (op.holds o) := by
      cases op <;> simp_all [compareValues]
    have hspec : compares float op left right = op.holds o := by
      cases op <;> simp_all [compares]
    rw [hcmp, hspec]
    exact agrees_ok
  | error pair =>
    have hcmp : compareValues float op left right = .error (unsupported op pair.1 pair.2) := by
      cases op <;> simp_all [compareValues]
    rw [hcmp]
    exact ⟨_, rfl⟩

theorem compareValues_agrees (op : CompareOp) (left right : Json) :
    Agrees (compareValues float op left right) (comparable float op left right)
      (compares float op left right) := by
  cases ht : typesCompatible left right with
  | false => exact compareValues_incompatible op ht
  | true =>
    cases op with
    | eq =>
      rw [compareValues, compares, ht]
      exact agrees_ok
    | ne =>
      rw [compareValues, compares, ht]
      exact agrees_ok
    | gt => exact compareValues_ordering .gt CompareOp.noConfusion CompareOp.noConfusion ht
    | ge => exact compareValues_ordering .ge CompareOp.noConfusion CompareOp.noConfusion ht
    | lt => exact compareValues_ordering .lt CompareOp.noConfusion CompareOp.noConfusion ht
    | le => exact compareValues_ordering .le CompareOp.noConfusion CompareOp.noConfusion ht

theorem compareOperands_agrees (op : CompareOp) (v : Json) :
    Agrees (compareOperands float env op v) (comparableOperands float env op v)
      (comparesOperands float env op v) := by
  cases v with
  | arr vs =>
    cases vs with
    | nil => exact agrees_ok
    | cons a vs =>
      cases vs with
      | nil => exact agrees_ok
      | cons b vs =>
        cases vs with
        | nil => exact compareValues_agrees op _ _
        | cons c vs => exact agrees_ok
  | null | bool _ | nan | infinity _ | int _ | float _ | str _ | obj _ => exact agrees_ok

theorem Agrees.not {result : Except Error Bool} {ordered value : Bool}
    (h : Agrees result ordered value) : Agrees (result.map (fun b => !b)) ordered (!value) := by
  cases ordered with
  | true =>
    rw [h]
    exact agrees_ok
  | false =>
    obtain ⟨message, rfl⟩ := h
    exact ⟨message, rfl⟩

theorem Agrees.all {result rest : Except Error Bool} {ordered value ordered' value' : Bool}
    (h : Agrees result ordered value) (h' : Agrees rest ordered' value') :
    Agrees (do if ← result then rest else return false) (ordered && (!value || ordered'))
      (value && value') := by
  cases ordered with
  | true =>
    rw [h]
    cases value with
    | true => exact h'
    | false => exact agrees_ok
  | false =>
    obtain ⟨message, rfl⟩ := h
    exact ⟨message, rfl⟩

theorem Agrees.any {result rest : Except Error Bool} {ordered value ordered' value' : Bool}
    (h : Agrees result ordered value) (h' : Agrees rest ordered' value') :
    Agrees (do if ← result then return true else rest) (ordered && (value || ordered'))
      (value || value') := by
  cases ordered with
  | true =>
    rw [h]
    cases value with
    | true => exact agrees_ok
    | false => exact h'
  | false =>
    obtain ⟨message, rfl⟩ := h
    exact ⟨message, rfl⟩

mutual

theorem condition_agrees : ∀ v : Json,
    Agrees (evaluateCondition float env v) (Ordered float env v) (conditionHolds float env v)
  | .obj fs => fields_agree fs
  | .null | .bool _ | .nan | .infinity _ | .int _ | .float _ | .str _ | .arr _ => agrees_ok

theorem fields_agree : ∀ fs : List (Str × Json),
    Agrees (evaluateFields float env fs) (orderedFields float env fs) (fieldsHold float env fs)
  | [] => agrees_ok
  | _ :: _ :: _ => agrees_ok
  | [(op, value)] => by
    rw [evaluateFields, orderedFields, fieldsHold]
    split_ifs
    · exact all_agrees value
    · exact any_agrees value
    · exact (condition_agrees value).not
    · cases CompareOp.ofText op with
      | none => exact agrees_ok
      | some op => exact compareOperands_agrees op value

theorem all_agrees : ∀ v : Json,
    Agrees (evaluateAll float env v) (orderedAll float env v) (allHold float env v)
  | .arr vs => allItems_agree vs
  | .null | .bool _ | .nan | .infinity _ | .int _ | .float _ | .str _ | .obj _ => agrees_ok

theorem any_agrees : ∀ v : Json,
    Agrees (evaluateAny float env v) (orderedAny float env v) (anyHolds float env v)
  | .arr vs => anyItem_agrees vs
  | .null | .bool _ | .nan | .infinity _ | .int _ | .float _ | .str _ | .obj _ => agrees_ok

theorem allItems_agree : ∀ vs : List Json,
    Agrees (allItems float env vs) (orderedUntilFalse float env vs) (itemsHold float env vs)
  | [] => agrees_ok
  | v :: vs => (condition_agrees v).all (allItems_agree vs)

theorem anyItem_agrees : ∀ vs : List Json,
    Agrees (anyItem float env vs) (orderedUntilTrue float env vs) (itemHolds float env vs)
  | [] => agrees_ok
  | v :: vs => (condition_agrees v).any (anyItem_agrees vs)

end

def mappingsCompared : Json :=
  .obj [("<".toList, .arr [.obj [("a".toList, .int 1)], .obj [("a".toList, .int 2)]])]

end totality

end TraceMind.Policy
