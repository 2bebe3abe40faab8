import TraceMind.Foundation.Json
import Mathlib.Algebra.Order.Ring.Unbundled.Rat

-- How Python compares two decoded values.
namespace Python

inductive Num where
  | nan
  | inf (negative : Bool)
  | fin (q : ℚ)

-- `none` where one of the numbers is no number.
def Num.cmp : Num → Num → Option Ordering
  | .nan, _ => none
  | _, .nan => none
  | .inf a, .inf b => some (if a = b then .eq else if a then .lt else .gt)
  | .inf a, .fin _ => some (if a then .lt else .gt)
  | .fin _, .inf b => some (if b then .gt else .lt)
  | .fin p, .fin q => some (if p < q then .lt else if p = q then .eq else .gt)

-- What the text of a float stands for; a text without a value is beyond all of them.
variable (value : List Char → Option ℚ)

def numOf : Json → Option Num
  | .int n => some (.fin n)
  | .bool b => some (.fin (if b then 1 else 0))
  | .float t =>
    match value t with
    | some q => some (.fin q)
    | none => some (.inf (t.head? = some '-'))
  | .nan => some .nan
  | .infinity negative => some (.inf negative)
  | _ => none

def eqNum (a b : Json) : Bool :=
  match numOf value a, numOf value b with
  | some x, some y => x.cmp y = some .eq
  | _, _ => false

mutual

def eqItem : Json → Json → Bool
  | .nan, .nan => true
  | .null, .null => true
  | .str s, .str t => s = t
  | .arr vs, .arr ws => eqItems vs ws
  | .obj fs, .obj gs => fs.length = gs.length && eqFields fs gs
  | a, b => eqNum value a b

def eqItems : List Json → List Json → Bool
  | [], [] => true
  | v :: vs, w :: ws => eqItem v w && eqItems vs ws
  | _, _ => false

def eqFields : List (List Char × Json) → List (List Char × Json) → Bool
  | [], _ => true
  | (k, v) :: fs, gs => (gs.lookup k).any (fun w => eqItem v w) && eqFields fs gs

end

def pyEq (a b : Json) : Bool :=
  match numOf value a, numOf value b with
  | some x, some y => x.cmp y = some .eq
  | _, _ => eqItem value a b

def cmpText : List Char → List Char → Ordering
  | [], [] => .eq
  | [], _ :: _ => .lt
  | _ :: _, [] => .gt
  | c :: cs, d :: ds =>
    if c.toNat < d.toNat then .lt else if d.toNat < c.toNat then .gt else cmpText cs ds

mutual

def pyOrder : Json → Json → Except (Json × Json) (Option Ordering)
  | .str s, .str t => .ok (some (cmpText s t))
  | .arr vs, .arr ws => orderItems vs ws
  | a, b =>
    match numOf value a, numOf value b with
    | some x, some y => .ok (x.cmp y)
    | _, _ => .error (a, b)

def orderItems : List Json → List Json → Except (Json × Json) (Option Ordering)
  | [], [] => .ok (some .eq)
  | [], _ :: _ => .ok (some .lt)
  | _ :: _, [] => .ok (some .gt)
  | v :: vs, w :: ws => if eqItem value v w then orderItems vs ws else pyOrder v w

end

mutual

def orderable : Json → Json → Bool
  | .str _, .str _ => true
  | .arr vs, .arr ws => orderableItems vs ws
  | a, b => (numOf value a).isSome && (numOf value b).isSome

def orderableItems : List Json → List Json → Bool
  | v :: vs, w :: ws => if eqItem value v w then orderableItems vs ws else orderable v w
  | _, _ => true

end

variable {value}

theorem pyOrder_number {a b : Json} {x : Num} (ha : numOf value a = some x) :
    (pyOrder value a b).isOk = orderable value a b := by
  have ho : orderable value a b = ((numOf value a).isSome && (numOf value b).isSome) := by
    cases a <;> first | (cases ha; done) | (cases b <;> rfl)
  cases hb : numOf value b with
  | none =>
    have hp : pyOrder value a b = .error (a, b) := by
      cases a <;> first | (cases ha; done) | (rw [pyOrder, ha, hb] <;> simp)
    rw [hp, ho, ha, hb]
    rfl
  | some y =>
    have hp : pyOrder value a b = .ok (x.cmp y) := by
      cases a <;> first | (cases ha; done) | (rw [pyOrder, ha, hb] <;> simp)
    rw [hp, ho, ha, hb]
    rfl

theorem numOf_float (t : List Char) : ∃ x, numOf value (.float t) = some x := by
  rw [numOf]
  cases value t with
  | none => exact ⟨_, rfl⟩
  | some q => exact ⟨_, rfl⟩

mutual

theorem pyOrder_isOk : ∀ a b : Json, (pyOrder value a b).isOk = orderable value a b
  | .arr vs, b => by
    cases b with
    | arr ws =>
      rw [pyOrder, orderable]
      exact orderItems_isOk vs ws
    | null | bool _ | nan | infinity _ | int _ | float _ | str _ | obj _ => rfl
  | .str s, b => by cases b <;> rfl
  | .null, b => by cases b <;> rfl
  | .obj fs, b => by cases b <;> rfl
  | .bool _, _ => pyOrder_number rfl
  | .nan, _ => pyOrder_number rfl
  | .infinity _, _ => pyOrder_number rfl
  | .int _, _ => pyOrder_number rfl
  | .float t, _ => (numOf_float t).elim (fun _ h => pyOrder_number h)

theorem orderItems_isOk : ∀ vs ws : List Json,
    (orderItems value vs ws).isOk = orderableItems value vs ws
  | [], ws => by cases ws <;> rfl
  | v :: vs, ws => by
    cases ws with
    | nil => rfl
    | cons w ws =>
      rw [orderItems, orderableItems]
      split_ifs with h
      · exact orderItems_isOk vs ws
      · exact pyOrder_isOk v w

end

end Python
