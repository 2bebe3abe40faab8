import Mathlib.Order.Lattice

structure BoundedRange (α : Type) where
  lower : α
  lowerInclusive : Bool
  upper : α
  upperInclusive : Bool

namespace BoundedRange

variable {α : Type} [LinearOrder α]

def Above (bound : α) (inclusive : Bool) (x : α) : Prop :=
  bound < x ∨ inclusive = true ∧ bound = x

def Below (bound : α) (inclusive : Bool) (x : α) : Prop :=
  x < bound ∨ inclusive = true ∧ x = bound

def Mem (x : α) (i : BoundedRange α) : Prop :=
  Above i.lower i.lowerInclusive x ∧ Below i.upper i.upperInclusive x

def meet (i j : BoundedRange α) : BoundedRange α where
  lower := max i.lower j.lower
  lowerInclusive :=
    if j.lower < i.lower then i.lowerInclusive
    else if i.lower < j.lower then j.lowerInclusive
    else i.lowerInclusive && j.lowerInclusive
  upper := min i.upper j.upper
  upperInclusive :=
    if i.upper < j.upper then i.upperInclusive
    else if j.upper < i.upper then j.upperInclusive
    else i.upperInclusive && j.upperInclusive

def inhabited (i : BoundedRange α) : Bool :=
  decide (i.lower < i.upper) ||
    (decide (i.lower = i.upper) && (i.lowerInclusive && i.upperInclusive))

theorem above_max {a b x : α} {p q : Bool} :
    Above (max a b) (if b < a then p else if a < b then q else p && q) x ↔
      Above a p x ∧ Above b q x := by
  unfold Above
  rcases lt_trichotomy a b with h | h | h
  · rw [max_eq_right h.le, if_neg h.not_gt, if_pos h]
    constructor
    · intro hx
      have hb : b ≤ x := hx.elim le_of_lt (fun e => e.2.le)
      exact ⟨Or.inl (h.trans_le hb), hx⟩
    · exact And.right
  · subst h
    rw [max_self, if_neg (lt_irrefl a), if_neg (lt_irrefl a), Bool.and_eq_true, and_and_right,
      or_and_left]
  · rw [max_eq_left h.le, if_pos h]
    constructor
    · intro hx
      have ha : a ≤ x := hx.elim le_of_lt (fun e => e.2.le)
      exact ⟨hx, Or.inl (h.trans_le ha)⟩
    · exact And.left

theorem below_min {a b x : α} {p q : Bool} :
    Below (min a b) (if a < b then p else if b < a then q else p && q) x ↔
      Below a p x ∧ Below b q x := by
  unfold Below
  rcases lt_trichotomy a b with h | h | h
  · rw [min_eq_left h.le, if_pos h]
    constructor
    · intro hx
      have ha : x ≤ a := hx.elim le_of_lt (fun e => e.2.le)
      exact ⟨hx, Or.inl (ha.trans_lt h)⟩
    · exact And.left
  · subst h
    rw [min_self, if_neg (lt_irrefl a), if_neg (lt_irrefl a), Bool.and_eq_true, and_and_right,
      or_and_left]
  · rw [min_eq_right h.le, if_neg h.not_gt, if_pos h]
    constructor
    · intro hx
      have hb : x ≤ b := hx.elim le_of_lt (fun e => e.2.le)
      exact ⟨Or.inl (hb.trans_lt h), hx⟩
    · exact And.right

theorem mem_meet {x : α} {i j : BoundedRange α} : Mem x (i.meet j) ↔ Mem x i ∧ Mem x j := by
  unfold Mem
  rw [meet, above_max, below_min, and_and_and_comm]

theorem inhabited_iff [DenselyOrdered α] {i : BoundedRange α} :
    i.inhabited = true ↔ ∃ x, Mem x i := by
  simp only [inhabited, Bool.or_eq_true, Bool.and_eq_true, decide_eq_true_eq]
  constructor
  · rintro (h | ⟨h, hl, hu⟩)
    · obtain ⟨x, hl, hu⟩ := exists_between h
      exact ⟨x, Or.inl hl, Or.inl hu⟩
    · exact ⟨i.lower, Or.inr ⟨hl, rfl⟩, Or.inr ⟨hu, h⟩⟩
  · rintro ⟨x, hl | ⟨hl, rfl⟩, hu | ⟨hu, hx⟩⟩
    · exact Or.inl (hl.trans hu)
    · exact Or.inl (hx ▸ hl)
    · exact Or.inl hu
    · exact Or.inr ⟨hx, hl, hu⟩

theorem inhabited_meet [DenselyOrdered α] {i j : BoundedRange α} :
    (i.meet j).inhabited = true ↔ ∃ x, Mem x i ∧ Mem x j := by
  rw [inhabited_iff]
  exact exists_congr (fun _ => mem_meet)

end BoundedRange
