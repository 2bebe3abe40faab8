import Mathlib.Data.List.Infix

def lines (newline : Char) : List Char → List (List Char)
  | [] => []
  | c :: cs =>
    if c = newline then [c] :: lines newline cs
    else
      match lines newline cs with
      | [] => [[c]]
      | l :: ls => (c :: l) :: ls

namespace Lines

variable {nl : Char} {a b : List Char}

theorem lines_newline (b : List Char) : lines nl (nl :: b) = [nl] :: lines nl b := by
  simp [lines]

theorem lines_cons {c : Char} (hc : c ≠ nl) {l : List Char} {ls : List (List Char)}
    (h : lines nl b = l :: ls) : lines nl (c :: b) = (c :: l) :: ls := by
  simp [lines, hc, h]

theorem lines_line (ha : nl ∉ a) : lines nl (a ++ nl :: b) = (a ++ [nl]) :: lines nl b := by
  induction a with
  | nil => exact lines_newline b
  | cons c a ih =>
    obtain ⟨hc, ha⟩ := not_or.mp (List.mem_cons.not.mp ha)
    exact lines_cons (Ne.symm hc) (ih ha)

theorem lines_part (ha : nl ∉ a) (hne : a ≠ []) : lines nl a = [a] := by
  induction a with
  | nil => exact absurd rfl hne
  | cons c a ih =>
    obtain ⟨hc, ha⟩ := not_or.mp (List.mem_cons.not.mp ha)
    cases a with
    | nil => simp [lines, Ne.symm hc]
    | cons d a => exact lines_cons (Ne.symm hc) (ih ha (by simp))

-- Texts in which every line is ended.
inductive Ended (nl : Char) : List Char → Prop where
  | nil : Ended nl []
  | line {a b : List Char} : nl ∉ a → Ended nl b → Ended nl (a ++ nl :: b)

theorem Ended.append (ha : Ended nl a) (hb : Ended nl b) : Ended nl (a ++ b) := by
  induction ha with
  | nil => exact hb
  | line hn _ ih =>
    rw [List.append_assoc, List.cons_append]
    exact Ended.line hn ih

theorem Ended.lines_append (ha : Ended nl a) (b : List Char) :
    lines nl (a ++ b) = lines nl a ++ lines nl b := by
  induction ha with
  | nil => rfl
  | line hn _ ih =>
    rw [List.append_assoc, List.cons_append, lines_line hn, lines_line hn, ih]
    rfl

end Lines

-- The `LIKE` operator of SQL, without an escape character: `%` stands for any text, `_` for any
-- character, and a letter of ASCII for itself in either case.
namespace Like

def likeChar (p c : Char) : Bool := p = '_' || p.toLower = c.toLower

def like : List Char → List Char → Bool
  | [], [] => true
  | [], _ :: _ => false
  | p :: ps, [] => p = '%' && like ps []
  | p :: ps, c :: cs =>
    if p = '%' then (c :: cs).tails.any (like ps) else likeChar p c && like ps cs

theorem like_wild (ps s : List Char) : like ('%' :: ps) s = s.tails.any (like ps) := by
  cases s <;> simp [like]

theorem like_percent (s : List Char) : like ['%'] s = true := by
  rw [like_wild, List.any_eq_true]
  exact ⟨[], (List.mem_tails _ _).mpr List.nil_suffix, rfl⟩

theorem likeChar_self (c : Char) : likeChar c c = true := by simp [likeChar]

theorem like_self (p s : List Char) : like (p ++ ['%']) (p ++ s) = true := by
  induction p with
  | nil => exact like_percent s
  | cons c p ih =>
    rw [List.cons_append, List.cons_append, like]
    split_ifs
    · exact List.any_eq_true.mpr ⟨p ++ s, (List.mem_tails _ _).mpr (List.suffix_cons ..), ih⟩
    · rw [likeChar_self, ih, Bool.true_and]

end Like
