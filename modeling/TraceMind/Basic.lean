import Mathlib.Data.List.Basic

namespace TraceMind

abbrev Str := List Char

instance Str.lawfulBEq : LawfulBEq Str := inferInstance

inductive Err where
  | valueError (message : String)
  | keyError (message : String)
  | typeError (message : String)
  | indexError (message : String)
deriving DecidableEq, Repr

-- A Python object as far as a store looks at it: its truth value, and the constant `True`.
class PyValue (V : Type) where
  truthy : V → Bool
  pyTrue : V
  truthy_pyTrue : truthy pyTrue = true

instance : PyValue Bool where
  truthy := id
  pyTrue := true
  truthy_pyTrue := rfl

def startsWith (p s : Str) : Bool := p.isPrefixOf s

-- The characters for which Python's `str.isspace` holds, which are also those of the class `\s`.
def isSpace (c : Char) : Bool :=
  let n := c.toNat
  (9 ≤ n && n ≤ 13) || (28 ≤ n && n ≤ 32) || n == 0x85 || n == 0xa0 || n == 0x1680 ||
    (0x2000 ≤ n && n ≤ 0x200a) || n == 0x2028 || n == 0x2029 || n == 0x202f || n == 0x205f ||
    n == 0x3000

theorem isSpace_of_alphanum {c : Char} (h : c.isAlphanum = true) : isSpace c = false := by
  have hrange : 33 ≤ c.toNat ∧ c.toNat ≤ 126 := by
    delta Char.isAlphanum Char.isAlpha Char.isUpper Char.isLower Char.isDigit at h
    simp only [Bool.or_eq_true, Bool.and_eq_true, decide_eq_true_eq, UInt32.le_iff_toNat_le,
      ge_iff_le] at h
    have h1 : c.toNat = c.val.toNat := rfl
    have h2 : 'A'.val.toNat = 65 ∧ 'Z'.val.toNat = 90 := ⟨rfl, rfl⟩
    have h3 : 'a'.val.toNat = 97 ∧ 'z'.val.toNat = 122 := ⟨rfl, rfl⟩
    have h4 : '0'.val.toNat = 48 ∧ '9'.val.toNat = 57 := ⟨rfl, rfl⟩
    omega
  simp only [isSpace, Bool.or_eq_false_iff, Bool.and_eq_false_iff, decide_eq_false_iff_not,
    beq_eq_false_iff_ne]
  omega

def strip (s : Str) : Str := ((s.dropWhile isSpace).reverse.dropWhile isSpace).reverse

theorem strip_of_noSpace {s : Str} (h : ∀ c ∈ s, isSpace c = false) : strip s = s := by
  have hdrop : ∀ u : Str, (∀ c ∈ u, isSpace c = false) → u.dropWhile isSpace = u := by
    intro u hu
    cases u with
    | nil => rfl
    | cons c cs => exact List.dropWhile_cons_of_neg (by simp [hu c])
  rw [strip, hdrop s h, hdrop s.reverse (fun c hc => h c (List.mem_reverse.mp hc)),
    List.reverse_reverse]

def lower (s : Str) : Str := s.map Char.toLower

end TraceMind
