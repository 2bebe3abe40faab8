import Mathlib.Data.List.Nodup
import Mathlib.Data.List.Perm.Subperm
import Mathlib.Data.List.Lex
import Mathlib.Data.Nat.Digits.Defs
import Mathlib.Data.Char

namespace FreeName

section search

variable {α : Type} [DecidableEq α]

def firstFree (f : ℕ → α) (seen : List α) : ℕ → ℕ → ℕ
  | 0, k => k
  | n + 1, k => if f k ∈ seen then firstFree f seen n (k + 1) else k

variable {f : ℕ → α} {seen : List α}

theorem all_seen_of_firstFree {n k : ℕ} (h : f (firstFree f seen n k) ∈ seen) :
    ∀ i ∈ List.range' k (n + 1), f i ∈ seen := by
  induction n generalizing k with
  | zero =>
    intro i hi
    rw [List.range'_one, List.mem_singleton] at hi
    rw [hi]
    exact h
  | succ n ih =>
    rw [firstFree] at h
    intro i hi
    rw [List.range'_succ, List.mem_cons] at hi
    split_ifs at h with hk
    · rcases hi with rfl | hi
      · exact hk
      · exact ih h i hi
    · exact absurd h hk

theorem firstFree_not_mem (hf : Function.Injective f) (seen : List α) (k : ℕ) :
    f (firstFree f seen seen.length k) ∉ seen := by
  intro h
  have hnodup : ((List.range' k (seen.length + 1)).map f).Nodup :=
    List.Nodup.map hf List.nodup_range'
  have hsubset : (List.range' k (seen.length + 1)).map f ⊆ seen := by
    intro a ha
    obtain ⟨i, hi, rfl⟩ := List.mem_map.mp ha
    exact all_seen_of_firstFree h i hi
  have hlen := (List.subperm_of_subset hnodup hsubset).length_le
  rw [List.length_map, List.length_range'] at hlen
  omega

end search

section naming

variable {α β : Type}

def nameAll (pick : List α → β → α) : List α → List β → List α
  | _, [] => []
  | seen, b :: bs => pick seen b :: nameAll pick (pick seen b :: seen) bs

variable {pick : List α → β → α}

theorem nameAll_fresh (hpick : ∀ seen b, pick seen b ∉ seen) {seen : List α} {bs : List β} {a : α}
    (h : a ∈ nameAll pick seen bs) : a ∉ seen := by
  induction bs generalizing seen with
  | nil => cases h
  | cons b bs ih =>
    rcases List.mem_cons.mp h with rfl | h
    · exact hpick seen b
    · intro ha
      exact ih h (List.mem_cons_of_mem _ ha)

theorem nameAll_nodup (hpick : ∀ seen b, pick seen b ∉ seen) (seen : List α) (bs : List β) :
    (nameAll pick seen bs).Nodup := by
  induction bs generalizing seen with
  | nil => exact List.nodup_nil
  | cons b bs ih =>
    rw [nameAll, List.nodup_cons]
    refine ⟨?_, ih _⟩
    intro h
    exact nameAll_fresh hpick h List.mem_cons_self

end naming

end FreeName

namespace Digits

def padded (width n : ℕ) : List Char :=
  let ds := Nat.toDigits 10 n
  List.replicate (width - ds.length) '0' ++ ds

section order

variable {α : Type} [LinearOrder α]

theorem append_lt_append_iff {a b s t : List α} (h : a.length = b.length) :
    a ++ s < b ++ t ↔ a < b ∨ a = b ∧ s < t := by
  induction a generalizing b with
  | nil =>
    obtain rfl : b = [] := List.length_eq_zero_iff.mp h.symm
    simp
  | cons x a ih =>
    cases b with
    | nil => cases h
    | cons y b =>
      have hlen : a.length = b.length := Nat.succ.inj h
      simp only [List.cons_append, List.cons_lt_cons_iff, ih hlen, List.cons.injEq]
      tauto

end order

section width

variable {w m n : ℕ}

theorem padded_isDigit (w n : ℕ) : ∀ c ∈ padded w n, c.isDigit = true := by
  intro c hc
  rcases List.mem_append.mp hc with hc | hc
  · rw [List.eq_of_mem_replicate hc]
    rfl
  · exact Nat.isDigit_of_mem_toDigits (by decide) (by decide) hc

theorem length_padded (hw : 0 < w) (hn : n < 10 ^ w) : (padded w n).length = w := by
  have hle : (Nat.toDigits 10 n).length ≤ w := (Nat.length_toDigits_le_iff (by decide) hw).mpr hn
  simp only [padded, List.length_append, List.length_replicate]
  omega

theorem width_lt_length_padded (hw : 0 < w) (hn : 10 ^ w ≤ n) : w < (padded w n).length := by
  have hlt : w < (Nat.toDigits 10 n).length :=
    Nat.lt_of_not_le (fun h => Nat.not_lt.mpr hn
      ((Nat.length_toDigits_le_iff (by decide) hw).mp h))
  simp only [padded, List.length_append, List.length_replicate]
  omega

theorem padded_succ (hw : 0 < w) (hn : n < 10 ^ (w + 1)) :
    padded (w + 1) n = padded w (n / 10) ++ [Nat.digitChar (n % 10)] := by
  by_cases h : n < 10
  · have hd : Nat.toDigits 10 n = [Nat.digitChar n] := Nat.toDigits_of_lt_base h
    have hq : n / 10 = 0 := by omega
    have hr : n % 10 = n := Nat.mod_eq_of_lt h
    obtain ⟨k, rfl⟩ : ∃ k, w = k + 1 := ⟨w - 1, by omega⟩
    simp [padded, hd, hq, hr, List.replicate_succ']
  · have hd : Nat.toDigits 10 n = Nat.toDigits 10 (n / 10) ++ [Nat.digitChar (n % 10)] :=
      Nat.toDigits_of_base_le (by decide) (by omega)
    simp [padded, hd]

theorem digitChar_lt_iff {a b : ℕ} (ha : a < 10) (hb : b < 10) :
    Nat.digitChar a < Nat.digitChar b ↔ a < b := by
  have hall : ∀ a < 10, ∀ b < 10, Nat.digitChar a < Nat.digitChar b ↔ a < b := by decide
  exact hall a ha b hb

theorem ofDigitChars_padded (w n : ℕ) : Nat.ofDigitChars 10 (padded w n) 0 = n := by
  rw [padded, Nat.ofDigitChars_append, Nat.ofDigitChars_replicate_zero, Nat.mul_zero,
    Nat.ofDigitChars_ten_toDigits]

theorem padded_inj : padded w m = padded w n ↔ m = n := by
  refine ⟨fun h => ?_, congrArg _⟩
  rw [← ofDigitChars_padded w m, h, ofDigitChars_padded]

theorem padded_lt_iff (hw : 0 < w) (hm : m < 10 ^ w) (hn : n < 10 ^ w) :
    padded w m < padded w n ↔ m < n := by
  induction w, hw using Nat.le_induction generalizing m n with
  | base =>
    have hone : ∀ k < 10 ^ 1, padded 1 k = [Nat.digitChar k] := by decide
    rw [hone m hm, hone n hn]
    simpa [List.cons_lt_cons_iff] using digitChar_lt_iff (by simpa using hm) (by simpa using hn)
  | succ w hw ih =>
    have hdiv : m / 10 < 10 ^ w ∧ n / 10 < 10 ^ w := by omega
    have hlen : (padded w (m / 10)).length = (padded w (n / 10)).length := by
      rw [length_padded hw hdiv.1, length_padded hw hdiv.2]
    have hlast : [Nat.digitChar (m % 10)] < [Nat.digitChar (n % 10)] ↔ m % 10 < n % 10 := by
      simpa [List.cons_lt_cons_iff] using
        digitChar_lt_iff (Nat.mod_lt m (by decide)) (Nat.mod_lt n (by decide))
    rw [padded_succ hw hm, padded_succ hw hn, append_lt_append_iff hlen, ih hdiv.1 hdiv.2,
      padded_inj, hlast]
    omega

end width

end Digits
