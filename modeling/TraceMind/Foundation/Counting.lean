import Mathlib.Data.List.Count
import Mathlib.Data.List.Basic
import Mathlib.Algebra.Order.Group.Defs

-- How the number of marked entries changes when a list changes.
namespace Tally

variable {α : Type} {p : α → Bool} {l : List α} {x y : α} {i : ℕ}

theorem set_count (h : l[i]? = some x) :
    (l.set i y).countP p + (p x).toNat = l.countP p + (p y).toNat := by
  induction l generalizing i with
  | nil => cases h
  | cons z l ih =>
    cases i with
    | zero =>
      obtain rfl : z = x := Option.some.inj h
      rw [List.set_cons_zero, List.countP_cons, List.countP_cons]
      cases p z <;> cases p y <;> simp
    | succ i =>
      rw [List.set_cons_succ, List.countP_cons, List.countP_cons]
      have hl := ih h
      omega

theorem snoc_count : (l ++ [y]).countP p = l.countP p + (p y).toNat := by
  rw [List.countP_append, List.countP_singleton]
  cases p y <;> rfl

theorem cons_count : (y :: l).countP p = l.countP p + (p y).toNat := by
  rw [List.countP_cons]
  cases p y <;> rfl

end Tally

-- How many times of a list lie in the half-open interval of a given width that ends at `t`.
namespace SlidingWindow

variable {τ : Type} [AddCommGroup τ] [LinearOrder τ]

def countIn (width t : τ) (log : List τ) : ℕ :=
  log.countP (fun x => decide (t - width < x) && decide (x ≤ t))

variable {width now t : τ} {log : List τ}

theorem countIn_append_singleton (x : τ) :
    countIn width t (log ++ [x]) =
      countIn width t log + if t - width < x ∧ x ≤ t then 1 else 0 := by
  rw [countIn, List.countP_append, List.countP_singleton, countIn]
  simp only [Bool.and_eq_true, decide_eq_true_eq]

theorem length_filter_eq_countIn (hlog : ∀ x ∈ log, x ≤ now) :
    (log.filter (fun x => decide (now - width < x))).length = countIn width now log := by
  rw [countIn, List.countP_eq_length_filter]
  refine congrArg List.length (List.filter_congr (fun x hx => ?_))
  rw [decide_eq_true (hlog x hx), Bool.and_true]

variable [IsOrderedAddMonoid τ]

theorem countIn_le_countIn (hnow : now ≤ t) (hlog : ∀ x ∈ log, x ≤ now) :
    countIn width t log ≤ countIn width now log := by
  refine List.countP_mono_left (fun x hx h => ?_)
  rw [Bool.and_eq_true, decide_eq_true_eq, decide_eq_true_eq] at h ⊢
  exact ⟨lt_of_le_of_lt (sub_le_sub_right hnow width) h.1, hlog x hx⟩

theorem countIn_append_now (hwidth : 0 < width) :
    countIn width now (log ++ [now]) = countIn width now log + 1 := by
  rw [countIn_append_singleton, if_pos ⟨sub_lt_self now hwidth, le_refl now⟩]

theorem countIn_append_le {b : ℕ} (hlog : ∀ x ∈ log, x ≤ now)
    (hall : ∀ t, countIn width t log ≤ b) (hnow : countIn width now log + 1 ≤ b) (t : τ) :
    countIn width t (log ++ [now]) ≤ b := by
  rw [countIn_append_singleton]
  split_ifs with h
  · exact (Nat.add_le_add_right (countIn_le_countIn h.2 hlog) 1).trans hnow
  · exact hall t

end SlidingWindow

namespace Reservation

variable {κ σ γ : Type} [DecidableEq κ]

def count (c : σ → γ) (missing : γ) (t : κ → Option σ) (k : κ) : γ := ((t k).map c).getD missing

def giveBack (f : σ → σ) (taken : List κ) (t : κ → Option σ) (k : κ) : Option σ :=
  if k ∈ taken then (t k).map f else t k

variable {c : σ → γ} {missing : γ} {f : σ → σ} {t : κ → Option σ} {taken taken' : List κ} {key : κ}
  {s : σ}

theorem count_giveBack_update (hfresh : key ∉ taken) (hsame : ∀ k ≠ key, (k ∈ taken' ↔ k ∈ taken))
    (hs : c (if key ∈ taken' then f s else s) = count c missing t key) (k : κ) :
    count c missing (giveBack f taken' (Function.update t key (some s))) k =
      count c missing (giveBack f taken t) k := by
  unfold count giveBack
  rw [Function.update_apply]
  by_cases hk : k = key
  · subst hk
    rw [if_pos rfl, if_neg hfresh]
    split_ifs at hs ⊢ <;> exact hs
  · rw [if_neg hk]
    simp only [hsame k hk]

end Reservation
