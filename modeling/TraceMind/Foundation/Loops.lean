import Mathlib.Data.List.Range

namespace EarlyExit

variable {σ ρ ε : Type}

def loop (body : ℕ → σ → Except ε (σ ⊕ ρ)) : ℕ → ℕ → σ → List ℕ × Except ε (σ ⊕ ρ)
  | 0, _, s => ([], .ok (.inl s))
  | n + 1, k, s =>
    match body k s with
    | .error e => ([k], .error e)
    | .ok (.inr r) => ([k], .ok (.inr r))
    | .ok (.inl s') => (k :: (loop body n (k + 1) s').1, (loop body n (k + 1) s').2)

-- The state before round `k + i`, when the rounds before it let the loop go on.
inductive Before (body : ℕ → σ → Except ε (σ ⊕ ρ)) (k : ℕ) (s : σ) : ℕ → σ → Prop where
  | start : Before body k s 0 s
  | next {i : ℕ} {t t' : σ} (h : Before body k s i t) (hbody : body (k + i) t = .ok (.inl t')) :
      Before body k s (i + 1) t'

variable {body : ℕ → σ → Except ε (σ ⊕ ρ)} {k : ℕ} {s : σ}

theorem Before.of_tail {s' t : σ} {i : ℕ} (hbody : body k s = .ok (.inl s'))
    (h : Before body (k + 1) s' i t) : Before body k s (i + 1) t := by
  induction h with
  | start => exact .next .start hbody
  | next _ hnext ih =>
    refine .next ih ?_
    rw [← hnext, Nat.add_assoc, Nat.add_comm 1]

def Ends (body : ℕ → σ → Except ε (σ ⊕ ρ)) (k i : ℕ) (t : σ) (result : Except ε (σ ⊕ ρ)) : Prop :=
  body (k + i) t = result ∧ ∀ t', result ≠ .ok (.inl t')

theorem loop_spec (body : ℕ → σ → Except ε (σ ⊕ ρ)) (n k : ℕ) (s : σ) :
    (∃ i t, i < n ∧ Before body k s i t ∧ (loop body n k s).1 = List.range' k (i + 1) ∧
      Ends body k i t (loop body n k s).2) ∨
    ∃ t, Before body k s n t ∧ loop body n k s = (List.range' k n, .ok (.inl t)) := by
  induction n generalizing k s with
  | zero => exact Or.inr ⟨s, .start, rfl⟩
  | succ n ih =>
    rw [loop]
    cases hbody : body k s with
    | error e =>
      exact Or.inl ⟨0, s, Nat.succ_pos n, .start, rfl, hbody, fun t' ht => by cases ht⟩
    | ok next =>
      cases next with
      | inr r => exact Or.inl ⟨0, s, Nat.succ_pos n, .start, rfl, hbody, fun t' ht => by cases ht⟩
      | inl s' =>
        dsimp only
        rcases ih (k + 1) s' with ⟨i, t, hi, hbefore, hcalls, hends, hstop⟩ | ⟨t, hbefore, hloop⟩
        · refine Or.inl ⟨i + 1, t, Nat.succ_lt_succ hi, .of_tail hbody hbefore, ?_, ?_, hstop⟩
          · rw [hcalls, List.range'_succ (s := k)]
          · rw [← hends, Nat.add_assoc, Nat.add_comm 1]
        · refine Or.inr ⟨t, .of_tail hbody hbefore, ?_⟩
          rw [hloop, List.range'_succ]

end EarlyExit

-- Finding items one after the other in a list: each is looked for behind the one found before it.
namespace Greedy

variable {α : Type}

def search (p : α → Bool) : List α → Option (List α)
  | [] => none
  | x :: xs => if p x then some xs else search p xs

def finds : List (α → Bool) → List α → Bool
  | [], _ => true
  | p :: ps, xs =>
    match search p xs with
    | none => false
    | some rest => finds ps rest

variable {p : α → Bool} {ps : List (α → Bool)} {x : α} {xs ys rest : List α}

theorem search_sound (h : search p xs = some rest) :
    ∃ x, p x = true ∧ (x :: rest).Sublist xs := by
  induction xs with
  | nil => cases h
  | cons y xs ih =>
    rw [search] at h
    split_ifs at h with hy
    · cases h
      exact ⟨y, hy, List.Sublist.refl _⟩
    · obtain ⟨x, hx, hsub⟩ := ih h
      exact ⟨x, hx, hsub.cons y⟩

theorem search_complete (hx : p x = true) (h : (x :: ys).Sublist xs) :
    ∃ rest, search p xs = some rest ∧ ys.Sublist rest := by
  induction xs with
  | nil => cases h
  | cons y xs ih =>
    rw [search]
    split_ifs with hy
    · refine ⟨xs, rfl, ?_⟩
      cases h with
      | cons _ hsub => exact (List.sublist_cons_self x ys).trans hsub
      | cons_cons _ hsub => exact hsub
    · cases h with
      | cons _ hsub => exact ih hsub
      | cons_cons _ _ => exact absurd hx hy

theorem finds_iff :
    finds ps xs = true ↔ ∃ ys, ys.Sublist xs ∧ List.Forall₂ (fun p y => p y = true) ps ys := by
  induction ps generalizing xs with
  | nil => exact iff_of_true rfl ⟨[], List.nil_sublist xs, .nil⟩
  | cons p ps ih =>
    rw [finds]
    constructor
    · intro h
      cases hs : search p xs with
      | none =>
        rw [hs] at h
        cases h
      | some rest =>
        rw [hs] at h
        obtain ⟨ys, hsub, hys⟩ := ih.mp h
        obtain ⟨x, hx, hfirst⟩ := search_sound hs
        exact ⟨x :: ys, (hsub.cons_cons x).trans hfirst, .cons hx hys⟩
    · rintro ⟨ys, hsub, hys⟩
      cases hys with
      | cons hx hrest =>
        obtain ⟨rest, hs, hbehind⟩ := search_complete hx hsub
        rw [hs]
        exact ih.mpr ⟨_, hbehind, hrest⟩

end Greedy
