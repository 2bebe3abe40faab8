import Mathlib.Data.Fintype.Pigeonhole

-- Walks from node to parent that colour what they pass and report every cycle they run into.
namespace ParentWalk

inductive Colour where
  | white
  | grey
  | black
deriving DecidableEq

structure Search (α : Type) where
  colour : α → Colour
  stack : List α
  cycles : List (α × List α)

variable {α : Type}

section grounded

variable {parent : α → Option α} {n p r : α}

def Link (parent : α → Option α) (a b : α) : Prop := parent a = some b

-- The way up from a node ends.
inductive Grounded (parent : α → Option α) : α → Prop where
  | root {n : α} (h : parent n = none) : Grounded parent n
  | step {n p : α} (h : parent n = some p) (hp : Grounded parent p) : Grounded parent n

theorem Grounded.up (h : Grounded parent n) (hp : parent n = some p) : Grounded parent p := by
  cases h with
  | root hn => cases hn.symm.trans hp
  | step hn hg => exact Option.some.inj (hn.symm.trans hp) ▸ hg

theorem Grounded.not_cycle (h : Grounded parent n) :
    ¬Relation.TransGen (Link parent) n n := by
  induction h with
  | root hn =>
    intro hc
    obtain ⟨b, hb, -⟩ := Relation.TransGen.head'_iff.mp hc
    cases hn.symm.trans hb
  | step hn _ ih =>
    intro hc
    obtain ⟨b, hb, hrest⟩ := Relation.TransGen.head'_iff.mp hc
    obtain rfl := Option.some.inj (hn.symm.trans hb)
    exact ih (Relation.TransGen.tail' hrest hn)

theorem Grounded.reaches_root (h : Grounded parent n) :
    ∃ r, parent r = none ∧ Relation.ReflTransGen (Link parent) n r := by
  induction h with
  | root hn => exact ⟨_, hn, .refl⟩
  | step hn _ ih =>
    obtain ⟨r, hr, hreach⟩ := ih
    exact ⟨r, hr, .head hn hreach⟩

theorem Grounded.of_reaches (hr : parent r = none)
    (h : Relation.ReflTransGen (Link parent) n r) : Grounded parent n := by
  induction h using Relation.ReflTransGen.head_induction_on with
  | refl => exact .root hr
  | head hab _ ih => exact .step hab ih

theorem reaches_mem {nodes : List α} (hclosed : ∀ n ∈ nodes, ∀ p, parent n = some p → p ∈ nodes)
    (hn : n ∈ nodes) (h : Relation.ReflTransGen (Link parent) n r) : r ∈ nodes := by
  induction h with
  | refl => exact hn
  | tail _ hab ih => exact hclosed _ ih _ hab

theorem cycle_of_chain {stack : List α} (hc : (stack ++ [n]).IsChain (Link parent))
    (hn : n ∈ stack) : Relation.TransGen (Link parent) n n := by
  have hp : (stack ++ [n]).Pairwise (Relation.TransGen (Link parent)) :=
    (hc.imp (fun _ _ h => Relation.TransGen.single h)).pairwise
  exact (List.pairwise_append.mp hp).2.2 n hn n (List.mem_singleton_self n)

end grounded

section search

variable [DecidableEq α]

namespace Search

def start : Search α := ⟨fun _ => .white, [], []⟩

def paint (n : α) (c : Colour) (s : Search α) : Search α :=
  { s with colour := fun x => if x = n then c else s.colour x }

def enter (n : α) (s : Search α) : Search α := { s.paint n .grey with stack := s.stack ++ [n] }

def leave (n : α) (s : Search α) : Search α := { s.paint n .black with stack := s.stack.dropLast }

def report (n : α) (s : Search α) : Search α :=
  { s with cycles := s.cycles ++
      [(n, (if n ∈ s.stack then s.stack.dropWhile (· ≠ n) else s.stack) ++ [n])] }

end Search

-- `none` is a walk that is deeper than the fuel.
def dfs (parent : α → Option α) : ℕ → α → Search α → Option (Search α)
  | 0, _, _ => none
  | fuel + 1, n, s =>
    match s.colour n with
    | .black => some s
    | .grey => some (s.report n)
    | .white =>
      match parent n with
      | none => some ((s.enter n).leave n)
      | some p => (dfs parent fuel p (s.enter n)).map (Search.leave n)

def dfsAll (parent : α → Option α) (fuel : ℕ) (order : List α) : Option (Search α) :=
  order.foldlM (fun s n => dfs parent fuel n s) .start

variable {parent : α → Option α} {nodes : List α} {s s' : Search α} {n p : α}

def whites (nodes : List α) (s : Search α) : ℕ := nodes.countP (fun x => s.colour x = .white)

theorem whites_enter (hn : n ∈ nodes) (hw : s.colour n = .white) :
    whites nodes (s.enter n) < whites nodes s := by
  induction nodes with
  | nil => cases hn
  | cons a nodes ih =>
    have hle : whites nodes (s.enter n) ≤ whites nodes s := by
      refine List.countP_mono_left (fun x _ hx => ?_)
      have hcol : (s.enter n).colour x = .white := of_decide_eq_true hx
      simp only [Search.enter, Search.paint] at hcol
      split_ifs at hcol
      exact decide_eq_true hcol
    rw [whites, whites, List.countP_cons, List.countP_cons]
    by_cases ha : a = n
    · have hgrey : (s.enter n).colour a = .grey := by simp [Search.enter, Search.paint, ha]
      have hwhite : s.colour a = .white := ha ▸ hw
      simp only [hgrey, hwhite]
      exact Nat.lt_succ_of_le hle
    · have hsame : (s.enter n).colour a = s.colour a := by
        simp [Search.enter, Search.paint, ha]
      rw [hsame]
      exact Nat.add_lt_add_right (ih ((List.mem_cons.mp hn).resolve_left (Ne.symm ha))) _

structure Inv (parent : α → Option α) (s : Search α) : Prop where
  grey : ∀ x, s.colour x = .grey ↔ x ∈ s.stack
  black : s.cycles = [] → ∀ x, s.colour x = .black → Grounded parent x
  chain : s.stack.IsChain (Link parent)

omit [DecidableEq α] in
theorem Inv.start : Inv parent (Search.start : Search α) where
  grey := by simp [Search.start]
  black := by simp [Search.start]
  chain := by simp [Search.start]

structure Walked (parent : α → Option α) (n : α) (s s' : Search α) : Prop where
  stack : s'.stack = s.stack
  inv : Inv parent s'
  -- A walk without a report has come to an end of the way up.
  silent : s'.cycles = [] → s.cycles = [] ∧ Grounded parent n
  honest : Grounded parent n → s'.cycles = s.cycles

theorem Inv.enter (h : Inv parent s)
    (hlast : (s.stack ++ [n]).IsChain (Link parent)) : Inv parent (s.enter n) where
  grey x := by
    simp only [Search.enter, Search.paint, List.mem_append, List.mem_singleton, ← h.grey]
    split_ifs with hx
    · simp [hx]
    · simp [hx]
  black hc x hx := by
    simp only [Search.enter, Search.paint] at hc hx
    split_ifs at hx
    exact h.black hc x hx
  chain := hlast

theorem Inv.leave (h : Inv parent s') (hs : s'.stack = s.stack ++ [n]) (hn : n ∉ s.stack)
    (hc : s.stack.IsChain (Link parent)) (hg : s'.cycles = [] → Grounded parent n) :
    Inv parent (s'.leave n) where
  grey x := by
    have hx := h.grey x
    rw [hs] at hx
    simp only [Search.leave, Search.paint, hs, List.dropLast_concat]
    split_ifs with hxn
    · simp [hxn, hn]
    · rw [hx]
      simp [hxn]
  black hcycles x hx := by
    simp only [Search.leave, Search.paint] at hcycles hx
    split_ifs at hx with hxn
    · exact hxn ▸ hg hcycles
    · exact h.black hcycles x hx
  chain := by
    simp only [Search.leave, Search.paint, hs, List.dropLast_concat]
    exact hc

theorem Walked.leave (h : Inv parent s) (hw : s.colour n = .white) (hp : parent n = some p)
    (hwalk : Walked parent p (s.enter n) s') : Walked parent n s (s'.leave n) := by
  have hnot : n ∉ s.stack := by
    rw [← h.grey, hw]
    exact fun hc => by cases hc
  have hground : s'.cycles = [] → Grounded parent n := fun hc => .step hp (hwalk.silent hc).2
  refine ⟨?_, hwalk.inv.leave hwalk.stack hnot h.chain hground, ?_, ?_⟩
  · rw [Search.leave, hwalk.stack]
    exact List.dropLast_concat
  · intro hc
    exact ⟨(hwalk.silent hc).1, hground hc⟩
  · intro hg
    exact hwalk.honest (hg.up hp)

theorem dfs_spec (hclosed : ∀ n ∈ nodes, ∀ p, parent n = some p → p ∈ nodes) {fuel : ℕ}
    (hn : n ∈ nodes) (h : Inv parent s) (hlast : (s.stack ++ [n]).IsChain (Link parent))
    (hfuel : whites nodes s < fuel) :
    ∃ s', dfs parent fuel n s = some s' ∧ Walked parent n s s' := by
  induction fuel generalizing n s with
  | zero => cases hfuel
  | succ fuel ih =>
    cases hcol : s.colour n with
    | black =>
      refine ⟨s, by rw [dfs, hcol], rfl, h, fun hc => ⟨hc, h.black hc n hcol⟩, fun _ => rfl⟩
    | grey =>
      have hcycle := cycle_of_chain hlast ((h.grey n).mp hcol)
      refine ⟨s.report n, by rw [dfs, hcol], rfl, ⟨h.grey, ?_, h.chain⟩, ?_, ?_⟩
      · intro hc
        simp [Search.report] at hc
      · intro hc
        simp [Search.report] at hc
      · intro hg
        exact absurd hcycle hg.not_cycle
    | white =>
      have hnot : n ∉ s.stack := by
        rw [← h.grey, hcol]
        exact fun hc => by cases hc
      have henter := h.enter hlast
      cases hp : parent n with
      | none =>
        refine ⟨(s.enter n).leave n, by rw [dfs, hcol]; dsimp only; rw [hp], ?_, ?_, ?_, ?_⟩
        · exact List.dropLast_concat
        · exact henter.leave rfl hnot h.chain (fun _ => .root hp)
        · exact fun hc => ⟨hc, .root hp⟩
        · exact fun _ => rfl
      | some p =>
        have hchain : ((s.enter n).stack ++ [p]).IsChain (Link parent) := by
          refine List.IsChain.append hlast (List.isChain_singleton p) ?_
          intro x hx y hy
          obtain rfl : n = x := by simpa [Search.enter] using hx
          obtain rfl : p = y := by simpa using hy
          exact hp
        obtain ⟨s', hs', hwalk⟩ := ih (hclosed n hn p hp) henter hchain
          (Nat.lt_of_lt_of_le (whites_enter hn hcol) (Nat.le_of_lt_succ hfuel))
        refine ⟨s'.leave n, ?_, hwalk.leave h hcol hp⟩
        rw [dfs, hcol]
        dsimp only
        rw [hp]
        dsimp only
        rw [hs', Option.map_some]

theorem foldlM_spec (hclosed : ∀ n ∈ nodes, ∀ p, parent n = some p → p ∈ nodes) {fuel : ℕ}
    (hfuel : nodes.length < fuel) (order : List α) (horder : ∀ n ∈ order, n ∈ nodes)
    (h : Inv parent s) (hs : s.stack = []) :
    ∃ s', order.foldlM (fun s n => dfs parent fuel n s) s = some s' ∧
      (s'.cycles = [] ↔ s.cycles = [] ∧ ∀ n ∈ order, Grounded parent n) := by
  induction order generalizing s with
  | nil => exact ⟨s, rfl, by simp⟩
  | cons n order ih =>
    obtain ⟨hn, hrest⟩ := List.forall_mem_cons.mp horder
    have hchain : (s.stack ++ [n]).IsChain (Link parent) := by
      rw [hs]
      exact List.isChain_singleton n
    obtain ⟨t, ht, hwalk⟩ := dfs_spec hclosed hn h hchain
      (Nat.lt_of_le_of_lt List.countP_le_length hfuel)
    obtain ⟨s', hs', hiff⟩ := ih hrest hwalk.inv (hwalk.stack.trans hs)
    refine ⟨s', by rw [List.foldlM_cons, ht]; exact hs', ?_⟩
    rw [hiff, List.forall_mem_cons]
    constructor
    · rintro ⟨hc, hall⟩
      exact ⟨(hwalk.silent hc).1, (hwalk.silent hc).2, hall⟩
    · rintro ⟨hc, hg, hall⟩
      exact ⟨(hwalk.honest hg).trans hc, hall⟩

theorem dfsAll_spec (hclosed : ∀ n ∈ nodes, ∀ p, parent n = some p → p ∈ nodes) {fuel : ℕ}
    (hfuel : nodes.length < fuel) (order : List α) (horder : ∀ n ∈ order, n ∈ nodes) :
    ∃ s, dfsAll parent fuel order = some s ∧
      (s.cycles = [] ↔ ∀ n ∈ order, Grounded parent n) := by
  obtain ⟨s, hs, hiff⟩ := foldlM_spec hclosed hfuel order horder Inv.start rfl
  exact ⟨s, hs, hiff.trans (and_iff_right rfl)⟩

end search

end ParentWalk
