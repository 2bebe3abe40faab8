import Mathlib.Data.List.Sort
import Mathlib.Data.List.Perm.Basic
import Mathlib.Data.List.TakeWhile

structure PriorityQueue (α : Type) [LinearOrder α] where
  items : List α
  sorted : items.Pairwise (· ≤ ·)

namespace PriorityQueue

variable {α : Type} [LinearOrder α]

def empty : PriorityQueue α := ⟨[], List.Pairwise.nil⟩

def push (q : PriorityQueue α) (a : α) : PriorityQueue α :=
  ⟨q.items.orderedInsert (· ≤ ·) a, q.sorted.orderedInsert a q.items⟩

def pop? (q : PriorityQueue α) : Option (α × PriorityQueue α) :=
  match q with
  | ⟨[], _⟩ => none
  | ⟨a :: xs, h⟩ => some (a, ⟨xs, h.of_cons⟩)

def size (q : PriorityQueue α) : ℕ := q.items.length

theorem push_perm (q : PriorityQueue α) (a : α) : (q.push a).items.Perm (a :: q.items) :=
  List.perm_orderedInsert (· ≤ ·) a q.items

theorem pop?_eq_none {q : PriorityQueue α} (h : q.pop? = none) : q.items = [] := by
  obtain ⟨xs, hx⟩ := q
  cases xs with
  | nil => rfl
  | cons a xs => cases h

theorem pop?_eq_some {q r : PriorityQueue α} {a : α} (h : q.pop? = some (a, r)) :
    q.items = a :: r.items := by
  obtain ⟨xs, hx⟩ := q
  cases xs with
  | nil => cases h
  | cons b xs =>
    cases h
    rfl

theorem push_pop? {q r : PriorityQueue α} {a : α} (h : q.pop? = some (a, r)) :
    r.push a = q := by
  obtain ⟨xs, hx⟩ := q
  cases xs with
  | nil => cases h
  | cons b xs =>
    cases h
    simp only [push, PriorityQueue.mk.injEq]
    cases xs with
    | nil => rfl
    | cons c xs =>
      have hac : a ≤ c := (List.pairwise_cons.mp hx).1 c List.mem_cons_self
      exact List.orderedInsert_cons_of_le (· ≤ ·) xs hac

end PriorityQueue

-- What is read off a list that is sorted by a key, elements with equal keys in the order in which
-- they came.
namespace StableSort

variable {β κ γ : Type} [LinearOrder κ] (key : β → κ)

def sort (l : List β) : List β := l.insertionSort (fun a b => key a ≤ key b)

def Sorted (l : List β) : Prop := l.Pairwise (fun a b => key a ≤ key b)

theorem sort_perm (l : List β) : (sort key l).Perm l := List.perm_insertionSort _ l

theorem sort_sorted (l : List β) : Sorted key (sort key l) := by
  have : IsTrans β (fun a b => key a ≤ key b) := ⟨fun a b c => le_trans⟩
  have : Std.Total (fun a b : β => key a ≤ key b) := ⟨fun a b => le_total (key a) (key b)⟩
  exact List.pairwise_insertionSort _ l

variable {key} {f : β → List γ} {a b : β} {l s t : List β}

def Commutes (f : β → List γ) (a b : β) : Prop := f a ++ f b = f b ++ f a

theorem flatMap_commutes {x : List β} (h : ∀ b ∈ x, Commutes f b a) :
    x.flatMap f ++ f a = f a ++ x.flatMap f := by
  induction x with
  | nil => simp
  | cons b x ih =>
    rw [List.flatMap_cons, List.append_assoc, ih (fun c hc => h c (List.mem_cons_of_mem _ hc)),
      ← List.append_assoc, h b List.mem_cons_self, List.append_assoc]

theorem flatMap_eq_of_perm (hs : Sorted key s) (ht : Sorted key t) (hp : s.Perm t)
    (hc : ∀ a ∈ s, ∀ b ∈ s, key a = key b → Commutes f a b) : s.flatMap f = t.flatMap f := by
  induction s generalizing t with
  | nil => rw [hp.nil_eq]
  | cons a s ih =>
    obtain ⟨x, y, rfl⟩ := List.append_of_mem (hp.subset List.mem_cons_self)
    have hrest : s.Perm (x ++ y) := (hp.trans List.perm_middle).cons_inv
    have hx : ∀ b ∈ x, key b = key a := by
      intro b hb
      have hba : key b ≤ key a := (List.pairwise_append.mp ht).2.2 b hb a List.mem_cons_self
      have hbs : b ∈ s := hrest.symm.subset (List.mem_append_left _ hb)
      exact le_antisymm hba ((List.pairwise_cons.mp hs).1 b hbs)
    have hcomm : ∀ b ∈ x, Commutes f b a := by
      intro b hb
      have hbs : b ∈ s := hrest.symm.subset (List.mem_append_left _ hb)
      exact hc b (List.mem_cons_of_mem _ hbs) a List.mem_cons_self (hx b hb)
    have hxy : Sorted key (x ++ y) := by
      refine ht.sublist ?_
      exact (List.Sublist.refl x).append (List.sublist_cons_self a y)
    have hs' : Sorted key s := (List.pairwise_cons.mp hs).2
    have hc' : ∀ b ∈ s, ∀ c ∈ s, key b = key c → Commutes f b c := fun b hb c hcs =>
      hc b (List.mem_cons_of_mem _ hb) c (List.mem_cons_of_mem _ hcs)
    calc (a :: s).flatMap f = f a ++ (x ++ y).flatMap f := by
          rw [List.flatMap_cons, ih hs' hxy hrest hc']
      _ = (f a ++ x.flatMap f) ++ y.flatMap f := by rw [List.flatMap_append, List.append_assoc]
      _ = (x.flatMap f ++ f a) ++ y.flatMap f := by rw [flatMap_commutes hcomm]
      _ = (x ++ a :: y).flatMap f := by
          rw [List.flatMap_append, List.flatMap_cons, List.append_assoc]

theorem sort_pair (hk : key a = key b) (l : List β) :
    ∃ x y, sort key (a :: b :: l) = x ++ a :: b :: y ∧
      sort key (b :: a :: l) = x ++ b :: a :: y := by
  have hcons : ∀ (c : β) (m : List β), sort key (c :: m) =
      (sort key m).takeWhile (fun e => ¬key c ≤ key e) ++
        c :: (sort key m).dropWhile (fun e => ¬key c ≤ key e) :=
    fun c m => List.insertionSort_cons_eq_take_drop _ c m
  have hstop : ∀ (c d : β), key c = key d → ∀ m : List β,
      sort key (c :: d :: m) = (sort key m).takeWhile (fun e => ¬key d ≤ key e) ++
        c :: d :: (sort key m).dropWhile (fun e => ¬key d ≤ key e) := by
    intro c d hcd m
    have hall : ∀ e ∈ (sort key m).takeWhile (fun e => ¬key d ≤ key e),
        decide (¬key d ≤ key e) = true := fun e he =>
        List.mem_takeWhile_imp (p := fun e => decide (¬key d ≤ key e)) he
    rw [hcons c (d :: m), hcons d m, hcd, List.takeWhile_append_of_pos hall,
      List.dropWhile_append_of_pos hall]
    simp
  refine ⟨_, _, hstop a b hk l, ?_⟩
  rw [hstop b a hk.symm l, hk]

theorem sort_flatMap_iff (f : β → List γ) (l : List β) :
    (∀ l', l'.Perm l → (sort key l').flatMap f = (sort key l).flatMap f) ↔
      ∀ a ∈ l, ∀ b ∈ l, key a = key b → Commutes f a b := by
  constructor
  · intro h a ha b hb hk
    obtain ⟨m, hm⟩ : ∃ m, l.Perm (a :: m) := by
      obtain ⟨x, y, rfl⟩ := List.append_of_mem ha
      exact ⟨x ++ y, List.perm_middle⟩
    rcases List.mem_cons.mp (hm.subset hb) with rfl | hbm
    · rfl
    obtain ⟨r, hr⟩ : ∃ r, m.Perm (b :: r) := by
      obtain ⟨x, y, rfl⟩ := List.append_of_mem hbm
      exact ⟨x ++ y, List.perm_middle⟩
    have hab : (a :: b :: r).Perm l := (hm.trans (hr.cons a)).symm
    obtain ⟨x, y, hx, hy⟩ := sort_pair hk r
    have heq := (h _ hab).trans (h _ ((List.Perm.swap a b r).trans hab)).symm
    rw [hx, hy] at heq
    simp only [List.flatMap_append, List.flatMap_cons] at heq
    have hmid := List.append_cancel_left heq
    rw [← List.append_assoc, ← List.append_assoc] at hmid
    exact List.append_cancel_right hmid
  · intro hc l' hp
    refine flatMap_eq_of_perm (sort_sorted key l') (sort_sorted key l)
      (((sort_perm key l').trans hp).trans (sort_perm key l).symm) (fun a ha b hb => ?_)
    exact hc a (hp.subset ((sort_perm key l').subset ha)) b (hp.subset ((sort_perm key l').subset hb))

theorem perm_of_filterMap {α : Type} {g : α → Option β} {xs : List α} {m : List β}
    (h : m.Perm (xs.filterMap g)) : ∃ ys : List α, ys.Perm xs ∧ ys.filterMap g = m := by
  generalize hl : xs.filterMap g = l at h
  replace h := h.symm
  induction h generalizing xs with
  | nil => exact ⟨xs, List.Perm.refl _, hl⟩
  | @cons x l m _ ih =>
    obtain ⟨u, a, v, rfl, hu, ha, hv⟩ := List.filterMap_eq_cons_iff.mp hl
    obtain ⟨ys, hys, hm⟩ := ih hv
    refine ⟨a :: u ++ ys, ?_, ?_⟩
    · exact ((hys.append_left (a :: u)).trans List.perm_middle.symm)
    · rw [List.cons_append, List.filterMap_cons, ha, List.filterMap_append,
        List.filterMap_eq_nil_iff.mpr hu, hm]
      rfl
  | swap x y l =>
    obtain ⟨u, a, v, rfl, hu, ha, hv⟩ := List.filterMap_eq_cons_iff.mp hl
    obtain ⟨u', b, w, rfl, hu', hb, hw⟩ := List.filterMap_eq_cons_iff.mp hv
    refine ⟨u ++ b :: (u' ++ a :: w), List.Perm.append_left u ?_, ?_⟩
    · calc List.Perm (b :: (u' ++ a :: w)) (b :: a :: (u' ++ w)) := List.perm_middle.cons b
        List.Perm _ (a :: b :: (u' ++ w)) := List.Perm.swap a b _
        List.Perm _ (a :: (u' ++ b :: w)) := List.perm_middle.symm.cons a
    · have hnil : u.filterMap g = [] := List.filterMap_eq_nil_iff.mpr hu
      have hnil' : u'.filterMap g = [] := List.filterMap_eq_nil_iff.mpr hu'
      simp [List.filterMap_append, ha, hb, hnil, hnil', hw]
  | trans _ _ ih₁ ih₂ =>
    obtain ⟨ys, hys, hm⟩ := ih₁ hl
    obtain ⟨zs, hzs, hz⟩ := ih₂ hm
    exact ⟨zs, hzs.trans hys, hz⟩

end StableSort
