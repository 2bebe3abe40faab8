import Mathlib.Data.List.Sort
import Mathlib.Data.Finset.Basic

structure SortedMap (κ ν : Type) [LinearOrder κ] where
  entries : List (κ × ν)
  sorted : entries.Pairwise (fun a b => a.1 < b.1)

namespace SortedMap

variable {κ ν : Type} [LinearOrder κ]

instance [DecidableEq ν] : DecidableEq (SortedMap κ ν) := fun m n =>
  decidable_of_iff (m.entries = n.entries) (by
    cases m
    cases n
    simp)

def empty : SortedMap κ ν := ⟨[], List.Pairwise.nil⟩

def find (k : κ) : List (κ × ν) → Option ν
  | [] => none
  | (j, v) :: xs => if j = k then some v else find k xs

def get? (m : SortedMap κ ν) (k : κ) : Option ν := find k m.entries

def contains (m : SortedMap κ ν) (k : κ) : Bool := (m.get? k).isSome

def keys (m : SortedMap κ ν) : List κ := m.entries.map Prod.fst

def size (m : SortedMap κ ν) : ℕ := m.entries.length

def insertEntry (k : κ) (v : ν) : List (κ × ν) → List (κ × ν)
  | [] => [(k, v)]
  | (j, w) :: xs =>
    if k < j then (k, v) :: (j, w) :: xs
    else if k = j then (k, v) :: xs
    else (j, w) :: insertEntry k v xs

theorem insertEntry_keys (k : κ) (v : ν) (xs : List (κ × ν)) :
    ∀ e ∈ insertEntry k v xs, e.1 = k ∨ e ∈ xs := by
  induction xs with
  | nil => simp [insertEntry]
  | cons a xs ih =>
    intro e he
    simp only [insertEntry] at he
    split_ifs at he with h1 h2
    · rcases List.mem_cons.mp he with rfl | he
      · exact Or.inl rfl
      · exact Or.inr he
    · rcases List.mem_cons.mp he with rfl | he
      · exact Or.inl rfl
      · exact Or.inr (List.mem_cons_of_mem _ he)
    · rcases List.mem_cons.mp he with rfl | he
      · exact Or.inr List.mem_cons_self
      · exact (ih e he).imp_right (List.mem_cons_of_mem _)

theorem insertEntry_sorted (k : κ) (v : ν) {xs : List (κ × ν)}
    (h : xs.Pairwise (fun a b => a.1 < b.1)) :
    (insertEntry k v xs).Pairwise (fun a b => a.1 < b.1) := by
  induction xs with
  | nil => simp [insertEntry]
  | cons a xs ih =>
    obtain ⟨ha, hxs⟩ := List.pairwise_cons.mp h
    simp only [insertEntry]
    split_ifs with h1 h2
    · refine List.pairwise_cons.mpr ⟨fun e he => ?_, h⟩
      rcases List.mem_cons.mp he with rfl | he
      · exact h1
      · exact h1.trans (ha e he)
    · exact List.pairwise_cons.mpr ⟨fun e he => h2 ▸ ha e he, hxs⟩
    · refine List.pairwise_cons.mpr ⟨fun e he => ?_, ih hxs⟩
      rcases insertEntry_keys k v xs e he with hk | hk
      · rw [hk]
        exact lt_of_le_of_ne (not_lt.mp h1) (Ne.symm h2)
      · exact ha e hk

theorem insertEntry_append {k : κ} {v : ν} {xs : List (κ × ν)} (h : ∀ e ∈ xs, e.1 < k)
    (ys : List (κ × ν)) : insertEntry k v (xs ++ ys) = xs ++ insertEntry k v ys := by
  induction xs with
  | nil => rfl
  | cons e xs ih =>
    obtain ⟨he, hxs⟩ := List.forall_mem_cons.mp h
    rw [List.cons_append, insertEntry, if_neg he.not_gt, if_neg (ne_of_gt he), ih hxs,
      List.cons_append]

def insert (m : SortedMap κ ν) (k : κ) (v : ν) : SortedMap κ ν :=
  ⟨insertEntry k v m.entries, insertEntry_sorted k v m.sorted⟩

def erase (m : SortedMap κ ν) (k : κ) : SortedMap κ ν :=
  ⟨m.entries.filter (fun e => e.1 ≠ k), m.sorted.filter _⟩

def filterKeys (m : SortedMap κ ν) (p : κ → Bool) : SortedMap κ ν :=
  ⟨m.entries.filter (fun e => p e.1), m.sorted.filter _⟩

def insertAll (m : SortedMap κ ν) (xs : List (κ × ν)) : SortedMap κ ν :=
  xs.foldl (fun acc e => acc.insert e.1 e.2) m

def ofList (xs : List (κ × ν)) : SortedMap κ ν := empty.insertAll xs

theorem find_eq_some_iff {xs : List (κ × ν)} (h : xs.Pairwise (fun a b => a.1 < b.1))
    (k : κ) (v : ν) : find k xs = some v ↔ (k, v) ∈ xs := by
  induction xs with
  | nil => simp [find]
  | cons a xs ih =>
    obtain ⟨ha, hxs⟩ := List.pairwise_cons.mp h
    obtain ⟨j, w⟩ := a
    by_cases hj : j = k
    · subst hj
      have hn : ∀ u, (j, u) ∉ xs := fun u hu => lt_irrefl j (ha _ hu)
      simp [find, hn, eq_comm]
    · have hne : k ≠ j := Ne.symm hj
      simp [find, hj, hne, ih hxs]

theorem get?_eq_some_iff {m : SortedMap κ ν} {k : κ} {v : ν} :
    m.get? k = some v ↔ (k, v) ∈ m.entries :=
  find_eq_some_iff m.sorted k v

theorem mem_keys_iff {m : SortedMap κ ν} {k : κ} : k ∈ m.keys ↔ m.contains k = true := by
  simp only [keys, contains, List.mem_map, Option.isSome_iff_exists, get?_eq_some_iff]
  constructor
  · rintro ⟨⟨j, v⟩, h, rfl⟩
    exact ⟨v, h⟩
  · rintro ⟨v, h⟩
    exact ⟨(k, v), h, rfl⟩

theorem keys_nodup (m : SortedMap κ ν) : m.keys.Nodup := by
  have h : m.keys.Pairwise (· < ·) := by
    rw [keys, List.pairwise_map]
    exact m.sorted
  exact h.imp ne_of_lt

theorem entries_nodup (m : SortedMap κ ν) : m.entries.Nodup :=
  m.sorted.imp (fun hab he => absurd (congrArg Prod.fst he) (ne_of_lt hab))

theorem ext {m n : SortedMap κ ν} (h : ∀ k, m.get? k = n.get? k) : m = n := by
  have hmem : ∀ e, e ∈ m.entries ↔ e ∈ n.entries := by
    rintro ⟨k, v⟩
    rw [← get?_eq_some_iff, ← get?_eq_some_iff, h]
  have hperm : m.entries.Perm n.entries :=
    (List.perm_ext_iff_of_nodup m.entries_nodup n.entries_nodup).mpr hmem
  have he : m.entries = n.entries := hperm.eq_of_pairwise
    (fun a b _ _ hab hba => absurd (hab.trans hba) (lt_irrefl a.1)) m.sorted n.sorted
  cases m
  cases n
  simpa using he

@[simp] theorem get?_empty (k : κ) : (empty : SortedMap κ ν).get? k = none := rfl

theorem find_insertEntry (k : κ) (v : ν) (j : κ) (xs : List (κ × ν)) :
    find j (insertEntry k v xs) = if j = k then some v else find j xs := by
  induction xs with
  | nil => simp [insertEntry, find, eq_comm]
  | cons a xs ih =>
    obtain ⟨i, w⟩ := a
    simp only [insertEntry]
    split_ifs with h1 h2 h3 h4 h5
    · simp [find, h2]
    · simp [find, Ne.symm h2]
    · simp [find, h4]
    · subst h3
      simp [find, Ne.symm h4]
    · subst h5
      simp [find, Ne.symm h3, ih]
    · simp [find, ih, h5]

theorem get?_insert (m : SortedMap κ ν) (k j : κ) (v : ν) :
    (m.insert k v).get? j = if j = k then some v else m.get? j :=
  find_insertEntry k v j m.entries

@[simp] theorem get?_insert_self (m : SortedMap κ ν) (k : κ) (v : ν) :
    (m.insert k v).get? k = some v := by
  rw [get?_insert, if_pos rfl]

theorem get?_erase (m : SortedMap κ ν) (k j : κ) :
    (m.erase k).get? j = if j = k then none else m.get? j := by
  apply Option.ext
  intro v
  rw [get?_eq_some_iff]
  split_ifs with h
  · subst h
    simp [erase]
  · rw [get?_eq_some_iff]
    simp [erase, h]

theorem get?_filterKeys (m : SortedMap κ ν) (p : κ → Bool) (k : κ) :
    (m.filterKeys p).get? k = if p k then m.get? k else none := by
  apply Option.ext
  intro v
  rw [get?_eq_some_iff]
  split_ifs with h
  · rw [get?_eq_some_iff]
    simp [filterKeys, h]
  · simp [filterKeys, h]

def map {μ : Type} (f : ν → μ) (m : SortedMap κ ν) : SortedMap κ μ :=
  ⟨m.entries.map (fun e => (e.1, f e.2)), by
    rw [List.pairwise_map]
    exact m.sorted⟩

theorem get?_map {μ : Type} (f : ν → μ) (m : SortedMap κ ν) (k : κ) :
    (m.map f).get? k = (m.get? k).map f := by
  apply Option.ext
  intro v
  rw [get?_eq_some_iff, Option.map_eq_some_iff]
  simp only [map, List.mem_map, Prod.mk.injEq, get?_eq_some_iff]
  constructor
  · rintro ⟨⟨j, w⟩, hm, rfl, rfl⟩
    exact ⟨w, hm, rfl⟩
  · rintro ⟨w, hm, rfl⟩
    exact ⟨(k, w), hm, rfl, rfl⟩

theorem map_insert {μ : Type} (f : ν → μ) (m : SortedMap κ ν) (k : κ) (v : ν) :
    (m.insert k v).map f = (m.map f).insert k (f v) := by
  apply ext
  intro j
  rw [get?_map, get?_insert, get?_insert, get?_map]
  split_ifs <;> rfl

theorem map_erase {μ : Type} (f : ν → μ) (m : SortedMap κ ν) (k : κ) :
    (m.erase k).map f = (m.map f).erase k := by
  apply ext
  intro j
  rw [get?_map, get?_erase, get?_erase, get?_map]
  split_ifs <;> rfl

theorem insert_of_get? {m : SortedMap κ ν} {k : κ} {v : ν} (h : m.get? k = some v) :
    m.insert k v = m := by
  apply ext
  intro j
  rw [get?_insert]
  split_ifs with hj
  · rw [hj, h]
  · rfl

theorem erase_perm {m : SortedMap κ ν} {k : κ} {v : ν} (h : m.get? k = some v) :
    m.entries.Perm ((k, v) :: (m.erase k).entries) := by
  have hnot : (k, v) ∉ (m.erase k).entries := by simp [erase]
  refine (List.perm_ext_iff_of_nodup m.entries_nodup
    (List.nodup_cons.mpr ⟨hnot, (m.erase k).entries_nodup⟩)).mpr (fun e => ?_)
  obtain ⟨j, w⟩ := e
  rw [List.mem_cons, ← get?_eq_some_iff, ← get?_eq_some_iff, get?_erase]
  by_cases hj : j = k
  · subst hj
    simp [h, eq_comm]
  · simp [hj]

theorem insert_perm {m : SortedMap κ ν} {k : κ} (v : ν) (h : m.get? k = none) :
    (m.insert k v).entries.Perm ((k, v) :: m.entries) := by
  have he : (m.insert k v).erase k = m := by
    apply ext
    intro j
    rw [get?_erase, get?_insert]
    split_ifs with hj
    · rw [hj, h]
    · rfl
  have hp := erase_perm (get?_insert_self m k v)
  rwa [he] at hp

theorem contains_insert (m : SortedMap κ ν) (k j : κ) (v : ν) :
    (m.insert k v).contains j = (decide (j = k) || m.contains j) := by
  by_cases h : j = k <;> simp [contains, get?_insert, h]

theorem contains_erase (m : SortedMap κ ν) (k j : κ) :
    (m.erase k).contains j = (!decide (j = k) && m.contains j) := by
  by_cases h : j = k <;> simp [contains, get?_erase, h]

theorem insertAll_cons (m : SortedMap κ ν) (e : κ × ν) (xs : List (κ × ν)) :
    m.insertAll (e :: xs) = (m.insert e.1 e.2).insertAll xs := rfl

theorem contains_insertAll (m : SortedMap κ ν) (xs : List (κ × ν)) (k : κ) :
    (m.insertAll xs).contains k = true ↔ k ∈ xs.map Prod.fst ∨ m.contains k = true := by
  induction xs generalizing m with
  | nil => simp [insertAll]
  | cons e xs ih =>
    rw [insertAll_cons, ih, contains_insert, List.map_cons, List.mem_cons]
    simp only [Bool.or_eq_true, decide_eq_true_eq]
    tauto

theorem mem_of_get?_insertAll {m : SortedMap κ ν}
    {xs : List (κ × ν)} {k : κ} {v : ν} (h : (m.insertAll xs).get? k = some v) :
    (k, v) ∈ xs ∨ m.get? k = some v := by
  induction xs generalizing m with
  | nil => exact Or.inr h
  | cons e xs ih =>
    rcases ih h with hm | hm
    · exact Or.inl (List.mem_cons_of_mem _ hm)
    · rw [get?_insert] at hm
      split_ifs at hm with hk
      · obtain rfl := Option.some.inj hm
        exact Or.inl (hk ▸ List.mem_cons_self)
      · exact Or.inr hm

theorem get?_ofList {xs : List (κ × ν)} (hx : (xs.map Prod.fst).Nodup) {k : κ} {v : ν} :
    (ofList xs).get? k = some v ↔ (k, v) ∈ xs := by
  suffices h : ∀ m : SortedMap κ ν, (∀ j ∈ xs.map Prod.fst, m.get? j = none) →
      ((m.insertAll xs).get? k = some v ↔ (k, v) ∈ xs ∨ m.get? k = some v) by
    have := h empty (fun _ _ => rfl)
    rw [get?_empty] at this
    simpa [ofList] using this
  induction xs with
  | nil => simp [insertAll]
  | cons e xs ih =>
    intro m hm
    rw [List.map_cons, List.nodup_cons] at hx
    have hstep : ∀ j ∈ xs.map Prod.fst, (m.insert e.1 e.2).get? j = none := by
      intro j hj
      rw [get?_insert, if_neg (fun he : j = e.1 => hx.1 (he ▸ hj))]
      exact hm j (List.mem_cons_of_mem _ hj)
    rw [insertAll_cons, ih hx.2 _ hstep, get?_insert, List.mem_cons]
    by_cases hk : k = e.1
    · have hnone : m.get? k = none := hm k (by simp [hk])
      rw [if_pos hk, hnone]
      constructor
      · rintro (h | h)
        · exact Or.inl (Or.inr h)
        · cases h
          exact Or.inl (Or.inl (Prod.ext hk rfl))
      · rintro ((h | h) | h)
        · rw [← h]
          exact Or.inr rfl
        · exact Or.inl h
        · cases h
    · rw [if_neg hk]
      constructor
      · rintro (h | h)
        · exact Or.inl (Or.inr h)
        · exact Or.inr h
      · rintro ((h | h) | h)
        · exact absurd (congrArg Prod.fst h) hk
        · exact Or.inl h
        · exact Or.inr h

end SortedMap
