import Mathlib.Data.List.Nodup

structure OrderedDict (κ ν : Type) where
  entries : List (κ × ν)
  nodup : (entries.map Prod.fst).Nodup

namespace OrderedDict

variable {κ ν : Type}

def empty : OrderedDict κ ν := ⟨[], List.nodup_nil⟩

def size (d : OrderedDict κ ν) : ℕ := d.entries.length

theorem ext {d e : OrderedDict κ ν} (h : d.entries = e.entries) : d = e := by
  cases d
  cases e
  cases h
  rfl

theorem entries_nodup (d : OrderedDict κ ν) : d.entries.Nodup := List.Nodup.of_map _ d.nodup

def trim (n : ℕ) (d : OrderedDict κ ν) : OrderedDict κ ν :=
  ⟨d.entries.drop (d.size - n), by
    rw [List.map_drop]
    exact d.nodup.sublist (List.drop_sublist ..)⟩

variable [DecidableEq κ]

def find (k : κ) : List (κ × ν) → Option ν
  | [] => none
  | e :: es => if e.1 = k then some e.2 else find k es

def get? (d : OrderedDict κ ν) (k : κ) : Option ν := find k d.entries

def erase (k : κ) (d : OrderedDict κ ν) : OrderedDict κ ν :=
  ⟨d.entries.filter (fun e => e.1 ≠ k),
    d.nodup.sublist ((List.filter_sublist ..).map Prod.fst)⟩

theorem erase_keys (k : κ) (d : OrderedDict κ ν) : k ∉ (d.erase k).entries.map Prod.fst := by
  simp [erase]

def store (k : κ) (v : ν) (d : OrderedDict κ ν) : OrderedDict κ ν :=
  ⟨(d.erase k).entries ++ [(k, v)], by
    rw [List.map_append, List.nodup_append]
    refine ⟨(d.erase k).nodup, by simp, ?_⟩
    intro a ha b hb he
    obtain rfl : b = k := by simpa using hb
    exact erase_keys b d (he ▸ ha)⟩

def modify (k : κ) (f : ν → ν) (d : OrderedDict κ ν) : OrderedDict κ ν :=
  ⟨d.entries.map (fun e => if e.1 = k then (e.1, f e.2) else e), by
    have hkeys : (d.entries.map (fun e => if e.1 = k then (e.1, f e.2) else e)).map Prod.fst =
        d.entries.map Prod.fst := by
      rw [List.map_map]
      refine List.map_congr_left (fun e _ => ?_)
      rw [Function.comp_apply]
      split_ifs <;> rfl
    rw [hkeys]
    exact d.nodup⟩

def mapValues {μ : Type} (f : ν → μ) (d : OrderedDict κ ν) : OrderedDict κ μ :=
  ⟨d.entries.map (fun e => (e.1, f e.2)), by
    rw [List.map_map]
    exact d.nodup⟩

def assign (k : κ) (v : ν) (d : OrderedDict κ ν) : OrderedDict κ ν :=
  if (d.get? k).isSome then d.modify k (fun _ => v) else d.store k v

def moveToEnd (k : κ) (d : OrderedDict κ ν) : OrderedDict κ ν :=
  match d.get? k with
  | none => d
  | some v => d.store k v

section lookup

variable {d : OrderedDict κ ν} {k j : κ} {v : ν}

theorem find_eq_some {es : List (κ × ν)} (h : (es.map Prod.fst).Nodup) :
    find k es = some v ↔ (k, v) ∈ es := by
  induction es with
  | nil => simp [find]
  | cons e es ih =>
    obtain ⟨hnot, hes⟩ := List.nodup_cons.mp h
    rw [find, List.mem_cons]
    split_ifs with hk
    · subst hk
      constructor
      · intro hv
        exact Or.inl (Prod.ext rfl (Option.some.inj hv).symm)
      · rintro (he | hm)
        · rw [← he]
        · exact absurd (List.mem_map_of_mem hm) hnot
    · rw [ih hes]
      constructor
      · exact Or.inr
      · rintro (he | hm)
        · exact absurd (congrArg Prod.fst he).symm hk
        · exact hm

theorem find_eq_none {es : List (κ × ν)} (h : k ∉ es.map Prod.fst) : find k es = none := by
  induction es with
  | nil => rfl
  | cons e es ih =>
    rw [List.map_cons, List.mem_cons, not_or] at h
    rw [find, if_neg (Ne.symm h.1), ih h.2]

theorem get?_eq_some : d.get? k = some v ↔ (k, v) ∈ d.entries := find_eq_some d.nodup

theorem get?_mapValues {μ : Type} (f : ν → μ) (d : OrderedDict κ ν) (k : κ) :
    (d.mapValues f).get? k = (d.get? k).map f := by
  rw [get?, get?, mapValues]
  dsimp only
  induction d.entries with
  | nil => rfl
  | cons e es ih =>
    rw [List.map_cons, find, find, ih]
    split_ifs <;> rfl

theorem mapValues_store {μ : Type} (f : ν → μ) (d : OrderedDict κ ν) (k : κ) (v : ν) :
    (d.store k v).mapValues f = (d.mapValues f).store k (f v) := by
  apply ext
  show (d.entries.filter _ ++ [(k, v)]).map _ = (d.entries.map _).filter _ ++ [(k, f v)]
  rw [List.map_append, List.filter_map]
  rfl

theorem find_append (es fs : List (κ × ν)) :
    find k (es ++ fs) = (find k es).or (find k fs) := by
  induction es with
  | nil => rfl
  | cons e es ih =>
    rw [List.cons_append, find, find]
    split_ifs
    · rfl
    · exact ih

theorem get?_erase (d : OrderedDict κ ν) (k j : κ) :
    (d.erase k).get? j = if j = k then none else d.get? j := by
  rw [get?, get?, erase]
  dsimp only
  induction d.entries with
  | nil => simp [find]
  | cons e es ih =>
    by_cases hk : e.1 = k
    · rw [List.filter_cons_of_neg (by simpa using hk), ih, find]
      split_ifs with hj he
      · rfl
      · exact absurd (he.symm.trans hk) hj
      · rfl
    · rw [List.filter_cons_of_pos (by simpa using hk), find, find, ih]
      split_ifs with he hj
      · exact absurd (he.trans hj) hk
      · rfl
      · rfl
      · rfl

theorem get?_store (d : OrderedDict κ ν) (k j : κ) (v : ν) :
    (d.store k v).get? j = if j = k then some v else d.get? j := by
  rw [get?, store, find_append]
  have he := get?_erase d k j
  rw [get?] at he
  rw [he]
  split_ifs with hj
  · simp [find, hj]
  · simp [find, Ne.symm hj]

theorem find_modify (f : ν → ν) (es : List (κ × ν)) :
    find j (es.map (fun e => if e.1 = k then (e.1, f e.2) else e)) =
      if j = k then (find j es).map f else find j es := by
  induction es with
  | nil => simp [find]
  | cons e es ih =>
    rw [List.map_cons, find, find, ih]
    by_cases he : e.1 = k <;> by_cases hj : e.1 = j
    · subst he hj
      simp
    · rw [if_pos he, if_neg hj, if_neg hj]
    · subst hj
      simp [he]
    · rw [if_neg he, if_neg hj, if_neg hj]

theorem get?_modify (d : OrderedDict κ ν) (k j : κ) (f : ν → ν) :
    (d.modify k f).get? j = if j = k then (d.get? j).map f else d.get? j :=
  find_modify f d.entries

theorem get?_assign (d : OrderedDict κ ν) (k j : κ) (v : ν) :
    (d.assign k v).get? j = if j = k then some v else d.get? j := by
  rw [assign]
  split_ifs with hk hj hj
  · subst hj
    obtain ⟨w, hw⟩ := Option.isSome_iff_exists.mp hk
    rw [get?_modify, if_pos rfl, hw, Option.map_some]
  · rw [get?_modify, if_neg hj]
  · rw [get?_store, if_pos hj]
  · rw [get?_store, if_neg hj]

theorem get?_moveToEnd (d : OrderedDict κ ν) (k j : κ) : (d.moveToEnd k).get? j = d.get? j := by
  unfold moveToEnd
  split
  · rfl
  · rename_i v hv
    rw [get?_store]
    split_ifs with hj
    · rw [hj, hv]
    · rfl

theorem get?_of_trim {n : ℕ} (h : (d.trim n).get? k = some v) : d.get? k = some v :=
  get?_eq_some.mpr (List.mem_of_mem_drop (get?_eq_some.mp h))

theorem get?_trim_of_not_mem {n : ℕ} (h : d.get? k = some v)
    (hkept : (k, v) ∉ d.entries.take (d.size - n)) : (d.trim n).get? k = some v := by
  have hmem := get?_eq_some.mp h
  rw [← List.take_append_drop (d.size - n) d.entries, List.mem_append] at hmem
  exact get?_eq_some.mpr (hmem.resolve_left hkept)

theorem get?_trim_store {n : ℕ} (hn : 0 < n) (d : OrderedDict κ ν) (k : κ) (v : ν) :
    ((d.store k v).trim n).get? k = some v := by
  rw [get?_eq_some]
  simp only [trim, size]
  have hl : (d.store k v).entries.length - n ≤ (d.erase k).entries.length := by
    simp only [store, List.length_append, List.length_singleton]
    omega
  simp only [store] at hl ⊢
  rw [List.drop_append_of_le_length hl]
  exact List.mem_append_right _ List.mem_cons_self

end lookup

section grouping

def values (k : κ) (es : List (κ × ν)) : List ν :=
  es.filterMap (fun e => if e.1 = k then some e.2 else none)

def push (d : OrderedDict κ (List ν)) (e : κ × ν) : OrderedDict κ (List ν) :=
  d.assign e.1 ((d.get? e.1).getD [] ++ [e.2])

def group (es : List (κ × ν)) : OrderedDict κ (List ν) := es.foldl push empty

variable {es : List (κ × ν)} {k : κ}

theorem values_cons (k : κ) (e : κ × ν) (es : List (κ × ν)) :
    values k (e :: es) = if e.1 = k then e.2 :: values k es else values k es := by
  rw [values, List.filterMap_cons]
  split_ifs <;> rfl

theorem get?_foldl_push (d : OrderedDict κ (List ν)) (es : List (κ × ν)) (k : κ) :
    (es.foldl push d).get? k =
      if values k es = [] then d.get? k else some ((d.get? k).getD [] ++ values k es) := by
  induction es generalizing d with
  | nil => rfl
  | cons e es ih =>
    rw [List.foldl_cons, ih, push, get?_assign, values_cons]
    by_cases hk : k = e.1
    · subst hk
      simp only [if_true, Option.getD_some, List.append_assoc, List.singleton_append,
        reduceCtorEq, if_false]
      split_ifs with hv
      · rw [hv]
      · rfl
    · rw [if_neg hk, if_neg (Ne.symm hk)]

theorem get?_group (es : List (κ × ν)) (k : κ) :
    (group es).get? k = if values k es = [] then none else some (values k es) := by
  rw [group, get?_foldl_push]
  rfl

theorem length_values (k : κ) (es : List (κ × ν)) :
    (values k es).length = (es.map Prod.fst).count k := by
  induction es with
  | nil => rfl
  | cons e es ih =>
    rw [values_cons, List.map_cons, List.count_cons, ← ih]
    by_cases hk : e.1 = k
    · simp [hk]
    · simp [hk]

theorem entries_foldl_push (d : OrderedDict κ (List ν)) (es : List (κ × ν))
    (h : (d.entries.map Prod.fst ++ es.map Prod.fst).Nodup) :
    (es.foldl push d).entries = d.entries ++ es.map (fun e => (e.1, [e.2])) := by
  induction es generalizing d with
  | nil => exact (List.append_nil _).symm
  | cons e es ih =>
    have hnot : e.1 ∉ d.entries.map Prod.fst := fun hm =>
      (List.nodup_append.mp h).2.2 _ hm _ (List.mem_map_of_mem List.mem_cons_self) rfl
    have hnone : d.get? e.1 = none := by
      cases hg : d.get? e.1 with
      | none => rfl
      | some v => exact absurd (List.mem_map_of_mem (get?_eq_some.mp hg)) hnot
    have hkept : d.entries.filter (fun x => x.1 ≠ e.1) = d.entries := by
      refine List.filter_eq_self.mpr (fun x hx => ?_)
      rw [decide_eq_true_eq]
      rintro hxe
      exact hnot (hxe ▸ List.mem_map_of_mem hx)
    have hpush : (push d e).entries = d.entries ++ [(e.1, [e.2])] := by
      rw [push, assign, hnone, Option.isSome_none, if_neg Bool.false_ne_true]
      show d.entries.filter _ ++ _ = _
      rw [hkept]
      rfl
    rw [List.foldl_cons, ih, hpush, List.append_assoc]
    · rfl
    · rw [hpush, List.map_append, List.append_assoc]
      exact h

theorem entries_group (h : (es.map Prod.fst).Nodup) :
    (group es).entries = es.map (fun e => (e.1, [e.2])) := entries_foldl_push empty es h

theorem group_single :
    (∀ e ∈ (group es).entries, e.2.length ≤ 1) ↔ (es.map Prod.fst).Nodup := by
  constructor
  · intro h
    refine List.nodup_iff_count_le_one.mpr (fun k => ?_)
    rw [← length_values]
    have hg := get?_group es k
    split_ifs at hg with hv
    · rw [hv]
      exact Nat.zero_le 1
    · exact h _ (get?_eq_some.mp hg)
  · intro h e he
    rw [entries_group h] at he
    obtain ⟨x, -, rfl⟩ := List.mem_map.mp he
    exact Nat.le_refl 1

end grouping

end OrderedDict
