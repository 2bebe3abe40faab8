import TraceMind.Foundation.BoundedSearch
import TraceMind.Intent.Tree

namespace TraceMind.Intent

open Artifacts (JsonFields sortFields sortTexts)
open Relation (ReflTransGen)

def idRows (items : List Json) : List (Str × (ℕ × JsonFields)) := (objectsOf items).filterMap rowOf

def rowsOf (items : List Json) : List Row :=
  (idRows items).map (fun e => ⟨e.1, e.2.1, e.2.2⟩)

def idsOf (rows : List Row) : List Str := rows.map Row.id

def Parent (rows : List Row) (a b : Str) : Prop :=
  ∃ r ∈ rows, r.id = a ∧ parentLink r.links = .named b

def Leaf (rows : List Row) (id : Str) : Prop := id ∈ idsOf rows ∧ ∀ a, ¬Parent rows a id

def IsRoot (rows : List Row) (r : Row) : Prop := r ∈ rows ∧ parentLink r.links = .root

def ParentOk (rows : List Row) (r : Row) : Prop :=
  parentLink r.links = .root ∨ ∃ p ∈ idsOf rows, parentLink r.links = .named p

def RelatedOk (rows : List Row) (r : Row) : Prop :=
  ∀ v, r.links.lookup "related_intents".toList = some v → ∃ related, v = .arr related ∧
    ∀ w ∈ related, ∃ id, w = .str id ∧ id ≠ [] ∧ id ≠ r.id ∧ id ∈ idsOf rows

structure IsTree (items : List Json) : Prop where
  entries : ∀ v ∈ items, ∃ fields id, v = .obj fields ∧ nonemptyAt "id" fields = some id
  unique : (idsOf (rowsOf items)).Nodup
  parents : ∀ r ∈ rowsOf items, ParentOk (rowsOf items) r
  rooted : ∃ root, IsRoot (rowsOf items) root ∧
    (∀ r, IsRoot (rowsOf items) r → r = root) ∧
    ∀ r ∈ rowsOf items, ReflTransGen (Parent (rowsOf items)) r.id root.id
  related : ∀ r ∈ rowsOf items, RelatedOk (rowsOf items) r
  leaves : ∀ r ∈ rowsOf items, Leaf (rowsOf items) r.id → hasSuccessCriteria r.intent = true

def TreePayload (payload : JsonFields) : Prop :=
  ∃ items, extractIntents payload = some items ∧ IsTree items

section parts

variable {items : List Json} {rows : List Row} {existing : List Str} {r : Row}

theorem filterMap_guard_nil {α β : Type} {xs : List α} {p : α → Bool} {f : α → β} :
    xs.filterMap (fun x => if p x then none else some (f x)) = [] ↔ ∀ x ∈ xs, p x = true := by
  rw [List.filterMap_eq_nil_iff]
  refine forall₂_congr (fun x _ => ?_)
  cases p x <;> simp

theorem length_filterMap_guard {α β : Type} {p : α → Prop} [DecidablePred p] {f : α → β}
    {xs : List α} : (xs.filterMap (fun x => if p x then some (f x) else none)).length =
      (xs.filter (fun x => p x)).length := by
  induction xs with
  | nil => rfl
  | cons x xs ih =>
    rw [List.filterMap_cons, List.filter_cons]
    by_cases hx : p x
    · simpa [hx] using ih
    · simpa [hx] using ih

theorem keys_sublist {α κ β : Type} {g : α → Option (κ × β)} {key : α → κ}
    (h : ∀ x e, g x = some e → e.1 = key x) (xs : List α) :
    ((xs.filterMap g).map Prod.fst).Sublist (xs.map key) := by
  induction xs with
  | nil => exact List.Sublist.refl _
  | cons x xs ih =>
    cases hg : g x with
    | none =>
      rw [List.filterMap_cons_none hg]
      exact ih.cons _
    | some e =>
      rw [List.filterMap_cons_some hg, List.map_cons, List.map_cons, h x e hg]
      exact ih.cons_cons _

theorem zipIdx_of_mem {α : Type} {xs : List α} {x : α} (h : x ∈ xs) : ∃ i, (x, i) ∈ xs.zipIdx := by
  obtain ⟨i, hi⟩ := List.mem_iff_getElem?.mp h
  exact ⟨i, List.mk_mem_zipIdx_iff_getElem?.mpr hi⟩

theorem entryIssues_nil : entryIssues items = [] ↔ ∀ v ∈ items, (asObject v).isSome = true := by
  rw [entryIssues, filterMap_guard_nil]
  constructor
  · intro h v hv
    obtain ⟨i, hi⟩ := zipIdx_of_mem hv
    exact h _ hi
  · intro h e he
    exact h _ (List.fst_mem_of_mem_zipIdx he)

theorem mem_objectsOf {o : ℕ × JsonFields} (h : o ∈ objectsOf items) : .obj o.2 ∈ items := by
  obtain ⟨e, he, ho⟩ := List.mem_filterMap.mp h
  obtain ⟨fields, hf, rfl⟩ := Option.map_eq_some_iff.mp ho
  obtain ⟨v, i⟩ := e
  have hv : v ∈ items := List.fst_mem_of_mem_zipIdx he
  cases v with
  | obj inner =>
    cases hf
    exact hv
  | _ => cases hf

theorem objectsOf_mem {fields : JsonFields} (h : .obj fields ∈ items) :
    ∃ i, (i, fields) ∈ objectsOf items := by
  obtain ⟨i, hi⟩ := zipIdx_of_mem h
  exact ⟨i, List.mem_filterMap.mpr ⟨_, hi, rfl⟩⟩

theorem entries_iff : entryIssues items = [] ∧ idIssues (objectsOf items) = [] ↔
    ∀ v ∈ items, ∃ fields id, v = .obj fields ∧ nonemptyAt "id" fields = some id := by
  rw [entryIssues_nil, idIssues, filterMap_guard_nil]
  constructor
  · rintro ⟨hobj, hid⟩ v hv
    have ho := hobj v hv
    cases v with
    | obj fields =>
      obtain ⟨i, hi⟩ := objectsOf_mem hv
      obtain ⟨id, hid⟩ := Option.isSome_iff_exists.mp (hid _ hi)
      exact ⟨fields, id, rfl, hid⟩
    | _ => cases ho
  · intro h
    refine ⟨fun v hv => ?_, fun o ho => ?_⟩
    · obtain ⟨fields, -, rfl, -⟩ := h v hv
      rfl
    · obtain ⟨fields, id, he, hid⟩ := h _ (mem_objectsOf ho)
      cases he
      rw [hid]
      rfl

theorem idsOf_rowsOf : idsOf (rowsOf items) = (idRows items).map Prod.fst := by
  rw [idsOf, rowsOf, List.map_map]
  rfl

theorem duplicateIssues_nil :
    duplicateIssues (idToRows (objectsOf items)) = [] ↔ (idsOf (rowsOf items)).Nodup := by
  rw [idsOf_rowsOf, ← OrderedDict.group_single, duplicateIssues, List.flatMap_eq_nil_iff]
  refine forall₂_congr (fun e _ => ?_)
  split_ifs with h
  · rw [List.map_eq_nil_iff]
    constructor
    · intro he
      rw [he]
      exact Nat.zero_le 1
    · intro hle
      exact absurd h (Nat.not_lt.mpr hle)
  · exact iff_of_true rfl (Nat.le_of_not_lt h)

theorem existingIds_rowsOf (h : (idsOf (rowsOf items)).Nodup) :
    existingIds (idToRows (objectsOf items)) = idsOf (rowsOf items) := by
  rw [idsOf_rowsOf] at h ⊢
  rw [existingIds, idToRows, ← idRows, OrderedDict.entries_group h, List.map_map]
  rfl

theorem singleRows_rowsOf (h : (idsOf (rowsOf items)).Nodup) :
    singleRows (idToRows (objectsOf items)) = rowsOf items := by
  rw [idsOf_rowsOf] at h
  rw [singleRows, idToRows, ← idRows, OrderedDict.entries_group h, List.filterMap_map, rowsOf,
    ← List.filterMap_eq_map]
  rfl

theorem parentIssues_nil :
    parentIssues (idsOf rows) r = [] ↔ ParentOk rows r := by
  rw [parentIssues, ParentOk]
  cases parentLink r.links with
  | root => simp
  | invalid => simp
  | named p => by_cases hp : p ∈ idsOf rows <;> simp [hp]

theorem relatedIssue_none {e : Json × ℕ} : relatedIssue (idsOf rows) r e = none ↔
    ∃ id, e.1 = .str id ∧ id ≠ [] ∧ id ≠ r.id ∧ id ∈ idsOf rows := by
  obtain ⟨v, i⟩ := e
  rw [relatedIssue]
  cases v with
  | str s =>
    cases s with
    | nil => simp
    | cons c cs =>
      by_cases hself : c :: cs = r.id
      · simp [hself]
      · by_cases hmem : c :: cs ∈ idsOf rows <;> simp [hself, hmem]
  | _ => simp

theorem relatedIssues_nil : relatedIssues (idsOf rows) r = [] ↔ RelatedOk rows r := by
  rw [relatedIssues, RelatedOk]
  cases hl : r.links.lookup "related_intents".toList with
  | none => simp
  | some v =>
    cases v with
    | arr related =>
      simp only [Option.some.injEq, forall_eq', Json.arr.injEq, exists_eq_left']
      rw [List.filterMap_eq_nil_iff]
      constructor
      · intro h w hw
        obtain ⟨i, hi⟩ := zipIdx_of_mem hw
        exact relatedIssue_none.mp (h _ hi)
      · intro h e he
        exact relatedIssue_none.mpr (h _ (List.fst_mem_of_mem_zipIdx he))
    | _ => simp

theorem linkIssues_nil : rows.flatMap (linkIssues (idsOf rows)) = [] ↔
    (∀ r ∈ rows, ParentOk rows r) ∧ ∀ r ∈ rows, RelatedOk rows r := by
  rw [List.flatMap_eq_nil_iff, ← forall₂_and]
  refine forall₂_congr (fun r _ => ?_)
  rw [linkIssues, List.append_eq_nil_iff, parentIssues_nil, relatedIssues_nil]

theorem rootIssues_nil {nodes : List (Str × Str)} : rootIssues nodes = [] ↔ nodes.length = 1 := by
  have hl : (sortFields nodes).length = nodes.length := (Artifacts.sortFields_perm nodes).length_eq
  rw [← hl, rootIssues]
  rcases sortFields nodes with - | ⟨a, - | ⟨b, rest⟩⟩
  · exact iff_of_false (List.cons_ne_nil _ _) (fun h => by cases h)
  · exact iff_of_true rfl rfl
  · exact iff_of_false (List.cons_ne_nil _ _) (fun h => by cases h)

theorem noParentNodes_length :
    (noParentNodes rows).length = (rows.filter (fun r => parentLink r.links = .root)).length :=
  length_filterMap_guard

theorem one_root (h : rows.Nodup) : (noParentNodes rows).length = 1 ↔
    ∃ root, IsRoot rows root ∧ ∀ r, IsRoot rows r → r = root := by
  have hmem : ∀ r, r ∈ rows.filter (fun r => parentLink r.links = .root) ↔ IsRoot rows r := by
    intro r
    rw [List.mem_filter, decide_eq_true_eq]
    rfl
  rw [noParentNodes_length, List.length_eq_one_iff]
  constructor
  · rintro ⟨root, he⟩
    refine ⟨root, (hmem root).mp (he ▸ List.mem_singleton_self root), fun r hr => ?_⟩
    exact List.mem_singleton.mp (he ▸ (hmem r).mpr hr)
  · rintro ⟨root, hroot, huniq⟩
    refine ⟨root, List.perm_singleton.mp ?_⟩
    rw [List.perm_ext_iff_of_nodup (h.filter _) (List.nodup_singleton root)]
    intro r
    rw [hmem, List.mem_singleton]
    exact ⟨huniq r, fun he => he ▸ hroot⟩

end parts

section walk

variable {items : List Json} {rows : List Row} {r : Row} {a b : Str}

theorem row_of_id (hids : (idsOf rows).Nodup) {c : Row} (hr : r ∈ rows) (hc : c ∈ rows)
    (h : r.id = c.id) : r = c := List.inj_on_of_nodup_map hids hr hc h

theorem parentEntry_some {existing : List Str} {e : Str × Str} :
    parentEntry existing r = some e ↔
      e.1 = r.id ∧ parentLink r.links = .named e.2 ∧ e.2 ∈ existing := by
  obtain ⟨a, b⟩ := e
  rw [parentEntry]
  cases parentLink r.links with
  | named p =>
    by_cases hp : p ∈ existing
    · simp only [hp, if_true, Option.some.injEq, Prod.mk.injEq, ParentLink.named.injEq]
      constructor
      · rintro ⟨rfl, rfl⟩
        exact ⟨rfl, rfl, hp⟩
      · rintro ⟨rfl, rfl, -⟩
        exact ⟨rfl, rfl⟩
    · simp only [hp, if_false, ParentLink.named.injEq, reduceCtorEq, false_iff]
      rintro ⟨-, rfl, hb⟩
      exact hp hb
  | _ => simp

theorem lookup_parentOf (hids : (idsOf rows).Nodup) :
    (parentOf (idsOf rows) rows).lookup a = some b ↔ Parent rows a b ∧ b ∈ idsOf rows := by
  have hkeys : ((parentOf (idsOf rows) rows).map Prod.fst).Nodup :=
    hids.sublist (keys_sublist (fun r e h => (parentEntry_some.mp h).1) rows)
  have hmem : (a, b) ∈ parentOf (idsOf rows) rows ↔ Parent rows a b ∧ b ∈ idsOf rows := by
    rw [parentOf, List.mem_filterMap]
    constructor
    · rintro ⟨r, hr, he⟩
      obtain ⟨ha, hl, hb⟩ := parentEntry_some.mp he
      exact ⟨⟨r, hr, ha.symm, hl⟩, hb⟩
    · rintro ⟨⟨r, hr, ha, hl⟩, hb⟩
      exact ⟨r, hr, parentEntry_some.mpr ⟨ha.symm, hl, hb⟩⟩
  rw [← hmem]
  constructor
  · intro h
    obtain ⟨l, m, he, -⟩ := List.lookup_eq_some_iff.mp h
    rw [he]
    exact List.mem_append_right _ List.mem_cons_self
  · exact BoundedSearch.lookup_of_mem hkeys

theorem cyclesOf_some (existing : List Str) (rows : List Row) :
    ∃ cycles, cyclesOf existing (parentOf existing rows) = some cycles ∧
      (cycles = [] ↔ ∀ n ∈ existing,
        ParentWalk.Grounded (fun n => (parentOf existing rows).lookup n) n) := by
  have hclosed : ∀ n ∈ existing, ∀ p, (parentOf existing rows).lookup n = some p →
      p ∈ existing := by
    intro n _ p hp
    obtain ⟨l, m, he, -⟩ := List.lookup_eq_some_iff.mp hp
    have hmem : (n, p) ∈ parentOf existing rows := he ▸ List.mem_append_right _ List.mem_cons_self
    obtain ⟨r, -, hr⟩ := List.mem_filterMap.mp hmem
    exact (parentEntry_some.mp hr).2.2
  have hperm : ∀ n, n ∈ sortTexts existing ↔ n ∈ existing := fun n =>
    (Artifacts.sortTexts_perm existing).mem_iff
  obtain ⟨s, hs, hiff⟩ := ParentWalk.dfsAll_spec hclosed (Nat.lt_succ_self _)
    (sortTexts existing) (fun n hn => (hperm n).mp hn)
  refine ⟨s.cycles, by rw [cyclesOf, hs]; rfl, hiff.trans ?_⟩
  simp only [hperm]

theorem link_iff (hids : (idsOf rows).Nodup) (hparents : ∀ r ∈ rows, ParentOk rows r) :
    ParentWalk.Link (fun n => (parentOf (idsOf rows) rows).lookup n) a b ↔ Parent rows a b := by
  rw [ParentWalk.Link, lookup_parentOf hids]
  refine and_iff_left_of_imp ?_
  rintro ⟨r, hr, -, hl⟩
  rcases hparents r hr with hroot | ⟨p, hp, hnamed⟩
  · cases hroot.symm.trans hl
  · cases hnamed.symm.trans hl
    exact hp

theorem lookup_none_iff (hids : (idsOf rows).Nodup) (hparents : ∀ r ∈ rows, ParentOk rows r)
    (hr : r ∈ rows) :
    (parentOf (idsOf rows) rows).lookup r.id = none ↔ parentLink r.links = .root := by
  rw [← Option.not_isSome_iff_eq_none, Option.isSome_iff_exists, not_exists]
  constructor
  · intro h
    rcases hparents r hr with hroot | ⟨p, hp, hnamed⟩
    · exact hroot
    · exact absurd ((lookup_parentOf hids).mpr ⟨⟨r, hr, rfl, hnamed⟩, hp⟩) (h p)
  · intro hroot p hp
    obtain ⟨⟨c, hc, he, hl⟩, -⟩ := (lookup_parentOf hids).mp hp
    rw [row_of_id hids hc hr he, hroot] at hl
    cases hl

theorem grounded_iff (hids : (idsOf rows).Nodup) (hparents : ∀ r ∈ rows, ParentOk rows r)
    {root : Row} (hroot : IsRoot rows root) (huniq : ∀ r, IsRoot rows r → r = root) :
    (∀ n ∈ idsOf rows,
      ParentWalk.Grounded (fun n => (parentOf (idsOf rows) rows).lookup n) n) ↔
      ∀ r ∈ rows, ReflTransGen (Parent rows) r.id root.id := by
  have hlink : ParentWalk.Link (fun n => (parentOf (idsOf rows) rows).lookup n) = Parent rows :=
    funext (fun a => funext (fun b => propext (link_iff hids hparents)))
  constructor
  · intro h r hr
    obtain ⟨top, htop, hreach⟩ := (h r.id (List.mem_map_of_mem hr)).reaches_root
    have hmem : top ∈ idsOf rows := ParentWalk.reaches_mem
      (fun n _ p hp => ((lookup_parentOf hids).mp hp).2) (List.mem_map_of_mem hr) hreach
    obtain ⟨c, hc, rfl⟩ := List.mem_map.mp hmem
    rw [hlink] at hreach
    rw [← huniq c ⟨hc, (lookup_none_iff hids hparents hc).mp htop⟩]
    exact hreach
  · intro h n hn
    obtain ⟨r, hr, rfl⟩ := List.mem_map.mp hn
    refine .of_reaches ((lookup_none_iff hids hparents hroot.1).mpr hroot.2) ?_
    rw [hlink]
    exact h r hr

theorem mem_parents (hparents : ∀ r ∈ rows, ParentOk rows r) :
    b ∈ (parentOf (idsOf rows) rows).map Prod.snd ↔ ∃ a, Parent rows a b := by
  rw [List.mem_map]
  constructor
  · rintro ⟨e, he, rfl⟩
    obtain ⟨r, hr, hentry⟩ := List.mem_filterMap.mp he
    exact ⟨r.id, r, hr, rfl, (parentEntry_some.mp hentry).2.1⟩
  · rintro ⟨a, r, hr, -, hl⟩
    rcases hparents r hr with hroot | ⟨p, hp, hnamed⟩
    · cases hroot.symm.trans hl
    · cases hnamed.symm.trans hl
      exact ⟨(r.id, b), List.mem_filterMap.mpr ⟨r, hr, parentEntry_some.mpr ⟨rfl, hl, hp⟩⟩, rfl⟩

theorem leafIssues_nil (hparents : ∀ r ∈ rows, ParentOk rows r) :
    leafIssues (parentOf (idsOf rows) rows) rows = [] ↔
      ∀ r ∈ rows, Leaf rows r.id → hasSuccessCriteria r.intent = true := by
  rw [leafIssues, List.filterMap_eq_nil_iff]
  refine forall₂_congr (fun r hr => ?_)
  have hleaf : Leaf rows r.id ↔ r.id ∉ (parentOf (idsOf rows) rows).map Prod.snd := by
    rw [mem_parents hparents, Leaf, not_exists]
    exact and_iff_right (List.mem_map_of_mem hr)
  rw [hleaf]
  by_cases hc : r.id ∈ (parentOf (idsOf rows) rows).map Prod.snd
  · rw [if_pos hc]
    exact iff_of_true rfl (fun hn => absurd hc hn)
  · rw [if_neg hc]
    cases hasSuccessCriteria r.intent <;> simp [hc]

end walk

section verdict

variable {items : List Json} {payload : JsonFields}

theorem validateIntentTree_items (h : extractIntents payload = some items) :
    ∃ issues, validateIntentTree payload = some issues ∧ (issues = [] ↔ IsTree items) := by
  obtain ⟨cycles, hcycles, hground⟩ := cyclesOf_some (existingIds (idToRows (objectsOf items)))
    (singleRows (idToRows (objectsOf items)))
  rw [validateIntentTree, h]
  dsimp only
  rw [hcycles]
  refine ⟨_, rfl, ?_⟩
  rw [← List.length_eq_zero_iff, (List.perm_insertionSort _ _).length_eq, List.length_eq_zero_iff]
  simp only [List.append_eq_nil_iff, List.map_eq_nil_iff]
  rw [entries_iff, duplicateIssues_nil]
  constructor
  · rintro ⟨⟨⟨⟨⟨hentries, hids⟩, hlinks⟩, hroots⟩, hcyc⟩, hleaves⟩
    rw [existingIds_rowsOf hids, singleRows_rowsOf hids] at hlinks hleaves hground
    rw [singleRows_rowsOf hids, rootIssues_nil, one_root (List.Nodup.of_map _ hids)] at hroots
    obtain ⟨hparents, hrelated⟩ := linkIssues_nil.mp hlinks
    obtain ⟨root, hroot, huniq⟩ := hroots
    refine ⟨hentries, hids, hparents, ⟨root, hroot, huniq, ?_⟩, hrelated,
      (leafIssues_nil hparents).mp hleaves⟩
    exact (grounded_iff hids hparents hroot huniq).mp (hground.mp hcyc)
  · rintro ⟨hentries, hids, hparents, ⟨root, hroot, huniq, hreach⟩, hrelated, hleaves⟩
    rw [existingIds_rowsOf hids, singleRows_rowsOf hids] at hground ⊢
    refine ⟨⟨⟨⟨⟨hentries, hids⟩, linkIssues_nil.mpr ⟨hparents, hrelated⟩⟩, ?_⟩, ?_⟩,
      (leafIssues_nil hparents).mpr hleaves⟩
    · rw [rootIssues_nil, one_root (List.Nodup.of_map _ hids)]
      exact ⟨root, hroot, huniq⟩
    · exact hground.mpr ((grounded_iff hids hparents hroot huniq).mpr hreach)

theorem validateIntentTree_iff (payload : JsonFields) :
    (validateIntentTree payload).isSome = true ∧
      (validateIntentTree payload = some [] ↔ TreePayload payload) := by
  cases h : extractIntents payload with
  | none =>
    have hv : validateIntentTree payload =
        some [⟨none, "intents".toList, "missing intents array".toList⟩] := by
      rw [validateIntentTree, h]
    rw [hv]
    refine ⟨rfl, iff_of_false (fun he => by cases he) ?_⟩
    rintro ⟨items, hitems, -⟩
    cases h.symm.trans hitems
  | some items =>
    obtain ⟨issues, hv, hiff⟩ := validateIntentTree_items h
    rw [hv, Option.some.injEq, hiff]
    refine ⟨rfl, fun ht => ⟨items, h, ht⟩, ?_⟩
    rintro ⟨items', hitems, ht⟩
    cases h.symm.trans hitems
    exact ht

end verdict

end TraceMind.Intent
