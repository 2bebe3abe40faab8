import TraceMind.Foundation.BoundedSearch
import Mathlib.Data.List.Chain

namespace BoundedSearch

theorem edge_addEdge_iff {es : List (ℕ × List ℕ)} {sid nid i j : ℕ} :
    Edge (addEdge sid nid es) i j ↔ Edge es i j ∨ (i = sid ∧ j = nid) := by
  constructor
  · induction es with
    | nil =>
      rintro ⟨js, hl, hj⟩
      rw [addEdge, List.lookup_cons] at hl
      split at hl
      · rename_i hi
        cases hl
        exact Or.inr ⟨beq_iff_eq.mp hi, List.mem_singleton.mp hj⟩
      · cases hl
    | cons e es ih =>
      obtain ⟨k, ks⟩ := e
      rintro ⟨js, hl, hj⟩
      rw [addEdge] at hl
      by_cases hk : k = sid
      · rw [if_pos hk, List.lookup_cons] at hl
        split at hl
        · rename_i hi
          cases hl
          obtain rfl := beq_iff_eq.mp hi
          rcases List.mem_append.mp hj with hj | hj
          · exact Or.inl ⟨ks, List.lookup_cons_self, hj⟩
          · exact Or.inr ⟨hk, List.mem_singleton.mp hj⟩
        · rename_i hi
          exact Or.inl ⟨js, by rw [List.lookup_cons, hi]; exact hl, hj⟩
      · rw [if_neg hk, List.lookup_cons] at hl
        split at hl
        · rename_i hi
          cases hl
          obtain rfl := beq_iff_eq.mp hi
          exact Or.inl ⟨ks, List.lookup_cons_self, hj⟩
        · rename_i hi
          rcases ih ⟨js, hl, hj⟩ with ⟨js', hl', hj'⟩ | h
          · exact Or.inl ⟨js', by rw [List.lookup_cons, hi]; exact hl', hj'⟩
          · exact Or.inr h
  · rintro (h | ⟨rfl, rfl⟩)
    · exact edge_addEdge h
    · exact edge_added es i j

theorem addEdge_keys {es : List (ℕ × List ℕ)} {sid nid : ℕ} (h : sid ∈ es.map Prod.fst) :
    (addEdge sid nid es).map Prod.fst = es.map Prod.fst := by
  induction es with
  | nil => cases h
  | cons e es ih =>
    rw [addEdge]
    split_ifs with he
    · rfl
    · rw [List.map_cons, List.map_cons, ih]
      exact (List.mem_cons.mp h).resolve_left (Ne.symm he)

theorem addEdge_nodup {es : List (ℕ × List ℕ)} (h : (es.map Prod.fst).Nodup) (sid nid : ℕ) :
    ((addEdge sid nid es).map Prod.fst).Nodup := by
  by_cases hs : sid ∈ es.map Prod.fst
  · rw [addEdge_keys hs]
    exact h
  · rw [addEdge_new hs, List.map_append]
    exact h.append (List.nodup_singleton sid) (by simpa using hs)

theorem addEdge_filled {es : List (ℕ × List ℕ)} (h : ∀ e ∈ es, e.2 ≠ []) (sid nid : ℕ) :
    ∀ e ∈ addEdge sid nid es, e.2 ≠ [] := by
  induction es with
  | nil =>
    intro e he
    rw [List.mem_singleton.mp he]
    exact List.cons_ne_nil _ _
  | cons e es ih =>
    obtain ⟨he, hes⟩ := List.forall_mem_cons.mp h
    rw [addEdge]
    split_ifs
    · have hne : e.2 ++ [nid] ≠ [] := List.append_ne_nil_of_right_ne_nil _ (List.cons_ne_nil _ _)
      exact List.forall_mem_cons.mpr ⟨hne, hes⟩
    · exact List.forall_mem_cons.mpr ⟨he, ih hes⟩

theorem lookup_addEdge {es : List (ℕ × List ℕ)} {sid nid i : ℕ} (h : i ≠ sid) :
    (addEdge sid nid es).lookup i = es.lookup i := by
  induction es with
  | nil => rw [addEdge, List.lookup_cons, beq_false_of_ne h]
  | cons e es ih =>
    rw [addEdge]
    split_ifs with he
    · rw [List.lookup_cons, List.lookup_cons, he, beq_false_of_ne h]
    · rw [List.lookup_cons, List.lookup_cons, ih]

-- What the source's `edges` is: a dictionary whose lists are never empty.
structure EdgeTable (es : List (ℕ × List ℕ)) : Prop where
  nodup : (es.map Prod.fst).Nodup
  filled : ∀ e ∈ es, e.2 ≠ []

theorem EdgeTable.addEdge {es : List (ℕ × List ℕ)} (h : EdgeTable es) (sid nid : ℕ) :
    EdgeTable (addEdge sid nid es) :=
  ⟨addEdge_nodup h.nodup sid nid, addEdge_filled h.filled sid nid⟩

theorem lookup_setDefault {α : Type} {d : List (ℕ × α)} {k j : ℕ} {v w : α}
    (h : (setDefault k v d).lookup j = some w) : d.lookup j = some w ∨ (j = k ∧ w = v) := by
  rw [setDefault] at h
  split_ifs at h
  · exact Or.inl h
  · rw [List.lookup_append, Option.or_eq_some_iff] at h
    rcases h with h | ⟨-, h⟩
    · exact Or.inl h
    · rw [List.lookup_cons] at h
      split at h
      · rename_i hj
        cases h
        exact Or.inr ⟨beq_iff_eq.mp hj, rfl⟩
      · cases h

theorem lookup_setDefault_of_some {α : Type} {d : List (ℕ × α)} {k j : ℕ} {v w : α}
    (h : d.lookup j = some w) : (setDefault k v d).lookup j = some w := by
  rw [setDefault]
  split_ifs
  · exact h
  · rw [List.lookup_append, h, Option.some_or]

theorem lookup_setDefault_new {α : Type} {d : List (ℕ × α)} {k : ℕ} (v : α)
    (h : d.lookup k = none) : (setDefault k v d).lookup k = some v := by
  rw [setDefault, h]
  change (d ++ [(k, v)]).lookup k = some v
  rw [List.lookup_append, h, Option.none_or, List.lookup_cons_self]

section layers

variable {μ X L κ E : Type}

def Search.depth (s : Search X L κ) (i : ℕ) : ℕ := (s.depths.lookup i).getD 0

-- The states are numbered in the order in which they were found, `served` of them have left the
-- queue, and the predecessors of the others than the root form a tree.
structure Layered (s : Search X L κ) (served : ℕ) : Prop where
  pos : 0 < s.states.length
  le : served ≤ s.states.length
  keys : s.depths.map Prod.fst = List.range s.states.length
  queue : s.queue.map Prod.fst = (List.range s.states.length).drop served
  waiting : ∀ e ∈ s.queue, s.states[e.1]? = some e.2
  seen : ∀ e ∈ s.seen, e.2 < s.states.length
  table : EdgeTable s.edges
  root : s.depth 0 = 0
  mono : ∀ i j, i ≤ j → j < s.states.length → s.depth i ≤ s.depth j
  near : ∀ i j, served ≤ i → i < s.states.length → j < s.states.length →
    s.depth j ≤ s.depth i + 1
  edge : ∀ i j, Edge s.edges i j →
    i < served ∧ j < s.states.length ∧ s.depth j ≤ s.depth i + 1
  preds : ∀ j i l, s.predecessors.lookup j = some (i, l) → Edge s.edges i j
  tree : ∀ j, 0 < j → j < s.states.length →
    ∃ i l, s.predecessors.lookup j = some (i, l) ∧ s.depth j = s.depth i + 1

-- What holds while the successors of the state `sid` are visited.
structure Serving (s : Search X L κ) (served sid depth : ℕ) : Prop where
  layered : Layered s served
  lt : sid < served
  depth_eq : s.depth sid = depth
  top : ∀ j, j < s.states.length → s.depth j ≤ depth + 1

variable {P : Space μ X L κ E} {s : Search X L κ} {sid depth served : ℕ}

theorem Serving.le (h : Serving s served sid depth) : served ≤ s.states.length := h.layered.le

theorem Layered.lookup_new (h : Layered s served) :
    s.predecessors.lookup s.states.length = none := by
  cases hl : s.predecessors.lookup s.states.length with
  | none => rfl
  | some v => exact absurd (h.edge _ _ (h.preds _ v.1 v.2 hl)).2.1 (lt_irrefl _)

section found

variable {x : X} {k : κ}

def found (s : Search X L κ) (depth : ℕ) (x : X) (k : κ) : Search X L κ :=
  { s with
    states := s.states ++ [x]
    seen := s.seen ++ [(k, s.states.length)]
    depths := s.depths ++ [(s.states.length, depth + 1)]
    queue := s.queue ++ [(s.states.length, x)] }

theorem found_length : (found s depth x k).states.length = s.states.length + 1 :=
  List.length_append

theorem found_depth_old {i : ℕ} (hi : i < s.states.length) :
    (found s depth x k).depth i = s.depth i := by
  have hne : i ≠ s.states.length := ne_of_lt hi
  simp only [Search.depth, found, List.lookup_append]
  rw [List.lookup_cons, beq_false_of_ne hne, List.lookup_nil, Option.or_none]

theorem Layered.found_depth_new (h : Layered s served) :
    (found s depth x k).depth s.states.length = depth + 1 := by
  have hnone : s.depths.lookup s.states.length = none := by
    refine lookup_none_of_not_mem ?_
    rw [h.keys, List.mem_range]
    exact lt_irrefl _
  simp only [Search.depth, found, List.lookup_append, hnone, List.lookup_cons_self, Option.none_or,
    Option.getD_some]

theorem Serving.discover (h : Serving s served sid depth) (x : X) (k : κ) (l : L) :
    Serving { found s depth x k with
      edges := addEdge sid s.states.length s.edges
      predecessors := setDefault s.states.length (sid, l) s.predecessors } served sid depth := by
  have hl := h.layered
  have hlen : (found s depth x k).states.length = s.states.length + 1 := found_length
  have hsid : sid < s.states.length := lt_of_lt_of_le h.lt h.le
  have hold {i : ℕ} (hi : i < s.states.length) : (found s depth x k).depth i = s.depth i :=
    found_depth_old hi
  have hnew : (found s depth x k).depth s.states.length = depth + 1 := hl.found_depth_new
  have hsplit {j : ℕ} (hj : j < s.states.length + 1) : j < s.states.length ∨ j = s.states.length :=
    Nat.lt_succ_iff_lt_or_eq.mp hj
  have hle {j : ℕ} (hj : j < s.states.length + 1) :
      (found s depth x k).depth j ≤ depth + 1 := by
    rcases hsplit hj with hj | rfl
    · rw [hold hj]
      exact h.top j hj
    · exact le_of_eq hnew
  have hwait {i : ℕ} (hi : served ≤ i) (hi' : i < s.states.length + 1) :
      depth ≤ (found s depth x k).depth i := by
    rcases hsplit hi' with hi' | rfl
    · rw [hold hi', ← h.depth_eq]
      exact hl.mono sid i (le_of_lt (lt_of_lt_of_le h.lt hi)) hi'
    · rw [hnew]
      exact Nat.le_succ depth
  refine ⟨⟨?_, ?_, ?_, ?_, ?_, ?_, hl.table.addEdge _ _, ?_, ?_, ?_, ?_, ?_, ?_⟩, h.lt,
    (hold hsid).trans h.depth_eq, fun j hj => hle (hlen ▸ hj)⟩
  · exact lt_of_lt_of_le hl.pos (hlen ▸ Nat.le_succ _)
  · exact h.le.trans (hlen ▸ Nat.le_succ _)
  · change (s.depths ++ [(s.states.length, depth + 1)]).map Prod.fst = List.range _
    rw [hlen, List.range_succ, List.map_append, hl.keys]
    rfl
  · change (s.queue ++ [(s.states.length, x)]).map Prod.fst = (List.range _).drop served
    rw [hlen, List.range_succ, List.map_append, hl.queue,
      List.drop_append_of_le_length (by rw [List.length_range]; exact h.le)]
    rfl
  · intro e he
    rcases List.mem_append.mp he with he | he
    · have hget := hl.waiting e he
      exact (List.getElem?_append_left (List.getElem?_eq_some_iff.mp hget).1).trans hget
    · rw [List.mem_singleton.mp he]
      exact List.getElem?_concat_length
  · intro e he
    refine hlen ▸ ?_
    rcases List.mem_append.mp he with he | he
    · exact Nat.lt_succ_of_lt (hl.seen e he)
    · rw [List.mem_singleton.mp he]
      exact Nat.lt_succ_self _
  · exact (hold hl.pos).trans hl.root
  · intro i j hij hj
    rcases hsplit (hlen ▸ hj) with hj | rfl
    · change (found s depth x k).depth i ≤ (found s depth x k).depth j
      rw [hold hj, hold (lt_of_le_of_lt hij hj)]
      exact hl.mono i j hij hj
    · exact (hle (Nat.lt_succ_of_le hij)).trans (le_of_eq hnew.symm)
  · intro i j hi hi' hj
    exact (hle (hlen ▸ hj)).trans (Nat.succ_le_succ (hwait hi (hlen ▸ hi')))
  · intro i j he
    rcases edge_addEdge_iff.mp he with he | ⟨rfl, rfl⟩
    · obtain ⟨hi, hj, hd⟩ := hl.edge i j he
      refine ⟨hi, hlen ▸ Nat.lt_succ_of_lt hj, ?_⟩
      change (found s depth x k).depth j ≤ (found s depth x k).depth i + 1
      rw [hold hj, hold (lt_of_lt_of_le hi h.le)]
      exact hd
    · refine ⟨h.lt, hlen ▸ Nat.lt_succ_self _, ?_⟩
      change (found s depth x k).depth s.states.length ≤
        (found s depth x k).depth i + 1
      rw [hnew, hold hsid, h.depth_eq]
  · intro j i l' hlook
    rcases lookup_setDefault hlook with hlook | ⟨rfl, hv⟩
    · exact edge_addEdge (hl.preds j i l' hlook)
    · cases hv
      exact edge_added _ _ _
  · intro j hj hj'
    rcases hsplit (hlen ▸ hj') with hj' | rfl
    · obtain ⟨i, l', hlook, hd⟩ := hl.tree j hj hj'
      have hi := (hl.edge i j (hl.preds j i l' hlook)).1
      refine ⟨i, l', lookup_setDefault_of_some hlook, ?_⟩
      change (found s depth x k).depth j = (found s depth x k).depth i + 1
      rw [hold hj', hold (lt_of_lt_of_le hi h.le)]
      exact hd
    · refine ⟨sid, l, lookup_setDefault_new _ hl.lookup_new, ?_⟩
      change (found s depth x k).depth s.states.length =
        (found s depth x k).depth sid + 1
      rw [hnew, hold hsid, h.depth_eq]

end found

theorem Serving.known (h : Serving s served sid depth) {nid : ℕ} (hn : nid < s.states.length)
    (l : L) : Serving { s with
      edges := addEdge sid nid s.edges
      predecessors := setDefault nid (sid, l) s.predecessors } served sid depth := by
  have hl := h.layered
  refine ⟨⟨hl.pos, hl.le, hl.keys, hl.queue, hl.waiting, hl.seen, hl.table.addEdge _ _, hl.root,
    hl.mono, hl.near, ?_, ?_, ?_⟩, h.lt,
    h.depth_eq, h.top⟩
  · intro i j he
    rcases edge_addEdge_iff.mp he with he | ⟨rfl, rfl⟩
    · exact hl.edge i j he
    · refine ⟨h.lt, hn, (h.top j hn).trans ?_⟩
      exact Nat.succ_le_succ (le_of_eq h.depth_eq.symm)
  · intro j i l' hlook
    rcases lookup_setDefault hlook with hlook | ⟨rfl, hv⟩
    · exact edge_addEdge (hl.preds j i l' hlook)
    · cases hv
      exact edge_added _ _ _
  · intro j hj hj'
    obtain ⟨i, l', hlook, hd⟩ := hl.tree j hj hj'
    exact ⟨i, l', lookup_setDefault_of_some hlook, hd⟩

theorem Layered.note (h : Layered s served) (m : μ) (sid : ℕ) (st : X)
    (succ : List (L × X)) : Layered (noteDeadlock P m sid st succ s) served := by
  rw [noteDeadlock]
  split_ifs
  · exact ⟨h.pos, h.le, h.keys, h.queue, h.waiting, h.seen, h.table, h.root, h.mono, h.near, h.edge,
      h.preds, h.tree⟩
  · exact h

theorem noteDeadlock_fields (P : Space μ X L κ E) (m : μ) (sid : ℕ) (st : X)
    (succ : List (L × X)) (s : Search X L κ) :
    (noteDeadlock P m sid st succ s).states = s.states ∧
      (noteDeadlock P m sid st succ s).depths = s.depths ∧
      (noteDeadlock P m sid st succ s).edges = s.edges := by
  rw [noteDeadlock]
  split_ifs <;> exact ⟨rfl, rfl, rfl⟩

theorem Layered.pop (h : Layered s served) {st : X} {q : List (ℕ × X)}
    (hq : s.queue = (sid, st) :: q) :
    sid = served ∧ sid < s.states.length ∧ Layered { s with queue := q } (served + 1) := by
  have hqueue := h.queue
  rw [hq, List.map_cons] at hqueue
  have hlt : served < s.states.length := by
    by_contra hge
    rw [List.drop_eq_nil_of_le (by rw [List.length_range]; exact not_lt.mp hge)] at hqueue
    cases hqueue
  have hrange : served < (List.range s.states.length).length := by
    rw [List.length_range]
    exact hlt
  rw [List.drop_eq_getElem_cons hrange, List.getElem_range] at hqueue
  obtain ⟨hsid, hrest⟩ := List.cons.inj hqueue
  subst hsid
  refine ⟨rfl, hlt, ⟨h.pos, hlt, h.keys, hrest, ?_, h.seen, h.table, h.root, h.mono, ?_, ?_,
    h.preds, h.tree⟩⟩
  · exact fun e he => h.waiting e (hq ▸ List.mem_cons_of_mem _ he)
  · exact fun i j hi => h.near i j (Nat.le_of_succ_le hi)
  · intro i j he
    obtain ⟨hi, hj, hd⟩ := h.edge i j he
    exact ⟨Nat.lt_succ_of_lt hi, hj, hd⟩

theorem Layered.queue_length (h : Layered s served) :
    s.queue.length = s.states.length - served := by
  rw [← List.length_map (f := Prod.fst), h.queue, List.length_drop, List.length_range]

-- What serving the state `sid` adds: states one level deeper, and edges of `sid`.
structure Serves (sid depth : ℕ) (s s' : Search X L κ) : Prop where
  states : s.states <+: s'.states
  old : ∀ i, i < s.states.length → s'.depth i = s.depth i
  new : ∀ i, s.states.length ≤ i → i < s'.states.length → s'.depth i = depth + 1
  edges : ∀ i, i ≠ sid → s'.edges.lookup i = s.edges.lookup i

theorem Serves.refl (sid depth : ℕ) (s : Search X L κ) : Serves sid depth s s :=
  ⟨List.prefix_rfl, fun _ _ => rfl, fun _ hi hi' => absurd hi' (not_lt.mpr hi), fun _ _ => rfl⟩

theorem Serves.trans {s t u : Search X L κ} (h : Serves sid depth s t)
    (h' : Serves sid depth t u) : Serves sid depth s u where
  states := h.states.trans h'.states
  old := fun i hi => (h'.old i (lt_of_lt_of_le hi h.states.length_le)).trans (h.old i hi)
  new := fun i hi hi' => by
    rcases lt_or_ge i t.states.length with hlt | hge
    · rw [h'.old i hlt]
      exact h.new i hi hlt
    · exact h'.new i hge hi'
  edges := fun i hi => (h'.edges i hi).trans (h.edges i hi)

section run

variable [DecidableEq κ]

theorem Serving.visit (h : Serving s served sid depth) (P : Space μ X L κ E) (e : L × X) :
    Serving (visit P sid depth s e) served sid depth ∧
      Serves sid depth s (visit P sid depth s e) := by
  cases hl : s.seen.lookup (P.key e.2) with
  | some nid =>
    have hvisit : BoundedSearch.visit P sid depth s e = { s with
        edges := addEdge sid nid s.edges
        predecessors := setDefault nid (sid, e.1) s.predecessors } := by
      simp only [BoundedSearch.visit, enqueue, hl]
    rw [hvisit]
    obtain ⟨before, after, hseen, -⟩ := List.lookup_eq_some_iff.mp hl
    have hmem : (P.key e.2, nid) ∈ s.seen := hseen ▸ List.mem_append_right _ List.mem_cons_self
    refine ⟨h.known (h.layered.seen _ hmem) e.1, List.prefix_rfl, fun _ _ => rfl, ?_, ?_⟩
    · exact fun i hi hi' => absurd hi' (not_lt.mpr hi)
    · exact fun i hi => lookup_addEdge hi
  | none =>
    have hvisit : BoundedSearch.visit P sid depth s e =
        { found s depth e.2 (P.key e.2) with
          edges := addEdge sid s.states.length s.edges
          predecessors := setDefault s.states.length (sid, e.1) s.predecessors } := by
      simp only [BoundedSearch.visit, enqueue, hl, found]
    rw [hvisit]
    refine ⟨h.discover e.2 (P.key e.2) e.1, List.prefix_append _ _, ?_, ?_, ?_⟩
    · exact fun i hi => found_depth_old (x := e.2) (k := P.key e.2) hi
    · intro i hi hi'
      have hlt : i < (found s depth e.2 (P.key e.2)).states.length := hi'
      rw [found_length] at hlt
      obtain rfl : i = s.states.length := le_antisymm (Nat.le_of_lt_succ hlt) hi
      exact h.layered.found_depth_new (x := e.2) (k := P.key e.2)
    · exact fun i hi => lookup_addEdge hi

theorem Serving.visitAll (h : Serving s served sid depth) (es : List (L × X)) :
    Serving (es.foldl (BoundedSearch.visit P sid depth) s) served sid depth ∧
      Serves sid depth s (es.foldl (BoundedSearch.visit P sid depth) s) := by
  induction es generalizing s with
  | nil => exact ⟨h, .refl sid depth s⟩
  | cons e es ih =>
    obtain ⟨h1, hs1⟩ := h.visit P e
    obtain ⟨h2, hs2⟩ := ih h1
    exact ⟨h2, hs1.trans hs2⟩

theorem Layered.step {x y : μ × Search X L κ} (h : Layered x.2 served) (hs : step P x = .ok y) :
    (x.2.states.length ≤ served ∧ y = x) ∨
    (served < x.2.states.length ∧ Layered y.2 (served + 1) ∧
      Serves served (x.2.depth served) x.2 y.2 ∧
      (x.2.states.length < y.2.states.length → x.2.depth served < P.bound)) := by
  rw [BoundedSearch.step] at hs
  cases hq : x.2.queue with
  | nil =>
    rw [hq] at hs
    cases hs
    refine Or.inl ⟨?_, rfl⟩
    have hqueue := h.queue
    rw [hq, List.map_nil, eq_comm, List.drop_eq_nil_iff, List.length_range] at hqueue
    exact hqueue
  | cons e q =>
    obtain ⟨sid, st⟩ := e
    obtain ⟨rfl, hlt, hpop⟩ := h.pop hq
    rw [hq] at hs
    dsimp only at hs
    refine Or.inr ⟨hlt, ?_⟩
    split_ifs at hs with hb
    · cases hs
      obtain ⟨hstates, hdepths, hedges⟩ :=
        noteDeadlock_fields P x.1 sid st [] { x.2 with queue := q }
      refine ⟨hpop.note x.1 sid st [], ⟨?_, ?_, ?_, ?_⟩, ?_⟩
      · rw [hstates]
      · intro i _
        rw [Search.depth, hdepths]
        rfl
      · intro i hi hi'
        rw [hstates] at hi'
        exact absurd hi' (not_lt.mpr hi)
      · intro i _
        rw [hedges]
      · intro hmore
        rw [hstates] at hmore
        exact absurd hmore (lt_irrefl _)
    · cases hsucc : P.succ x.1 st with
      | error e =>
        rw [hsucc] at hs
        cases hs
      | ok r =>
        rw [hsucc] at hs
        cases hs
        obtain ⟨hstates, hdepths, hedges⟩ :=
          noteDeadlock_fields P r.2 sid st r.1 { x.2 with queue := q }
        have hserving : Serving (noteDeadlock P r.2 sid st r.1 { x.2 with queue := q }) (sid + 1)
            sid (x.2.depth sid) := by
          refine ⟨hpop.note r.2 sid st r.1, Nat.lt_succ_self sid, ?_, fun j hj => ?_⟩
          · rw [Search.depth, hdepths]
            rfl
          · rw [hstates] at hj
            rw [Search.depth, hdepths]
            exact h.near sid j (le_refl sid) hlt hj
        obtain ⟨hall, hserves⟩ := hserving.visitAll (P := P) r.1
        have hnote : Serves sid (x.2.depth sid) x.2
            (noteDeadlock P r.2 sid st r.1 { x.2 with queue := q }) := by
          refine ⟨?_, ?_, ?_, ?_⟩
          · rw [hstates]
          · intro i _
            rw [Search.depth, hdepths]
            rfl
          · intro i hi hi'
            rw [hstates] at hi'
            exact absurd hi' (not_lt.mpr hi)
          · intro i _
            rw [hedges]
        exact ⟨hall.layered, hnote.trans hserves, fun _ => not_le.mp hb⟩

-- What later steps keep of a search of which `served` states have left the queue.
structure Follows (served : ℕ) (s s' : Search X L κ) : Prop where
  states : s.states <+: s'.states
  old : ∀ i, i < s.states.length → s'.depth i = s.depth i
  edges : ∀ i, i < served → s'.edges.lookup i = s.edges.lookup i

theorem Layered.steps {n : ℕ} {x y : μ × Search X L κ} (h : Layered x.2 served)
    (hs : steps P n x = .ok y) : Follows served x.2 y.2 := by
  induction n generalizing x served with
  | zero =>
    cases hs
    exact ⟨List.prefix_rfl, fun _ _ => rfl, fun _ _ => rfl⟩
  | succ n ih =>
    rw [BoundedSearch.steps] at hs
    cases hstep : BoundedSearch.step P x with
    | error e =>
      rw [hstep] at hs
      cases hs
    | ok z =>
      rw [hstep] at hs
      rcases h.step hstep with ⟨-, rfl⟩ | ⟨-, hz, hserves, -⟩
      · exact ih h hs
      · obtain ⟨hstates, hold, hedges⟩ := ih hz hs
        refine ⟨hserves.states.trans hstates, fun i hi => ?_, fun i hi => ?_⟩
        · rw [hold i (lt_of_lt_of_le hi hserves.states.length_le), hserves.old i hi]
        · rw [hedges i (Nat.lt_succ_of_lt hi), hserves.edges i (ne_of_lt hi)]

theorem Layered.round {k : ℕ} {x y : μ × Search X L κ} (h : Layered x.2 served)
    (hk : served + k ≤ x.2.states.length) (hs : BoundedSearch.steps P k x = .ok y) :
    Layered y.2 (served + k) ∧
      ∀ i, x.2.states.length ≤ i → i < y.2.states.length →
        ∃ j, served ≤ j ∧ j < served + k ∧ y.2.depth i = x.2.depth j + 1 ∧
          x.2.depth j < P.bound := by
  induction k generalizing x served with
  | zero =>
    cases hs
    exact ⟨h, fun i hi hi' => absurd hi' (not_lt.mpr hi)⟩
  | succ k ih =>
    have hlt : served < x.2.states.length := by omega
    rw [BoundedSearch.steps] at hs
    cases hstep : BoundedSearch.step P x with
    | error e =>
      rw [hstep] at hs
      cases hs
    | ok z =>
      rw [hstep] at hs
      rcases h.step hstep with ⟨hle, -⟩ | ⟨-, hz, hserves, hbound⟩
      · exact absurd hlt (not_lt.mpr hle)
      · have hlen := hserves.states.length_le
        obtain ⟨hy, hnew⟩ := ih hz (by omega) hs
        have hfollows := hz.steps hs
        refine ⟨by rwa [Nat.add_assoc, Nat.add_comm 1 k] at hy, fun i hi hi' => ?_⟩
        rcases lt_or_ge i z.2.states.length with hiz | hiz
        · refine ⟨served, le_refl served, by omega, ?_, hbound (lt_of_le_of_lt hi hiz)⟩
          rw [hfollows.old i hiz, hserves.new i hi hiz]
        · obtain ⟨j, hj, hj', hd, hb⟩ := hnew i hiz hi'
          rw [hserves.old j (by omega)] at hd hb
          exact ⟨j, by omega, by omega, hd, hb⟩

structure Level (bound n : ℕ) (s : Search X L κ) : Prop where
  bounded : ∀ i, i < s.states.length → s.depth i ≤ bound
  waiting : ∃ served, Layered s served ∧
    ∀ i, served ≤ i → i < s.states.length → n ≤ s.depth i

theorem Level.round {n : ℕ} {x y : μ × Search X L κ} (h : Level P.bound n x.2)
    (hs : BoundedSearch.steps P x.2.queue.length x = .ok y) : Level P.bound (n + 1) y.2 := by
  obtain ⟨served, hl, hw⟩ := h.waiting
  have hle := hl.le
  rw [hl.queue_length] at hs
  obtain ⟨hy, hnew⟩ := hl.round (by omega) hs
  have hfollows := hl.steps hs
  refine ⟨fun i hi => ?_, _, hy, fun i hi hi' => ?_⟩
  · rcases lt_or_ge i x.2.states.length with hx | hx
    · rw [hfollows.old i hx]
      exact h.bounded i hx
    · obtain ⟨j, -, -, hd, hb⟩ := hnew i hx hi
      rw [hd]
      exact hb
  · obtain ⟨j, hj, hj', hd, -⟩ := hnew i (by omega) hi'
    rw [hd]
    exact Nat.succ_le_succ (hw j hj (by omega))

theorem Level.rounds {n k : ℕ} {x y : μ × Search X L κ} (h : Level P.bound n x.2)
    (hs : levels P k x = .ok y) : Level P.bound (n + k) y.2 := by
  induction k generalizing x n with
  | zero =>
    cases hs
    exact h
  | succ k ih =>
    rw [levels] at hs
    cases hround : BoundedSearch.steps P x.2.queue.length x with
    | error e =>
      rw [hround] at hs
      cases hs
    | ok z =>
      rw [hround] at hs
      rw [Nat.add_comm k 1, ← Nat.add_assoc]
      exact ih (h.round hround) hs

theorem steps_add (a b : ℕ) (x : μ × Search X L κ) :
    steps P (a + b) x = steps P a x >>= steps P b := by
  induction a generalizing x with
  | zero => rw [Nat.zero_add]; rfl
  | succ a ih =>
    rw [Nat.succ_add, steps, steps]
    cases step P x with
    | error e => rfl
    | ok z => exact ih z

theorem steps_of_levels {n : ℕ} {x y : μ × Search X L κ} (hs : levels P n x = .ok y) :
    ∃ k, steps P k x = .ok y := by
  induction n generalizing x with
  | zero => exact ⟨0, hs⟩
  | succ n ih =>
    rw [levels] at hs
    cases hround : steps P x.2.queue.length x with
    | error e =>
      rw [hround] at hs
      cases hs
    | ok z =>
      rw [hround] at hs
      obtain ⟨k, hk⟩ := ih hs
      exact ⟨x.2.queue.length + k, by rw [steps_add, hround]; exact hk⟩

omit [DecidableEq κ] in
theorem start_layered (P : Space μ X L κ E) (root : X) : Layered (start P root) 0 where
  pos := Nat.zero_lt_one
  le := Nat.zero_le _
  keys := rfl
  queue := rfl
  waiting := fun e he => by
    rw [List.mem_singleton.mp he]
    rfl
  seen := fun e he => by
    rw [List.mem_singleton.mp he]
    exact Nat.zero_lt_one
  table := ⟨List.nodup_nil, fun _ he => absurd he List.not_mem_nil⟩
  root := rfl
  mono := fun i j hij hj => by
    obtain rfl : j = 0 := Nat.lt_one_iff.mp hj
    rw [Nat.le_zero.mp hij]
  near := fun i j _ _ hj => by
    obtain rfl : j = 0 := Nat.lt_one_iff.mp hj
    exact Nat.zero_le _
  edge := by
    rintro i j ⟨js, hl, -⟩
    cases hl
  preds := fun j i l hl => by cases hl
  tree := fun j hj hj' => absurd (Nat.lt_one_iff.mp hj') (Nat.ne_of_gt hj)

theorem search_layered {m : μ} {root : X} {y : μ × Search X L κ} (hs : search P m root = .ok y) :
    Layered y.2 y.2.states.length ∧ ∀ i, i < y.2.states.length → y.2.depth i ≤ P.bound := by
  have hstart : Level P.bound 0 (m, start P root).2 := by
    refine ⟨fun i hi => ?_, 0, start_layered P root, fun _ _ _ => Nat.zero_le _⟩
    obtain rfl : i = 0 := Nat.lt_one_iff.mp hi
    exact Nat.zero_le _
  obtain ⟨hbounded, served, hl, hw⟩ := hstart.rounds hs
  have hserved : served = y.2.states.length := by
    by_contra hne
    have hlt := lt_of_le_of_ne hl.le hne
    have hdeep := hw served (le_refl served) hlt
    have hshallow := hbounded served hlt
    omega
  exact ⟨hserved ▸ hl, hbounded⟩

end run

end layers

section deadlocks

variable {X L κ E : Type}

def leaf (P : Space Unit X L κ E) (x : X) : Bool :=
  match P.succ () x with
  | .ok (succ, _) => succ.isEmpty
  | .error _ => false

def blocked (P : Space Unit X L κ E) (s : Search X L κ) (i : ℕ) : Bool :=
  match s.states[i]? with
  | some x => (decide (P.bound ≤ s.depth i) || leaf P x) && P.dead () x
  | none => false

variable {P : Space Unit X L κ E} {s : Search X L κ} {served : ℕ}

theorem blocked_congr {s' : Search X L κ} (hstates : s.states <+: s'.states)
    (hold : ∀ i, i < s.states.length → s'.depth i = s.depth i) {i : ℕ}
    (hi : i < s.states.length) : blocked P s' i = blocked P s i := by
  have hget := List.getElem?_eq_getElem hi
  have hget' : s'.states[i]? = some s.states[i] := List.prefix_iff_getElem?.mp hstates i hi
  rw [blocked, blocked, hget, hget']
  dsimp only
  rw [hold i hi]

variable [DecidableEq κ]

theorem visitAll_deadlocks (P : Space Unit X L κ E) (sid depth : ℕ) (es : List (L × X)) :
    (es.foldl (visit P sid depth) s).deadlocks = s.deadlocks := by
  induction es generalizing s with
  | nil => rfl
  | cons e es ih =>
    rw [List.foldl_cons, ih]
    simp only [visit, enqueue]
    cases s.seen.lookup (P.key e.2) <;> rfl

theorem step_deadlocks {x y : Unit × Search X L κ} {sid : ℕ} {st : X} {q : List (ℕ × X)}
    (hq : x.2.queue = (sid, st) :: q) (hst : x.2.states[sid]? = some st)
    (hs : step P x = .ok y) :
    y.2.deadlocks = x.2.deadlocks ++ [sid].filter (blocked P x.2) := by
  rw [step, hq] at hs
  dsimp only at hs
  have hblocked : blocked P x.2 sid =
      ((decide (P.bound ≤ (x.2.depths.lookup sid).getD 0) || leaf P st) && P.dead () st) := by
    rw [blocked, hst]
    rfl
  rw [List.filter_singleton, hblocked]
  split_ifs at hs with hb
  · cases hs
    rw [decide_eq_true hb, Bool.true_or, Bool.true_and, noteDeadlock, List.isEmpty_nil,
      Bool.true_and]
    cases P.dead () st with
    | true => rfl
    | false => exact (List.append_nil _).symm
  · rw [decide_eq_false hb, Bool.false_or]
    cases hsucc : P.succ x.1 st with
    | error e =>
      rw [hsucc] at hs
      cases hs
    | ok r =>
      rw [hsucc] at hs
      cases hs
      have hleaf : leaf P st = r.1.isEmpty := by
        rw [leaf, hsucc]
      rw [visitAll_deadlocks, noteDeadlock, hleaf]
      cases r.1.isEmpty && P.dead () st with
      | true => rfl
      | false => exact (List.append_nil _).symm

structure Noted (P : Space Unit X L κ E) (s : Search X L κ) (served : ℕ) : Prop where
  layered : Layered s served
  deadlocks : s.deadlocks = (List.range served).filter (blocked P s)

theorem Noted.step {x y : Unit × Search X L κ} (h : Noted P x.2 served)
    (hs : BoundedSearch.step P x = .ok y) : ∃ served', Noted P y.2 served' := by
  rcases h.layered.step hs with ⟨-, rfl⟩ | ⟨hlt, hy, hserves, -⟩
  · exact ⟨served, h⟩
  · cases hq : x.2.queue with
    | nil =>
      have hlen := h.layered.queue_length
      rw [hq, List.length_nil] at hlen
      omega
    | cons e q =>
      obtain ⟨sid, st⟩ := e
      obtain ⟨rfl, -, -⟩ := h.layered.pop hq
      have hst := h.layered.waiting (sid, st) (hq ▸ List.mem_cons_self)
      have hcongr : ∀ i ∈ List.range (sid + 1), blocked P x.2 i = blocked P y.2 i := by
        intro i hi
        refine (blocked_congr hserves.states hserves.old ?_).symm
        exact lt_of_le_of_lt (Nat.le_of_lt_succ (List.mem_range.mp hi)) hlt
      refine ⟨sid + 1, hy, ?_⟩
      rw [step_deadlocks hq hst hs, h.deadlocks, ← List.filter_append, ← List.range_succ]
      exact List.filter_congr hcongr

theorem Noted.steps {n : ℕ} {x y : Unit × Search X L κ} (h : Noted P x.2 served)
    (hs : BoundedSearch.steps P n x = .ok y) : ∃ served', Noted P y.2 served' := by
  induction n generalizing x served with
  | zero =>
    cases hs
    exact ⟨served, h⟩
  | succ n ih =>
    rw [BoundedSearch.steps] at hs
    cases hstep : BoundedSearch.step P x with
    | error e =>
      rw [hstep] at hs
      cases hs
    | ok z =>
      rw [hstep] at hs
      obtain ⟨served', hz⟩ := h.step hstep
      exact ih hz hs

theorem search_deadlocks {root : X} {y : Unit × Search X L κ} (hs : search P () root = .ok y) :
    y.2.deadlocks = (List.range y.2.states.length).filter (blocked P y.2) := by
  obtain ⟨k, hk⟩ := steps_of_levels hs
  have hstart : Noted P ((), start P root).2 0 := ⟨start_layered P root, rfl⟩
  obtain ⟨served, hl, hd⟩ := hstart.steps hk
  have hqueue := (search_layered hs).1.queue_length
  rw [hl.queue_length, Nat.sub_self] at hqueue
  have hserved : served = y.2.states.length := by
    have hle := hl.le
    omega
  rw [hd, hserved]

end deadlocks

section deepening

variable {μ X L κ E : Type}

def Space.within (P : Space μ X L κ E) (bound : ℕ) : Space μ X L κ E := { P with bound := bound }

-- What a deeper search keeps of a shallower one: its states and every edge it found.
structure Deepens (s s' : Search X L κ) : Prop where
  states : s.states <+: s'.states
  edges : ∀ i js, s.edges.lookup i = some js → s'.edges.lookup i = some js

theorem Layered.key_lt {s : Search X L κ} {served : ℕ} (h : Layered s served) {i : ℕ}
    {js : List ℕ} (hl : s.edges.lookup i = some js) : i < served := by
  obtain ⟨before, after, hedges, -⟩ := List.lookup_eq_some_iff.mp hl
  have hmem : (i, js) ∈ s.edges := hedges ▸ List.mem_append_right _ List.mem_cons_self
  obtain ⟨j, hj⟩ := List.exists_mem_of_ne_nil js (h.table.filled _ hmem)
  exact (h.edge i j ⟨js, hl, hj⟩).1

theorem Follows.deepens {s s' : Search X L κ} {served : ℕ} (h : Layered s served)
    (hf : Follows served s s') : Deepens s s' :=
  ⟨hf.states, fun i _ hl => (hf.edges i (h.key_lt hl)).trans hl⟩

variable [DecidableEq κ] {P : Space μ X L κ E} {bound : ℕ}

theorem stalled_steps {n : ℕ} {x y : μ × Search X L κ}
    (hb : ∀ e ∈ x.2.queue, P.bound ≤ x.2.depth e.1) (hs : steps P n x = .ok y) :
    y.2.states = x.2.states ∧ y.2.edges = x.2.edges := by
  induction n generalizing x with
  | zero =>
    cases hs
    exact ⟨rfl, rfl⟩
  | succ n ih =>
    rw [steps] at hs
    cases hq : x.2.queue with
    | nil =>
      rw [step, hq] at hs
      exact ih hb hs
    | cons e q =>
      obtain ⟨sid, st⟩ := e
      have hsid : P.bound ≤ (x.2.depths.lookup sid).getD 0 :=
        hb (sid, st) (hq ▸ List.mem_cons_self)
      rw [step, hq] at hs
      dsimp only at hs
      rw [if_pos hsid] at hs
      obtain ⟨hstates, hdepths, hedges⟩ :=
        noteDeadlock_fields P x.1 sid st [] { x.2 with queue := q }
      have hqueue : (noteDeadlock P x.1 sid st [] { x.2 with queue := q }).queue = q := by
        rw [noteDeadlock]
        split_ifs <;> rfl
      obtain ⟨h1, h2⟩ := ih (x := (x.1, noteDeadlock P x.1 sid st [] { x.2 with queue := q }))
        (fun e he => by
          rw [hqueue] at he
          rw [Search.depth, hdepths]
          exact hb e (hq ▸ List.mem_cons_of_mem _ he)) hs
      exact ⟨h1.trans hstates, h2.trans hedges⟩

theorem step_within {x : μ × Search X L κ} {sid : ℕ} {st : X} {q : List (ℕ × X)}
    (hq : x.2.queue = (sid, st) :: q) (hd : x.2.depth sid < P.bound) (hle : P.bound ≤ bound) :
    step (P.within bound) x = step P x := by
  have hd' : ¬ P.bound ≤ (x.2.depths.lookup sid).getD 0 := not_le.mpr hd
  have hd'' : ¬ (P.within bound).bound ≤ (x.2.depths.lookup sid).getD 0 :=
    not_le.mpr (lt_of_lt_of_le hd hle)
  rw [step, step, hq]
  dsimp only
  rw [if_neg hd', if_neg hd'']
  rfl

theorem steps_within {n n' : ℕ} {served : ℕ} {x y y' : μ × Search X L κ} (h : Layered x.2 served)
    (hle : P.bound ≤ bound) (hs : steps P n x = .ok y)
    (hs' : steps (P.within bound) n' x = .ok y') (hq' : y'.2.queue = []) : Deepens y.2 y'.2 := by
  induction n generalizing x n' served with
  | zero =>
    cases hs
    exact (h.steps hs').deepens h
  | succ n ih =>
    cases hq : x.2.queue with
    | nil =>
      have hstep : step P x = .ok x := by rw [step, hq]
      rw [steps, hstep] at hs
      exact ih h hs hs'
    | cons e q =>
      obtain ⟨sid, st⟩ := e
      rcases lt_or_ge (x.2.depth sid) P.bound with hd | hd
      · cases n' with
        | zero =>
          cases hs'
          rw [hq] at hq'
          cases hq'
        | succ n' =>
          rw [steps] at hs hs'
          rw [step_within hq hd hle] at hs'
          cases hstep : step P x with
          | error e =>
            rw [hstep] at hs
            cases hs
          | ok z =>
            rw [hstep] at hs hs'
            rcases h.step hstep with ⟨-, rfl⟩ | ⟨-, hz, -⟩
            · exact ih h hs hs'
            · exact ih hz hs hs'
      · obtain ⟨rfl, -, -⟩ := h.pop hq
        have hstalled : ∀ e ∈ x.2.queue, P.bound ≤ x.2.depth e.1 := by
          intro e he
          have hmem : e.1 ∈ x.2.queue.map Prod.fst := List.mem_map_of_mem he
          rw [h.queue, List.range_eq_range', List.drop_range', List.mem_range'_1] at hmem
          exact hd.trans (h.mono sid e.1 (by omega) (by omega))
        obtain ⟨hstates, hedges⟩ := stalled_steps hstalled hs
        have hdeep := (h.steps hs').deepens h
        exact ⟨hstates ▸ hdeep.states, fun i js hl => hdeep.edges i js (hedges ▸ hl)⟩

theorem search_within {m : μ} {root : X} {y y' : μ × Search X L κ} (hle : P.bound ≤ bound)
    (hs : search P m root = .ok y) (hs' : search (P.within bound) m root = .ok y') :
    Deepens y.2 y'.2 := by
  obtain ⟨k, hk⟩ := steps_of_levels hs
  obtain ⟨k', hk'⟩ := steps_of_levels hs'
  have hl := (search_layered hs').1
  have hqueue : y'.2.queue = [] := by
    rw [← List.length_eq_zero_iff, hl.queue_length, Nat.sub_self]
  exact steps_within (start_layered P root) hle hk hk' hqueue

end deepening

end BoundedSearch
