import Mathlib.Algebra.GroupWithZero.Nat
import Mathlib.Data.Set.Finite.List

-- The nodes of a finite graph in layers: a node comes when all edges into it have been taken.
structure LayeredGraph (α : Type) where
  nodes : List α
  succ : α → List α
  nodup : nodes.Nodup
  source : ∀ u v, v ∈ succ u → u ∈ nodes
  target : ∀ u v, v ∈ succ u → v ∈ nodes

namespace LayeredGraph

variable {α : Type} [LinearOrder α] (g : LayeredGraph α)

def sorted (l : List α) : List α := l.insertionSort (· ≤ ·)

def indegree : α → ℤ :=
  (g.nodes.flatMap g.succ).foldl (fun d v => Function.update d v (d v + 1)) (fun _ => 0)

def roots : List α := sorted (g.nodes.filter (fun v => g.indegree v = 0))

def takeEdge (s : (α → ℤ) × List α) (v : α) : (α → ℤ) × List α :=
  (Function.update s.1 v (s.1 v - 1), if s.1 v - 1 = 0 then s.2.insert v else s.2)

def round (degree : α → ℤ) (layer : List α) : (α → ℤ) × List α :=
  (layer.flatMap g.succ).foldl takeEdge (degree, [])

def layersFrom : ℕ → (α → ℤ) → List α → Option (List (List α) × (α → ℤ))
  | _, degree, [] => some ([], degree)
  | 0, _, _ :: _ => none
  | n + 1, degree, v :: vs =>
    let s := g.round degree (v :: vs)
    (layersFrom n s.1 (sorted s.2)).map (fun r => ((v :: vs) :: r.1, r.2))

section walks

variable (R : α → α → Prop)

inductive Walk : ℕ → α → α → Prop where
  | nil (v : α) : Walk 0 v v
  | snoc {n : ℕ} {u v w : α} (h : Walk n u v) (hw : R v w) : Walk (n + 1) u w

def Ranked (v : α) (k : ℕ) : Prop := IsGreatest {n | ∃ u, Walk R n u v} k

def Cyclic : Prop := ∃ v, Relation.TransGen R v v

def Edge (u v : α) : Prop := v ∈ g.succ u

def below : ℕ → α → Bool
  | 0, _ => false
  | k + 1, v => g.nodes.all (fun u => decide (v ∈ g.succ u → below k u = true))

end walks

variable {g} {u v w : α} {k n m : ℕ}

theorem below_succ : g.below (k + 1) v = true ↔ ∀ u, v ∈ g.succ u → g.below k u = true := by
  rw [below, List.all_eq_true]
  simp only [decide_eq_true_eq]
  exact ⟨fun h u hu => h u (g.source u v hu) hu, fun h u _ hu => h u hu⟩

theorem below_iff : g.below k v = true ↔ ∀ n u, Walk g.Edge n u v → n < k := by
  induction k generalizing v with
  | zero =>
    constructor
    · intro h
      cases h
    · intro h
      exact absurd (h 0 v (.nil v)) (Nat.lt_irrefl 0)
  | succ k ih =>
    rw [below_succ]
    constructor
    · intro h n u hw
      cases hw with
      | nil => exact Nat.succ_pos k
      | snoc hw hv => exact Nat.succ_lt_succ (ih.mp (h _ hv) _ _ hw)
    · intro h u hu
      exact ih.mpr (fun n x hw => Nat.lt_of_succ_lt_succ (h (n + 1) x (hw.snoc hu)))

theorem below_mono (h : g.below k v = true) (hk : k ≤ n) : g.below n v = true :=
  below_iff.mpr (fun i u hw => (below_iff.mp h i u hw).trans_le hk)

theorem ranked_iff : Ranked g.Edge v k ↔ g.below (k + 1) v = true ∧ g.below k v = false := by
  constructor
  · rintro ⟨⟨u, hw⟩, hmax⟩
    refine ⟨below_iff.mpr (fun n x hn => Nat.lt_succ_of_le (hmax ⟨x, hn⟩)), ?_⟩
    rw [Bool.eq_false_iff]
    exact fun h => Nat.lt_irrefl k (below_iff.mp h k u hw)
  · rintro ⟨hlt, hnot⟩
    have hle : ∀ n u, Walk g.Edge n u v → n ≤ k := fun n u hw =>
      Nat.le_of_lt_succ (below_iff.mp hlt n u hw)
    refine ⟨?_, fun n hn => hn.elim (fun u hw => hle n u hw)⟩
    have hex : ∃ n u, Walk g.Edge n u v ∧ k ≤ n := by
      by_contra hno
      push Not at hno
      rw [below_iff.mpr hno] at hnot
      cases hnot
    obtain ⟨n, u, hw, hkn⟩ := hex
    obtain rfl : n = k := le_antisymm (hle n u hw) hkn
    exact ⟨u, hw⟩

theorem indegree_eq : g.indegree v = (g.nodes.flatMap g.succ).count v := by
  have hfold : ∀ (l : List α) (d : α → ℤ),
      l.foldl (fun d v => Function.update d v (d v + 1)) d v = d v + l.count v := by
    intro l
    induction l with
    | nil =>
      intro d
      simp
    | cons w l ih =>
      intro d
      rw [List.foldl_cons, ih]
      obtain rfl | hv := eq_or_ne v w
      · rw [Function.update_self, List.count_cons_self]
        omega
      · rw [Function.update_of_ne hv, List.count_cons_of_ne hv.symm]
  rw [indegree, hfold, zero_add]

theorem mem_sorted {l : List α} : v ∈ sorted l ↔ v ∈ l := List.mem_insertionSort _

theorem takeEdges_degree (ts : List α) (d : α → ℤ) (r : List α) :
    (ts.foldl takeEdge (d, r)).1 v = d v - ts.count v := by
  induction ts generalizing d r with
  | nil => simp
  | cons t ts ih =>
    rw [List.foldl_cons, takeEdge, ih]
    dsimp only
    obtain rfl | hv := eq_or_ne v t
    · rw [Function.update_self, List.count_cons_self]
      omega
    · rw [Function.update_of_ne hv, List.count_cons_of_ne hv.symm]

theorem takeEdges_ready (ts : List α) (d : α → ℤ) (r : List α) :
    v ∈ (ts.foldl takeEdge (d, r)).2 ↔ v ∈ r ∨ 1 ≤ d v ∧ d v ≤ ts.count v := by
  induction ts generalizing d r with
  | nil =>
    rw [List.foldl_nil, List.count_nil]
    exact ⟨Or.inl, fun h => h.resolve_right (by omega)⟩
  | cons t ts ih =>
    rw [List.foldl_cons, takeEdge, ih]
    dsimp only
    obtain rfl | hv := eq_or_ne v t
    · rw [Function.update_self, List.count_cons_self]
      split_ifs with hd
      · exact iff_of_true (Or.inl (List.mem_insert_self ..)) (Or.inr (by omega))
      · exact or_congr_right (by omega)
    · rw [Function.update_of_ne hv, List.count_cons_of_ne hv.symm]
      split_ifs with hd
      · rw [List.mem_insert_iff, or_iff_right hv]
      · rfl

theorem takeEdges_nodup (ts : List α) (d : α → ℤ) {r : List α} (h : r.Nodup) :
    (ts.foldl takeEdge (d, r)).2.Nodup := by
  induction ts generalizing d r with
  | nil => exact h
  | cons t ts ih =>
    rw [List.foldl_cons, takeEdge]
    split_ifs
    · exact ih _ h.insert
    · exact ih _ h

section layers

variable (g)

def edgesLeft (k : ℕ) (v : α) : ℕ :=
  ((g.nodes.filter (fun u => !g.below k u)).flatMap g.succ).count v

def layerAt (k : ℕ) : List α :=
  sorted (g.nodes.filter (fun v => g.below (k + 1) v && !g.below k v))

variable {g}

theorem edgesLeft_eq_zero : g.edgesLeft k v = 0 ↔ g.below (k + 1) v = true := by
  rw [edgesLeft, List.count_eq_zero, below_succ]
  constructor
  · intro h u hu
    by_contra hnot
    refine h (List.mem_flatMap.mpr ⟨u, List.mem_filter.mpr ⟨g.source u v hu, ?_⟩, hu⟩)
    rw [Bool.not_eq_true', ← Bool.not_eq_true]
    exact hnot
  · intro h hmem
    obtain ⟨u, hu, hv⟩ := List.mem_flatMap.mp hmem
    have hnot := (List.mem_filter.mp hu).2
    rw [h u hv] at hnot
    cases hnot

theorem mem_layerAt :
    v ∈ g.layerAt k ↔ v ∈ g.nodes ∧ g.below (k + 1) v = true ∧ g.below k v = false := by
  rw [layerAt, mem_sorted, List.mem_filter, Bool.and_eq_true, Bool.not_eq_true']

theorem layerAt_nodup : (g.layerAt k).Nodup :=
  (List.perm_insertionSort _ _).nodup_iff.mpr (g.nodup.filter _)

theorem rest_perm : (g.nodes.filter (fun u => !g.below k u)).Perm
    (g.layerAt k ++ g.nodes.filter (fun u => !g.below (k + 1) u)) := by
  have hdisj : (g.layerAt k ++ g.nodes.filter (fun u => !g.below (k + 1) u)).Nodup := by
    refine List.nodup_append.mpr ⟨layerAt_nodup, g.nodup.filter _, ?_⟩
    rintro a ha b hb rfl
    have hnot := (List.mem_filter.mp hb).2
    rw [(mem_layerAt.mp ha).2.1] at hnot
    cases hnot
  refine (List.perm_ext_iff_of_nodup (g.nodup.filter _) hdisj).mpr (fun v => ?_)
  rw [List.mem_append, mem_layerAt, List.mem_filter, List.mem_filter, Bool.not_eq_true',
    Bool.not_eq_true']
  cases hk : g.below k v with
  | true =>
    have hsucc := below_mono hk (Nat.le_succ k)
    simp [hsucc]
  | false => cases g.below (k + 1) v <;> simp

theorem edgesLeft_round :
    g.edgesLeft k v = ((g.layerAt k).flatMap g.succ).count v + g.edgesLeft (k + 1) v := by
  rw [edgesLeft, (rest_perm.flatMap_right g.succ).count_eq, List.flatMap_append,
    List.count_append, edgesLeft]

theorem sorted_congr {l l' : List α} (hl : l.Nodup) (hl' : l'.Nodup) (h : ∀ v, v ∈ l ↔ v ∈ l') :
    sorted l = sorted l' := by
  have hp : (sorted l).Perm (sorted l') :=
    (List.perm_insertionSort _ l).trans (((List.perm_ext_iff_of_nodup hl hl').mpr h).trans
      (List.perm_insertionSort _ l').symm)
  exact hp.eq_of_pairwise' (List.pairwise_insertionSort _ l) (List.pairwise_insertionSort _ l')

theorem round_degree : (g.round (fun v => g.edgesLeft k v) (g.layerAt k)).1 =
    fun v => (g.edgesLeft (k + 1) v : ℤ) := by
  funext v
  rw [round, takeEdges_degree, edgesLeft_round]
  omega

theorem round_ready : sorted (g.round (fun v => g.edgesLeft k v) (g.layerAt k)).2 =
    g.layerAt (k + 1) := by
  refine sorted_congr (takeEdges_nodup _ _ List.nodup_nil) (g.nodup.filter _) (fun v => ?_)
  rw [round, takeEdges_ready, or_iff_right List.not_mem_nil, List.mem_filter, Bool.and_eq_true,
    Bool.not_eq_true', ← edgesLeft_eq_zero, ← Bool.not_eq_true, ← edgesLeft_eq_zero]
  have hround := edgesLeft_round (g := g) (k := k) (v := v)
  constructor
  · rintro ⟨hpos, hle⟩
    have hmem : v ∈ (g.layerAt k).flatMap g.succ := List.count_pos_iff.mp (by omega)
    obtain ⟨u, -, hu⟩ := List.mem_flatMap.mp hmem
    exact ⟨g.target u v hu, by omega, by omega⟩
  · rintro ⟨-, hzero, hne⟩
    exact ⟨by omega, by omega⟩

theorem roots_eq : g.roots = g.layerAt 0 := by
  refine sorted_congr (g.nodup.filter _) (g.nodup.filter _) (fun v => ?_)
  have hall : g.nodes.filter (fun u => !g.below 0 u) = g.nodes :=
    List.filter_eq_self.mpr (fun u _ => rfl)
  rw [List.mem_filter, List.mem_filter, decide_eq_true_eq, indegree_eq, Bool.and_eq_true,
    ← edgesLeft_eq_zero, edgesLeft, hall, Int.natCast_eq_zero]
  simp [below]

theorem indegree_start : g.indegree = fun v => (g.edgesLeft 0 v : ℤ) := by
  funext v
  have hall : g.nodes.filter (fun u => !g.below 0 u) = g.nodes :=
    List.filter_eq_self.mpr (fun u _ => rfl)
  rw [indegree_eq, edgesLeft, hall]

theorem layersFrom_spec (fuel k : ℕ)
    (hfuel : (g.nodes.filter (fun u => !g.below k u)).length ≤ fuel) :
    ∃ m, g.layersFrom fuel (fun v => g.edgesLeft k v) (g.layerAt k) =
        some ((List.range' k m).map g.layerAt, fun v => (g.edgesLeft (k + m) v : ℤ)) ∧
      g.layerAt (k + m) = [] ∧ ∀ i, k ≤ i → i < k + m → g.layerAt i ≠ [] := by
  induction fuel generalizing k with
  | zero =>
    have hnil : g.layerAt k = [] := by
      have hp := (rest_perm (g := g) (k := k)).length_eq
      rw [List.length_append] at hp
      exact List.length_eq_zero_iff.mp (by omega)
    refine ⟨0, ?_, hnil, fun i hi hlt => absurd hlt (by omega)⟩
    rw [hnil]
    rfl
  | succ fuel ih =>
    cases hl : g.layerAt k with
    | nil => exact ⟨0, rfl, hl, fun i hi hlt => absurd hlt (by omega)⟩
    | cons v vs =>
      have hp := (rest_perm (g := g) (k := k)).length_eq
      rw [List.length_append, hl, List.length_cons] at hp
      obtain ⟨m, hrun, hnil, hne⟩ := ih (k + 1) (by omega)
      refine ⟨m + 1, ?_, ?_, ?_⟩
      · rw [layersFrom, ← hl, round_degree, round_ready, hrun, List.range'_succ]
        rw [show k + (m + 1) = k + 1 + m by omega]
        rfl
      · rw [show k + (m + 1) = k + 1 + m by omega]
        exact hnil
      · intro i hi hlt
        obtain rfl | hki := hi.eq_or_lt
        · rw [hl]
          exact List.cons_ne_nil v vs
        · exact hne i hki (by omega)

theorem layersFrom_isSome :
    (g.layersFrom g.nodes.length g.indegree g.roots).isSome = true := by
  obtain ⟨m, hrun, -⟩ := layersFrom_spec (g := g) g.nodes.length 0 (List.length_filter_le _ _)
  rw [indegree_start, roots_eq, hrun]
  rfl

variable (g) in
def layering : List (List α) × (α → ℤ) :=
  (g.layersFrom g.nodes.length g.indegree g.roots).get layersFrom_isSome

variable (g) in
def processed : ℕ := (g.layering.1.map List.length).sum

end layers

theorem layering_spec : ∃ m, g.layering = ((List.range m).map g.layerAt,
      fun v => (g.edgesLeft m v : ℤ)) ∧ g.layerAt m = [] ∧ ∀ i < m, g.layerAt i ≠ [] := by
  obtain ⟨m, hrun, hnil, hne⟩ :=
    layersFrom_spec (g := g) g.nodes.length 0 (List.length_filter_le _ _)
  rw [← roots_eq, ← indegree_start, Nat.zero_add] at hrun
  rw [Nat.zero_add] at hnil hne
  refine ⟨m, ?_, hnil, fun i hi => hne i (Nat.zero_le i) hi⟩
  rw [List.range_eq_range']
  exact Option.get_of_eq_some _ hrun

theorem layers_perm (m : ℕ) : ((List.range m).map g.layerAt).flatten.Perm
    (g.nodes.filter (fun v => g.below m v)) := by
  induction m with
  | zero =>
    rw [List.filter_eq_nil_iff.mpr (by simp [below])]
    rfl
  | succ m ih =>
    rw [List.range_succ, List.map_append, List.flatten_append]
    have hnd : ((g.nodes.filter (fun v => g.below m v)) ++ g.layerAt m).Nodup := by
      refine List.nodup_append.mpr ⟨g.nodup.filter _, layerAt_nodup, ?_⟩
      rintro a ha b hb rfl
      rw [List.mem_filter, (mem_layerAt.mp hb).2.2] at ha
      cases ha.2
    refine (ih.append_right _).trans ?_
    rw [List.map_singleton, List.flatten_singleton]
    refine (List.perm_ext_iff_of_nodup hnd (g.nodup.filter _)).mpr (fun v => ?_)
    rw [List.mem_append, mem_layerAt, List.mem_filter, List.mem_filter]
    cases hk : g.below m v with
    | true => simp [below_mono hk (Nat.le_succ m)]
    | false => simp

theorem below_stable (hm : g.layerAt m = []) (hv : v ∈ g.nodes) (hb : g.below n v = true) :
    g.below m v = true := by
  induction n generalizing v with
  | zero => cases hb
  | succ n ih =>
    have hsucc : g.below (m + 1) v = true :=
      below_succ.mpr (fun u hu => ih (g.source u v hu) (below_succ.mp hb u hu))
    by_contra hnot
    have hmem : v ∈ g.layerAt m := mem_layerAt.mpr ⟨hv, hsucc, Bool.eq_false_iff.mpr hnot⟩
    rw [hm] at hmem
    cases hmem

omit [LinearOrder α] in
theorem Walk.trans (h : Walk g.Edge n u v) (h' : Walk g.Edge m v w) : Walk g.Edge (n + m) u w := by
  induction h' with
  | nil => exact h
  | snoc _ hw ih => exact (ih h).snoc hw

omit [LinearOrder α] in
theorem walk_of_transGen (h : Relation.TransGen g.Edge u v) : ∃ n, Walk g.Edge (n + 1) u v := by
  induction h with
  | single h => exact ⟨0, (Walk.nil u).snoc h⟩
  | tail _ h ih =>
    obtain ⟨n, hn⟩ := ih
    exact ⟨n + 1, hn.snoc h⟩

theorem not_below_of_cycle (h : Relation.TransGen g.Edge v v) : g.below m v = false := by
  obtain ⟨n, hn⟩ := walk_of_transGen h
  have hlong : ∀ i, ∃ k, i ≤ k ∧ Walk g.Edge k v v := by
    intro i
    induction i with
    | zero => exact ⟨0, le_rfl, .nil v⟩
    | succ i ih =>
      obtain ⟨k, hik, hk⟩ := ih
      exact ⟨k + (n + 1), by omega, hk.trans hn⟩
  rw [Bool.eq_false_iff]
  intro hb
  obtain ⟨k, hmk, hk⟩ := hlong m
  exact absurd (below_iff.mp hb k v hk) (by omega)

omit [LinearOrder α] in
theorem mem_of_cycle (h : Relation.TransGen g.Edge v v) : v ∈ g.nodes := by
  obtain ⟨u, -, hu⟩ := Relation.TransGen.tail'_iff.mp h
  exact g.target u v hu

omit [LinearOrder α] in
theorem exists_first (hacyc : ¬Cyclic g.Edge) {P : α → Prop} (hv : v ∈ g.nodes) (hp : P v) :
    ∃ v ∈ g.nodes, P v ∧ ∀ u, g.Edge u v → ¬P u := by
  let before (a b : {x // x ∈ g.nodes}) : Prop := Relation.TransGen g.Edge a.1 b.1
  have hfin : Finite {x // x ∈ g.nodes} := (List.finite_toSet g.nodes).to_subtype
  have htrans : IsTrans _ before := ⟨fun a b c => Relation.TransGen.trans⟩
  have hirr : Std.Irrefl before := ⟨fun a ha => hacyc ⟨a.1, ha⟩⟩
  have hwf : WellFounded before := Finite.wellFounded_of_trans_of_irrefl before
  obtain ⟨x, hx, hmin⟩ := hwf.has_min {x | P x.1} ⟨⟨v, hv⟩, hp⟩
  exact ⟨x.1, x.2, hx, fun u hu hpu => hmin ⟨u, g.source u x.1 hu⟩ hpu (.single hu)⟩

theorem below_of_acyclic (hm : g.layerAt m = []) (hacyc : ¬Cyclic g.Edge) (hv : v ∈ g.nodes) :
    g.below m v = true := by
  by_contra hnot
  obtain ⟨x, hx, hout, hfirst⟩ := exists_first hacyc (P := fun x => ¬g.below m x = true) hv hnot
  exact hout (below_stable hm hx (n := m + 1)
    (below_succ.mpr (fun u hu => not_not.mp (hfirst u hu))))

theorem cyclic_iff (hm : g.layerAt m = []) : Cyclic g.Edge ↔ ∃ v ∈ g.nodes, g.below m v = false := by
  constructor
  · rintro ⟨v, hv⟩
    exact ⟨v, mem_of_cycle hv, not_below_of_cycle hv⟩
  · rintro ⟨v, hv, hb⟩
    by_contra hacyc
    rw [below_of_acyclic hm hacyc hv] at hb
    cases hb

theorem processed_eq_iff : g.processed = g.nodes.length ↔ ¬Cyclic g.Edge := by
  obtain ⟨m, hl, hm, -⟩ := layering_spec (g := g)
  rw [processed, hl, ← List.length_flatten, (layers_perm m).length_eq, cyclic_iff hm,
    List.length_filter_eq_length_iff]
  simp

theorem layers_partition (h : ¬Cyclic g.Edge) : g.layering.1.flatten.Perm g.nodes := by
  obtain ⟨m, hl, hm, -⟩ := layering_spec (g := g)
  rw [hl]
  refine (layers_perm m).trans ?_
  rw [List.filter_eq_self.mpr (fun v hv => below_of_acyclic hm h hv)]

theorem mem_layer {l : List α} (hl : g.layering.1[k]? = some l) :
    v ∈ l ↔ v ∈ g.nodes ∧ Ranked g.Edge v k := by
  obtain ⟨m, he, -⟩ := layering_spec (g := g)
  rw [he, List.getElem?_map] at hl
  obtain ⟨i, hi, rfl⟩ := Option.map_eq_some_iff.mp hl
  obtain ⟨hlt, hget⟩ := List.getElem?_eq_some_iff.mp hi
  rw [List.getElem_range] at hget
  subst hget
  rw [mem_layerAt, ranked_iff]

theorem mem_roots : v ∈ g.roots ↔ v ∈ g.nodes ∧ ∀ u, ¬g.Edge u v := by
  rw [roots_eq, mem_layerAt, below_succ]
  exact and_congr_right (fun _ => ⟨fun h u hu => Bool.false_ne_true (h.1 u hu),
    fun h => ⟨fun u hu => absurd hu (h u), rfl⟩⟩)

theorem roots_head : g.roots.head? = some v ↔
    IsLeast {v | v ∈ g.nodes ∧ ∀ u, ¬g.Edge u v} v := by
  have hsorted : g.roots.Pairwise (· ≤ ·) := List.pairwise_insertionSort _ _
  have hmem : ∀ w, w ∈ g.roots ↔ w ∈ {v | v ∈ g.nodes ∧ ∀ u, ¬g.Edge u v} := fun w => mem_roots
  cases hr : g.roots with
  | nil =>
    refine iff_of_false (fun h => ?_) (fun h => ?_)
    · cases h
    · have hv := (hmem v).mpr h.1
      rw [hr] at hv
      cases hv
  | cons w ws =>
    rw [hr] at hsorted hmem
    have hleast : IsLeast {v | v ∈ g.nodes ∧ ∀ u, ¬g.Edge u v} w := by
      refine ⟨(hmem w).mp List.mem_cons_self, fun x hx => ?_⟩
      obtain rfl | hx := List.mem_cons.mp ((hmem x).mpr hx)
      · exact le_rfl
      · exact (List.pairwise_cons.mp hsorted).1 x hx
    rw [List.head?_cons, Option.some.injEq]
    exact ⟨fun h => h ▸ hleast, fun h => hleast.unique h⟩

theorem layer_ne_nil {l : List α} (hl : l ∈ g.layering.1) : l ≠ [] := by
  obtain ⟨m, he, -, hne⟩ := layering_spec (g := g)
  rw [he] at hl
  obtain ⟨i, hi, rfl⟩ := List.mem_map.mp hl
  exact hne i (List.mem_range.mp hi)

variable (g) in
def visit : ℕ → List α → List α → Option (List α)
  | _, [], visited => some visited
  | 0, _ :: _, _ => none
  | n + 1, v :: stack, visited =>
    if v ∈ visited then visit n stack visited
    else visit n ((g.succ v).reverse ++ stack) (v :: visited)

variable (g) in
def unvisitedEdges (visited : List α) : List α :=
  (g.nodes.filter (fun u => u ∉ visited)).flatMap g.succ

theorem nodes_without {seen : List α} (hu : u ∈ g.nodes) (hnew : u ∉ seen) (seen' : List α)
    (hadd : ∀ w, w ∈ seen' ↔ w ∈ seen ∨ w = u) :
    (g.nodes.filter (fun w => w ∉ seen)).Perm (u :: g.nodes.filter (fun w => w ∉ seen')) := by
  have hnd : (u :: g.nodes.filter (fun w => w ∉ seen')).Nodup :=
    List.nodup_cons.mpr ⟨by simp [hadd], g.nodup.filter _⟩
  refine (List.perm_ext_iff_of_nodup (g.nodup.filter _) hnd).mpr (fun w => ?_)
  obtain rfl | hw := eq_or_ne w u
  · simp [hu, hnew]
  · simp [hw, hadd]

theorem unvisitedEdges_cons {visited : List α} (hv : v ∉ visited) :
    (g.unvisitedEdges visited).length =
      (g.succ v).length + (g.unvisitedEdges (v :: visited)).length := by
  by_cases hmem : v ∈ g.nodes
  · have hp := nodes_without hmem hv (v :: visited) (by simp [or_comm])
    rw [unvisitedEdges, (hp.flatMap_right g.succ).length_eq, List.flatMap_cons, List.length_append,
      unvisitedEdges]
  · have hnil : g.succ v = [] := by
      refine List.eq_nil_iff_forall_not_mem.mpr (fun w hw => hmem (g.source v w hw))
    have hsame : g.nodes.filter (fun u => u ∉ v :: visited) =
        g.nodes.filter (fun u => u ∉ visited) := by
      refine List.filter_congr (fun u hu => ?_)
      have hne : u ≠ v := fun he => hmem (he ▸ hu)
      simp [hne]
    rw [hnil, unvisitedEdges, unvisitedEdges, hsame, List.length_nil, Nat.zero_add]

variable (g) in
-- What was found holds what was there, and is closed; all that is new comes from the stack.
structure Found (stack visited found : List α) : Prop where
  keeps : ∀ w, w ∈ visited ∨ w ∈ stack → w ∈ found
  closed : ∀ u ∈ found, ∀ w ∈ g.succ u, w ∈ found
  comes : ∀ w ∈ found, w ∈ visited ∨ ∃ u ∈ stack, Relation.ReflTransGen g.Edge u w

omit [LinearOrder α] in
theorem found_nil {visited : List α}
    (hclosed : ∀ u ∈ visited, ∀ w ∈ g.succ u, w ∈ visited ∨ w ∈ []) :
    g.Found [] visited visited where
  keeps _ hw := hw.resolve_right List.not_mem_nil
  closed u hu w hw := (hclosed u hu w hw).resolve_right List.not_mem_nil
  comes _ hw := .inl hw

theorem visit_spec (fuel : ℕ) (stack visited : List α)
    (hfuel : stack.length + (g.unvisitedEdges visited).length ≤ fuel)
    (hclosed : ∀ u ∈ visited, ∀ w ∈ g.succ u, w ∈ visited ∨ w ∈ stack) :
    ∃ found, g.visit fuel stack visited = some found ∧ g.Found stack visited found := by
  induction fuel generalizing stack visited with
  | zero =>
    obtain rfl : stack = [] := List.length_eq_zero_iff.mp (by omega)
    exact ⟨visited, rfl, found_nil hclosed⟩
  | succ fuel ih =>
    cases stack with
    | nil => exact ⟨visited, rfl, found_nil hclosed⟩
    | cons v stack =>
      rw [visit]
      rw [List.length_cons] at hfuel
      split_ifs with hv
      · have hclosed' : ∀ u ∈ visited, ∀ w ∈ g.succ u, w ∈ visited ∨ w ∈ stack := by
          intro u hu w hw
          rcases hclosed u hu w hw with h | h
          · exact .inl h
          · obtain rfl | h := List.mem_cons.mp h
            · exact .inl hv
            · exact .inr h
        obtain ⟨found, hrun, hf⟩ := ih stack visited (by omega) hclosed'
        refine ⟨found, hrun, ?_, hf.closed, ?_⟩
        · rintro w (hw | hw)
          · exact hf.keeps w (.inl hw)
          · obtain rfl | hw := List.mem_cons.mp hw
            · exact hf.keeps w (.inl hv)
            · exact hf.keeps w (.inr hw)
        · intro w hw
          rcases hf.comes w hw with h | ⟨u, hu, hr⟩
          · exact .inl h
          · exact .inr ⟨u, List.mem_cons_of_mem v hu, hr⟩
      · have hcount := unvisitedEdges_cons (g := g) hv
        have hclosed' : ∀ u ∈ v :: visited, ∀ w ∈ g.succ u,
            w ∈ v :: visited ∨ w ∈ (g.succ v).reverse ++ stack := by
          intro u hu w hw
          obtain rfl | hu := List.mem_cons.mp hu
          · exact .inr (List.mem_append_left _ (List.mem_reverse.mpr hw))
          · rcases hclosed u hu w hw with h | h
            · exact .inl (List.mem_cons_of_mem v h)
            · obtain rfl | h := List.mem_cons.mp h
              · exact .inl List.mem_cons_self
              · exact .inr (List.mem_append_right _ h)
        obtain ⟨found, hrun, hf⟩ := ih ((g.succ v).reverse ++ stack) (v :: visited)
          (by rw [List.length_append, List.length_reverse]; omega) hclosed'
        refine ⟨found, hrun, ?_, hf.closed, ?_⟩
        · rintro w (hw | hw)
          · exact hf.keeps w (.inl (List.mem_cons_of_mem v hw))
          · obtain rfl | hw := List.mem_cons.mp hw
            · exact hf.keeps w (.inl List.mem_cons_self)
            · exact hf.keeps w (.inr (List.mem_append_right _ hw))
        · intro w hw
          rcases hf.comes w hw with h | ⟨u, hu, hr⟩
          · obtain rfl | h := List.mem_cons.mp h
            · exact .inr ⟨w, List.mem_cons_self, .refl⟩
            · exact .inl h
          · rcases List.mem_append.mp hu with hu | hu
            · exact .inr ⟨v, List.mem_cons_self, .head (List.mem_reverse.mp hu) hr⟩
            · exact .inr ⟨u, List.mem_cons_of_mem v hu, hr⟩

variable (g) in
theorem visit_isSome (root : α) :
    (g.visit (1 + (g.nodes.flatMap g.succ).length) [root] []).isSome = true := by
  obtain ⟨found, hrun, -⟩ := visit_spec (g := g) (1 + (g.nodes.flatMap g.succ).length) [root] []
    (by simp [unvisitedEdges]) (fun u hu => absurd hu List.not_mem_nil)
  rw [hrun]
  rfl

variable (g) in
def visitedFrom (root : α) : List α :=
  (g.visit (1 + (g.nodes.flatMap g.succ).length) [root] []).get (visit_isSome g root)

theorem mem_visitedFrom : v ∈ g.visitedFrom u ↔ Relation.ReflTransGen g.Edge u v := by
  obtain ⟨found, hrun, hf⟩ := visit_spec (g := g) (1 + (g.nodes.flatMap g.succ).length) [u] []
    (by simp [unvisitedEdges]) (fun w hw => absurd hw List.not_mem_nil)
  rw [visitedFrom, Option.get_of_eq_some _ hrun]
  constructor
  · intro hv
    obtain ⟨x, hx, hr⟩ := (hf.comes v hv).resolve_left List.not_mem_nil
    rwa [List.mem_singleton.mp hx] at hr
  · intro hr
    induction hr with
    | refl => exact hf.keeps u (.inr List.mem_cons_self)
    | tail _ hw ih => exact hf.closed _ ih _ hw

end LayeredGraph
