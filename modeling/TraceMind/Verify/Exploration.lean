import TraceMind.Verify.Paths
import TraceMind.Foundation.Fallible
import Mathlib.Order.Bounds.Basic

namespace TraceMind.Verify

open BoundedSearch

section exploration

variable {V : Type}

def Distance (c : ComponentAdapter V) (root s : State V) (k : ℕ) : Prop :=
  IsLeast {n | Walk (Next c.successors) root n s} k

structure Explores (c : ComponentAdapter V) (maxDepth : ℤ) (root : State V)
    (r : ExplorationResult V) : Prop where
  once : r.states.Nodup
  listed : ∀ s, s ∈ r.states ↔ ∃ k, k ≤ maxDepth.toNat ∧ Walk (Next c.successors) root k s
  sorted : r.states.Pairwise (fun s t =>
    ∀ j k, Distance c root s j → Distance c root t k → j ≤ k)
  expanded : ∀ i s k, r.states[i]? = some s → Distance c root s k → k < maxDepth.toNat →
    ∃ ys, c.successors s = .ok ys ∧
      List.Forall₂ (fun y j => r.states[j]? = some y.2) ys ((r.edges.lookup i).getD [])
  frontier : ∀ i s k, r.states[i]? = some s → Distance c root s k → maxDepth.toNat ≤ k →
    r.edges.lookup i = none
  outside : ∀ i, r.states.length ≤ i → r.edges.lookup i = none
  filled : ∀ i, r.edges.lookup i ≠ some []
  deadlocks : ∀ i, i ∈ r.deadlocks ↔
    ∃ s, r.states[i]? = some s ∧ c.isDeadlocked s = true ∧ r.edges.lookup i = none

theorem exists_distance {c : ComponentAdapter V} {root s : State V} {k : ℕ}
    (h : Walk (Next c.successors) root k s) : ∃ j, Distance c root s j := by
  classical
  have hex : ∃ n, Walk (Next c.successors) root n s := ⟨k, h⟩
  exact ⟨Nat.find hex, Nat.find_spec hex, fun n hn => Nat.find_min' hex hn⟩

theorem EdgeTable.lookup_ne_nil {edges : List (ℕ × List ℕ)} (h : EdgeTable edges) (i : ℕ) :
    edges.lookup i ≠ some [] := by
  intro hl
  obtain ⟨before, after, rfl, -⟩ := List.lookup_eq_some_iff.mp hl
  exact h.filled (i, []) (List.mem_append_right _ List.mem_cons_self) rfl

variable {c : ComponentAdapter V} {maxDepth : ℤ} {root : State V}
  {x : Unit × Search (State V) Str (Hash V)} {nodes : List (State V × ℕ)}

abbrev FullRun (c : ComponentAdapter V) (maxDepth : ℤ) (root : State V)
    (x : Unit × Search (State V) Str (Hash V)) (nodes : List (State V × ℕ)) : Prop :=
  Explored (Explorer.space c.stateless maxDepth .full) c.successors id (fun _ _ => True) root x nodes

theorem FullRun.determined (c : ComponentAdapter V) (maxDepth : ℤ) (root : State V) :
    Determined (fun y => (Explorer.space c.stateless maxDepth .full).key (id y)) c.successors
      root :=
  determined_of_injective (fun _ _ _ _ hk => State.stableHash_full_injective hk)

theorem FullRun.distance (h : FullRun c maxDepth root x nodes) {n : State V × ℕ} (hn : n ∈ nodes) :
    Distance c root n.1 n.2 := by
  refine ⟨h.walk n hn, fun k hw => ?_⟩
  by_contra hlt
  obtain ⟨i, hi⟩ := List.getElem?_of_mem hn
  have hk : k ≤ (Explorer.space c.stateless maxDepth .full).bound :=
    (le_of_lt (not_le.mp hlt)).trans (h.bounded n hn)
  obtain ⟨j, n', hj, hkey, hle, -⟩ := h.of_walk (FullRun.determined c maxDepth root) hw hk
  have hsame : n'.1 = n.1 := State.stableHash_full_injective hkey
  obtain rfl := h.index_unique hj hi hsame
  rw [hi] at hj
  cases hj
  exact hlt hle

theorem FullRun.node (h : FullRun c maxDepth root x nodes) {i : ℕ} {s : State V}
    (hs : x.2.states[i]? = some s) : ∃ k, nodes[i]? = some (s, k) := by
  rw [h.states, List.getElem?_map, Option.map_eq_some_iff] at hs
  obtain ⟨n, hn, rfl⟩ := hs
  exact ⟨n.2, hn⟩

theorem FullRun.once (h : FullRun c maxDepth root x nodes) : x.2.states.Nodup := by
  rw [h.states]
  refine List.Nodup.of_map (State.stableHash .full) ?_
  rw [List.map_map]
  exact h.distinct

theorem FullRun.listed (h : FullRun c maxDepth root x nodes) (s : State V) :
    s ∈ x.2.states ↔ ∃ k, k ≤ maxDepth.toNat ∧ Walk (Next c.successors) root k s := by
  rw [h.states, List.mem_map]
  constructor
  · rintro ⟨n, hn, rfl⟩
    exact ⟨n.2, h.bounded n hn, h.walk n hn⟩
  · rintro ⟨k, hk, hw⟩
    obtain ⟨i, n, hn, hkey, -, -⟩ := h.of_walk (FullRun.determined c maxDepth root) hw hk
    exact ⟨n, List.mem_of_getElem? hn, State.stableHash_full_injective hkey⟩

theorem depth_of_node (hdepths : x.2.depths = nodes.zipIdx.map (fun e => (e.2, e.1.2))) {i : ℕ}
    {n : State V × ℕ} (hn : nodes[i]? = some n) : x.2.depth i = n.2 := by
  have hlook := lookup_index (g := fun n : State V × ℕ => n.2) (n := 0) hn
  rw [Nat.zero_add] at hlook
  rw [Search.depth, hdepths, hlook, Option.getD_some]

theorem FullRun.sorted (h : FullRun c maxDepth root x nodes)
    (hdepths : x.2.depths = nodes.zipIdx.map (fun e => (e.2, e.1.2))) {served : ℕ}
    (hl : Layered x.2 served) :
    x.2.states.Pairwise (fun s t => ∀ j k, Distance c root s j → Distance c root t k → j ≤ k) := by
  have hdepth {i : ℕ} (hi : i < x.2.states.length) {k : ℕ}
      (hk : Distance c root x.2.states[i] k) : x.2.depth i = k := by
    obtain ⟨k', hn⟩ := h.node (List.getElem?_eq_getElem hi)
    rw [depth_of_node hdepths hn]
    exact (h.distance (List.mem_of_getElem? hn)).unique hk
  rw [List.pairwise_iff_getElem]
  intro i j hi hj hij a b ha hb
  have hmono := hl.mono i j (le_of_lt hij) hj
  rwa [hdepth hi ha, hdepth hj hb] at hmono

theorem FullRun.expanded (h : FullRun c maxDepth root x nodes) {i k : ℕ} {s : State V}
    (hs : x.2.states[i]? = some s) (hd : Distance c root s k) (hk : k < maxDepth.toNat) :
    ∃ ys, c.successors s = .ok ys ∧
      List.Forall₂ (fun y j => x.2.states[j]? = some y.2) ys ((x.2.edges.lookup i).getD []) := by
  obtain ⟨k', hn⟩ := h.node hs
  obtain rfl : k' = k := (h.distance (List.mem_of_getElem? hn)).unique hd
  obtain ⟨ys, hys, hall⟩ := (h.edges i _ hn).2 hk
  refine ⟨ys, hys, hall.imp (fun y j hy => ?_)⟩
  obtain ⟨⟨n, hj, hkey⟩, -⟩ := hy
  have hsame : n.1 = y.2 := State.stableHash_full_injective hkey
  rw [h.states, List.getElem?_map, hj]
  exact congrArg some hsame

theorem FullRun.frontier (h : FullRun c maxDepth root x nodes) {i k : ℕ} {s : State V}
    (hs : x.2.states[i]? = some s) (hd : Distance c root s k) (hk : maxDepth.toNat ≤ k) :
    x.2.edges.lookup i = none := by
  obtain ⟨k', hn⟩ := h.node hs
  obtain rfl : k' = k := (h.distance (List.mem_of_getElem? hn)).unique hd
  exact (h.edges i _ hn).1 hk

theorem FullRun.outside (h : FullRun c maxDepth root x nodes) {i : ℕ}
    (hi : x.2.states.length ≤ i) : x.2.edges.lookup i = none := by
  refine lookup_none_of_not_mem (fun hm => ?_)
  have hlt := h.keys_lt i hm
  rw [h.states, List.length_map] at hi
  omega

theorem FullRun.lookup_none_iff (h : FullRun c maxDepth root x nodes)
    (hdepths : x.2.depths = nodes.zipIdx.map (fun e => (e.2, e.1.2))) {served : ℕ}
    (hl : Layered x.2 served) {i : ℕ} {s : State V} (hs : x.2.states[i]? = some s) :
    x.2.edges.lookup i = none ↔
      (decide ((Explorer.space c.stateless maxDepth .full).bound ≤ x.2.depth i) ||
        leaf (Explorer.space c.stateless maxDepth .full) s) = true := by
  obtain ⟨k, hn⟩ := h.node hs
  rw [depth_of_node hdepths hn, Bool.or_eq_true, decide_eq_true_iff]
  rcases lt_or_ge k (Explorer.space c.stateless maxDepth .full).bound with hk | hk
  · obtain ⟨ys, hys, hall⟩ := (h.edges i _ hn).2 hk
    have hleaf : leaf (Explorer.space c.stateless maxDepth .full) s = ys.isEmpty := by
      have hsucc : (Explorer.space c.stateless maxDepth .full).succ () s = .ok (ys, ()) := by
        change (c.successors s).map _ = _
        rw [hys]
        rfl
      rw [leaf, hsucc]
    rw [hleaf, List.isEmpty_iff, or_iff_right (not_le.mpr hk)]
    constructor
    · intro hnone
      rw [hnone] at hall
      exact List.forall₂_nil_right_iff.mp hall
    · intro hnil
      subst hnil
      cases hlook : x.2.edges.lookup i with
      | none => rfl
      | some js =>
        rw [hlook] at hall
        have hjs : js = [] := List.forall₂_nil_left_iff.mp hall
        exact absurd (hjs ▸ hlook) (EdgeTable.lookup_ne_nil hl.table i)
  · exact ⟨fun _ => Or.inl hk, fun _ => (h.edges i _ hn).1 hk⟩

theorem FullRun.deadlocks (h : FullRun c maxDepth root x nodes)
    (hdepths : x.2.depths = nodes.zipIdx.map (fun e => (e.2, e.1.2))) {served : ℕ}
    (hl : Layered x.2 served)
    (hnoted : x.2.deadlocks = (List.range x.2.states.length).filter
      (blocked (Explorer.space c.stateless maxDepth .full) x.2)) (i : ℕ) :
    i ∈ x.2.deadlocks ↔
      ∃ s, x.2.states[i]? = some s ∧ c.isDeadlocked s = true ∧ x.2.edges.lookup i = none := by
  rw [hnoted, List.mem_filter, List.mem_range]
  constructor
  · rintro ⟨hi, hb⟩
    have hs := List.getElem?_eq_getElem hi
    rw [blocked, hs] at hb
    obtain ⟨hquiet, hdead⟩ := Bool.and_eq_true_iff.mp hb
    exact ⟨_, hs, hdead, (h.lookup_none_iff hdepths hl hs).mpr hquiet⟩
  · rintro ⟨s, hs, hdead, hnone⟩
    refine ⟨(List.getElem?_eq_some_iff.mp hs).1, ?_⟩
    rw [blocked, hs]
    exact Bool.and_eq_true_iff.mpr ⟨(h.lookup_none_iff hdepths hl hs).mp hnone, hdead⟩

end exploration

section adapter

variable {V : Type} [PyValue V]

theorem TraceMindAdapter.successors_of_isDeadlocked {a : TraceMindAdapter V}
    {s : State V} (h : a.isDeadlocked s = true) : a.successors s = .ok [] := by
  obtain ⟨-, hnone⟩ := Bool.and_eq_true_iff.mp h
  rw [successors, List.isEmpty_iff.mp hnone]
  rfl

end adapter

section run

variable {V : Type} [DecidableEq V]

theorem explores_of_run {c : ComponentAdapter V} {maxDepth : ℤ} {r : ExplorationResult V}
    {u : Unit} (h : Explorer.run c.stateless () maxDepth .full = .ok (r, u)) :
    ∃ root, c.initialState = .ok root ∧ Explores c maxDepth root r := by
  obtain ⟨root, m1, s, hi, hs, rfl⟩ := Explorer.run_eq_ok h
  have hroot : c.initialState = .ok root := by
    change c.initialState.map _ = _ at hi
    obtain ⟨st, hst, he⟩ := Fallible.map_eq_ok.mp hi
    cases he
    exact hst
  obtain ⟨nodes, hfull, hdepths⟩ :
      ∃ nodes, FullRun c maxDepth root (u, s) nodes ∧
        s.depths = nodes.zipIdx.map (fun e => (e.2, e.1.2)) :=
    search_depths (stateless_lawful c maxDepth .full) trivial hs
  have hl := (search_layered hs).1
  exact ⟨root, hroot,
    { once := hfull.once
      listed := hfull.listed
      sorted := hfull.sorted hdepths hl
      expanded := fun _ _ _ => hfull.expanded
      frontier := fun _ _ _ => hfull.frontier
      outside := fun _ => hfull.outside
      filled := EdgeTable.lookup_ne_nil hl.table
      deadlocks := hfull.deadlocks hdepths hl (search_deadlocks hs) }⟩

theorem explorer_run_spec [PyValue V] :
    (∀ (c : ComponentAdapter V) (maxDepth : ℤ) (r : ExplorationResult V) (u : Unit),
      Explorer.run c.stateless () maxDepth .full = .ok (r, u) →
      ∃ root, c.initialState = .ok root ∧ Explores c maxDepth root r) ∧
    (∀ (a : TraceMindAdapter V) (maxDepth : ℤ) (r : ExplorationResult V) (u : Unit),
      Explorer.run a.component.stateless () maxDepth .full = .ok (r, u) →
      ∀ i, i ∈ r.deadlocks ↔
        ∃ s, r.states[i]? = some s ∧ s.pending ≠ [] ∧ a.enabledSteps s = []) := by
  refine ⟨fun c maxDepth r u h => explores_of_run h, fun a maxDepth r u h i => ?_⟩
  obtain ⟨root, -, hr⟩ := explores_of_run h
  rw [hr.deadlocks]
  refine exists_congr (fun s => and_congr_right (fun hs => ?_))
  have hdead : a.component.isDeadlocked s = true ↔ s.pending ≠ [] ∧ a.enabledSteps s = [] := by
    change (!s.pending.isEmpty && (a.enabledSteps s).isEmpty) = true ↔ _
    rw [Bool.and_eq_true, Bool.not_eq_true', List.isEmpty_eq_false_iff, List.isEmpty_iff]
  rw [← hdead]
  constructor
  · exact fun hh => hh.1
  · refine fun hh => ⟨hh, ?_⟩
    obtain ⟨_, -, hw⟩ := (hr.listed s).mp (List.mem_of_getElem? hs)
    obtain ⟨k, hd⟩ := exists_distance hw
    rcases lt_or_ge k maxDepth.toNat with hk | hk
    · obtain ⟨ys, hys, hall⟩ := hr.expanded i s k hs hd hk
      have hnil : a.component.successors s = .ok [] := a.successors_of_isDeadlocked hh
      rw [hnil] at hys
      cases hys
      have hedges := List.forall₂_nil_left_iff.mp hall
      cases hlook : r.edges.lookup i with
      | none => rfl
      | some js =>
        rw [hlook] at hedges
        exact absurd (hedges ▸ hlook) (hr.filled i)
    · exact hr.frontier i s k hs hd hk

def stuckAdapter : TraceMindAdapter Bool where
  plan := ⟨SortedMap.ofList [(['a'], ⟨['a'], [], [['x']], []⟩),
    (['b'], ⟨['b'], [['y']], [], []⟩)], []⟩
  initialStore := SortedMap.ofList []
  changedPaths := []
  initialPending := [['a'], ['b']]
  initialDone := []

theorem explorer_run_stuck :
    ∃ r u root s, Explorer.run stuckAdapter.component.stateless () 3 .full = .ok (r, u) ∧
      Explores stuckAdapter.component 3 root r ∧ r.states[1]? = some s ∧
      s.pending ≠ [] ∧ stuckAdapter.enabledSteps s = [] := by
  have hrun : ∃ r u, Explorer.run stuckAdapter.component.stateless () 3 .full = .ok (r, u) ∧
      1 ∈ r.deadlocks := ⟨_, _, rfl, by decide +kernel⟩
  obtain ⟨r, u, h, hmem⟩ := hrun
  obtain ⟨hall, hdead⟩ := explorer_run_spec (V := Bool)
  obtain ⟨root, -, hr⟩ := hall _ _ _ _ h
  obtain ⟨s, hs, hp, he⟩ := (hdead stuckAdapter 3 r u h 1).mp hmem
  exact ⟨r, u, root, s, h, hr, hs, hp, he⟩

end run

end TraceMind.Verify
