import TraceMind.Verify.ExplorerSpec
import TraceMind.Foundation.SearchTree

namespace TraceMind.Verify

open BoundedSearch

structure PathFromTo (edges : List (ℕ × List ℕ)) (i j : ℕ) (p : List ℕ) : Prop where
  head : p.head? = some i
  last : p.getLast? = some j
  chain : p.IsChain (Edge edges)

structure ShortestPath (edges : List (ℕ × List ℕ)) (i j : ℕ) (p : List ℕ) : Prop where
  path : PathFromTo edges i j p
  minimal : ∀ q, PathFromTo edges i j q → p.length ≤ q.length

inductive WalksBack (predecessors : List (ℕ × (ℕ × Str))) : ℕ → List ℕ → List ℕ → Prop
  | ended {cur : ℕ} {path : List ℕ} :
    predecessors.lookup cur = none → WalksBack predecessors cur path path
  | seen {cur prev : ℕ} {l : Str} {path : List ℕ} :
    predecessors.lookup cur = some (prev, l) → prev ∈ path →
    WalksBack predecessors cur path path
  | turn {cur prev : ℕ} {l : Str} {path out : List ℕ} :
    predecessors.lookup cur = some (prev, l) → prev ∉ path →
    WalksBack predecessors prev (prev :: path) out → WalksBack predecessors cur path out

def Behind (predecessors : List (ℕ × (ℕ × Str))) : ℕ → ℕ → Prop :=
  Relation.ReflTransGen (fun j i => j ≠ 0 ∧ ∃ l, predecessors.lookup j = some (i, l))

section loop

variable {preds : List (ℕ × (ℕ × Str))} {cur prev : ℕ} {l : Str} {path out : List ℕ}

theorem unused_lt {rest : List ℕ} (hl : preds.lookup cur = some (prev, l)) (hcur : cur ∉ rest) :
    preds.countP (fun e => e.1 ∉ cur :: rest) < preds.countP (fun e => e.1 ∉ rest) := by
  obtain ⟨before, after, rfl, -⟩ := List.lookup_eq_some_iff.mp hl
  have hle (es : List (ℕ × (ℕ × Str))) :
      es.countP (fun e => e.1 ∉ cur :: rest) ≤ es.countP (fun e => e.1 ∉ rest) := by
    refine List.countP_mono_left (fun e _ h => ?_)
    simp only [List.mem_cons, not_or, decide_eq_true_eq] at h ⊢
    exact h.2
  have hout : ¬ decide (cur ∉ cur :: rest) = true := by simp
  have hbefore := hle before
  have hafter := hle after
  rw [List.countP_append, List.countP_append, List.countP_cons, List.countP_cons, if_neg hout,
    if_pos (decide_eq_true hcur)]
  omega

theorem walkBack_spec {fuel : ℕ} {rest : List ℕ} (hnodup : (cur :: rest).Nodup)
    (hf : preds.countP (fun e => e.1 ∉ rest) < fuel) :
    WalksBack preds cur (cur :: rest)
      (ExplorationResult.walkBack preds fuel cur (cur :: rest)) := by
  induction fuel generalizing cur rest with
  | zero => exact absurd hf (Nat.not_lt_zero _)
  | succ fuel ih =>
    rw [ExplorationResult.walkBack]
    cases hl : preds.lookup cur with
    | none => exact .ended hl
    | some e =>
      obtain ⟨prev, l⟩ := e
      dsimp only
      split_ifs with hseen
      · exact .seen hl hseen
      · have hlt := unused_lt hl (List.nodup_cons.mp hnodup).1
        exact .turn hl hseen (ih (List.nodup_cons.mpr ⟨hseen, hnodup⟩)
          (lt_of_lt_of_le hlt (Nat.le_of_lt_succ hf)))

theorem pathTo_walks {V : Type} {r : ExplorationResult V} {target : ℕ}
    (ht : target < r.states.length) :
    WalksBack r.predecessors target [target] (r.pathTo target) := by
  rw [ExplorationResult.pathTo, if_neg (not_le.mpr ht)]
  refine walkBack_spec (List.nodup_singleton target) ?_
  exact Nat.lt_succ_of_le List.countP_le_length

theorem WalksBack.extends (h : WalksBack preds cur path out) : ∃ pre, out = pre ++ path := by
  induction h with
  | ended _ => exact ⟨[], rfl⟩
  | seen _ _ => exact ⟨[], rfl⟩
  | @turn _ prev _ path _ _ _ _ ih =>
    obtain ⟨pre, rfl⟩ := ih
    exact ⟨pre ++ [prev], by simp⟩

theorem WalksBack.nodup (h : WalksBack preds cur path out) (hp : path.Nodup) : out.Nodup := by
  induction h with
  | ended _ => exact hp
  | seen _ _ => exact hp
  | turn _ hseen _ ih => exact ih (List.nodup_cons.mpr ⟨hseen, hp⟩)

theorem WalksBack.root_iff (h : WalksBack preds 0 path out) (hp : path.Nodup)
    (h0 : path.head? = some 0) :
    out = path ∧ (∀ q l, preds.lookup 0 = some (q, l) → q ∈ path) ∨
      out.head? ≠ some 0 ∧ ∃ q l, preds.lookup 0 = some (q, l) ∧ q ∉ path := by
  cases h with
  | ended hl =>
    refine Or.inl ⟨rfl, fun q l hq => ?_⟩
    rw [hl] at hq
    cases hq
  | seen hl hs =>
    refine Or.inl ⟨rfl, fun q l hq => ?_⟩
    rw [hl] at hq
    cases hq
    exact hs
  | @turn _ prev l _ _ hl hs hw =>
    refine Or.inr ⟨fun hhead => ?_, prev, l, hl, hs⟩
    obtain ⟨pre, rfl⟩ := hw.extends
    have hnodup := hw.nodup (List.nodup_cons.mpr ⟨hs, hp⟩)
    have hmem : 0 ∈ path := List.mem_of_head? h0
    cases pre with
    | nil =>
      cases hhead
      exact hs hmem
    | cons a pre =>
      cases hhead
      rw [List.cons_append, List.nodup_cons] at hnodup
      exact hnodup.1 (List.mem_append_right _ (List.mem_cons_of_mem _ hmem))

end loop

section tree

variable {X L κ : Type} {s : Search X L κ} {served i j : ℕ} {p : List ℕ}

theorem PathFromTo.depth_le (hl : Layered s served) (h : PathFromTo s.edges i j p) :
    s.depth j + 1 ≤ s.depth i + p.length := by
  induction p generalizing i with
  | nil => cases h.head
  | cons x xs ih =>
    cases h.head
    cases xs with
    | nil =>
      cases h.last
      exact le_refl _
    | cons y ys =>
      obtain ⟨hxy, hchain⟩ := List.isChain_cons_cons.mp h.chain
      have hrest := ih ⟨rfl, by rw [← h.last, List.getLast?_cons_cons], hchain⟩
      have hstep := (hl.edge x y hxy).2.2
      rw [List.length_cons]
      omega

theorem PathFromTo.snoc {edges : List (ℕ × List ℕ)} {k : ℕ} (h : PathFromTo edges i j p)
    (he : Edge edges j k) : PathFromTo edges i k (p ++ [k]) where
  head := by
    rw [List.head?_append, h.head]
    rfl
  last := List.getLast?_concat
  chain := by
    rw [List.isChain_append]
    refine ⟨h.chain, List.isChain_singleton k, ?_⟩
    intro x hx y hy
    rw [h.last] at hx
    cases hx
    cases hy
    exact he

variable {s : Search X Str κ} {target : ℕ} {rest out : List ℕ}

theorem climb_to_root (h : Layered s served) {n : ℕ} (hn : s.depth target = n)
    (ht : target < s.states.length) (hrest : ∀ x ∈ rest, s.depth target < s.depth x)
    (hw : WalksBack s.predecessors target (target :: rest) out) :
    ∃ front, PathFromTo s.edges 0 target front ∧ front.length = n + 1 ∧
      (∀ x, x ∈ front ↔ Behind s.predecessors target x) ∧
      WalksBack s.predecessors 0 (front ++ rest) out := by
  induction n generalizing target rest with
  | zero =>
    have h0 : target = 0 := by
      by_contra hne
      obtain ⟨i, l, -, hd⟩ := h.tree target (Nat.pos_of_ne_zero hne) ht
      omega
    subst h0
    refine ⟨[0], ⟨rfl, rfl, List.isChain_singleton 0⟩, rfl, fun x => ?_, hw⟩
    rw [List.mem_singleton]
    constructor
    · rintro rfl
      exact .refl
    · intro hx
      cases Relation.ReflTransGen.cases_head hx with
      | inl he => exact he.symm
      | inr he =>
        obtain ⟨_, ⟨hne, -⟩, -⟩ := he
        exact absurd rfl hne
  | succ n ih =>
    have hpos : 0 < target := by
      by_contra hz
      rw [Nat.eq_zero_of_not_pos hz, h.root] at hn
      cases hn
    obtain ⟨i, l, hl, hd⟩ := h.tree target hpos ht
    have hedge := h.preds target i l hl
    have hi : i < s.states.length := lt_of_lt_of_le (h.edge i target hedge).1 h.le
    have hunseen : i ∉ target :: rest := by
      intro hmem
      rcases List.mem_cons.mp hmem with rfl | hmem
      · omega
      · have := hrest i hmem
        omega
    have hturn : WalksBack s.predecessors i (i :: target :: rest) out := by
      cases hw with
      | ended hl' =>
        rw [hl] at hl'
        cases hl'
      | seen hl' hs =>
        rw [hl] at hl'
        cases hl'
        exact absurd hs hunseen
      | turn hl' _ hw' =>
        rw [hl] at hl'
        cases hl'
        exact hw'
    have hbelow : ∀ x ∈ target :: rest, s.depth i < s.depth x := by
      intro x hx
      rcases List.mem_cons.mp hx with rfl | hx
      · omega
      · have := hrest x hx
        omega
    obtain ⟨front, hpath, hlen, hmem, hw'⟩ := ih (by omega) hi hbelow hturn
    refine ⟨front ++ [target], hpath.snoc hedge, by rw [List.length_append, hlen]; rfl,
      fun x => ?_, by rwa [List.append_assoc]⟩
    rw [List.mem_append, List.mem_singleton, hmem]
    have hparent : target ≠ 0 ∧ ∃ l, s.predecessors.lookup target = some (i, l) :=
      ⟨Nat.ne_of_gt hpos, l, hl⟩
    constructor
    · rintro (hx | rfl)
      · exact Relation.ReflTransGen.head hparent hx
      · exact .refl
    · intro hx
      cases Relation.ReflTransGen.cases_head hx with
      | inl he => exact Or.inr he.symm
      | inr he =>
        obtain ⟨k, ⟨-, l', hl'⟩, hk⟩ := he
        rw [hl] at hl'
        cases hl'
        exact Or.inl hk

end tree

section run

variable {μ V : Type} [DecidableEq V] {a : Adapter μ V} {m m' : μ} {maxDepth : ℤ} {mode : HashMode}
  {r : ExplorationResult V} {target : ℕ}

theorem Explorer.run_layered (h : Explorer.run a m maxDepth mode = .ok (r, m')) :
    ∃ s served, r = Explorer.result maxDepth mode s ∧ Layered s served := by
  obtain ⟨root, m1, s, -, hs, rfl⟩ := Explorer.run_eq_ok h
  exact ⟨s, _, rfl, (search_layered hs).1⟩

theorem Explorer.run_wellFormed (h : Explorer.run a m maxDepth mode = .ok (r, m')) :
    r.WellFormed := by
  obtain ⟨s, served, rfl, hl⟩ := Explorer.run_layered h
  have hedge {i : ℕ} {js : List ℕ} (he : (i, js) ∈ s.edges) {j : ℕ} (hj : j ∈ js) :
      Edge s.edges i j := ⟨js, lookup_of_mem hl.table.nodup he, hj⟩
  refine ⟨hl.table.nodup, fun i hi => ?_, fun e he j hj => (hl.edge e.1 j (hedge he hj)).2.1⟩
  obtain ⟨⟨k, js⟩, he, rfl⟩ := List.mem_map.mp hi
  obtain ⟨j, hj⟩ := List.exists_mem_of_ne_nil js (hl.table.filled _ he)
  exact lt_of_lt_of_le (hl.edge k j (hedge he hj)).1 hl.le

theorem path_to_cases (h : Explorer.run a m maxDepth mode = .ok (r, m'))
    (ht : target < r.states.length) :
    ShortestPath r.edges 0 target (r.pathTo target) ∧
        (∀ q l, r.predecessors.lookup 0 = some (q, l) → Behind r.predecessors target q) ∨
      (r.pathTo target).head? ≠ some 0 ∧
        ∃ q l, r.predecessors.lookup 0 = some (q, l) ∧ ¬ Behind r.predecessors target q := by
  have hw := pathTo_walks ht
  obtain ⟨s, served, rfl, hl⟩ := Explorer.run_layered h
  obtain ⟨front, hpath, hlen, hmem, hroot⟩ := climb_to_root hl rfl ht (List.forall_mem_nil _) hw
  rw [List.append_nil] at hroot
  have hnodup : front.Nodup := by
    obtain ⟨pre, hout⟩ := hroot.extends
    have hall := hw.nodup (List.nodup_singleton target)
    rw [hout] at hall
    exact hall.of_append_right
  rcases hroot.root_iff hnodup hpath.head with ⟨hout, hall⟩ | ⟨hhead, q, l, hq, hnot⟩
  · refine Or.inl ⟨?_, fun q l hq => (hmem q).mp (hall q l hq)⟩
    rw [hout]
    refine ⟨hpath, fun p hp => ?_⟩
    have hdepth := hp.depth_le hl
    rw [hl.root, Nat.zero_add] at hdepth
    exact hlen.le.trans hdepth
  · exact Or.inr ⟨hhead, q, l, hq, fun hb => hnot ((hmem q).mpr hb)⟩

theorem path_to_iff (h : Explorer.run a m maxDepth mode = .ok (r, m'))
    (ht : target < r.states.length) :
    WalksBack r.predecessors target [target] (r.pathTo target) ∧
      (ShortestPath r.edges 0 target (r.pathTo target) ↔
        ∀ q l, r.predecessors.lookup 0 = some (q, l) → Behind r.predecessors target q) := by
  refine ⟨pathTo_walks ht, ?_⟩
  rcases path_to_cases h ht with ⟨hs, hall⟩ | ⟨hhead, q, l, hq, hnot⟩
  · exact ⟨fun _ => hall, fun _ => hs⟩
  · constructor
    · intro hs
      exact absurd hs.path.head hhead
    · intro hall
      exact absurd (hall q l hq) hnot

def roundTrip : ComponentAdapter Bool where
  initialState := .ok ⟨SortedMap.ofList [], [], ["a".toList], []⟩
  successors := fun s =>
    .ok ((if s.done = ["a".toList] then ["b".toList, "c".toList]
      else if s.done = ["b".toList] then ["a".toList] else []).map
        (fun d => (d, { s with done := [d] })))
  isDeadlocked := fun _ => false
  enabledSteps := fun _ => []

theorem path_to_first_exit :
    ∃ r u, Explorer.run roundTrip.stateless () 8 .full = .ok (r, u) ∧
      ShortestPath r.edges 0 1 (r.pathTo 1) := by
  have hrun : ∃ r u, Explorer.run roundTrip.stateless () 8 .full = .ok (r, u) ∧
      1 < r.states.length ∧ r.predecessors.lookup 0 = some (1, "a".toList) := by
    refine ⟨_, _, rfl, ?_, ?_⟩
    · decide
    · rfl
  obtain ⟨r, u, hr, hlt, h0⟩ := hrun
  refine ⟨r, u, hr, (path_to_iff hr hlt).2.mpr (fun q l hq => ?_)⟩
  rw [h0] at hq
  cases hq
  exact .refl

theorem path_to_after_round_trip :
    ∃ r u, Explorer.run roundTrip.stateless () 8 .full = .ok (r, u) ∧ 2 < r.states.length ∧
      r.pathTo 2 = [1, 0, 2] ∧ ¬ ShortestPath r.edges 0 2 (r.pathTo 2) := by
  have hrun : ∃ r u, Explorer.run roundTrip.stateless () 8 .full = .ok (r, u) ∧
      r.states.length = 3 ∧ r.pathTo 2 = [1, 0, 2] := by
    refine ⟨_, _, rfl, ?_, ?_⟩
    · rfl
    · decide
  obtain ⟨r, u, hr, hlen, hp⟩ := hrun
  refine ⟨r, u, hr, by rw [hlen]; decide, hp, fun h => ?_⟩
  have hhead := h.path.head
  rw [hp] at hhead
  exact absurd hhead (by decide)

end run

end TraceMind.Verify
