import TraceMind.Verify.CtlCorrect

namespace TraceMind.Verify

open BoundedSearch Branching

variable {μ V Y : Type}

def Expr.All (P : Str → Option Str → Prop) : Expr → Prop
  | .predicate n v => P n v
  | .not c => c.All P
  | .and l r => l.All P ∧ r.All P
  | .or l r => l.All P ∧ r.All P
  | .ctl _ c => c.All P
  | .until _ l r => l.All P ∧ r.All P

theorem Expr.All.imp {P Q : Str → Option Str → Prop} {e : Expr} (h : e.All P)
    (hPQ : ∀ n v, P n v → Q n v) : e.All Q := by
  induction e with
  | predicate n v => exact hPQ n v h
  | not c ih => exact ih h
  | and l r ihl ihr => exact ⟨ihl h.1, ihr h.2⟩
  | or l r ihl ihr => exact ⟨ihl h.1, ihr h.2⟩
  | ctl op c ih => exact ih h
  | «until» op l r ihl ihr => exact ⟨ihl h.1, ihr h.2⟩

namespace Ctl

def truth (enabled : State V → List Str) (s : State V) : Expr → Bool
  | .predicate n v => evalPredicate enabled n v s
  | .not c => !truth enabled s c
  | .and l r => truth enabled s l && truth enabled s r
  | .or l r => truth enabled s l || truth enabled s r
  | .ctl _ _ => false
  | .until _ _ _ => false

theorem evalStateExpr_eq (enabled : State V → List Str) (s : State V) {e : Expr}
    (h : hasCtlNodes e = false) : evalStateExpr enabled s e = .ok (truth enabled s e) := by
  induction e with
  | predicate n v => rfl
  | not c ih =>
    rw [evalStateExpr, ih h]
    rfl
  | and l r ihl ihr =>
    obtain ⟨hl, hr⟩ := Bool.or_eq_false_iff.mp h
    rw [evalStateExpr, ihl hl, ihr hr, truth]
    cases truth enabled s l <;> rfl
  | or l r ihl ihr =>
    obtain ⟨hl, hr⟩ := Bool.or_eq_false_iff.mp h
    rw [evalStateExpr, ihl hl, ihr hr, truth]
    cases truth enabled s l <;> rfl
  | ctl op c => simp [hasCtlNodes] at h
  | «until» op l r => simp [hasCtlNodes] at h

def Readable (mode : HashMode) (e : Expr) : Prop :=
  mode = .full ∨ e.All (fun n _ =>
    lower n ≠ "terminal".toList ∧ lower n ≠ "pending".toList ∧ lower n ≠ "done".toList)

theorem truth_congr {enabled enabled' : State V → List Str} {s t : State V} {e : Expr}
    (h : e.All (fun n v => evalPredicate enabled n v s = evalPredicate enabled' n v t)) :
    truth enabled s e = truth enabled' t e := by
  induction e with
  | predicate n v => exact h
  | not c ih => rw [truth, truth, ih h]
  | and l r ihl ihr => rw [truth, truth, ihl h.1, ihr h.2]
  | or l r ihl ihr => rw [truth, truth, ihl h.1, ihr h.2]
  | ctl op c => rfl
  | «until» op l r => rfl

theorem truth_of_hash {mode : HashMode} {e : Expr} (h : Readable mode e)
    (enabled : State V → List Str) {s t : State V} (hk : s.stableHash mode = t.stableHash mode) :
    truth enabled s e = truth enabled t e := by
  rcases h with rfl | h
  · rw [State.stableHash_full_injective hk]
  · have hst := State.store_of_hash hk
    refine truth_congr (h.imp (fun n v hn => ?_))
    simp only [evalPredicate, if_neg hn.1, if_neg hn.2.1, if_neg hn.2.2, hst]

variable {m : ExplorationResult V} {m' : ExplorationResult V}
  {enabled enabled' : State V → List Str}

theorem holds_truth {e : Expr} (h : hasCtlNodes e = false) {i : ℕ} {s : State V}
    (hs : m.states[i]? = some s) : Holds m enabled e i ↔ truth enabled s e = true := by
  induction e with
  | predicate n v => simp [Holds, hs, truth]
  | not c ih => exact (not_congr (ih h)).trans (by simp [truth])
  | and l r ihl ihr =>
    obtain ⟨hl, hr⟩ := Bool.or_eq_false_iff.mp h
    exact (and_congr (ihl hl) (ihr hr)).trans (by simp [truth])
  | or l r ihl ihr =>
    obtain ⟨hl, hr⟩ := Bool.or_eq_false_iff.mp h
    exact (or_congr (ihl hl) (ihr hr)).trans (by simp [truth])
  | ctl op c => simp [hasCtlNodes] at h
  | «until» op l r => simp [hasCtlNodes] at h

theorem holds_agree {Z : ℕ → ℕ → Prop} (hZ : Bisim (Step m) (Step m') Z)
    {P : Str → Option Str → Prop}
    (hP : ∀ n v, P n v → Agree Z (Holds m enabled (.predicate n v))
      (Holds m' enabled' (.predicate n v))) :
    ∀ e : Expr, e.All P → Agree Z (Holds m enabled e) (Holds m' enabled' e) := by
  intro e
  induction e with
  | predicate n v => exact hP n v
  | not c ih => exact fun h => (ih h).not
  | and l r ihl ihr => exact fun h a b hz => and_congr (ihl h.1 a b hz) (ihr h.2 a b hz)
  | or l r ihl ihr => exact fun h a b hz => or_congr (ihl h.1 a b hz) (ihr h.2 a b hz)
  | ctl op c ih =>
    intro h
    cases op with
    | EX => exact hZ.EX_agree (ih h)
    | EF => exact hZ.EF_agree (ih h)
    | EG => exact hZ.EG_agree (ih h)
    | AF => exact hZ.AF_agree (ih h)
    | AG => exact hZ.AG_agree (ih h)
  | «until» op l r ihl ihr =>
    intro h
    cases op with
    | EU => exact hZ.EU_agree (ihl h.1) (ihr h.2)
    | AU => exact hZ.AU_agree (ihl h.1) (ihr h.2)

end Ctl

namespace Explorer

variable {a : Adapter μ V} {maxDepth : ℤ} {mode : HashMode}
  {next : Y → Except Err (List (Str × Y))} {rep : Y → State V} {knows : μ → Y → Prop} {y0 : Y}
  {x : μ × Search (State V) Str (Hash V)} {nodes : List (Y × ℕ)}

theorem result_wellFormed (h : Explored (space a maxDepth mode) next rep knows y0 x nodes) :
    (result maxDepth mode x.2).WellFormed where
  keys_nodup := h.keys_nodup
  keys_lt := by
    intro i hi
    change i < x.2.states.length
    rw [h.states, List.length_map]
    exact h.keys_lt i hi
  targets_lt := by
    rintro ⟨i, js⟩ he j hj
    change j < x.2.states.length
    have hlt := h.keys_lt i (List.mem_map_of_mem he)
    obtain ⟨-, z, n', -, hn', -⟩ := h.edge_hits (List.getElem?_eq_getElem hlt)
      ⟨js, lookup_of_mem h.keys_nodup he, hj⟩
    rw [h.states, List.length_map]
    exact (List.getElem?_eq_some_iff.mp hn').1

theorem state_of_node (h : Explored (space a maxDepth mode) next rep knows y0 x nodes) {i : ℕ}
    {n : Y × ℕ} (hn : nodes[i]? = some n) :
    (result maxDepth mode x.2).states[i]? = some (rep n.1) := by
  change x.2.states[i]? = _
  rw [h.states, List.getElem?_map, hn]
  rfl

theorem node_of_state (h : Explored (space a maxDepth mode) next rep knows y0 x nodes) {i : ℕ}
    {s : State V} (hs : (result maxDepth mode x.2).states[i]? = some s) :
    ∃ n, nodes[i]? = some n ∧ rep n.1 = s := by
  change x.2.states[i]? = _ at hs
  rw [h.states, List.getElem?_map, Option.map_eq_some_iff] at hs
  exact hs

theorem root_lt (h : Explored (space a maxDepth mode) next rep knows y0 x nodes) :
    0 < (result maxDepth mode x.2).states.length :=
  (List.getElem?_eq_some_iff.mp (state_of_node h h.root)).1

theorem reach_lt (h : Explored (space a maxDepth mode) next rep knows y0 x nodes) {i : ℕ}
    (hr : Relation.ReflTransGen (Ctl.Step (result maxDepth mode x.2)) 0 i) :
    ∃ n, nodes[i]? = some n := by
  have hlt : i < (result maxDepth mode x.2).states.length := by
    cases hr with
    | refl => exact root_lt h
    | tail _ hs => exact (Ctl.step_lt (result_wellFormed h) hs).2
  obtain ⟨n, hn, -⟩ := node_of_state h (List.getElem?_eq_getElem hlt)
  exact ⟨n, hn⟩

section verdict

variable (h : Explored (space a maxDepth mode) next rep knows y0 x nodes)
  (hdet : Determined (fun y => (rep y).stableHash mode) next y0)

include h hdet

theorem mem_AG_iff {e : Expr} (he : Ctl.hasCtlNodes e = false) (hr : Ctl.Readable mode e)
    (enabled : State V → List Str) :
    0 ∈ Ctl.checkCtl (.ctl .AG e) (result maxDepth mode x.2) enabled ↔
      ∀ k y, Walk (Next next) y0 k y → k ≤ maxDepth.toNat →
        Ctl.truth enabled (rep y) e = true := by
  rw [Ctl.checkCtl_denotes (result_wellFormed h), and_iff_right (root_lt h), Ctl.Holds,
    AG_iff_reach]
  refine Iff.trans ?_ (h.forall_reach hdet (fun y => Ctl.truth enabled (rep y) e = true)
    (fun y z hk ht => (Ctl.truth_of_hash hr enabled hk).symm.trans ht))
  constructor
  · intro hp i n hr hn
    exact (Ctl.holds_truth he (state_of_node h hn)).mp (hp i hr)
  · intro hp i hr
    obtain ⟨n, hn⟩ := reach_lt h hr
    exact (Ctl.holds_truth he (state_of_node h hn)).mpr (hp i n hr hn)

theorem mem_EF_iff {e : Expr} (he : Ctl.hasCtlNodes e = false) (hr : Ctl.Readable mode e)
    (enabled : State V → List Str) :
    0 ∈ Ctl.checkCtl (.ctl .EF e) (result maxDepth mode x.2) enabled ↔
      ∃ k y, Walk (Next next) y0 k y ∧ k ≤ maxDepth.toNat ∧
        Ctl.truth enabled (rep y) e = true := by
  have hall := h.forall_reach hdet (fun y => ¬ Ctl.truth enabled (rep y) e = true)
    (fun y z hk ht => by rwa [← Ctl.truth_of_hash hr enabled hk])
  rw [Ctl.checkCtl_denotes (result_wellFormed h), and_iff_right (root_lt h), Ctl.Holds,
    EF_iff_reach]
  constructor
  · rintro ⟨i, hr, hi⟩
    by_contra hno
    push Not at hno
    obtain ⟨n, hn⟩ := reach_lt h hr
    exact hall.mpr (fun k y hw hk ht => hno k y hw hk ht) i n hr hn
      ((Ctl.holds_truth he (state_of_node h hn)).mp hi)
  · rintro ⟨k, y, hw, hk, ht⟩
    by_contra hno
    push Not at hno
    refine hall.mp (fun i n hr hn hti => ?_) k y hw hk ht
    exact hno i hr ((Ctl.holds_truth he (state_of_node h hn)).mpr hti)

end verdict

theorem run_eq_ok [DecidableEq V] {m m' : μ} {r : ExplorationResult V}
    (h : run a m maxDepth mode = .ok (r, m')) :
    ∃ root m1 s, a.initialState m = .ok (root, m1) ∧
      search (space a maxDepth mode) m1 root = .ok (m', s) ∧ r = result maxDepth mode s := by
  unfold run at h
  cases hi : a.initialState m with
  | error e =>
    rw [hi] at h
    cases h
  | ok p =>
    obtain ⟨root, m1⟩ := p
    rw [hi] at h
    cases hs : search (space a maxDepth mode) m1 root with
    | error e =>
      simp only [bind, Except.bind, hs] at h
      cases h
    | ok q =>
      obtain ⟨m2, s⟩ := q
      simp only [bind, Except.bind, hs] at h
      cases h
      exact ⟨root, m1, s, rfl, hs, rfl⟩

end Explorer

section pure

variable {c : ComponentAdapter V}

theorem stateless_lawful (c : ComponentAdapter V) (maxDepth : ℤ) (mode : HashMode) :
    Lawful (Explorer.space c.stateless maxDepth mode) c.successors id (fun _ _ => True) where
  error := by
    intro m y e _ he
    change (c.successors y).map _ = _
    rw [he]
    rfl
  ok := by
    intro m y ys _ hy
    refine ⟨(), ?_, fun _ _ => trivial, fun _ _ => trivial⟩
    change (c.successors y).map _ = _
    rw [hy]
    simp [Except.map]

theorem explored_of_run [DecidableEq V] {maxDepth : ℤ} {mode : HashMode} {r : ExplorationResult V}
    {u : Unit} (h : Explorer.run c.stateless () maxDepth mode = .ok (r, u)) :
    ∃ root x nodes, c.initialState = .ok root ∧ r = Explorer.result maxDepth mode x.2 ∧
      Explored (Explorer.space c.stateless maxDepth mode) c.successors id (fun _ _ => True) root
        x nodes := by
  obtain ⟨root, m1, s, hi, hs, hr⟩ := Explorer.run_eq_ok h
  have hroot : c.initialState = .ok root := by
    change c.initialState.map _ = _ at hi
    cases hc : c.initialState with
    | error e =>
      rw [hc] at hi
      cases hi
    | ok st =>
      rw [hc] at hi
      cases hi
      rfl
  have hex : ∃ nodes, Explored (Explorer.space c.stateless maxDepth mode) c.successors id
      (fun _ _ => True) root (u, s) nodes :=
    search_ok (stateless_lawful c maxDepth mode) trivial hs
  obtain ⟨nodes, hex⟩ := hex
  exact ⟨root, (u, s), nodes, hroot, hr, hex⟩

end pure

theorem TraceMindAdapter.reach_get? [PyValue V] {a : TraceMindAdapter V} {root s : State V}
    (hroot : a.initialState = .ok root)
    (hr : Relation.ReflTransGen (Next a.successors) root s) {k : Str} {v : V}
    (hv : s.store.get? k = some v) :
    v = PyValue.pyTrue ∨ a.initialStore.get? k = some v := by
  induction hr with
  | refl =>
    rw [initialState_store hroot] at hv
    exact Or.inr hv
  | tail _ hm ih =>
    obtain ⟨ys, hy, hmem⟩ := hm
    obtain ⟨⟨l, t⟩, he, rfl⟩ := List.mem_map.mp hmem
    rcases successors_get? hy he hv with hv | hv
    · exact Or.inl hv
    · exact ih hv

end TraceMind.Verify
