import TraceMind.Verify.ExplorerSpec

namespace TraceMind.Verify.StoreHash

open BoundedSearch Branching Ctl

variable {V : Type}

def HasOnly (e : Expr) : Prop := e.All (fun n _ => lower n = "has".toList)

theorem hasOnly_has (v : Option Str) : HasOnly (.predicate "has".toList v) :=
  show lower "has".toList = "has".toList by decide

abbrev Move (c : ComponentAdapter V) : State V → State V → Prop := Next c.successors

def Reachable (c : ComponentAdapter V) (s : State V) : Prop :=
  ∃ root, c.initialState = .ok root ∧ Relation.ReflTransGen (Move c) root s

def StoreDetermined (c : ComponentAdapter V) : Prop :=
  ∀ s t, Reachable c s → Reachable c t → s.store = t.store →
    ∀ s', Move c s s' → ∃ t', Move c t t' ∧ t'.store = s'.store

def noMoves : Except Err (List (Str × State V)) → Bool
  | .ok [] => true
  | _ => false

def exhausted (c : ComponentAdapter V) (r : ExplorationResult V) : Bool :=
  r.states.zipIdx.all (fun e => (r.edges.lookup e.2).isSome || noMoves (c.successors e.1))

section separation

variable {m m' : ExplorationResult V} {enabled enabled' : State V → List Str}

def SameFormulas (m m' : ExplorationResult V) (enabled enabled' : State V → List Str)
    (i j : ℕ) : Prop :=
  (i < m.states.length ∧ j < m'.states.length) ∧
    ∀ e, HasOnly e → (Holds m enabled e i ↔ Holds m' enabled' e j)

theorem SameFormulas.symm {i j : ℕ} (h : SameFormulas m m' enabled enabled' i j) :
    SameFormulas m' m enabled' enabled j i :=
  ⟨h.1.symm, fun e he => (h.2 e he).symm⟩

theorem exists_separating {i : ℕ} {js : List ℕ}
    (h : ∀ j ∈ js, ∃ e, HasOnly e ∧ Holds m enabled e i ∧ ¬ Holds m' enabled' e j) :
    ∃ e, HasOnly e ∧ Holds m enabled e i ∧ ∀ j ∈ js, ¬ Holds m' enabled' e j := by
  induction js with
  | nil =>
    let p : Expr := .predicate "has".toList none
    refine ⟨.or p (.not p), ⟨hasOnly_has none, hasOnly_has none⟩, ?_, by simp⟩
    exact Classical.em (Holds m enabled p i)
  | cons j js ih =>
    obtain ⟨e, he, hi, hjs⟩ := ih (fun k hk => h k (List.mem_cons_of_mem _ hk))
    obtain ⟨d, hd, hi', hj⟩ := h j List.mem_cons_self
    refine ⟨.and d e, ⟨hd, he⟩, ⟨hi', hi⟩, fun k hk hc => ?_⟩
    rcases List.mem_cons.mp hk with rfl | hk
    · exact hj hc.1
    · exact hjs k hk hc.2

theorem SameFormulas.forth (hm : m.WellFormed) (hm' : m'.WellFormed) {i j i' : ℕ}
    (h : SameFormulas m m' enabled enabled' i j) (hs : Step m i i') :
    ∃ j', Step m' j j' ∧ SameFormulas m m' enabled enabled' i' j' := by
  by_contra hno
  have hsep : ∀ j' ∈ (m'.edges.lookup j).getD [],
      ∃ e, HasOnly e ∧ Holds m enabled e i' ∧ ¬ Holds m' enabled' e j' := by
    intro j' hj'
    have hstep : Step m' j j' := by
      cases hl : m'.edges.lookup j with
      | none => simp [hl] at hj'
      | some js => exact ⟨js, hl, by simpa [hl] using hj'⟩
    by_contra hall
    push Not at hall
    refine hno ⟨j', hstep, ⟨(step_lt hm hs).2, (step_lt hm' hstep).2⟩, fun e he => ⟨hall e he, ?_⟩⟩
    intro hj
    by_contra hi
    exact hall (.not e) he hi hj
  obtain ⟨e, he, hi, hjs⟩ := exists_separating hsep
  have hex : Holds m enabled (.ctl .EX e) i := EX_iff.mpr ⟨i', hs, hi⟩
  obtain ⟨j', ⟨js, hl, hj'⟩, hh⟩ := EX_iff.mp ((h.2 (.ctl .EX e) he).mp hex)
  exact hjs j' (by rw [hl]; exact hj') hh

theorem sameFormulas_bisim (hm : m.WellFormed) (hm' : m'.WellFormed) :
    Bisim (Step m) (Step m') (SameFormulas m m' enabled enabled') where
  forth := fun h hs => h.forth hm hm' hs
  back := fun h hs => by
    obtain ⟨i', hi, h'⟩ := h.symm.forth hm' hm hs
    exact ⟨i', hi, h'.symm⟩

theorem SameFormulas.contains_eq {i j : ℕ} {s t : State V}
    (h : SameFormulas m m' enabled enabled' i j) (hs : m.states[i]? = some s)
    (ht : m'.states[j]? = some t) (k : Str) : s.store.contains k = t.store.contains k := by
  have hk := h.2 (.predicate "has".toList (some k)) (hasOnly_has (some k))
  have e (en : State V → List Str) (u : State V) :
      evalPredicate en "has".toList (some k) u = u.store.contains k := rfl
  simp only [Holds, hs, ht, Option.some.injEq, exists_eq_left', e] at hk
  exact Bool.eq_iff_iff.mpr hk

end separation

section explored

variable {c : ComponentAdapter V} {maxDepth : ℤ} {mode : HashMode} {root : State V}
  {x : Unit × Search (State V) Str (Hash V)} {nodes : List (State V × ℕ)}

abbrev Run (c : ComponentAdapter V) (maxDepth : ℤ) (mode : HashMode) (root : State V)
    (x : Unit × Search (State V) Str (Hash V)) (nodes : List (State V × ℕ)) : Prop :=
  Explored (Explorer.space c.stateless maxDepth mode) c.successors id (fun _ _ => True) root x
    nodes

theorem node_reachable (hroot : c.initialState = .ok root) (h : Run c maxDepth mode root x nodes)
    {i : ℕ} {n : State V × ℕ} (hn : nodes[i]? = some n) : Reachable c n.1 :=
  ⟨root, hroot, (h.walk n (List.mem_of_getElem? hn)).reach⟩

theorem exhausted_expanded (h : Run c maxDepth mode root x nodes)
    (hx : exhausted c (Explorer.result maxDepth mode x.2) = true) {i : ℕ} {n : State V × ℕ}
    {z : State V} (hn : nodes[i]? = some n) (hz : Move c n.1 z) : n.2 < maxDepth.toNat := by
  by_contra hb
  have hl := (h.edges i n hn).1 (not_lt.mp hb)
  have hs : (Explorer.result maxDepth mode x.2).states[i]? = some n.1 :=
    Explorer.state_of_node h hn
  have hall := (List.all_eq_true.mp hx) (n.1, i) (by
    rw [List.mem_zipIdx_iff_getElem?]
    exact hs)
  change ((x.2.edges.lookup i).isSome || noMoves (c.successors n.1)) = true at hall
  obtain ⟨ys, hy, hmem⟩ := hz
  rw [hl, hy] at hall
  cases ys with
  | nil => simp at hmem
  | cons e ys => simp [noMoves] at hall

theorem step_hits (h : Run c maxDepth mode root x nodes) {i j : ℕ} {n : State V × ℕ}
    (hn : nodes[i]? = some n) (he : Step (Explorer.result maxDepth mode x.2) i j) :
    ∃ z n', Move c n.1 z ∧ nodes[j]? = some n' ∧ n'.1.stableHash mode = z.stableHash mode :=
  (h.edge_hits hn he).2

theorem exhausted_hits (h : Run c maxDepth mode root x nodes)
    (hx : exhausted c (Explorer.result maxDepth mode x.2) = true) {i : ℕ} {n : State V × ℕ}
    {z : State V} (hn : nodes[i]? = some n) (hz : Move c n.1 z) :
    ∃ j n', Step (Explorer.result maxDepth mode x.2) i j ∧ nodes[j]? = some n' ∧
      n'.1.stableHash mode = z.stableHash mode := by
  obtain ⟨j, n', he, hn', hk, -⟩ := h.hits_edge hn (exhausted_expanded h hx hn hz) hz
  exact ⟨j, n', he, hn', hk⟩

theorem reachable_node (h : Run c maxDepth .full root x nodes)
    (hx : exhausted c (Explorer.result maxDepth .full x.2) = true) {s : State V}
    (hs : Relation.ReflTransGen (Move c) root s) :
    ∃ i n, nodes[i]? = some n ∧ n.1 = s ∧
      Relation.ReflTransGen (Step (Explorer.result maxDepth .full x.2)) 0 i := by
  induction hs with
  | refl => exact ⟨0, (root, 0), h.root, rfl, .refl⟩
  | tail _ hst ih =>
    obtain ⟨i, n, hn, rfl, hr⟩ := ih
    obtain ⟨j, n', he, hn', hk⟩ := exhausted_hits h hx hn hst
    exact ⟨j, n', hn', State.stableHash_full_injective hk, hr.tail he⟩

section both

variable {full store : Unit × Search (State V) Str (Hash V)} {fullNodes storeNodes :
  List (State V × ℕ)}

def SameStore (fullNodes storeNodes : List (State V × ℕ)) (i j : ℕ) : Prop :=
  ∃ n n', fullNodes[i]? = some n ∧ storeNodes[j]? = some n' ∧ n.1.store = n'.1.store

theorem sameStore_bisim (hroot : c.initialState = .ok root)
    (hf : Run c maxDepth .full root full fullNodes)
    (hs : Run c maxDepth .store root store storeNodes)
    (hxf : exhausted c (Explorer.result maxDepth .full full.2) = true)
    (hxs : exhausted c (Explorer.result maxDepth .store store.2) = true)
    (hdet : StoreDetermined c) :
    Bisim (Step (Explorer.result maxDepth .full full.2))
      (Step (Explorer.result maxDepth .store store.2)) (SameStore fullNodes storeNodes) where
  forth := by
    rintro i j i' ⟨n, n', hn, hn', he⟩ hstep
    obtain ⟨z, n1, hz, hn1, hk⟩ := step_hits hf hn hstep
    obtain ⟨z', hz', hzz⟩ := hdet n.1 n'.1 (node_reachable hroot hf hn)
      (node_reachable hroot hs hn') he z hz
    obtain ⟨j', n2, hj', hn2, hk'⟩ := exhausted_hits hs hxs hn' hz'
    refine ⟨j', hj', n1, n2, hn1, hn2, ?_⟩
    exact (State.store_of_hash hk).trans (hzz.symm.trans (State.store_of_hash hk').symm)
  back := by
    rintro i j j' ⟨n, n', hn, hn', he⟩ hstep
    obtain ⟨z, n1, hz, hn1, hk⟩ := step_hits hs hn' hstep
    obtain ⟨z', hz', hzz⟩ := hdet n'.1 n.1 (node_reachable hroot hs hn')
      (node_reachable hroot hf hn) he.symm z hz
    obtain ⟨i', n2, hi', hn2, hk'⟩ := exhausted_hits hf hxf hn hz'
    refine ⟨i', hi', n2, n1, hn2, hn1, ?_⟩
    exact (State.store_of_hash hk').trans (hzz.trans (State.store_of_hash hk).symm)

theorem sameStore_agree (hf : Run c maxDepth .full root full fullNodes)
    (hs : Run c maxDepth .store root store storeNodes) {enabled enabled' : State V → List Str}
    (n : Str) (v : Option Str) (hn : lower n = "has".toList) :
    Agree (SameStore fullNodes storeNodes)
      (Holds (Explorer.result maxDepth .full full.2) enabled (.predicate n v))
      (Holds (Explorer.result maxDepth .store store.2) enabled' (.predicate n v)) := by
  rintro i j ⟨n1, n2, h1, h2, he⟩
  have hne : ¬ "has".toList = "terminal".toList := by decide
  simp only [Holds, Explorer.state_of_node hf h1, Explorer.state_of_node hs h2,
    Option.some.injEq, exists_eq_left', evalPredicate, hn, if_neg hne, if_true, id, he]

theorem store_unique (hs : Run c maxDepth .store root store storeNodes) {i j : ℕ}
    {n n' : State V × ℕ} (hi : storeNodes[i]? = some n) (hj : storeNodes[j]? = some n')
    (he : n.1.store = n'.1.store) : i = j := by
  obtain ⟨hi', rfl⟩ := List.getElem?_eq_some_iff.mp hi
  obtain ⟨hj', rfl⟩ := List.getElem?_eq_some_iff.mp hj
  have hd := List.nodup_iff_injective_get.mp hs.distinct
  have := @hd ⟨i, by simpa using hi'⟩ ⟨j, by simpa using hj'⟩ (by
    simpa [Explorer.space] using State.stableHash_store_eq.mpr he)
  exact congrArg Fin.val this

theorem determined_of_sameFormulas (hroot : c.initialState = .ok root)
    (hf : Run c maxDepth .full root full fullNodes)
    (hs : Run c maxDepth .store root store storeNodes)
    (hxf : exhausted c (Explorer.result maxDepth .full full.2) = true)
    {enabled enabled' : State V → List Str}
    (hkeys : ∀ s t, Reachable c s → Reachable c t →
      (∀ k, s.store.contains k = t.store.contains k) → s.store = t.store)
    (h0 : SameFormulas (Explorer.result maxDepth .full full.2)
      (Explorer.result maxDepth .store store.2) enabled enabled' 0 0) :
    StoreDetermined c := by
  have hZ : Bisim _ _ (SameFormulas _ _ enabled enabled') :=
    sameFormulas_bisim (Explorer.result_wellFormed hf) (Explorer.result_wellFormed hs)
  have hstore {i j : ℕ} {n n' : State V × ℕ} (hn : fullNodes[i]? = some n)
      (hn' : storeNodes[j]? = some n')
      (h : SameFormulas _ _ enabled enabled' i j) : n.1.store = n'.1.store :=
    hkeys _ _ (node_reachable hroot hf hn) (node_reachable hroot hs hn')
      (h.contains_eq (Explorer.state_of_node hf hn) (Explorer.state_of_node hs hn'))
  have hnode {i j : ℕ} (h : SameFormulas (Explorer.result maxDepth .full full.2)
      (Explorer.result maxDepth .store store.2) enabled enabled' i j) :
      ∃ n', storeNodes[j]? = some n' := by
    obtain ⟨n', hn', -⟩ := Explorer.node_of_state hs (List.getElem?_eq_getElem h.1.2)
    exact ⟨n', hn'⟩
  rintro s t ⟨root', hr', hs'⟩ ⟨root'', hr'', ht'⟩ he s1 hmove
  rw [hroot] at hr' hr''
  cases hr'
  cases hr''
  obtain ⟨i, n, hn, rfl, hri⟩ := reachable_node hf hxf hs'
  obtain ⟨k, p, hp, rfl, hrk⟩ := reachable_node hf hxf ht'
  obtain ⟨j, -, hij⟩ := hZ.reach h0 hri
  obtain ⟨l, -, hkl⟩ := hZ.reach h0 hrk
  obtain ⟨nj, hnj⟩ := hnode hij
  obtain ⟨nl, hnl⟩ := hnode hkl
  have hjl : j = l := store_unique hs hnj hnl
    ((hstore hn hnj hij).symm.trans (he.trans (hstore hp hnl hkl)))
  subst hjl
  obtain ⟨i', n1, hi', hn1, hk1⟩ := exhausted_hits hf hxf hn hmove
  obtain ⟨j', hj', hij'⟩ := hZ.forth hij hi'
  obtain ⟨k', hk', hkj'⟩ := hZ.back hkl hj'
  obtain ⟨z, p1, hz, hp1, hkz⟩ := step_hits hf hp hk'
  obtain ⟨nj', hnj'⟩ := hnode hij'
  refine ⟨z, hz, ?_⟩
  calc z.store = p1.1.store := (State.store_of_hash hkz).symm
    _ = nj'.1.store := hstore hp1 hnj' hkj'
    _ = n1.1.store := (hstore hn1 hnj' hij').symm
    _ = s1.store := State.store_of_hash hk1

end both

end explored

section adapter

variable [PyValue V]

def AllTrue (store : Store V) : Prop := ∀ k v, store.get? k = some v → v = PyValue.pyTrue

theorem allTrue_ext {s t : Store V} (hs : AllTrue s) (ht : AllTrue t)
    (h : ∀ k, s.contains k = t.contains k) : s = t := by
  refine SortedMap.ext (fun k => ?_)
  have hk := h k
  unfold SortedMap.contains at hk
  cases hv : s.get? k with
  | none => cases hw : t.get? k with
    | none => rfl
    | some w => simp [hv, hw] at hk
  | some v => cases hw : t.get? k with
    | none => simp [hv, hw] at hk
    | some w => rw [hs k v hv, ht k w hw]

theorem reachable_allTrue {a : TraceMindAdapter V} (h : AllTrue a.initialStore) {s : State V}
    (hs : Reachable a.component s) : AllTrue s.store := by
  obtain ⟨root, hroot, hr⟩ := hs
  intro k v hv
  rcases TraceMindAdapter.reach_get? hroot hr hv with hv | hv
  · exact hv
  · exact h k v hv

variable [DecidableEq V]

theorem store_hash_verdicts (a : TraceMindAdapter V) (maxDepth : ℤ)
    (full store : ExplorationResult V)
    (hf : Explorer.run a.component.stateless () maxDepth .full = .ok (full, ()))
    (hs : Explorer.run a.component.stateless () maxDepth .store = .ok (store, ()))
    (hxf : exhausted a.component full = true) (hxs : exhausted a.component store = true) :
    (StoreDetermined a.component → ∀ e, HasOnly e →
      (0 ∈ checkCtl e store a.enabledSteps ↔ 0 ∈ checkCtl e full a.enabledSteps)) ∧
    (AllTrue a.initialStore →
      (∀ e, HasOnly e →
        (0 ∈ checkCtl e store a.enabledSteps ↔ 0 ∈ checkCtl e full a.enabledSteps)) →
      StoreDetermined a.component) := by
  obtain ⟨root, x, nodes, hroot, rfl, hex⟩ := explored_of_run hf
  obtain ⟨root', x', nodes', hroot', rfl, hex'⟩ := explored_of_run hs
  rw [hroot] at hroot'
  cases hroot'
  have hverdict (e : Expr) :
      (0 ∈ checkCtl e (Explorer.result maxDepth .full x.2) a.enabledSteps ↔
        Holds (Explorer.result maxDepth .full x.2) a.enabledSteps e 0) ∧
      (0 ∈ checkCtl e (Explorer.result maxDepth .store x'.2) a.enabledSteps ↔
        Holds (Explorer.result maxDepth .store x'.2) a.enabledSteps e 0) := by
    rw [checkCtl_denotes (Explorer.result_wellFormed hex),
      checkCtl_denotes (Explorer.result_wellFormed hex'),
      and_iff_right (Explorer.root_lt hex), and_iff_right (Explorer.root_lt hex')]
    exact ⟨Iff.rfl, Iff.rfl⟩
  constructor
  · intro hdet e he
    rw [(hverdict e).1, (hverdict e).2]
    exact (holds_agree (sameStore_bisim hroot hex hex' hxf hxs hdet) (sameStore_agree hex hex')
      e he 0 0 ⟨_, _, hex.root, hex'.root, rfl⟩).symm
  · intro htrue hall
    have hsame : SameFormulas (Explorer.result maxDepth .full x.2)
        (Explorer.result maxDepth .store x'.2) a.enabledSteps a.enabledSteps 0 0 := by
      refine ⟨⟨Explorer.root_lt hex, Explorer.root_lt hex'⟩, fun e he => ?_⟩
      rw [← (hverdict e).1, ← (hverdict e).2]
      exact (hall e he).symm
    exact determined_of_sameFormulas hroot hex hex' hxf
      (fun s t hs ht => allTrue_ext (reachable_allTrue htrue hs) (reachable_allTrue htrue ht))
      hsame

end adapter

def oneStep (name : Str) (writes : List Str) : Str × StepSpec := (name, ⟨name, [], writes, []⟩)

def rewriteAdapter : TraceMindAdapter Bool where
  plan := ⟨SortedMap.ofList [oneStep ['a'] [['x']], oneStep ['b'] [['y']]],
    [⟨['r'], [['x']], [['b']]⟩]⟩
  initialStore := SortedMap.ofList [(['x'], true)]
  changedPaths := []
  initialPending := [['a']]
  initialDone := []

def freshAdapter : TraceMindAdapter Bool :=
  { rewriteAdapter with initialStore := SortedMap.ofList [] }

def reachesY : Expr := .ctl .EF (.predicate "has".toList (some ['y']))

def outcome (a : TraceMindAdapter Bool) (mode : HashMode) (e : Expr) : Option (Bool × Bool) :=
  match Explorer.run a.component.stateless () 16 mode with
  | .error _ => none
  | .ok (r, _) => some (exhausted a.component r, decide (0 ∈ checkCtl e r a.enabledSteps))

theorem run_of_outcome {a : TraceMindAdapter Bool} {mode : HashMode} {e : Expr} {b v : Bool}
    (h : outcome a mode e = some (b, v)) :
    ∃ r, Explorer.run a.component.stateless () 16 mode = .ok (r, ()) ∧
      exhausted a.component r = b ∧ decide (0 ∈ checkCtl e r a.enabledSteps) = v := by
  unfold outcome at h
  cases hr : Explorer.run a.component.stateless () 16 mode with
  | error e => simp [hr] at h
  | ok p =>
    simp only [hr, Option.some.injEq, Prod.mk.injEq] at h
    exact ⟨p.1, rfl, h⟩

theorem store_hash_loses_fact :
    ¬ ∀ (a : TraceMindAdapter Bool) (maxDepth : ℤ) (full store : ExplorationResult Bool),
      Explorer.run a.component.stateless () maxDepth .full = .ok (full, ()) →
      Explorer.run a.component.stateless () maxDepth .store = .ok (store, ()) →
      exhausted a.component full = true → exhausted a.component store = true →
      ∀ e, HasOnly e →
        (0 ∈ checkCtl e store a.enabledSteps ↔ 0 ∈ checkCtl e full a.enabledSteps) := by
  intro h
  obtain ⟨full, hf, hxf, hv⟩ := run_of_outcome
    (show outcome rewriteAdapter .full reachesY = some (true, true) by decide)
  obtain ⟨store, hs, hxs, hw⟩ := run_of_outcome
    (show outcome rewriteAdapter .store reachesY = some (true, false) by decide)
  have hiff := h rewriteAdapter 16 full store hf hs hxf hxs reachesY (hasOnly_has (some ['y']))
  exact of_decide_eq_false hw (hiff.mpr (of_decide_eq_true hv))

def freshStates : List (State Bool) :=
  [⟨SortedMap.ofList [], [['a']], [], []⟩,
    ⟨SortedMap.ofList [(['x'], true)], [['b']], [['a']], ["step:a".toList]⟩,
    ⟨SortedMap.ofList [(['x'], true), (['y'], true)], [], [['a'], ['b']],
      ["step:a".toList, "step:b".toList]⟩]

def targetsIn (known : List (State Bool)) : Except Err (List (Str × State Bool)) → Bool
  | .error _ => true
  | .ok ys => ys.all (fun y => decide (y.2 ∈ known))

theorem fresh_reachable {s : State Bool} (h : Reachable freshAdapter.component s) :
    s ∈ freshStates := by
  obtain ⟨root, hroot, hr⟩ := h
  have hclosed : ∀ t ∈ freshStates, targetsIn freshStates (freshAdapter.successors t) = true := by
    decide
  induction hr with
  | refl =>
    have hinit : freshAdapter.initialState = .ok (freshStates[0]) := rfl
    cases hinit.symm.trans hroot
    exact List.getElem_mem _
  | tail _ hm ih =>
    obtain ⟨ys, hy, hmem⟩ := hm
    obtain ⟨y, hy', rfl⟩ := List.mem_map.mp hmem
    have hin := hclosed _ ih
    rw [show freshAdapter.successors _ = .ok ys from hy] at hin
    exact of_decide_eq_true (List.all_eq_true.mp hin y hy')

theorem fresh_storeDetermined : StoreDetermined freshAdapter.component := by
  intro s t hs ht he s' hm
  have hinj : ∀ u ∈ freshStates, ∀ v ∈ freshStates, u.store = v.store → u = v := by decide
  obtain rfl := hinj s (fresh_reachable hs) t (fresh_reachable ht) he
  exact ⟨s', hm, rfl⟩

theorem store_hash_verdicts_fresh :
    ∃ full store : ExplorationResult Bool,
      Explorer.run freshAdapter.component.stateless () 16 .full = .ok (full, ()) ∧
      Explorer.run freshAdapter.component.stateless () 16 .store = .ok (store, ()) ∧
      0 ∈ checkCtl reachesY full freshAdapter.enabledSteps ∧
      ∀ e, HasOnly e → (0 ∈ checkCtl e store freshAdapter.enabledSteps ↔
        0 ∈ checkCtl e full freshAdapter.enabledSteps) := by
  obtain ⟨full, hf, hxf, hv⟩ := run_of_outcome
    (show outcome freshAdapter .full reachesY = some (true, true) by decide)
  obtain ⟨store, hs, hxs, -⟩ := run_of_outcome
    (show outcome freshAdapter .store reachesY = some (true, true) by decide)
  exact ⟨full, store, hf, hs, of_decide_eq_true hv,
    (store_hash_verdicts freshAdapter 16 full store hf hs hxf hxs).1 fresh_storeDetermined⟩

end TraceMind.Verify.StoreHash
