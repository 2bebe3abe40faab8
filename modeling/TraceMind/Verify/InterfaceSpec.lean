import TraceMind.Verify.Interface
import TraceMind.Verify.ExplorerSpec
import TraceMind.Foundation.Fallible

namespace TraceMind.Verify

open BoundedSearch Ctl

namespace StrSet

theorem ext {s t : StrSet} (h : ∀ k, s.contains k = t.contains k) : s = t := by
  refine SortedMap.ext (fun k => ?_)
  have hk := h k
  unfold SortedMap.contains at hk
  cases hs : s.get? k with
  | none =>
    rw [hs] at hk
    cases ht : t.get? k with
    | none => rfl
    | some u => simp [ht] at hk
  | some u =>
    rw [hs] at hk
    cases ht : t.get? k with
    | none => simp [ht] at hk
    | some w => rfl

theorem contains_foldl_add (xs : List Str) (s : StrSet) (k : Str) :
    (xs.foldl StrSet.add s).contains k = true ↔ k ∈ xs ∨ s.contains k = true := by
  induction xs generalizing s with
  | nil => simp
  | cons x xs ih =>
    have hadd : (s.add x).contains k = true ↔ k = x ∨ s.contains k = true := by
      rw [StrSet.add, SortedMap.contains_insert]
      simp
    rw [List.foldl_cons, ih, hadd, List.mem_cons]
    tauto

end StrSet

section presence

variable {V : Type} [PyValue V] {atoms : List Str}

theorem contains_presentIn {s : State V} {k : Str} :
    (presentIn atoms s).contains k = true ↔ k ∈ atoms ∧ isTruthy s.store k = true := by
  rw [presentIn, StrSet.contains_foldl_add, List.mem_filter]
  simp [SortedMap.contains]

theorem get?_presentState {p : Present} {k : Str} {v : V} :
    (presentState V p).store.get? k = some v ↔ p.contains k = true ∧ v = PyValue.pyTrue := by
  have hkeys : ((p.keys.map (fun k => (k, (PyValue.pyTrue : V)))).map Prod.fst).Nodup := by
    rw [List.map_map]
    exact (List.map_id p.keys).symm ▸ p.keys_nodup
  change (SortedMap.ofList _).get? k = some v ↔ _
  rw [SortedMap.get?_ofList hkeys, List.mem_map]
  constructor
  · rintro ⟨j, hj, he⟩
    obtain ⟨rfl, rfl⟩ := Prod.mk.inj he
    exact ⟨SortedMap.mem_keys_iff.mp hj, rfl⟩
  · rintro ⟨hk, rfl⟩
    exact ⟨k, SortedMap.mem_keys_iff.mpr hk, rfl⟩

theorem contains_presentState {p : Present} {k : Str} :
    (presentState V p).store.contains k = p.contains k := by
  rw [Bool.eq_iff_iff, SortedMap.contains, Option.isSome_iff_exists]
  constructor
  · rintro ⟨v, hv⟩
    exact (get?_presentState.mp hv).1
  · exact fun h => ⟨PyValue.pyTrue, get?_presentState.mpr ⟨h, rfl⟩⟩

theorem isTruthy_presentState {p : Present} {k : Str} :
    isTruthy (presentState V p).store k = p.contains k := by
  rw [Bool.eq_iff_iff]
  unfold isTruthy
  constructor
  · intro h
    split at h
    · cases h
    · rename_i v hv
      exact (get?_presentState.mp hv).1
  · intro h
    rw [get?_presentState.mpr ⟨h, rfl⟩]
    exact PyValue.truthy_pyTrue

theorem presentIn_presentState {p : Present} (hp : ∀ k, p.contains k = true → k ∈ atoms) :
    presentIn atoms (presentState V p) = p := by
  refine StrSet.ext (fun k => ?_)
  rw [Bool.eq_iff_iff, contains_presentIn, isTruthy_presentState]
  exact ⟨And.right, fun h => ⟨hp k h, h⟩⟩

theorem presentIn_idem (s : State V) :
    presentIn atoms (presentState V (presentIn atoms s)) = presentIn atoms s :=
  presentIn_presentState (fun _ h => (contains_presentIn.mp h).1)

end presence

section buckets

theorem mem_extend (bs bucket : List Present) (b : Present) :
    b ∈ bs.foldl (fun bucket b => if b ∈ bucket then bucket else bucket ++ [b]) bucket ↔
      b ∈ bs ∨ b ∈ bucket := by
  induction bs generalizing bucket with
  | nil => simp
  | cons c bs ih =>
    rw [List.foldl_cons, ih, List.mem_cons]
    split_ifs with hc
    · constructor
      · rintro (h | h)
        · exact Or.inl (Or.inr h)
        · exact Or.inr h
      · rintro ((rfl | h) | h)
        · exact Or.inr hc
        · exact Or.inl h
        · exact Or.inr h
    · simp only [List.mem_append, List.mem_singleton]
      tauto

theorem lookup_addBucket (buckets : List (Present × List Present)) (a c : Present)
    (bs : List Present) (b : Present) :
    b ∈ ((addBucket buckets a bs).lookup c).getD [] ↔
      (c = a ∧ b ∈ bs) ∨ b ∈ (buckets.lookup c).getD [] := by
  induction buckets with
  | nil =>
    rw [addBucket, List.lookup_cons]
    by_cases hc : c = a
    · subst hc
      simp [mem_extend]
    · simp [beq_false_of_ne hc, hc]
  | cons e rest ih =>
    obtain ⟨a', bucket⟩ := e
    rw [addBucket]
    split_ifs with ha
    · subst ha
      rw [List.lookup_cons, List.lookup_cons]
      by_cases hc : c = a'
      · subst hc
        simp [mem_extend]
      · simp [beq_false_of_ne hc, hc]
    · rw [List.lookup_cons, List.lookup_cons]
      by_cases hc : c = a'
      · subst hc
        simp [ha]
      · simp only [beq_false_of_ne hc]
        exact ih

theorem mem_bucketsOf (proj : List Present) (edges : List (ℕ × List ℕ)) (a b : Present) :
    b ∈ ((bucketsOf proj edges).lookup a).getD [] ↔
      ∃ e ∈ edges, a = projAt proj e.1 ∧ b ∈ e.2.map (projAt proj) := by
  suffices h : ∀ buckets : List (Present × List Present),
      b ∈ ((edges.foldl (fun buckets e => addBucket buckets (projAt proj e.1)
        (e.2.map (projAt proj))) buckets).lookup a).getD [] ↔
        (∃ e ∈ edges, a = projAt proj e.1 ∧ b ∈ e.2.map (projAt proj)) ∨
          b ∈ (buckets.lookup a).getD [] by
    simpa [bucketsOf] using h []
  induction edges with
  | nil => simp
  | cons e edges ih =>
    intro buckets
    rw [List.foldl_cons, ih, lookup_addBucket, List.exists_mem_cons_iff, or_left_comm, or_assoc]

theorem lookup_map_snd {α β γ : Type} [BEq α] (f : β → γ) (xs : List (α × β)) (a : α) :
    (xs.map (fun e => (e.1, f e.2))).lookup a = (xs.lookup a).map f := by
  induction xs with
  | nil => rfl
  | cons e xs ih =>
    rw [List.map_cons, List.lookup_cons, List.lookup_cons]
    split
    · rfl
    · exact ih

variable {V : Type} [PyValue V]

theorem mem_nextPresents (atoms : List Str) (r : ExplorationResult V) (a b : Present) :
    b ∈ (abstractResult atoms r).nextPresents a ↔ ∃ e ∈ r.edges,
      a = projAt (r.states.map (presentIn atoms)) e.1 ∧
        b ∈ e.2.map (projAt (r.states.map (presentIn atoms))) := by
  rw [← mem_bucketsOf, InterfaceAdapter.nextPresents, abstractResult, lookup_map_snd]
  cases (bucketsOf (r.states.map (presentIn atoms)) r.edges).lookup a with
  | none => simp
  | some bucket => simp [sortBucket, List.mem_insertionSort]

theorem projAt_state {atoms : List Str} {r : ExplorationResult V} {i : ℕ} {s : State V}
    (hs : r.states[i]? = some s) : projAt (r.states.map (presentIn atoms)) i =
      presentIn atoms s := by
  rw [projAt, List.getElem?_map, hs]
  rfl

end buckets

section simulation

theorem evalPredicate_has {V : Type} (enabled : State V → List Str) (k : Str) (s : State V) :
    evalPredicate enabled "has".toList (some k) s = s.store.contains k := rfl

variable {V : Type} [PyValue V]

def InterfaceAdapter.image (a : InterfaceAdapter) (s : State V) : State V :=
  presentState V (presentIn a.atoms s)

structure Simulates (enabled : State V → List Str) (r : ExplorationResult V)
    (abs : InterfaceAdapter) : Prop where
  initial : ∃ s, r.states[0]? = some s ∧
    (abs.component V).initialState = .ok (abs.image s)
  edge : ∀ (i j : ℕ) (s t : State V), Step r i j → r.states[i]? = some s → r.states[j]? = some t →
    ∃ ys, (abs.component V).successors (abs.image s) = .ok ys ∧ abs.image t ∈ ys.map Prod.snd
  has : ∀ (i : ℕ) (s : State V), r.states[i]? = some s → ∀ k ∈ abs.atoms,
    evalPredicate enabled "has".toList (some k) s =
      evalPredicate (abs.component V).enabledSteps "has".toList (some k) (abs.image s)

theorem abstract_initial {atoms : List Str} {r : ExplorationResult V} {s : State V}
    (hs : r.states[0]? = some s) :
    ((abstractResult atoms r).component V).initialState =
      .ok ((abstractResult atoms r).image s) :=
  congrArg (fun p => Except.ok (presentState V p)) (projAt_state hs)

theorem abstract_edge (atoms : List Str) {r : ExplorationResult V} {i j : ℕ} {s t : State V}
    (he : Step r i j) (hs : r.states[i]? = some s) (ht : r.states[j]? = some t) :
    (abstractResult atoms r).image t ∈
      ((abstractResult atoms r).successors ((abstractResult atoms r).image s)).map Prod.snd := by
  obtain ⟨js, hl, hj⟩ := he
  have hedge : (i, js) ∈ r.edges := by
    obtain ⟨l₁, l₂, h, -⟩ := List.lookup_eq_some_iff.mp hl
    simp [h]
  have hmem : presentIn atoms t ∈ (abstractResult atoms r).nextPresents (presentIn atoms s) := by
    rw [mem_nextPresents]
    exact ⟨(i, js), hedge, (projAt_state hs).symm, List.mem_map.mpr ⟨j, hj, projAt_state ht⟩⟩
  have hidem : presentIn atoms ((abstractResult atoms r).image s) = presentIn atoms s :=
    presentIn_idem s
  rw [InterfaceAdapter.successors, List.map_map, List.mem_map]
  refine ⟨presentIn atoms t, ?_, rfl⟩
  change presentIn atoms t ∈
    (abstractResult atoms r).nextPresents (presentIn atoms ((abstractResult atoms r).image s))
  rw [hidem]
  exact hmem

theorem has_image_iff {a : InterfaceAdapter} {s : State V} {k : Str} (hk : k ∈ a.atoms)
    (enabled enabled' : State V → List Str) :
    evalPredicate enabled "has".toList (some k) s =
        evalPredicate enabled' "has".toList (some k) (a.image s) ↔
      ∀ v, s.store.get? k = some v → PyValue.truthy v = true := by
  have himg : (a.image s).store.contains k = isTruthy s.store k := by
    rw [InterfaceAdapter.image, contains_presentState, Bool.eq_iff_iff, contains_presentIn]
    exact ⟨And.right, fun h => ⟨hk, h⟩⟩
  rw [evalPredicate_has, evalPredicate_has, himg, SortedMap.contains, isTruthy]
  cases hv : s.store.get? k with
  | none => simp
  | some v =>
    constructor
    · intro h w hw
      cases hw
      exact h.symm
    · exact fun h => (h v rfl).symm

section contract

variable [DecidableEq V]

theorem interfaceAdapter_eq {bundle : AgentBundleBody V} {leaf : TraceMindAdapter V}
    (hleaf : adapterFromBundle bundle = .ok leaf) {maxDepth : ℤ} {mode : HashMode}
    {r : ExplorationResult V} {u : Unit}
    (hrun : Explorer.run leaf.component.stateless () maxDepth mode = .ok (r, u))
    (kpiKeys guarantees : List Str) :
    interfaceAdapterFromContract bundle kpiKeys guarantees maxDepth mode =
      .ok (abstractResult (interfaceAtoms kpiKeys guarantees) r) :=
  Fallible.bind_eq_ok.mpr ⟨leaf, hleaf, Fallible.bind_eq_ok.mpr ⟨(r, u), hrun, rfl⟩⟩

theorem interface_simulates_iff (bundle : AgentBundleBody V) (kpiKeys guarantees : List Str)
    (maxDepth : ℤ) (mode : HashMode) (leaf : TraceMindAdapter V) (r : ExplorationResult V)
    (hleaf : adapterFromBundle bundle = .ok leaf)
    (hrun : Explorer.run leaf.component.stateless () maxDepth mode = .ok (r, ())) :
    ∃ abs, interfaceAdapterFromContract bundle kpiKeys guarantees maxDepth mode = .ok abs ∧
      (Simulates leaf.enabledSteps r abs ↔
        ∀ k ∈ interfaceAtoms kpiKeys guarantees, ∀ v, leaf.initialStore.get? k = some v →
          PyValue.truthy v = true) := by
  refine ⟨_, interfaceAdapter_eq hleaf hrun kpiKeys guarantees, ?_⟩
  obtain ⟨root, x, nodes, hroot, rfl, hex⟩ := explored_of_run hrun
  have h0 := Explorer.state_of_node hex hex.root
  have hinit : root.store = leaf.initialStore := TraceMindAdapter.initialState_store hroot
  constructor
  · intro hsim k hk v hv
    have hhas := hsim.has 0 root h0 k hk
    exact (has_image_iff hk _ _).mp hhas v (by rw [hinit]; exact hv)
  · intro htruthy
    refine ⟨⟨root, h0, abstract_initial h0⟩, ?_, ?_⟩
    · intro i j s t he hs ht
      exact ⟨_, rfl, abstract_edge _ he hs ht⟩
    · intro i s hs k hk
      rw [has_image_iff hk]
      intro v hv
      obtain ⟨n, hn, rfl⟩ := Explorer.node_of_state hex hs
      have hreach := (hex.walk n (List.mem_of_getElem? hn)).reach
      rcases TraceMindAdapter.reach_get? hroot hreach hv with rfl | hv
      · exact PyValue.truthy_pyTrue
      · exact htruthy k hk v hv

end contract

def factBundle (store : Store Bool) : AgentBundleBody Bool where
  bundleId := "leaf".toList
  verify := some
    { steps := [(['a'], ⟨[], [['k']], []⟩)]
      rules := []
      initialStore := store
      changedPaths := []
      initialPending := [['a']] }

def explored (bundle : AgentBundleBody Bool) (maxDepth : ℤ) :
    Except Err (TraceMindAdapter Bool × ExplorationResult Bool) := do
  let leaf ← adapterFromBundle bundle
  let (r, _) ← Explorer.run leaf.component.stateless () maxDepth .full
  .ok (leaf, r)

def storesOf (x : Except Err (TraceMindAdapter Bool × ExplorationResult Bool)) :
    Option (Store Bool × List (Store Bool)) :=
  match x with
  | .error _ => none
  | .ok (leaf, r) => some (leaf.initialStore, r.states.map State.store)

theorem explored_of_stores {bundle : AgentBundleBody Bool} {maxDepth : ℤ} {init : Store Bool}
    {stores : List (Store Bool)}
    (h : storesOf (explored bundle maxDepth) = some (init, stores)) :
    ∃ leaf r, adapterFromBundle bundle = .ok leaf ∧
      Explorer.run leaf.component.stateless () maxDepth .full = .ok (r, ()) ∧
      leaf.initialStore = init ∧ r.states.map State.store = stores := by
  cases hx : explored bundle maxDepth with
  | error e =>
    rw [hx] at h
    cases h
  | ok p =>
    obtain ⟨leaf, hleaf, hrest⟩ := Fallible.bind_eq_ok.mp hx
    obtain ⟨⟨r, u⟩, hr, he⟩ := Fallible.bind_eq_ok.mp hrest
    cases he
    rw [hx] at h
    simp only [storesOf, Option.some.injEq, Prod.mk.injEq] at h
    exact ⟨leaf, r, hleaf, hr, h⟩

def falsyStore : Store Bool := SortedMap.ofList [(['k'], false)]

theorem interface_misses_falsy_fact :
    ¬ ∀ (bundle : AgentBundleBody Bool) (kpiKeys guarantees : List Str) (maxDepth : ℤ)
      (leaf : TraceMindAdapter Bool) (r : ExplorationResult Bool) (abs : InterfaceAdapter),
      adapterFromBundle bundle = .ok leaf →
      Explorer.run leaf.component.stateless () maxDepth .full = .ok (r, ()) →
      interfaceAdapterFromContract bundle kpiKeys guarantees maxDepth .full = .ok abs →
      Simulates leaf.enabledSteps r abs := by
  intro h
  obtain ⟨leaf, r, hleaf, hrun, -, hst⟩ := explored_of_stores
    (show storesOf (explored (factBundle falsyStore) 0) = some (falsyStore, [falsyStore]) by
      decide +kernel)
  have hsim := h _ [['k']] [] 0 leaf r _ hleaf hrun (interfaceAdapter_eq hleaf hrun _ _)
  have h0 : (r.states.map State.store)[0]? = some falsyStore := by
    rw [hst]
    rfl
  rw [List.getElem?_map, Option.map_eq_some_iff] at h0
  obtain ⟨s, hs, he⟩ := h0
  have hk : ['k'] ∈ interfaceAtoms [['k']] [] := by decide +kernel
  have hhas := (has_image_iff hk _ _).mp (hsim.has 0 s hs ['k'] hk) false
  rw [he] at hhas
  exact absurd (hhas (by decide +kernel)) (by decide)

def emptyStore : Store Bool := SortedMap.ofList []

theorem interface_simulates_empty :
    ∃ leaf r abs, adapterFromBundle (factBundle emptyStore) = .ok leaf ∧
      Explorer.run leaf.component.stateless () 4 .full = .ok (r, ()) ∧
      interfaceAdapterFromContract (factBundle emptyStore) [['k']] [] 4 .full = .ok abs ∧
      r.states.map State.store = [emptyStore, SortedMap.ofList [(['k'], true)]] ∧
      Simulates leaf.enabledSteps r abs := by
  obtain ⟨leaf, r, hleaf, hrun, hinit, hst⟩ := explored_of_stores
    (show storesOf (explored (factBundle emptyStore) 4) =
      some (emptyStore, [emptyStore, SortedMap.ofList [(['k'], true)]]) by decide +kernel)
  obtain ⟨abs, habs, hiff⟩ :=
    interface_simulates_iff (factBundle emptyStore) [['k']] [] 4 .full leaf r hleaf hrun
  refine ⟨leaf, r, abs, hleaf, hrun, habs, hst, hiff.mpr (fun k _ v hv => ?_)⟩
  rw [hinit] at hv
  cases hv

end simulation

end TraceMind.Verify
