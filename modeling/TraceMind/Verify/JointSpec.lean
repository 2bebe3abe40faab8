import TraceMind.Verify.Projection
import TraceMind.Foundation.Fallible

namespace TraceMind.Verify

open BoundedSearch Ctl

variable {V : Type}

namespace JointAdapter

theorem initialStates_eq_ok {cs : List (ComponentAdapter V)} {ys : List (State V)} :
    initialStates cs = .ok ys ↔ List.Forall₂ (fun c s => c.initialState = .ok s) cs ys :=
  Fallible.mapM_eq_ok

theorem movesFrom_spec (joint : List (State V)) (cs : List (Str × ComponentAdapter V)) :
    ∀ (i : ℕ) (sts : List (State V)),
    ((∃ outs, movesFrom joint i cs sts = .ok outs) ↔
      ∀ (j : ℕ) (c : Str × ComponentAdapter V) (st : State V), cs[j]? = some c →
        sts[j]? = some st → ∃ ys, c.2.successors st = .ok ys) ∧
    ∀ outs, movesFrom joint i cs sts = .ok outs → ∀ z, z ∈ outs.map Prod.snd ↔
      ∃ (j : ℕ) (c : Str × ComponentAdapter V) (st t : State V), cs[j]? = some c ∧
        sts[j]? = some st ∧ Next c.2.successors st t ∧ z = joint.set (i + j) t := by
  induction cs with
  | nil =>
    intro i sts
    rw [movesFrom]
    · refine ⟨⟨fun _ j c st h => by simp at h, fun _ => ⟨[], rfl⟩⟩, fun outs h z => ?_⟩
      cases h
      simp
    · simp
  | cons c cs ih =>
    intro i sts
    cases sts with
    | nil =>
      rw [movesFrom]
      · refine ⟨⟨fun _ j c st _ h => by simp at h, fun _ => ⟨[], rfl⟩⟩, fun outs h z => ?_⟩
        cases h
        simp
      · simp
    | cons st sts =>
      obtain ⟨ihok, ihmem⟩ := ih (i + 1) sts
      obtain ⟨cid, c⟩ := c
      rw [movesFrom]
      cases hc : c.successors st with
      | error e =>
        refine ⟨⟨?_, fun h => ?_⟩, ?_⟩
        · rintro ⟨outs, h⟩
          cases h
        · obtain ⟨ys, hy⟩ := h 0 (cid, c) st rfl rfl
          rw [hc] at hy
          cases hy
        · intro outs h
          cases h
      | ok ys =>
        cases hr : movesFrom joint (i + 1) cs sts with
        | error e =>
          refine ⟨⟨?_, fun h => ?_⟩, ?_⟩
          · rintro ⟨outs, h⟩
            cases h
          · obtain ⟨outs, ho⟩ := ihok.mpr (fun j d s hd hs => h (j + 1) d s hd hs)
            rw [hr] at ho
            cases ho
          · intro outs h
            cases h
        | ok rest =>
          refine ⟨⟨fun _ j d s hd hs => ?_, fun _ => ⟨_, rfl⟩⟩, ?_⟩
          · cases j with
            | zero =>
              cases hd
              cases hs
              exact ⟨ys, hc⟩
            | succ j => exact ihok.mp ⟨rest, hr⟩ j d s hd hs
          · intro outs h z
            cases h
            rw [List.map_append, List.mem_append, ihmem rest hr]
            constructor
            · rintro (hz | ⟨j, d, s, t, hd, hs, hn, rfl⟩)
              · simp only [List.map_map, List.mem_map, Function.comp] at hz
                obtain ⟨y, hy, rfl⟩ := hz
                exact ⟨0, (cid, c), st, y.2, rfl, rfl, ⟨ys, hc, List.mem_map_of_mem hy⟩, rfl⟩
              · exact ⟨j + 1, d, s, t, hd, hs, hn, by rw [Nat.add_right_comm, Nat.add_assoc]⟩
            · rintro ⟨j, d, s, t, hd, hs, hn, rfl⟩
              cases j with
              | zero =>
                cases hd
                cases hs
                obtain ⟨ys', hy', ht⟩ := hn
                rw [hc] at hy'
                cases hy'
                obtain ⟨y, hy, rfl⟩ := List.mem_map.mp ht
                refine Or.inl ?_
                simp only [List.map_map, List.mem_map, Function.comp]
                exact ⟨y, hy, rfl⟩
              | succ j =>
                exact Or.inr ⟨j, d, s, t, hd, hs, hn, by rw [Nat.add_right_comm, Nat.add_assoc]⟩

structure Fit (a : JointAdapter V) : Prop where
  prefixFree : PrefixFree a.componentIds
  length : a.components.length = a.componentIds.length

section moves

variable {a : JointAdapter V} {y z : List (State V)}

theorem Fit.named_get (h : Fit a) {i : ℕ} {c : ComponentAdapter V}
    (hc : a.components[i]? = some c) :
    ∃ cid, a.componentIds[i]? = some cid ∧ (a.componentIds.zip a.components)[i]? = some (cid, c) := by
  obtain ⟨hi, -⟩ := List.getElem?_eq_some_iff.mp hc
  have hid := List.getElem?_eq_getElem (h.length ▸ hi : i < a.componentIds.length)
  exact ⟨_, hid, List.getElem?_zip_eq_some.mpr ⟨hid, hc⟩⟩

theorem Fit.moves_ok_iff (h : Fit a) : (∃ ys, a.moves y = .ok ys) ↔
    ∀ (i : ℕ) (c : ComponentAdapter V) (st : State V), a.components[i]? = some c →
      y[i]? = some st → ∃ ys, c.successors st = .ok ys := by
  refine (movesFrom_spec y _ 0 y).1.trans ⟨fun hall i c st hc hst => ?_, fun hall i c st hc hst => ?_⟩
  · obtain ⟨cid, -, hz⟩ := h.named_get hc
    exact hall i (cid, c) st hz hst
  · exact hall i c.2 st (List.getElem?_zip_eq_some.mp hc).2 hst

theorem Fit.next_iff (h : Fit a) : Next a.moves y z ↔ (∃ ys, a.moves y = .ok ys) ∧
    ∃ (i : ℕ) (c : ComponentAdapter V) (st t : State V), a.components[i]? = some c ∧
      y[i]? = some st ∧ Next c.successors st t ∧ z = y.set i t := by
  have hmem {ys : List (Str × List (State V))} (hy : a.moves y = .ok ys) :
      z ∈ ys.map Prod.snd ↔ ∃ (i : ℕ) (c : ComponentAdapter V) (st t : State V),
        a.components[i]? = some c ∧ y[i]? = some st ∧ Next c.successors st t ∧ z = y.set i t := by
    refine ((movesFrom_spec y _ 0 y).2 ys hy z).trans ⟨?_, ?_⟩
    · rintro ⟨i, c, st, t, hc, hst, hn, rfl⟩
      exact ⟨i, c.2, st, t, (List.getElem?_zip_eq_some.mp hc).2, hst, hn, by rw [Nat.zero_add]⟩
    · rintro ⟨i, c, st, t, hc, hst, hn, rfl⟩
      obtain ⟨cid, -, hz⟩ := h.named_get hc
      exact ⟨i, (cid, c), st, t, hz, hst, hn, by rw [Nat.zero_add]⟩
  constructor
  · rintro ⟨ys, hy, hz⟩
    exact ⟨⟨ys, hy⟩, (hmem hy).mp hz⟩
  · rintro ⟨⟨ys, hy⟩, hz⟩
    exact ⟨ys, hy, (hmem hy).mpr hz⟩

theorem Fit.next_length (h : Fit a) (hn : Next a.moves y z) : z.length = y.length := by
  obtain ⟨-, i, c, st, t, -, -, -, rfl⟩ := h.next_iff.mp hn
  exact List.length_set

theorem Fit.reach_length (h : Fit a) (hr : Relation.ReflTransGen (Next a.moves) y z) :
    z.length = y.length := by
  induction hr with
  | refl => rfl
  | tail _ hn ih => exact (h.next_length hn).trans ih

end moves

section walks

variable {a : JointAdapter V} {y0 y : List (State V)} {i : ℕ} {c : ComponentAdapter V}
  {root st : State V}

theorem Fit.walk_project (h : Fit a) {k : ℕ} (hw : Walk (Next a.moves) y0 k y)
    (hc : a.components[i]? = some c) (hroot : y0[i]? = some root) (hst : y[i]? = some st) :
    ∃ k' ≤ k, Walk (Next c.successors) root k' st := by
  induction hw generalizing st with
  | refl =>
    rw [hroot, Option.some.injEq] at hst
    subst hst
    exact ⟨0, le_refl 0, .refl⟩
  | @tail k b d _ hbd ih =>
    obtain ⟨-, j, c', s', t, hc', hs', hn, rfl⟩ := h.next_iff.mp hbd
    by_cases hij : j = i
    · subst hij
      rw [hc, Option.some.injEq] at hc'
      subst hc'
      obtain ⟨hlt, -⟩ := List.getElem?_eq_some_iff.mp hs'
      rw [List.getElem?_set_self hlt, Option.some.injEq] at hst
      subst hst
      obtain ⟨k', hk', hw⟩ := ih hs'
      exact ⟨k' + 1, by omega, hw.tail hn⟩
    · rw [List.getElem?_set_ne hij] at hst
      obtain ⟨k', hk', hw⟩ := ih hst
      exact ⟨k', by omega, hw⟩

theorem Fit.walk_lift (h : Fit a) {bound : ℕ}
    (hok : ∀ k y, Walk (Next a.moves) y0 k y → k < bound → ∃ ys, a.moves y = .ok ys)
    (hc : a.components[i]? = some c) (hroot : y0[i]? = some root) {k : ℕ}
    (hw : Walk (Next c.successors) root k st) (hk : k ≤ bound) :
    Walk (Next a.moves) y0 k (y0.set i st) := by
  obtain ⟨hlt, hget⟩ := List.getElem?_eq_some_iff.mp hroot
  induction hw with
  | refl =>
    rw [← hget, List.set_getElem_self]
    exact .refl
  | @tail k b d _ hbd ih =>
    have hwk := ih (by omega)
    refine hwk.tail (h.next_iff.mpr ⟨hok k _ hwk (by omega), i, c, b, d, hc, ?_, hbd, ?_⟩)
    · rw [List.getElem?_set_self hlt]
    · rw [List.set_set]

theorem Fit.walk_set (h : Fit a) {bound : ℕ}
    (hok : ∀ k y, Walk (Next a.moves) y0 k y → k < bound → ∃ ys, a.moves y = .ok ys)
    (hc : a.components[i]? = some c) (hroot : y0[i]? = some root) {k : ℕ}
    (hw : Walk (Next c.successors) root k st) (hk : k < bound) :
    ∃ ys, c.successors st = .ok ys := by
  have hwk := h.walk_lift hok hc hroot hw (le_of_lt hk)
  obtain ⟨hlt, -⟩ := List.getElem?_eq_some_iff.mp hroot
  exact h.moves_ok_iff.mp (hok k _ hwk hk) i c st hc (List.getElem?_set_self hlt)

end walks

section determined

variable {a : JointAdapter V} {y0 : List (State V)} {mode : HashMode}

def PartsDetermined (a : JointAdapter V) (mode : HashMode) (y0 : List (State V)) : Prop :=
  ∀ (i : ℕ) (c : ComponentAdapter V) (root : State V), a.components[i]? = some c →
    y0[i]? = some root → Determined (State.stableHash mode) c.successors root

theorem partsDetermined_full : PartsDetermined a .full y0 := fun _ _ _ _ _ =>
  determined_of_injective (fun _ _ _ _ h => State.stableHash_full_injective h)

theorem Fit.reach_project (h : Fit a) {y : List (State V)}
    (hr : Relation.ReflTransGen (Next a.moves) y0 y) {i : ℕ} {c : ComponentAdapter V}
    {root st : State V} (hc : a.components[i]? = some c) (hroot : y0[i]? = some root)
    (hst : y[i]? = some st) : Relation.ReflTransGen (Next c.successors) root st := by
  obtain ⟨k, hw⟩ := Walk.exists_of_reach hr
  obtain ⟨k', -, hw'⟩ := h.walk_project hw hc hroot hst
  exact hw'.reach

theorem getElem?_map_eq {α β : Type} {f : α → β} {xs ys : List α} (h : xs.map f = ys.map f)
    {i : ℕ} {x : α} (hx : xs[i]? = some x) : ∃ y, ys[i]? = some y ∧ f x = f y := by
  have hi := congrArg (fun l => l[i]?) h
  simp only [List.getElem?_map, hx, Option.map_some] at hi
  obtain ⟨y, hy, he⟩ := Option.map_eq_some_iff.mp hi.symm
  exact ⟨y, hy, he.symm⟩

theorem Fit.determined (h : Fit a) (hlen : y0.length = a.componentIds.length)
    (hparts : PartsDetermined a mode y0) :
    Determined (fun y => (project y a.componentIds).stableHash mode) a.moves y0 := by
  intro y z hy hz hkey ys hys
  have hly := (h.reach_length hy).trans hlen
  have hlz := (h.reach_length hz).trans hlen
  have hmap := (stableHash_project_iff h.prefixFree hly hlz mode).mp hkey
  have hroot {i : ℕ} {st : State V} (hst : y[i]? = some st) : ∃ root, y0[i]? = some root := by
    obtain ⟨hi, -⟩ := List.getElem?_eq_some_iff.mp hst
    exact ⟨_, List.getElem?_eq_getElem (hlen ▸ hly ▸ hi)⟩
  have hdet {i : ℕ} {c : ComponentAdapter V} {s t : State V} (hc : a.components[i]? = some c)
      (hs : y[i]? = some s) (ht : z[i]? = some t)
      (hst : s.stableHash mode = t.stableHash mode) (us : List (Str × State V))
      (hus : c.successors s = .ok us) : ∃ vs, c.successors t = .ok vs ∧
        ∀ s' ∈ us.map Prod.snd, ∃ t' ∈ vs.map Prod.snd,
          State.stableHash mode t' = State.stableHash mode s' := by
    obtain ⟨root, hr⟩ := hroot hs
    exact hparts i c root hc hr s t (h.reach_project hy hc hr hs)
      (h.reach_project hz hc hr ht) hst us hus
  have hzok : ∃ zs, a.moves z = .ok zs := by
    refine h.moves_ok_iff.mpr (fun i c t hc ht => ?_)
    obtain ⟨s, hs, hst⟩ := getElem?_map_eq hmap.symm ht
    obtain ⟨us, hus⟩ := h.moves_ok_iff.mp ⟨ys, hys⟩ i c s hc hs
    obtain ⟨vs, hvs, -⟩ := hdet hc hs ht hst.symm us hus
    exact ⟨vs, hvs⟩
  obtain ⟨zs, hzs⟩ := hzok
  refine ⟨zs, hzs, fun y' hy' => ?_⟩
  obtain ⟨-, i, c, s, s', hc, hs, hn, rfl⟩ := h.next_iff.mp ⟨ys, hys, hy'⟩
  obtain ⟨t, ht, hst⟩ := getElem?_map_eq hmap hs
  obtain ⟨us, hus, hs'⟩ := hn
  obtain ⟨vs, hvs, hmatch⟩ := hdet hc hs ht hst us hus
  obtain ⟨t', ht', htt⟩ := hmatch s' hs'
  have hnext : Next a.moves z (z.set i t') :=
    h.next_iff.mpr ⟨⟨zs, hzs⟩, i, c, t, t', hc, ht, ⟨vs, hvs, ht'⟩, rfl⟩
  obtain ⟨zs', hzs', hmem⟩ := hnext
  rw [hzs] at hzs'
  cases hzs'
  refine ⟨z.set i t', hmem, ?_⟩
  rw [stableHash_project_iff h.prefixFree (by rw [List.length_set, hlz])
    (by rw [List.length_set, hly]), List.map_set, List.map_set, htt, hmap]

end determined

section memo

theorem Fit.root_length {a : JointAdapter V} (h : Fit a) {y0 : List (State V)}
    (hi : initialStates a.components = .ok y0) : y0.length = a.componentIds.length := by
  rw [← (initialStates_eq_ok.mp hi).length_eq, h.length]

variable [DecidableEq V] {a : JointAdapter V} {maxDepth : ℤ} {mode : HashMode}

def Knows (a : JointAdapter V) (memo : Memo V) (y : List (State V)) : Prop :=
  y.length = a.componentIds.length ∧
    memo.lookup ((project y a.componentIds).stableHash .full) = some y

theorem Fit.remember_knows (h : Fit a) {memo : Memo V} {y z : List (State V)}
    (hy : y.length = a.componentIds.length) (hz : z = y ∨ Knows a memo z) :
    Knows a (a.remember memo y) z := by
  by_cases he : z = y
  · subst he
    exact ⟨hy, by rw [remember, List.lookup_cons_self]⟩
  · obtain ⟨hlen, hl⟩ := hz.resolve_left he
    refine ⟨hlen, ?_⟩
    have hne : ¬ (project z a.componentIds).stableHash .full =
        (project y a.componentIds).stableHash .full := by
      intro hh
      have hmap := (stableHash_project_iff h.prefixFree hlen hy .full).mp hh
      exact he (List.map_injective_iff.mpr
        (fun s t hst => State.stableHash_full_injective hst) hmap)
    rw [remember, List.lookup_cons, beq_false_of_ne hne]
    exact hl

theorem Fit.remember_all (h : Fit a) (ys : List (List (State V))) :
    ∀ {memo : Memo V}, (∀ y ∈ ys, y.length = a.componentIds.length) →
    ∀ z, z ∈ ys ∨ Knows a memo z → Knows a (ys.foldl a.remember memo) z := by
  induction ys with
  | nil => exact fun _ z hz => hz.resolve_left (by simp)
  | cons y ys ih =>
    intro memo hlen z hz
    have hy := hlen y List.mem_cons_self
    refine ih (fun w hw => hlen w (List.mem_cons_of_mem _ hw)) z ?_
    rcases hz with hz | hz
    · rcases List.mem_cons.mp hz with rfl | hz
      · exact Or.inr (h.remember_knows hy (Or.inl rfl))
      · exact Or.inl hz
    · exact Or.inr (h.remember_knows hy (Or.inr hz))

theorem Fit.lawful (h : Fit a) (maxDepth : ℤ) (mode : HashMode) :
    Lawful (Explorer.space a.adapter maxDepth mode) a.moves (fun y => project y a.componentIds)
      (Knows a) where
  error := by
    intro memo y e hk he
    change a.successors memo (project y a.componentIds) = _
    rw [successors, lookupJoint, hk.2]
    change (a.moves y >>= _) = _
    rw [he]
    rfl
  ok := by
    intro memo y ys hk hys
    have hlen : ∀ z ∈ ys.map Prod.snd, z.length = a.componentIds.length :=
      fun z hz => (h.next_length ⟨ys, hys, hz⟩).trans hk.1
    refine ⟨(ys.map Prod.snd).foldl a.remember memo, ?_,
      fun z hz => h.remember_all _ hlen z (Or.inr hz),
      fun e he => h.remember_all _ hlen e.2 (Or.inl (List.mem_map_of_mem he))⟩
    change a.successors memo (project y a.componentIds) = _
    rw [successors, lookupJoint, hk.2]
    change (a.moves y >>= _) = _
    rw [hys]
    rfl

abbrev Product (a : JointAdapter V) (maxDepth : ℤ) (mode : HashMode) (y0 : List (State V))
    (x : Memo V × Search (State V) Str (Hash V)) (nodes : List (List (State V) × ℕ)) : Prop :=
  Explored (Explorer.space a.adapter maxDepth mode) a.moves (fun y => project y a.componentIds)
    (Knows a) y0 x nodes

structure Expands (a : JointAdapter V) (maxDepth : ℤ) (y0 : List (State V)) : Prop where
  init : initialStates a.components = .ok y0
  ok : ∀ k y, Walk (Next a.moves) y0 k y → k < maxDepth.toNat → ∃ ys, a.moves y = .ok ys

theorem Fit.run_spec (h : Fit a) {m : ExplorationResult V} {memo : Memo V}
    (hr : Explorer.run a.adapter [] maxDepth mode = .ok (m, memo)) :
    ∃ y0 x nodes, initialStates a.components = .ok y0 ∧ m = Explorer.result maxDepth mode x.2 ∧
      memo = x.1 ∧ Product a maxDepth mode y0 x nodes := by
  obtain ⟨root, memo1, s, hi, hs, hm⟩ := Explorer.run_eq_ok hr
  change a.initialState [] = _ at hi
  unfold initialState at hi
  cases hy : initialStates a.components with
  | error e =>
    rw [hy] at hi
    cases hi
  | ok y0 =>
    rw [hy] at hi
    cases hi
    have hk : Knows a (a.remember [] y0) y0 := h.remember_knows (h.root_length hy) (Or.inl rfl)
    obtain ⟨nodes, hex⟩ := search_ok (h.lawful maxDepth mode) hk hs
    exact ⟨y0, (memo, s), nodes, rfl, hm, rfl, hex⟩

theorem Fit.run_ok (h : Fit a) {y0 : List (State V)} (he : Expands a maxDepth y0)
    (mode : HashMode) : ∃ m memo, Explorer.run a.adapter [] maxDepth mode = .ok (m, memo) := by
  have hinit : a.adapter.initialState [] =
      .ok (project y0 a.componentIds, a.remember [] y0) := by
    change a.initialState [] = _
    rw [initialState, he.init]
    rfl
  have hk : Knows a (a.remember [] y0) y0 := h.remember_knows (h.root_length he.init) (Or.inl rfl)
  rcases search_spec (h.lawful maxDepth mode) hk with ⟨y, k, e, hw, hb, hy, -⟩ | ⟨x, nodes, hx, -⟩
  · obtain ⟨ys, hys⟩ := he.ok k y hw hb
    rw [hy] at hys
    cases hys
  · refine ⟨Explorer.result maxDepth mode x.2, x.1, ?_⟩
    rw [Explorer.run, hinit]
    change (search _ (a.remember [] y0) (project y0 a.componentIds) >>= _) = _
    rw [hx]
    rfl

theorem Fit.expands (h : Fit a) {y0 : List (State V)}
    {x : Memo V × Search (State V) Str (Hash V)} {nodes : List (List (State V) × ℕ)}
    (hi : initialStates a.components = .ok y0) (hparts : PartsDetermined a mode y0)
    (hex : Product a maxDepth mode y0 x nodes) : Expands a maxDepth y0 :=
  ⟨hi, fun _ _ hw hk => hex.ok_of_walk (h.determined (h.root_length hi) hparts) hw hk⟩

end memo

section verdict

theorem firstViolation_ok (enabled : State V → List Str) {probe : Expr}
    (hp : hasCtlNodes probe = false) (m : ExplorationResult V) (xs : List (State V × ℕ)) :
    ∃ found, firstViolation enabled probe m xs = .ok found := by
  induction xs with
  | nil => exact ⟨none, rfl⟩
  | cons e rest ih =>
    obtain ⟨s, sid⟩ := e
    rw [firstViolation, evalStateExpr_eq enabled s hp]
    change ∃ found, (if truth enabled s probe = true then _ else _) = _
    split_ifs
    · exact ih
    · exact ih
    · exact ⟨_, rfl⟩

theorem witnessViolationPath_ok (m : ExplorationResult V) (enabled : State V → List Str)
    (e : Expr) (sat : Finset ℕ) : ∃ path, witnessViolationPath m enabled e sat = .ok path := by
  have hfound : ∃ found, probeViolation enabled (agBody e) m = .ok found := by
    unfold probeViolation
    split_ifs with h2
    · exact ⟨none, rfl⟩
    · exact firstViolation_ok enabled (Bool.eq_false_iff.mpr h2) m _
  obtain ⟨found, hf⟩ := hfound
  unfold witnessViolationPath
  dsimp only
  split_ifs
  · exact ⟨_, rfl⟩
  · exact ⟨_, rfl⟩
  all_goals exact ⟨_, Fallible.map_eq_ok.mpr ⟨found, hf, rfl⟩⟩

variable [DecidableEq V] {a : JointAdapter V} {maxDepth : ℤ} {mode : HashMode}
  {y0 : List (State V)} {x : Memo V × Search (State V) Str (Hash V)}
  {nodes : List (List (State V) × ℕ)}

theorem lookup_ok (hex : Product a maxDepth mode y0 x nodes) {sid : ℕ} {st : State V}
    (hs : (Explorer.result maxDepth mode x.2).states[sid]? = some st) :
    ∃ joint, lookupJoint x.1 st = .ok joint := by
  obtain ⟨n, hn, rfl⟩ := Explorer.node_of_state hex hs
  refine ⟨n.1, ?_⟩
  rw [lookupJoint, (hex.known n (List.mem_of_getElem? hn)).2]

theorem counterexample_ok (hex : Product a maxDepth mode y0 x nodes) (path : List ℕ) :
    ∀ prev, ∃ steps, counterexampleFrom a x.1 (Explorer.result maxDepth mode x.2) prev path =
      .ok steps := by
  induction path with
  | nil => exact fun _ => ⟨[], rfl⟩
  | cons sid rest ih =>
    intro prev
    obtain ⟨steps, hsteps⟩ := ih (some sid)
    rw [counterexampleFrom]
    cases hs : (Explorer.result maxDepth mode x.2).states[sid]? with
    | none => exact ⟨steps, hsteps⟩
    | some st =>
      obtain ⟨joint, hj⟩ := lookup_ok hex hs
      exact ⟨_, Fallible.bind_eq_ok.mpr ⟨joint, hj, Fallible.bind_eq_ok.mpr ⟨steps, hsteps, rfl⟩⟩⟩

theorem verdictOf_ok (hex : Product a maxDepth mode y0 x nodes) {f : Str} {e : Expr}
    (he : parseExpr f = .ok e) (pc : Bool) :
    ∃ v, verdictOf a x.1 (Explorer.result maxDepth mode x.2) pc f = .ok v ∧
      (v.satisfied = true ↔
        0 ∈ checkCtl e (Explorer.result maxDepth mode x.2) (a.enabledSteps x.1)) := by
  rw [verdictOf, he]
  change ∃ v, (if 0 ∈ checkCtl e (Explorer.result maxDepth mode x.2) (a.enabledSteps x.1) then _
    else _) = Except.ok v ∧ _
  by_cases h0 : 0 ∈ checkCtl e (Explorer.result maxDepth mode x.2) (a.enabledSteps x.1)
  · exact ⟨_, if_pos h0, by simp [h0]⟩
  · rw [if_neg h0]
    obtain ⟨path, hp⟩ := witnessViolationPath_ok (Explorer.result maxDepth mode x.2)
      (a.enabledSteps x.1) e
      (checkCtl e (Explorer.result maxDepth mode x.2) (a.enabledSteps x.1))
    obtain ⟨steps, hs⟩ := counterexample_ok hex path none
    refine ⟨⟨f, false, path, if pc then steps else []⟩,
      Fallible.bind_eq_ok.mpr ⟨path, hp, ?_⟩, by simp [h0]⟩
    cases pc with
    | false => rfl
    | true => exact Fallible.map_eq_ok.mpr ⟨steps, hs, rfl⟩

theorem parse_of_verdictOf {memo : Memo V} {m : ExplorationResult V} {pc : Bool} {f : Str}
    {v : JointVerdict V} (h : verdictOf a memo m pc f = .ok v) : ∃ e, parseExpr f = .ok e := by
  cases hp : parseExpr f with
  | error e =>
    rw [verdictOf, hp] at h
    cases h
  | ok e => exact ⟨e, rfl⟩

end verdict

end JointAdapter

end TraceMind.Verify
