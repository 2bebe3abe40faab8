import TraceMind.Verify.Shadow

namespace TraceMind.Verify

open BoundedSearch Ctl

variable {V : Type}

theorem fromComponents_ok {components : List (ComponentAdapter V)} {ids : List Str}
    (hne : components ≠ []) (hlen : components.length = ids.length) (hnil : [] ∉ ids)
    (hnd : ids.Nodup) :
    JointAdapter.fromComponents components (some ids) = .ok ⟨components, ids⟩ := by
  unfold JointAdapter.fromComponents
  rw [if_neg hne]
  refine Fallible.map_eq_ok.mpr ⟨(), ?_, rfl⟩
  unfold JointAdapter.checkIds
  rw [if_neg (not_not.mpr hlen.symm), if_neg (not_not.mpr hnd), if_neg hnil]

section routed

def Routed (cls : Classification) (cyclicLeaf : Option Str) : Prop :=
  cls.propertyClass = .outOfClass ∨ (cls.compositional = true ∧ cyclicLeaf ≠ none) ∨
    (cls.propertyClass = .singleComponent ∧ cls.components.length ≠ 1)

variable [DecidableEq V] {ctx : Context V} {f : Str} {cls : Classification} {b : Bool} {n : ℕ}

theorem fallback_ok {trigger : Trigger} {reason : String}
    (hm : ctx.monoVerify f = .ok (b, n)) :
    ∃ d, ctx.fallback f cls trigger reason = .ok d ∧ d.verdict.satisfied = b :=
  ⟨_, Fallible.bind_eq_ok.mpr ⟨(b, n), hm, rfl⟩, rfl⟩

theorem route_routed (hr : Routed cls ctx.cyclicLeaf) (hm : ctx.monoVerify f = .ok (b, n)) :
    ∃ d, ctx.route f cls = .ok d ∧ d.verdict.satisfied = b := by
  unfold Context.route
  split
  · exact fallback_ok hm
  · rename_i hno
    unfold Context.dischargeAs
    rcases hr with hr | ⟨hcomp, hcyc⟩ | ⟨hone, hlen⟩
    · rw [hr]
      exact fallback_ok hm
    · obtain ⟨leaf, hleaf⟩ := Option.ne_none_iff_exists'.mp hcyc
      exact absurd hleaf (hno leaf hcomp)
    · rw [hone]
      dsimp only
      split
      · rename_i cid hcid
        exact absurd (congrArg List.length hcid) hlen
      · exact fallback_ok hm

theorem discharge_routed (hcls : classifyFormula f ctx.allIds = .ok cls)
    (hr : Routed cls ctx.cyclicLeaf) (hm : ctx.monoVerify f = .ok (b, n)) :
    ∃ d, ctx.discharge f = .ok d ∧ d.verdict.satisfied = b := by
  obtain ⟨d, hd, hb⟩ := route_routed hr hm
  exact ⟨d, Fallible.bind_eq_ok.mpr ⟨cls, hcls, hd⟩, hb⟩

end routed

section star

variable [PyValue V]

def Visible (leaves : List (LeafSpec V)) (adapters : List (TraceMindAdapter V)) (n : Str)
    (v : Option Str) : Prop :=
  ∀ p ∈ leaves.zip adapters, ∀ k, v = some (qualify p.1.componentId k) →
    lower n ≠ "pending".toList ∧ lower n ≠ "done".toList ∧ (lower n = "has".toList →
      k ∈ interfaceAtoms p.1.kpiKeys p.1.guarantees ∧
        ∀ x, p.2.initialStore.get? k = some x → PyValue.truthy x = true)

theorem evalPredicate_image {a : InterfaceAdapter} {leaf : TraceMindAdapter V}
    {root st : State V} (hroot : leaf.initialState = .ok root)
    (hreach : Relation.ReflTransGen (Next leaf.successors) root st) {n k : Str}
    (hn : lower n ≠ "terminal".toList) (hp : lower n ≠ "pending".toList)
    (hd : lower n ≠ "done".toList) (hk : lower n = "has".toList → k ∈ a.atoms ∧
      ∀ x, leaf.initialStore.get? k = some x → PyValue.truthy x = true) :
    evalPredicate noSteps n (some k) st = evalPredicate noSteps n (some k) (a.image st) := by
  rw [Bool.eq_iff_iff, evalPredicate_some hn, evalPredicate_some hn]
  simp only [hp, hd, false_and, or_false]
  refine and_congr_right (fun hhas => ?_)
  obtain ⟨hatom, htrue⟩ := hk hhas
  have himg := (has_image_iff hatom noSteps noSteps (s := st)).mpr (fun v hv => by
    rcases TraceMindAdapter.reach_get? hroot hreach hv with rfl | hv
    · exact PyValue.truthy_pyTrue
    · exact htrue v hv)
  rw [evalPredicate_has, evalPredicate_has] at himg
  rw [himg]

variable [DecidableEq V]

structure Context.StarOf (ctx : Context V) (center : TraceMindAdapter V)
    (leaves : List (LeafSpec V)) (adapters : List (TraceMindAdapter V))
    (abss : List InterfaceAdapter) : Prop where
  ids : ∃ centerId, ctx.allIds = centerId :: leaves.map LeafSpec.componentId
  abs : ctx.absComponents = center.component :: abss.map (InterfaceAdapter.component V)
  built : leaves.mapM (fun s => adapterFromBundle s.bundle) = .ok adapters
  abstracted : leafAbstractions leaves ctx.maxDepth ctx.mode = .ok abss

def starComponents (center : TraceMindAdapter V) (adapters : List (TraceMindAdapter V)) :
    List (ComponentAdapter V) :=
  center.component :: adapters.map TraceMindAdapter.component

def starMaps (V : Type) [PyValue V] (abss : List InterfaceAdapter) : List (State V → State V) :=
  id :: abss.map InterfaceAdapter.image

variable {ctx : Context V} {center : TraceMindAdapter V} {leaves : List (LeafSpec V)}
  {adapters : List (TraceMindAdapter V)} {abss : List InterfaceAdapter} {y0 : List (State V)}

theorem Context.StarOf.lengths (h : ctx.StarOf center leaves adapters abss) :
    adapters.length = leaves.length ∧ abss.length = leaves.length :=
  ⟨(Fallible.mapM_eq_ok.mp h.built).length_eq.symm,
    (Fallible.mapM_eq_ok.mp h.abstracted).length_eq.symm⟩

theorem Context.StarOf.leaf_at (h : ctx.StarOf center leaves adapters abss) {i : ℕ}
    {a : InterfaceAdapter} (ha : abss[i]? = some a) : ∃ s leaf r, leaves[i]? = some s ∧
      adapters[i]? = some leaf ∧
      Explorer.run leaf.component.stateless () ctx.maxDepth ctx.mode = .ok (r, ()) ∧
      a = abstractResult (interfaceAtoms s.kpiKeys s.guarantees) r := by
  have hbuilt := Fallible.mapM_eq_ok.mp h.built
  have habs := Fallible.mapM_eq_ok.mp h.abstracted
  obtain ⟨hi, rfl⟩ := List.getElem?_eq_some_iff.mp ha
  have hl : i < leaves.length := habs.length_eq ▸ hi
  have hla : i < adapters.length := hbuilt.length_eq ▸ hl
  obtain ⟨leaf, hleaf, hrest⟩ := Fallible.bind_eq_ok.mp (habs.get hl hi)
  obtain ⟨⟨r, u⟩, hrun, he⟩ := Fallible.bind_eq_ok.mp hrest
  cases hleaf.symm.trans (hbuilt.get hl hla)
  exact ⟨_, _, r, List.getElem?_eq_getElem hl, List.getElem?_eq_getElem hla, hrun,
    (Except.ok.inj he).symm⟩

def Context.abstractProduct (ctx : Context V) : JointAdapter V := ⟨ctx.absComponents, ctx.allIds⟩

theorem Context.StarOf.abstract_fit (h : ctx.StarOf center leaves adapters abss)
    (hpf : PrefixFree ctx.allIds) : ctx.abstractProduct.Fit := by
  refine ⟨hpf, ?_⟩
  obtain ⟨centerId, hids⟩ := h.ids
  change ctx.absComponents.length = ctx.allIds.length
  rw [h.abs, hids, List.length_cons, List.length_cons, List.length_map, List.length_map,
    h.lengths.2]

theorem Context.StarOf.follows (h : ctx.StarOf center leaves adapters abss)
    (hset : ctx.Settled (starComponents center adapters) y0) :
    Follows (ctx.product (starComponents center adapters)) ctx.abstractProduct
      (starMaps V abss) ctx.maxDepth.toNat y0 := by
  have hfit := hset.fit
  have hinit := JointAdapter.initialStates_eq_ok.mp hset.expands.init
  have hroots {i : ℕ} {c : ComponentAdapter V} {root : State V}
      (hc : (starComponents center adapters)[i]? = some c) (hr : y0[i]? = some root) :
      c.initialState = .ok root := by
    obtain ⟨hi, rfl⟩ := List.getElem?_eq_some_iff.mp hc
    obtain ⟨hi', rfl⟩ := List.getElem?_eq_some_iff.mp hr
    exact hinit.get hi hi'
  obtain ⟨centerId, hids⟩ := h.ids
  refine ⟨rfl, ?_, fun i c φ root hc hφ hroot => ?_⟩
  · change _ = ctx.allIds.length
    rw [starMaps, hids, List.length_cons, List.length_cons, List.length_map, List.length_map,
      h.lengths.2]
  · have hok (k : ℕ) (s : State V) (hw : Walk (Next c.successors) root k s)
        (hk : k < ctx.maxDepth.toNat) : ∃ ys, c.successors s = .ok ys :=
      hfit.walk_set hset.expands.ok hc hroot hw hk
    cases i with
    | zero =>
      cases hc
      cases hφ
      refine ⟨center.component, ?_, hroots rfl hroot, hok, fun k s t _ _ ht => ht⟩
      change ctx.absComponents[0]? = _
      rw [h.abs]
      rfl
    | succ j =>
      simp only [starMaps, List.getElem?_cons_succ, List.getElem?_map,
        Option.map_eq_some_iff] at hφ
      obtain ⟨a, ha, rfl⟩ := hφ
      obtain ⟨s, leaf, r, hs, hleaf, hrun, rfl⟩ := h.leaf_at ha
      have hcl : (starComponents center adapters)[j + 1]? = some leaf.component := by
        simp [starComponents, hleaf]
      cases hc.symm.trans hcl
      have hlr : leaf.initialState = .ok root := hroots hcl hroot
      obtain ⟨root', x, nodes, hroot', rfl, hex⟩ := explored_of_run hrun
      cases hlr.symm.trans hroot'
      refine ⟨(abstractResult _ _).component V, ?_,
        abstract_initial (Explorer.state_of_node hex hex.root), fun _ _ _ _ => ⟨_, rfl⟩, ?_⟩
      · change ctx.absComponents[j + 1]? = _
        rw [h.abs, List.getElem?_cons_succ, List.getElem?_map, ha]
        rfl
      · intro k st t hw hk ht
        exact leaf_step hrun hlr (hset.parts (j + 1) _ _ hcl hroot) hw hk ht _

theorem Context.StarOf.abstract_parts (h : ctx.StarOf center leaves adapters abss)
    (hset : ctx.Settled (starComponents center adapters) y0) :
    ctx.abstractProduct.PartsDetermined ctx.mode (shadow (starMaps V abss) y0) := by
  intro i d root hd hroot
  change ctx.absComponents[i]? = some d at hd
  rw [h.abs] at hd
  obtain ⟨φ, root', hφ, hroot', rfl⟩ := get_of_shadow hroot
  cases i with
  | zero =>
    cases hd
    cases hφ
    exact hset.parts 0 _ _ rfl hroot'
  | succ j =>
    rw [List.getElem?_cons_succ, List.getElem?_map, Option.map_eq_some_iff] at hd
    obtain ⟨a, -, rfl⟩ := hd
    exact interface_determined a ctx.mode _

variable {f : Str} {e p : Expr}

theorem Context.StarOf.sem_of_abstract (h : ctx.StarOf center leaves adapters abss)
    (hset : ctx.Settled (starComponents center adapters) y0) (ht : containsTerminal p = false)
    (hv : p.All (Visible leaves adapters))
    (habs : Sem ctx.abstractProduct ctx.maxDepth.toNat (shadow (starMaps V abss) y0) p .AG) :
    Sem (ctx.product (starComponents center adapters)) ctx.maxDepth.toNat y0 p .AG := by
  intro k y hw hk
  have hfit := hset.fit
  have hfol := h.follows hset
  obtain ⟨centerId, hids⟩ := h.ids
  have hlen : y.length = ctx.allIds.length :=
    (hfit.reach_length hw.reach).trans (hfit.root_length hset.expands.init)
  have hroots := JointAdapter.initialStates_eq_ok.mp hset.expands.init
  have hshadow := habs k _ (hfol.walk hfit (h.abstract_fit hset.prefixFree) hset.expands hw hk) hk
  refine (truth_shadow hset.prefixFree hlen hfol.length ht ?_).symm.trans hshadow
  refine (all_and (all_noTerminal ht) hv).imp (fun n v hnv i cid key φ st hid hφ hst hval => ?_)
  obtain ⟨hn, hvis⟩ := hnv
  cases i with
  | zero =>
    cases hφ
    rfl
  | succ j =>
    simp only [starMaps, List.getElem?_cons_succ, List.getElem?_map,
      Option.map_eq_some_iff] at hφ
    obtain ⟨a, ha, rfl⟩ := hφ
    obtain ⟨s, leaf, r, hs, hleaf, -, rfl⟩ := h.leaf_at ha
    rw [hids, List.getElem?_cons_succ, List.getElem?_map, hs] at hid
    cases hid
    obtain ⟨hp, hd, hk⟩ := hvis (s, leaf) (mem_zip_iff.mpr ⟨j, hs, hleaf⟩) key hval
    have hcl : (starComponents center adapters)[j + 1]? = some leaf.component := by
      simp [starComponents, hleaf]
    have hlt : j + 1 < y0.length := by
      rw [← hfit.reach_length hw.reach]
      exact (List.getElem?_eq_some_iff.mp hst).1
    have hroot := List.getElem?_eq_getElem hlt
    have hinit : leaf.component.initialState = .ok y0[j + 1] := by
      obtain ⟨hi, hc⟩ := List.getElem?_eq_some_iff.mp hcl
      exact hc ▸ hroots.get hi hlt
    obtain ⟨k', -, hw'⟩ := hfit.walk_project hw hcl hroot hst
    exact evalPredicate_image hinit hw'.reach hn hp hd hk

theorem Context.StarOf.centerVerify (h : ctx.StarOf center leaves adapters abss)
    (hset : ctx.Settled (starComponents center adapters) y0)
    (he : parseExpr f = .ok (.ctl .AG p)) (hc : hasCtlNodes p = false)
    (ht : containsTerminal p = false) (hr : Readable ctx.mode p) :
    ∃ b, ctx.centerVerify f = .ok b ∧ (b = true ↔
      Sem ctx.abstractProduct ctx.maxDepth.toNat (shadow (starMaps V abss) y0) p .AG) := by
  have hfit := h.abstract_fit hset.prefixFree
  obtain ⟨-, -, hnil, hnd⟩ := fromComponents_eq hset.built
  have hne : ctx.absComponents ≠ [] := by
    rw [h.abs]
    exact List.cons_ne_nil _ _
  have hfrom := fromComponents_ok hne hfit.length hnil hnd
  obtain ⟨b, n, hb, hiff⟩ := verifyOne_of_expands hfit (h.abstract_parts hset) hfrom
    ((h.follows hset).expands hset.fit hfit hset.expands) he .ag hc ht hr
  exact ⟨b, Fallible.map_eq_ok.mpr ⟨(b, n), hb, rfl⟩, hiff⟩

structure Localizable (leaves : List (LeafSpec V)) (adapters : List (TraceMindAdapter V))
    (mode : HashMode) (cls : Classification) (e : Expr) : Prop where
  readable : Readable mode e
  noParen : cls.propertyClass = .decomposable → e.All (fun _ v => NoParen v)
  visible : cls.propertyClass = .safetyGlobal → e.All (Visible leaves adapters)

variable {cls : Classification} {b : Bool} {n : ℕ}

theorem Context.StarOf.dischargeAs_safety (h : ctx.StarOf center leaves adapters abss)
    (hset : ctx.Settled (starComponents center adapters) y0) (he : parseExpr f = .ok e)
    {op : CtlOp} (hd : Discharged f ctx.allIds cls e p op) (hr : Readable ctx.mode p)
    (hsafe : cls.propertyClass = .safetyGlobal) (hv : e.All (Visible leaves adapters))
    (hm : ctx.monoVerify f = .ok (b, n)) :
    ∃ d, ctx.dischargeAs f cls = .ok d ∧ d.verdict.satisfied = b := by
  obtain rfl := hd.safetyGlobal hsafe
  obtain ⟨⟩ := hd.shape
  obtain ⟨b', n', hb', hsem⟩ := hset.mono he .ag hd.flat hd.noTerminal hr
  cases hm.symm.trans hb'
  obtain ⟨sat, hsat, habs⟩ := h.centerVerify hset he hd.flat hd.noTerminal hr
  unfold Context.dischargeAs
  rw [hsafe]
  change ∃ d, ctx.safetyGlobal f = .ok d ∧ _
  unfold Context.safetyGlobal
  rw [hsat]
  cases sat with
  | true =>
    have hpass := hsem.mpr (h.sem_of_abstract hset hd.noTerminal hv (habs.mp rfl))
    exact ⟨_, rfl, hpass.symm⟩
  | false =>
    change ∃ d, (ctx.monoVerify f >>= _) = Except.ok d ∧ _
    exact ⟨_, Fallible.bind_eq_ok.mpr ⟨(b, n), hm, rfl⟩, rfl⟩

theorem Context.StarOf.discharge_localizable (h : ctx.StarOf center leaves adapters abss)
    (hset : ctx.Settled (starComponents center adapters) y0) (he : parseExpr f = .ok e)
    (hl : Localizable leaves adapters ctx.mode (classifyExpr f e ctx.allIds) e)
    (hm : ctx.monoVerify f = .ok (b, n)) :
    ∃ d, ctx.discharge f = .ok d ∧ d.verdict.satisfied = b := by
  have hcls : classifyFormula f ctx.allIds = .ok (classifyExpr f e ctx.allIds) :=
    Fallible.bind_eq_ok.mpr ⟨e, he, rfl⟩
  by_cases hr : Routed (classifyExpr f e ctx.allIds) ctx.cyclicLeaf
  · exact discharge_routed hcls hr hm
  · simp only [Routed, not_or, not_and, not_not] at hr
    obtain ⟨hin, hcyc, hlen⟩ := hr
    obtain ⟨p, op, hd⟩ := classifyExpr_spec hin
    have hread : Readable ctx.mode p := by
      obtain ⟨⟩ | ⟨⟩ := hd.shape <;> exact hl.readable
    obtain ⟨b', n', hb', hsem⟩ := hset.mono he hd.shape hd.flat hd.noTerminal hread
    cases hm.symm.trans hb'
    have has : ∃ d, ctx.dischargeAs f (classifyExpr f e ctx.allIds) = .ok d ∧
        d.verdict.satisfied = b := by
      cases hc : (classifyExpr f e ctx.allIds).propertyClass with
      | outOfClass => exact absurd hc hin
      | singleComponent =>
        obtain ⟨d, hd', hiff⟩ := hset.dischargeAs_single he hd hread hc (hlen hc)
        exact ⟨d, hd', Bool.eq_iff_iff.mpr (hiff.trans hsem.symm)⟩
      | decomposable =>
        obtain ⟨d, hd', hiff⟩ :=
          (hset.dischargeAs_decomposable he hd hread hc).1 (hl.noParen hc)
        exact ⟨d, hd', Bool.eq_iff_iff.mpr (hiff.trans hsem.symm)⟩
      | safetyGlobal => exact h.dischargeAs_safety hset he hd hread hc (hl.visible hc) hm
    obtain ⟨d, hd', hb⟩ := has
    refine ⟨d, Fallible.bind_eq_ok.mpr ⟨_, hcls, ?_⟩, hb⟩
    unfold Context.route
    split
    · rename_i leaf hcomp hcl
      exact absurd ((hcyc hcomp).symm.trans hcl) nofun
    · exact hd'

end star

section verdicts

variable [DecidableEq V]

theorem verifyOne_of_jointVerify {components : List (ComponentAdapter V)} {formulas ids : List Str}
    {maxDepth : ℤ} {mode : HashMode} {rep : JointReport V}
    (h : jointVerify components formulas (some ids) maxDepth mode true = .ok rep) :
    List.Forall₂ (fun f v => verifyOne components ids maxDepth mode f =
      .ok (v.satisfied, rep.stateCount)) formulas rep.verdicts ∧
    ∃ a m memo, JointAdapter.fromComponents components (some ids) = .ok a ∧
      Explorer.run a.adapter [] maxDepth mode = .ok (m, memo) := by
  obtain ⟨a, ha, hrest⟩ := Fallible.bind_eq_ok.mp h
  obtain ⟨⟨m, memo⟩, hrun, hrest⟩ := Fallible.bind_eq_ok.mp hrest
  obtain ⟨vs, hvs, he⟩ := Fallible.bind_eq_ok.mp hrest
  cases he
  refine ⟨(Fallible.mapM_eq_ok.mp hvs).imp (fun f v hv => ?_), a, m, memo, ha, hrun⟩
  have hone : [f].mapM (verdictOf a memo m true) = .ok [v] :=
    Fallible.mapM_eq_ok.mpr (.cons hv .nil)
  exact Fallible.bind_eq_ok.mpr ⟨_, Fallible.bind_eq_ok.mpr ⟨a, ha, Fallible.bind_eq_ok.mpr
    ⟨(m, memo), hrun, Fallible.bind_eq_ok.mpr ⟨_, hone, rfl⟩⟩⟩, rfl⟩

end verdicts

section report

variable [PyValue V] {centerBundle : AgentBundleBody V}
  {leaves : List (LeafSpec V)} {formulas : List Str} {centerId : Str} {maxDepth : ℤ}
  {mode : HashMode} {center : TraceMindAdapter V} {adapters : List (TraceMindAdapter V)}
  {abss : List InterfaceAdapter} {cyc : Option Str}

def starIds (centerId : Str) (leaves : List (LeafSpec V)) : List Str :=
  centerId :: leaves.map LeafSpec.componentId

def starContext (center : TraceMindAdapter V) (adapters : List (TraceMindAdapter V))
    (abss : List InterfaceAdapter) (centerId : Str) (leaves : List (LeafSpec V))
    (cyc : Option Str) (maxDepth : ℤ) (mode : HashMode) : Context V where
  allIds := starIds centerId leaves
  concrete := (starIds centerId leaves).zip (starComponents center adapters)
  absComponents := center.component :: abss.map (InterfaceAdapter.component V)
  cyclicLeaf := cyc
  maxDepth := maxDepth
  mode := mode

theorem leafAdapters_eq
    (h : leaves.mapM (fun s => adapterFromBundle s.bundle) = .ok adapters) :
    leafAdapters leaves = .ok ((leaves.map LeafSpec.componentId).zip
      (adapters.map TraceMindAdapter.component)) := by
  have hf := Fallible.mapM_eq_ok.mp h
  refine Fallible.mapM_eq_ok.mpr ?_
  induction hf with
  | nil => exact .nil
  | @cons s leaf ls as hs _ ih =>
    exact .cons (Fallible.map_eq_ok.mpr ⟨leaf, hs, rfl⟩) (ih (Fallible.mapM_eq_ok.mpr ‹_›))

structure Sound (center : TraceMindAdapter V) (adapters : List (TraceMindAdapter V))
    (ids : List Str) (mode : HashMode) : Prop where
  prefixFree : PrefixFree ids
  determined : mode = .full ∨ ∀ c ∈ center :: adapters, ∀ root, c.initialState = .ok root →
    Determined (State.stableHash mode) c.successors root

theorem Sound.parts {ids : List Str} (h : Sound center adapters ids mode) {y0 : List (State V)}
    (hinit : JointAdapter.initialStates (starComponents center adapters) = .ok y0) :
    JointAdapter.PartsDetermined ⟨starComponents center adapters, ids⟩ mode y0 := by
  rcases h.determined with rfl | hdet
  · exact JointAdapter.partsDetermined_full
  · intro i c root hc hroot
    change (starComponents center adapters)[i]? = some c at hc
    obtain ⟨l, hl, rfl⟩ : ∃ l ∈ center :: adapters, l.component = c := by
      have hmem := List.mem_of_getElem? hc
      rw [starComponents, ← List.map_cons, List.mem_map] at hmem
      exact hmem
    refine hdet l hl root ?_
    obtain ⟨hi, hci⟩ := List.getElem?_eq_some_iff.mp hc
    obtain ⟨hi', rfl⟩ := List.getElem?_eq_some_iff.mp hroot
    have hget := (JointAdapter.initialStates_eq_ok.mp hinit).get hi hi'
    rw [List.get_eq_getElem, hci] at hget
    exact hget

theorem starContext_star (hlen : adapters.length = leaves.length) :
    (starContext center adapters abss centerId leaves cyc maxDepth mode).Star
      (starComponents center adapters) :=
  ⟨rfl, by simp [starContext, starComponents, starIds, hlen]⟩

variable [DecidableEq V]

theorem assumeGuaranteeVerify_iff (hcenter : adapterFromBundle centerBundle = .ok center)
    (hleaves : leaves.mapM (fun s => adapterFromBundle s.bundle) = .ok adapters)
    (hcyc : assumptionCycle (leaves.map LeafSpec.componentId) leaves = .ok cyc)
    {vs : List CompositionalVerdict} {fbs : List Fallback} :
    (∃ report, assumeGuaranteeVerify centerBundle leaves formulas centerId maxDepth mode =
      .ok report ∧ report.verdicts = vs ∧ report.fallbacks = fbs) ↔
    ∃ abss joint model memo locals results,
      leafAbstractions leaves maxDepth mode = .ok abss ∧
      JointAdapter.fromComponents (center.component :: abss.map (InterfaceAdapter.component V))
        (some (starIds centerId leaves)) = .ok joint ∧
      Explorer.run joint.adapter [] maxDepth mode = .ok (model, memo) ∧
      leaves.mapM (checkGuarantees
        (starContext center adapters abss centerId leaves none maxDepth mode)) = .ok locals ∧
      formulas.mapM
        (starContext center adapters abss centerId leaves cyc maxDepth mode).discharge =
          .ok results ∧
      vs = results.map Discharge.verdict ∧
      fbs = (results.map Discharge.fallbacks).flatten := by
  have hconc := leafAdapters_eq hleaves
  unfold assumeGuaranteeVerify
  constructor
  · rintro ⟨report, h, rfl, rfl⟩
    obtain ⟨c, hc, h⟩ := Fallible.bind_eq_ok.mp h
    cases hcenter.symm.trans hc
    obtain ⟨conc, hc, h⟩ := Fallible.bind_eq_ok.mp h
    cases hconc.symm.trans hc
    obtain ⟨abss, habs, h⟩ := Fallible.bind_eq_ok.mp h
    obtain ⟨joint, hjoint, h⟩ := Fallible.bind_eq_ok.mp h
    obtain ⟨⟨model, memo⟩, hrun, h⟩ := Fallible.bind_eq_ok.mp h
    obtain ⟨locals, hlocals, h⟩ := Fallible.bind_eq_ok.mp h
    obtain ⟨c, hc, h⟩ := Fallible.bind_eq_ok.mp h
    cases hcyc.symm.trans hc
    obtain ⟨results, hres, h⟩ := Fallible.bind_eq_ok.mp h
    cases h
    exact ⟨abss, joint, model, memo, locals, results, habs, hjoint, hrun, hlocals, hres, rfl, rfl⟩
  · rintro ⟨abss, joint, model, memo, locals, results, habs, hjoint, hrun, hlocals, hres, rfl, rfl⟩
    exact ⟨_, Fallible.bind_eq_ok.mpr ⟨center, hcenter, Fallible.bind_eq_ok.mpr ⟨_, hconc,
      Fallible.bind_eq_ok.mpr ⟨abss, habs, Fallible.bind_eq_ok.mpr ⟨joint, hjoint,
      Fallible.bind_eq_ok.mpr ⟨(model, memo), hrun, Fallible.bind_eq_ok.mpr ⟨locals, hlocals,
      Fallible.bind_eq_ok.mpr ⟨cyc, hcyc, Fallible.bind_eq_ok.mpr ⟨results, hres, rfl⟩⟩⟩⟩⟩⟩⟩⟩,
      rfl, rfl⟩

theorem assumptionCycle_of_report {report : CompositionalReport}
    (h : assumeGuaranteeVerify centerBundle leaves formulas centerId maxDepth mode = .ok report) :
    ∃ cyc, assumptionCycle (leaves.map LeafSpec.componentId) leaves = .ok cyc := by
  obtain ⟨_, -, h⟩ := Fallible.bind_eq_ok.mp h
  obtain ⟨_, -, h⟩ := Fallible.bind_eq_ok.mp h
  obtain ⟨_, -, h⟩ := Fallible.bind_eq_ok.mp h
  obtain ⟨_, -, h⟩ := Fallible.bind_eq_ok.mp h
  obtain ⟨⟨_, _⟩, -, h⟩ := Fallible.bind_eq_ok.mp h
  obtain ⟨_, -, h⟩ := Fallible.bind_eq_ok.mp h
  obtain ⟨cyc, hcyc, -⟩ := Fallible.bind_eq_ok.mp h
  exact ⟨cyc, hcyc⟩

variable {mono : JointReport V}

theorem Sound.settled (h : Sound center adapters (starIds centerId leaves) mode)
    (hlen : adapters.length = leaves.length)
    (hmono : jointVerify (starComponents center adapters) formulas
      (some (starIds centerId leaves)) maxDepth mode true = .ok mono) :
    ∃ y0, ∀ abss cyc, (starContext center adapters abss centerId leaves cyc maxDepth mode).Settled
      (starComponents center adapters) y0 := by
  obtain ⟨-, a, m, memo, hfrom, hrun⟩ := verifyOne_of_jointVerify hmono
  have hstar : (starContext center adapters [] centerId leaves none maxDepth mode).Star
      (starComponents center adapters) := starContext_star hlen
  obtain ⟨y0, hset⟩ :=
    Context.Settled.of_run hstar h.prefixFree (fun y0 hy => h.parts hy) hfrom hrun
  exact ⟨y0, fun abss cyc => ⟨starContext_star hlen, hset.prefixFree, hset.built, hset.expands,
    hset.parts⟩⟩

def Trusted (leaves : List (LeafSpec V)) (center : TraceMindAdapter V)
    (adapters : List (TraceMindAdapter V)) (ids : List Str) (mode : HashMode)
    (cyc : Option Str) (f : Str) (e : Expr) : Prop :=
  Routed (classifyExpr f e ids) cyc ∨
    Sound center adapters ids mode ∧ Localizable leaves adapters mode (classifyExpr f e ids) e

theorem Trusted.discharge {f : Str} {e : Expr}
    (h : Trusted leaves center adapters (starIds centerId leaves) mode cyc f e)
    (hleaves : leaves.mapM (fun s => adapterFromBundle s.bundle) = .ok adapters)
    (habs : leafAbstractions leaves maxDepth mode = .ok abss)
    (hmono : jointVerify (starComponents center adapters) formulas
      (some (starIds centerId leaves)) maxDepth mode true = .ok mono)
    (he : parseExpr f = .ok e) {b : Bool} {n : ℕ}
    (hv : verifyOne (starComponents center adapters) (starIds centerId leaves) maxDepth mode f =
      .ok (b, n)) :
    ∃ d, (starContext center adapters abss centerId leaves cyc maxDepth mode).discharge f = .ok d ∧
      d.verdict.satisfied = b := by
  have hlen : adapters.length = leaves.length :=
    (Fallible.mapM_eq_ok.mp hleaves).length_eq.symm
  have hstar : (starContext center adapters abss centerId leaves cyc maxDepth mode).Star
      (starComponents center adapters) := starContext_star hlen
  obtain ⟨-, a, m, memo, hfrom, -⟩ := verifyOne_of_jointVerify hmono
  have hm := (hstar.monoVerify_eq (fromComponents_eq hfrom).2.2.2 f).trans hv
  rcases h with hr | ⟨hsound, hl⟩
  · exact discharge_routed (Fallible.bind_eq_ok.mpr ⟨e, he, rfl⟩) hr hm
  · obtain ⟨y0, hset⟩ := hsound.settled hlen hmono
    have hof : (starContext center adapters abss centerId leaves cyc maxDepth mode).StarOf
        center leaves adapters abss := ⟨⟨centerId, rfl⟩, rfl, hleaves, habs⟩
    exact hof.discharge_localizable (hset abss cyc) he hl hm

theorem leafAbstractions_ok {y0 : List (State V)}
    (hleaves : leaves.mapM (fun s => adapterFromBundle s.bundle) = .ok adapters)
    (hset : (starContext center adapters [] centerId leaves none maxDepth mode).Settled
      (starComponents center adapters) y0) :
    ∃ abss, leafAbstractions leaves maxDepth mode = .ok abss := by
  have hf := Fallible.mapM_eq_ok.mp hleaves
  have hroots := JointAdapter.initialStates_eq_ok.mp hset.expands.init
  -- Each leaf walks alone through states that the product visits.
  have hrun {i : ℕ} {leaf : TraceMindAdapter V} (hi : adapters[i]? = some leaf) :
      ∃ r, Explorer.run leaf.component.stateless () maxDepth mode = .ok (r, ()) := by
    have hc : (starComponents center adapters)[i + 1]? = some leaf.component := by
      simp [starComponents, hi]
    obtain ⟨hlt, hget⟩ := List.getElem?_eq_some_iff.mp hc
    have hlt' : i + 1 < y0.length := hroots.length_eq ▸ hlt
    have hinit : leaf.component.initialState = .ok y0[i + 1] := hget ▸ hroots.get hlt hlt'
    exact leaf_run_ok hinit (fun k s hw hk => hset.fit.walk_set hset.expands.ok hc
      (List.getElem?_eq_getElem hlt') hw hk) mode
  suffices h : ∀ s ∈ leaves, ∃ a,
      interfaceAdapterFromContract s.bundle s.kpiKeys s.guarantees maxDepth mode = .ok a by
    exact Fallible.mapM_ok h
  intro s hs
  obtain ⟨i, hi, rfl⟩ := List.getElem_of_mem hs
  have hi' : i < adapters.length := hf.length_eq ▸ hi
  obtain ⟨r, hr⟩ := hrun (List.getElem?_eq_getElem hi')
  exact ⟨_, interfaceAdapter_eq (hf.get hi hi') hr _ _⟩

theorem assumeGuarantee_ok (hcenter : adapterFromBundle centerBundle = .ok center)
    (hleaves : leaves.mapM (fun s => adapterFromBundle s.bundle) = .ok adapters)
    (hmono : jointVerify (starComponents center adapters) formulas
      (some (starIds centerId leaves)) maxDepth mode true = .ok mono)
    (hcyc : assumptionCycle (leaves.map LeafSpec.componentId) leaves = .ok cyc)
    (hsound : Sound center adapters (starIds centerId leaves) mode)
    (hguar : ∀ s ∈ leaves, ∀ g ∈ s.guarantees, ∃ e, parseExpr g = .ok e)
    (hform : ∀ f ∈ formulas, ∀ e, parseExpr f = .ok e →
      Trusted leaves center adapters (starIds centerId leaves) mode cyc f e) :
    ∃ report, assumeGuaranteeVerify centerBundle leaves formulas centerId maxDepth mode =
      .ok report := by
  have hlen : adapters.length = leaves.length :=
    (Fallible.mapM_eq_ok.mp hleaves).length_eq.symm
  obtain ⟨y0, hset⟩ := hsound.settled hlen hmono
  obtain ⟨abss, habs⟩ := leafAbstractions_ok hleaves (hset [] none)
  have hof : (starContext center adapters abss centerId leaves none maxDepth mode).StarOf
      center leaves adapters abss := ⟨⟨centerId, rfl⟩, rfl, hleaves, habs⟩
  have hset' := hset abss none
  have hfit := hof.abstract_fit hsound.prefixFree
  obtain ⟨model, memo, hrun⟩ :=
    hfit.run_ok ((hof.follows hset').expands hset'.fit hfit hset'.expands) mode
  obtain ⟨-, -, hnil, hnd⟩ := fromComponents_eq hset'.built
  have hlocals : ∃ locals, leaves.mapM (checkGuarantees
      (starContext center adapters abss centerId leaves none maxDepth mode)) = .ok locals := by
    refine Fallible.mapM_ok (fun s hs => Fallible.mapM_ok (fun g hg => ?_))
    obtain ⟨e, he⟩ := hguar s hs g hg
    obtain ⟨b, hb⟩ := hset'.exactLocal_ok he
      (List.mem_cons_of_mem _ (List.mem_map_of_mem hs))
    exact ⟨_, Fallible.map_eq_ok.mpr ⟨b, hb, rfl⟩⟩
  obtain ⟨locals, hlocals⟩ := hlocals
  have hresults : ∃ results, formulas.mapM
      (starContext center adapters abss centerId leaves cyc maxDepth mode).discharge =
        .ok results := by
    have hones := (verifyOne_of_jointVerify hmono).1
    refine Fallible.mapM_ok (fun f hf => ?_)
    obtain ⟨i, hi, rfl⟩ := List.getElem_of_mem hf
    have hv := hones.get hi (hones.length_eq ▸ hi)
    obtain ⟨e, he⟩ := parse_of_verifyOne hv
    obtain ⟨d, hd, -⟩ := (hform _ hf e he).discharge hleaves habs hmono he hv
    exact ⟨d, hd⟩
  obtain ⟨results, hresults⟩ := hresults
  obtain ⟨report, hrep, -⟩ := (assumeGuaranteeVerify_iff hcenter hleaves hcyc).mpr
    ⟨abss, _, model, memo, locals, results, habs,
      fromComponents_ok (List.cons_ne_nil _ _) hfit.length hnil hnd, hrun, hlocals, hresults, rfl,
      rfl⟩
  exact ⟨report, hrep⟩

theorem assumeGuarantee_verdict (hcenter : adapterFromBundle centerBundle = .ok center)
    (hleaves : leaves.mapM (fun s => adapterFromBundle s.bundle) = .ok adapters)
    (hmono : jointVerify (starComponents center adapters) formulas
      (some (starIds centerId leaves)) maxDepth mode true = .ok mono)
    (hcyc : assumptionCycle (leaves.map LeafSpec.componentId) leaves = .ok cyc)
    {report : CompositionalReport}
    (hreport : assumeGuaranteeVerify centerBundle leaves formulas centerId maxDepth mode =
      .ok report) {i : ℕ} {f : Str} (hf : formulas[i]? = some f) :
    ∃ e v w, parseExpr f = .ok e ∧ report.verdicts[i]? = some v ∧ mono.verdicts[i]? = some w ∧
      (Trusted leaves center adapters (starIds centerId leaves) mode cyc f e →
        v.satisfied = w.satisfied) := by
  obtain ⟨abss, joint, model, memo, locals, results, habs, -, -, -, hres, hverd, -⟩ :=
    (assumeGuaranteeVerify_iff hcenter hleaves hcyc).mp ⟨report, hreport, rfl, rfl⟩
  obtain ⟨hi, rfl⟩ := List.getElem?_eq_some_iff.mp hf
  have hres' := Fallible.mapM_eq_ok.mp hres
  have hones := (verifyOne_of_jointVerify hmono).1
  have hr : i < results.length := hres'.length_eq ▸ hi
  have hw : i < mono.verdicts.length := hones.length_eq ▸ hi
  have hd := hres'.get hi hr
  have hv := hones.get hi hw
  obtain ⟨e, he⟩ := parse_of_verifyOne hv
  refine ⟨e, results[i].verdict, mono.verdicts[i], he, ?_, List.getElem?_eq_getElem hw,
    fun ht => ?_⟩
  · rw [hverd, List.getElem?_map, List.getElem?_eq_getElem hr]
    rfl
  · obtain ⟨d, hd', hb⟩ := ht.discharge hleaves habs hmono he hv
    cases hd'.symm.trans hd
    exact hb

end report

end TraceMind.Verify
