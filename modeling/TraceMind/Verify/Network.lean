import TraceMind.Verify.AssumeGuarantee

namespace TraceMind.Verify

open BoundedSearch Ctl

variable {V : Type}

structure AgentNetworkEdge where
  source : Str
  target : Str
  kpiKeys : List Str

structure Contract where
  guarantees : List Str
  assumptions : List Str

structure AgentNetworkBody where
  networkId : Str
  centerBundleRef : Str
  leafBundleRefs : List Str
  edges : List AgentNetworkEdge
  contracts : SortedMap Str Contract

abbrev Bundles (V : Type) := SortedMap Str (AgentBundleBody V)

inductive NetworkMode where
  | monolithic
  | compositional
deriving DecidableEq, Repr

structure NetworkFallback where
  fallback : Fallback
  via : Via
deriving DecidableEq, Repr

structure NetworkVerifyReport (V : Type) where
  verified : Bool
  networkId : Str
  componentIds : List Str
  formulas : List Str
  verdicts : List (JointVerdict V)
  stateCount : ℕ
  edgeCount : ℕ
  deadlockCount : ℕ
  mode : NetworkMode
  localVerdicts : List LocalVerdict
  abstractionStats : List (Str × AbstractionStats)
  compositionalStateCount : Option ℕ
  monolithicStateCount : Option ℕ
  fallbacks : List NetworkFallback

def bundleOf (bundles : Bundles V) (ref : Str) : Except Err (AgentBundleBody V) :=
  match bundles.get? ref with
  | none => .error (.keyError ("missing bundle artifact for ref '" ++ String.ofList ref ++ "'"))
  | some body => .ok body

def AgentNetworkBody.required (network : AgentNetworkBody) : List Str :=
  network.centerBundleRef :: network.leafBundleRefs

def resolveBundleAdapters (network : AgentNetworkBody) (bundles : Bundles V) [PyValue V] :
    Except Err (List (ComponentAdapter V) × List Str) := do
  let adapters ← network.required.mapM (fun ref => do
    let body ← bundleOf bundles ref
    adapterFromBundle body)
  .ok (adapters.map TraceMindAdapter.component, network.required)

def addKpi (kpis : List Str) (k : Str) : List Str := if k ∈ kpis then kpis else kpis ++ [k]

def edgeKpis (edges : List AgentNetworkEdge) (ref : Str) : List Str :=
  edges.foldl (fun kpis edge =>
    if ref = edge.source ∨ ref = edge.target then edge.kpiKeys.foldl addKpi kpis else kpis) []

def leafSpecOf (network : AgentNetworkBody) (bundles : Bundles V) (ref : Str) :
    Except Err (LeafSpec V) := do
  let body ← bundleOf bundles ref
  let contract := (network.contracts.get? ref).getD ⟨[], []⟩
  .ok ⟨ref, body, edgeKpis network.edges ref, contract.guarantees, contract.assumptions⟩

def resolveLeafSpecs (network : AgentNetworkBody) (bundles : Bundles V) :
    Except Err (List (LeafSpec V)) :=
  network.leafBundleRefs.mapM (leafSpecOf network bundles)

def NetworkMode.parse (mode : Str) : Except Err NetworkMode :=
  if mode = "monolithic".toList then .ok .monolithic
  else if mode = "compositional".toList then .ok .compositional
  else .error (.valueError ("mode must be 'monolithic' or 'compositional', got '" ++
    String.ofList mode ++ "'"))

def viaOf (verdicts : List CompositionalVerdict) (f : Fallback) : Except Err NetworkFallback :=
  match verdicts.reverse.find? (fun v => v.formula = f.formula) with
  | none => .error (.keyError (String.ofList f.formula))
  | some v => .ok ⟨f, v.via⟩

def zipFallbacks (crep : CompositionalReport) : Except Err (List NetworkFallback) :=
  crep.fallbacks.mapM (viaOf crep.verdicts)

section verify

variable [PyValue V] [DecidableEq V]

def networkVerifyMonolithic (network : AgentNetworkBody) (bundles : Bundles V)
    (formulas : List Str) (maxDepth : ℤ) (hashMode : HashMode) (projectCounterexamples : Bool) :
    Except Err (NetworkVerifyReport V) := do
  let (components, ids) ← resolveBundleAdapters network bundles
  let r ← jointVerify components formulas (some ids) maxDepth hashMode projectCounterexamples
  .ok { verified := r.verified
        networkId := network.networkId
        componentIds := r.componentIds
        formulas := r.formulas
        verdicts := r.verdicts
        stateCount := r.stateCount
        edgeCount := r.edgeCount
        deadlockCount := r.deadlockCount
        mode := .monolithic
        localVerdicts := []
        abstractionStats := []
        compositionalStateCount := none
        monolithicStateCount := none
        fallbacks := [] }

def networkVerifyCompositional (network : AgentNetworkBody) (bundles : Bundles V)
    (formulas : List Str) (maxDepth : ℤ) (hashMode : HashMode) :
    Except Err (NetworkVerifyReport V) := do
  let centerBundle ← bundleOf bundles network.centerBundleRef
  let leafSpecs ← resolveLeafSpecs network bundles
  let crep ← assumeGuaranteeVerify centerBundle leafSpecs formulas network.centerBundleRef
    maxDepth hashMode
  let fallbacks ← zipFallbacks crep
  .ok { verified := crep.verified
        networkId := network.networkId
        componentIds := crep.centerId :: crep.leafIds
        formulas := formulas
        verdicts := crep.verdicts.map (fun v => ⟨v.formula, v.satisfied, [], []⟩)
        stateCount := crep.compositionalStateCount
        edgeCount := 0
        deadlockCount := 0
        mode := .compositional
        localVerdicts := crep.localVerdicts
        abstractionStats := crep.abstractionStats
        compositionalStateCount := some crep.compositionalStateCount
        monolithicStateCount := crep.monolithicStateCount
        fallbacks := fallbacks }

def networkVerify (network : AgentNetworkBody) (bundles : Bundles V) (formulas : List Str)
    (mode : Str) (maxDepth : ℤ) (hashMode : HashMode) (projectCounterexamples : Bool) :
    Except Err (NetworkVerifyReport V) := do
  if formulas = [] then .error (.valueError "network_verify requires at least one formula")
  else
    match ← NetworkMode.parse mode with
    | .compositional => networkVerifyCompositional network bundles formulas maxDepth hashMode
    | .monolithic =>
      networkVerifyMonolithic network bundles formulas maxDepth hashMode projectCounterexamples

end verify

section fallbacks

variable [DecidableEq V] {ctx : Context V} {f : Str} {d : Discharge}

theorem fallback_formula {cls : Classification} {trigger : Trigger} {reason : String}
    (h : ctx.fallback f cls trigger reason = .ok d) :
    ∀ fb ∈ d.fallbacks, fb.formula = d.verdict.formula := by
  obtain ⟨⟨sat, n⟩, -, he⟩ := Fallible.bind_eq_ok.mp h
  cases he
  simp

theorem dischargeAs_formula {cls : Classification} (h : ctx.dischargeAs f cls = .ok d) :
    ∀ fb ∈ d.fallbacks, fb.formula = d.verdict.formula := by
  unfold Context.dischargeAs at h
  split at h
  · exact fallback_formula h
  · split at h
    · obtain ⟨b, -, rfl⟩ := Fallible.map_eq_ok.mp h
      simp
    · exact fallback_formula h
  · obtain ⟨r, -, rfl⟩ := Fallible.map_eq_ok.mp h
    simp
  · obtain ⟨sat, -, hrest⟩ := Fallible.bind_eq_ok.mp h
    cases sat with
    | true =>
      cases hrest
      simp
    | false =>
      obtain ⟨⟨msat, n⟩, -, he⟩ := Fallible.bind_eq_ok.mp hrest
      cases he
      simp

theorem discharge_formula (h : ctx.discharge f = .ok d) :
    ∀ fb ∈ d.fallbacks, fb.formula = d.verdict.formula := by
  obtain ⟨cls, -, hrest⟩ := Fallible.bind_eq_ok.mp h
  unfold Context.route at hrest
  split at hrest
  · exact fallback_formula hrest
  · exact dischargeAs_formula hrest

end fallbacks

section star

variable {network : AgentNetworkBody} {bundles : Bundles V} {centerBundle : AgentBundleBody V}
  {leaves : List (LeafSpec V)}

structure Describes (network : AgentNetworkBody) (bundles : Bundles V)
    (centerBundle : AgentBundleBody V) (leaves : List (LeafSpec V)) : Prop where
  center : bundleOf bundles network.centerBundleRef = .ok centerBundle
  leaves : resolveLeafSpecs network bundles = .ok leaves

theorem resolveLeafSpecs_ids (h : resolveLeafSpecs network bundles = .ok leaves) :
    leaves.map LeafSpec.componentId = network.leafBundleRefs ∧
      ∀ s ∈ leaves, bundleOf bundles s.componentId = .ok s.bundle := by
  have hf : List.Forall₂ (fun ref s => leafSpecOf network bundles ref = .ok s)
      network.leafBundleRefs leaves := Fallible.mapM_eq_ok.mp h
  clear h
  generalize network.leafBundleRefs = refs at hf
  induction hf with
  | nil => exact ⟨rfl, nofun⟩
  | cons hs _ ih =>
    obtain ⟨body, hbody, he⟩ := Fallible.bind_eq_ok.mp hs
    cases he
    refine ⟨congrArg _ ih.1, fun t ht => ?_⟩
    rcases List.mem_cons.mp ht with rfl | ht
    · exact hbody
    · exact ih.2 t ht

variable [PyValue V] {center : TraceMindAdapter V} {adapters : List (TraceMindAdapter V)}

theorem resolveBundleAdapters_eq (h : Describes network bundles centerBundle leaves)
    (hcenter : adapterFromBundle centerBundle = .ok center)
    (hleaves : leaves.mapM (fun s => adapterFromBundle s.bundle) = .ok adapters) :
    resolveBundleAdapters network bundles =
      .ok (starComponents center adapters, starIds network.centerBundleRef leaves) := by
  obtain ⟨hids, hbodies⟩ := resolveLeafSpecs_ids h.leaves
  have hall : network.required.mapM (fun ref => do
      let body ← bundleOf bundles ref
      adapterFromBundle body) = .ok (center :: adapters) := by
    refine Fallible.mapM_eq_ok.mpr (.cons (Fallible.bind_eq_ok.mpr ⟨_, h.center, hcenter⟩) ?_)
    rw [← hids, List.forall₂_map_left_iff]
    have hf := (List.forall₂_and_left _ _).mpr ⟨hbodies, Fallible.mapM_eq_ok.mp hleaves⟩
    exact hf.imp (fun s l hsl => Fallible.bind_eq_ok.mpr ⟨_, hsl⟩)
  rw [resolveBundleAdapters, hall]
  change Except.ok (_, _) = Except.ok (_, _)
  rw [AgentNetworkBody.required, starIds, hids]
  rfl

variable [DecidableEq V] {formulas : List Str} {maxDepth : ℤ} {hashMode : HashMode}

theorem zipFallbacks_ok {centerId : Str} {report : CompositionalReport}
    (hcenter : adapterFromBundle centerBundle = .ok center)
    (hleaves : leaves.mapM (fun s => adapterFromBundle s.bundle) = .ok adapters)
    (h : assumeGuaranteeVerify centerBundle leaves formulas centerId maxDepth hashMode =
      .ok report) : ∃ fallbacks, zipFallbacks report = .ok fallbacks := by
  obtain ⟨cyc, hcyc⟩ := assumptionCycle_of_report h
  obtain ⟨abss, joint, model, memo, locals, results, -, -, -, -, hres, hverd, hfbs⟩ :=
    (assumeGuaranteeVerify_iff hcenter hleaves hcyc).mp ⟨report, h, rfl, rfl⟩
  have hres' := Fallible.mapM_eq_ok.mp hres
  refine Fallible.mapM_ok (fun fb hfb => ?_)
  rw [hfbs, List.mem_flatten] at hfb
  obtain ⟨xs, hxs, hfb⟩ := hfb
  obtain ⟨d, hd, rfl⟩ := List.mem_map.mp hxs
  obtain ⟨i, hi, rfl⟩ := List.getElem_of_mem hd
  have hf := discharge_formula (hres'.get (hres'.length_eq ▸ hi) hi) fb hfb
  unfold viaOf
  split
  · rename_i hnone
    have hno := List.find?_eq_none.mp hnone results[i].verdict
    rw [List.mem_reverse, hverd] at hno
    exact absurd (decide_eq_true hf.symm) (hno (List.mem_map_of_mem hd))
  · exact ⟨_, rfl⟩

theorem networkVerify_verdicts {mono : JointReport V}
    (h : Describes network bundles centerBundle leaves)
    (hcenter : adapterFromBundle centerBundle = .ok center)
    (hleaves : leaves.mapM (fun s => adapterFromBundle s.bundle) = .ok adapters)
    (hmono : jointVerify (starComponents center adapters) formulas
      (some (starIds network.centerBundleRef leaves)) maxDepth hashMode true = .ok mono)
    (hne : formulas ≠ []) :
    (∃ r, networkVerify network bundles formulas "monolithic".toList maxDepth hashMode true =
      .ok r ∧ r.verdicts = mono.verdicts) ∧
    ∀ report, assumeGuaranteeVerify centerBundle leaves formulas network.centerBundleRef maxDepth
      hashMode = .ok report →
      ∃ r, networkVerify network bundles formulas "compositional".toList maxDepth hashMode true =
        .ok r ∧ r.verdicts.map JointVerdict.satisfied =
          report.verdicts.map CompositionalVerdict.satisfied := by
  have hm : networkVerify network bundles formulas "monolithic".toList maxDepth hashMode true =
      networkVerifyMonolithic network bundles formulas maxDepth hashMode true := by
    rw [networkVerify, if_neg hne]
    rfl
  have hc : networkVerify network bundles formulas "compositional".toList maxDepth hashMode true =
      networkVerifyCompositional network bundles formulas maxDepth hashMode := by
    rw [networkVerify, if_neg hne]
    rfl
  constructor
  · rw [hm]
    exact ⟨_, Fallible.bind_eq_ok.mpr ⟨_, resolveBundleAdapters_eq h hcenter hleaves,
      Fallible.bind_eq_ok.mpr ⟨mono, hmono, rfl⟩⟩, rfl⟩
  · intro report hreport
    obtain ⟨fallbacks, hfbs⟩ := zipFallbacks_ok hcenter hleaves hreport
    rw [hc]
    refine ⟨_, Fallible.bind_eq_ok.mpr ⟨_, h.center, Fallible.bind_eq_ok.mpr ⟨_, h.leaves,
      Fallible.bind_eq_ok.mpr ⟨report, hreport, Fallible.bind_eq_ok.mpr ⟨fallbacks, hfbs,
        rfl⟩⟩⟩⟩, ?_⟩
    rw [List.map_map]
    rfl

end star

section claim

variable [PyValue V] [DecidableEq V]

end claim

def centerBundle : AgentBundleBody Bool where
  bundleId := ['c']
  verify := some
    { steps := [(['s'], ⟨[], [['p']], []⟩)]
      rules := []
      initialStore := SortedMap.ofList []
      changedPaths := []
      initialPending := [['s']] }

def leafSpec : LeafSpec Bool where
  componentId := ['l']
  bundle := factBundle (SortedMap.ofList [])
  kpiKeys := []
  guarantees := []
  assumptions := []

def hiddenFormula : Str := "AG !(has(l.k) && has(c.p))".toList

def satisfiedBoth (leaf : LeafSpec Bool) : Except Err (List Bool × List Bool) := do
  let center ← adapterFromBundle centerBundle
  let adapters ← [leaf].mapM (fun s => adapterFromBundle s.bundle)
  let mono ← jointVerify (starComponents center adapters) [hiddenFormula]
    (some (starIds ['c'] [leaf])) 4 .full true
  let report ← assumeGuaranteeVerify centerBundle [leaf] [hiddenFormula] ['c'] 4 .full
  .ok (report.verdicts.map CompositionalVerdict.satisfied,
    mono.verdicts.map JointVerdict.satisfied)

theorem both_of_satisfied {leaf : LeafSpec Bool} {xs ys : List Bool}
    (h : satisfiedBoth leaf = .ok (xs, ys)) : ∃ center adapters mono report,
      adapterFromBundle centerBundle = .ok center ∧
      [leaf].mapM (fun s => adapterFromBundle s.bundle) = .ok adapters ∧
      jointVerify (starComponents center adapters) [hiddenFormula]
        (some (starIds ['c'] [leaf])) 4 .full true = .ok mono ∧
      assumeGuaranteeVerify centerBundle [leaf] [hiddenFormula] ['c'] 4 .full = .ok report ∧
      report.verdicts.map CompositionalVerdict.satisfied = xs ∧
      mono.verdicts.map JointVerdict.satisfied = ys := by
  obtain ⟨center, hcenter, h⟩ := Fallible.bind_eq_ok.mp h
  obtain ⟨adapters, hleaves, h⟩ := Fallible.bind_eq_ok.mp h
  obtain ⟨mono, hmono, h⟩ := Fallible.bind_eq_ok.mp h
  obtain ⟨report, hreport, h⟩ := Fallible.bind_eq_ok.mp h
  obtain ⟨hx, hy⟩ := Prod.mk.inj (Except.ok.inj h)
  exact ⟨center, adapters, mono, report, hcenter, hleaves, hmono, hreport, hx, hy⟩

def visibleLeaf : LeafSpec Bool := { leafSpec with kpiKeys := [['k']] }

def hiddenExpr : Expr :=
  .ctl .AG (.not (.and (.predicate "has".toList (some "l.k".toList))
    (.predicate "has".toList (some "c.p".toList))))

theorem visibleLeaf_trusted {center leaf : TraceMindAdapter Bool}
    (hleaf : adapterFromBundle visibleLeaf.bundle = .ok leaf) :
    Trusted [visibleLeaf] center [leaf] (starIds ['c'] [visibleLeaf]) .full none hiddenFormula
      hiddenExpr := by
  have hclass : (classifyExpr hiddenFormula hiddenExpr
      (starIds ['c'] [visibleLeaf])).propertyClass = .safetyGlobal := by decide +kernel
  have hstore : leaf.initialStore = SortedMap.ofList [] := by
    cases hleaf
    rfl
  refine Or.inr ⟨⟨by decide, Or.inl rfl⟩, ⟨Or.inl rfl, fun h => ?_, fun _ => ⟨?_, ?_⟩⟩⟩
  · rw [hclass] at h
    cases h
  · intro p hp k hk
    obtain rfl : p = (visibleLeaf, leaf) := by simpa using hp
    obtain rfl : k = ['k'] := (qualify_injective ['l'] (Option.some.inj hk)).symm
    have hatom : ['k'] ∈ interfaceAtoms visibleLeaf.kpiKeys visibleLeaf.guarantees := by
      decide +kernel
    refine ⟨by decide, by decide, fun _ => ⟨hatom, fun x hx => ?_⟩⟩
    rw [hstore] at hx
    cases hx
  · intro p hp k hk
    obtain rfl : p = (visibleLeaf, leaf) := by simpa using hp
    cases hk

end TraceMind.Verify
