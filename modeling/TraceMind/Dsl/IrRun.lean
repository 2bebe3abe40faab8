import TraceMind.Dsl.IrEmit
import TraceMind.Dsl.Placement
import TraceMind.Dsl.SourceRun

namespace TraceMind.Dsl

section chain

def Chain (next : Str → Option Str) : List Str → Str → Prop
  | [], _ => True
  | a :: l, t => next a = some (l.headD t) ∧ Chain next l t

variable {next : Str → Option Str}

theorem Chain.append {l l' : List Str} {t : Str} (h : Chain next l (l'.headD t))
    (h' : Chain next l' t) : Chain next (l ++ l') t := by
  induction l with
  | nil => exact h'
  | cons a l ih =>
    refine ⟨?_, ih h.2⟩
    rw [h.1]
    cases l <;> rfl

theorem namesAll_headD (bs : List Block) (t : Str) : (namesAll bs).headD t = entryOf bs t := by
  cases bs with
  | nil => rfl
  | cons b bs =>
    rw [namesAll_cons]
    cases b <;> rfl

variable {out : Str → List FlowEdge}

def firstOf (out : Str → List FlowEdge) (id : Str) : Option Str := (out id).head?.map FlowEdge.dst

mutual

theorem wired_chain : ∀ (b : Block) (t : Str), b.Full → Wired out b t →
    Chain (firstOf out) (namesOf b) t
  | .call id target, t => by
    intro _ h
    rw [Wired] at h
    refine ⟨?_, trivial⟩
    rw [firstOf, h]
    rfl
  | .when id label c body, t => by
    intro hfull h
    refine ⟨?_, wiredAll_chain body t hfull.2.2 h.2⟩
    change firstOf out id = some ((namesAll body).headD t)
    obtain ⟨v, vs, hvs⟩ := List.exists_cons_of_ne_nil hfull.1
    rw [firstOf, h.1, caseEdges, hvs, namesAll_headD, entryOf_eq hfull.2.1 t []]
    rfl

theorem wiredAll_chain : ∀ (bs : List Block) (t : Str), FullAll bs → WiredAll out bs t →
    Chain (firstOf out) (namesAll bs) t
  | [], t => fun _ _ => trivial
  | b :: bs, t => by
    intro hfull h
    rw [namesAll_cons]
    refine Chain.append ?_ (wiredAll_chain bs t hfull.2 h.2)
    rw [namesAll_headD]
    exact wired_chain b _ hfull.1 h.1

end

end chain

section emitted

variable {f : FlowCompilation} {ir : FlowIr} {bs : List Block} {emit finish : Str}

theorem buildNode_spec {s : FlowStep} {node : IrNode} (h : buildNode f s = .ok node) :
    node.id = s.id ∧ node.type = (classifyNode (kindName s.kind) (f.configOf s)).1 := by
  rw [buildNode] at h
  split_ifs at h
  cases h
  exact ⟨rfl, rfl⟩

theorem nodes_ids {ss : List FlowStep} {nodes : List IrNode}
    (h : List.Forall₂ (fun s node => buildNode f s = .ok node) ss nodes) :
    nodes.map IrNode.id = ss.map FlowStep.id := by
  induction h with
  | nil => rfl
  | cons h _ ih => rw [List.map_cons, List.map_cons, (buildNode_spec h).1, ih]

theorem buildFlowIr_spec (h : buildFlowIr f = .ok ir) :
    ir.nodes.map IrNode.id = f.steps.map FlowStep.id ∧ ir.edges = f.edges.map buildEdge ∧
      ∀ node ∈ ir.nodes, ∃ s ∈ f.steps, buildNode f s = .ok node := by
  obtain ⟨nodes, hnodes, h⟩ := Fallible.bind_eq_ok.mp h
  cases h
  exact ⟨nodes_ids (Fallible.mapM_eq_ok.mp hnodes), rfl, fun node hn => Fallible.mapM_mem hnodes hn⟩

theorem successor_eq (h : buildFlowIr f = .ok ir) (id : Str) :
    successor ir.edges id = firstOf f.outgoing id := by
  rw [successor, (buildFlowIr_spec h).2.1, List.find?_map, firstOf, FlowCompilation.outgoing,
    List.head?_filter, Option.map_map]
  rfl

theorem emitted_chain (h : LaidOut f bs emit finish) (hfull : FullAll bs)
    (hir : buildFlowIr f = .ok ir) :
    Chain (successor ir.edges) (namesAll bs ++ [emit]) finish ∧
      successor ir.edges finish = none := by
  have hnext : successor ir.edges = firstOf f.outgoing := funext (successor_eq hir)
  rw [hnext]
  refine ⟨(wiredAll_chain bs emit hfull h.wired).append ⟨?_, trivial⟩, ?_⟩
  · rw [firstOf, h.outgoing_emit]
    rfl
  · rw [firstOf, h.outgoing_finish]
    rfl

theorem Chain.mem_of_next {next : Str → Option Str} {l : List Str} {t : Str} (h : Chain next l t) :
    ∀ n ∈ (l ++ [t]).tail, ∃ a ∈ l, next a = some n := by
  induction l with
  | nil => exact fun n hn => by cases hn
  | cons a l ih =>
    intro n hn
    cases l with
    | nil =>
      rw [List.mem_singleton.mp hn]
      exact ⟨a, List.mem_cons_self, h.1⟩
    | cons b l =>
      rcases List.mem_cons.mp hn with rfl | hn
      · exact ⟨a, List.mem_cons_self, h.1⟩
      · obtain ⟨c, hc, hnext⟩ := ih h.2 n hn
        exact ⟨c, List.mem_cons_of_mem _ hc, hnext⟩

theorem emitted_entry (h : LaidOut f bs emit finish) (hfull : FullAll bs) (hbs : bs ≠ [])
    (hir : buildFlowIr f = .ok ir) : entryCandidates ir = [entryOf bs emit] := by
  obtain ⟨hids, hedges, -⟩ := buildFlowIr_spec hir
  have hsuccessor : ∀ src n, successor ir.edges src = some n → f.Edge src n := by
    intro src n hs
    rw [successor_eq hir, firstOf] at hs
    obtain ⟨e, he, rfl⟩ := Option.map_eq_some_iff.mp hs
    exact edge_of_outgoing (List.mem_of_mem_head? he)
  obtain ⟨rest, hrest⟩ : ∃ rest, namesAll bs ++ [emit, finish] = entryOf bs emit :: rest := by
    cases bs with
    | nil => exact absurd rfl hbs
    | cons b bs =>
      rw [namesAll_cons]
      cases b <;> exact ⟨_, rfl⟩
  have hfirst : ir.edges.all (fun e =>
      decide (successor ir.edges e.src ≠ some (entryOf bs emit))) = true := by
    refine List.all_eq_true.mpr (fun e _ => decide_eq_true (fun hs => ?_))
    have hlt := h.forward hfull (hsuccessor e.src _ hs)
    rw [hrest, List.idxOf_cons_self] at hlt
    exact Nat.not_lt_zero _ hlt
  rw [entryCandidates, hids, h.ids, hrest, List.filter_cons, if_pos hfirst]
  refine congrArg _ (List.filter_eq_nil_iff.mpr (fun n hn hall => ?_))
  have hchain := (emitted_chain h hfull hir).1
  have hlist : namesAll bs ++ [emit] ++ [finish] = entryOf bs emit :: rest := by
    rw [List.append_assoc]
    exact hrest
  obtain ⟨a, -, hnext⟩ := hchain.mem_of_next n (by rw [hlist]; exact hn)
  have hedge : ∃ e ∈ ir.edges, e.src = a := by
    rw [successor] at hnext
    obtain ⟨e, he, -⟩ := Option.map_eq_some_iff.mp hnext
    exact ⟨e, List.mem_of_find?_eq_some he, by simpa using List.find?_some he⟩
  obtain ⟨e, he, rfl⟩ := hedge
  exact of_decide_eq_true (List.all_eq_true.mp hall e he) hnext

end emitted

section runs

variable {W : Type} {E : Calls W} {f : FlowCompilation} {ir : FlowIr} {bs : List Block}
  {emit finish : Str}

theorem runNodes_chain {l : List Str} {fuel : ℕ} : ∀ {r r' : IrRun W},
    Chain (successor ir.edges) l finish → successor ir.edges finish = none →
    runNodes E ir fuel ((l ++ [finish]).headD finish) r = .ret r' →
    r'.executed = r.executed ++ l ++ [finish] ∧
      ∃ node y s, ir.nodes.find? (fun n => n.id = finish) = some node ∧
        engineStep E (buildPythonContext node) s = .ok y ∧ y.1.toList ⊆ r'.invocations := by
  induction l generalizing fuel with
  | nil =>
    intro r r' _ hlast h
    cases fuel with
    | zero => cases h
    | succ fuel =>
      change runNodes E ir (fuel + 1) finish r = .ret r' at h
      rw [runNodes] at h
      split_ifs at h
      · exact absurd h Fuelled.fail_ne_ret
      · cases hnode : ir.nodes.find? (fun n => n.id = finish) with
        | none =>
          rw [hnode] at h
          exact absurd h Fuelled.fail_ne_ret
        | some node =>
          rw [hnode] at h
          dsimp only at h
          cases hstep : engineStep E (buildPythonContext node) (r.state, r.world) with
          | error e =>
            rw [hstep] at h
            exact absurd h Fuelled.fail_ne_ret
          | ok y =>
            rw [hstep] at h
            dsimp only at h
            rw [hlast] at h
            rw [← Fuelled.ret_inj.mp h]
            refine ⟨?_, node, y, _, rfl, hstep, List.subset_append_right _ _⟩
            rw [List.append_nil]
            rfl
  | cons a l ih =>
    intro r r' hchain hlast h
    cases fuel with
    | zero => cases h
    | succ fuel =>
      change runNodes E ir (fuel + 1) a r = .ret r' at h
      rw [runNodes] at h
      split_ifs at h
      · exact absurd h Fuelled.fail_ne_ret
      · cases hnode : ir.nodes.find? (fun n => n.id = a) with
        | none =>
          rw [hnode] at h
          exact absurd h Fuelled.fail_ne_ret
        | some node =>
          rw [hnode] at h
          dsimp only at h
          cases hstep : engineStep E (buildPythonContext node) (r.state, r.world) with
          | error e =>
            rw [hstep] at h
            exact absurd h Fuelled.fail_ne_ret
          | ok y =>
            rw [hstep] at h
            dsimp only at h
            rw [hchain.1] at h
            dsimp only at h
            have hhead : l.headD finish = (l ++ [finish]).headD finish := by cases l <;> rfl
            rw [hhead] at h
            obtain ⟨hexec, hrest⟩ := ih hchain.2 hlast h
            refine ⟨?_, hrest⟩
            rw [hexec, IrRun.after]
            simp

theorem finish_invoked (h : LaidOut f bs emit finish) (hir : buildFlowIr f = .ok ir) {node : IrNode}
    (hnode : ir.nodes.find? (fun n => n.id = finish) = some node) {x : Fields × W}
    {y : Option Invocation × Fields × W}
    (hy : engineStep E (buildPythonContext node) x = .ok y) :
    ∃ i ∈ y.1.toList, i.step = finish := by
  obtain ⟨s, hs, hbuild⟩ := (buildFlowIr_spec hir).2.2 node (List.mem_of_find?_eq_some hnode)
  have hid : node.id = finish := by simpa using List.find?_some hnode
  have hsid : s.id = finish := (buildNode_spec hbuild).1 ▸ hid
  have htag : (finish, Shape.finish) ∈ f.steps.map FlowStep.tag := by
    rw [h.steps]
    simp
  obtain ⟨u, hu, huid, hshape⟩ := h.find_step htag
  have hnodup : (f.steps.map FlowStep.id).Nodup := by
    rw [h.ids]
    exact h.nodup
  obtain rfl := List.inj_on_of_nodup_map hnodup (List.mem_of_find?_eq_some hu) hs
    (huid.trans hsid.symm)
  have hkind : u.kind = .finish := by
    cases hk : u.kind with
    | finish => rfl
    | call target args => rw [hk] at hshape; cases hshape
    | switch key => rw [hk] at hshape; cases hshape
    | emit outputs => rw [hk] at hshape; cases hshape
  have htype : node.type = "finish".toList := by
    rw [(buildNode_spec hbuild).2, FlowCompilation.configOf, hkind]
    rfl
  have hcontext : (buildPythonContext node).config = callConfig "finish".toList node.params := by
    rw [buildPythonContext, contextConfig, htype]
    rfl
  have hcall : resolveStepType (buildPythonContext node) = .call := by
    rw [resolveStepType, hcontext, buildPythonContext, htype]
    rfl
  rw [engineStep, hcall] at hy
  obtain ⟨r, hr, rfl⟩ := Fallible.map_eq_ok.mp hy
  exact ⟨r.1, List.mem_cons_self, (invoke_spec hr).1.trans hid⟩

end runs

section execution

variable {W : Type} {eval : LiteralEval} {E : Calls W}

def IrExecutes (eval : LiteralEval) (E : Calls W) (w : WdlWorkflow) (ir : FlowIr)
    (inputs : Fields) (world : W) : Prop :=
  ∃ r run rendered outputs, sourceRun eval E w inputs world = .ok r ∧
    runWithPythonEngine E ir inputs world = .ret run ∧ run.invocations = r.1.filterMap id ∧
    renderNamed w.outputs = .ok rendered ∧
    evaluateValue E.literal (ensureState r.2.state) (.obj rendered) = .ok (.obj outputs) ∧
    OrderedDict.find "outputs".toList run.state = some (.obj outputs)

mutual

theorem lays_callIds : ∀ {s : WdlStep} {b : Block}, Lays eval s b →
    callIds (itemsOf s) ⊆ namesOf b
  | _, _, .call id target args location => List.Subset.refl _
  | _, _, .when _ _ hbody _ => fun _ hn => List.mem_cons_of_mem _ (laysAll_callIds hbody hn)

theorem laysAll_callIds : ∀ {ss : List WdlStep} {bs : List Block}, LaysAll eval ss bs →
    callIds (itemsAll ss) ⊆ namesAll bs
  | _, _, .nil => List.Subset.refl _
  | _, _, .cons h hs => by
    intro n hn
    rw [callIds_itemsAll_cons] at hn
    rw [namesAll_cons]
    rcases List.mem_append.mp hn with hn | hn
    · exact List.mem_append_left _ (lays_callIds h hn)
    · exact List.mem_append_right _ (laysAll_callIds hs hn)

end

end execution

def compiledIr (eval : LiteralEval) (w : WdlWorkflow) : Option FlowIr :=
  (compileWorkflow eval w).toOption.bind (fun f => (buildFlowIr f).toOption)

def invokedSteps {W : Type} (E : Calls W) (ir : FlowIr) (inputs : Fields) (world : W) :
    Option (List Str) :=
  match runWithPythonEngine E ir inputs world with
  | some (.ok run) => some (run.invocations.map Invocation.step)
  | _ => none

theorem toOption_eq_some {α : Type} {x : Except Str α} {a : α} (h : x.toOption = some a) :
    x = .ok a := by
  cases x with
  | error e => cases h
  | ok b =>
    cases h
    rfl

theorem compiledIr_eq_some {eval : LiteralEval} {w : WdlWorkflow} {ir : FlowIr}
    (h : compiledIr eval w = some ir) :
    ∃ f, compileWorkflow eval w = .ok f ∧ buildFlowIr f = .ok ir := by
  obtain ⟨f, hf, hir⟩ := Option.bind_eq_some_iff.mp h
  exact ⟨f, toOption_eq_some hf, toOption_eq_some hir⟩

end TraceMind.Dsl
