import TraceMind.Dsl.Plan

namespace TraceMind.Dsl

def plainNames : List Item → ℕ → List Str
  | [], _ => []
  | .call id :: is, n => id :: plainNames is n
  | .when :: is, n => whenName n :: plainNames is (n + 1)

theorem plainNames_length (is : List Item) (n : ℕ) : (plainNames is n).length = is.length := by
  induction is generalizing n with
  | nil => rfl
  | cons i is ih =>
    cases i with
    | call id => exact congrArg Nat.succ (ih n)
    | when => exact congrArg Nat.succ (ih (n + 1))

theorem whenCount_append (is js : List Item) :
    whenCount (is ++ js) = whenCount is + whenCount js := List.countP_append

theorem whenCount_cons_when (is : List Item) : whenCount (.when :: is) = whenCount is + 1 :=
  List.countP_cons_of_pos rfl

theorem whenCount_cons_call (id : Str) (is : List Item) :
    whenCount (.call id :: is) = whenCount is :=
  List.countP_cons_of_neg (by simp)

theorem plainNames_append (is js : List Item) (n : ℕ) :
    plainNames (is ++ js) n = plainNames is n ++ plainNames js (n + whenCount is) := by
  induction is generalizing n with
  | nil => rfl
  | cons i is ih =>
    cases i with
    | call id =>
      rw [List.cons_append, plainNames, ih, plainNames, whenCount_cons_call]
      rfl
    | when =>
      rw [List.cons_append, plainNames, ih, plainNames, whenCount_cons_when,
        show n + 1 + whenCount is = n + (whenCount is + 1) by omega]
      rfl

theorem plainNames_perm (is : List Item) (n : ℕ) :
    List.Perm (plainNames is n)
      (callIds is ++ (List.range' n (whenCount is)).map whenName) := by
  induction is generalizing n with
  | nil => exact List.Perm.refl _
  | cons i is ih =>
    cases i with
    | call id =>
      rw [plainNames, whenCount_cons_call]
      exact (ih n).cons id
    | when =>
      rw [plainNames, whenCount_cons_when, List.range'_succ, List.map_cons]
      exact ((ih (n + 1)).cons _).trans List.perm_middle.symm

theorem plainNames_nodup_iff (is : List Item) :
    (plainNames is 0).Nodup ↔
      (callIds is).Nodup ∧ ∀ k < whenCount is, whenName k ∉ callIds is := by
  rw [(plainNames_perm is 0).nodup_iff, List.nodup_append]
  have hnames : ((List.range' 0 (whenCount is)).map whenName).Nodup :=
    (List.nodup_map_iff (fun a b h => whenName_inj.mp h)).mpr List.nodup_range'
  constructor
  · rintro ⟨hcalls, -, hdisj⟩
    refine ⟨hcalls, fun k hk hm => hdisj _ hm _ (List.mem_map.mpr ⟨k, ?_, rfl⟩) rfl⟩
    exact List.mem_range'_1.mpr ⟨Nat.zero_le k, by omega⟩
  · rintro ⟨hcalls, hfree⟩
    refine ⟨hcalls, hnames, fun a ha b hb hab => ?_⟩
    obtain ⟨k, hk, rfl⟩ := List.mem_map.mp hb
    exact hfree k (by have := (List.mem_range'_1.mp hk).2; omega) (hab ▸ ha)

theorem firstFree_of_free {ids : List Str} {p : Str} {fuel n : ℕ} (h : candidate p n ∉ ids) :
    firstFree ids p fuel n = n := by
  obtain ⟨hle, hall, -⟩ := firstFree_spec ids p fuel n
  by_contra hne
  exact h (hall n (le_refl n) (by omega))

theorem allocate_plain (is : List Item) : ∀ {ids : List Str} {n : ℕ} {st : List Str × ℕ},
    (ids ++ plainNames is n).Nodup → allocate is (ids, n) = some st →
    st.1 = ids ++ plainNames is n := by
  induction is with
  | nil =>
    intro ids n st _ h
    cases h
    exact (List.append_nil ids).symm
  | cons i is ih =>
    intro ids n st hd h
    cases i with
    | call id =>
      rw [allocate] at h
      split_ifs at h
      rw [plainNames, List.append_cons] at hd ⊢
      exact ih hd h
    | when =>
      rw [allocate] at h
      have hfree : whenName n ∉ ids := fun hm =>
        (List.nodup_append.mp hd).2.2 _ hm _ List.mem_cons_self rfl
      rw [firstFree_of_free hfree] at h
      rw [plainNames, List.append_cons] at hd ⊢
      exact ih hd h

section compiled

variable {eval : LiteralEval}

theorem addOutputsStep_ids {w : WdlWorkflow} {b : Builder} {r : Str × Builder}
    (h : addOutputsStep w b = .ok r) : r.2.ids = b.ids ++ [r.1] := by
  obtain ⟨rendered, -, h⟩ := Fallible.bind_eq_ok.mp h
  obtain ⟨b₁, hadd, h⟩ := Fallible.bind_eq_ok.mp h
  cases h
  exact congrArg Prod.fst (addStep_names hadd)

theorem addFinishStep_ids {w : WdlWorkflow} {b : Builder} {r : Str × Builder}
    (h : addFinishStep w b = .ok r) : r.2.ids = b.ids ++ [r.1] := by
  obtain ⟨b₁, hadd, h⟩ := Fallible.bind_eq_ok.mp h
  cases h
  exact congrArg Prod.fst (addStep_names hadd)

theorem compileWorkflow_names {w : WdlWorkflow} {f : FlowCompilation}
    (h : compileWorkflow eval w = .ok f) :
    ∃ st emit finish, allocate (itemsAll w.steps) ([], 0) = some st ∧
      f.steps.map FlowStep.id = st.1 ++ [emit, finish] := by
  rw [compileWorkflow] at h
  split_ifs at h
  obtain ⟨main, hmain, h⟩ := Fallible.bind_eq_ok.mp h
  obtain ⟨outputs, houtputs, h⟩ := Fallible.bind_eq_ok.mp h
  obtain ⟨fin, hfinish, h⟩ := Fallible.bind_eq_ok.mp h
  cases h
  obtain ⟨q, hq, hmain⟩ := Fallible.bind_eq_ok.mp hmain
  obtain ⟨g, -, hmain⟩ := Fallible.bind_eq_ok.mp hmain
  cases hmain
  obtain ⟨-, hall⟩ := compileLoop_ok_iff w.steps none [] |>.mp ⟨q, hq, rfl⟩
  have hlinked : ∀ (x : List ExitEdge) (t : Str) (b : Builder), (b.linkSegments x t).ids = b.ids :=
    fun x t b => congrArg Prod.fst (linkSegments_frame x t b)
  refine ⟨_, outputs.1, fin.1, hall, ?_⟩
  calc (fin.2.linkSegments [⟨outputs.1, none⟩] fin.1).ids
      = fin.2.ids := hlinked _ _ _
    _ = (outputs.2.linkSegments g.exits outputs.1).ids ++ [fin.1] := addFinishStep_ids hfinish
    _ = q.2.2.ids ++ [outputs.1] ++ [fin.1] := by rw [hlinked, addOutputsStep_ids houtputs]
    _ = q.2.2.ids ++ [outputs.1, fin.1] := List.append_assoc _ _ _

theorem LaidOut.names_plain {w : WdlWorkflow} {f : FlowCompilation} {bs : List Block}
    {emit finish : Str} (h : compileWorkflow eval w = .ok f) (hf : LaidOut f bs emit finish)
    (hd : (plainNames (itemsAll w.steps) 0).Nodup) :
    namesAll bs = plainNames (itemsAll w.steps) 0 := by
  obtain ⟨st, x, y, hall, hids⟩ := compileWorkflow_names h
  have hst := allocate_plain (itemsAll w.steps) hd hall
  have htags : f.steps.map FlowStep.id = namesAll bs ++ [emit, finish] := by
    have hmap := congrArg (List.map Prod.fst) hf.steps
    rw [List.map_map, List.map_append] at hmap
    exact hmap
  rw [htags] at hids
  exact (List.append_inj' hids rfl).1.trans hst

end compiled

namespace Planner

theorem pop_nodes (p : Planner) (src : Str) : (p.pop src).nodes = p.nodes := by
  rw [pop]
  cases p.truePending src <;> rfl

theorem foldl_connectOne_nodes (target : Str) (sources : List Str) (p : Planner) :
    (sources.foldl (connectOne target) p).nodes = p.nodes := by
  induction sources generalizing p with
  | nil => rfl
  | cons src sources ih => exact (ih _).trans (pop_nodes p src)

theorem connect_nodes (p : Planner) (sources : List Str) (target : Str) :
    (p.connect sources target).nodes = p.nodes := by
  rw [connect]
  split_ifs
  · rfl
  · exact foldl_connectOne_nodes target sources p

theorem pop_whenCounter (p : Planner) (src : Str) : (p.pop src).whenCounter = p.whenCounter := by
  rw [pop]
  cases p.truePending src <;> rfl

theorem connect_whenCounter (p : Planner) (sources : List Str) (target : Str) :
    (p.connect sources target).whenCounter = p.whenCounter := by
  rw [connect]
  split_ifs
  · rfl
  · induction sources generalizing p with
    | nil => rfl
    | cons src sources ih =>
      rw [List.foldl_cons]
      by_cases hs : sources.isEmpty = true
      · rw [List.isEmpty_iff.mp hs]
        exact pop_whenCounter p src
      · exact (ih _ hs).trans (pop_whenCounter p src)

structure Grows (p : Planner) (names : List Str) (p' : Planner) : Prop where
  nodup : p.ids.Nodup → p'.ids.Nodup
  ids : ∀ id ∈ p'.ids, id ∈ p.ids ∨ id ∈ names

theorem Grows.refl (p : Planner) : Grows p [] p := ⟨id, fun _ h => Or.inl h⟩

theorem Grows.trans {p p' p'' : Planner} {names names' : List Str} (h : Grows p names p')
    (h' : Grows p' names' p'') : Grows p (names ++ names') p'' := by
  refine ⟨fun hd => h'.nodup (h.nodup hd), fun id hid => ?_⟩
  rw [List.mem_append]
  rcases h'.ids id hid with hold | hnew
  · rcases h.ids id hold with hold | hnew
    · exact Or.inl hold
    · exact Or.inr (Or.inl hnew)
  · exact Or.inr (Or.inr hnew)

theorem Grows.nodes {p p' p'' : Planner} {names : List Str} (h : Grows p names p')
    (hn : p''.nodes = p'.nodes) : Grows p names p'' := by
  have hids : p''.ids = p'.ids := congrArg (List.map PlanNode.id) hn
  exact ⟨fun hd => hids ▸ h.nodup hd, fun id hid => h.ids id (hids ▸ hid)⟩

theorem setNode_grows (p : Planner) (n : PlanNode) : Grows p [n.id] (p.setNode n) := by
  rw [setNode]
  split_ifs with h
  · exact ⟨id, fun _ hid => Or.inl hid⟩
  · have hids : ({ p with nodes := p.nodes ++ [n] } : Planner).ids = p.ids ++ [n.id] :=
      List.map_append
    refine ⟨fun hd => ?_, fun id hid => List.mem_append.mp (hids ▸ hid)⟩
    rw [hids]
    exact List.nodup_append.mpr ⟨hd, List.nodup_singleton _, fun a ha b hb hab =>
      h (List.mem_singleton.mp hb ▸ hab ▸ ha)⟩

theorem processCall_grows (id target : Str) (location : SourceSpan) (exits : List Str)
    (p : Planner) : Grows p [id] (p.processCall id target location exits).2 :=
  (setNode_grows p ⟨id, .call, id, some target, location⟩).nodes (connect_nodes _ _ _)

theorem openWhen_nodes (id condition : Str) (location : SourceSpan) (exits : List Str)
    (p : Planner) : (p.openWhen id condition location exits).nodes =
      (p.setNode ⟨id, .condition, strip condition, none, location⟩).nodes := by
  rw [openWhen]
  split_ifs <;> exact connect_nodes _ _ _

theorem openWhen_whenCounter (id condition : Str) (location : SourceSpan) (exits : List Str)
    (p : Planner) : (p.openWhen id condition location exits).whenCounter = p.whenCounter := by
  have hset : (p.setNode ⟨id, .condition, strip condition, none, location⟩).whenCounter =
      p.whenCounter := by
    rw [setNode]
    split_ifs <;> rfl
  rw [openWhen]
  split_ifs <;> exact (connect_whenCounter _ _ _).trans hset

theorem processCall_whenCounter (id target : Str) (location : SourceSpan) (exits : List Str)
    (p : Planner) : (p.processCall id target location exits).2.whenCounter = p.whenCounter := by
  refine (connect_whenCounter _ _ _).trans ?_
  rw [setNode]
  split_ifs <;> rfl

end Planner

mutual

theorem processStep_grows : ∀ (s : WdlStep) (exits : List Str) (p : Planner),
    (processStep s exits p).2.whenCounter = p.whenCounter + whenCount (itemsOf s) ∧
      p.Grows (plainNames (itemsOf s) p.whenCounter) (processStep s exits p).2
  | .call id target args location, exits, p => by
    rw [processStep, itemsOf]
    exact ⟨p.processCall_whenCounter id target location exits,
      p.processCall_grows id target location exits⟩
  | .when condition steps location, exits, p => by
    rw [processStep, itemsOf, whenCount_cons_when, plainNames]
    have hopen := p.nextConditionId.2.openWhen_nodes p.nextConditionId.1 condition location exits
    have hcount := p.nextConditionId.2.openWhen_whenCounter p.nextConditionId.1 condition location
      exits
    have hbody := processSequence_grows steps [p.nextConditionId.1]
      (p.nextConditionId.2.openWhen p.nextConditionId.1 condition location exits)
    have hnext : p.Grows [] p.nextConditionId.2 := (Planner.Grows.refl p).nodes rfl
    have hfirst := hnext.trans ((p.nextConditionId.2.setNode_grows _).nodes hopen)
    rw [hcount] at hbody
    refine ⟨?_, (hfirst.trans hbody.2).nodes rfl⟩
    refine hbody.1.trans ?_
    show p.whenCounter + 1 + _ = _
    omega

theorem processSequence_grows : ∀ (ss : List WdlStep) (exits : List Str) (p : Planner),
    (processSequence ss exits p).2.whenCounter = p.whenCounter + whenCount (itemsAll ss) ∧
      p.Grows (plainNames (itemsAll ss) p.whenCounter) (processSequence ss exits p).2
  | [], exits, p => ⟨rfl, .refl p⟩
  | s :: ss, exits, p => by
    rw [processSequence, itemsAll, whenCount_append, plainNames_append]
    have hstep := processStep_grows s exits p
    have hrest := processSequence_grows ss (processStep s exits p).1 (processStep s exits p).2
    rw [hstep.1] at hrest
    exact ⟨by rw [hrest.1]; omega, hstep.2.trans hrest.2⟩

end

theorem plan_ids_nodup (w : WdlWorkflow) :
    ((buildWorkflowPlan w).nodes.map PlanNode.id).Nodup :=
  (processSequence_grows w.steps [] {}).2.nodup List.nodup_nil

theorem plan_ids_plain (w : WdlWorkflow) :
    (buildWorkflowPlan w).nodes.map PlanNode.id ⊆ plainNames (itemsAll w.steps) 0 :=
  fun id hid => ((processSequence_grows w.steps [] {}).2.ids id hid).resolve_left (by
    intro h
    cases h)

section traversal

def FlowEdge.plan (e : FlowEdge) : PlanEdge := ⟨e.src, e.dst, e.label⟩

def Shape.userNode : Shape → Option UserNode
  | .call target => some (.call target)
  | .switch _ => some .condition
  | .emit => none
  | .finish => none

def userTag (t : Str × Shape) : Option (Str × UserNode) := t.2.userNode.map (fun k => (t.1, k))

def Planner.tags (p : Planner) : List (Str × UserNode) := p.nodes.map (fun n => (n.id, n.userNode))

def srcs (exits : List ExitEdge) : List Str := exits.map ExitEdge.src

structure Planned (p : Planner) (used : List ExitEdge) (names : List Str)
    (tags : List (Str × UserNode)) (edges : List FlowEdge) (p' : Planner) : Prop where
  nodes : p'.tags = p.tags ++ tags
  added : p'.edges = p.edges ++ edges.map FlowEdge.plan
  entry : p'.entry = p.entry.orElse (fun _ => tags.head?.map Prod.fst)
  truePending : ∀ id, id ∉ srcs used → id ∉ names → p'.truePending id = p.truePending id
  falsePending : ∀ id, id ∉ names → (id ∈ srcs used → (p.truePending id).isSome = true) →
    p'.falsePending id = p.falsePending id

variable {p p' p'' : Planner}

theorem Planned.refl (p : Planner) (used : List ExitEdge) : Planned p used [] [] [] p where
  nodes := (List.append_nil _).symm
  added := (List.append_nil _).symm
  entry := by cases p.entry <;> rfl
  truePending _ _ _ := rfl
  falsePending _ _ _ := rfl

theorem Planned.trans {used used' : List ExitEdge} {names names' : List Str}
    {tags tags' : List (Str × UserNode)} {edges edges' : List FlowEdge}
    (h : Planned p used names tags edges p') (h' : Planned p' used' names' tags' edges' p'')
    (hused : ∀ e ∈ used', e.src ∈ names) :
    Planned p used (names ++ names') (tags ++ tags') (edges ++ edges') p'' := by
  have hout : ∀ id, id ∉ names → id ∉ srcs used' := by
    intro id hid hm
    obtain ⟨e, he, rfl⟩ := List.mem_map.mp hm
    exact hid (hused e he)
  refine ⟨?_, ?_, ?_, fun id hid hn => ?_, fun id hn hid => ?_⟩
  · rw [h'.nodes, h.nodes, List.append_assoc]
  · rw [h'.added, h.added, List.map_append, List.append_assoc]
  · rw [h'.entry, h.entry]
    cases p.entry <;> cases tags <;> rfl
  · rw [List.mem_append, not_or] at hn
    rw [h'.truePending id (hout id hn.1) hn.2, h.truePending id hid hn.1]
  · rw [List.mem_append, not_or] at hn
    rw [h'.falsePending id hn.2 (fun hm => absurd hm (hout id hn.1)), h.falsePending id hn.1 hid]

theorem pop_truePending {src id : Str} (h : id ≠ src) :
    (p.pop src).truePending id = p.truePending id := by
  rw [Planner.pop]
  cases p.truePending src with
  | some label => exact Function.update_of_ne h _ _
  | none => rfl

theorem pop_falsePending {src id : Str} (h : id = src → (p.truePending id).isSome = true) :
    (p.pop src).falsePending id = p.falsePending id := by
  rw [Planner.pop]
  cases ht : p.truePending src with
  | some label => rfl
  | none =>
    refine Function.update_of_ne (fun he => ?_) _ _
    have hsome := h he
    rw [he, ht] at hsome
    cases hsome

theorem pop_entry (p : Planner) (src : Str) : (p.pop src).entry = p.entry := by
  rw [Planner.pop]
  cases p.truePending src <;> rfl

theorem foldl_connectOne_planned (target : Str) (exits : List ExitEdge) : ∀ {p : Planner},
    (srcs exits).Nodup → (∀ e ∈ exits, p.pending e.src = e.label) →
    Planned p exits [] [] (links exits target)
      ((srcs exits).foldl (Planner.connectOne target) p) := by
  induction exits with
  | nil => exact fun _ _ => Planned.refl _ []
  | cons e exits ih =>
    intro p hd hlabels
    obtain ⟨hne, hd⟩ := List.nodup_cons.mp hd
    have htrue : ∀ id, id ≠ e.src →
        (p.connectOne target e.src).truePending id = p.truePending id :=
      fun id hid => pop_truePending hid
    have hfalse : ∀ id, (id = e.src → (p.truePending id).isSome = true) →
        (p.connectOne target e.src).falsePending id = p.falsePending id :=
      fun id hid => pop_falsePending hid
    have hrest := ih (p := p.connectOne target e.src) hd (fun x hx => by
      have hxe : x.src ≠ e.src := fun h => hne (h ▸ List.mem_map_of_mem hx)
      rw [Planner.pending, htrue _ hxe, hfalse _ (fun h => absurd h hxe)]
      exact hlabels x (List.mem_cons_of_mem _ hx))
    have hcons : ∀ id, id ∉ srcs (e :: exits) → id ≠ e.src ∧ id ∉ srcs exits :=
      fun id hid => not_or.mp (fun h => hid (List.mem_cons.mpr h))
    refine ⟨?_, ?_, ?_, fun id hid hn => ?_, fun id hn hid => ?_⟩
    · refine hrest.nodes.trans ?_
      rw [List.append_nil, List.append_nil, Planner.tags, Planner.tags]
      exact congrArg _ (p.pop_nodes e.src)
    · refine hrest.added.trans ?_
      have hfirst : (p.connectOne target e.src).edges =
          p.edges ++ [(⟨e.src, target, e.label⟩ : PlanEdge)] := by
        rw [Planner.connectOne, hlabels e List.mem_cons_self]
      rw [hfirst, List.append_assoc]
      rfl
    · refine hrest.entry.trans ?_
      rw [show (p.connectOne target e.src).entry = p.entry from pop_entry p e.src]
    · obtain ⟨h1, h2⟩ := hcons id hid
      exact (hrest.truePending id h2 hn).trans (htrue id h1)
    · have hfirst := hfalse id (fun he => hid (List.mem_cons.mpr (Or.inl he)))
      refine (hrest.falsePending id hn (fun hm => ?_)).trans hfirst
      have hie : id ≠ e.src := fun he => hne (he ▸ hm)
      rw [htrue id hie]
      exact hid (List.mem_cons_of_mem _ hm)

theorem Planned.weaken {used : List ExitEdge} {names names' : List Str}
    {tags : List (Str × UserNode)} {edges : List FlowEdge} (h : Planned p used names tags edges p')
    (hsub : names ⊆ names') : Planned p used names' tags edges p' :=
  ⟨h.nodes, h.added, h.entry, fun id hid hn => h.truePending id hid (fun hm => hn (hsub hm)),
    fun id hn hid => h.falsePending id (fun hm => hn (hsub hm)) hid⟩

structure Ready (p : Planner) (exits : List ExitEdge) (names : List Str) : Prop where
  nodup : (srcs exits ++ names).Nodup
  fresh : ∀ id ∈ names, id ∉ p.ids ∧ p.truePending id = none ∧ p.falsePending id = none
  labels : ∀ e ∈ exits, p.pending e.src = e.label
  entry : exits ≠ [] → p.entry.isSome = true

theorem Ready.head {exits : List ExitEdge} {names names' : List Str}
    (h : Ready p exits (names ++ names')) : Ready p exits names := by
  refine ⟨?_, fun id hid => h.fresh id (List.mem_append_left _ hid), h.labels, h.entry⟩
  have hd := h.nodup
  rw [← List.append_assoc] at hd
  exact (List.nodup_append.mp hd).1

theorem setEntry_of_isSome {id : Str} (h : p.entry.isSome = true) : p.setEntry id = p := by
  obtain ⟨e, he⟩ := Option.isSome_iff_exists.mp h
  rw [Planner.setEntry, he]
  show { p with entry := some e } = p
  rw [← he]

theorem setEntry_twice (p : Planner) (id : Str) : (p.setEntry id).setEntry id = p.setEntry id :=
  setEntry_of_isSome (by rw [Planner.setEntry]; cases p.entry <;> rfl)

theorem setNode_pending (p : Planner) (n : PlanNode) (id : Str) :
    (p.setNode n).pending id = p.pending id := by
  rw [Planner.setNode]
  split_ifs <;> rfl

theorem connect_isSome {sources : List Str} (target : Str) (h : p.entry.isSome = true) :
    (p.connect sources target).entry.isSome = true := by
  rw [Planner.connect]
  split_ifs
  · rw [setEntry_of_isSome h]
    exact h
  · induction sources generalizing p with
    | nil => exact h
    | cons src sources ih =>
      rw [List.foldl_cons]
      have hnext : (p.connectOne target src).entry.isSome = true := by
        rw [show (p.connectOne target src).entry = p.entry from pop_entry p src]
        exact h
      cases sources with
      | nil => exact hnext
      | cons src' sources => exact ih hnext (by simp)

theorem enter_planned {exits : List ExitEdge} {n : PlanNode} (h : Ready p exits [n.id]) :
    Planned p exits [] [(n.id, n.userNode)] (links exits n.id)
      (((p.setNode n).connect (srcs exits) n.id).setEntry n.id) := by
  have hnode : p.setNode n = { p with nodes := p.nodes ++ [n] } :=
    if_neg (h.fresh n.id List.mem_cons_self).1
  cases exits with
  | nil =>
    have hsame : ((p.setNode n).connect (srcs []) n.id).setEntry n.id =
        (p.setNode n).setEntry n.id := setEntry_twice _ _
    rw [hsame, hnode]
    exact ⟨List.map_append, (List.append_nil _).symm, rfl, fun _ _ _ => rfl, fun _ _ _ => rfl⟩
  | cons e exits =>
    obtain ⟨first, hfirst⟩ := Option.isSome_iff_exists.mp (h.entry (List.cons_ne_nil _ _))
    have hlinks := foldl_connectOne_planned n.id (e :: exits) (p := p.setNode n)
      (List.nodup_append.mp h.nodup).1
      (fun x hx => (setNode_pending p n x.src).trans (h.labels x hx))
    have hset : (p.setNode n).entry.isSome = true := by
      rw [hnode]
      exact Option.isSome_iff_exists.mpr ⟨first, hfirst⟩
    rw [setEntry_of_isSome (connect_isSome n.id hset)]
    rw [hnode] at hlinks ⊢
    refine ⟨?_, hlinks.added, ?_, hlinks.truePending, hlinks.falsePending⟩
    · refine hlinks.nodes.trans ?_
      rw [List.append_nil]
      exact List.map_append
    · refine hlinks.entry.trans ?_
      show p.entry.orElse _ = _
      rw [hfirst]
      rfl

theorem openWhen_planned {exits : List ExitEdge} {id : Str} (condition : Str)
    (location : SourceSpan) (h : Ready p exits [id]) :
    Planned p exits [id] [(id, .condition)] (links exits id)
      (p.openWhen id condition location (srcs exits)) := by
  have henter := enter_planned (n := ⟨id, .condition, strip condition, none, location⟩) h
  have hopen : p.openWhen id condition location (srcs exits) =
      (((((p.setNode ⟨id, .condition, strip condition, none, location⟩).connect (srcs exits)
        id).setEntry id).setTrue id (some (trueLabel (strip condition)))).setFalse id
          (some (falseLabel (strip condition)))) := by
    cases exits with
    | nil => rfl
    | cons e exits =>
      have hset : (p.setNode ⟨id, .condition, strip condition, none, location⟩).entry.isSome =
          true := by
        rw [Planner.setNode]
        split_ifs <;> exact h.entry (List.cons_ne_nil _ _)
      rw [setEntry_of_isSome (connect_isSome id hset)]
      rfl
  rw [hopen]
  refine ⟨henter.nodes, henter.added, henter.entry, fun x hx hn => ?_, fun x hn hx => ?_⟩
  · refine Eq.trans ?_ (henter.truePending x hx (fun hm => by cases hm))
    exact Function.update_of_ne (fun he => hn (List.mem_singleton.mpr he)) _ _
  · refine Eq.trans ?_ (henter.falsePending x (fun hm => by cases hm) hx)
    exact Function.update_of_ne (fun he => hn (List.mem_singleton.mpr he)) _ _

mutual

theorem userTags_names : ∀ b : Block, ((tagsOf b).filterMap userTag).map Prod.fst = namesOf b
  | .call _ _ => rfl
  | .when id _ _ body => congrArg (List.cons id) (userTagsAll_names body)

theorem userTagsAll_names : ∀ bs : List Block,
    ((tagsAll bs).filterMap userTag).map Prod.fst = namesAll bs
  | [] => rfl
  | b :: bs => by
    rw [tagsAll, List.filterMap_append, List.map_append, userTags_names b, userTagsAll_names bs,
      namesAll_cons]

end

mutual

theorem Lays.length {eval : LiteralEval} : ∀ {s : WdlStep} {b : Block}, Lays eval s b →
    (namesOf b).length = (itemsOf s).length
  | _, _, .call _ _ _ _ => rfl
  | _, _, .when _ _ hbody _ => congrArg Nat.succ hbody.length

theorem LaysAll.length {eval : LiteralEval} : ∀ {ss : List WdlStep} {bs : List Block},
    LaysAll eval ss bs → (namesAll bs).length = (itemsAll ss).length
  | _, _, .nil => rfl
  | _, _, .cons h hs => by
    rw [namesAll_cons, itemsAll, List.length_append, List.length_append, h.length, hs.length]

end

structure Walked (p : Planner) (used : List ExitEdge) (names : List Str)
    (tags : List (Str × UserNode)) (edges : List FlowEdge) (exits : List ExitEdge)
    (r : List Str × Planner) : Prop where
  out : r.1 = srcs exits
  nodup : (srcs exits).Nodup
  planned : Planned p used names tags edges r.2
  labels : ∀ e ∈ exits, r.2.pending e.src = e.label

theorem Planner.ids_tags (p : Planner) : p.tags.map Prod.fst = p.ids := by
  rw [Planner.tags, List.map_map]
  rfl

theorem Planned.ids {used : List ExitEdge} {names : List Str} {tags : List (Str × UserNode)}
    {edges : List FlowEdge} (h : Planned p used names tags edges p') :
    p'.ids = p.ids ++ tags.map Prod.fst := by
  rw [← Planner.ids_tags, h.nodes, List.map_append, Planner.ids_tags]

theorem planExitsAll_names {bs : List Block} (exits : List ExitEdge) (hne : bs ≠ []) :
    ∀ e ∈ planExitsAll exits bs, e.src ∈ namesAll bs := by
  intro e he
  cases bs with
  | nil => exact absurd rfl hne
  | cons b bs =>
    rw [planExitsAll] at he
    rw [namesAll_cons, List.mem_append]
    rcases planExitsAll_src _ bs e he with h | h
    · exact Or.inl (planExitsOf_src b e h)
    · exact Or.inr h

theorem Ready.fresh_after {used : List ExitEdge} {names names' : List Str}
    {tags : List (Str × UserNode)} {edges : List FlowEdge} (hr : Ready p used (names ++ names'))
    (h : Planned p used names tags edges p') (htags : tags.map Prod.fst = names) :
    ∀ id ∈ names', id ∉ p'.ids ∧ p'.truePending id = none ∧ p'.falsePending id = none := by
  intro id hid
  obtain ⟨-, hnames, hused⟩ := List.nodup_append.mp hr.nodup
  obtain ⟨-, -, hdisj⟩ := List.nodup_append.mp hnames
  obtain ⟨hold, htrue, hfalse⟩ := hr.fresh id (List.mem_append_right _ hid)
  have hn : id ∉ names := fun hm => hdisj _ hm _ hid rfl
  have hx : id ∉ srcs used := fun hm => hused _ hm _ (List.mem_append_right _ hid) rfl
  refine ⟨?_, (h.truePending id hx hn).trans htrue,
    (h.falsePending id hn (fun hm => absurd hm hx)).trans hfalse⟩
  rw [h.ids, htags, List.mem_append]
  exact not_or.mpr ⟨hold, hn⟩

theorem Walked.ready {b : Block} {names : List Str} {used : List ExitEdge}
    {r : List Str × Planner} {edges : List FlowEdge} (hr : Ready p used (namesOf b ++ names))
    (h : Walked p used (namesOf b) ((tagsOf b).filterMap userTag) edges (planExitsOf b) r) :
    Ready r.2 (planExitsOf b) names := by
  obtain ⟨-, hnames, -⟩ := List.nodup_append.mp hr.nodup
  obtain ⟨-, hrest, hdisj⟩ := List.nodup_append.mp hnames
  refine ⟨List.nodup_append.mpr ⟨h.nodup, hrest, fun x hx y hy hxy => ?_⟩,
    hr.fresh_after h.planned (userTags_names b), h.labels, fun _ => ?_⟩
  · obtain ⟨e, he, rfl⟩ := List.mem_map.mp hx
    exact hdisj _ (planExitsOf_src b e he) _ hy hxy
  · rw [h.planned.entry]
    cases p.entry <;> cases b <;> rfl

theorem openWhen_truePending (p : Planner) (id condition : Str) (location : SourceSpan)
    (exits : List Str) : (p.openWhen id condition location exits).truePending id =
      some (trueLabel (strip condition)) := Function.update_self ..

theorem openWhen_falsePending (p : Planner) (id condition : Str) (location : SourceSpan)
    (exits : List Str) : (p.openWhen id condition location exits).falsePending id =
      some (falseLabel (strip condition)) := Function.update_self ..

theorem Ready.openWhen {used : List ExitEdge} {id : Str} {names : List Str} (condition : Str)
    (location : SourceSpan) (hr : Ready p used ([id] ++ names)) :
    Ready (p.openWhen id condition location (srcs used))
      [⟨id, some (trueLabel (strip condition))⟩] names := by
  have hopen := openWhen_planned condition location hr.head
  refine ⟨(List.nodup_append.mp hr.nodup).2.1, hr.fresh_after hopen rfl, fun e he => ?_,
    fun _ => ?_⟩
  · rw [List.mem_singleton.mp he, Planner.pending, openWhen_truePending]
    rfl
  · rw [hopen.entry]
    cases p.entry <;> rfl

theorem Walked.closeWhen {used exits : List ExitEdge} {id condition : Str} {location : SourceSpan}
    {names : List Str} {tags : List (Str × UserNode)} {edges : List FlowEdge}
    {r : List Str × Planner} (hr : Ready p used ([id] ++ names))
    (h : Walked (p.openWhen id condition location (srcs used))
      [⟨id, some (trueLabel (strip condition))⟩] names tags edges exits r)
    (hexits : ∀ e ∈ exits, e.src ∈ names) :
    Walked p used (id :: names) ((id, .condition) :: tags) (links used id ++ edges)
      (⟨id, some (falseLabel (strip condition))⟩ :: exits) (id :: r.1, r.2.setTrue id none) := by
  have hid : id ∉ names := (List.nodup_cons.mp (List.nodup_append.mp hr.nodup).2.1).1
  have hne : ∀ e ∈ exits, e.src ≠ id := fun e he hei => hid (hei ▸ hexits e he)
  have hall := (openWhen_planned condition location hr.head).trans h.planned (fun e he => by
    rw [List.mem_singleton.mp he]
    exact List.mem_cons_self)
  have hfalse : r.2.falsePending id = some (falseLabel (strip condition)) := by
    rw [h.planned.falsePending id hid (fun _ => by rw [openWhen_truePending]; rfl),
      openWhen_falsePending]
  refine ⟨congrArg (List.cons id) h.out, List.nodup_cons.mpr ⟨fun hm => ?_, h.nodup⟩,
    ⟨hall.nodes, hall.added, hall.entry, fun x hx hn => ?_, hall.falsePending⟩, fun e he => ?_⟩
  · obtain ⟨e, he, hei⟩ := List.mem_map.mp hm
    exact hne e he hei
  · refine Eq.trans ?_ (hall.truePending x hx hn)
    exact Function.update_of_ne (fun he => hn (List.mem_cons.mpr (Or.inl he))) _ _
  · rcases List.mem_cons.mp he with rfl | he
    · rw [Planner.pending, show (r.2.setTrue id none).truePending id = none from
        Function.update_self .., Option.none_or]
      exact hfalse
    · rw [Planner.pending, show (r.2.setTrue id none).truePending e.src = r.2.truePending e.src from
        Function.update_of_ne (hne e he) _ _]
      exact h.labels e he

mutual

theorem processStep_spec {eval : LiteralEval} : ∀ (s : WdlStep) {b : Block} {used : List ExitEdge}
    {p : Planner}, Lays eval s b → namesOf b = plainNames (itemsOf s) p.whenCounter →
    Ready p used (namesOf b) →
    Walked p used (namesOf b) ((tagsOf b).filterMap userTag) (links used b.id ++ planEdgesOf b)
      (planExitsOf b) (processStep s (srcs used) p)
  | .call id target args location, b, used, p => by
    intro hl _ hr
    cases hl with
    | call =>
      have henter := enter_planned (n := ⟨id, .call, id, some target, location⟩) hr
      refine ⟨rfl, List.nodup_singleton _, ?_, fun e he => ?_⟩
      · rw [planEdgesOf, List.append_nil]
        exact henter.weaken (List.nil_subset _)
      · obtain ⟨hd, htrue, hfalse⟩ := hr.fresh id List.mem_cons_self
        have hx : id ∉ srcs used := fun hm =>
          (List.nodup_append.mp hr.nodup).2.2 _ hm _ List.mem_cons_self rfl
        have hnone : (processStep (.call id target args location) (srcs used) p).2.truePending id =
            none := (henter.truePending id hx (fun hm => by cases hm)).trans htrue
        have hnone' : (processStep (.call id target args location) (srcs used) p).2.falsePending
            id = none :=
          (henter.falsePending id (fun hm => by cases hm) (fun hm => absurd hm hx)).trans hfalse
        rw [planExitsOf, List.mem_singleton] at he
        rw [he, Planner.pending, hnone, hnone']
        rfl
  | .when condition steps location, b, used, p => by
    intro hl hn hr
    cases hl with
    | @when _ _ _ c body id hc hbody hne =>
      obtain ⟨rfl, hnames⟩ := List.cons.inj hn
      have hq : Ready p.nextConditionId.2 used ([whenName p.whenCounter] ++ namesAll body) :=
        ⟨hr.nodup, hr.fresh, hr.labels, hr.entry⟩
      have hcount := p.nextConditionId.2.openWhen_whenCounter (whenName p.whenCounter) condition
        location (srcs used)
      have hwalk := processSequence_spec steps hbody (by rw [hcount]; exact hnames)
        (hq.openWhen condition location)
      have hbs : body ≠ [] := by
        rintro rfl
        cases hbody
        exact hne rfl
      have hclose := Walked.closeWhen hq hwalk (planExitsAll_names _ hbs)
      rw [processStep]
      exact ⟨hclose.out, hclose.nodup, ⟨hclose.planned.nodes, hclose.planned.added,
        hclose.planned.entry, hclose.planned.truePending, hclose.planned.falsePending⟩,
        hclose.labels⟩

theorem processSequence_spec {eval : LiteralEval} : ∀ (ss : List WdlStep) {bs : List Block}
    {used : List ExitEdge} {p : Planner}, LaysAll eval ss bs →
    namesAll bs = plainNames (itemsAll ss) p.whenCounter → Ready p used (namesAll bs) →
    Walked p used (namesAll bs) ((tagsAll bs).filterMap userTag) (planEdgesAll used bs)
      (planExitsAll used bs) (processSequence ss (srcs used) p)
  | [], bs, used, p => by
    intro hl _ hr
    cases hl
    exact ⟨rfl, (List.nodup_append.mp hr.nodup).1, .refl p used, hr.labels⟩
  | s :: ss, bs, used, p => by
    intro hl hn hr
    cases hl with
    | @cons _ _ b bs h hs =>
      rw [namesAll_cons, itemsAll, plainNames_append] at hn
      obtain ⟨hb, hbs⟩ := List.append_inj hn (by rw [h.length, plainNames_length])
      rw [namesAll_cons] at hr
      have hfirst := processStep_spec s h hb hr.head
      have hrest := processSequence_spec ss (p := (processStep s (srcs used) p).2) hs
        (by rw [(processStep_grows s (srcs used) p).1]; exact hbs) (hfirst.ready hr)
      rw [processSequence, hfirst.out, namesAll_cons, tagsAll, List.filterMap_append, planEdgesAll,
        planExitsAll]
      exact ⟨hrest.out, hrest.nodup,
        hfirst.planned.trans hrest.planned (fun e he => planExitsOf_src b e he), hrest.labels⟩

end

end traversal

end TraceMind.Dsl
