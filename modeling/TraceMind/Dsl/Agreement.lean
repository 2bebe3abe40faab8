import TraceMind.Dsl.PlanSpec

namespace TraceMind.Dsl

mutual

def branchesOf : Block → Str → List (Str × Str × Branch)
  | .call id _, t => [(id, t, .plain)]
  | .when id _ _ body, t => (id, entryOf body t, .yes) :: (id, t, .no) :: branchesAll body t

def branchesAll : List Block → Str → List (Str × Str × Branch)
  | [], _ => []
  | b :: bs, t => branchesOf b (entryOf bs t) ++ branchesAll bs t

end

def planUser (e : FlowEdge) : Str × Str × Branch := (e.src, e.dst, planBranch e.label)

def flowUser (e : FlowEdge) : Str × Str × Branch := (e.src, e.dst, flowBranch e.label)

mutual

theorem planOwnedOf_branches : ∀ (b : Block) (t : Str),
    (planOwnedOf b t).map planUser = branchesOf b t
  | .call _ _, _ => rfl
  | .when id label _ body, t => by
    rw [planOwnedOf, branchesOf, List.map_cons, List.map_cons, planOwnedAll_branches body t]
    rfl

theorem planOwnedAll_branches : ∀ (bs : List Block) (t : Str),
    (planOwnedAll bs t).map planUser = branchesAll bs t
  | [], _ => rfl
  | b :: bs, t => by
    rw [planOwnedAll, branchesAll, List.map_append, planOwnedOf_branches, planOwnedAll_branches]

end

mutual

theorem branchesOf_src : ∀ (b : Block) (t : Str), ∀ x ∈ branchesOf b t, x.1 ∈ namesOf b
  | .call _ _, _ => by simp [branchesOf]
  | .when id _ _ body, t => by
    intro x hx
    rw [branchesOf] at hx
    rw [namesOf_when, List.mem_cons]
    rcases List.mem_cons.mp hx with rfl | hx
    · exact Or.inl rfl
    · rcases List.mem_cons.mp hx with rfl | hx
      · exact Or.inl rfl
      · exact Or.inr (branchesAll_src body t x hx)

theorem branchesAll_src : ∀ (bs : List Block) (t : Str), ∀ x ∈ branchesAll bs t, x.1 ∈ namesAll bs
  | [], _ => fun x hx => by cases hx
  | b :: bs, t => by
    intro x hx
    rw [branchesAll] at hx
    rw [namesAll_cons, List.mem_append]
    rcases List.mem_append.mp hx with hx | hx
    · exact Or.inl (branchesOf_src b _ x hx)
    · exact Or.inr (branchesAll_src bs t x hx)

end

mutual

def plainCases : Block → Bool
  | .call _ _ => true
  | .when _ _ c body => decide (defaultCase ∉ c.caseValues) && plainCasesAll body

def plainCasesAll : List Block → Bool
  | [] => true
  | b :: bs => plainCases b && plainCasesAll bs

end

theorem flowUser_value (id d v : Str) (h : v ≠ defaultCase) :
    flowUser ⟨id, d, some v⟩ = (id, d, .yes) := by
  rw [flowUser, flowBranch, if_neg h]

theorem flowUser_default (id d : Str) : flowUser ⟨id, d, some defaultCase⟩ = (id, d, .no) := by
  rw [flowUser, flowBranch, if_pos rfl]

theorem caseEdges_user {id d : Str} {c : Condition} (hne : c.caseValues ≠ [])
    (hplain : defaultCase ∉ c.caseValues) (x : Str × Str × Branch) :
    x ∈ (caseEdges id c d).map flowUser ↔ x = (id, d, .yes) := by
  constructor
  · intro hx
    obtain ⟨e, he, rfl⟩ := List.mem_map.mp hx
    obtain ⟨v, hv, rfl⟩ := List.mem_map.mp he
    exact flowUser_value id d v (fun h => hplain (h ▸ hv))
  · rintro rfl
    obtain ⟨v, hv⟩ := List.exists_mem_of_ne_nil _ hne
    refine List.mem_map.mpr ⟨_, List.mem_map.mpr ⟨v, hv, rfl⟩, ?_⟩
    exact flowUser_value id d v (fun h => hplain (h ▸ hv))

mutual

theorem ownedOf_branches : ∀ (b : Block) (t : Str), b.Full → plainCases b = true →
    ∀ x, x ∈ (ownedOf b t).map flowUser ↔ x ∈ branchesOf b t
  | .call _ _, _ => fun _ _ _ => Iff.rfl
  | .when id label c body, t => by
    rintro ⟨hvalues, hbody, hfull⟩ hplain x
    rw [plainCases, Bool.and_eq_true, decide_eq_true_eq] at hplain
    rw [ownedOf, branchesOf, List.map_append, List.map_append, List.mem_append, List.mem_append,
      caseEdges_user hvalues hplain.1, ownedAll_branches body t hfull hplain.2 x, List.map_cons,
      flowUser_default, List.map_nil, List.mem_singleton, List.mem_cons, List.mem_cons, or_assoc,
      entryOf_eq hbody [] t]

theorem ownedAll_branches : ∀ (bs : List Block) (t : Str), FullAll bs → plainCasesAll bs = true →
    ∀ x, x ∈ (ownedAll bs t).map flowUser ↔ x ∈ branchesAll bs t
  | [], _ => fun _ _ _ => Iff.rfl
  | b :: bs, t => by
    rintro ⟨hb, hbs⟩ hplain x
    rw [plainCasesAll, Bool.and_eq_true] at hplain
    rw [ownedAll, branchesAll, List.map_append, List.mem_append, List.mem_append,
      ownedOf_branches b _ hb hplain.1 x, ownedAll_branches bs t hbs hplain.2 x]

end

theorem entryOf_not_mem {bs : List Block} {t : Str} {names : List Str} (ht : t ∉ names)
    (hdisj : ∀ x ∈ names, x ∉ namesAll bs) : entryOf bs t ∉ names := by
  cases bs with
  | nil => exact ht
  | cons b bs => exact fun hm => hdisj _ hm (entryOf_mem (List.cons_ne_nil b bs) t)

structure Stray (names : List Str) (owned : List FlowEdge) (planned : List (Str × Str × Branch))
    (id d : Str) : Prop where
  src : id ∈ names
  dst : d ∈ names
  flow : (id, d, Branch.no) ∈ owned.map flowUser
  plan : (id, d, Branch.no) ∉ planned

mutual

theorem ownedOf_stray : ∀ (b : Block) (t : Str), b.Full → (namesOf b).Nodup → t ∉ namesOf b →
    plainCases b = false → ∃ id d, Stray (namesOf b) (ownedOf b t) (branchesOf b t) id d
  | .call _ _, _ => fun _ _ _ h => by cases h
  | .when id label c body, t => by
    rintro ⟨-, hne, hfull⟩ hd ht hplain
    rw [namesOf_when, List.nodup_cons] at hd
    rw [namesOf_when, List.mem_cons, not_or] at ht
    rw [plainCases, Bool.and_eq_false_iff] at hplain
    rw [ownedOf, branchesOf, namesOf_when]
    by_cases hdefault : defaultCase ∈ c.caseValues
    · have hentry := entryOf_mem hne []
      refine ⟨id, entryOf body [], List.mem_cons_self, List.mem_cons_of_mem _ hentry, ?_, ?_⟩
      · rw [List.map_append, List.map_append, List.append_assoc]
        refine List.mem_append_left _ (List.mem_map.mpr ⟨_, List.mem_map.mpr ⟨_, hdefault, rfl⟩, ?_⟩)
        exact flowUser_default ..
      · intro hm
        rcases List.mem_cons.mp hm with he | hm
        · exact Branch.noConfusion (Prod.mk.inj (Prod.mk.inj he).2).2
        · rcases List.mem_cons.mp hm with he | hm
          · exact ht.2 ((Prod.mk.inj (Prod.mk.inj he).2).1 ▸ hentry)
          · exact hd.1 (branchesAll_src body t _ hm)
    · have hbody := hplain.resolve_left (by simpa using hdefault)
      obtain ⟨x, d, hstray⟩ := ownedAll_stray body t hfull hd.2 ht.2 hbody
      refine ⟨x, d, List.mem_cons_of_mem _ hstray.src, List.mem_cons_of_mem _ hstray.dst, ?_, ?_⟩
      · rw [List.map_append]
        exact List.mem_append_right _ hstray.flow
      · intro hm
        rcases List.mem_cons.mp hm with he | hm
        · cases he
        · rcases List.mem_cons.mp hm with he | hm
          · exact hd.1 ((Prod.mk.inj he).1 ▸ hstray.src)
          · exact hstray.plan hm

theorem ownedAll_stray : ∀ (bs : List Block) (t : Str), FullAll bs → (namesAll bs).Nodup →
    t ∉ namesAll bs → plainCasesAll bs = false →
    ∃ id d, Stray (namesAll bs) (ownedAll bs t) (branchesAll bs t) id d
  | [], _ => fun _ _ _ h => by cases h
  | b :: bs, t => by
    rintro ⟨hb, hbs⟩ hd ht hplain
    rw [namesAll_cons] at hd ht ⊢
    rw [List.mem_append, not_or] at ht
    obtain ⟨hdb, hdbs, hdisj⟩ := List.nodup_append.mp hd
    rw [plainCasesAll, Bool.and_eq_false_iff] at hplain
    rw [ownedAll, branchesAll]
    rcases hplain with hplain | hplain
    · have hnext := entryOf_not_mem ht.1 (fun x hx hm => hdisj _ hx _ hm rfl)
      obtain ⟨x, d, hstray⟩ := ownedOf_stray b _ hb hdb hnext hplain
      refine ⟨x, d, List.mem_append_left _ hstray.src, List.mem_append_left _ hstray.dst,
        List.map_append ▸ List.mem_append_left _ hstray.flow, fun hm => ?_⟩
      rcases List.mem_append.mp hm with hm | hm
      · exact hstray.plan hm
      · exact hdisj _ hstray.src _ (branchesAll_src bs t _ hm) rfl
    · obtain ⟨x, d, hstray⟩ := ownedAll_stray bs t hbs hdbs ht.2 hplain
      refine ⟨x, d, List.mem_append_right _ hstray.src, List.mem_append_right _ hstray.dst,
        List.map_append ▸ List.mem_append_right _ hstray.flow, fun hm => ?_⟩
      rcases List.mem_append.mp hm with hm | hm
      · exact hdisj _ (branchesOf_src b _ _ hm) _ hstray.src rfl
      · exact hstray.plan hm

end

section agreement

variable {eval : LiteralEval}

mutual

def avoidsDefault (eval : LiteralEval) : WdlStep → Bool
  | .call _ _ _ _ => true
  | .when condition steps location =>
    match parseCondition eval condition location with
    | .error _ => true
    | .ok c => decide (defaultCase ∉ c.caseValues) && avoidsDefaultAll eval steps

def avoidsDefaultAll (eval : LiteralEval) : List WdlStep → Bool
  | [] => true
  | s :: ss => avoidsDefault eval s && avoidsDefaultAll eval ss

end

mutual

theorem Lays.plainCases : ∀ {s : WdlStep} {b : Block}, Lays eval s b →
    plainCases b = avoidsDefault eval s
  | _, _, .call _ _ _ _ => rfl
  | _, _, .when _ hc hbody _ => by
    rw [Dsl.plainCases, avoidsDefault, hc, hbody.plainCases]

theorem LaysAll.plainCases : ∀ {ss : List WdlStep} {bs : List Block}, LaysAll eval ss bs →
    plainCasesAll bs = avoidsDefaultAll eval ss
  | _, _, .nil => rfl
  | _, _, .cons h hs => by
    rw [plainCasesAll, avoidsDefaultAll, h.plainCases, hs.plainCases]

end

theorem userNodes_tags (f : FlowCompilation) :
    f.userNodes = (f.steps.map FlowStep.tag).filterMap userTag := by
  rw [FlowCompilation.userNodes, List.filterMap_map]
  refine List.filterMap_congr (fun s _ => ?_)
  rw [Function.comp_apply, userTag, FlowStep.tag]
  cases s.kind <;> rfl

variable {f : FlowCompilation} {bs : List Block} {emit finish : Str}

theorem LaidOut.userNodes (h : LaidOut f bs emit finish) :
    f.userNodes = (tagsAll bs).filterMap userTag := by
  rw [userNodes_tags, h.steps, List.filterMap_append]
  exact List.append_nil _

theorem LaidOut.userEdges (h : LaidOut f bs emit finish) (x : Str × Str × Branch) :
    x ∈ f.userGraph.edges ↔ x ∈ (ownedAll bs emit).map flowUser ∧ x.2.1 ∈ namesAll bs := by
  obtain ⟨hnames, -, hdisj⟩ := List.nodup_append.mp h.nodup
  have hmem : ∀ e, e ∈ f.edges ↔ e ∈ ownedAll bs emit ∨ e = ⟨emit, finish, none⟩ := by
    intro e
    have hsame := (edgesAll_sameOut [] bs emit hnames (fun x hx => by cases hx)).mem_iff (e := e)
    rw [h.edges, List.mem_append, hsame, List.mem_singleton]
    rfl
  have huser : f.userNodes.map Prod.fst = namesAll bs := by
    rw [h.userNodes, userTagsAll_names]
  rw [FlowCompilation.userGraph]
  simp only [huser, List.mem_map, List.mem_filter, decide_eq_true_eq]
  constructor
  · rintro ⟨e, ⟨he, hdst⟩, rfl⟩
    refine ⟨⟨e, ((hmem e).mp he).resolve_right (fun hlast => ?_), rfl⟩, hdst⟩
    rw [hlast] at hdst
    exact hdisj _ hdst finish (by simp) rfl
  · rintro ⟨⟨e, he, rfl⟩, hdst⟩
    exact ⟨e, ⟨(hmem e).mpr (Or.inl he), hdst⟩, rfl⟩

mutual

theorem planEdgesOf_dst : ∀ (b : Block), ∀ e ∈ planEdgesOf b, e.dst ∈ namesOf b
  | .call _ _ => fun e he => by cases he
  | .when id label _ body => by
    intro e he
    rw [planEdgesOf] at he
    rw [namesOf_when]
    exact List.mem_cons_of_mem _ (planEdgesAll_dst _ body e he)

theorem planEdgesAll_dst : ∀ (exits : List ExitEdge) (bs : List Block),
    ∀ e ∈ planEdgesAll exits bs, e.dst ∈ namesAll bs
  | _, [] => fun e he => by cases he
  | exits, b :: bs => by
    intro e he
    rw [planEdgesAll, List.append_assoc] at he
    rw [namesAll_cons, List.mem_append]
    rcases List.mem_append.mp he with he | he
    · obtain ⟨x, -, rfl⟩ := List.mem_map.mp he
      exact Or.inl (id_mem_namesOf b)
    · rcases List.mem_append.mp he with he | he
      · exact Or.inl (planEdgesOf_dst b e he)
      · exact Or.inr (planEdgesAll_dst _ bs e he)

end

theorem planEdges_user (bs : List Block) {t : Str} (ht : t ∉ namesAll bs)
    (x : Str × Str × Branch) :
    x ∈ (planEdgesAll [] bs).map planUser ↔ x ∈ branchesAll bs t ∧ x.2.1 ∈ namesAll bs := by
  have hperm : ∀ e, e ∈ planEdgesAll [] bs ∨ e ∈ links (planExitsAll [] bs) t ↔
      e ∈ planOwnedAll bs t := by
    intro e
    rw [← List.mem_append]
    exact (planEdgesAll_perm [] bs t).mem_iff
  rw [← planOwnedAll_branches]
  simp only [List.mem_map]
  constructor
  · rintro ⟨e, he, rfl⟩
    exact ⟨⟨e, (hperm e).mp (Or.inl he), rfl⟩, planEdgesAll_dst _ bs e he⟩
  · rintro ⟨⟨e, he, rfl⟩, hdst⟩
    refine ⟨e, ((hperm e).mpr he).resolve_right (fun hlink => ?_), rfl⟩
    obtain ⟨y, -, rfl⟩ := List.mem_map.mp hlink
    exact ht hdst

theorem plan_userGraph {w : WdlWorkflow} (hl : LaysAll eval w.steps bs)
    (hn : namesAll bs = plainNames (itemsAll w.steps) 0) (hd : (namesAll bs).Nodup) :
    (buildWorkflowPlan w).userGraph =
      ⟨bs.head?.map Block.id, (tagsAll bs).filterMap userTag,
        (planEdgesAll [] bs).map planUser⟩ := by
  have hready : Ready {} [] (namesAll bs) :=
    ⟨hd, fun id _ => ⟨fun h => (by cases h), rfl, rfl⟩, fun e he => (by cases he),
      fun h => absurd rfl h⟩
  have hplan := (processSequence_spec w.steps hl hn hready).planned
  rw [WorkflowPlan.userGraph, buildWorkflowPlan]
  simp only [UserGraph.mk.injEq]
  refine ⟨?_, hplan.nodes, ?_⟩
  · refine hplan.entry.trans ?_
    cases bs with
    | nil => rfl
    | cons b bs => cases b <;> rfl
  · refine (congrArg _ hplan.added).trans ?_
    show ((planEdgesAll [] bs).map FlowEdge.plan).map _ = _
    rw [List.map_map]
    rfl

theorem SameGraph.plain {w : WdlWorkflow} (hl : LaysAll eval w.steps bs)
    (hf : LaidOut f bs emit finish) (h : SameGraph f.userGraph (buildWorkflowPlan w).userGraph) :
    (plainNames (itemsAll w.steps) 0).Nodup := by
  have hids : namesAll bs = (buildWorkflowPlan w).nodes.map PlanNode.id := by
    have hnodes := congrArg (List.map Prod.fst) h.2.1
    rw [show f.userGraph.nodes = _ from hf.userNodes, userTagsAll_names] at hnodes
    rw [hnodes]
    show List.map _ (List.map _ _) = _
    rw [List.map_map]
    rfl
  have hsub : namesAll bs ⊆ plainNames (itemsAll w.steps) 0 := hids ▸ plan_ids_plain w
  have hd : (namesAll bs).Nodup := hids ▸ plan_ids_nodup w
  have hperm := (List.subperm_of_subset hd hsub).perm_of_length_le
    (by rw [plainNames_length, hl.length])
  exact hperm.nodup_iff.mp hd

theorem sameGraph_iff {w : WdlWorkflow} (h : compileWorkflow eval w = .ok f)
    (hl : LaysAll eval w.steps bs) (hne : bs ≠ []) (hf : LaidOut f bs emit finish)
    (hd : (plainNames (itemsAll w.steps) 0).Nodup) :
    SameGraph f.userGraph (buildWorkflowPlan w).userGraph ↔
      avoidsDefaultAll eval w.steps = true := by
  have hn := hf.names_plain h hd
  have hfull := laysAll_full hl
  have hemit : emit ∉ namesAll bs := fun hm =>
    (List.nodup_append.mp hf.nodup).2.2 _ hm emit List.mem_cons_self rfl
  rw [plan_userGraph hl hn (hn ▸ hd), ← hl.plainCases]
  constructor
  · rintro ⟨-, -, hedges⟩
    by_contra hplain
    obtain ⟨x, d, hstray⟩ := ownedAll_stray bs emit hfull (hn ▸ hd) hemit
      (Bool.eq_false_iff.mpr hplain)
    have hflow := (hf.userEdges _).mpr ⟨hstray.flow, hstray.dst⟩
    exact hstray.plan ((planEdges_user bs hemit _).mp ((hedges _).mp hflow)).1
  · intro hplain
    refine ⟨?_, hf.userNodes, fun x => ?_⟩
    · show some f.entry = _
      rw [hf.entry]
      cases bs with
      | nil => exact absurd rfl hne
      | cons b bs => rfl
    · rw [hf.userEdges, planEdges_user bs hemit, ownedAll_branches bs emit hfull hplain]

theorem compiled_sameGraph_iff {w : WdlWorkflow} (h : compileWorkflow eval w = .ok f) :
    SameGraph f.userGraph (buildWorkflowPlan w).userGraph ↔
      (∀ k < whenCount (itemsAll w.steps), whenName k ∉ callIds (itemsAll w.steps)) ∧
        avoidsDefaultAll eval w.steps = true := by
  obtain ⟨bs, emit, finish, hl, hne, hf⟩ := compileWorkflow_laidOut h
  have hcalls := ((compileWorkflow_ok_iff eval w).mp ⟨f, h⟩).2.2.2.1
  have hplain := plainNames_nodup_iff (itemsAll w.steps)
  constructor
  · intro hsame
    have hd := hsame.plain hl hf
    exact ⟨(hplain.mp hd).2, (sameGraph_iff h hl hne hf hd).mp hsame⟩
  · rintro ⟨hfree, havoids⟩
    exact (sameGraph_iff h hl hne hf (hplain.mpr ⟨hcalls, hfree⟩)).mpr havoids

theorem plan_agrees (eval : LiteralEval) (w : WdlWorkflow) :
    ((buildWorkflowPlan w).nodes.map PlanNode.id).Nodup ∧
    ∀ f, compileWorkflow eval w = .ok f →
      (SameGraph f.userGraph (buildWorkflowPlan w).userGraph ↔
        (∀ k < whenCount (itemsAll w.steps), whenName k ∉ callIds (itemsAll w.steps)) ∧
          avoidsDefaultAll eval w.steps = true) :=
  ⟨plan_ids_nodup w, fun _ h => compiled_sameGraph_iff h⟩

end agreement

def valueEval : LiteralEval := fun text =>
  if text = "'v'".toList then .ok (.text "v".toList) else demoEval text

def valueWhen (body : List WdlStep) : WdlStep := .when "$input.x == 'v'".toList body {}

def namesakeFlow : WdlWorkflow :=
  demoFlow [demoCall "when_0".toList, valueWhen [demoCall "a".toList]]

def defaultFlow : WdlWorkflow := demoFlow [demoWhen [demoCall "a".toList]]

theorem plan_differs :
    (∃ f, compileWorkflow valueEval namesakeFlow = .ok f ∧
      ¬SameGraph f.userGraph (buildWorkflowPlan namesakeFlow).userGraph) ∧
    ∃ f, compileWorkflow valueEval defaultFlow = .ok f ∧
      ¬SameGraph f.userGraph (buildWorkflowPlan defaultFlow).userGraph := by
  constructor
  · obtain ⟨f, hf⟩ := succeeds_iff.mp
      (show succeeds (compileWorkflow valueEval namesakeFlow) = true by decide +kernel)
    refine ⟨f, hf, fun hsame => ?_⟩
    exact ((compiled_sameGraph_iff hf).mp hsame).1 0 (by decide +kernel) (by decide +kernel)
  · obtain ⟨f, hf⟩ := succeeds_iff.mp
      (show succeeds (compileWorkflow valueEval defaultFlow) = true by decide +kernel)
    refine ⟨f, hf, fun hsame => ?_⟩
    exact absurd ((compiled_sameGraph_iff hf).mp hsame).2 (by decide +kernel)

end TraceMind.Dsl
