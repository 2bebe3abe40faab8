import TraceMind.Dsl.CompilerSpec

namespace TraceMind.Dsl

section full

variable {eval : LiteralEval}

theorem parseLiteralList_ne_nil {text : Str} {location : SourceSpan} {vs : List Str}
    (h : parseLiteralList eval text location = .ok vs) : vs ≠ [] := by
  rw [parseLiteralList] at h
  cases he : eval text with
  | error e =>
    rw [he] at h
    cases h
  | ok l =>
    rw [he] at h
    cases l with
    | text s => cases h
    | other => cases h
    | items values =>
      obtain ⟨us, -, h⟩ := Fallible.bind_eq_ok.mp h
      split_ifs at h with hempty
      cases h
      exact fun hn => hempty (by rw [hn]; rfl)

theorem parseCondition_ne_nil {text : Str} {location : SourceSpan} {c : Condition}
    (h : parseCondition eval text location = .ok c) : c.caseValues ≠ [] := by
  rw [parseCondition] at h
  cases hin : partition " in ".toList (strip text) with
  | some q =>
    rw [hin] at h
    obtain ⟨values, hvalues, h⟩ := Fallible.bind_eq_ok.mp h
    obtain ⟨key, -, h⟩ := Fallible.bind_eq_ok.mp h
    cases h
    exact parseLiteralList_ne_nil hvalues
  | none =>
    rw [hin] at h
    cases heq : partition "==".toList (strip text) with
    | none =>
      rw [heq] at h
      cases h
    | some q =>
      rw [heq] at h
      obtain ⟨key, -, h⟩ := Fallible.bind_eq_ok.mp h
      obtain ⟨v, -, h⟩ := Fallible.bind_eq_ok.mp h
      cases h
      exact List.cons_ne_nil _ _

theorem LaysAll.body_ne_nil {ss : List WdlStep} {bs : List Block} (h : LaysAll eval ss bs)
    (hne : ss ≠ []) : bs ≠ [] := by
  cases h with
  | nil => exact absurd rfl hne
  | cons _ _ => exact List.cons_ne_nil _ _

mutual

theorem lays_full : ∀ {s : WdlStep} {b : Block}, Lays eval s b → b.Full
  | _, _, .call .. => trivial
  | _, _, .when _ hc hbody hne =>
    ⟨parseCondition_ne_nil hc, hbody.body_ne_nil hne, laysAll_full hbody⟩

theorem laysAll_full : ∀ {ss : List WdlStep} {bs : List Block}, LaysAll eval ss bs → FullAll bs
  | _, _, .nil => trivial
  | _, _, .cons h hs => ⟨lays_full h, laysAll_full hs⟩

end

end full

section graph

variable {f : FlowCompilation} {bs : List Block} {emit finish : Str}

theorem LaidOut.sameOut (h : LaidOut f bs emit finish) :
    SameOut f.edges (ownedAll bs emit ++ [⟨emit, finish, none⟩]) := by
  have hbs : (namesAll bs).Nodup := (List.nodup_append.mp h.nodup).1
  rw [h.edges]
  exact (edgesAll_sameOut [] bs emit hbs (fun x hx => by cases hx)).append (SameOut.refl _)

theorem LaidOut.emit_not_mem (h : LaidOut f bs emit finish) : emit ∉ namesAll bs :=
  fun hm => (List.nodup_append.mp h.nodup).2.2 _ hm _ List.mem_cons_self rfl

theorem LaidOut.wired (h : LaidOut f bs emit finish) : WiredAll f.outgoing bs emit := by
  refine wiredAll_owned bs emit (List.nodup_append.mp h.nodup).1 (fun id hid => ?_)
  have hemit : ∀ e ∈ [(⟨emit, finish, none⟩ : FlowEdge)], e.src ≠ id := by
    intro e he heq
    rw [List.mem_singleton.mp he] at heq
    subst heq
    exact h.emit_not_mem hid
  rw [FlowCompilation.outgoing, h.sameOut id, List.filter_append, filter_src_nil hemit,
    List.append_nil]

theorem LaidOut.outgoing_emit (h : LaidOut f bs emit finish) :
    f.outgoing emit = [⟨emit, finish, none⟩] := by
  have hbs : ∀ e ∈ ownedAll bs emit, e.src ≠ emit :=
    fun e he heq => h.emit_not_mem (heq ▸ ownedAll_src bs emit e he)
  rw [FlowCompilation.outgoing, h.sameOut emit, List.filter_append, filter_src_nil hbs,
    filter_src_self (fun e he => by rw [List.mem_singleton.mp he]), List.nil_append]

theorem LaidOut.outgoing_finish (h : LaidOut f bs emit finish) : f.outgoing finish = [] := by
  obtain ⟨-, htail, hdisj⟩ := List.nodup_append.mp h.nodup
  have hbs : ∀ e ∈ ownedAll bs emit ++ [⟨emit, finish, none⟩], e.src ≠ finish := by
    intro e he heq
    rcases List.mem_append.mp he with he | he
    · exact hdisj _ (ownedAll_src bs emit e he) finish (by simp) heq
    · rw [List.mem_singleton.mp he] at heq
      exact (List.nodup_cons.mp htail).1 (by simp [show emit = finish from heq])
  rw [FlowCompilation.outgoing, h.sameOut finish, filter_src_nil hbs]

def FlowCompilation.Edge (f : FlowCompilation) (a b : Str) : Prop :=
  ∃ e ∈ f.edges, e.src = a ∧ e.dst = b

theorem edge_of_outgoing {e : FlowEdge} {id : Str} (h : e ∈ f.outgoing id) : f.Edge id e.dst := by
  obtain ⟨hm, hid⟩ := List.mem_filter.mp h
  exact ⟨e, hm, of_decide_eq_true hid, rfl⟩

mutual

theorem wired_reach : ∀ (b : Block) (t : Str), b.Full → Wired f.outgoing b t →
    (∀ n ∈ namesOf b, Relation.ReflTransGen f.Edge b.id n) ∧
      Relation.ReflTransGen f.Edge b.id t
  | .call id target, t => by
    intro _ h
    rw [Wired] at h
    refine ⟨fun n hn => ?_, ?_⟩
    · rw [List.mem_singleton.mp hn]
      exact .refl
    · have hm : (⟨id, t, none⟩ : FlowEdge) ∈ f.outgoing id := by
        rw [h]
        exact List.mem_cons_self
      exact .single (edge_of_outgoing hm)
  | .when id label c body, t => by
    intro hfull h
    obtain ⟨hout, hbody⟩ := h
    obtain ⟨hreach, -⟩ := wiredAll_reach body t hfull.2.2 hbody
    have hdefault : Relation.ReflTransGen f.Edge id t := by
      refine .single (edge_of_outgoing (e := ⟨id, t, some defaultCase⟩) ?_)
      rw [hout]
      exact List.mem_append_right _ List.mem_cons_self
    obtain ⟨v, hv⟩ := List.exists_mem_of_ne_nil _ hfull.1
    have henter : f.Edge id (entryOf body []) := by
      refine edge_of_outgoing (e := ⟨id, entryOf body [], some v⟩) ?_
      rw [hout]
      exact List.mem_append_left _ (List.mem_map.mpr ⟨v, hv, rfl⟩)
    refine ⟨fun n hn => ?_, hdefault⟩
    rw [namesOf_when, List.mem_cons] at hn
    rcases hn with rfl | hn
    · exact .refl
    · rw [entryOf_eq hfull.2.1 [] t] at henter
      exact .head henter (hreach n hn)

theorem wiredAll_reach : ∀ (bs : List Block) (t : Str), FullAll bs → WiredAll f.outgoing bs t →
    (∀ n ∈ namesAll bs, Relation.ReflTransGen f.Edge (entryOf bs t) n) ∧
      Relation.ReflTransGen f.Edge (entryOf bs t) t
  | [], t => fun _ _ => ⟨fun n hn => (by cases hn), .refl⟩
  | b :: bs, t => by
    intro hfull h
    obtain ⟨hb, hnext⟩ := wired_reach b _ hfull.1 h.1
    obtain ⟨hbs, hend⟩ := wiredAll_reach bs t hfull.2 h.2
    refine ⟨fun n hn => ?_, hnext.trans hend⟩
    rw [namesAll_cons, List.mem_append] at hn
    rcases hn with hn | hn
    · exact hb n hn
    · exact hnext.trans (hbs n hn)

end

theorem LaidOut.ids (h : LaidOut f bs emit finish) :
    f.steps.map FlowStep.id = namesAll bs ++ [emit, finish] := by
  have hmap := congrArg (List.map Prod.fst) h.steps
  rw [List.map_map, List.map_append] at hmap
  exact hmap

theorem LaidOut.reach (h : LaidOut f bs emit finish) (hfull : FullAll bs) :
    ∀ s ∈ f.steps, Relation.ReflTransGen f.Edge f.entry s.id := by
  obtain ⟨hnames, hemit⟩ := wiredAll_reach bs emit hfull h.wired
  have hfin : f.Edge emit finish :=
    edge_of_outgoing (e := ⟨emit, finish, none⟩) (by rw [h.outgoing_emit]; exact List.mem_cons_self)
  intro s hs
  have hid : s.id ∈ namesAll bs ++ [emit, finish] := h.ids ▸ List.mem_map_of_mem hs
  rw [h.entry]
  rcases List.mem_append.mp hid with hid | hid
  · exact hnames _ hid
  · rcases List.mem_cons.mp hid with he | he
    · rw [he]
      exact hemit
    · rw [List.mem_singleton.mp he]
      exact hemit.tail hfin

theorem LaidOut.forward (h : LaidOut f bs emit finish) (hfull : FullAll bs) {a b : Str}
    (hab : f.Edge a b) :
    (namesAll bs ++ [emit, finish]).idxOf a < (namesAll bs ++ [emit, finish]).idxOf b := by
  obtain ⟨e, he, rfl, rfl⟩ := hab
  refine idxOf_lt_of_sublist h.nodup ?_
  rcases List.mem_append.mp (h.sameOut.mem_iff.mp he) with he | he
  · exact (ownedAll_forward bs emit hfull e he).trans
      ((List.Sublist.refl _).append (by simp))
  · rw [List.mem_singleton.mp he]
    exact List.sublist_append_right ..

theorem LaidOut.acyclic (h : LaidOut f bs emit finish) (hfull : FullAll bs) (a : Str) :
    ¬Relation.TransGen f.Edge a a := by
  have hlt : ∀ b, Relation.TransGen f.Edge a b →
      (namesAll bs ++ [emit, finish]).idxOf a < (namesAll bs ++ [emit, finish]).idxOf b := by
    intro b hb
    induction hb with
    | single h' => exact h.forward hfull h'
    | tail _ h' ih => exact ih.trans (h.forward hfull h')
  exact fun hc => lt_irrefl _ (hlt a hc)

end graph

section walk

variable {f : FlowCompilation} {bs : List Block} {emit finish : Str} {σ : Str → Str}

mutual

def blockCalls (test : Condition → Bool) : Block → List Str
  | .call id _ => [id]
  | .when _ _ c body => if test c then blockCallsAll test body else []

def blockCallsAll (test : Condition → Bool) : List Block → List Str
  | [] => []
  | b :: bs => blockCalls test b ++ blockCallsAll test bs

end

theorem labelled_outgoing (id v : Str) :
    labelled id v f.edges = ((f.outgoing id).find? (fun e => e.label = some v)).map FlowEdge.dst := by
  rw [labelled, FlowCompilation.outgoing, List.find?_filter]
  simp only [Bool.decide_and, Bool.decide_eq_true]

theorem find_label_cases (id t entry v : Str) (c : Condition) :
    ((caseEdges id c entry ++ [(⟨id, t, some defaultCase⟩ : FlowEdge)]).find?
      (fun e => e.label = some v)).map FlowEdge.dst =
      if v ∈ c.caseValues then some entry else if v = defaultCase then some t else none := by
  rw [List.find?_append]
  by_cases hv : v ∈ c.caseValues
  · have hsome : (caseEdges id c entry).find? (fun e => e.label = some v) =
        some ⟨id, entry, some v⟩ := by
      rw [caseEdges, List.find?_map]
      obtain ⟨u, hu⟩ : ∃ u, c.caseValues.find? (fun u => u = v) = some u :=
        Option.isSome_iff_exists.mp (List.find?_isSome.mpr ⟨v, hv, by simp⟩)
      have huv : u = v := by simpa using List.find?_some hu
      simp only [Function.comp_def, Option.some.injEq, hu, Option.map_some, huv]
    rw [hsome, if_pos hv]
    rfl
  · have hnone : (caseEdges id c entry).find? (fun e => e.label = some v) = none := by
      refine List.find?_eq_none.mpr (fun e he hl => hv ?_)
      obtain ⟨u, hu, rfl⟩ := List.mem_map.mp he
      simpa [← Option.some.inj (of_decide_eq_true hl)] using hu
    rw [hnone, if_neg hv, Option.none_or]
    by_cases hd : v = defaultCase
    · simp [hd]
    · simp [hd, Ne.symm hd]

theorem LaidOut.find_step (h : LaidOut f bs emit finish) {id : Str} {shape : Shape}
    (hm : (id, shape) ∈ f.steps.map FlowStep.tag) :
    ∃ s, f.steps.find? (fun s => s.id = id) = some s ∧ s.id = id ∧ s.kind.shape = shape := by
  obtain ⟨s, hs, htag⟩ := List.mem_map.mp hm
  obtain ⟨hid, hshape⟩ := Prod.mk.inj htag
  obtain ⟨u, hu⟩ := Option.isSome_iff_exists.mp
    (List.find?_isSome (p := fun s : FlowStep => decide (s.id = id)) |>.mpr
      ⟨s, hs, decide_eq_true hid⟩)
  have huid : u.id = id := by simpa using List.find?_some hu
  have hnodup : (f.steps.map FlowStep.id).Nodup := by
    rw [h.ids]
    exact h.nodup
  have hsame := List.inj_on_of_nodup_map hnodup (List.mem_of_find?_eq_some hu) hs
    (huid.trans hid.symm)
  exact ⟨u, hu, huid, hsame ▸ hshape⟩

theorem isFinish_iff {k : StepKind} : k.isFinish = true ↔ k.shape = .finish := by
  cases k <;> simp [StepKind.isFinish, StepKind.shape]

theorem follow_step {s : FlowStep} {id dst : Str} {k : ℕ} {p : List Str}
    (hfind : f.steps.find? (fun s => s.id = id) = some s) (hkind : s.kind.shape ≠ .finish)
    (hnext : f.next σ s = some dst) (hrest : f.follow σ k dst = some p) :
    f.follow σ (k + 1) id = some (s.visit ++ p) := by
  rw [FlowCompilation.follow, hfind]
  simp only [mt isFinish_iff.mp hkind, hnext, Option.bind_some, hrest, Option.map_some]
  rfl

theorem follow_mono (k : ℕ) : ∀ {id : Str} {p : List Str}, f.follow σ k id = some p →
    f.follow σ (k + 1) id = some p := by
  induction k with
  | zero => exact fun h => by cases h
  | succ k ih =>
    intro id p h
    rw [FlowCompilation.follow] at h ⊢
    cases hfind : f.steps.find? (fun s => s.id = id) with
    | none => rw [hfind] at h; cases h
    | some s =>
      rw [hfind] at h
      simp only at h ⊢
      split_ifs at h ⊢
      · exact h
      · obtain ⟨dst, hn, hdst⟩ := Option.bind_eq_some_iff.mp h
        obtain ⟨q, hq, rfl⟩ := Option.map_eq_some_iff.mp hdst
        rw [hn, Option.bind_some, ih hq]
        rfl

theorem follow_mono_le {k k' : ℕ} (hle : k ≤ k') {id : Str} {p : List Str}
    (h : f.follow σ k id = some p) : f.follow σ k' id = some p := by
  induction hle with
  | refl => exact h
  | step _ ih => exact follow_mono _ ih

theorem next_call {s : FlowStep} {target t : Str} (hs : s.kind.shape = .call target)
    (hout : f.outgoing s.id = [⟨s.id, t, none⟩]) :
    f.next σ s = some t ∧ s.visit = [s.id] := by
  rw [FlowCompilation.next, FlowStep.visit]
  cases hk : s.kind with
  | call target' args => simp [hout]
  | switch key => rw [hk] at hs; cases hs
  | emit outputs => rw [hk] at hs; cases hs
  | finish => rw [hk] at hs; cases hs

theorem LaidOut.next_switch (h : LaidOut f bs emit finish) {s : FlowStep} {t entry : Str}
    {c : Condition} (hm : (s.id, Shape.switch c.keyFrom) ∈ f.steps.map FlowStep.tag)
    (hs : s.kind.shape = .switch c.keyFrom)
    (hout : f.outgoing s.id = caseEdges s.id c entry ++ [⟨s.id, t, some defaultCase⟩]) :
    f.next σ s = some (if taken σ c then entry else t) ∧ s.visit = [] := by
  rw [FlowCompilation.next, FlowStep.visit]
  cases hk : s.kind with
  | call target args => rw [hk] at hs; cases hs
  | emit outputs => rw [hk] at hs; cases hs
  | finish => rw [hk] at hs; cases hs
  | switch key =>
    rw [hk] at hs
    cases hs
    refine ⟨?_, rfl⟩
    simp only [h.follow s.id _ _ hm, labelled_outgoing, hout, find_label_cases, taken]
    by_cases hv : σ c.keyFrom ∈ c.caseValues
    · simp [hv]
    · by_cases hd : defaultCase ∈ c.caseValues
      · have hne : σ c.keyFrom ≠ defaultCase := fun he => hv (he ▸ hd)
        simp [hv, hd, hne]
      · by_cases he : σ c.keyFrom = defaultCase
        · simp [hd, he]
        · simp [hv, hd, he]

mutual

theorem LaidOut.follow_block (h : LaidOut f bs emit finish) : ∀ (b : Block) (t : Str), b.Full →
    Wired f.outgoing b t → (∀ x ∈ tagsOf b, x ∈ f.steps.map FlowStep.tag) →
    ∀ {k : ℕ} {p : List Str}, f.follow σ k t = some p →
    f.follow σ (k + (namesOf b).length) b.id = some (blockCalls (taken σ) b ++ p)
  | .call id target, t => by
    intro _ hw htags k p hp
    obtain ⟨s, hfind, rfl, hshape⟩ := h.find_step (htags _ List.mem_cons_self)
    obtain ⟨hnext, hvisit⟩ := next_call (σ := σ) hshape hw
    have hstep := follow_step hfind (by rw [hshape]; exact fun hc => by cases hc) hnext hp
    rw [hvisit] at hstep
    exact hstep
  | .when id label c body, t => by
    intro hfull hw htags k p hp
    have htag := htags _ List.mem_cons_self
    obtain ⟨s, hfind, rfl, hshape⟩ := h.find_step htag
    obtain ⟨hnext, hvisit⟩ := h.next_switch (σ := σ) htag hshape hw.1
    have hbody := h.follow_all body t hfull.2.2 hw.2
      (fun x hx => htags x (List.mem_cons_of_mem _ hx)) hp
    have hdst : f.follow σ (k + (namesAll body).length)
        (if taken σ c then entryOf body [] else t) =
        some (blockCalls (taken σ) (.when s.id label c body) ++ p) := by
      rw [blockCalls]
      split_ifs
      · rw [entryOf_eq hfull.2.1 [] t]
        exact hbody
      · exact follow_mono_le (Nat.le_add_right ..) hp
    have hstep := follow_step hfind (by rw [hshape]; exact fun hc => by cases hc) hnext hdst
    rw [hvisit] at hstep
    exact hstep

theorem LaidOut.follow_all (h : LaidOut f bs emit finish) : ∀ (cs : List Block) (t : Str),
    FullAll cs → WiredAll f.outgoing cs t →
    (∀ x ∈ tagsAll cs, x ∈ f.steps.map FlowStep.tag) →
    ∀ {k : ℕ} {p : List Str}, f.follow σ k t = some p →
    f.follow σ (k + (namesAll cs).length) (entryOf cs t) =
      some (blockCallsAll (taken σ) cs ++ p)
  | [], t => fun _ _ _ {k} {p} hp => hp
  | b :: cs, t => by
    intro hfull hw htags k p hp
    rw [tagsAll] at htags
    have hrest := h.follow_all cs t hfull.2 hw.2
      (fun x hx => htags x (List.mem_append_right _ hx)) hp
    have hfirst := h.follow_block b _ hfull.1 hw.1
      (fun x hx => htags x (List.mem_append_left _ hx)) hrest
    rw [namesAll_cons, List.length_append, blockCallsAll, List.append_assoc]
    rw [Nat.add_assoc, Nat.add_comm (namesAll cs).length] at hfirst
    exact hfirst

end

theorem LaidOut.follow_emit (h : LaidOut f bs emit finish) : f.follow σ 2 emit = some [] := by
  have hfin : f.follow σ 1 finish = some [] := by
    have hm : (finish, Shape.finish) ∈ f.steps.map FlowStep.tag := by rw [h.steps]; simp
    obtain ⟨s, hfind, -, hshape⟩ := h.find_step hm
    rw [FlowCompilation.follow, hfind]
    exact if_pos (isFinish_iff.mpr hshape)
  have hm : (emit, Shape.emit) ∈ f.steps.map FlowStep.tag := by rw [h.steps]; simp
  obtain ⟨s, hfind, rfl, hshape⟩ := h.find_step hm
  have hnext : f.next σ s = some finish ∧ s.visit = [] := by
    rw [FlowCompilation.next, FlowStep.visit]
    cases hk : s.kind with
    | emit outputs => simp [h.outgoing_emit]
    | call target args => rw [hk] at hshape; cases hshape
    | switch key => rw [hk] at hshape; cases hshape
    | finish => rw [hk] at hshape; cases hshape
  have hstep := follow_step hfind (by rw [hshape]; exact fun hc => by cases hc) hnext.1 hfin
  rw [hnext.2] at hstep
  exact hstep

theorem LaidOut.visited (h : LaidOut f bs emit finish) (hfull : FullAll bs) :
    f.visited σ = some (blockCallsAll (taken σ) bs) := by
  have hlen : f.steps.length = 2 + (namesAll bs).length := by
    have hids := congrArg List.length h.ids
    rw [List.length_map, List.length_append] at hids
    rw [hids, Nat.add_comm]
    rfl
  rw [FlowCompilation.visited, hlen, h.entry]
  have hall := h.follow_all (σ := σ) bs emit hfull h.wired
    (fun x hx => by rw [h.steps]; exact List.mem_append_left _ hx) h.follow_emit
  rw [List.append_nil] at hall
  exact hall

end walk

section meaning

variable {eval : LiteralEval} {σ : Str → Str}

def holds (σ : Str → Str) (c : Condition) : Bool := decide (σ c.keyFrom ∈ c.caseValues)

theorem taken_of_holds {c : Condition} (h : holds σ c = true) : taken σ c = true := by
  rw [taken, show decide (σ c.keyFrom ∈ c.caseValues) = true from h, Bool.true_or]

mutual

theorem callsOf_lays : ∀ {s : WdlStep} {b : Block}, Lays eval s b →
    callsOf eval σ s = blockCalls (holds σ) b
  | _, _, .call .. => rfl
  | _, _, .when _ hc hbody _ => by
    rw [callsOf, blockCalls, hc, ← callsOfAll_lays hbody]
    simp only [holds, decide_eq_true_eq]

theorem callsOfAll_lays : ∀ {ss : List WdlStep} {bs : List Block}, LaysAll eval ss bs →
    callsOfAll eval σ ss = blockCallsAll (holds σ) bs
  | _, _, .nil => rfl
  | _, _, .cons h hs => by rw [callsOfAll, blockCallsAll, callsOf_lays h, callsOfAll_lays hs]

end

mutual

theorem reaches_lays : ∀ {s : WdlStep} {b : Block}, Lays eval s b →
    (reaches eval σ s = false ↔ blockCalls (taken σ) b = [])
  | _, _, .call .. => ⟨fun h => (by cases h), fun h => (by cases h)⟩
  | _, _, .when (c := c) _ hc hbody _ => by
    have ih := reachesAny_lays hbody
    rw [reaches, blockCalls, hc]
    simp only
    cases taken σ c
    · simp
    · simpa using ih

theorem reachesAny_lays : ∀ {ss : List WdlStep} {bs : List Block}, LaysAll eval ss bs →
    (reachesAny eval σ ss = false ↔ blockCallsAll (taken σ) bs = [])
  | _, _, .nil => ⟨fun _ => rfl, fun _ => rfl⟩
  | _, _, .cons h hs => by
    rw [reachesAny, blockCallsAll, Bool.or_eq_false_iff, reaches_lays h, reachesAny_lays hs,
      List.append_eq_nil_iff]

end

mutual

theorem blockCalls_sublist (σ : Str → Str) : ∀ (b : Block),
    (blockCalls (holds σ) b).Sublist (blockCalls (taken σ) b)
  | .call id target => List.Sublist.refl _
  | .when id label c body => by
    rw [blockCalls, blockCalls]
    cases hh : holds σ c
    · exact List.nil_sublist _
    · rw [taken_of_holds hh]
      exact blockCallsAll_sublist σ body

theorem blockCallsAll_sublist (σ : Str → Str) : ∀ (bs : List Block),
    (blockCallsAll (holds σ) bs).Sublist (blockCallsAll (taken σ) bs)
  | [] => List.Sublist.refl _
  | b :: bs => (blockCalls_sublist σ b).append (blockCallsAll_sublist σ bs)

end

theorem append_eq_of_sublist {a b c d : List Str} (hab : b.Sublist a) (hcd : d.Sublist c) :
    a ++ c = b ++ d ↔ a = b ∧ c = d := by
  constructor
  · intro h
    have hlen := congrArg List.length h
    rw [List.length_append, List.length_append] at hlen
    have h1 := hab.length_le
    have h2 := hcd.length_le
    exact ⟨(hab.eq_of_length (by omega)).symm, (hcd.eq_of_length (by omega)).symm⟩
  · rintro ⟨rfl, rfl⟩
    rfl

mutual

theorem strays_lays : ∀ {s : WdlStep} {b : Block}, Lays eval s b →
    (strays eval σ s = false ↔ blockCalls (taken σ) b = blockCalls (holds σ) b)
  | _, _, .call .. => ⟨fun _ => rfl, fun _ => rfl⟩
  | _, _, .when (c := c) _ hc hbody _ => by
    have ih := straysAny_lays hbody
    have hreach := reachesAny_lays (σ := σ) hbody
    rw [strays, blockCalls, blockCalls, hc]
    simp only
    by_cases hv : σ c.keyFrom ∈ c.caseValues
    · have hh : holds σ c = true := decide_eq_true hv
      rw [if_pos hv, taken_of_holds hh, hh, if_pos rfl, if_pos rfl]
      exact ih
    · have hh : holds σ c = false := decide_eq_false hv
      have ht : taken σ c = decide (defaultCase ∈ c.caseValues) := by
        rw [taken, decide_eq_false hv, Bool.false_or]
      rw [if_neg hv, hh, ht]
      cases decide (defaultCase ∈ c.caseValues)
      · simp
      · simpa using hreach

theorem straysAny_lays : ∀ {ss : List WdlStep} {bs : List Block}, LaysAll eval ss bs →
    (straysAny eval σ ss = false ↔ blockCallsAll (taken σ) bs = blockCallsAll (holds σ) bs)
  | _, _, .nil => ⟨fun _ => rfl, fun _ => rfl⟩
  | _, _, @LaysAll.cons _ _ _ b bs h hs => by
    rw [straysAny, blockCallsAll, blockCallsAll, Bool.or_eq_false_iff, strays_lays h,
      straysAny_lays hs, append_eq_of_sublist (blockCalls_sublist σ b) (blockCallsAll_sublist σ bs)]

end

theorem compiled_flow_spec {w : WdlWorkflow} {f : FlowCompilation}
    (h : compileWorkflow eval w = .ok f) :
    (∀ σ, f.visited σ = some (callsOfAll eval σ w.steps) ↔ straysAny eval σ w.steps = false) ∧
      (∀ s ∈ f.steps, Relation.ReflTransGen f.Edge f.entry s.id) ∧
      ∀ a, ¬Relation.TransGen f.Edge a a := by
  obtain ⟨bs, emit, finish, hlays, -, hlaid⟩ := compileWorkflow_laidOut h
  have hfull := laysAll_full hlays
  refine ⟨fun σ => ?_, hlaid.reach hfull, hlaid.acyclic hfull⟩
  rw [hlaid.visited hfull, straysAny_lays hlays, callsOfAll_lays hlays, Option.some.injEq]

end meaning

end TraceMind.Dsl
