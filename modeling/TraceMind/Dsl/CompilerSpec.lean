import TraceMind.Dsl.Layout
import TraceMind.Foundation.Fallible
import TraceMind.Foundation.JsonSpec
import Mathlib.Data.Finset.Card

namespace TraceMind.Dsl

section names

variable {ids : List Str} {p : Str}

theorem intText_injective : Function.Injective Json.intText := by
  intro m n h
  have hm := Json.atom_intText m
  rw [h, Json.atom_intText n] at hm
  exact (Json.int.inj (Option.some.inj hm)).symm

theorem candidate_injective (p : Str) : Function.Injective (candidate p) := by
  intro m n h
  have hdigits := List.cons.inj (List.append_cancel_left h)
  exact Int.ofNat_inj.mp (intText_injective hdigits.2)

theorem firstFree_spec (ids : List Str) (p : Str) (fuel n : ℕ) :
    n ≤ firstFree ids p fuel n ∧ (∀ j, n ≤ j → j < firstFree ids p fuel n → candidate p j ∈ ids) ∧
      (candidate p (firstFree ids p fuel n) ∉ ids ∨ firstFree ids p fuel n = n + fuel) := by
  induction fuel generalizing n with
  | zero => exact ⟨le_refl n, fun j hj hlt => absurd hlt (not_lt.mpr hj), Or.inr rfl⟩
  | succ fuel ih =>
    rw [firstFree]
    split_ifs with h
    · obtain ⟨hle, hall, hend⟩ := ih (n + 1)
      refine ⟨by omega, fun j hj hlt => ?_, hend.imp_right (fun he => by omega)⟩
      rcases Nat.eq_or_lt_of_le hj with rfl | hj
      · exact h
      · exact hall j hj hlt
    · exact ⟨le_refl n, fun j hj hlt => absurd hlt (not_lt.mpr hj), Or.inl h⟩

theorem firstFree_fresh (ids : List Str) (p : Str) (n : ℕ) :
    candidate p (firstFree ids p ids.length n) ∉ ids := by
  obtain ⟨-, hall, hend⟩ := firstFree_spec ids p ids.length n
  rcases hend with h | h
  · exact h
  · intro hmem
    have hsub : (List.range' n (ids.length + 1)).map (candidate p) ⊆ ids := by
      intro s hs
      obtain ⟨j, hj, rfl⟩ := List.mem_map.mp hs
      rw [List.mem_range'_1] at hj
      by_cases hlt : j < firstFree ids p ids.length n
      · exact hall j hj.1 hlt
      · rw [show j = firstFree ids p ids.length n by omega]
        exact hmem
    have hnodup : ((List.range' n (ids.length + 1)).map (candidate p)).Nodup :=
      List.Nodup.map (candidate_injective p) List.nodup_range'
    have hlen := (List.subperm_of_subset hnodup hsub).length_le
    rw [List.length_map, List.length_range'] at hlen
    omega

end names

section builder

variable {b b' : Builder}

def labelled (id v : Str) (es : List FlowEdge) : Option Str :=
  (es.find? (fun e => e.src = id && e.label = some v)).map FlowEdge.dst

theorem labelled_append_edge (es : List FlowEdge) (e : FlowEdge) (id v : Str) :
    labelled id v (es ++ [e]) =
      (labelled id v es).or (if e.src = id ∧ e.label = some v then some e.dst else none) := by
  rw [labelled, labelled, List.find?_append]
  cases es.find? (fun e => e.src = id && e.label = some v) with
  | some e => simp
  | none => by_cases hs : e.src = id <;> by_cases hl : e.label = some v <;> simp [hs, hl]

structure Sane (b : Builder) : Prop where
  nodup : b.ids.Nodup
  src : ∀ e ∈ b.edges, e.src ∈ b.ids
  unknown : ∀ id, id ∉ b.ids → b.cases id = []
  follow : ∀ id v, b.isSwitch id = true →
    OrderedDict.find v (b.cases id) = labelled id v b.edges

theorem addStep_ok {s : FlowStep} (h : b.addStep s = .ok b') :
    s.id ∉ b.ids ∧
      b' = { b with steps := b.steps ++ [s], entry := b.entry.orElse (fun _ => some s.id) } := by
  rw [Builder.addStep] at h
  split_ifs at h with hid
  cases h
  exact ⟨hid, rfl⟩

theorem addStep_fresh {s : FlowStep} (h : s.id ∉ b.ids) :
    b.addStep s =
      .ok { b with steps := b.steps ++ [s], entry := b.entry.orElse (fun _ => some s.id) } :=
  if_neg h

theorem labelled_none {es : List FlowEdge} {id : Str} {v : Str} (h : ∀ e ∈ es, e.src ≠ id) :
    labelled id v es = none := by
  rw [labelled, Option.map_eq_none_iff, List.find?_eq_none]
  intro e he hm
  rw [Bool.and_eq_true] at hm
  exact h e he (of_decide_eq_true hm.1)

theorem Sane.addStep {s : FlowStep} (hb : Sane b) (h : s.id ∉ b.ids) :
    Sane { b with steps := b.steps ++ [s], entry := b.entry.orElse (fun _ => some s.id) } := by
  have hids : (b.steps ++ [s]).map FlowStep.id = b.ids ++ [s.id] := List.map_append
  refine ⟨?_, fun e he => ?_, fun id hid => ?_, fun id v hsw => ?_⟩
  · rw [Builder.ids, hids]
    exact List.nodup_append.mpr ⟨hb.nodup, List.nodup_singleton _, fun x hx y hy he =>
      h (List.mem_singleton.mp hy ▸ he ▸ hx)⟩
  · rw [Builder.ids, hids]
    exact List.mem_append_left _ (hb.src e he)
  · rw [Builder.ids, hids] at hid
    exact hb.unknown id (fun hm => hid (List.mem_append_left _ hm))
  · by_cases hid : id = s.id
    · have hsrc : ∀ e ∈ b.edges, e.src ≠ s.id := fun e he heq => h (heq ▸ hb.src e he)
      rw [hid]
      change OrderedDict.find v (b.cases s.id) = labelled s.id v b.edges
      rw [hb.unknown _ h, labelled_none hsrc]
      rfl
    · refine hb.follow id v ?_
      rw [Builder.isSwitch, List.any_append] at hsw
      simp only [List.any_cons, List.any_nil, Bool.or_false, Bool.or_eq_true, Bool.and_eq_true,
        decide_eq_true_eq] at hsw
      rcases hsw with hsw | ⟨he, -⟩
      · exact hsw
      · exact absurd he.symm hid

theorem find_setItem {α : Type} (k u : Str) (x : α) (es : List (Str × α)) :
    OrderedDict.find u (setItem k x es) = if u = k then some x else OrderedDict.find u es := by
  induction es with
  | nil =>
    rw [setItem, OrderedDict.find]
    exact if_congr eq_comm rfl rfl
  | cons e es ih =>
    obtain ⟨j, y⟩ := e
    rw [setItem, OrderedDict.find]
    split_ifs with hj huk hju huj
    all_goals simp_all [OrderedDict.find]

theorem mem_keys_iff {α : Type} {k : Str} {es : List (Str × α)} :
    k ∈ es.map Prod.fst ↔ ∃ x, OrderedDict.find k es = some x := by
  induction es with
  | nil => simp [OrderedDict.find]
  | cons e es ih =>
    rw [List.map_cons, List.mem_cons, OrderedDict.find, ih]
    by_cases h : e.1 = k
    · simp [h]
    · simp [h, Ne.symm h]

section edges

variable (b) (src dst : Str) (label : Option Str)

theorem noteLabel_steps : (b.noteLabel src dst label).steps = b.steps := by
  cases label with
  | none => rfl
  | some v =>
    rw [Builder.noteLabel, Builder.noteCase]
    split_ifs <;> rfl

theorem noteLabel_entry : (b.noteLabel src dst label).entry = b.entry := by
  cases label with
  | none => rfl
  | some v =>
    rw [Builder.noteLabel, Builder.noteCase]
    split_ifs <;> rfl

theorem noteLabel_counter : (b.noteLabel src dst label).counter = b.counter := by
  cases label with
  | none => rfl
  | some v =>
    rw [Builder.noteLabel, Builder.noteCase]
    split_ifs <;> rfl

theorem noteLabel_cases_ne {id : Str} (h : id ≠ src) :
    (b.noteLabel src dst label).cases id = b.cases id := by
  cases label with
  | none => rfl
  | some v =>
    rw [Builder.noteLabel, Builder.noteCase]
    split_ifs
    · exact if_neg h
    · rfl

theorem addEdge_ids : (b.addEdge src dst label).ids = b.ids :=
  congrArg (List.map FlowStep.id) (noteLabel_steps b src dst label)

theorem addEdge_isSwitch (id : Str) : (b.addEdge src dst label).isSwitch id = b.isSwitch id :=
  congrArg (fun l : List FlowStep => l.any (fun s => s.id = id && s.kind.isSwitch))
    (noteLabel_steps b src dst label)

end edges

theorem Sane.addEdge (hb : Sane b) {src : Str} (dst : Str) (label : Option Str)
    (h : src ∈ b.ids) :
    Sane (b.addEdge src dst label) := by
  have hids := addEdge_ids b src dst label
  refine ⟨hids ▸ hb.nodup, fun e he => ?_, fun id hid => ?_, fun id v hsw => ?_⟩
  · rw [hids]
    rcases List.mem_append.mp he with he | he
    · exact hb.src e he
    · rw [List.mem_singleton.mp he]
      exact h
  · rw [hids] at hid
    have hne : id ≠ src := fun he => hid (he ▸ h)
    exact (noteLabel_cases_ne b src dst label hne).trans (hb.unknown id hid)
  · rw [addEdge_isSwitch] at hsw
    have hold := hb.follow id v hsw
    change OrderedDict.find v ((b.noteLabel src dst label).cases id) =
      labelled id v (b.edges ++ [⟨src, dst, label⟩])
    rw [labelled_append_edge, ← hold]
    by_cases hid : id = src
    · subst hid
      cases label with
      | none => simp [Builder.noteLabel]
      | some u =>
        rw [Builder.noteLabel, Builder.noteCase]
        split_ifs with hnew hm hm
        · cases hm.2
          simp [Builder.setCases, OrderedDict.find_append, OrderedDict.find]
        · have hne : u ≠ v := fun he => hm ⟨rfl, congrArg some he⟩
          simp [Builder.setCases, OrderedDict.find_append, OrderedDict.find, hne]
        · cases hm.2
          have hknown : v ∈ (b.cases id).map Prod.fst := by
            by_contra hc
            exact hnew ⟨hsw, hc⟩
          obtain ⟨x, hx⟩ := mem_keys_iff.mp hknown
          rw [hx]
          rfl
        · rw [Option.or_none]
    · rw [noteLabel_cases_ne b src dst label hid, if_neg (fun hc => hid hc.1.symm), Option.or_none]

theorem linkSegments_spec (exits : List ExitEdge) (t : Str) : ∀ {b : Builder}, Sane b →
    (∀ x ∈ exits, x.src ∈ b.ids) →
    Sane (b.linkSegments exits t) ∧ (b.linkSegments exits t).steps = b.steps ∧
      (b.linkSegments exits t).edges = b.edges ++ links exits t ∧
      (b.linkSegments exits t).entry = b.entry ∧
      (b.linkSegments exits t).counter = b.counter := by
  induction exits with
  | nil => exact fun hb _ => ⟨hb, rfl, (List.append_nil _).symm, rfl, rfl⟩
  | cons x exits ih =>
    intro b hb hsrc
    have hstep := hb.addEdge t x.label (hsrc x List.mem_cons_self)
    have hids := addEdge_ids b x.src t x.label
    obtain ⟨h1, h2, h3, h4, h5⟩ := ih hstep
      (fun y hy => hids ▸ hsrc y (List.mem_cons_of_mem _ hy))
    refine ⟨h1, h2.trans (noteLabel_steps ..), ?_, h4.trans (noteLabel_entry ..),
      h5.trans (noteLabel_counter ..)⟩
    exact h3.trans (List.append_assoc ..)

theorem isSwitch_mem {id : Str} (h : b.isSwitch id = true) : id ∈ b.ids := by
  obtain ⟨s, hs, hid⟩ := List.any_eq_true.mp h
  rw [Bool.and_eq_true, decide_eq_true_eq] at hid
  exact hid.1 ▸ List.mem_map_of_mem hs

theorem addCase_eq (switchId entry v : Str) :
    addCase switchId entry b v =
      { b.setCases switchId (setItem v entry (b.cases switchId)) with
        edges := b.edges ++ [⟨switchId, entry, some v⟩] } := by
  have hknown : v ∈ ((b.setCases switchId (setItem v entry (b.cases switchId))).cases
      switchId).map Prod.fst := by
    rw [mem_keys_iff]
    refine ⟨entry, ?_⟩
    rw [Builder.setCases]
    simp only [if_true, find_setItem]
  rw [addCase, Builder.addEdge, Builder.noteLabel, Builder.noteCase, if_neg (fun h => h.2 hknown)]
  rfl

theorem Sane.addCase {switchId entry : Str} (hb : Sane b) (hsw : b.isSwitch switchId = true)
    (hone : ∀ v d, labelled switchId v b.edges = some d → d = entry) (v : Str) :
    Sane (addCase switchId entry b v) := by
  have hmem := isSwitch_mem hsw
  rw [addCase_eq]
  refine ⟨hb.nodup, fun e he => ?_, fun id hid => ?_, fun id u hid => ?_⟩
  · rcases List.mem_append.mp he with he | he
    · exact hb.src e he
    · rw [List.mem_singleton.mp he]
      exact hmem
  · have hne : id ≠ switchId := by
      rintro rfl
      exact hid hmem
    exact (if_neg hne).trans (hb.unknown id hid)
  · change OrderedDict.find u (if id = switchId then _ else b.cases id) =
      labelled id u (b.edges ++ [⟨switchId, entry, some v⟩])
    rw [labelled_append_edge]
    by_cases hne : id = switchId
    · subst hne
      rw [if_pos rfl, find_setItem, hb.follow id u hsw]
      by_cases huv : u = v
      · subst huv
        rw [if_pos rfl, if_pos ⟨rfl, rfl⟩]
        cases hl : labelled id u b.edges with
        | none => rfl
        | some d => rw [hone u d hl]; rfl
      · have hother : ¬(id = id ∧ some v = some u) := fun hc => huv (Option.some.inj hc.2).symm
        rw [if_neg huv, if_neg hother, Option.or_none]
    · have hother : ¬(switchId = id ∧ some v = some u) := fun hc => hne hc.1.symm
      rw [if_neg hne, if_neg hother, Option.or_none]
      exact hb.follow id u hid

theorem addCases_spec (switchId entry : Str) (vs : List Str) : ∀ {b : Builder}, Sane b →
    b.isSwitch switchId = true →
    (∀ v d, labelled switchId v b.edges = some d → d = entry) →
    Sane (vs.foldl (addCase switchId entry) b) ∧
      (vs.foldl (addCase switchId entry) b).steps = b.steps ∧
      (vs.foldl (addCase switchId entry) b).edges =
        b.edges ++ vs.map (fun v => ⟨switchId, entry, some v⟩) ∧
      (vs.foldl (addCase switchId entry) b).entry = b.entry ∧
      (vs.foldl (addCase switchId entry) b).counter = b.counter := by
  induction vs with
  | nil => exact fun hb _ _ => ⟨hb, rfl, (List.append_nil _).symm, rfl, rfl⟩
  | cons v vs ih =>
    intro b hb hsw hone
    have hstep := hb.addCase hsw hone v
    have hone' : ∀ u d, labelled switchId u (addCase switchId entry b v).edges = some d →
        d = entry := by
      intro u d hd
      rw [addCase_eq] at hd
      change labelled switchId u (b.edges ++ [⟨switchId, entry, some v⟩]) = some d at hd
      rw [labelled_append_edge] at hd
      cases hl : labelled switchId u b.edges with
      | some d' =>
        rw [hl] at hd
        cases hd
        exact hone u _ hl
      | none =>
        rw [hl, Option.none_or] at hd
        split_ifs at hd
        exact (Option.some.inj hd).symm
    have hsw' : (addCase switchId entry b v).isSwitch switchId = true := by
      rw [addCase_eq]
      exact hsw
    obtain ⟨h1, h2, h3, h4, h5⟩ := ih hstep hsw' hone'
    rw [addCase_eq] at h1 h2 h3 h4 h5
    rw [List.foldl_cons, addCase_eq]
    exact ⟨h1, h2, h3.trans (List.append_assoc ..), h4, h5⟩

end builder

section compile

variable {eval : LiteralEval}

mutual

inductive Lays (eval : LiteralEval) : WdlStep → Block → Prop where
  | call (id target : Str) (args : List Named) (location : SourceSpan) :
      Lays eval (.call id target args location) (.call id target)
  | when {condition : Str} {steps : List WdlStep} {location : SourceSpan} {c : Condition}
      {body : List Block} (id : Str) (hc : parseCondition eval condition location = .ok c)
      (hbody : LaysAll eval steps body) (hne : steps ≠ []) :
      Lays eval (.when condition steps location) (.when id (strip condition) c body)

inductive LaysAll (eval : LiteralEval) : List WdlStep → List Block → Prop where
  | nil : LaysAll eval [] []
  | cons {s : WdlStep} {ss : List WdlStep} {b : Block} {bs : List Block} (h : Lays eval s b)
      (hs : LaysAll eval ss bs) : LaysAll eval (s :: ss) (b :: bs)

end

structure Adds (b : Builder) (tags : List (Str × Shape)) (edges : List FlowEdge) (b' : Builder) :
    Prop where
  sane : Sane b'
  steps : b'.steps.map FlowStep.tag = b.steps.map FlowStep.tag ++ tags
  edges : b'.edges = b.edges ++ edges
  entry : b'.entry = b.entry.orElse (fun _ => tags.head?.map Prod.fst)

variable {b b' b'' : Builder}

theorem ids_tags (b : Builder) : (b.steps.map FlowStep.tag).map Prod.fst = b.ids := by
  rw [List.map_map]
  rfl

theorem Adds.ids {tags : List (Str × Shape)} {edges : List FlowEdge} (h : Adds b tags edges b') :
    b'.ids = b.ids ++ tags.map Prod.fst := by
  rw [← ids_tags, h.steps, List.map_append, ids_tags]

theorem Adds.trans {tags tags' : List (Str × Shape)} {edges edges' : List FlowEdge}
    (h : Adds b tags edges b') (h' : Adds b' tags' edges' b'') :
    Adds b (tags ++ tags') (edges ++ edges') b'' := by
  refine ⟨h'.sane, ?_, ?_, ?_⟩
  · rw [h'.steps, h.steps, List.append_assoc]
  · rw [h'.edges, h.edges, List.append_assoc]
  · rw [h'.entry, h.entry]
    cases b.entry <;> cases tags <;> rfl

theorem Adds.link {tags : List (Str × Shape)} {edges : List FlowEdge} (h : Adds b tags edges b')
    (exits : List ExitEdge) (t : Str) (hsrc : ∀ x ∈ exits, x.src ∈ b'.ids) :
    Adds b tags (edges ++ links exits t) (b'.linkSegments exits t) := by
  obtain ⟨h1, h2, h3, h4, -⟩ := linkSegments_spec exits t h.sane hsrc
  exact ⟨h1, by rw [h2, h.steps], by rw [h3, h.edges, List.append_assoc], by rw [h4, h.entry]⟩

theorem Adds.addStep {s : FlowStep} (hb : Sane b) (h : s.id ∉ b.ids) :
    Adds b [s.tag] []
      { b with steps := b.steps ++ [s], entry := b.entry.orElse (fun _ => some s.id) } :=
  ⟨hb.addStep h, List.map_append, (List.append_nil _).symm, rfl⟩

theorem Sane.counter (hb : Sane b) (n : ℕ) : Sane { b with counter := n } :=
  ⟨hb.nodup, hb.src, hb.unknown, hb.follow⟩

theorem isSwitch_of_tag {id key : Str} (h : (id, Shape.switch key) ∈ b.steps.map FlowStep.tag) :
    b.isSwitch id = true := by
  obtain ⟨s, hs, htag⟩ := List.mem_map.mp h
  refine List.any_eq_true.mpr ⟨s, hs, ?_⟩
  obtain ⟨hid, hkind⟩ := Prod.mk.inj htag
  rw [Bool.and_eq_true, decide_eq_true_eq]
  refine ⟨hid, ?_⟩
  cases hk : s.kind with
  | switch k => rfl
  | call target args => rw [hk] at hkind; cases hkind
  | emit outputs => rw [hk] at hkind; cases hkind
  | finish => rw [hk] at hkind; cases hkind

theorem link_unless_empty (exits : List ExitEdge) (t : Str) (b : Builder) :
    (if exits.isEmpty then b else b.linkSegments exits t) = b.linkSegments exits t := by
  cases exits <;> rfl

theorem sequenceGraph_ok {entry : Option Str} {exits : List ExitEdge} {g : SequenceGraph}
    (h : sequenceGraph entry exits = .ok g) : entry = some g.entry ∧ g.exits = exits := by
  cases entry with
  | none => cases h
  | some e =>
    cases h
    exact ⟨rfl, rfl⟩

theorem LaysAll.ne_nil {ss : List WdlStep} {bs : List Block} (h : LaysAll eval ss bs)
    (hne : bs ≠ []) : ss ≠ [] := by
  cases h with
  | nil => exact absurd rfl hne
  | cons _ _ => exact List.cons_ne_nil _ _

theorem compileCall_spec {id target : Str} {args : List Named} {location : SourceSpan}
    (hb : Sane b) {r : SequenceGraph × Builder}
    (h : compileCall id target args location b = .ok r) :
    r.1 = ⟨id, [⟨id, none⟩]⟩ ∧ Adds b [(id, .call target)] [] r.2 := by
  rw [compileCall] at h
  split_ifs at h
  obtain ⟨rendered, -, h⟩ := Fallible.bind_eq_ok.mp h
  obtain ⟨b', hadd, h⟩ := Fallible.bind_eq_ok.mp h
  cases h
  obtain ⟨hfresh, rfl⟩ := addStep_ok hadd
  exact ⟨rfl, Adds.addStep hb hfresh⟩

theorem closeWhen_spec {switchId : Str} (label : Str) {c : Condition} {body : List Block}
    {nested : SequenceGraph} {b₁ : Builder}
    (hb : Adds b [(switchId, .switch c.keyFrom)] [] b₁)
    (hbody : Adds b₁ (tagsAll body) (edgesAll [] body) b')
    (hentry : nested.entry = entryOf body []) (hexits : nested.exits = exitsAll [] body)
    (hfresh : ∀ e ∈ b.edges, e.src ≠ switchId) :
    (closeWhen switchId c nested b').1.entry = switchId ∧
      (closeWhen switchId c nested b').1.exits = exitsOf (.when switchId label c body) ∧
      Adds b (tagsOf (.when switchId label c body)) (edgesOf (.when switchId label c body))
        (closeWhen switchId c nested b').2 := by
  have hall := hb.trans hbody
  have hsw : b'.isSwitch switchId = true := by
    have htag : (switchId, Shape.switch c.keyFrom) ∈ b'.steps.map FlowStep.tag := by
      rw [hall.steps]
      exact List.mem_append_right _ List.mem_cons_self
    exact isSwitch_of_tag htag
  have hnodup := hall.sane.nodup
  rw [hall.ids, List.nodup_append] at hnodup
  have hnot : switchId ∉ namesAll body := (List.nodup_cons.mp hnodup.2.1).1
  have hout : ∀ e ∈ b'.edges, e.src ≠ switchId := by
    intro e he
    rw [hall.edges, List.nil_append] at he
    rcases List.mem_append.mp he with he | he
    · exact hfresh e he
    · rcases edgesAll_src [] body e he with ⟨x, hx, -⟩ | hm
      · cases hx
      · exact fun heq => hnot (heq ▸ hm)
  obtain ⟨h1, h2, h3, h4, -⟩ := addCases_spec switchId nested.entry c.caseValues
    hall.sane hsw (fun v d hd => by rw [labelled_none hout] at hd; cases hd)
  refine ⟨rfl, by rw [closeWhen, exitsOf, hexits], h1, ?_, ?_, ?_⟩
  · rw [closeWhen, h2, hall.steps]
    rfl
  · rw [closeWhen, h3, hall.edges, hentry, edgesOf, List.nil_append, List.append_assoc]
    rfl
  · rw [closeWhen, h4, hall.entry]
    rfl

mutual

theorem compileStep_spec : ∀ (s : WdlStep) {b : Builder} {r : SequenceGraph × Builder}, Sane b →
    compileStep eval s b = .ok r →
    ∃ blk, Lays eval s blk ∧ r.1.entry = blk.id ∧ r.1.exits = exitsOf blk ∧
      Adds b (tagsOf blk) (edgesOf blk) r.2
  | .call id target args location, b, r => by
    intro hb h
    rw [compileStep] at h
    obtain ⟨hg, hadds⟩ := compileCall_spec hb h
    exact ⟨.call id target, .call .., by rw [hg]; rfl, by rw [hg]; rfl, hadds⟩
  | .when condition steps location, b, r => by
    intro hb h
    rw [compileStep] at h
    obtain ⟨c, hc, h⟩ := Fallible.bind_eq_ok.mp h
    obtain ⟨b₁, hadd, h⟩ := Fallible.bind_eq_ok.mp h
    obtain ⟨q, hloop, h⟩ := Fallible.bind_eq_ok.mp h
    obtain ⟨nested, hnested, h⟩ := Fallible.bind_eq_ok.mp h
    cases h
    obtain ⟨hfresh, rfl⟩ := addStep_ok hadd
    have hb₁ := Adds.addStep (hb.counter _) hfresh
    obtain ⟨bs, hlays, hentry, hexits, hadds⟩ := compileLoop_spec steps none [] hb₁.sane
      (fun x hx => by cases hx) hloop
    obtain ⟨hsome, hgexits⟩ := sequenceGraph_ok hnested
    rw [hentry] at hsome
    have hne : bs ≠ [] := by
      rintro rfl
      cases hsome
    have hgentry : nested.entry = entryOf bs [] := by
      cases bs with
      | nil => exact absurd rfl hne
      | cons x xs => exact (Option.some.inj hsome).symm
    obtain ⟨h1, h2, h3⟩ := closeWhen_spec (strip condition) hb₁ hadds hgentry
      (hgexits.trans hexits) (fun e he heq => hfresh (heq ▸ hb.src e he))
    exact ⟨.when _ (strip condition) c bs, .when _ hc hlays (hlays.ne_nil hne), h1, h2,
      ⟨h3.sane, h3.steps, h3.edges, h3.entry⟩⟩

theorem compileLoop_spec : ∀ (ss : List WdlStep) (entry : Option Str) (exits : List ExitEdge)
    {b : Builder} {r : Option Str × List ExitEdge × Builder}, Sane b →
    (∀ x ∈ exits, x.src ∈ b.ids) → compileLoop eval ss entry exits b = .ok r →
    ∃ bs, LaysAll eval ss bs ∧ r.1 = entry.orElse (fun _ => bs.head?.map Block.id) ∧
      r.2.1 = exitsAll exits bs ∧ Adds b (tagsAll bs) (edgesAll exits bs) r.2.2
  | [], entry, exits, b, r => by
    intro hb _ h
    rw [compileLoop] at h
    cases h
    refine ⟨[], .nil, by cases entry <;> rfl, rfl, hb, (List.append_nil _).symm,
      (List.append_nil _).symm, by cases b.entry <;> rfl⟩
  | s :: ss, entry, exits, b, r => by
    intro hb hexits h
    rw [compileLoop] at h
    obtain ⟨q, hstep, h⟩ := Fallible.bind_eq_ok.mp h
    simp only [link_unless_empty] at h
    obtain ⟨blk, hlays, hqentry, hqexits, hadds⟩ := compileStep_spec s hb hstep
    have hlinked := hadds.link exits q.1.entry
      (fun x hx => hadds.ids ▸ List.mem_append_left _ (hexits x hx))
    have hsrc : ∀ x ∈ q.1.exits, x.src ∈ (q.2.linkSegments exits q.1.entry).ids := by
      intro x hx
      rw [hqexits] at hx
      rw [hlinked.ids]
      exact List.mem_append_right _ (exitsOf_src blk x hx)
    obtain ⟨bs, hall, hrentry, hrexits, hrest⟩ := compileLoop_spec ss _ _ hlinked.sane hsrc h
    refine ⟨blk :: bs, .cons hlays hall, ?_, ?_, ?_⟩
    · rw [hrentry, hqentry]
      cases entry <;> rfl
    · rw [hrexits, exitsAll, hqexits]
    · have hadds' := hlinked.trans hrest
      rw [hqentry, hqexits] at hadds'
      exact hadds'

end

structure LaidOut (f : FlowCompilation) (bs : List Block) (emit finish : Str) : Prop where
  steps : f.steps.map FlowStep.tag = tagsAll bs ++ [(emit, .emit), (finish, .finish)]
  nodup : (namesAll bs ++ [emit, finish]).Nodup
  edges : f.edges = edgesAll [] bs ++ links (exitsAll [] bs) emit ++ [⟨emit, finish, none⟩]
  entry : f.entry = entryOf bs emit
  follow : ∀ id v key, (id, Shape.switch key) ∈ f.steps.map FlowStep.tag →
    OrderedDict.find v (f.cases id) = labelled id v f.edges

theorem sane_empty : Sane {} :=
  ⟨List.nodup_nil, fun e he => (by cases he), fun _ _ => rfl, fun _ _ h => (by cases h)⟩

theorem compileSequence_spec {ss : List WdlStep} {r : SequenceGraph × Builder} (hb : Sane b)
    (h : compileSequence eval ss b = .ok r) :
    ∃ bs, LaysAll eval ss bs ∧ bs ≠ [] ∧ r.1.entry = entryOf bs [] ∧ r.1.exits = exitsAll [] bs ∧
      Adds b (tagsAll bs) (edgesAll [] bs) r.2 := by
  obtain ⟨q, hloop, h⟩ := Fallible.bind_eq_ok.mp h
  obtain ⟨g, hg, h⟩ := Fallible.bind_eq_ok.mp h
  cases h
  obtain ⟨bs, hlays, hentry, hexits, hadds⟩ := compileLoop_spec ss none [] hb
    (fun x hx => by cases hx) hloop
  obtain ⟨hsome, hgexits⟩ := sequenceGraph_ok hg
  rw [hentry] at hsome
  cases bs with
  | nil => cases hsome
  | cons x xs =>
    exact ⟨x :: xs, hlays, List.cons_ne_nil _ _, (Option.some.inj hsome).symm,
      hgexits.trans hexits, hadds⟩

theorem addOutputsStep_spec {w : WdlWorkflow} {r : Str × Builder} (hb : Sane b)
    (h : addOutputsStep w b = .ok r) : Adds b [(r.1, .emit)] [] r.2 := by
  obtain ⟨rendered, -, h⟩ := Fallible.bind_eq_ok.mp h
  obtain ⟨b₁, hadd, h⟩ := Fallible.bind_eq_ok.mp h
  cases h
  obtain ⟨hfresh, rfl⟩ := addStep_ok hadd
  have hadds := Adds.addStep (hb.counter _) hfresh
  exact ⟨hadds.sane, hadds.steps, hadds.edges, hadds.entry⟩

theorem addFinishStep_spec {w : WdlWorkflow} {r : Str × Builder} (hb : Sane b)
    (h : addFinishStep w b = .ok r) : Adds b [(r.1, .finish)] [] r.2 := by
  obtain ⟨b₁, hadd, h⟩ := Fallible.bind_eq_ok.mp h
  cases h
  obtain ⟨hfresh, rfl⟩ := addStep_ok hadd
  have hadds := Adds.addStep (hb.counter _) hfresh
  exact ⟨hadds.sane, hadds.steps, hadds.edges, hadds.entry⟩

theorem Adds.laidOut {f : FlowCompilation} {bs : List Block} {emit finish : Str} (hne : bs ≠ [])
    (h : Adds {} (tagsAll bs ++ [(emit, .emit)] ++ [(finish, .finish)])
      (edgesAll [] bs ++ links (exitsAll [] bs) emit ++ [⟨emit, finish, none⟩]) b)
    (hsteps : f.steps = b.steps) (hcases : f.cases = b.cases) (hedges : f.edges = b.edges)
    (hentry : f.entry = b.entry.getD emit) : LaidOut f bs emit finish where
  steps := by rw [hsteps, h.steps, List.append_assoc]; rfl
  nodup := by
    have hnodup := h.sane.nodup
    rw [h.ids, List.append_assoc, List.map_append] at hnodup
    exact hnodup
  edges := by rw [hedges, h.edges]; rfl
  entry := by
    rw [hentry, h.entry]
    cases bs with
    | nil => exact absurd rfl hne
    | cons x xs => cases x <;> rfl
  follow id v key hm := by
    rw [hcases, hedges]
    exact h.sane.follow id v (isSwitch_of_tag (hsteps ▸ hm))

theorem compileWorkflow_laidOut {w : WdlWorkflow} {f : FlowCompilation}
    (h : compileWorkflow eval w = .ok f) :
    ∃ bs emit finish, LaysAll eval w.steps bs ∧ bs ≠ [] ∧ LaidOut f bs emit finish := by
  rw [compileWorkflow] at h
  split_ifs at h
  obtain ⟨main, hmain, h⟩ := Fallible.bind_eq_ok.mp h
  obtain ⟨outputs, houtputs, h⟩ := Fallible.bind_eq_ok.mp h
  obtain ⟨fin, hfinish, h⟩ := Fallible.bind_eq_ok.mp h
  cases h
  obtain ⟨bs, hlays, hne, -, hexits, hadds⟩ := compileSequence_spec sane_empty hmain
  have hout := hadds.trans (addOutputsStep_spec hadds.sane houtputs)
  have hlinked := hout.link main.1.exits outputs.1 (fun x hx => by
    rw [hexits] at hx
    rw [hout.ids, List.map_append]
    rcases exitsAll_src [] bs x hx with hx | hx
    · cases hx
    · exact List.mem_append_right _ (List.mem_append_left _ hx))
  have hfin := hlinked.trans (addFinishStep_spec hlinked.sane hfinish)
  have hall := hfin.link [⟨outputs.1, none⟩] fin.1 (fun x hx => by
    rw [List.mem_singleton.mp hx, hfin.ids]
    simp)
  rw [hexits, List.append_nil, List.append_nil] at hall
  exact ⟨bs, outputs.1, fin.1, hlays, hne, hall.laidOut hne rfl rfl rfl rfl⟩

end compile

end TraceMind.Dsl
