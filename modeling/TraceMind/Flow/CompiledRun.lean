import TraceMind.Dsl.Placement
import TraceMind.Dsl.SourceRun
import TraceMind.Flow.Immediate

namespace TraceMind.Recipe

open Dsl

section decisions

variable {W : Type}

def runtimeEnters : Decision W := fun _ next _ => decide (next ≠ some defaultCase)

mutual

def obeyed (eval : LiteralEval) (E : Calls W) (inputs : Fields) :
    WdlStep → Option Str → Memory W → Bool
  | .call _ _ args _, _, m =>
    match renderNamed args with
    | .error _ => false
    | .ok rendered => readable E.literal (ensureState m.state) (.obj rendered)
  | .when condition steps location, next, m =>
    match parseCondition eval condition location with
    | .error _ => false
    | .ok c => (c.holds inputs m.results == decide (next ≠ some defaultCase)) &&
        (!c.holds inputs m.results || obeyedAll eval E inputs steps next m)

def obeyedAll (eval : LiteralEval) (E : Calls W) (inputs : Fields) :
    List WdlStep → Option Str → Memory W → Bool
  | [], _, _ => true
  | s :: ss, next, m => obeyed eval E inputs s (nextCall ss next) m &&
      match walk eval E (meant inputs) s (nextCall ss next) m with
      | .error _ => false
      | .ok r => obeyedAll eval E inputs ss next r.2

end

variable {eval : LiteralEval} {E : Calls W} {inputs : Fields}

theorem obeyed_call {id target : Str} {args : List Named} {location : SourceSpan}
    {next : Option Str} {m : Memory W} :
    obeyed eval E inputs (.call id target args location) next m = true ↔
      ∃ rendered, renderNamed args = .ok rendered ∧
        readable E.literal (ensureState m.state) (.obj rendered) = true := by
  rw [obeyed]
  cases renderNamed args with
  | error e => simp
  | ok rendered => simp

theorem obeyed_when {condition : Str} {steps : List WdlStep} {location : SourceSpan}
    {next : Option Str} {m : Memory W} :
    obeyed eval E inputs (.when condition steps location) next m = true ↔
      ∃ c, parseCondition eval condition location = .ok c ∧
        c.holds inputs m.results = decide (next ≠ some defaultCase) ∧
        (c.holds inputs m.results = true → obeyedAll eval E inputs steps next m = true) := by
  rw [obeyed]
  cases parseCondition eval condition location with
  | error e => simp
  | ok c => cases hc : c.holds inputs m.results <;> simp [hc]

theorem obeyedAll_cons {s : WdlStep} {ss : List WdlStep} {next : Option Str} {m : Memory W} :
    obeyedAll eval E inputs (s :: ss) next m = true ↔
      obeyed eval E inputs s (nextCall ss next) m = true ∧
        ∃ r, walk eval E (meant inputs) s (nextCall ss next) m = .ok r ∧
          obeyedAll eval E inputs ss next r.2 = true := by
  rw [obeyedAll]
  cases walk eval E (meant inputs) s (nextCall ss next) m with
  | error e => simp
  | ok r => simp

theorem callStep_ok (id target : Str) {args : Fields} {m : Memory W}
    (h : readable E.literal (ensureState m.state) (.obj args) = true) :
    ∃ q, callStep E id target args m = .ok q := by
  obtain ⟨r, hr⟩ := (invoke_ok_iff E id target none args (m.state, m.world)).mpr h
  exact ⟨_, Fallible.map_eq_ok.mpr ⟨r, hr, rfl⟩⟩

mutual

theorem obeyed_walk : ∀ (s : WdlStep) {next : Option Str} {m : Memory W},
    obeyed eval E inputs s next m = true →
    ∃ r, walk eval E (meant inputs) s next m = .ok r ∧
      walk eval E runtimeEnters s next m = .ok r
  | .call id target args location, next, m => by
    intro h
    obtain ⟨rendered, hr, hread⟩ := obeyed_call.mp h
    obtain ⟨q, hq⟩ := callStep_ok id target hread
    exact ⟨_, walk_call.mpr ⟨rendered, q, hr, hq, rfl⟩, walk_call.mpr ⟨rendered, q, hr, hq, rfl⟩⟩
  | .when condition steps location, next, m => by
    intro h
    obtain ⟨c, hc, hsame, hbody⟩ := obeyed_when.mp h
    cases hholds : c.holds inputs m.results with
    | true =>
      obtain ⟨r, hsource, hruntime⟩ := obeyedAll_walk steps (hbody hholds)
      rw [hholds] at hsame
      exact ⟨(none :: r.1, r.2), walk_when.mpr ⟨c, r, hc, (if_pos hholds).trans hsource, rfl⟩,
        walk_when.mpr ⟨c, r, hc, (if_pos hsame.symm).trans hruntime, rfl⟩⟩
    | false =>
      rw [hholds] at hsame
      have hskip : ¬runtimeEnters c next m = true := by
        rw [runtimeEnters, ← hsame]
        exact Bool.false_ne_true
      refine ⟨([none], m), walk_when.mpr ⟨c, ([], m), hc, if_neg ?_, rfl⟩,
        walk_when.mpr ⟨c, ([], m), hc, if_neg hskip, rfl⟩⟩
      rw [meant, hholds]
      exact Bool.false_ne_true

theorem obeyedAll_walk : ∀ (ss : List WdlStep) {next : Option Str} {m : Memory W},
    obeyedAll eval E inputs ss next m = true →
    ∃ r, walkAll eval E (meant inputs) ss next m = .ok r ∧
      walkAll eval E runtimeEnters ss next m = .ok r
  | [], next, m => fun _ => ⟨([], m), rfl, rfl⟩
  | s :: ss, next, m => by
    intro h
    obtain ⟨hs, q, hq, hss⟩ := obeyedAll_cons.mp h
    obtain ⟨q', hq', hrun⟩ := obeyed_walk s hs
    obtain rfl : q = q' := Except.ok.inj (hq.symm.trans hq')
    obtain ⟨r, hsource, hruntime⟩ := obeyedAll_walk ss hss
    exact ⟨_, walkAll_cons.mpr ⟨q, r, hq, hsource, rfl⟩,
      walkAll_cons.mpr ⟨q, r, hrun, hruntime, rfl⟩⟩

end

end decisions

section divergence

variable {W : Type} {eval : LiteralEval} {E : Calls W}

mutual

theorem runtime_calls : ∀ (s : WdlStep) {next : Option Str} {m : Memory W}
    {r : List Event × Memory W}, wellFormed eval s = true → next ≠ some defaultCase →
    walk eval E runtimeEnters s next m = .ok r → ∃ i, some i ∈ r.1
  | .call id target args location, next, m, r => by
    intro _ _ h
    obtain ⟨rendered, q, -, -, rfl⟩ := walk_call.mp h
    exact ⟨q.1, List.mem_cons_self⟩
  | .when condition steps location, next, m, r => by
    intro hwf hnext h
    rw [wellFormed, Bool.and_eq_true, Bool.and_eq_true] at hwf
    obtain ⟨c, q, -, hq, rfl⟩ := walk_when.mp h
    rw [if_pos (show runtimeEnters c next m = true from decide_eq_true hnext)] at hq
    have hne : steps ≠ [] := by
      rintro rfl
      exact absurd hwf.1.2 (by simp)
    obtain ⟨i, hi⟩ := runtime_callsAll steps hwf.2 hne hnext hq
    exact ⟨i, List.mem_cons_of_mem _ hi⟩

theorem runtime_callsAll : ∀ (ss : List WdlStep) {next : Option Str} {m : Memory W}
    {r : List Event × Memory W}, wellFormedAll eval ss = true → ss ≠ [] →
    next ≠ some defaultCase → walkAll eval E runtimeEnters ss next m = .ok r →
    ∃ i, some i ∈ r.1
  | [], next, m, r => fun _ hne _ _ => absurd rfl hne
  | s :: ss, next, m, r => by
    intro hwf _ hnext h
    rw [wellFormedAll, Bool.and_eq_true] at hwf
    obtain ⟨q, qs, hq, hqs, rfl⟩ := walkAll_cons.mp h
    cases ss with
    | nil =>
      obtain ⟨i, hi⟩ := runtime_calls s hwf.1 hnext hq
      exact ⟨i, List.mem_append_left _ hi⟩
    | cons s' ss =>
      obtain ⟨i, hi⟩ := runtime_callsAll (s' :: ss) hwf.2 (List.cons_ne_nil _ _) hnext hqs
      exact ⟨i, List.mem_append_right _ hi⟩

end

def shown (es : List Event) : List (Option Str) := es.map (Option.map Invocation.step)

theorem shown_append (es fs : List Event) : shown (es ++ fs) = shown es ++ shown fs :=
  List.map_append

theorem mem_shown {es : List Event} {id : Str} :
    some id ∈ shown es ↔ ∃ i, some i ∈ es ∧ i.step = id := by
  rw [shown, List.mem_map]
  constructor
  · rintro ⟨e, he, hid⟩
    obtain ⟨i, rfl, rfl⟩ := Option.map_eq_some_iff.mp hid
    exact ⟨i, he, rfl⟩
  · rintro ⟨i, hi, rfl⟩
    exact ⟨some i, hi, rfl⟩

variable {enter : Decision W} {inputs : Fields}

theorem walk_ne_nil {s : WdlStep} {next : Option Str} {m : Memory W} {r : List Event × Memory W}
    (h : walk eval E enter s next m = .ok r) : r.1 ≠ [] := by
  cases s with
  | call id target args location =>
    obtain ⟨_, q, -, -, rfl⟩ := walk_call.mp h
    exact List.cons_ne_nil _ _
  | «when» condition steps location =>
    obtain ⟨c, q, -, -, rfl⟩ := walk_when.mp h
    exact List.cons_ne_nil _ _

theorem walkAll_ne_nil {ss : List WdlStep} {next : Option Str} {m : Memory W}
    {r : List Event × Memory W} (hne : ss ≠ []) (h : walkAll eval E enter ss next m = .ok r) :
    r.1 ≠ [] := by
  cases ss with
  | nil => exact absurd rfl hne
  | cons s ss =>
    obtain ⟨q, qs, hq, -, rfl⟩ := walkAll_cons.mp h
    exact List.append_ne_nil_of_left_ne_nil (walk_ne_nil hq) _

structure Behind (ids : List Str) (next : Option Str) (x y : List (Option Str)) : Prop where
  nodup : ids.Nodup
  later : ∀ id ∈ ids, some id ∉ x
  first : ∀ i, next = some i → i ∉ ids ∧ y.head? = some (some i)

theorem Behind.enters {ss : List WdlStep} {next : Option Str} {x y : List (Option Str)}
    {m : Memory W} {q : List Event × Memory W} (hne : ss ≠ [])
    (hb : Behind (callIds (itemsAll ss)) next x y) (hnext : next = some defaultCase)
    (hq : walkAll eval E enter ss next m = .ok q) : shown q.1 ++ x ≠ y := by
  intro heq
  obtain ⟨hnot, hhead⟩ := hb.first _ hnext
  rw [← heq] at hhead
  obtain ⟨e, es, hes⟩ := List.exists_cons_of_ne_nil (walkAll_ne_nil hne hq)
  have hshown : some defaultCase ∈ shown q.1 := by
    rw [hes] at hhead ⊢
    have hfirst : Option.map Invocation.step e = some defaultCase := by simpa [shown] using hhead
    rw [← hfirst]
    exact List.mem_map_of_mem List.mem_cons_self
  obtain ⟨i, hi, hid⟩ := mem_shown.mp hshown
  exact hnot (hid ▸ (walkAll_calls ss hq).1 i hi)

theorem Behind.left {ids ids' : List Str} {next : Option Str} {x y u v : List (Option Str)}
    (hb : Behind (ids ++ ids') next x y) (hu : ∀ id, some id ∈ u → id ∈ ids')
    {next' : Option Str}
    (hnext : ∀ i, next' = some i → i ∉ ids ∧ (v ++ y).head? = some (some i)) :
    Behind ids next' (u ++ x) (v ++ y) := by
  obtain ⟨hids, -, hdisj⟩ := List.nodup_append.mp hb.nodup
  refine ⟨hids, fun id hid hmem => ?_, hnext⟩
  rcases List.mem_append.mp hmem with hmem | hmem
  · exact hdisj id hid id (hu id hmem) rfl
  · exact hb.later id (List.mem_append_left _ hid) hmem

theorem Behind.right {ids ids' : List Str} {next : Option Str} {x y : List (Option Str)}
    (hb : Behind (ids ++ ids') next x y) : Behind ids' next x y := by
  obtain ⟨-, hids, -⟩ := List.nodup_append.mp hb.nodup
  refine ⟨hids, fun id hid => hb.later id (List.mem_append_right _ hid), fun i hi => ?_⟩
  obtain ⟨hnot, hhead⟩ := hb.first i hi
  exact ⟨fun hm => hnot (List.mem_append_right _ hm), hhead⟩

theorem shown_calls {ss : List WdlStep} {next : Option Str} {m : Memory W}
    {r : List Event × Memory W} (h : walkAll eval E enter ss next m = .ok r) {id : Str}
    (hid : some id ∈ shown r.1) : id ∈ callIds (itemsAll ss) := by
  obtain ⟨i, hi, rfl⟩ := mem_shown.mp hid
  exact (walkAll_calls ss h).1 i hi

theorem nextCall_first {ids : List Str} {ss : List WdlStep} {next : Option Str} {m : Memory W}
    {r : List Event × Memory W} {x y : List (Option Str)}
    (hb : Behind (ids ++ callIds (itemsAll ss)) next x y)
    (h : walkAll eval E enter ss next m = .ok r) (i : Str) (hi : nextCall ss next = some i) :
    i ∉ ids ∧ (shown r.1 ++ y).head? = some (some i) := by
  by_cases hss : ss = []
  · subst hss
    rw [walkAll] at h
    cases h
    obtain ⟨hnot, hhead⟩ := hb.first i hi
    exact ⟨fun hm => hnot (List.mem_append_left _ hm), hhead⟩
  · obtain ⟨e, rest, hr, rfl⟩ := walkAll_head h hi hss
    have hmem : e.step ∈ callIds (itemsAll ss) :=
      (walkAll_calls ss h).1 e (hr ▸ List.mem_cons_self)
    refine ⟨fun hm => (List.nodup_append.mp hb.nodup).2.2 _ hm _ hmem rfl, ?_⟩
    rw [hr]
    rfl

mutual

theorem obeyed_of_shown : ∀ (s : WdlStep) {next : Option Str} {m : Memory W}
    {r r' : List Event × Memory W} {x y : List (Option Str)}, wellFormed eval s = true →
    walk eval E (meant inputs) s next m = .ok r → walk eval E runtimeEnters s next m = .ok r' →
    shown r.1 ++ x = shown r'.1 ++ y → Behind (callIds (itemsOf s)) next x y →
    obeyed eval E inputs s next m = true ∧ r = r'
  | .call id target args location, next, m, r, r', x, y => by
    intro _ h h' _ _
    obtain ⟨rendered, q, hr, hq, rfl⟩ := walk_call.mp h
    obtain ⟨rendered', q', hr', hq', rfl⟩ := walk_call.mp h'
    obtain rfl := Except.ok.inj (hr.symm.trans hr')
    obtain rfl := Except.ok.inj (hq.symm.trans hq')
    obtain ⟨u, hu, -⟩ := Fallible.map_eq_ok.mp hq
    exact ⟨obeyed_call.mpr ⟨rendered, hr, (invoke_ok_iff E id target none rendered (m.state, m.world)).mp ⟨u, hu⟩⟩, rfl⟩
  | .when condition steps location, next, m, r, r', x, y => by
    intro hwf h h' heq hb
    rw [wellFormed, Bool.and_eq_true, Bool.and_eq_true] at hwf
    have hne : steps ≠ [] := by
      rintro rfl
      exact absurd hwf.1.2 (by simp)
    obtain ⟨c, q, hc, hq, rfl⟩ := walk_when.mp h
    obtain ⟨c', q', hc', hq', rfl⟩ := walk_when.mp h'
    obtain rfl := Except.ok.inj (hc.symm.trans hc')
    have hrest : shown q.1 ++ x = shown q'.1 ++ y := (List.cons.inj heq).2
    rw [callIds_itemsOf_when] at hb
    by_cases hholds : c.holds inputs m.results = true
    · rw [if_pos (show meant inputs c next m = true from hholds)] at hq
      by_cases hnext : next = some defaultCase
      · have hskip : ¬runtimeEnters c next m = true := by simp [runtimeEnters, hnext]
        rw [if_neg hskip] at hq'
        cases hq'
        exact absurd hrest (hb.enters hne hnext hq)
      · rw [if_pos (show runtimeEnters c next m = true from decide_eq_true hnext)] at hq'
        obtain ⟨hbody, rfl⟩ := obeyedAll_of_shown steps hwf.2 hq hq' hrest hb
        refine ⟨obeyed_when.mpr ⟨c, hc, ?_, fun _ => hbody⟩, rfl⟩
        rw [hholds, decide_eq_true hnext]
    · rw [if_neg (show ¬meant inputs c next m = true from hholds)] at hq
      cases hq
      by_cases hnext : next = some defaultCase
      · have hskip : ¬runtimeEnters c next m = true := by simp [runtimeEnters, hnext]
        rw [if_neg hskip] at hq'
        cases hq'
        refine ⟨obeyed_when.mpr ⟨c, hc, ?_, fun ht => absurd ht hholds⟩, rfl⟩
        simp [hnext, hholds]
      · rw [if_pos (show runtimeEnters c next m = true from decide_eq_true hnext)] at hq'
        obtain ⟨i, hi⟩ := runtime_callsAll steps hwf.2 hne hnext hq'
        have hmem : some i.step ∈ x := by
          rw [show x = shown q'.1 ++ y from hrest]
          exact List.mem_append_left _ (mem_shown.mpr ⟨i, hi, rfl⟩)
        exact absurd hmem (hb.later _ ((walkAll_calls steps hq').1 i hi))

theorem obeyedAll_of_shown : ∀ (ss : List WdlStep) {next : Option Str} {m : Memory W}
    {r r' : List Event × Memory W} {x y : List (Option Str)}, wellFormedAll eval ss = true →
    walkAll eval E (meant inputs) ss next m = .ok r →
    walkAll eval E runtimeEnters ss next m = .ok r' →
    shown r.1 ++ x = shown r'.1 ++ y → Behind (callIds (itemsAll ss)) next x y →
    obeyedAll eval E inputs ss next m = true ∧ r = r'
  | [], next, m, r, r', x, y => by
    intro _ h h' _ _
    rw [walkAll] at h h'
    cases h
    cases h'
    exact ⟨rfl, rfl⟩
  | s :: ss, next, m, r, r', x, y => by
    intro hwf h h' heq hb
    rw [wellFormedAll, Bool.and_eq_true] at hwf
    obtain ⟨q, qs, hq, hqs, rfl⟩ := walkAll_cons.mp h
    obtain ⟨q', qs', hq', hqs', rfl⟩ := walkAll_cons.mp h'
    rw [callIds_itemsAll_cons] at hb
    rw [shown_append, shown_append, List.append_assoc, List.append_assoc] at heq
    have hfirst := hb.left (fun id => shown_calls hqs) (nextCall_first hb hqs')
    obtain ⟨hs, rfl⟩ := obeyed_of_shown s hwf.1 hq hq' heq hfirst
    obtain ⟨hss, rfl⟩ := obeyedAll_of_shown ss hwf.2 hqs hqs' (List.append_cancel_left heq) hb.right
    exact ⟨obeyedAll_cons.mpr ⟨hs, q, hq, hss⟩, rfl⟩

end

end divergence

section simulation

variable {W : Type} {eval : LiteralEval} {E : Calls W}

def StepDef.event (step : StepDef) : Option (Option Str) :=
  match step.operation, step.run with
  | .task, some .call => some (some step.name)
  | .switch, _ => some none
  | _, _ => none

def eventsOf (spec : FlowSpec) (executed : List Str) : List (Option Str) :=
  executed.filterMap (fun name => (spec.step name).bind StepDef.event)

structure Prepared (f : FlowCompilation) (spec : FlowSpec) (bs : List Block) (emit finish : Str) :
    Prop where
  laid : LaidOut f bs emit finish
  named : ∀ s ∈ f.steps, s.Named
  steps : spec.steps = f.steps.map (stepDef f (adjacencyOf f.edges))
  nonempty : ∀ s ∈ f.steps, s.id ≠ []

variable {f : FlowCompilation} {spec : FlowSpec} {bs : List Block} {emit finish : Str}

theorem Prepared.step (hp : Prepared f spec bs emit finish) {s : FlowStep} (hs : s ∈ f.steps) :
    spec.step s.id = some (stepDef f (adjacencyOf f.edges) s) := by
  obtain ⟨u, hu, huid, -⟩ := hp.laid.find_step (List.mem_map_of_mem (f := FlowStep.tag) hs)
  have hnodup : (f.steps.map FlowStep.id).Nodup := by
    rw [hp.laid.ids]
    exact hp.laid.nodup
  obtain rfl := List.inj_on_of_nodup_map hnodup (List.mem_of_find?_eq_some hu) hs huid
  rw [FlowSpec.step, hp.steps, List.find?_map]
  change (f.steps.find? (fun s => s.id = u.id)).map _ = _
  rw [hu]
  rfl

theorem Prepared.switch_step (hp : Prepared f spec bs emit finish) {id key : Str}
    (hm : (id, Shape.switch key) ∈ f.steps.map FlowStep.tag) :
    ∃ s ∈ f.steps, s.id = id ∧ s.kind = .switch key ∧ id ≠ defaultCase := by
  obtain ⟨s, hs, htag⟩ := List.mem_map.mp hm
  obtain ⟨rfl, hshape⟩ := Prod.mk.inj htag
  refine ⟨s, hs, rfl, ?_, ?_⟩
  · cases hk : s.kind with
    | switch k =>
      rw [hk] at hshape
      rw [Shape.switch.inj hshape]
    | call target args => rw [hk] at hshape; cases hshape
    | emit outputs => rw [hk] at hshape; cases hshape
    | finish => rw [hk] at hshape; cases hshape
  · rcases hp.named s hs with ⟨target, htarget⟩ | hne
    · rw [hshape] at htarget
      cases htarget
    · exact hne

theorem nextStep_single {s : FlowStep} {t : Str} (hop : operationOf s.kind = .task)
    (hout : f.outgoing s.id = [⟨s.id, t, none⟩]) :
    nextStep (stepDef f (adjacencyOf f.edges) s) = some t := by
  have hnext : (stepDef f (adjacencyOf f.edges) s).nextSteps = [t] :=
    congrArg (List.map FlowEdge.dst) hout
  rw [nextStep, show (stepDef f (adjacencyOf f.edges) s).operation = .task from hop]
  dsimp only
  rw [hnext]
  rfl

theorem nextStep_switch {s : FlowStep} {key t : Str} {c : Condition} {body : List Block}
    (hk : s.kind = .switch key) (hvalues : c.caseValues ≠ [])
    (hout : f.outgoing s.id =
      caseEdges s.id c (entryOf body []) ++ [⟨s.id, t, some defaultCase⟩]) :
    nextStep (stepDef f (adjacencyOf f.edges) s) =
      some (if t = defaultCase then t else entryOf body []) := by
  obtain ⟨v, vs, hvs⟩ := List.exists_cons_of_ne_nil hvalues
  have hnext : (stepDef f (adjacencyOf f.edges) s).nextSteps =
      c.caseValues.map (fun _ => entryOf body []) ++ [t] := by
    change (f.outgoing s.id).map FlowEdge.dst = _
    rw [hout, List.map_append, caseEdges, List.map_map]
    rfl
  have hop : (stepDef f (adjacencyOf f.edges) s).operation = .switch :=
    show operationOf s.kind = .switch by rw [hk]; rfl
  have hconfig : (stepDef f (adjacencyOf f.edges) s).config = switchConfig key (f.cases s.id) :=
    show f.configOf s = _ by rw [FlowCompilation.configOf, hk]
  have hdefault : textAt "default".toList (switchConfig key (f.cases s.id)) = some defaultCase :=
    rfl
  have hkey : textAt "key".toList (switchConfig key (f.cases s.id)) = none := rfl
  rw [nextStep, hop]
  dsimp only
  rw [hconfig, hkey, hdefault, StepDef.listed, StepDef.listed, hnext, hvs, Option.filter_none,
    Option.none_or, Option.filter_some]
  by_cases ht : t = defaultCase
  · simp [ht]
  · by_cases hentry : entryOf body [] = defaultCase
    · simp [ht, hentry]
    · have hmem : defaultCase ∉ List.map (fun _ => entryOf body []) (v :: vs) ++ [t] := by
        intro hm
        rcases List.mem_append.mp hm with hm | hm
        · obtain ⟨u, -, hu⟩ := List.mem_map.mp hm
          exact hentry hu
        · exact ht (List.mem_singleton.mp hm).symm
      rw [if_neg (by simpa using hmem), if_neg ht]
      rfl

theorem Prepared.run_call (hp : Prepared f spec bs emit finish) {id target : Str} {args : Fields}
    {location : SourceSpan} (hs : ⟨id, .call target args, location⟩ ∈ f.steps) (m : Memory W) :
    ∃ step, spec.step id = some step ∧ step.event = some (some id) ∧
      nextStep step = nextStep (stepDef f (adjacencyOf f.edges) ⟨id, .call target args, location⟩) ∧
      runStep E step (m.state, m.world) =
        (callStep E id target args m).map (fun q => (q.2.state, q.2.world)) := by
  refine ⟨_, hp.step hs, rfl, rfl, ?_⟩
  change Dsl.call E ⟨id, none, callConfig target args⟩ (m.state, m.world) = _
  rw [Dsl.call, callStep]
  cases invoke E ⟨id, none, callConfig target args⟩ (m.state, m.world) <;> rfl

theorem Prepared.run_switch (hp : Prepared f spec bs emit finish) {id key : Str}
    (hm : (id, Shape.switch key) ∈ f.steps.map FlowStep.tag) :
    ∃ s ∈ f.steps, s.id = id ∧ s.kind = .switch key ∧
      spec.step id = some (stepDef f (adjacencyOf f.edges) s) ∧
      (stepDef f (adjacencyOf f.edges) s).event = some none ∧
      ∀ x : Fields × W, runStep E (stepDef f (adjacencyOf f.edges) s) x = .ok x := by
  obtain ⟨s, hs, rfl, hk, -⟩ := hp.switch_step hm
  have hop : (stepDef f (adjacencyOf f.edges) s).operation = .switch :=
    show operationOf s.kind = .switch by rw [hk]; rfl
  refine ⟨s, hs, rfl, hk, hp.step hs, ?_, fun x => ?_⟩
  · rw [StepDef.event, hop]
  · rw [runStep, hop]

structure Ready (f : FlowCompilation) (tags : List (Str × Shape)) (next : Option Str) (t : Str) :
    Prop where
  known : ∀ x ∈ tags, x ∈ f.steps.map FlowStep.tag
  nodup : (tags.map Prod.fst ++ [t]).Nodup
  nonempty : t ≠ []
  leads : next = some defaultCase ↔ t = defaultCase

variable {next : Option Str} {t : Str}

theorem Ready.body {id label : Str} {c : Condition} {body : List Block}
    (h : Ready f (tagsOf (.when id label c body)) next t) : Ready f (tagsAll body) next t :=
  ⟨fun x hx => h.known x (List.mem_cons_of_mem _ hx), (List.nodup_cons.mp h.nodup).2, h.nonempty,
    h.leads⟩

theorem Ready.rest {b : Block} {bs : List Block} (h : Ready f (tagsAll (b :: bs)) next t) :
    Ready f (tagsAll bs) next t := by
  have hnodup := h.nodup
  rw [tagsAll, List.map_append, List.append_assoc] at hnodup
  exact ⟨fun x hx => h.known x (List.mem_append_right _ hx), (List.nodup_append.mp hnodup).2.1,
    h.nonempty, h.leads⟩

theorem Prepared.leads (hp : Prepared f spec bs emit finish) {ss : List WdlStep} {cs : List Block}
    (hl : LaysAll eval ss cs) (h : Ready f (tagsAll cs) next t) :
    entryOf cs t ≠ [] ∧ (nextCall ss next = some defaultCase ↔ entryOf cs t = defaultCase) := by
  cases hl with
  | nil => exact ⟨h.nonempty, h.leads⟩
  | cons hs _ =>
    cases hs with
    | call id target args location =>
      have htag : (id, Shape.call target) ∈ f.steps.map FlowStep.tag :=
        h.known _ List.mem_cons_self
      obtain ⟨s, hs, heq⟩ := List.mem_map.mp htag
      refine ⟨?_, by rw [nextCall, Option.some.injEq]; rfl⟩
      have hid : s.id = id := (Prod.mk.inj heq).1
      exact hid ▸ hp.nonempty s hs
    | «when» id hc hbody hne =>
      obtain ⟨s, hs, hid, -, hdefault⟩ := hp.switch_step (h.known _ List.mem_cons_self)
      have hentry : id ≠ [] := hid ▸ hp.nonempty s hs
      exact ⟨hentry, iff_of_false (by rw [nextCall]; exact fun hn => by cases hn) hdefault⟩

theorem Prepared.first (hp : Prepared f spec bs emit finish) {ss : List WdlStep} {b : Block}
    {cs : List Block} (hl : LaysAll eval ss cs) (h : Ready f (tagsAll (b :: cs)) next t) :
    Ready f (tagsOf b) (nextCall ss next) (entryOf cs t) := by
  obtain ⟨hne, hleads⟩ := hp.leads hl h.rest
  have hnodup := h.nodup
  rw [tagsAll, List.map_append, List.append_assoc] at hnodup
  refine ⟨fun x hx => h.known x (List.mem_append_left _ hx), ?_, hne, hleads⟩
  exact hnodup.sublist ((List.Sublist.refl _).append
    (List.singleton_sublist.mpr (entryOf_mem_append cs t)))

def Fresh (executed names : List Str) : Prop := ∀ n ∈ names, n ∉ executed

theorem Fresh.after {executed names done rest : List Str} (h : Fresh executed (done ++ rest))
    (hnodup : (done ++ rest).Nodup) (hnames : ∀ n ∈ names, n ∈ done) :
    Fresh (executed ++ names) rest := by
  intro n hn hm
  rcases List.mem_append.mp hm with hm | hm
  · exact h n (List.mem_append_right _ hn) hm
  · exact (List.nodup_append.mp hnodup).2.2 n (hnames n hm) n hn rfl

theorem eventsOf_append (spec : FlowSpec) (xs ys : List Str) :
    eventsOf spec (xs ++ ys) = eventsOf spec xs ++ eventsOf spec ys := List.filterMap_append

theorem eventsOf_cons {name : Str} {step : StepDef} {e : Option Str} (names : List Str)
    (hstep : spec.step name = some step) (he : step.event = some e) :
    eventsOf spec (name :: names) = e :: eventsOf spec names := by
  rw [eventsOf, List.filterMap_cons, hstep, Option.bind_some, he]
  rfl

def Passes (E : Calls W) (spec : FlowSpec) (id t : Str) (names : List Str) (m m' : Memory W) :
    Prop :=
  ∀ fuel executed, Fresh executed (names ++ [t]) →
    executeFrom E spec (fuel + names.length) id executed (m.state, m.world) =
      executeFrom E spec fuel t (executed ++ names) (m'.state, m'.world)

theorem Passes.trans {id t u : Str} {names names' : List Str} {m m' m'' : Memory W}
    (h : Passes E spec id t names m m') (h' : Passes E spec t u names' m' m'')
    (ht : t ∈ names' ++ [u]) (hnodup : (names ++ names' ++ [u]).Nodup) :
    Passes E spec id u (names ++ names') m m'' := by
  intro fuel executed hfresh
  rw [List.append_assoc] at hfresh hnodup
  have hafter := hfresh.after hnodup (fun n hn => hn)
  rw [List.length_append, Nat.add_comm names.length, ← Nat.add_assoc, h, h' _ _ hafter,
    List.append_assoc]
  intro n hn
  rcases List.mem_append.mp hn with hn | hn
  · exact hfresh n (List.mem_append_left _ hn)
  · rw [List.mem_singleton.mp hn]
    exact hfresh t (List.mem_append_right _ ht)

theorem passes_step {id t : Str} {step : StepDef} {m m' : Memory W}
    (hstep : spec.step id = some step)
    (hrun : runStep E step (m.state, m.world) = .ok (m'.state, m'.world))
    (hnext : nextStep step = some t) (hne : t ≠ []) (hid : id ≠ t) :
    Passes E spec id t [id] m m' := by
  intro fuel executed hfresh
  refine executeFrom_next hstep hrun hnext hne (fun hm => ?_)
  rcases List.mem_append.mp hm with hm | hm
  · exact hfresh t (List.mem_append_right _ List.mem_cons_self) hm
  · exact hid (List.mem_singleton.mp hm).symm

theorem entryOf_mem_of_sublist {cs : List Block} {names : List Str}
    (h : ∀ b bs, cs = b :: bs → b.id ∈ names) : entryOf cs t ∈ names ++ [t] := by
  cases cs with
  | nil => exact List.mem_append_right _ List.mem_cons_self
  | cons b bs => exact List.mem_append_left _ (h b bs rfl)

mutual

theorem Prepared.passes (hp : Prepared f spec bs emit finish) :
    ∀ {s : WdlStep} {b : Block}, Lays eval s b → ∀ (next : Option Str) (t : Str) (m : Memory W)
      (r : List Event × Memory W), Placed f.steps s → Wired f.outgoing b t →
      Ready f (tagsOf b) next t → walk eval E runtimeEnters s next m = .ok r →
      ∃ names, names.Sublist (namesOf b) ∧ b.id ∈ names ∧ eventsOf spec names = shown r.1 ∧
        Passes E spec b.id t names m r.2
  | _, _, .call id target args location => by
    intro next t m r hpl hw hready h
    obtain ⟨rendered, hr, hmem⟩ := hpl
    obtain ⟨rendered', q, hr', hq, rfl⟩ := walk_call.mp h
    obtain rfl := Except.ok.inj (hr.symm.trans hr')
    obtain ⟨step, hstep, hevent, hnext, hrun⟩ := hp.run_call (E := E) hmem m
    have hne : id ≠ t := fun he => (List.nodup_cons.mp hready.nodup).1 (by simp [he])
    refine ⟨[id], List.Sublist.refl _, List.mem_cons_self, ?_, ?_⟩
    · rw [eventsOf_cons [] hstep hevent, shown, List.map_singleton, Option.map_some,
        (callStep_spec hq).1]
      rfl
    · refine passes_step hstep ?_ (hnext.trans (nextStep_single rfl hw)) hready.nonempty hne
      rw [hrun, hq]
      rfl
  | _, _, @Lays.when _ _ _ _ c body id hc hbody hne => by
    intro next t m r hpl hw hready h
    obtain ⟨c', q, hc', hq, rfl⟩ := walk_when.mp h
    obtain rfl := Except.ok.inj (hc.symm.trans hc')
    obtain ⟨s, hs, rfl, hk, hstep, hevent, hrun⟩ :=
      hp.run_switch (E := E) (hready.known _ List.mem_cons_self)
    have hbne := hbody.body_ne_nil hne
    have hnext := nextStep_switch hk (parseCondition_ne_nil hc) hw.1
    obtain ⟨hnot, hnodup⟩ := List.nodup_cons.mp hready.nodup
    by_cases hdefault : t = defaultCase
    · have hskip : ¬runtimeEnters c next m = true := by simp [runtimeEnters, hready.leads, hdefault]
      rw [if_neg hskip] at hq
      cases hq
      rw [if_pos hdefault] at hnext
      have hid : s.id ≠ t := fun he => hnot (List.mem_append_right _ (by simp [he]))
      refine ⟨[s.id], List.singleton_sublist.mpr List.mem_cons_self, List.mem_cons_self, ?_,
        passes_step hstep (hrun _) hnext hready.nonempty hid⟩
      rw [eventsOf_cons [] hstep hevent]
      rfl
    · have henter : runtimeEnters c next m = true :=
        decide_eq_true (fun hn => hdefault (hready.leads.mp hn))
      rw [if_pos henter] at hq
      rw [if_neg hdefault, entryOf_eq hbne [] t] at hnext
      obtain ⟨names, hsub, hfirst, hevents, hpass⟩ := hp.passesAll hbody _ _ _ _ hpl hw.2 hready.body hq
      have hmem : entryOf body t ∈ names ++ [t] := entryOf_mem_of_sublist hfirst
      have hentry : entryOf body t ∈ namesAll body ++ [t] := entryOf_mem_append body t
      have hid : s.id ≠ entryOf body t := fun he => hnot (he ▸ hentry)
      have hnonempty : entryOf body t ≠ [] := (hp.leads hbody hready.body).1
      refine ⟨s.id :: names, hsub.cons_cons _, List.mem_cons_self, ?_, ?_⟩
      · rw [eventsOf_cons names hstep hevent, hevents]
        rfl
      · refine (passes_step hstep (hrun _) hnext hnonempty hid).trans hpass hmem ?_
        exact hready.nodup.sublist ((hsub.cons_cons _).append (List.Sublist.refl _))

theorem Prepared.passesAll (hp : Prepared f spec bs emit finish) :
    ∀ {ss : List WdlStep} {cs : List Block}, LaysAll eval ss cs → ∀ (next : Option Str) (t : Str)
      (m : Memory W) (r : List Event × Memory W), PlacedAll f.steps ss →
      WiredAll f.outgoing cs t → Ready f (tagsAll cs) next t →
      walkAll eval E runtimeEnters ss next m = .ok r →
      ∃ names, names.Sublist (namesAll cs) ∧ (∀ b bs, cs = b :: bs → b.id ∈ names) ∧
        eventsOf spec names = shown r.1 ∧ Passes E spec (entryOf cs t) t names m r.2
  | _, _, .nil => by
    intro next t m r _ _ _ h
    rw [walkAll] at h
    cases h
    refine ⟨[], List.Sublist.refl _, fun b bs hbs => (by cases hbs), rfl, fun fuel executed _ => ?_⟩
    rw [List.append_nil]
    rfl
  | _, _, @LaysAll.cons _ _ _ b cs hs hss => by
    intro next t m r hpl hw hready h
    obtain ⟨q, qs, hq, hqs, rfl⟩ := walkAll_cons.mp h
    obtain ⟨names, hsub, hfirst, hevents, hpass⟩ :=
      hp.passes hs _ _ _ _ hpl.1 hw.1 (hp.first hss hready) hq
    obtain ⟨names', hsub', hfirst', hevents', hpass'⟩ :=
      hp.passesAll hss _ _ _ _ hpl.2 hw.2 hready.rest hqs
    refine ⟨names ++ names', ?_, fun b' bs' hbs => ?_, ?_, ?_⟩
    · rw [namesAll_cons]
      exact hsub.append hsub'
    · cases hbs
      exact List.mem_append_left _ hfirst
    · rw [eventsOf_append, hevents, hevents', shown_append]
    · refine hpass.trans hpass' (entryOf_mem_of_sublist hfirst') ?_
      have hnodup := hready.nodup
      change (namesAll (b :: cs) ++ [t]).Nodup at hnodup
      rw [namesAll_cons] at hnodup
      exact hnodup.sublist ((hsub.append hsub').append (List.Sublist.refl _))

end

def Breaks (E : Calls W) (spec : FlowSpec) (id t : Str) (names : List Str) (m : Memory W)
    (e : Str) : Prop :=
  ∀ fuel executed, Fresh executed (names ++ [t]) → names.length ≤ fuel →
    executeFrom E spec fuel id executed (m.state, m.world) = .fail e

theorem Passes.breaks {id t u : Str} {names done rest : List Str} {m m' : Memory W} {e : Str}
    (h : Passes E spec id t names m m') (hsub : names.Sublist done)
    (h' : Breaks E spec t u rest m' e) (ht : t ∈ rest ++ [u])
    (hnodup : (done ++ rest ++ [u]).Nodup) : Breaks E spec id u (done ++ rest) m e := by
  intro fuel executed hfresh hfuel
  rw [List.append_assoc] at hfresh hnodup
  have hlen := hsub.length_le
  rw [List.length_append] at hfuel
  obtain ⟨k, rfl⟩ := Nat.exists_eq_add_of_le (show names.length ≤ fuel by omega)
  rw [Nat.add_comm, h]
  · exact h' _ _ (hfresh.after hnodup (fun n hn => hsub.subset hn)) (by omega)
  · intro n hn
    rcases List.mem_append.mp hn with hn | hn
    · exact hfresh n (List.mem_append_left _ (hsub.subset hn))
    · rw [List.mem_singleton.mp hn]
      exact hfresh t (List.mem_append_right _ ht)

theorem Breaks.extend {id t u : Str} {done rest : List Str} {m : Memory W} {e : Str}
    (h : Breaks E spec id t done m e) (ht : t ∈ rest ++ [u]) :
    Breaks E spec id u (done ++ rest) m e := by
  intro fuel executed hfresh hfuel
  rw [List.length_append] at hfuel
  rw [List.append_assoc] at hfresh
  refine h fuel executed (fun n hn => ?_) (by omega)
  rcases List.mem_append.mp hn with hn | hn
  · exact hfresh n (List.mem_append_left _ hn)
  · rw [List.mem_singleton.mp hn]
    exact hfresh t (List.mem_append_right _ ht)

mutual

theorem Prepared.breaks (hp : Prepared f spec bs emit finish) :
    ∀ {s : WdlStep} {b : Block}, Lays eval s b → ∀ (next : Option Str) (t : Str) (m : Memory W)
      (e : Str), Placed f.steps s → Wired f.outgoing b t → Ready f (tagsOf b) next t →
      walk eval E runtimeEnters s next m = .error e → Breaks E spec b.id t (namesOf b) m e
  | _, _, .call id target args location => by
    intro next t m e hpl hw hready h
    obtain ⟨rendered, hr, hmem⟩ := hpl
    obtain ⟨step, hstep, -, -, hrun⟩ := hp.run_call (E := E) hmem m
    rw [walk] at h
    rcases Fallible.bind_eq_error.mp h with h | ⟨rendered', hr', h⟩
    · rw [hr] at h
      cases h
    · obtain rfl := Except.ok.inj (hr.symm.trans hr')
      rcases Fallible.bind_eq_error.mp h with h | ⟨q, -, h⟩
      · intro fuel executed _ hfuel
        obtain ⟨k, rfl⟩ := Nat.exists_eq_add_of_le' (show 1 ≤ fuel from hfuel)
        refine executeFrom_fail hstep ?_
        rw [hrun, h]
        rfl
      · cases h
  | _, _, @Lays.when _ _ _ _ c body id hc hbody hne => by
    intro next t m e hpl hw hready h
    rw [walk] at h
    rcases Fallible.bind_eq_error.mp h with h | ⟨c', hc', h⟩
    · rw [hc] at h
      cases h
    · obtain rfl := Except.ok.inj (hc.symm.trans hc')
      rcases Fallible.bind_eq_error.mp h with h | ⟨q, -, h⟩
      · obtain ⟨s, hs, rfl, hk, hstep, -, hrun⟩ :=
          hp.run_switch (E := E) (hready.known _ List.mem_cons_self)
        have hbne := hbody.body_ne_nil hne
        have hnext := nextStep_switch hk (parseCondition_ne_nil hc) hw.1
        obtain ⟨hnot, -⟩ := List.nodup_cons.mp hready.nodup
        split_ifs at h with henter
        have hdefault : t ≠ defaultCase :=
          fun ht => of_decide_eq_true henter (hready.leads.mpr ht)
        rw [if_neg hdefault, entryOf_eq hbne [] t] at hnext
        have hentry : entryOf body t ∈ namesAll body ++ [t] := entryOf_mem_append body t
        have hid : s.id ≠ entryOf body t := fun he => hnot (he ▸ hentry)
        have hfirst := passes_step hstep (hrun (m.state, m.world)) hnext
          (hp.leads hbody hready.body).1 hid
        exact hfirst.breaks (List.Sublist.refl _)
          (hp.breaksAll hbody _ _ _ _ hpl hw.2 hready.body h) hentry hready.nodup
      · cases h

theorem Prepared.breaksAll (hp : Prepared f spec bs emit finish) :
    ∀ {ss : List WdlStep} {cs : List Block}, LaysAll eval ss cs → ∀ (next : Option Str) (t : Str)
      (m : Memory W) (e : Str), PlacedAll f.steps ss → WiredAll f.outgoing cs t →
      Ready f (tagsAll cs) next t → walkAll eval E runtimeEnters ss next m = .error e →
      Breaks E spec (entryOf cs t) t (namesAll cs) m e
  | _, _, .nil => by
    intro next t m e _ _ _ h
    rw [walkAll] at h
    cases h
  | _, _, @LaysAll.cons _ _ _ b cs hs hss => by
    intro next t m e hpl hw hready h
    have hnodup := hready.nodup
    change (namesAll (b :: cs) ++ [t]).Nodup at hnodup
    rw [namesAll_cons] at hnodup ⊢
    rw [walkAll] at h
    rcases Fallible.bind_eq_error.mp h with h | ⟨q, hq, h⟩
    · exact (hp.breaks hs _ _ _ _ hpl.1 hw.1 (hp.first hss hready) h).extend
        (entryOf_mem_append cs t)
    · rcases Fallible.bind_eq_error.mp h with h | ⟨qs, -, h⟩
      · obtain ⟨names, hsub, -, -, hpass⟩ :=
          hp.passes hs _ _ _ _ hpl.1 hw.1 (hp.first hss hready) hq
        exact hpass.breaks hsub (hp.breaksAll hss _ _ _ _ hpl.2 hw.2 hready.rest h)
          (entryOf_mem_append cs t) hnodup
      · cases h

end

end simulation

section execution

variable {W : Type} {eval : LiteralEval} {E : Calls W} {f : FlowCompilation} {spec : FlowSpec}
  {bs : List Block} {emit finish : Str}

def Executes (eval : LiteralEval) (E : Calls W) (w : WdlWorkflow) (spec : FlowSpec)
    (inputs : Fields) (world : W) : Prop :=
  ∃ r executed x, sourceRun eval E w inputs world = .ok r ∧
    executeImmediately E spec inputs world = .ret (executed, x) ∧
    eventsOf spec executed = shown r.1 ∧
    ∃ step, executed.getLast?.bind spec.step = some step ∧ step.operation = .finish

theorem Prepared.emit_step (hp : Prepared f spec bs emit finish) :
    ∃ s ∈ f.steps, s.id = emit ∧ (∃ outputs, s.kind = .emit outputs) ∧ emit ≠ defaultCase ∧
      emit ≠ [] := by
  have hm : (emit, Shape.emit) ∈ f.steps.map FlowStep.tag := by
    rw [hp.laid.steps]
    exact List.mem_append_right _ List.mem_cons_self
  obtain ⟨s, hs, htag⟩ := List.mem_map.mp hm
  obtain ⟨rfl, hshape⟩ := Prod.mk.inj htag
  refine ⟨s, hs, rfl, ?_, ?_, hp.nonempty s hs⟩
  · cases hk : s.kind with
    | emit outputs => exact ⟨outputs, rfl⟩
    | call target args => rw [hk] at hshape; cases hshape
    | switch key => rw [hk] at hshape; cases hshape
    | finish => rw [hk] at hshape; cases hshape
  · rcases hp.named s hs with ⟨target, htarget⟩ | hne
    · rw [hshape] at htarget
      cases htarget
    · exact hne

theorem Prepared.finish_step (hp : Prepared f spec bs emit finish) :
    ∃ s ∈ f.steps, s.id = finish ∧ s.kind = .finish ∧ finish ≠ [] := by
  have hm : (finish, Shape.finish) ∈ f.steps.map FlowStep.tag := by
    rw [hp.laid.steps]
    simp
  obtain ⟨s, hs, htag⟩ := List.mem_map.mp hm
  obtain ⟨rfl, hshape⟩ := Prod.mk.inj htag
  refine ⟨s, hs, rfl, ?_, hp.nonempty s hs⟩
  cases hk : s.kind with
  | finish => rfl
  | call target args => rw [hk] at hshape; cases hshape
  | switch key => rw [hk] at hshape; cases hshape
  | emit outputs => rw [hk] at hshape; cases hshape

theorem Prepared.run_end (hp : Prepared f spec bs emit finish) {executed : List Str} (k : ℕ)
    (hfresh : Fresh executed [emit, finish]) (state : Fields) (world : W) :
    (∃ state', executeFrom E spec (k + 2) emit executed (state, world) =
        .ret (executed ++ [emit, finish], state', world)) ∨
      settled state = false ∧
        ∃ e, executeFrom E spec (k + 2) emit executed (state, world) = .fail e := by
  obtain ⟨s, hs, rfl, ⟨outputs, hk⟩, -, -⟩ := hp.emit_step
  obtain ⟨u, hu, rfl, hku, hne⟩ := hp.finish_step
  have hrun : runStep E (stepDef f (adjacencyOf f.edges) s) (state, world) =
      (emitOutputs E.literal ⟨s.id, none, emitConfig outputs⟩ state).map
        (fun state' => (state', world)) := by
    have hop : (stepDef f (adjacencyOf f.edges) s).operation = .task :=
      show operationOf s.kind = .task by rw [hk]; rfl
    have hhook : (stepDef f (adjacencyOf f.edges) s).run = some .emitOutputs :=
      show hookOf s.kind = some .emitOutputs by rw [hk]; rfl
    have hconfig : (stepDef f (adjacencyOf f.edges) s).config = emitConfig outputs :=
      show f.configOf s = _ by rw [FlowCompilation.configOf, hk]
    rw [runStep_task hop hhook, hconfig]
    rfl
  have hnext : nextStep (stepDef f (adjacencyOf f.edges) s) = some u.id :=
    nextStep_single (by rw [hk]; rfl) hp.laid.outgoing_emit
  have hfinish : (stepDef f (adjacencyOf f.edges) u).operation = .finish :=
    show operationOf u.kind = .finish by rw [hku]; rfl
  have hlast : nextStep (stepDef f (adjacencyOf f.edges) u) = none := by
    have hnone : (stepDef f (adjacencyOf f.edges) u).nextSteps = [] :=
      congrArg (List.map FlowEdge.dst) hp.laid.outgoing_finish
    rw [nextStep, hfinish]
    dsimp only
    rw [hnone]
    rfl
  cases hemit : emitOutputs E.literal ⟨s.id, none, emitConfig outputs⟩ state with
  | error e =>
    refine Or.inr ⟨?_, e, executeFrom_fail (hp.step hs) ?_⟩
    · cases hset : settled state with
      | false => rfl
      | true =>
        obtain ⟨state', hok⟩ := emitOutputs_ok E.literal s.id none outputs hset
        rw [hok] at hemit
        cases hemit
    · rw [hrun, hemit]
      rfl
  | ok state' =>
    refine Or.inl ⟨state', ?_⟩
    have hstep : runStep E (stepDef f (adjacencyOf f.edges) s) (state, world) =
        .ok (state', world) := by
      rw [hrun, hemit]
      rfl
    have hnew : u.id ∉ executed ++ [s.id] := by
      intro hm
      rcases List.mem_append.mp hm with hm | hm
      · exact hfresh u.id (by simp) hm
      · have htail := (List.nodup_append.mp hp.laid.nodup).2.1
        exact (List.nodup_cons.mp htail).1 (by simp [(List.mem_singleton.mp hm)])
    rw [executeFrom_next (hp.step hs) hstep hnext hne hnew,
      executeFrom_last (hp.step hu) (runStep_finish hfinish) hlast, List.append_assoc]
    rfl

theorem executeImmediately_eq (hp : Prepared f spec bs emit finish)
    (hentry : spec.entrypoint = f.entry) (hne : f.entry ≠ []) (inputs : Fields) (world : W) :
    executeImmediately E spec inputs world =
      executeFrom E spec ((namesAll bs).length + 3) (entryOf bs emit) [] (inputs, world) := by
  have hfirst : firstStep spec = entryOf bs emit := by
    rw [firstStep, hentry, if_neg (by simpa using hne), hp.laid.entry]
  have hlen : spec.steps.length = (namesAll bs).length + 2 := by
    have hids := congrArg List.length hp.laid.ids
    rw [List.length_append, List.length_map] at hids
    rw [hp.steps, List.length_map, hids]
    rfl
  rw [executeImmediately, hfirst, hlen, if_neg]
  rw [← hp.laid.entry]
  simpa using hne

theorem Prepared.events_end (hp : Prepared f spec bs emit finish) (names : List Str) :
    eventsOf spec (names ++ [emit, finish]) = eventsOf spec names := by
  obtain ⟨s, hs, rfl, ⟨outputs, hk⟩, -, -⟩ := hp.emit_step
  obtain ⟨u, hu, rfl, hku, -⟩ := hp.finish_step
  have hemit : (stepDef f (adjacencyOf f.edges) s).event = none := by
    rw [StepDef.event, show (stepDef f (adjacencyOf f.edges) s).operation = .task from
      show operationOf s.kind = .task by rw [hk]; rfl,
      show (stepDef f (adjacencyOf f.edges) s).run = some .emitOutputs from
        show hookOf s.kind = some .emitOutputs by rw [hk]; rfl]
  have hfinish : (stepDef f (adjacencyOf f.edges) u).event = none := by
    rw [StepDef.event, show (stepDef f (adjacencyOf f.edges) u).operation = .finish from
      show operationOf u.kind = .finish by rw [hku]; rfl]
  have hend : eventsOf spec [s.id, u.id] = [] := by
    rw [eventsOf, List.filterMap_cons, hp.step hs, Option.bind_some, hemit, List.filterMap_cons,
      hp.step hu, Option.bind_some, hfinish]
    rfl
  rw [eventsOf_append, hend, List.append_nil]

theorem Prepared.ready (hp : Prepared f spec bs emit finish) :
    Ready f (tagsAll bs) none emit := by
  obtain ⟨s, hs, rfl, -, hdefault, hne⟩ := hp.emit_step
  refine ⟨fun x hx => ?_, ?_, hne, iff_of_false (fun h => by cases h) hdefault⟩
  · rw [hp.laid.steps]
    exact List.mem_append_left _ hx
  · exact hp.laid.nodup.sublist ((List.Sublist.refl _).append
      (List.singleton_sublist.mpr List.mem_cons_self))

theorem Prepared.run_ok (hp : Prepared f spec bs emit finish) (hentry : spec.entrypoint = f.entry)
    (hne : f.entry ≠ []) {inputs : Fields} {world : W} {names : List Str} {m : Memory W}
    (hsub : names.Sublist (namesAll bs))
    (hpass : Passes E spec (entryOf bs emit) emit names (start inputs world) m) :
    (∃ x, executeImmediately E spec inputs world = .ret (names ++ [emit, finish], x)) ∨
      settled m.state = false ∧ ∃ e, executeImmediately E spec inputs world = .fail e := by
  have hnodup := hp.laid.nodup.sublist (hsub.append (List.Sublist.refl [emit, finish]))
  have hfresh : Fresh names [emit, finish] := by
    intro n hn hm
    exact (List.nodup_append.mp hnodup).2.2 n hm n hn rfl
  obtain ⟨k, hk⟩ := Nat.exists_eq_add_of_le hsub.length_le
  have hfuel : (namesAll bs).length + 3 = k + 1 + 2 + names.length := by omega
  rw [executeImmediately_eq hp hentry hne, hfuel]
  rw [show (inputs, world) = ((start inputs world).state, (start inputs world).world) from rfl,
    hpass (k + 1 + 2) [] (fun n _ => List.not_mem_nil), List.nil_append]
  rcases hp.run_end (E := E) (k + 1) hfresh m.state m.world with ⟨state', h⟩ | ⟨hset, e, h⟩
  · exact Or.inl ⟨_, h⟩
  · exact Or.inr ⟨hset, e, h⟩

theorem executes_iff {w : WdlWorkflow} (hf : compileWorkflow eval w = .ok f)
    (hl : buildSpec f = .ret spec) (inputs : Fields) (world : W) :
    Executes eval E w spec inputs world ↔
      obeyedAll eval E inputs w.steps none (start inputs world) = true := by
  obtain ⟨bs, emit, finish, hlays, hbs, hlaid⟩ := compileWorkflow_laidOut hf
  obtain ⟨hplaced, hnamed, -⟩ := compileWorkflow_compiles hf
  obtain ⟨hsteps, hentry, hne, hnonempty⟩ := buildSpec_spec hl
  obtain ⟨hwne, hwf, -, hids, -⟩ := (compileWorkflow_ok_iff eval w).mp ⟨f, hf⟩
  have hp : Prepared f spec bs emit finish := ⟨hlaid, hnamed, hsteps, hnonempty⟩
  constructor
  · rintro ⟨r, executed, x, hsource, hrun, hevents, -⟩
    cases hwalk : walkAll eval E runtimeEnters w.steps none (start inputs world) with
    | error e =>
      have hbreak := hp.breaksAll hlays _ _ _ _ hplaced hlaid.wired hp.ready hwalk
      rw [executeImmediately_eq hp hentry hne] at hrun
      have hfail := hbreak ((namesAll bs).length + 3) [] (fun n _ => List.not_mem_nil) (by omega)
      exact absurd (hfail.symm.trans hrun) Fuelled.fail_ne_ret
    | ok r' =>
      obtain ⟨names, hsub, -, hshown, hpass⟩ :=
        hp.passesAll hlays _ _ _ _ hplaced hlaid.wired hp.ready hwalk
      rcases hp.run_ok hentry hne hsub hpass with ⟨y, hok⟩ | ⟨-, e, hfail⟩
      · obtain ⟨rfl, -⟩ := Prod.mk.inj (Fuelled.ret_inj.mp (hok.symm.trans hrun))
        rw [hp.events_end, hshown] at hevents
        refine (obeyedAll_of_shown w.steps hwf hsource hwalk (x := []) (y := []) ?_ ?_).1
        · rw [hevents]
        · exact ⟨hids, fun id _ => List.not_mem_nil, fun i hi => by cases hi⟩
      · exact absurd (hfail.symm.trans hrun) Fuelled.fail_ne_ret
  · intro hobeyed
    obtain ⟨r, hsource, hwalk⟩ := obeyedAll_walk w.steps hobeyed
    obtain ⟨names, hsub, -, hshown, hpass⟩ :=
      hp.passesAll hlays _ _ _ _ hplaced hlaid.wired hp.ready hwalk
    have hcalled := runtime_callsAll w.steps hwf hwne (by exact fun h => by cases h) hwalk
    have hsettled := (walkAll_calls w.steps hwalk).2 (Or.inr hcalled)
    rcases hp.run_ok hentry hne hsub hpass with ⟨y, hok⟩ | ⟨hunsettled, -⟩
    · obtain ⟨u, hu, rfl, hku, -⟩ := hp.finish_step
      refine ⟨r, _, y, hsource, hok, ?_, stepDef f (adjacencyOf f.edges) u, ?_, ?_⟩
      · rw [hp.events_end, hshown]
      · rw [show names ++ [emit, u.id] = names ++ [emit] ++ [u.id] by simp, List.getLast?_concat]
        exact hp.step hu
      · change operationOf u.kind = .finish
        rw [hku]
        rfl
    · rw [hsettled] at hunsettled
      cases hunsettled

end execution

def loaded (f : FlowCompilation) : Option FlowSpec :=
  match buildSpec f with
  | some (.ok spec) => some spec
  | _ => none

theorem loaded_eq_some {f : FlowCompilation} {spec : FlowSpec} (h : loaded f = some spec) :
    buildSpec f = .ret spec := by
  rw [loaded] at h
  rcases hb : buildSpec f with _ | e | s
  · rw [hb] at h
    cases h
  · rw [hb] at h
    cases h
  · rw [hb] at h
    cases h
    rfl

def compiledSpec (eval : LiteralEval) (w : WdlWorkflow) : Option FlowSpec :=
  (compileWorkflow eval w).toOption.bind loaded

def runtimeEvents {W : Type} (E : Calls W) (spec : FlowSpec) (inputs : Fields) (world : W) :
    Option (List (Option Str)) :=
  match executeImmediately E spec inputs world with
  | some (.ok r) => some (eventsOf spec r.1)
  | _ => none

theorem compiledSpec_eq_some {eval : LiteralEval} {w : WdlWorkflow} {spec : FlowSpec}
    (h : compiledSpec eval w = some spec) :
    ∃ f, compileWorkflow eval w = .ok f ∧ buildSpec f = .ret spec := by
  obtain ⟨f, hf, hspec⟩ := Option.bind_eq_some_iff.mp h
  refine ⟨f, ?_, loaded_eq_some hspec⟩
  cases hc : compileWorkflow eval w with
  | error e =>
    rw [hc] at hf
    cases hf
  | ok f' =>
    rw [hc] at hf
    cases hf
    rfl

theorem flag_executes : ∃ f spec, compileWorkflow flagEval flagFlow = .ok f ∧
    buildSpec f = .ret spec ∧
    Executes flagEval plainCalls flagFlow spec (flagInputs "on".toList) () := by
  obtain ⟨spec, hspec⟩ : ∃ spec, compiledSpec flagEval flagFlow = some spec :=
    Option.isSome_iff_exists.mp (by decide +kernel)
  obtain ⟨f, hf, hl⟩ := compiledSpec_eq_some hspec
  exact ⟨f, spec, hf, hl, (executes_iff hf hl _ _).mpr (by decide +kernel)⟩

theorem flag_ignored : ∃ f spec, compileWorkflow flagEval flagFlow = .ok f ∧
    buildSpec f = .ret spec ∧
    ¬Executes flagEval plainCalls flagFlow spec (flagInputs "off".toList) () := by
  obtain ⟨spec, hspec⟩ : ∃ spec, compiledSpec flagEval flagFlow = some spec :=
    Option.isSome_iff_exists.mp (by decide +kernel)
  obtain ⟨f, hf, hl⟩ := compiledSpec_eq_some hspec
  refine ⟨f, spec, hf, hl, ?_⟩
  rintro ⟨r, executed, x, hsource, hrun, hevents, -⟩
  have hruntime : (compiledSpec flagEval flagFlow).bind (fun spec =>
      runtimeEvents plainCalls spec (flagInputs "off".toList) ()) =
      some [none, some "a".toList] := by decide +kernel
  have hmeant : (sourceRun flagEval plainCalls flagFlow (flagInputs "off".toList) ()).toOption.map
      (fun r => shown r.1) = some [none] := by decide +kernel
  rw [hspec, Option.bind_some, runtimeEvents, hrun] at hruntime
  rw [hsource] at hmeant
  have hcalls := Option.some.inj hruntime
  have hshown : shown r.1 = [none] := Option.some.inj hmeant
  rw [hevents, hshown] at hcalls
  cases hcalls

end TraceMind.Recipe
