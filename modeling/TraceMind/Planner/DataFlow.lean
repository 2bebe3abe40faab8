import TraceMind.Planner.Allowed

namespace TraceMind.Planner

section calls

variable {W : Type} (reg : Registry) (b : Behaviour W)

def Behaviour.call (kind : StepKind) (ref : Str) (inputs : List (Str × Json)) (w : W) :
    Except Raised Json × W :=
  match kind with
  | .tool => b.tool ref inputs w
  | .flow => b.flow ref inputs w

def Readable (kind : StepKind) (v : Json) : Prop := kind = .tool ∨ ∃ fs, v = .obj fs

def Succeeds (kind : StepKind) (v : Json) : Prop :=
  kind = .tool ∨ ∃ fs, v = .obj fs ∧
    (OrderedDict.find "status".toList fs).getD (.str "ok".toList) = .str "ok".toList

inductive FailsOnce (kind : StepKind) (ref : Str) (inputs : List (Str × Json)) : W → W → Prop where
  | noHandler {w : W} (h : ¬ reg.Callable kind ref) : FailsOnce kind ref inputs w w
  | raised {w w' : W} {reason : Str} (h : reg.Callable kind ref)
      (hcall : b.call kind ref inputs w = (.error (.other reason), w')) :
      FailsOnce kind ref inputs w w'
  | unfit {w w' : W} {v : Json} (h : reg.Callable kind ref)
      (hcall : b.call kind ref inputs w = (.ok v, w')) (hv : ¬ Succeeds kind v) :
      FailsOnce kind ref inputs w w'

inductive Fails (kind : StepKind) (ref : Str) (inputs : List (Str × Json)) : ℕ → W → W → Prop where
  | none {w : W} : Fails kind ref inputs 0 w w
  | next {n : ℕ} {u v w : W} (hfirst : FailsOnce reg b kind ref inputs u v)
      (hrest : Fails kind ref inputs n v w) : Fails kind ref inputs (n + 1) u w

structure Survives (step : PlanStep) (results : List (Str × Outcome)) (w : W) : Prop where
  waits : ∀ n w', 0 < n → n < maxAttempts step →
    Fails reg b step.kind step.ref (resolveInputs step.inputs results) n w w' →
      pauseOverflows step n = false
  spare : ∀ w' f,
    Fails reg b step.kind step.ref (resolveInputs step.inputs results) (maxAttempts step) w w' →
      fallbackOf step = some f → reg.Allows step.kind f →
        reg.Callable step.kind f ∧
          ∃ v, (b.call step.kind f (resolveInputs step.inputs results) w').1 = .ok v ∧
            Readable step.kind v

inductive Visits (plan : Plan) (stopOnError : Bool) : List PlanStep → List (Str × Outcome) →
    List (Str × Outcome) → Exec W → PlanStep → List (Str × Outcome) → List (Str × Outcome) →
    Exec W → Prop where
  | here {step : PlanStep} {steps : List PlanStep} {results report : List (Str × Outcome)}
      {s : Exec W} (hallow : reg.Allows step.kind step.ref) :
      Visits plan stopOnError (step :: steps) results report s step results report s
  | later {step step' : PlanStep} {steps : List PlanStep}
      {results results' report report' : List (Str × Outcome)} {s s' : Exec W} {o : Outcome}
      (hallow : reg.Allows step.kind step.ref)
      (hstep : (executeStep reg b step results s).1 = .ok o)
      (hgoes : (!o.isOk && stopOnError) = false)
      (hrest : Visits plan stopOnError steps (executeStep reg b step results s).2.1
        (report ++ [(step.id, o)]) (executeStep reg b step results s).2.2 step' results' report'
          s') :
      Visits plan stopOnError (step :: steps) results report s step' results' report' s'

def Reaches (plan : Plan) (stopOnError : Bool) (w : W) :
    PlanStep → List (Str × Outcome) → List (Str × Outcome) → Exec W → Prop :=
  Visits reg b plan stopOnError plan.steps [] [] ⟨w, []⟩

def refersTo (id attr : Str) : Json :=
  .str ("$\x7b".toList ++ (id ++ '.' :: attr) ++ ['\x7d'])

def Shared (results : List (Str × Outcome)) (id attr : Str) (o : Outcome) : Prop :=
  ('.' ∉ id ∧ id ∈ results.map Prod.fst) ∨ o.get attr = .null

def Refers (step : PlanStep) (report : List (Str × Outcome)) (k id attr : Str) (o : Outcome) :
    Prop :=
  OrderedDict.find k step.inputs = some (refersTo id attr) ∧ attr ≠ [] ∧ (id, o) ∈ report ∧
    o.isOk = true

structure Keeps (fl : Floats) (tx : Texts) (payload : Json) (plan : Plan) (stopOnError : Bool)
    (w : W) : Prop where
  returns : ∃ r, (executePlan fl tx reg b payload stopOnError w).1 = .ok r
  calls : ∀ step results report s, Reaches reg b plan stopOnError w step results report s →
    ∃ tries ≤ maxAttempts step, ∃ last : List Invocation,
      (executeStep reg b step results s).2.2.invoked =
          s.invoked ++ List.replicate tries ⟨step.kind, step.ref⟩ ++ last ∧
        (last = [] ∨ ∃ f, fallbackOf step = some f ∧ last = [⟨step.kind, f⟩])
  resolves : ∀ step results report s, Reaches reg b plan stopOnError w step results report s →
    ∀ k id attr o, Refers step report k id attr o →
      OrderedDict.find k (resolveInputs step.inputs results) = some (o.get attr)

end calls

section attempts

variable {W : Type} {reg : Registry} {b : Behaviour W} {kind : StepKind} {ref : Str}
  {inputs : List (Str × Json)} {results report : List (Str × Outcome)} {step : PlanStep}
  {s : Exec W}

theorem FailsOnce.unique {u v w : W} (hv : FailsOnce reg b kind ref inputs u v)
    (hw : FailsOnce reg b kind ref inputs u w) : v = w := by
  cases hv with
  | noHandler h =>
    cases hw with
    | noHandler _ => rfl
    | raised h' _ => exact absurd h' h
    | unfit h' _ _ => exact absurd h' h
  | raised h hcall =>
    cases hw with
    | noHandler h' => exact absurd h h'
    | raised _ hcall' => exact congrArg Prod.snd (hcall.symm.trans hcall')
    | unfit _ hcall' _ => exact congrArg Prod.snd (hcall.symm.trans hcall')
  | unfit h hcall _ =>
    cases hw with
    | noHandler h' => exact absurd h h'
    | raised _ hcall' => exact congrArg Prod.snd (hcall.symm.trans hcall')
    | unfit _ hcall' _ => exact congrArg Prod.snd (hcall.symm.trans hcall')

theorem dispatchStep_callable (b : Behaviour W) (inputs : List (Str × Json))
    (results : List (Str × Outcome)) (s : Exec W) (h : reg.Callable kind ref) :
    (dispatchStep reg b kind ref inputs results s).2 =
      ⟨(b.call kind ref (resolveInputs inputs results) s.world).2, s.invoked ++ [⟨kind, ref⟩]⟩ := by
  cases kind with
  | flow => rfl
  | tool =>
    obtain h | h := h
    · cases h
    · rw [dispatchStep, if_pos h]
      rfl

theorem dispatchStep_raised {e : Raised} (h : reg.Callable kind ref)
    (hcall : (b.call kind ref (resolveInputs inputs results) s.world).1 = .error e) :
    (dispatchStep reg b kind ref inputs results s).1 = .error e := by
  cases kind with
  | flow =>
    rw [Behaviour.call] at hcall
    rw [dispatchStep]
    dsimp only
    rw [hcall]
    rfl
  | tool =>
    obtain h | h := h
    · cases h
    · rw [Behaviour.call] at hcall
      rw [dispatchStep, if_pos h]
      dsimp only
      rw [hcall]
      rfl

theorem flowOutcome_isOk {v : Json} {o : Outcome} (h : flowOutcome v = .ok o) :
    o.isOk = true ↔ Succeeds .flow v := by
  cases v with
  | obj fs =>
    obtain rfl := Except.ok.inj h
    rw [Outcome.isOk, Succeeds]
    dsimp only
    constructor
    · intro hok
      refine .inr ⟨fs, rfl, ?_⟩
      cases hs : (OrderedDict.find "status".toList fs).getD (.str "ok".toList) with
      | str t =>
        rw [hs] at hok
        rw [of_decide_eq_true hok]
      | _ =>
        rw [hs] at hok
        cases hok
    · rintro (hkind | ⟨fs', hfs, hs⟩)
      · cases hkind
      · cases hfs
        rw [hs]
        rfl
  | _ => cases h

theorem flowOutcome_unreadable {v : Json} (h : ¬ Readable .flow v) :
    flowOutcome v = .error (.other "object has no attribute 'get'".toList) := by
  cases v with
  | obj fs => exact absurd (.inr ⟨fs, rfl⟩) h
  | _ => rfl

theorem flowOutcome_readable {v : Json} (h : Readable .flow v) : ∃ o, flowOutcome v = .ok o := by
  obtain hkind | ⟨fs, rfl⟩ := h
  · cases hkind
  · exact ⟨_, rfl⟩

theorem Succeeds.readable {v : Json} (h : Succeeds kind v) : Readable kind v :=
  h.imp_right fun ⟨fs, hfs, _⟩ => ⟨fs, hfs⟩

theorem dispatchStep_readable {v : Json} (h : reg.Callable kind ref)
    (hcall : (b.call kind ref (resolveInputs inputs results) s.world).1 = .ok v)
    (hv : Readable kind v) :
    ∃ o, (dispatchStep reg b kind ref inputs results s).1 = .ok o ∧
      (o.isOk = true ↔ Succeeds kind v) := by
  cases kind with
  | flow =>
    obtain ⟨o, ho⟩ := flowOutcome_readable hv
    refine ⟨o, ?_, flowOutcome_isOk ho⟩
    rw [Behaviour.call] at hcall
    rw [dispatchStep]
    dsimp only
    rw [hcall]
    exact ho
  | tool =>
    obtain h | h := h
    · cases h
    · refine ⟨⟨.str "ok".toList, v, none, none⟩, ?_, iff_of_true (by rfl) (.inl rfl)⟩
      rw [Behaviour.call] at hcall
      rw [dispatchStep, if_pos h]
      dsimp only
      rw [hcall]
      rfl

theorem dispatchStep_unreadable {v : Json} (h : reg.Callable kind ref)
    (hcall : (b.call kind ref (resolveInputs inputs results) s.world).1 = .ok v)
    (hv : ¬ Readable kind v) :
    ∃ reason, (dispatchStep reg b kind ref inputs results s).1 = .error (.other reason) := by
  cases kind with
  | flow =>
    refine ⟨_, Eq.trans ?_ (flowOutcome_unreadable hv)⟩
    rw [Behaviour.call] at hcall
    rw [dispatchStep]
    dsimp only
    rw [hcall]
    rfl
  | tool => exact absurd (.inl rfl) hv

theorem dispatchStep_attempt (reg : Registry) (b : Behaviour W) (kind : StepKind) (ref : Str)
    (inputs : List (Str × Json)) (results : List (Str × Outcome)) (s : Exec W) :
    (FailsOnce reg b kind ref (resolveInputs inputs results) s.world
        (dispatchStep reg b kind ref inputs results s).2.world ∧
      ((∃ reason, (dispatchStep reg b kind ref inputs results s).1 = .error (.other reason)) ∨
        ∃ o, (dispatchStep reg b kind ref inputs results s).1 = .ok o ∧ o.isOk = false)) ∨
    ((∀ w, ¬ FailsOnce reg b kind ref (resolveInputs inputs results) s.world w) ∧
      ((∃ reason, (dispatchStep reg b kind ref inputs results s).1 = .error (.forbidden reason)) ∨
        ∃ o, (dispatchStep reg b kind ref inputs results s).1 = .ok o ∧ o.isOk = true)) := by
  by_cases hcallable : reg.Callable kind ref
  · have hstate := congrArg Exec.world (dispatchStep_callable b inputs results s hcallable)
    rw [hstate]
    cases hcall : b.call kind ref (resolveInputs inputs results) s.world with
    | mk reply w =>
      have hreply : (b.call kind ref (resolveInputs inputs results) s.world).1 = reply := by
        rw [hcall]
      cases reply with
      | error e =>
        have hraised := dispatchStep_raised hcallable hreply
        cases e with
        | other reason => exact .inl ⟨.raised hcallable hcall, .inl ⟨reason, hraised⟩⟩
        | forbidden reason =>
          refine .inr ⟨fun u hu => ?_, .inl ⟨reason, hraised⟩⟩
          cases hu with
          | noHandler h => exact h hcallable
          | raised _ h => cases hcall.symm.trans h
          | unfit _ h _ => cases hcall.symm.trans h
      | ok v =>
        by_cases hread : Readable kind v
        · obtain ⟨o, ho, hiff⟩ := dispatchStep_readable hcallable hreply hread
          by_cases hv : Succeeds kind v
          · refine .inr ⟨fun u hu => ?_, .inr ⟨o, ho, hiff.mpr hv⟩⟩
            cases hu with
            | noHandler h => exact h hcallable
            | raised _ h => cases hcall.symm.trans h
            | unfit _ h hnot =>
              cases hcall.symm.trans h
              exact hnot hv
          · exact .inl ⟨.unfit hcallable hcall hv,
              .inr ⟨o, ho, Bool.eq_false_iff.mpr fun hok => hv (hiff.mp hok)⟩⟩
        · exact .inl ⟨.unfit hcallable hcall fun hv => hread hv.readable,
            .inl (dispatchStep_unreadable hcallable hreply hread)⟩
  · rw [dispatchStep_uncallable hcallable]
    exact .inl ⟨.noHandler hcallable, .inl ⟨_, rfl⟩⟩

theorem dispatchStep_calls (reg : Registry) (b : Behaviour W) (kind : StepKind) (ref : Str)
    (inputs : List (Str × Json)) (results : List (Str × Outcome)) (s : Exec W) :
    ∃ calls ≤ 1, (dispatchStep reg b kind ref inputs results s).2.invoked =
      s.invoked ++ List.replicate calls ⟨kind, ref⟩ := by
  by_cases hcallable : reg.Callable kind ref
  · exact ⟨1, le_rfl, by rw [dispatchStep_callable b inputs results s hcallable]; rfl⟩
  · refine ⟨0, Nat.zero_le 1, ?_⟩
    rw [dispatchStep_uncallable hcallable, List.replicate_zero, List.append_nil]

theorem attemptStep_fails {w : W} (n made : ℕ) (reason : Str)
    (h : FailsOnce reg b step.kind step.ref (resolveInputs step.inputs results) s.world w) :
    ∃ t reason', t.world = w ∧ attemptStep reg b step results (n + 1) made reason s =
      if n ≠ 0 ∧ pauseOverflows step (made + 1) then (.error overflow, t)
      else attemptStep reg b step results n (made + 1) reason' t := by
  rcases dispatchStep_attempt reg b step.kind step.ref step.inputs results s with
    ⟨hworld, ⟨reason', hr⟩ | ⟨o, ho, hok⟩⟩ | ⟨hnot, -⟩
  · refine ⟨_, reason', hworld.unique h, ?_⟩
    rw [attemptStep, hr]
  · refine ⟨_, stepFailed, hworld.unique h, ?_⟩
    rw [attemptStep, ho]
    dsimp only
    rw [hok, if_neg Bool.false_ne_true]
  · exact absurd h (hnot w)

theorem attemptStep_ends (n made : ℕ) (reason : Str)
    (h : ∀ w, ¬ FailsOnce reg b step.kind step.ref (resolveInputs step.inputs results) s.world w) :
    ∃ o, (attemptStep reg b step results (n + 1) made reason s).1 = .ok (.inl o) := by
  rcases dispatchStep_attempt reg b step.kind step.ref step.inputs results s with
    ⟨hfails, -⟩ | ⟨-, ⟨reason', hr⟩ | ⟨o, ho, hok⟩⟩
  · exact absurd hfails (h _)
  · refine ⟨.failed "POLICY_FORBIDDEN" reason', ?_⟩
    rw [attemptStep, hr]
  · refine ⟨o, ?_⟩
    rw [attemptStep, ho]
    dsimp only
    rw [hok, if_pos rfl]

theorem attemptStep_returns_iff (reg : Registry) (b : Behaviour W) (step : PlanStep)
    (results : List (Str × Outcome)) (n made : ℕ) (reason : Str) (s : Exec W) :
    (∃ r, (attemptStep reg b step results n made reason s).1 = .ok r) ↔
      ∀ k w, 0 < k → k < n →
        Fails reg b step.kind step.ref (resolveInputs step.inputs results) k s.world w →
          pauseOverflows step (made + k) = false := by
  induction n generalizing made reason s with
  | zero => exact iff_of_true ⟨_, rfl⟩ fun k w _ hk => absurd hk (Nat.not_lt_zero k)
  | succ n ih =>
    by_cases hfails :
        ∃ w, FailsOnce reg b step.kind step.ref (resolveInputs step.inputs results) s.world w
    · obtain ⟨w, hw⟩ := hfails
      obtain ⟨t, reason', rfl, hattempt⟩ := attemptStep_fails n made reason hw
      rw [hattempt]
      split_ifs with hpause
      · refine iff_of_false (by rintro ⟨r, ⟨⟩⟩) fun h => ?_
        have hno := h 1 t.world Nat.one_pos (by omega) (.next hw .none)
        rw [hpause.2] at hno
        cases hno
      · rw [ih]
        constructor
        · intro h k u hpos hk hu
          cases hu with
          | none => exact absurd hpos (Nat.lt_irrefl 0)
          | @next k _ v _ hfirst hrest =>
            obtain rfl := hw.unique hfirst
            rcases Nat.eq_zero_or_pos k with rfl | hpos'
            · exact Bool.eq_false_iff.mpr fun ho => hpause ⟨by omega, ho⟩
            · rw [Nat.add_comm k 1, ← Nat.add_assoc]
              exact h k u hpos' (by omega) hrest
        · intro h k u hpos hk hu
          rw [Nat.add_assoc, Nat.add_comm 1]
          exact h (k + 1) u (Nat.succ_pos k) (by omega) (.next hw hu)
    · push Not at hfails
      obtain ⟨o, ho⟩ := attemptStep_ends n made reason hfails
      refine iff_of_true ⟨_, ho⟩ fun k u hpos _ hu => ?_
      cases hu with
      | none => exact absurd hpos (Nat.lt_irrefl 0)
      | next hfirst _ => exact absurd hfirst (hfails _)

theorem attemptStep_used_up {n made : ℕ} {reason reason' : Str}
    (h : (attemptStep reg b step results n made reason s).1 = .ok (.inr reason')) :
    Fails reg b step.kind step.ref (resolveInputs step.inputs results) n s.world
      (attemptStep reg b step results n made reason s).2.world := by
  induction n generalizing made reason s with
  | zero => exact .none
  | succ n ih =>
    by_cases hfails :
        ∃ w, FailsOnce reg b step.kind step.ref (resolveInputs step.inputs results) s.world w
    · obtain ⟨w, hw⟩ := hfails
      obtain ⟨t, reason'', rfl, hattempt⟩ := attemptStep_fails n made reason hw
      rw [hattempt] at h ⊢
      split_ifs at h ⊢ with hpause
      exact .next hw (ih h)
    · push Not at hfails
      obtain ⟨o, ho⟩ := attemptStep_ends n made reason hfails
      cases h.symm.trans ho

theorem attemptStep_of_fails {n made : ℕ} {reason : Str} {w : W} {r : Outcome ⊕ Str}
    (hfails : Fails reg b step.kind step.ref (resolveInputs step.inputs results) n s.world w)
    (h : (attemptStep reg b step results n made reason s).1 = .ok r) :
    (∃ reason', r = .inr reason') ∧
      (attemptStep reg b step results n made reason s).2.world = w := by
  induction n generalizing made reason s with
  | zero =>
    cases hfails
    exact ⟨⟨reason, (Except.ok.inj h).symm⟩, rfl⟩
  | succ n ih =>
    cases hfails with
    | next hfirst hrest =>
      obtain ⟨t, reason', rfl, hattempt⟩ := attemptStep_fails n made reason hfirst
      rw [hattempt] at h ⊢
      split_ifs at h ⊢ with hpause
      exact ih hrest h

theorem attemptStep_calls (reg : Registry) (b : Behaviour W) (step : PlanStep)
    (results : List (Str × Outcome)) (n made : ℕ) (reason : Str) (s : Exec W) :
    ∃ tries ≤ n, (attemptStep reg b step results n made reason s).2.invoked =
      s.invoked ++ List.replicate tries ⟨step.kind, step.ref⟩ := by
  induction n generalizing made reason s with
  | zero => exact ⟨0, le_rfl, (List.append_nil _).symm⟩
  | succ n ih =>
    obtain ⟨calls, hcalls, hfirst⟩ :=
      dispatchStep_calls reg b step.kind step.ref step.inputs results s
    have hrest : ∀ reason, ∃ tries ≤ n + 1, (attemptStep reg b step results n (made + 1) reason
        (dispatchStep reg b step.kind step.ref step.inputs results s).2).2.invoked =
          s.invoked ++ List.replicate tries ⟨step.kind, step.ref⟩ := by
      intro reason
      obtain ⟨tries, htries, hinvoked⟩ := ih (made + 1) reason
        (dispatchStep reg b step.kind step.ref step.inputs results s).2
      refine ⟨calls + tries, by omega, ?_⟩
      rw [hinvoked, hfirst, List.append_assoc, List.replicate_append_replicate]
    rw [attemptStep]
    cases hr : (dispatchStep reg b step.kind step.ref step.inputs results s).1 with
    | error e =>
      cases e with
      | forbidden reason => exact ⟨calls, by omega, hfirst⟩
      | other reason =>
        dsimp only
        split_ifs
        · exact ⟨calls, by omega, hfirst⟩
        · exact hrest reason
    | ok o =>
      dsimp only
      split_ifs
      · exact ⟨calls, by omega, hfirst⟩
      · exact ⟨calls, by omega, hfirst⟩
      · exact hrest stepFailed

end attempts

section steps

variable {W : Type} {reg : Registry} {b : Behaviour W} {step : PlanStep}
  {results report : List (Str × Outcome)} {s : Exec W}

theorem dispatchStep_ok_iff {kind : StepKind} {ref : Str} {inputs : List (Str × Json)} :
    (∃ o, (dispatchStep reg b kind ref inputs results s).1 = .ok o) ↔
      reg.Callable kind ref ∧
        ∃ v, (b.call kind ref (resolveInputs inputs results) s.world).1 = .ok v ∧
          Readable kind v := by
  by_cases hcallable : reg.Callable kind ref
  · cases hcall : (b.call kind ref (resolveInputs inputs results) s.world).1 with
    | error e =>
      rw [dispatchStep_raised hcallable hcall]
      exact iff_of_false (fun ⟨o, ho⟩ => by cases ho) fun ⟨_, v, hv, _⟩ => by cases hv
    | ok v =>
      by_cases hread : Readable kind v
      · obtain ⟨o, ho, -⟩ := dispatchStep_readable hcallable hcall hread
        exact iff_of_true ⟨o, ho⟩ ⟨hcallable, v, rfl, hread⟩
      · obtain ⟨reason, hr⟩ := dispatchStep_unreadable hcallable hcall hread
        rw [hr]
        refine iff_of_false (fun ⟨o, ho⟩ => by cases ho) fun ⟨_, u, hu, hread'⟩ => ?_
        cases hu
        exact hread hread'
  · rw [dispatchStep_uncallable hcallable]
    exact iff_of_false (fun ⟨o, ho⟩ => by cases ho) fun h => hcallable h.1

theorem executeStep_returns_iff :
    (∃ o, (executeStep reg b step results s).1 = .ok o) ↔
      Survives reg b step results s.world := by
  have hwaits := attemptStep_returns_iff reg b step results (maxAttempts step) 0 stepFailed s
  simp only [Nat.zero_add] at hwaits
  rw [executeStep]
  cases hr : (attemptStep reg b step results (maxAttempts step) 0 stepFailed s).1 with
  | error e =>
    rw [hr] at hwaits
    refine iff_of_false (by rintro ⟨o, ⟨⟩⟩) fun h => ?_
    obtain ⟨r, hr⟩ := hwaits.mpr h.waits
    cases hr
  | ok result =>
    have hwaits := hwaits.mp ⟨result, hr⟩
    cases result with
    | inl o =>
      refine iff_of_true ⟨o, rfl⟩ ⟨hwaits, fun w' f hfails _ _ => ?_⟩
      obtain ⟨⟨reason, hreason⟩, -⟩ := attemptStep_of_fails hfails hr
      cases hreason
    | inr reason =>
      have hused := attemptStep_used_up hr
      dsimp only
      cases hf : fallbackOf step with
      | none =>
        refine iff_of_true ⟨_, rfl⟩ ⟨hwaits, fun w' f _ hf' _ => ?_⟩
        cases hf.symm.trans hf'
      | some f =>
        dsimp only
        by_cases hallow : reg.Allows step.kind f
        · rw [requireAllow_ok hallow]
          dsimp only
          rw [dispatchStep_ok_iff]
          constructor
          · intro h
            refine ⟨hwaits, fun w' g hfails hg _ => ?_⟩
            obtain rfl := Option.some.inj (hf.symm.trans hg)
            obtain rfl := (attemptStep_of_fails hfails hr).2
            exact h
          · intro h
            exact h.spare _ f hused hf hallow
        · rw [requireAllow_error hallow]
          refine iff_of_true ⟨_, rfl⟩ ⟨hwaits, fun w' g _ hg hallow' => ?_⟩
          obtain rfl := Option.some.inj (hf.symm.trans hg)
          exact absurd hallow' hallow

theorem executeStep_calls (reg : Registry) (b : Behaviour W) (step : PlanStep)
    (results : List (Str × Outcome)) (s : Exec W) :
    ∃ tries ≤ maxAttempts step, ∃ last : List Invocation,
      (executeStep reg b step results s).2.2.invoked =
          s.invoked ++ List.replicate tries ⟨step.kind, step.ref⟩ ++ last ∧
        (last = [] ∨ ∃ f, fallbackOf step = some f ∧ last = [⟨step.kind, f⟩]) := by
  obtain ⟨tries, htries, hinvoked⟩ :=
    attemptStep_calls reg b step results (maxAttempts step) 0 stepFailed s
  have hnone : (attemptStep reg b step results (maxAttempts step) 0 stepFailed s).2.invoked =
      s.invoked ++ List.replicate tries ⟨step.kind, step.ref⟩ ++ [] := by
    rw [hinvoked, List.append_nil]
  refine ⟨tries, htries, ?_⟩
  rw [executeStep]
  cases hr : (attemptStep reg b step results (maxAttempts step) 0 stepFailed s).1 with
  | error e => exact ⟨[], hnone, .inl rfl⟩
  | ok result =>
    cases result with
    | inl o => exact ⟨[], hnone, .inl rfl⟩
    | inr reason =>
      dsimp only
      cases hf : fallbackOf step with
      | none => exact ⟨[], hnone, .inl rfl⟩
      | some f =>
        dsimp only
        cases requireAllow reg step.kind f with
        | error reason => exact ⟨[], hnone, .inl rfl⟩
        | ok _ =>
          obtain ⟨calls, hcalls, hlast⟩ := dispatchStep_calls reg b step.kind f step.inputs results
            (attemptStep reg b step results (maxAttempts step) 0 stepFailed s).2
          refine ⟨List.replicate calls ⟨step.kind, f⟩, by rw [hlast, hinvoked], ?_⟩
          rcases Nat.le_one_iff_eq_zero_or_eq_one.mp hcalls with rfl | rfl
          · exact .inl rfl
          · exact .inr ⟨f, rfl, rfl⟩

theorem executeStep_results {o : Outcome} (h : (executeStep reg b step results s).1 = .ok o) :
    (executeStep reg b step results s).2.1 = results ∨
      (executeStep reg b step results s).2.1 = results ++ [(step.id, o)] := by
  rw [executeStep] at h ⊢
  cases hr : (attemptStep reg b step results (maxAttempts step) 0 stepFailed s).1 with
  | error e => exact .inl rfl
  | ok result =>
    rw [hr] at h
    cases result with
    | inl o' =>
      cases h
      dsimp only
      split_ifs
      · exact .inr rfl
      · exact .inl rfl
    | inr reason =>
      dsimp only
      cases hf : fallbackOf step with
      | none => exact .inl rfl
      | some f =>
        dsimp only
        cases requireAllow reg step.kind f <;> exact .inl rfl

variable {plan : Plan} {stopOnError : Bool} {steps : List PlanStep}

theorem executeSteps_returns_iff :
    (∃ r, (executeSteps reg b plan stopOnError steps results report s).1 = .ok r) ↔
      ∀ step' results' report' s',
        Visits reg b plan stopOnError steps results report s step' results' report' s' →
          Survives reg b step' results' s'.world := by
  induction steps generalizing results report s with
  | nil => exact iff_of_true ⟨_, rfl⟩ fun _ _ _ _ hvisit => by cases hvisit
  | cons step steps ih =>
    rw [executeSteps]
    by_cases hallow : reg.Allows step.kind step.ref
    · rw [requireAllow_ok hallow]
      dsimp only
      cases hr : (executeStep reg b step results s).1 with
      | error e =>
        refine iff_of_false (by rintro ⟨r, ⟨⟩⟩) fun h => ?_
        obtain ⟨o, ho⟩ := executeStep_returns_iff.mpr (h step results report s (.here hallow))
        cases hr.symm.trans ho
      | ok o =>
        have hhere := executeStep_returns_iff.mp ⟨o, hr⟩
        dsimp only
        split_ifs with hstop
        · refine iff_of_true ⟨_, rfl⟩ fun step' results' report' s' hvisit => ?_
          cases hvisit with
          | here _ => exact hhere
          | later _ hstep hgoes _ =>
            cases hr.symm.trans hstep
            rw [hgoes] at hstop
            cases hstop
        · rw [ih]
          constructor
          · intro h step' results' report' s' hvisit
            cases hvisit with
            | here _ => exact hhere
            | later _ hstep _ hrest =>
              cases hr.symm.trans hstep
              exact h _ _ _ _ hrest
          · intro h step' results' report' s' hvisit
            exact h _ _ _ _ (.later hallow hr (Bool.eq_false_iff.mpr hstop) hvisit)
    · rw [requireAllow_error hallow]
      refine iff_of_true ⟨_, rfl⟩ fun step' results' report' s' hvisit => ?_
      cases hvisit with
      | here h => exact absurd h hallow
      | later h _ _ _ => exact absurd h hallow

end steps

section stores

variable {W : Type} {reg : Registry} {b : Behaviour W} {plan : Plan} {stopOnError : Bool}
  {results report : List (Str × Outcome)} {id attr : Str} {o : Outcome}

structure Stores (results report : List (Str × Outcome)) (steps : List PlanStep) : Prop where
  sublist : results.Sublist report
  nodup : (report.map Prod.fst ++ steps.map PlanStep.id).Nodup

theorem Stores.step {step : PlanStep} {steps : List PlanStep} {s : Exec W}
    (h : Stores results report (step :: steps))
    (hstep : (executeStep reg b step results s).1 = .ok o) :
    Stores (executeStep reg b step results s).2.1 (report ++ [(step.id, o)]) steps where
  sublist := by
    rcases executeStep_results hstep with hsame | hkept
    · rw [hsame]
      exact h.sublist.trans (List.sublist_append_left ..)
    · rw [hkept]
      exact h.sublist.append (List.Sublist.refl _)
  nodup := by
    rw [List.map_append, List.append_assoc]
    exact h.nodup

theorem Visits.stores {steps : List PlanStep} {step : PlanStep} {s s' : Exec W}
    {results' report' : List (Str × Outcome)}
    (h : Visits reg b plan stopOnError steps results report s step results' report' s')
    (hstores : Stores results report steps) : ∃ steps', Stores results' report' steps' := by
  induction h with
  | here _ => exact ⟨_, hstores⟩
  | later _ hstep _ _ ih => exact ih (hstores.step hstep)

theorem Stores.find_eq {steps : List PlanStep} (h : Stores results report steps)
    (ho : (id, o) ∈ report) (hid : id ∈ results.map Prod.fst) :
    OrderedDict.find id results = some o := by
  have hreport := (List.nodup_append.mp h.nodup).1
  have hresults := hreport.sublist (h.sublist.map Prod.fst)
  obtain ⟨⟨id', o'⟩, hmem, rfl⟩ := List.mem_map.mp hid
  rw [(OrderedDict.find_eq_some hresults).mpr hmem]
  exact (OrderedDict.find_eq_some hreport).mpr (h.sublist.subset hmem) ▸
    (OrderedDict.find_eq_some hreport).mpr ho

theorem reference_refersTo (id attr : Str) :
    reference (refersTo id attr) = some (id ++ '.' :: attr) := by
  rw [refersTo, reference, if_pos]
  · rw [List.append_assoc, List.drop_append_of_le_length (by decide),
      List.drop_of_length_le (by decide), List.nil_append, List.dropLast_concat]
  · refine ⟨?_, List.getLast?_concat⟩
    rw [startsWith, List.append_assoc, List.isPrefixOf_iff_prefix]
    exact List.prefix_append ..

theorem get_dotted {a : Str} (o : Outcome) (h : '.' ∈ a) : o.get a = .null := by
  rw [Outcome.get, if_neg, if_neg]
  · rintro rfl
    revert h
    decide
  · rintro rfl
    revert h
    decide

theorem takeWhile_before (id attr : Str) (h : '.' ∉ id) :
    (id ++ '.' :: attr).takeWhile (· ≠ '.') = id ∧
      ((id ++ '.' :: attr).dropWhile (· ≠ '.')).tail = attr := by
  induction id with
  | nil => exact ⟨rfl, rfl⟩
  | cons c id ih =>
    rw [List.mem_cons, not_or] at h
    have hc : c ≠ '.' := Ne.symm h.1
    rw [List.cons_append, List.takeWhile_cons_of_pos (by simpa using hc),
      List.dropWhile_cons_of_pos (by simpa using hc), (ih h.2).1]
    exact ⟨rfl, (ih h.2).2⟩

theorem dropWhile_dotted (id attr : Str) (h : '.' ∈ id) :
    '.' ∈ ((id ++ '.' :: attr).dropWhile (· ≠ '.')).tail := by
  induction id with
  | nil => cases h
  | cons c id ih =>
    rw [List.cons_append]
    by_cases hc : c = '.'
    · rw [List.dropWhile_cons_of_neg (by simpa using hc), List.tail_cons]
      exact List.mem_append_right _ List.mem_cons_self
    · rw [List.dropWhile_cons_of_pos (by simpa using hc)]
      exact ih ((List.mem_cons.mp h).resolve_left (Ne.symm hc))

theorem resolveRef_dotted (results : List (Str × Outcome)) (attr : Str) (h : '.' ∈ id) :
    resolveRef (id ++ '.' :: attr) results = .null := by
  have htail := dropWhile_dotted id attr h
  rw [resolveRef]
  cases OrderedDict.find ((id ++ '.' :: attr).takeWhile (· ≠ '.')) results with
  | none => rfl
  | some o =>
    dsimp only
    rw [if_neg (List.ne_nil_of_mem htail)]
    exact get_dotted o htail

theorem Stores.resolves_iff {steps : List PlanStep} (h : Stores results report steps)
    (ho : (id, o) ∈ report) (hattr : attr ≠ []) :
    resolveRef (id ++ '.' :: attr) results = o.get attr ↔ Shared results id attr o := by
  by_cases hdot : '.' ∈ id
  · rw [resolveRef_dotted results attr hdot]
    constructor
    · exact fun heq => .inr heq.symm
    · rintro (⟨hno, -⟩ | hnull)
      · exact absurd hdot hno
      · exact hnull.symm
  · obtain ⟨hid, htail⟩ := takeWhile_before id attr hdot
    rw [resolveRef, hid, htail, if_neg hattr]
    by_cases hmem : id ∈ results.map Prod.fst
    · rw [h.find_eq ho hmem]
      exact iff_of_true rfl (.inl ⟨hdot, hmem⟩)
    · rw [OrderedDict.find_eq_none hmem]
      constructor
      · exact fun heq => .inr heq.symm
      · rintro (⟨-, hmem'⟩ | hnull)
        · exact absurd hmem' hmem
        · exact hnull.symm

theorem resolveInputs_cons (e : Str × Json) (inputs : List (Str × Json))
    (results : List (Str × Outcome)) :
    resolveInputs (e :: inputs) results =
      (e.1, (reference e.2).elim e.2 (resolveRef · results)) :: resolveInputs inputs results := by
  rw [resolveInputs, List.map_cons]
  cases reference e.2 <;> rfl

theorem find_resolveInputs {inputs : List (Str × Json)} {k : Str}
    (h : OrderedDict.find k inputs = some (refersTo id attr)) :
    OrderedDict.find k (resolveInputs inputs results) =
      some (resolveRef (id ++ '.' :: attr) results) := by
  induction inputs with
  | nil => cases h
  | cons e inputs ih =>
    rw [resolveInputs_cons, OrderedDict.find]
    rw [OrderedDict.find] at h
    split_ifs at h ⊢ with hk
    · rw [Option.some.inj h, reference_refersTo]
      rfl
    · exact ih h

end stores

section plans

variable {W : Type} {fl : Floats} {tx : Texts} {plan : Plan}

theorem execute_plan_keeps_iff {payload : Json} {fs : List (Str × Json)}
    (hdecode : decodePayload tx payload = .ok (.obj fs))
    (hvalid : validatePlan fl tx.repr fs = .ok plan) (reg : Registry) (b : Behaviour W)
    (stopOnError : Bool) (w : W) :
    Keeps reg b fl tx payload plan stopOnError w ↔
      ∀ step results report s, Reaches reg b plan stopOnError w step results report s →
        Survives reg b step results s.world ∧
          ∀ k id attr o, Refers step report k id attr o → Shared results id attr o := by
  have hstores : ∀ step results report s,
      Reaches reg b plan stopOnError w step results report s →
        ∃ steps, Stores results report steps := by
    intro step results report s hreach
    have hfirst : Stores [] [] plan.steps := ⟨.slnil, (validatePlan_spec hvalid).ids⟩
    exact hreach.stores hfirst
  have hresolves : ∀ step results report s,
      Reaches reg b plan stopOnError w step results report s → ∀ k id attr o,
        Refers step report k id attr o →
          (OrderedDict.find k (resolveInputs step.inputs results) = some (o.get attr) ↔
            Shared results id attr o) := by
    intro step results report s hreach k id attr o ⟨hk, hattr, ho, hok⟩
    obtain ⟨steps, hstore⟩ := hstores step results report s hreach
    rw [find_resolveInputs hk, Option.some_inj]
    exact hstore.resolves_iff ho hattr
  have hreturns : (∃ r, (executePlan fl tx reg b payload stopOnError w).1 = .ok r) ↔
      ∀ step results report s, Reaches reg b plan stopOnError w step results report s →
        Survives reg b step results s.world := by
    rw [executePlan_eq hdecode hvalid]
    exact executeSteps_returns_iff
  constructor
  · intro h step results report s hreach
    refine ⟨hreturns.mp h.returns step results report s hreach, fun k id attr o hrefers => ?_⟩
    exact (hresolves step results report s hreach k id attr o hrefers).mp
      (h.resolves step results report s hreach k id attr o hrefers)
  · intro h
    constructor
    · exact hreturns.mpr fun step results report s hreach => (h step results report s hreach).1
    · exact fun step results report s _ => executeStep_calls reg b step results s
    · intro step results report s hreach k id attr o hrefers
      exact (hresolves step results report s hreach k id attr o hrefers).mpr
        ((h step results report s hreach).2 k id attr o hrefers)

theorem keeps_when_first_succeeds :
    Keeps spareRegistry scripted plainFloats plainTexts (.obj (sparePlan [primary]).asDict)
      (sparePlan [primary]) true [true] := by
  refine (execute_plan_keeps_iff rfl rfl spareRegistry scripted true [true]).mpr ?_
  intro step results report s hreach
  cases hreach with
  | here _ =>
    refine ⟨⟨fun n w' hpos hn _ => ?_, fun w' f hfails _ _ => ?_⟩, fun k id attr o hrefers => ?_⟩
    · exact absurd hn (Nat.not_lt.mpr hpos)
    · cases hfails with
      | next hfirst _ =>
        cases hfirst with
        | noHandler h => exact absurd (.inr (by decide)) h
        | raised _ h => cases h
        | unfit _ _ h => exact absurd (.inl rfl) h
    · cases hrefers.2.2.1
  | later _ _ _ hrest => cases hrest

theorem raising_fallback_escapes :
    validatePlan plainFloats plainTexts.repr (sparePlan [primary, spare]).asDict =
        .ok (sparePlan [primary, spare]) ∧
      ¬ Keeps spareRegistry scripted plainFloats plainTexts
        (.obj (sparePlan [primary, spare]).asDict) (sparePlan [primary, spare]) true [] := by
  refine ⟨rfl, fun h => ?_⟩
  obtain ⟨r, hr⟩ := h.returns
  cases hr

end plans

end TraceMind.Planner
