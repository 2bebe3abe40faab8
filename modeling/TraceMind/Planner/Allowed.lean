import TraceMind.Planner.Execute

namespace TraceMind.Planner

def Registry.Callable (reg : Registry) (kind : StepKind) (ref : Str) : Prop :=
  kind = .flow ∨ ref ∈ reg.tools

def Registry.Allows (reg : Registry) (kind : StepKind) (ref : Str) : Prop := ref ∈ reg.allow.of kind

def PlanStep.Exhaustible (step : PlanStep) : Prop :=
  ∀ attempt, 0 < attempt → attempt < maxAttempts step → pauseOverflows step attempt = false

def Registry.Passes (reg : Registry) (step : PlanStep) : Prop :=
  reg.Callable step.kind step.ref ∨ step.Exhaustible ∧
    ∀ f, fallbackOf step = some f → reg.Allows step.kind f → reg.Callable step.kind f

def FallbacksWithin (reg : Registry) (allow : AllowList) : List PlanStep → Prop
  | [] => True
  | step :: steps => reg.Allows step.kind step.ref →
      (step.Exhaustible → ∀ f, fallbackOf step = some f → reg.Allows step.kind f →
        reg.Callable step.kind f → f ∈ allow.of step.kind) ∧
      (reg.Passes step → FallbacksWithin reg allow steps)

def Confined (fl : Floats) (tx : Texts) (reg : Registry) (allow : AllowList) (payload : Json) :
    Prop :=
  ∀ (W : Type) (b : Behaviour W) (stopOnError : Bool) (w : W),
    ∀ c ∈ (executePlan fl tx reg b payload stopOnError w).2.invoked,
      c.ref ∈ allow.of c.kind ∧ reg.Allows c.kind c.ref

section soundness

variable {W : Type} {reg : Registry} {b : Behaviour W} {allow : AllowList} {step : PlanStep}
  {results report : List (Str × Outcome)} {s : Exec W} {c : Invocation}

theorem requireAllow_ok {kind : StepKind} {ref : Str} (h : reg.Allows kind ref) :
    requireAllow reg kind ref = .ok () := if_pos h

theorem requireAllow_error {kind : StepKind} {ref : Str} (h : ¬ reg.Allows kind ref) :
    requireAllow reg kind ref = .error (forbiddenReason kind ref) := if_neg h

theorem dispatchStep_invoked {kind : StepKind} {ref : Str} {inputs : List (Str × Json)}
    (h : c ∈ (dispatchStep reg b kind ref inputs results s).2.invoked) :
    c ∈ s.invoked ∨ (c = ⟨kind, ref⟩ ∧ reg.Callable kind ref) := by
  cases kind with
  | tool =>
    simp only [dispatchStep] at h
    split_ifs at h with hmem
    · rcases List.mem_append.mp h with h | h
      · exact .inl h
      · exact .inr ⟨List.mem_singleton.mp h, .inr hmem⟩
    · exact .inl h
  | flow =>
    rcases List.mem_append.mp h with h | h
    · exact .inl h
    · exact .inr ⟨List.mem_singleton.mp h, .inl rfl⟩

theorem attemptStep_invoked {n made : ℕ} {reason : Str}
    (h : c ∈ (attemptStep reg b step results n made reason s).2.invoked) :
    c ∈ s.invoked ∨ c = ⟨step.kind, step.ref⟩ := by
  induction n generalizing made reason s with
  | zero => exact .inl h
  | succ n ih =>
    have hfirst : c ∈ (dispatchStep reg b step.kind step.ref step.inputs results s).2.invoked →
        c ∈ s.invoked ∨ c = ⟨step.kind, step.ref⟩ :=
      fun hc => (dispatchStep_invoked hc).imp_right And.left
    rw [attemptStep] at h
    cases hr : (dispatchStep reg b step.kind step.ref step.inputs results s).1 with
    | error e =>
      rw [hr] at h
      cases e with
      | forbidden reason' => exact hfirst h
      | other reason' =>
        dsimp only at h
        split_ifs at h
        · exact hfirst h
        · rcases ih h with h | h
          · exact hfirst h
          · exact .inr h
    | ok o =>
      rw [hr] at h
      dsimp only at h
      split_ifs at h
      · exact hfirst h
      · exact hfirst h
      · rcases ih h with h | h
        · exact hfirst h
        · exact .inr h

theorem attemptStep_exhausted {n made : ℕ} {reason reason' : Str}
    (h : (attemptStep reg b step results n made reason s).1 = .ok (.inr reason')) :
    ∀ k, made < k → k < made + n → pauseOverflows step k = false := by
  induction n generalizing made reason s with
  | zero => exact fun k hk hn => absurd hn (Nat.not_lt.mpr hk.le)
  | succ n ih =>
    have hrest : ∀ t reason, (attemptStep reg b step results n (made + 1) reason t).1 =
        .ok (.inr reason') → ¬ (n ≠ 0 ∧ pauseOverflows step (made + 1) = true) →
        ∀ k, made < k → k < made + (n + 1) → pauseOverflows step k = false := by
      intro t reason ht hpause k hk hn
      rcases Nat.lt_or_ge (made + 1) k with hlt | hge
      · exact ih ht k hlt (by omega)
      · obtain rfl : k = made + 1 := by omega
        exact Bool.eq_false_iff.mpr fun ho => hpause ⟨by omega, ho⟩
    rw [attemptStep] at h
    cases hr : (dispatchStep reg b step.kind step.ref step.inputs results s).1 with
    | error e =>
      rw [hr] at h
      cases e with
      | forbidden r => cases h
      | other r =>
        dsimp only at h
        split_ifs at h with hp
        exact hrest _ _ h hp
    | ok o =>
      rw [hr] at h
      dsimp only at h
      split_ifs at h with ho hp
      · cases h
      · exact hrest _ _ h hp

theorem exhaustible_of_attempts {reason reason' : Str}
    (h : (attemptStep reg b step results (maxAttempts step) 0 reason s).1 = .ok (.inr reason')) :
    step.Exhaustible := fun k hpos hlt =>
  attemptStep_exhausted h k hpos (by rwa [Nat.zero_add])

theorem executeStep_invoked (h : c ∈ (executeStep reg b step results s).2.2.invoked) :
    c ∈ s.invoked ∨ c = ⟨step.kind, step.ref⟩ ∨
      ∃ f, step.Exhaustible ∧ fallbackOf step = some f ∧ reg.Allows step.kind f ∧
        reg.Callable step.kind f ∧ c = ⟨step.kind, f⟩ := by
  have hattempts :
      c ∈ (attemptStep reg b step results (maxAttempts step) 0 stepFailed s).2.invoked →
      c ∈ s.invoked ∨ c = ⟨step.kind, step.ref⟩ := attemptStep_invoked
  rw [executeStep] at h
  cases hr : (attemptStep reg b step results (maxAttempts step) 0 stepFailed s).1 with
  | error e =>
    rw [hr] at h
    exact (hattempts h).imp_right .inl
  | ok result =>
    cases result with
    | inl o =>
      rw [hr] at h
      exact (hattempts h).imp_right .inl
    | inr reason =>
      have hex := exhaustible_of_attempts hr
      rw [hr] at h
      cases hf : fallbackOf step with
      | none =>
        rw [hf] at h
        exact (hattempts h).imp_right .inl
      | some f =>
        rw [hf] at h
        dsimp only at h
        by_cases hallow : reg.Allows step.kind f
        · rw [requireAllow_ok hallow] at h
          rcases dispatchStep_invoked h with h | ⟨rfl, hcall⟩
          · exact (hattempts h).imp_right .inl
          · exact .inr (.inr ⟨f, hex, rfl, hallow, hcall, rfl⟩)
        · rw [requireAllow_error hallow] at h
          exact (hattempts h).imp_right .inl

theorem dispatchStep_uncallable {kind : StepKind} {ref : Str} {inputs : List (Str × Json)}
    (h : ¬ reg.Callable kind ref) :
    dispatchStep reg b kind ref inputs results s =
      (.error (.other ("Unknown tool '".toList ++ ref ++ "'".toList)), s) := by
  cases kind with
  | flow => exact absurd (.inl rfl) h
  | tool => rw [dispatchStep, if_neg (fun hmem => h (.inr hmem))]

theorem attemptStep_uncallable (b : Behaviour W) (results : List (Str × Outcome)) (s : Exec W)
    (h : ¬ reg.Callable step.kind step.ref) (n made : ℕ) (reason : Str)
    (hpause : ∀ k, made < k → k < made + n → pauseOverflows step k = false) :
    ∃ reason', attemptStep reg b step results n made reason s = (.ok (.inr reason'), s) := by
  induction n generalizing made reason with
  | zero => exact ⟨reason, rfl⟩
  | succ n ih =>
    rw [attemptStep, dispatchStep_uncallable h]
    dsimp only
    rw [if_neg]
    · exact ih _ _ fun k hk hn => hpause k (by omega) (by omega)
    · rintro ⟨hn, ho⟩
      rw [hpause (made + 1) (by omega) (by omega)] at ho
      cases ho

theorem attemptStep_uncallable_ends (b : Behaviour W) (results : List (Str × Outcome))
    (s : Exec W) (h : ¬ reg.Callable step.kind step.ref) (n made : ℕ) (reason : Str) :
    (attemptStep reg b step results n made reason s).1 = .error overflow ∨
      ∃ reason', attemptStep reg b step results n made reason s = (.ok (.inr reason'), s) := by
  induction n generalizing made reason with
  | zero => exact .inr ⟨reason, rfl⟩
  | succ n ih =>
    rw [attemptStep, dispatchStep_uncallable h]
    dsimp only
    split_ifs
    · exact .inl rfl
    · exact ih _ _

theorem passes_of_executeStep {o : Outcome} (h : (executeStep reg b step results s).1 = .ok o) :
    reg.Passes step := by
  by_contra hnot
  rw [Registry.Passes, not_or] at hnot
  obtain ⟨href, hfall⟩ := hnot
  rw [executeStep] at h
  rcases attemptStep_uncallable_ends b results s href (maxAttempts step) 0 stepFailed with
    hattempt | ⟨reason, hattempt⟩
  · rw [hattempt] at h
    cases h
  · have hex : step.Exhaustible := exhaustible_of_attempts (congrArg Prod.fst hattempt)
    push Not at hfall
    obtain ⟨f, hf, hallow, hcall⟩ := hfall hex
    rw [hattempt] at h
    dsimp only at h
    rw [hf] at h
    dsimp only at h
    rw [requireAllow_ok hallow] at h
    dsimp only at h
    rw [dispatchStep_uncallable hcall] at h
    cases h

theorem executeSteps_invoked {plan : Plan} {stopOnError : Bool} {steps : List PlanStep}
    (hwithin : FallbacksWithin reg allow steps)
    (hrefs : ∀ step ∈ steps, step.ref ∈ allow.of step.kind)
    (h : c ∈ (executeSteps reg b plan stopOnError steps results report s).2.invoked) :
    c ∈ s.invoked ∨ (c.ref ∈ allow.of c.kind ∧ reg.Allows c.kind c.ref) := by
  induction steps generalizing results report s with
  | nil => exact .inl h
  | cons step steps ih =>
    rw [executeSteps] at h
    by_cases hallow : reg.Allows step.kind step.ref
    · rw [requireAllow_ok hallow] at h
      dsimp only at h
      obtain ⟨hfall, hrest⟩ := hwithin hallow
      have hstep : c ∈ (executeStep reg b step results s).2.2.invoked →
          c ∈ s.invoked ∨ (c.ref ∈ allow.of c.kind ∧ reg.Allows c.kind c.ref) := by
        intro hc
        rcases executeStep_invoked hc with hc | rfl | ⟨f, hex, hf, hfallow, hcall, rfl⟩
        · exact .inl hc
        · exact .inr ⟨hrefs step List.mem_cons_self, hallow⟩
        · exact .inr ⟨hfall hex f hf hfallow hcall, hfallow⟩
      cases hr : (executeStep reg b step results s).1 with
      | error e =>
        rw [hr] at h
        exact hstep h
      | ok o =>
        rw [hr] at h
        dsimp only at h
        split_ifs at h
        · exact hstep h
        · rcases ih (hrest (passes_of_executeStep hr))
            (fun u hu => hrefs u (List.mem_cons_of_mem _ hu)) h with h | h
          · exact hstep h
          · exact .inr h
    · rw [requireAllow_error hallow] at h
      exact .inl h

end soundness

section completeness

variable {reg : Registry} {allow : AllowList} {step : PlanStep}

def scripted : Behaviour (List Bool) where
  tool _ _ w :=
    match w with
    | true :: w => (.ok .null, w)
    | _ :: w => (.error (.other []), w)
    | [] => (.error (.other []), [])
  flow _ _ w :=
    match w with
    | true :: w => (.ok (.obj []), w)
    | _ :: w => (.error (.other []), w)
    | [] => (.error (.other []), [])

theorem dispatchStep_scripted_ok {kind : StepKind} {ref : Str} (h : reg.Callable kind ref)
    (inputs : List (Str × Json)) (results : List (Str × Outcome)) (w : List Bool)
    (invoked : List Invocation) :
    ∃ o, o.isOk = true ∧ dispatchStep reg scripted kind ref inputs results ⟨true :: w, invoked⟩ =
      (.ok o, ⟨w, invoked ++ [⟨kind, ref⟩]⟩) := by
  cases kind with
  | flow => exact ⟨_, rfl, rfl⟩
  | tool =>
    obtain h | h := h
    · cases h
    · exact ⟨_, rfl, by rw [dispatchStep, if_pos h]; rfl⟩

theorem dispatchStep_scripted_error {kind : StepKind} {ref : Str} (h : reg.Callable kind ref)
    (inputs : List (Str × Json)) (results : List (Str × Outcome)) (invoked : List Invocation) :
    dispatchStep reg scripted kind ref inputs results ⟨[], invoked⟩ =
      (.error (.other []), ⟨[], invoked ++ [⟨kind, ref⟩]⟩) := by
  cases kind with
  | flow => rfl
  | tool =>
    obtain h | h := h
    · cases h
    · rw [dispatchStep, if_pos h]
      rfl

theorem attemptStep_scripted_error (results : List (Str × Outcome)) (n made : ℕ) (reason : Str)
    (invoked : List Invocation)
    (hpause : ∀ k, made < k → k < made + n → pauseOverflows step k = false) :
    ∃ reason' invoked', attemptStep reg scripted step results n made reason ⟨[], invoked⟩ =
      (.ok (.inr reason'), ⟨[], invoked'⟩) := by
  induction n generalizing made reason invoked with
  | zero => exact ⟨reason, invoked, rfl⟩
  | succ n ih =>
    by_cases hcall : reg.Callable step.kind step.ref
    · rw [attemptStep, dispatchStep_scripted_error hcall]
      dsimp only
      rw [if_neg]
      · exact ih _ [] _ fun k hk hn => hpause k (by omega) (by omega)
      · rintro ⟨hn, ho⟩
        rw [hpause (made + 1) (by omega) (by omega)] at ho
        cases ho
    · obtain ⟨reason', hattempt⟩ :=
        attemptStep_uncallable scripted results ⟨[], invoked⟩ hcall (n + 1) made reason hpause
      exact ⟨reason', invoked, hattempt⟩

theorem PlanStep.Exhaustible.pauses (h : step.Exhaustible) :
    ∀ k, 0 < k → k < 0 + maxAttempts step → pauseOverflows step k = false := by
  rw [Nat.zero_add]
  exact h

theorem fallback_invoked {f : Str} (hex : step.Exhaustible) (hf : fallbackOf step = some f)
    (hallow : reg.Allows step.kind f) (hcall : reg.Callable step.kind f)
    (results : List (Str × Outcome)) (invoked : List Invocation) :
    ∃ e invoked', executeStep reg scripted step results ⟨[], invoked⟩ =
      (.error e, results, ⟨[], invoked' ++ [⟨step.kind, f⟩]⟩) := by
  obtain ⟨reason, invoked', hattempt⟩ :=
    attemptStep_scripted_error results (maxAttempts step) 0 stepFailed invoked hex.pauses
  refine ⟨.other [], invoked', ?_⟩
  rw [executeStep, hattempt]
  dsimp only
  rw [hf]
  dsimp only
  rw [requireAllow_ok hallow]
  dsimp only
  rw [dispatchStep_scripted_error hcall]

theorem executeStep_scripted_ok (hpos : 0 < maxAttempts step)
    (hcall : reg.Callable step.kind step.ref) (results : List (Str × Outcome)) (w : List Bool)
    (invoked : List Invocation) :
    ∃ o results' invoked', executeStep reg scripted step results ⟨true :: w, invoked⟩ =
      (.ok o, results', ⟨w, invoked'⟩) := by
  obtain ⟨n, hn⟩ := Nat.exists_eq_add_of_lt hpos
  obtain ⟨o, hok, hdispatch⟩ := dispatchStep_scripted_ok hcall step.inputs results w invoked
  have hattempt : attemptStep reg scripted step results (maxAttempts step) 0 stepFailed
      ⟨true :: w, invoked⟩ = (.ok (.inl o), ⟨w, invoked ++ [⟨step.kind, step.ref⟩]⟩) := by
    rw [hn, Nat.zero_add, attemptStep, hdispatch]
    dsimp only
    rw [hok, if_pos rfl]
  rw [executeStep, hattempt]
  exact ⟨o, _, _, rfl⟩

theorem executeStep_passes (hpos : 0 < maxAttempts step) (h : reg.Passes step) :
    ∃ first, ∀ (results : List (Str × Outcome)) (w : List Bool) (invoked : List Invocation),
      ∃ o results' invoked', executeStep reg scripted step results ⟨first ++ w, invoked⟩ =
        (.ok o, results', ⟨w, invoked'⟩) := by
  by_cases hcall : reg.Callable step.kind step.ref
  · exact ⟨[true], fun results w invoked => executeStep_scripted_ok hpos hcall results w invoked⟩
  · obtain ⟨hex, hfall⟩ := h.resolve_left hcall
    cases hf : fallbackOf step with
    | none =>
      refine ⟨[], fun results w invoked => ?_⟩
      obtain ⟨reason, hattempt⟩ :=
        attemptStep_uncallable scripted results ⟨w, invoked⟩ hcall (maxAttempts step) 0 stepFailed
          hex.pauses
      rw [List.nil_append, executeStep, hattempt]
      dsimp only
      rw [hf]
      exact ⟨_, _, _, rfl⟩
    | some f =>
      by_cases hallow : reg.Allows step.kind f
      · refine ⟨[true], fun results w invoked => ?_⟩
        obtain ⟨reason, hattempt⟩ := attemptStep_uncallable scripted results
          ⟨true :: w, invoked⟩ hcall (maxAttempts step) 0 stepFailed
          hex.pauses
        obtain ⟨o, -, hdispatch⟩ :=
          dispatchStep_scripted_ok (hfall f hf hallow) step.inputs results w invoked
        rw [List.singleton_append, executeStep, hattempt]
        dsimp only
        rw [hf]
        dsimp only
        rw [requireAllow_ok hallow]
        dsimp only
        rw [hdispatch]
        exact ⟨o, _, _, rfl⟩
      · refine ⟨[], fun results w invoked => ?_⟩
        obtain ⟨reason, hattempt⟩ :=
          attemptStep_uncallable scripted results ⟨w, invoked⟩ hcall (maxAttempts step) 0 stepFailed
          hex.pauses
        rw [List.nil_append, executeStep, hattempt]
        dsimp only
        rw [hf]
        dsimp only
        rw [requireAllow_error hallow]
        exact ⟨_, _, _, rfl⟩

theorem exists_invoked_outside (plan : Plan) {steps : List PlanStep}
    (hpos : ∀ step ∈ steps, 0 < maxAttempts step) (h : ¬ FallbacksWithin reg allow steps) :
    ∃ w, ∀ (results report : List (Str × Outcome)) (invoked : List Invocation),
      ∃ c ∈ (executeSteps reg scripted plan false steps results report ⟨w, invoked⟩).2.invoked,
        c.ref ∉ allow.of c.kind := by
  induction steps with
  | nil => exact absurd trivial h
  | cons step steps ih =>
    rw [FallbacksWithin] at h
    push Not at h
    obtain ⟨hallow, hcase⟩ := h
    by_cases hhere : step.Exhaustible → ∀ f, fallbackOf step = some f →
        reg.Allows step.kind f → reg.Callable step.kind f → f ∈ allow.of step.kind
    · obtain ⟨hpass, hrest⟩ := hcase hhere
      obtain ⟨w, hw⟩ := ih (fun u hu => hpos u (List.mem_cons_of_mem _ hu)) hrest
      obtain ⟨first, hfirst⟩ := executeStep_passes (hpos step List.mem_cons_self) hpass
      refine ⟨first ++ w, fun results report invoked => ?_⟩
      obtain ⟨o, results', invoked', hstep⟩ := hfirst results w invoked
      rw [executeSteps, requireAllow_ok hallow]
      dsimp only
      rw [hstep]
      dsimp only
      rw [Bool.and_false, if_neg Bool.false_ne_true]
      exact hw results' _ invoked'
    · push Not at hhere
      obtain ⟨hex, f, hf, hfallow, hcall, hout⟩ := hhere
      refine ⟨[], fun results report invoked => ⟨⟨step.kind, f⟩, ?_, hout⟩⟩
      obtain ⟨e, invoked', hstep⟩ := fallback_invoked hex hf hfallow hcall results invoked
      rw [executeSteps, requireAllow_ok hallow]
      dsimp only
      rw [hstep]
      simp

end completeness

section plans

variable {fl : Floats} {tx : Texts} {reg : Registry} {allow : AllowList} {plan : Plan}

theorem maxAttempts_pos {step : PlanStep} (h : step.Canonical allow) : 0 < maxAttempts step := by
  rw [maxAttempts, retryOf]
  cases hon : step.onError with
  | none => exact Nat.one_pos
  | some o =>
    rw [Option.bind_some]
    cases hretry : o.retry with
    | none => exact Nat.one_pos
    | some r =>
      have hmax := ((h.onError o hon).retry r hretry).max
      dsimp only
      omega

theorem executePlan_eq {W : Type} {b : Behaviour W} {payload : Json} {fs : List (Str × Json)}
    (hdecode : decodePayload tx payload = .ok (.obj fs))
    (hvalid : validatePlan fl tx.repr fs = .ok plan) (stopOnError : Bool) (w : W) :
    executePlan fl tx reg b payload stopOnError w =
      executeSteps reg b plan stopOnError plan.steps [] [] ⟨w, []⟩ := by
  rw [executePlan, hdecode]
  dsimp only
  rw [hvalid]

theorem confined_iff_within {payload : Json} {fs : List (Str × Json)}
    (hdecode : decodePayload tx payload = .ok (.obj fs))
    (hvalid : validatePlan fl tx.repr fs = .ok plan)
    (hrefs : ∀ step ∈ plan.steps, step.ref ∈ allow.of step.kind) :
    Confined fl tx reg allow payload ↔ FallbacksWithin reg allow plan.steps := by
  have hcan := validatePlan_spec hvalid
  constructor
  · intro h
    by_contra hnot
    obtain ⟨w, hw⟩ := exists_invoked_outside plan
      (fun step hstep => maxAttempts_pos (hcan.steps step hstep)) hnot
    obtain ⟨c, hc, hout⟩ := hw [] [] []
    rw [← executePlan_eq hdecode hvalid] at hc
    exact hout (h (List Bool) scripted false w c hc).1
  · intro h W b stopOnError w c hc
    rw [executePlan_eq hdecode hvalid] at hc
    rcases executeSteps_invoked h hrefs hc with hc | hc
    · cases hc
    · exact hc

theorem planLoop_ok {request : PlanRequest} {replies : ℕ → ModelReply} {n k j : ℕ}
    {dict : List (Str × Json)} (h : planLoop fl tx request replies n k = .ok (.ok dict j)) :
    ∃ text plan, readPlan fl tx request text = .plan plan ∧ dict = plan.asDict := by
  induction n generalizing k with
  | zero => cases h
  | succ n ih =>
    rw [planLoop] at h
    cases hr : replies k with
    | llmError code message =>
      rw [hr] at h
      dsimp only at h
      split_ifs at h
      · exact ih h
      · cases h
    | failed message =>
      rw [hr] at h
      cases h
    | output text =>
      rw [hr] at h
      dsimp only at h
      cases hread : readPlan fl tx request text with
      | plan p =>
        rw [hread] at h
        cases h
        exact ⟨text, p, hread, rfl⟩
      | retry reason =>
        rw [hread] at h
        dsimp only at h
        split_ifs at h
        · exact ih h
        · cases h
      | refused code reason =>
        rw [hread] at h
        cases h
      | raised e =>
        rw [hread] at h
        cases h

theorem readPlan_plan {request : PlanRequest} {text : Str}
    (h : readPlan fl tx request text = .plan plan) :
    plan.Canonical fl ∧ ∀ step ∈ plan.steps, step.ref ∈ request.allow.of step.kind := by
  rw [readPlan] at h
  cases hloads : tx.loads (strip text) with
  | error e =>
    rw [hloads] at h
    cases h
  | ok v =>
    rw [hloads] at h
    cases v with
    | obj fs =>
      dsimp only at h
      cases hvalid : validatePlan fl tx.repr fs with
      | error e =>
        rw [hvalid] at h
        cases e <;> cases h
      | ok p =>
        rw [hvalid] at h
        dsimp only at h
        cases hforbidden : planForbidden p request with
        | some r =>
          rw [hforbidden] at h
          cases h
        | none =>
          rw [hforbidden] at h
          cases h
          refine ⟨validatePlan_spec hvalid, fun step hstep => ?_⟩
          rw [planForbidden] at hforbidden
          cases htools : firstForbidden plan.allow.tools request.allow.tools with
          | some ref =>
            rw [htools] at hforbidden
            cases hforbidden
          | none =>
            rw [htools] at hforbidden
            dsimp only at hforbidden
            cases hflows : firstForbidden plan.allow.flows request.allow.flows with
            | some ref =>
              rw [hflows] at hforbidden
              cases hforbidden
            | none =>
              rw [hflows] at hforbidden
              rw [Option.map_eq_none_iff, List.find?_eq_none] at hforbidden
              simpa using hforbidden step hstep
    | _ => cases h

theorem execute_plan_confined_iff (fl : Floats) (tx : Texts) (reg : Registry) :
    (∀ payload fs plan, decodePayload tx payload = .ok (.obj fs) →
      validatePlan fl tx.repr fs = .ok plan →
        (Confined fl tx reg plan.allow payload ↔ FallbacksWithin reg plan.allow plan.steps)) ∧
    ∀ request replies dict k, aiPlan fl tx request replies = .ok (.ok dict k) →
      ∃ plan, validatePlan fl tx.repr dict = .ok plan ∧
        (Confined fl tx reg request.allow (.obj dict) ↔
          FallbacksWithin reg request.allow plan.steps) := by
  constructor
  · intro payload fs plan hdecode hvalid
    exact confined_iff_within hdecode hvalid
      (fun step hstep => ((validatePlan_spec hvalid).steps step hstep).listed)
  · intro request replies dict k h
    obtain ⟨text, plan, hread, rfl⟩ := planLoop_ok h
    obtain ⟨hcan, hrefs⟩ := readPlan_plan hread
    exact ⟨plan, hcan.validate, confined_iff_within rfl hcan.validate hrefs⟩

def plainFloats : Floats where
  ofNumber v := if isFloat v then .ok v else .error (.typeError "must be a real number")
  negative _ := false
  isFloat_ofNumber v w h := by
    split_ifs at h with hv
    obtain rfl := Except.ok.inj h
    exact hv
  ofNumber_float w hw := if_pos hw

def plainTexts : Texts where
  loads _ := .error "Expecting value".toList
  repr _ := "None".toList
  error _ := []

def primary : Str := "tool.primary".toList

def spare : Str := "tool.spare".toList

def spareRegistry : Registry := ⟨[primary, spare], ⟨[primary, spare], []⟩⟩

def sparePlan (allowed : List Str) : Plan where
  goal := "goal".toList
  constraints := {}
  allow := ⟨allowed, []⟩
  steps := [⟨"s1".toList, .tool, primary, [], some ⟨none, some spare⟩⟩]

theorem spare_listed_confined :
    Confined plainFloats plainTexts spareRegistry ⟨[primary, spare], []⟩
      (.obj (sparePlan [primary, spare]).asDict) := by
  have hvalid : validatePlan plainFloats plainTexts.repr (sparePlan [primary, spare]).asDict =
      .ok (sparePlan [primary, spare]) := rfl
  refine ((execute_plan_confined_iff plainFloats plainTexts spareRegistry).1 _ _ _ rfl hvalid).mpr ?_
  refine fun _ => ⟨fun _ f hf _ _ => ?_, fun _ => trivial⟩
  obtain rfl : spare = f := Option.some.inj hf
  decide

theorem spare_unlisted_invoked :
    validatePlan plainFloats plainTexts.repr (sparePlan [primary]).asDict =
        .ok (sparePlan [primary]) ∧
      ⟨.tool, spare⟩ ∈ (executePlan plainFloats plainTexts spareRegistry scripted
        (.obj (sparePlan [primary]).asDict) true []).2.invoked ∧
      spare ∉ (sparePlan [primary]).allow.of .tool := by
  refine ⟨rfl, ?_, by decide⟩
  decide

end plans

end TraceMind.Planner
