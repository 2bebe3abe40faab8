import TraceMind.Flow.Runtime

namespace TraceMind.Flow

open Governance (GovernanceManager truthy)

variable {α : Type}

abbrev Cache (α : Type) := OrderedDict Str (ℚ × Result α)

namespace FlowRuntime

variable {now : ℚ} {rt : FlowRuntime α} {r : Result α}

theorem getCachedResult_snd (now : ℚ) (key : Str) (rt : FlowRuntime α) :
    ∃ c : Cache α, (rt.getCachedResult now key).2 = { rt with cache := c } ∧
      ∀ j e, c.get? j = some e → rt.cache.get? j = some e := by
  unfold getCachedResult
  split_ifs
  · exact ⟨rt.cache, rfl, fun _ _ he => he⟩
  · split
    · exact ⟨rt.cache, rfl, fun _ _ he => he⟩
    · split_ifs
      · refine ⟨_, rfl, fun j e he => ?_⟩
        rw [OrderedDict.get?_erase] at he
        split_ifs at he
        exact he
      · exact ⟨_, rfl, fun j e he => OrderedDict.get?_moveToEnd rt.cache _ j ▸ he⟩

theorem getCachedResult_fst {key : Str} (h : (rt.getCachedResult now key).1 = some r) :
    ∃ expires, rt.cache.get? key = some (expires, r) := by
  unfold getCachedResult at h
  split_ifs at h
  split at h
  · cases h
  · rename_i expires value hget
    split_ifs at h
    cases h
    exact ⟨expires, hget⟩

theorem cacheFor_eq (now : ℚ) (key : Option Str) (r : Result α) (rt : FlowRuntime α) :
    ∃ c : Cache α, rt.cacheFor now key r = { rt with cache := c } ∧
      ∀ j e, c.get? j = some e → rt.cache.get? j = some e ∨ key = some j ∧ e.2 = r := by
  have hsame : ∃ c : Cache α, rt = { rt with cache := c } ∧
      ∀ j e, c.get? j = some e → rt.cache.get? j = some e ∨ key = some j ∧ e.2 = r :=
    ⟨rt.cache, rfl, fun _ _ he => Or.inl he⟩
  unfold cacheFor
  split
  · exact hsame
  · unfold maybeCacheResult
    split_ifs
    · exact hsame
    · exact hsame
    · refine ⟨_, rfl, fun j e he => ?_⟩
      have hstore := OrderedDict.get?_of_trim he
      rw [OrderedDict.get?_store] at hstore
      split_ifs at hstore with hj
      · cases hstore
        exact Or.inr ⟨by rw [hj], rfl⟩
      · exact Or.inl hstore

end FlowRuntime

namespace Loop

def begun (call : Call) (cache : Cache α) (g : GovernanceManager) (inflight : Str → Option ℕ)
    (s : Loop α) : Loop α :=
  { s.numbered call with runtime := { s.runtime with cache, governance := g, inflight } }

def entered (call : Call) (s : Loop α) : Str → Option ℕ :=
  match truthy call.idempotencyKey with
  | none => s.runtime.inflight
  | some key => Function.update s.runtime.inflight key (some s.next)

theorem entered_apply (call : Call) (s : Loop α) (key : Str) :
    s.entered call key =
      if truthy call.idempotencyKey = some key then some s.next else s.runtime.inflight key := by
  unfold entered
  cases truthy call.idempotencyKey with
  | none => rfl
  | some k =>
    dsimp only
    rw [Function.update_apply]
    by_cases hk : key = k
    · rw [if_pos hk, if_pos (by rw [hk])]
    · rw [if_neg hk, if_neg (fun he => hk (Option.some.inj he).symm)]

structure Made (call : Call) (s : Loop α) (request : Request) : Prop where
  name : request.flowName = call.name
  key : request.idempotencyKey = call.idempotencyKey
  future : request.future = s.next

def Free (call : Call) (s : Loop α) : Prop :=
  ∀ key, truthy call.idempotencyKey = some key → s.runtime.inflight key = none

inductive Moves (s : Loop α) : Event α → Loop α → Prop
  | idle {e : Event α} : Moves s e s
  | registered {name : Str} {spec : FlowSpec} :
      Moves s (.register name spec) { s with runtime := s.runtime.register name spec }
  | hit {call : Call} {guard : GuardDecision} {now expires : ℚ} {key : Str} {r : Result α}
      {c : Cache α} (hknown : s.runtime.flows call.name ≠ none)
      (hkey : truthy call.idempotencyKey = some key)
      (hget : s.runtime.cache.get? key = some (expires, r))
      (hc : ∀ j e, c.get? j = some e → s.runtime.cache.get? j = some e) :
      Moves s (.execute call guard now)
        ((s.begun call c s.runtime.governance s.runtime.inflight).answer call.name .cached r)
  | joined {call : Call} {guard : GuardDecision} {now : ℚ} {key : Str} {f : ℕ} {c : Cache α}
      (hknown : s.runtime.flows call.name ≠ none)
      (hkey : truthy call.idempotencyKey = some key)
      (hmiss : (s.runtime.getCachedResult now key).1 = none)
      (hin : s.runtime.inflight key = some f)
      (hc : ∀ j e, c.get? j = some e → s.runtime.cache.get? j = some e) :
      Moves s (.execute call guard now)
        ((s.begun call c s.runtime.governance s.runtime.inflight).join s.next call.name f)
  | refused {call : Call} {guard : GuardDecision} {now : ℚ} {r : Result α} {c : Cache α}
      {g : GovernanceManager}
      (hc : ∀ j e, c.get? j = some e → s.runtime.cache.get? j = some e) :
      Moves s (.execute call guard now)
        ((s.begun call c g s.runtime.inflight).answer call.name .refused r)
  | accepted {call : Call} {guard : GuardDecision} {now : ℚ} {request : Request} {c : Cache α}
      {g : GovernanceManager} (hfree : Free call s) (hmade : Made call s request)
      (hc : ∀ j e, c.get? j = some e → s.runtime.cache.get? j = some e) :
      Moves s (.execute call guard now) ((s.begun call c g (s.entered call)).accept request)
  | suspended {call : Call} {guard : GuardDecision} {now : ℚ} {request : Request} {c : Cache α}
      {g : GovernanceManager} (hfree : Free call s) (hmade : Made call s request)
      (hc : ∀ j e, c.get? j = some e → s.runtime.cache.get? j = some e) :
      Moves s (.execute call guard now)
        { s.begun call c g (s.entered call) with putting := s.putting ++ [request] }
  | placed {future : ℕ} {request : Request} (hput : requestOf future s.putting = some request) :
      Moves s (.put future) ({ s with putting := without future s.putting }.accept request)
  | timedOut {future : ℕ} {request : Request} {r : Result α} {g : GovernanceManager}
      (hput : requestOf future s.putting = some request) :
      Moves s (.timeout future)
        (({ s with
            putting := without future s.putting
            runtime := { s.runtime with
              governance := g
              inflight := FlowRuntime.popKey (truthy request.idempotencyKey) s.runtime.inflight }
          } : Loop α).answer request.flowName .refused r)
  | taken {now : ℚ} {request : Request} {queue : List Request} {g : GovernanceManager}
      (hqueue : s.runtime.queue = request :: queue) :
      Moves s (.take now)
        { s with
          runtime := { s.runtime with queue, governance := g }
          running := s.running ++ [request] }
  | done {future : ℕ} {request : Request} {f : Finish α} {now : ℚ} {c : Cache α}
      {g : GovernanceManager} (hrun : requestOf future s.running = some request)
      (hc : ∀ j e, c.get? j = some e → s.runtime.cache.get? j = some e ∨
        request.idempotencyKey = some j ∧ e.2 = runResult request f) :
      Moves s (.finish future f now)
        { s with
          runtime := { s.runtime with
            governance := g, cache := c
            inflight := FlowRuntime.popKey request.idempotencyKey s.runtime.inflight }
          running := without request.future s.running
          futures := setResult request.future (runResult request f) s.futures }
  | woken {id : ℕ} {w : Waiter} {r : Result α} (hw : w ∈ s.waiting)
      (hr : s.futures w.future = some r) : Moves s (.wake id) (s.resume w r)

section executing

variable {s : Loop α} {call : Call} {request : Request} {c : Cache α} {g : GovernanceManager}
  {guard : GuardDecision} {now : ℚ}

theorem refuse_begun (hfree : Free call s) (hmade : Made call s request) (r : Result α) :
    (s.begun call c g (s.entered call)).refuse request r =
      (s.begun call c g s.runtime.inflight).answer call.name .refused r := by
  have hpop : (s.begun call c g (s.entered call)).runtime.popInflight
      (truthy request.idempotencyKey) = (s.begun call c g s.runtime.inflight).runtime := by
    rw [hmade.key]
    unfold entered
    cases hkey : truthy call.idempotencyKey with
    | none => rfl
    | some key =>
      simp only [FlowRuntime.popInflight, FlowRuntime.popKey, begun, Function.update_idem]
      rw [← hfree key hkey, Function.update_eq_self]
  rw [refuse, hpop, hmade.name]
  rfl

theorem refuseQueued_begun (hfree : Free call s) (hmade : Made call s request) (code : Str) :
    (s.begun call c g (s.entered call)).refuseQueued code request =
      (s.begun call c (g.cancel request.governanceDecision) s.runtime.inflight).answer call.name
        .refused (queueRefusal code request) :=
  refuse_begun hfree hmade _

variable (guard now g) (hfree : Free call s) (hmade : Made call s request)
  (hc : ∀ j e, c.get? j = some e → s.runtime.cache.get? j = some e)

include hfree hmade hc in
theorem enqueue_moves : Moves s (.execute call guard now)
    ((s.begun call c g (s.entered call)).enqueue request) := by
  unfold enqueue
  split_ifs
  · exact .accepted hfree hmade hc
  · rw [refuseQueued_begun hfree hmade]
    exact .refused hc
  · exact .accepted hfree hmade hc
  · exact .suspended hfree hmade hc

include hfree hmade hc in
theorem govern_moves : Moves s (.execute call guard now)
    ((s.begun call c g (s.entered call)).govern now request) := by
  unfold govern
  dsimp only
  split_ifs
  · exact enqueue_moves _ _ _ hfree ⟨hmade.name, hmade.key, hmade.future⟩ hc
  · have hrefuse := refuse_begun (c := c) (g := (g.check now request.descriptor).2) hfree hmade
      (governanceRefusal (g.check now request.descriptor).1 request)
    exact hrefuse ▸ .refused hc

include hfree hmade hc in
theorem submit_moves : Moves s (.execute call guard now)
    ((s.begun call c g (s.entered call)).submit now guard request) := by
  unfold submit
  split_ifs
  · exact govern_moves _ _ _ hfree hmade hc
  · rw [refuse_begun hfree hmade]
    exact .refused hc

theorem made_makeRequest (call : Call) (spec : FlowSpec) (s : Loop α) :
    Made call s (makeRequest call spec s.next) := ⟨rfl, rfl, rfl⟩

theorem executeKeyed_moves {key : Str} {spec : FlowSpec}
    (hspec : s.runtime.flows call.name = some spec)
    (hkey : truthy call.idempotencyKey = some key) : Moves s (.execute call guard now)
      ((s.numbered call).executeKeyed now guard key (makeRequest call spec s.next)) := by
  obtain ⟨c, hsnd, hc⟩ := s.runtime.getCachedResult_snd now key
  have hrt : (s.numbered call).runtime = s.runtime := rfl
  have hknown : s.runtime.flows call.name ≠ none := by
    rw [hspec]
    nofun
  unfold executeKeyed
  dsimp only
  rw [hrt, hsnd]
  split
  · rename_i r hr
    obtain ⟨expires, hget⟩ := FlowRuntime.getCachedResult_fst hr
    exact .hit hknown hkey hget hc
  · rename_i hmiss
    split
    · rename_i f hin
      exact .joined hknown hkey hmiss hin hc
    · rename_i hin
      have hfree : Free call s := by
        intro j hj
        rw [hkey] at hj
        cases hj
        exact hin
      have hsubmit := submit_moves s.runtime.governance guard now hfree
        (made_makeRequest call spec s) hc
      have hentered : s.entered call = Function.update s.runtime.inflight key (some s.next) := by
        rw [entered, hkey]
      rw [hentered] at hsubmit
      exact hsubmit

theorem execute_moves (call : Call) (guard : GuardDecision) (now : ℚ) (s : Loop α) :
    Moves s (.execute call guard now) (s.execute now guard call) := by
  unfold execute
  split
  · exact .idle
  · rename_i spec hspec
    split
    · rename_i hkey
      have hfree : Free call s := fun key hk => by
        rw [hkey] at hk
        cases hk
      have hsubmit := submit_moves s.runtime.governance guard now hfree
        (made_makeRequest call spec s) (fun (_ : Str) (_ : ℚ × Result α) he => he)
      have hentered : s.entered call = s.runtime.inflight := by rw [entered, hkey]
      rw [hentered] at hsubmit
      exact hsubmit
    · rename_i key hkey
      exact executeKeyed_moves guard now hspec hkey

end executing

theorem finish_moves (now : ℚ) (future : ℕ) (f : Finish α) (s : Loop α) :
    Moves s (.finish future f now) (s.finish now future f) := by
  unfold finish
  split
  · exact .idle
  · rename_i request hrun
    unfold finished
    dsimp only
    obtain ⟨c, hcache, hc⟩ := FlowRuntime.cacheFor_eq now request.idempotencyKey
      (runResult request f) (FlowRuntime.popInflight request.idempotencyKey { s.runtime with
        governance := s.runtime.governance.finalize now request.governanceDecision
          ⟨(runResult request f).status.text, (runResult request f).errorCode, f.tokens, f.cost⟩ })
    rw [hcache]
    exact .done hrun hc

theorem perform_moves (e : Event α) (s : Loop α) : Moves s e (s.perform e) := by
  cases e with
  | register name spec => exact .registered
  | execute call guard now => exact execute_moves call guard now s
  | put future =>
    simp only [perform, put]
    split
    · exact .idle
    · rename_i request hput
      split_ifs
      · exact .idle
      · exact .placed hput
  | timeout future =>
    simp only [perform, timeout]
    split
    · exact .idle
    · rename_i request hput
      exact .timedOut hput
  | take now =>
    simp only [perform, take]
    split
    · exact .idle
    · rename_i request queue hqueue
      split_ifs
      · exact .taken hqueue
      · exact .idle
  | finish future f now => exact finish_moves now future f s
  | wake id =>
    simp only [perform, wake]
    split
    · exact .idle
    · rename_i w hw
      split
      · exact .idle
      · rename_i r hr
        exact .woken (List.mem_of_find?_eq_some hw) hr

end Loop

end TraceMind.Flow
