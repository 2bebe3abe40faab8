import TraceMind.Flow.Joins

namespace TraceMind.Flow

open Governance (truthy)

namespace Loop

variable {α : Type} {s s' : Loop α} {e : Event α}

structure Named (s : Loop α) : Prop where
  alive : ∀ r ∈ s.alive, ∀ key, truthy r.idempotencyKey = some key → (key, r.flowName) ∈ s.calls
  cache : ∀ key entry, truthy (some key) = some key → s.runtime.cache.get? key = some entry →
    (key, entry.2.flowName) ∈ s.calls
  waiting : ∀ w ∈ s.waiting, (∀ r ∈ s.alive, r.future = w.future → r.flowName = w.name) ∧
    ∀ res, s.futures w.future = some res → res.flowName = w.name
  returned : ∀ x ∈ s.returned, x.source ≠ .refused → x.result.flowName = x.name

def OneFlow (e : Event α) (s : Loop α) : Prop :=
  match e with
  | .execute call _ _ => s.runtime.flows call.name ≠ none →
    ∀ key, truthy call.idempotencyKey = some key → ∀ name, (key, name) ∈ s.calls → name = call.name
  | _ => True

theorem Named.init {rt : FlowRuntime α} (h : rt.Fresh) : Named ({ runtime := rt } : Loop α) := by
  refine ⟨fun r hr => ?_, fun key entry _ hget => ?_, fun _ h => absurd h List.not_mem_nil,
    fun _ h => absurd h List.not_mem_nil⟩
  · rw [Loop.alive, h.queue] at hr
    cases hr
  · dsimp only at hget
    rw [h.cache] at hget
    cases hget

theorem truthy_idem {key : Option Str} {k : Str} (h : truthy key = some k) :
    truthy (some k) = some k := by
  unfold truthy at h
  split at h
  · cases h
    rfl
  · cases h

theorem Sound.eq_of_future {r x : Request} (h : Sound s) (hr : r ∈ s.alive) (hx : x ∈ s.alive)
    (hf : r.future = x.future) : r = x :=
  List.inj_on_of_nodup_map h.nodup hr hx hf

theorem Named.kept (h : Named s) (hcalls : ∀ x ∈ s.calls, x ∈ s'.calls)
    (hcache : ∀ j entry, s'.runtime.cache.get? j = some entry →
      s.runtime.cache.get? j = some entry)
    (hfutures : s'.futures = s.futures)
    (halive : ∀ r ∈ s'.alive, r ∈ s.alive ∨
      (∀ key, truthy r.idempotencyKey = some key → (key, r.flowName) ∈ s'.calls) ∧
        ∀ w ∈ s.waiting, w.future ≠ r.future)
    (hwait : ∀ w ∈ s'.waiting, w ∈ s.waiting ∨
      (∀ r ∈ s'.alive, r.future = w.future → r.flowName = w.name) ∧ s.futures w.future = none)
    (hret : ∀ x ∈ s'.returned, x ∈ s.returned ∨ x.source = .refused ∨
      x.result.flowName = x.name) : Named s' := by
  refine ⟨fun r hr key hkey => ?_, fun key entry hkey hget => ?_, fun w hw => ?_,
    fun x hx hsource => ?_⟩
  · rcases halive r hr with hr | hr
    · exact hcalls _ (h.alive r hr key hkey)
    · exact hr.1 key hkey
  · exact hcalls _ (h.cache key entry hkey (hcache key entry hget))
  · rw [hfutures]
    rcases hwait w hw with hw | ⟨hnew, hnone⟩
    · refine ⟨fun r hr hf => ?_, (h.waiting w hw).2⟩
      rcases halive r hr with hr | hr
      · exact (h.waiting w hw).1 r hr hf
      · exact absurd hf.symm (hr.2 w hw)
    · exact ⟨hnew, fun res hres => (by rw [hnone] at hres; cases hres)⟩
  · rcases hret x hx with hx | hx | hx
    · exact h.returned x hx hsource
    · exact absurd hx hsource
    · exact hx

section steps

variable {call : Call} {x : Str × Str}

theorem mem_numbered_left (h : x ∈ s.calls) : x ∈ (s.numbered call).calls :=
  List.mem_append_left _ h

theorem mem_numbered_self {key : Str} (h : truthy call.idempotencyKey = some key) :
    (key, call.name) ∈ (s.numbered call).calls := by
  refine List.mem_append_right _ ?_
  rw [h]
  exact List.mem_singleton_self _

theorem answer_returned {name : Str} {source : Source} {res : Result α} {x : Returned α}
    (hsource : source = .refused ∨ res.flowName = name)
    (hx : x ∈ (s.answer name source res).returned) :
    x ∈ s.returned ∨ x.source = .refused ∨ x.result.flowName = x.name := by
  rcases List.mem_append.mp hx with hx | hx
  · exact Or.inl hx
  · obtain rfl := List.mem_singleton.mp hx
    exact Or.inr hsource

theorem Named.moves (hn : Named s) (h : Sound s) (hone : OneFlow e s) (hm : Moves s e s') :
    Named s' := by
  cases hm with
  | idle => exact hn
  | registered =>
    exact hn.kept (fun _ hx => hx) (fun _ _ hget => hget) rfl (fun _ hr => Or.inl hr)
      (fun _ hw => Or.inl hw) (fun _ hx => Or.inl hx)
  | hit hknown hkey hget hc =>
    have hname := hone hknown _ hkey _ (hn.cache _ _ (truthy_idem hkey) hget)
    exact hn.kept (fun _ hx => mem_numbered_left hx) hc rfl (fun _ hr => Or.inl hr)
      (fun _ hw => Or.inl hw) (fun _ hx => answer_returned (Or.inr hname) hx)
  | joined hknown hkey hmiss hin hc =>
    rename_i call guard now key f c
    obtain ⟨x, hx, hxf, hxk⟩ := h.inflight _ _ hin
    have hname := hone hknown _ hkey _ (hn.alive x hx _ hxk)
    have hnone : s.futures f = none := hxf ▸ h.unresolved x hx
    unfold join
    split
    · rename_i res hres
      rw [show s.futures f = some res from hres] at hnone
      cases hnone
    · refine hn.kept (fun _ hx => mem_numbered_left hx) hc rfl (fun _ hr => Or.inl hr)
        (fun w hw => ?_) (fun _ hx => Or.inl hx)
      rcases List.mem_append.mp hw with hw | hw
      · exact Or.inl hw
      · obtain rfl := List.mem_singleton.mp hw
        refine Or.inr ⟨fun r hr hf => ?_, hnone⟩
        rw [h.eq_of_future hr hx (hf.trans hxf.symm)]
        exact hname
  | refused hc =>
    exact hn.kept (fun _ hx => mem_numbered_left hx) hc rfl (fun _ hr => Or.inl hr)
      (fun _ hw => Or.inl hw) (fun _ hx => answer_returned (Or.inl rfl) hx)
  | accepted hfree hmade hc =>
    rename_i call guard now request c g
    refine hn.kept (fun _ hx => mem_numbered_left hx) hc rfl (fun r hr => ?_) (fun w hw => ?_)
      (fun _ hx => Or.inl hx)
    · rcases mem_alive_accept.mp hr with rfl | hr
      · refine Or.inr ⟨fun key hkey => ?_, fun w hw hf => ?_⟩
        · rw [hmade.name]
          exact mem_numbered_self (hmade.key ▸ hkey)
        · exact (h.waiting w hw).ne (hf.trans hmade.future)
      · exact Or.inl hr
    · rcases List.mem_append.mp hw with hw | hw
      · exact Or.inl hw
      · obtain rfl := List.mem_singleton.mp hw
        refine Or.inr ⟨fun r hr hf => ?_, h.fresh _ hmade.future.ge⟩
        rcases mem_alive_accept.mp hr with rfl | hr
        · rfl
        · exact absurd (hf.trans hmade.future) (h.below r hr).ne
  | suspended hfree hmade hc =>
    refine hn.kept (fun _ hx => mem_numbered_left hx) hc rfl (fun r hr => ?_)
      (fun _ hw => Or.inl hw) (fun _ hx => Or.inl hx)
    rcases List.mem_cons.mp ((alive_suspended _ _).mem_iff.mp hr) with rfl | hr
    · refine Or.inr ⟨fun key hkey => ?_, fun w hw hf => ?_⟩
      · rw [hmade.name]
        exact mem_numbered_self (hmade.key ▸ hkey)
      · exact (h.waiting w hw).ne (hf.trans hmade.future)
    · exact Or.inl hr
  | placed hput =>
    rename_i request
    obtain ⟨hr, rfl⟩ := requestOf_some hput
    have halive : request ∈ s.alive := List.mem_append_left _ (List.mem_append_left _ hr)
    refine hn.kept (fun _ hx => hx) (fun _ _ hget => hget) rfl
      (fun r hr' => Or.inl ((h.alive_placed hr).mem_iff.mp hr')) (fun w hw => ?_)
      (fun _ hx => Or.inl hx)
    rcases List.mem_append.mp hw with hw | hw
    · exact Or.inl hw
    · obtain rfl := List.mem_singleton.mp hw
      refine Or.inr ⟨fun r hr' hf => ?_, h.unresolved request halive⟩
      rw [h.eq_of_future ((h.alive_placed hr).mem_iff.mp hr') halive hf]
  | timedOut hput =>
    refine hn.kept (fun _ hx => hx) (fun _ _ hget => hget) rfl (fun r hr => Or.inl ?_)
      (fun _ hw => Or.inl hw) (fun _ hx => answer_returned (Or.inl rfl) hx)
    simp only [Loop.alive, answer, List.mem_append, mem_without] at hr ⊢
    tauto
  | taken hqueue =>
    exact hn.kept (fun _ hx => hx) (fun _ _ hget => hget) rfl
      (fun r hr => Or.inl ((alive_taken hqueue).mem_iff.mp hr)) (fun _ hw => Or.inl hw)
      (fun _ hx => Or.inl hx)
  | done hrun hc =>
    rename_i request f now c g
    obtain ⟨hr, rfl⟩ := requestOf_some hrun
    have hrequest : request ∈ s.alive := List.mem_append_right _ hr
    have hsub : ∀ x ∈ s.putting ++ s.runtime.queue ++ without request.future s.running,
        x ∈ s.alive := by
      intro x hx
      simp only [Loop.alive, List.mem_append, mem_without] at hx ⊢
      tauto
    refine ⟨fun x hx => hn.alive x (hsub x hx), fun key entry hkey hget => ?_, fun w hw => ?_,
      hn.returned⟩
    · rcases hc key entry hget with hold | ⟨hk, hres⟩
      · exact hn.cache key entry hkey hold
      · rw [hres]
        exact hn.alive request hrequest key (hk ▸ hkey)
    · refine ⟨fun x hx => (hn.waiting w hw).1 x (hsub x hx), fun res hres => ?_⟩
      dsimp only at hres
      by_cases hf : w.future = request.future
      · rw [hf, setResult_self (h.unresolved request hrequest)] at hres
        cases hres
        exact (hn.waiting w hw).1 request hrequest hf.symm
      · rw [setResult_of_ne hf] at hres
        exact (hn.waiting w hw).2 res hres
  | woken hw hr =>
    rename_i id w res
    refine hn.kept (fun _ hx => hx) (fun _ _ hget => hget) rfl (fun _ hr => Or.inl hr)
      (fun x hx => Or.inl (List.mem_of_mem_erase hx)) (fun x hx => ?_)
    refine answer_returned (Or.inr ?_) hx
    have hname := (hn.waiting w hw).2 res hr
    split_ifs
    · exact hname
    · exact hname

end steps

theorem results_named {rt : FlowRuntime α} (hrt : rt.Fresh)
    (hr : Reaches OneFlow { runtime := rt } s) :
    ∀ x ∈ s.returned, x.source ≠ .refused → x.result.flowName = x.name := by
  have hboth : Sound s ∧ Named s := by
    induction hr with
    | refl => exact ⟨.init hrt, .init hrt⟩
    | tail _ hstep ih =>
      obtain ⟨e, he, rfl⟩ := hstep
      rename_i t _
      have hm := perform_moves e t
      exact ⟨ih.1.moves hm, ih.2.moves ih.1 he hm⟩
  exact hboth.2.returned

def sampleFinish : Finish ℕ := { outcome := .returned 0 }

def answers (s : Loop ℕ) : List (Str × Source × Str) :=
  s.returned.map (fun x => (x.name, x.source, x.result.flowName))

def executedTwice (name : Str) : List (Event ℕ) :=
  [keyed ['f'], .take 0, .finish 0 sampleFinish 0, keyed name]

theorem results_named_sample :
    answers (ran 0 (executedTwice ['f'])) = [(['f'], .cached, ['f'])] ∧
      ∀ x ∈ (ran 0 (executedTwice ['f'])).returned, x.source ≠ .refused →
        x.result.flowName = x.name := by
  have hfirst : Reaches OneFlow { runtime := sampleRuntime 0 } (ran 0 ([] ++ [keyed ['f']])) :=
    Reaches.snoc .refl (fun _ _ _ _ hmem => by cases hmem)
  have hsecond : Reaches OneFlow { runtime := sampleRuntime 0 }
      (ran 0 ([] ++ [keyed ['f']] ++ [.take 0])) := hfirst.snoc trivial
  have hthird : Reaches OneFlow { runtime := sampleRuntime 0 }
      (ran 0 ([] ++ [keyed ['f']] ++ [.take 0] ++ [.finish 0 sampleFinish 0])) :=
    hsecond.snoc trivial
  have hcalls : (ran 0 ([] ++ [keyed ['f']] ++ [.take 0] ++ [.finish 0 sampleFinish 0])).calls =
      [(['K'], ['f'])] := by decide +kernel
  have hfourth : Reaches OneFlow { runtime := sampleRuntime 0 } (ran 0 (executedTwice ['f'])) := by
    refine hthird.snoc (fun _ key _ name hmem => ?_)
    rw [hcalls] at hmem
    exact congrArg Prod.snd (List.mem_singleton.mp hmem)
  exact ⟨by decide +kernel, results_named (fresh_sampleRuntime 0) hfourth⟩

theorem key_shared_by_flows :
    (Reaches (fun _ _ => True) { runtime := sampleRuntime 0 } (ran 0 (executedTwice ['g'])) ∧
      answers (ran 0 (executedTwice ['g'])) = [(['g'], .cached, ['f'])]) ∧
    Reaches (fun _ _ => True) { runtime := sampleRuntime 0 }
        (ran 0 [keyed ['f'], keyed ['g'], .take 0, .finish 0 sampleFinish 0, .wake 1]) ∧
      answers (ran 0 [keyed ['f'], keyed ['g'], .take 0, .finish 0 sampleFinish 0, .wake 1]) =
        [(['g'], .joined, ['f'])] :=
  ⟨⟨reaches_ran .., by decide +kernel⟩, reaches_ran .., by decide +kernel⟩

end Loop

end TraceMind.Flow
