import TraceMind.Flow.Moves
import Mathlib.Data.List.Induction

namespace TraceMind.Flow

open Governance (GovernanceManager truthy)

namespace Loop

variable {α : Type}

section requests

variable {rs : List Request} {r x : Request} {future : ℕ}

theorem requestOf_some (h : requestOf future rs = some r) : r ∈ rs ∧ r.future = future :=
  ⟨List.mem_of_find?_eq_some h, by simpa using List.find?_some h⟩

theorem mem_without : x ∈ without future rs ↔ x ∈ rs ∧ x.future ≠ future := by
  rw [without, List.mem_filter, decide_eq_true_eq]

theorem perm_without (h : (rs.map Request.future).Nodup) (hr : r ∈ rs) :
    List.Perm rs (r :: without r.future rs) := by
  have hnodup : rs.Nodup := List.Nodup.of_map _ h
  have hcons : (r :: without r.future rs).Nodup :=
    List.nodup_cons.mpr ⟨fun hm => (mem_without.mp hm).2 rfl, hnodup.filter _⟩
  refine (List.perm_ext_iff_of_nodup hnodup hcons).mpr (fun x => ?_)
  rw [List.mem_cons, mem_without]
  constructor
  · intro hx
    by_cases he : x.future = r.future
    · exact Or.inl (List.inj_on_of_nodup_map h hx hr he)
    · exact Or.inr ⟨hx, he⟩
  · rintro (rfl | ⟨hx, -⟩)
    · exact hr
    · exact hx

end requests

def alive (s : Loop α) : List Request := s.putting ++ s.runtime.queue ++ s.running

structure Sound (s : Loop α) : Prop where
  nodup : (s.alive.map Request.future).Nodup
  below : ∀ r ∈ s.alive, r.future < s.next
  unresolved : ∀ r ∈ s.alive, s.futures r.future = none
  fresh : ∀ f, s.next ≤ f → s.futures f = none
  waiting : ∀ w ∈ s.waiting, w.future < s.next
  inflight : ∀ key f, s.runtime.inflight key = some f →
    ∃ r ∈ s.alive, r.future = f ∧ truthy r.idempotencyKey = some key

section invariant

variable {s s' : Loop α} {e : Event α} {r : Request} {call : Call}

theorem Sound.init {rt : FlowRuntime α} (h : rt.Fresh) : Sound { runtime := rt } := by
  have halive : alive ({ runtime := rt } : Loop α) = [] := by
    rw [alive, h.queue]
    rfl
  refine ⟨?_, ?_, ?_, fun _ _ => rfl, fun _ h => absurd h List.not_mem_nil, fun key f hin => ?_⟩
  · rw [halive]
    exact List.nodup_nil
  · rw [halive]
    exact List.forall_mem_nil _
  · rw [halive]
    exact List.forall_mem_nil _
  · rw [h.inflight] at hin
    cases hin

theorem Sound.kept (h : Sound s) (halive : s'.alive.Perm s.alive) (hnext : s.next ≤ s'.next)
    (hfutures : s'.futures = s.futures) (hwait : ∀ w ∈ s'.waiting, w.future < s'.next)
    (hin : s'.runtime.inflight = s.runtime.inflight) : Sound s' := by
  refine ⟨(halive.map _).nodup_iff.mpr h.nodup, fun r hr => ?_, fun r hr => ?_, fun f hf => ?_,
    hwait, fun key f hkey => ?_⟩
  · exact (h.below r (halive.mem_iff.mp hr)).trans_le hnext
  · rw [hfutures]
    exact h.unresolved r (halive.mem_iff.mp hr)
  · rw [hfutures]
    exact h.fresh f (hnext.trans hf)
  · rw [hin] at hkey
    obtain ⟨r, hr, hrf⟩ := h.inflight key f hkey
    exact ⟨r, halive.mem_iff.mpr hr, hrf⟩

theorem Sound.made (h : Sound s) (hmade : Made call s r) (halive : s'.alive.Perm (r :: s.alive))
    (hnext : s'.next = s.next + 1) (hfutures : s'.futures = s.futures)
    (hwait : ∀ w ∈ s'.waiting, w ∈ s.waiting ∨ w.future = s.next)
    (hin : s'.runtime.inflight = s.entered call) : Sound s' := by
  have hfuture := hmade.future
  refine ⟨(halive.map _).nodup_iff.mpr ?_, fun x hx => ?_, fun x hx => ?_, fun f hf => ?_,
    fun w hw => ?_, fun key f hkey => ?_⟩
  · rw [List.map_cons, List.nodup_cons]
    refine ⟨fun hm => ?_, h.nodup⟩
    obtain ⟨x, hx, he⟩ := List.mem_map.mp hm
    have hlt := h.below x hx
    omega
  · rcases List.mem_cons.mp (halive.mem_iff.mp hx) with rfl | hx
    · omega
    · have hlt := h.below x hx
      omega
  · rw [hfutures]
    rcases List.mem_cons.mp (halive.mem_iff.mp hx) with rfl | hx
    · exact h.fresh _ hfuture.ge
    · exact h.unresolved x hx
  · rw [hfutures]
    exact h.fresh f (by omega)
  · rcases hwait w hw with hw | hw
    · have hlt := h.waiting w hw
      omega
    · omega
  · have hold : s.runtime.inflight key = some f →
        ∃ x ∈ s'.alive, x.future = f ∧ truthy x.idempotencyKey = some key := by
      intro hkey
      obtain ⟨x, hx, hxf⟩ := h.inflight key f hkey
      exact ⟨x, halive.mem_iff.mpr (List.mem_cons_of_mem _ hx), hxf⟩
    rw [hin, entered_apply] at hkey
    split_ifs at hkey with hk
    · refine ⟨r, halive.mem_iff.mpr List.mem_cons_self, ?_, ?_⟩
      · rw [hfuture]
        exact Option.some.inj hkey
      · rw [hmade.key, hk]
    · exact hold hkey

theorem Sound.ended (h : Sound s) (halive : s.alive.Perm (r :: s'.alive))
    (hnext : s'.next = s.next) (hfutures : ∀ f, f ≠ r.future → s'.futures f = s.futures f)
    (hwait : s'.waiting = s.waiting)
    (hin : ∀ key f, s'.runtime.inflight key = some f →
      s.runtime.inflight key = some f ∧ truthy r.idempotencyKey ≠ some key) : Sound s' := by
  have hmem : ∀ x ∈ s'.alive, x ∈ s.alive :=
    fun x hx => halive.mem_iff.mpr (List.mem_cons_of_mem _ hx)
  have hr : r ∈ s.alive := halive.mem_iff.mpr List.mem_cons_self
  have hnodup := (halive.map Request.future).nodup_iff.mp h.nodup
  rw [List.map_cons, List.nodup_cons] at hnodup
  refine ⟨hnodup.2, fun x hx => ?_, fun x hx => ?_, fun f hf => ?_, fun w hw => ?_,
    fun key f hkey => ?_⟩
  · rw [hnext]
    exact h.below x (hmem x hx)
  · have hne : x.future ≠ r.future := fun he => hnodup.1 (he ▸ List.mem_map_of_mem hx)
    rw [hfutures _ hne]
    exact h.unresolved x (hmem x hx)
  · have hlt := h.below r hr
    rw [hfutures f (by omega)]
    exact h.fresh f (by omega)
  · rw [hnext]
    exact h.waiting w (hwait ▸ hw)
  · obtain ⟨hold, hne⟩ := hin key f hkey
    obtain ⟨x, hx, hxf, hxk⟩ := h.inflight key f hold
    rcases List.mem_cons.mp (halive.mem_iff.mp hx) with rfl | hx
    · exact absurd hxk hne
    · exact ⟨x, hx, hxf, hxk⟩

theorem setResult_of_ne {f future : ℕ} (hf : f ≠ future) (res : Result α)
    (futures : ℕ → Option (Result α)) : setResult future res futures f = futures f := by
  unfold setResult
  cases futures future with
  | some r => rfl
  | none => exact Function.update_of_ne hf ..

theorem setResult_self {future : ℕ} {futures : ℕ → Option (Result α)}
    (h : futures future = none) (res : Result α) :
    setResult future res futures future = some res := by
  rw [setResult, h]
  exact Function.update_self ..

theorem popKey_some {key : Option Str} {inflight : Str → Option ℕ} {k : Str} {f : ℕ}
    (h : FlowRuntime.popKey key inflight k = some f) : inflight k = some f ∧ key ≠ some k := by
  unfold FlowRuntime.popKey at h
  split at h
  · exact ⟨h, nofun⟩
  · rw [Function.update_apply] at h
    split_ifs at h with hk
    exact ⟨h, fun he => hk (Option.some.inj he).symm⟩

theorem truthy_some {key : Option Str} {k : Str} (h : truthy key = some k) : key = some k := by
  unfold truthy at h
  split at h
  · exact h
  · cases h

theorem Sound.perm_putting (h : Sound s) (hr : r ∈ s.putting) :
    s.alive.Perm (r :: (without r.future s.putting ++ s.runtime.queue ++ s.running)) := by
  have hnodup : (s.putting.map Request.future).Nodup := by
    have hall := h.nodup
    rw [alive, List.append_assoc, List.map_append] at hall
    exact (List.nodup_append.mp hall).1
  rw [alive, List.append_assoc, List.append_assoc]
  exact (perm_without hnodup hr).append_right _

theorem Sound.perm_running (h : Sound s) (hr : r ∈ s.running) :
    s.alive.Perm (r :: (s.putting ++ s.runtime.queue ++ without r.future s.running)) := by
  have hnodup : (s.running.map Request.future).Nodup := by
    have hall := h.nodup
    rw [alive, List.map_append] at hall
    exact (List.nodup_append.mp hall).2.1
  exact ((perm_without hnodup hr).append_left _).trans List.perm_middle

theorem alive_accept (request : Request) (s : Loop α) :
    (s.accept request).alive.Perm (request :: s.alive) := by
  rw [alive, alive, accept, awaitFuture]
  dsimp only
  rw [← List.append_assoc, List.append_assoc]
  exact List.perm_middle

theorem alive_suspended (request : Request) (s : Loop α) :
    ({ s with putting := s.putting ++ [request] } : Loop α).alive.Perm (request :: s.alive) := by
  rw [alive, alive]
  dsimp only
  rw [List.append_assoc, List.append_assoc, List.append_assoc]
  exact List.perm_middle

theorem Sound.alive_placed (h : Sound s) (hr : r ∈ s.putting) :
    (({ s with putting := without r.future s.putting } : Loop α).accept r).alive.Perm s.alive :=
  (alive_accept r _).trans (h.perm_putting hr).symm

theorem alive_taken {queue : List Request} (hqueue : s.runtime.queue = r :: queue) :
    (s.putting ++ queue ++ (s.running ++ [r])).Perm s.alive := by
  rw [alive, hqueue, List.append_assoc, List.append_assoc]
  refine List.Perm.append_left _ ?_
  rw [← List.append_assoc, List.cons_append]
  exact List.perm_append_singleton ..

theorem Sound.moves (h : Sound s) (hm : Moves s e s') : Sound s' := by
  have hold : ∀ w ∈ s.waiting, w.future < s.next + 1 :=
    fun w hw => (h.waiting w hw).trans (Nat.lt_succ_self _)
  cases hm with
  | idle => exact h
  | registered => exact h.kept (List.Perm.refl _) (le_refl _) rfl h.waiting rfl
  | hit hknown hkey hget hc => exact h.kept (List.Perm.refl _) (Nat.le_succ _) rfl hold rfl
  | joined hknown hkey hmiss hin hc =>
    rename_i f c
    obtain ⟨x, hx, hxf, -⟩ := h.inflight _ _ hin
    have hlt := h.below x hx
    unfold join
    split
    · exact h.kept (List.Perm.refl _) (Nat.le_succ _) rfl hold rfl
    · refine h.kept (List.Perm.refl _) (Nat.le_succ _) rfl (fun w hw => ?_) rfl
      rcases List.mem_append.mp hw with hw | hw
      · exact hold w hw
      · obtain rfl := List.mem_singleton.mp hw
        change f < s.next + 1
        omega
  | refused hc => exact h.kept (List.Perm.refl _) (Nat.le_succ _) rfl hold rfl
  | accepted hfree hmade hc =>
    refine h.made hmade (alive_accept _ _) rfl rfl (fun w hw => ?_) rfl
    rcases List.mem_append.mp hw with hw | hw
    · exact Or.inl hw
    · obtain rfl := List.mem_singleton.mp hw
      exact Or.inr hmade.future
  | suspended hfree hmade hc =>
    exact h.made hmade (alive_suspended _ _) rfl rfl (fun w hw => Or.inl hw) rfl
  | placed hput =>
    obtain ⟨hr, rfl⟩ := requestOf_some hput
    refine h.kept (h.alive_placed hr) (le_refl _) rfl (fun w hw => ?_) rfl
    rcases List.mem_append.mp hw with hw | hw
    · exact h.waiting w hw
    · obtain rfl := List.mem_singleton.mp hw
      exact h.below _ ((h.alive_placed hr).mem_iff.mp ((alive_accept _ _).mem_iff.mpr
        List.mem_cons_self))
  | timedOut hput =>
    rename_i request res g
    obtain ⟨hr, rfl⟩ := requestOf_some hput
    exact h.ended (h.perm_putting hr) rfl (fun _ _ => rfl) rfl (fun key f hkey => popKey_some hkey)
  | taken hqueue => exact h.kept (alive_taken hqueue) (le_refl _) rfl h.waiting rfl
  | done hrun hc =>
    obtain ⟨hr, rfl⟩ := requestOf_some hrun
    refine h.ended (h.perm_running hr) rfl (fun f hf => setResult_of_ne hf ..) rfl
      (fun key fut hkey => ?_)
    obtain ⟨hold, hne⟩ := popKey_some hkey
    exact ⟨hold, fun he => hne (truthy_some he)⟩
  | woken hw hr =>
    refine h.kept (List.Perm.refl _) (le_refl _) rfl (fun x hx => ?_) rfl
    exact h.waiting x (List.mem_of_mem_erase hx)

theorem mem_alive_accept {request x : Request} :
    x ∈ (s.accept request).alive ↔ x = request ∨ x ∈ s.alive := by
  rw [(alive_accept request s).mem_iff, List.mem_cons]

def Served (s : Loop α) : Prop :=
  ∀ w ∈ s.waiting, s.futures w.future ≠ none ∨ ∃ r ∈ s.alive, r.future = w.future

def Beside (P : Waiter → Prop) (s : Loop α) : Prop :=
  ∀ r ∈ s.putting, ∀ w ∈ s.waiting, w.future = r.future → P w

def HasJoined (w : Waiter) : Prop := w.joined = true

def Nobody (_ : Waiter) : Prop := False

def Careful (e : Event α) (s : Loop α) : Prop :=
  match e with
  | .timeout future => ∀ r ∈ s.putting, r.future = future →
    ∀ w ∈ s.waiting, w.joined = true → w.future ≠ future
  | _ => True

def Prompt (e : Event α) (s : Loop α) : Prop :=
  match e with
  | .execute call _ now => s.runtime.flows call.name ≠ none →
    ∀ key, truthy call.idempotencyKey = some key → (s.runtime.getCachedResult now key).1 = none →
      ∀ r ∈ s.putting, s.runtime.inflight key ≠ some r.future
  | _ => True

theorem Served.kept (h : Served s) (halive : ∀ r ∈ s.alive, r ∈ s'.alive)
    (hfutures : s'.futures = s.futures)
    (hwait : ∀ w ∈ s'.waiting, w ∈ s.waiting ∨ ∃ r ∈ s'.alive, r.future = w.future) :
    Served s' := by
  intro w hw
  rcases hwait w hw with hw | hw
  · rw [hfutures]
    exact (h w hw).imp_right (fun ⟨r, hr, he⟩ => ⟨r, halive r hr, he⟩)
  · exact Or.inr hw

theorem Served.moves (hs : Served s) (h : Sound s) (ho : Beside HasJoined s) (hcare : Careful e s)
    (hm : Moves s e s') : Served s' := by
  cases hm with
  | idle => exact hs
  | registered => exact hs
  | hit hknown hkey hget hc => exact hs
  | joined hknown hkey hmiss hin hc =>
    rename_i f c
    obtain ⟨x, hx, hxf, -⟩ := h.inflight _ _ hin
    unfold join
    split
    · exact hs
    · refine hs.kept (fun _ hr => hr) rfl (fun w hw => ?_)
      rcases List.mem_append.mp hw with hw | hw
      · exact Or.inl hw
      · obtain rfl := List.mem_singleton.mp hw
        exact Or.inr ⟨x, hx, hxf⟩
  | refused hc => exact hs
  | accepted hfree hmade hc =>
    refine hs.kept (fun r hr => mem_alive_accept.mpr (Or.inr hr)) rfl (fun w hw => ?_)
    rcases List.mem_append.mp hw with hw | hw
    · exact Or.inl hw
    · obtain rfl := List.mem_singleton.mp hw
      exact Or.inr ⟨_, mem_alive_accept.mpr (Or.inl rfl), rfl⟩
  | suspended hfree hmade hc =>
    exact hs.kept (fun r hr => (alive_suspended _ _).mem_iff.mpr (List.mem_cons_of_mem _ hr)) rfl
      (fun w hw => Or.inl hw)
  | placed hput =>
    obtain ⟨hr, rfl⟩ := requestOf_some hput
    refine hs.kept (fun x hx => (h.alive_placed hr).mem_iff.mpr hx) rfl (fun w hw => ?_)
    rcases List.mem_append.mp hw with hw | hw
    · exact Or.inl hw
    · obtain rfl := List.mem_singleton.mp hw
      exact Or.inr ⟨_, mem_alive_accept.mpr (Or.inl rfl), rfl⟩
  | timedOut hput =>
    rename_i request res g
    obtain ⟨hr, rfl⟩ := requestOf_some hput
    intro w hw
    refine (hs w hw).imp_right (fun ⟨x, hx, hxf⟩ => ⟨x, ?_, hxf⟩)
    rcases List.mem_cons.mp ((h.perm_putting hr).mem_iff.mp hx) with rfl | hx
    · exact absurd hxf.symm (hcare _ hr rfl w hw (ho _ hr w hw hxf.symm))
    · exact hx
  | taken hqueue =>
    exact hs.kept (fun x hx => (alive_taken hqueue).mem_iff.mpr hx) rfl (fun w hw => Or.inl hw)
  | done hrun hc =>
    rename_i request f now c g
    obtain ⟨hr, rfl⟩ := requestOf_some hrun
    intro w hw
    by_cases hf : w.future = request.future
    · have hnone := h.unresolved request (List.mem_append_right _ hr)
      refine Or.inl ?_
      dsimp only
      rw [hf, setResult_self hnone]
      nofun
    · dsimp only
      rw [setResult_of_ne hf]
      refine (hs w hw).imp_right (fun ⟨x, hx, hxf⟩ => ⟨x, ?_, hxf⟩)
      rcases List.mem_cons.mp ((h.perm_running hr).mem_iff.mp hx) with rfl | hx
      · exact absurd hxf.symm hf
      · exact hx
  | woken hw hr => exact fun x hx => hs x (List.mem_of_mem_erase hx)

theorem Beside.moves {P : Waiter → Prop} (hb : Beside P s) (h : Sound s) (hm : Moves s e s')
    (hjoin : ∀ call guard now key, e = .execute call guard now → s.runtime.flows call.name ≠ none →
      truthy call.idempotencyKey = some key → (s.runtime.getCachedResult now key).1 = none →
      ∀ r ∈ s.putting, s.runtime.inflight key = some r.future →
        P ⟨s.next, call.name, r.future, true⟩) : Beside P s' := by
  cases hm with
  | idle => exact hb
  | registered => exact hb
  | hit hknown hkey hget hc => exact hb
  | joined hknown hkey hmiss hin hc =>
    unfold join
    split
    · exact hb
    · intro r hr w hw hf
      rcases List.mem_append.mp hw with hw | hw
      · exact hb r hr w hw hf
      · obtain rfl := List.mem_singleton.mp hw
        dsimp only at hf
        subst hf
        exact hjoin _ _ _ _ rfl hknown hkey hmiss r hr hin
  | refused hc => exact hb
  | accepted hfree hmade hc =>
    intro r hr w hw hf
    rcases List.mem_append.mp hw with hw | hw
    · exact hb r hr w hw hf
    · obtain rfl := List.mem_singleton.mp hw
      have hlt := h.below r (List.mem_append_left _ (List.mem_append_left _ hr))
      exact absurd (hf.symm.trans hmade.future) hlt.ne
  | suspended hfree hmade hc =>
    intro r hr w hw hf
    rcases List.mem_append.mp hr with hr | hr
    · exact hb r hr w hw hf
    · obtain rfl := List.mem_singleton.mp hr
      exact absurd (hf.trans hmade.future) (h.waiting w hw).ne
  | placed hput =>
    intro r hr w hw hf
    obtain ⟨hr, hne⟩ := mem_without.mp hr
    rcases List.mem_append.mp hw with hw | hw
    · exact hb r hr w hw hf
    · obtain rfl := List.mem_singleton.mp hw
      exact absurd (hf.symm.trans (requestOf_some hput).2) hne
  | timedOut hput => exact fun r hr => hb r (mem_without.mp hr).1
  | taken hqueue => exact hb
  | done hrun hc => exact hb
  | woken hw hr => exact fun r hr w hw => hb r hr w (List.mem_of_mem_erase hw)

theorem Beside.careful (hb : Beside Nobody s) (e : Event α) : Careful e s := by
  cases e with
  | timeout future => exact fun r hr hrf w hw _ hf => hb r hr w hw (hf.trans hrf.symm)
  | _ => trivial

section runs

variable {rt : FlowRuntime α}

theorem reaches_served (hrt : rt.Fresh) (hr : Reaches Careful { runtime := rt } s) :
    Sound s ∧ Served s ∧ Beside HasJoined s := by
  induction hr with
  | refl => exact ⟨.init hrt, List.forall_mem_nil _, List.forall_mem_nil _⟩
  | tail _ hstep ih =>
    obtain ⟨e, he, rfl⟩ := hstep
    obtain ⟨h, hs, hb⟩ := ih
    rename_i t _
    have hm := perform_moves e t
    exact ⟨h.moves hm, hs.moves h hb he hm,
      hb.moves h hm (fun _ _ _ _ _ _ _ _ _ _ _ => rfl)⟩

theorem Prompt.nobody (hprompt : Prompt e s) : ∀ call guard now key,
    e = .execute call guard now → s.runtime.flows call.name ≠ none →
    truthy call.idempotencyKey = some key → (s.runtime.getCachedResult now key).1 = none → ∀ r ∈ s.putting,
      s.runtime.inflight key = some r.future → Nobody ⟨s.next, call.name, r.future, true⟩ := by
  rintro call guard now key rfl hknown hkey hmiss r hr hin
  exact hprompt hknown key hkey hmiss r hr hin

theorem reaches_prompt (hrt : rt.Fresh) (hr : Reaches Prompt { runtime := rt } s) :
    Sound s ∧ Served s ∧ Beside Nobody s := by
  induction hr with
  | refl => exact ⟨.init hrt, List.forall_mem_nil _, List.forall_mem_nil _⟩
  | tail _ hstep ih =>
    obtain ⟨e, he, rfl⟩ := hstep
    obtain ⟨h, hs, hb⟩ := ih
    rename_i t _
    have hm := perform_moves e t
    have hjoined : Beside HasJoined t := fun r hr w hw hf => (hb r hr w hw hf).elim
    exact ⟨h.moves hm, hs.moves h hjoined (hb.careful e) hm, hb.moves h hm he.nobody⟩

theorem joiners_served (hrt : rt.Fresh) (s : Loop α) :
    (Reaches Careful { runtime := rt } s → ∀ w ∈ s.waiting, w.joined = true →
      s.futures w.future ≠ none ∨ (∃ r ∈ s.runtime.queue, r.future = w.future) ∨
        (∃ r ∈ s.running, r.future = w.future) ∨ ∃ r ∈ s.putting, r.future = w.future) ∧
    (Reaches Prompt { runtime := rt } s → ∀ w ∈ s.waiting, w.joined = true →
      s.futures w.future ≠ none ∨ (∃ r ∈ s.runtime.queue, r.future = w.future) ∨
        ∃ r ∈ s.running, r.future = w.future) := by
  constructor
  · intro hr w hw _
    obtain ⟨-, hs, -⟩ := reaches_served hrt hr
    rcases hs w hw with hdone | ⟨r, hr, hf⟩
    · exact Or.inl hdone
    · rcases List.mem_append.mp hr with hr | hr
      · rcases List.mem_append.mp hr with hr | hr
        · exact Or.inr (Or.inr (Or.inr ⟨r, hr, hf⟩))
        · exact Or.inr (Or.inl ⟨r, hr, hf⟩)
      · exact Or.inr (Or.inr (Or.inl ⟨r, hr, hf⟩))
  · intro hr w hw _
    obtain ⟨-, hs, hb⟩ := reaches_prompt hrt hr
    rcases hs w hw with hdone | ⟨r, hr, hf⟩
    · exact Or.inl hdone
    · rcases List.mem_append.mp hr with hr | hr
      · rcases List.mem_append.mp hr with hr | hr
        · exact (hb r hr w hw hf.symm).elim
        · exact Or.inr (Or.inl ⟨r, hr, hf⟩)
      · exact Or.inr (Or.inr ⟨r, hr, hf⟩)

end runs

section abandoned

structure Abandoned (w : Waiter) (s : Loop α) : Prop where
  waiting : w ∈ s.waiting
  below : w.future < s.next
  unresolved : s.futures w.future = none
  gone : ∀ r ∈ s.alive, r.future ≠ w.future

variable {w : Waiter}

theorem Abandoned.kept (h : Abandoned w s) (hwait : ∀ x ∈ s.waiting, x ∈ s'.waiting)
    (hnext : s.next ≤ s'.next) (hfutures : s'.futures = s.futures)
    (halive : ∀ r ∈ s'.alive, r ∈ s.alive ∨ r.future = s.next) : Abandoned w s' := by
  refine ⟨hwait w h.waiting, h.below.trans_le hnext, hfutures ▸ h.unresolved, fun r hr hf => ?_⟩
  rcases halive r hr with hr | hr
  · exact h.gone r hr hf
  · exact h.below.ne (hf.symm.trans hr)

theorem Abandoned.moves (h : Abandoned w s) (hm : Moves s e s') : Abandoned w s' := by
  have hleft : ∀ x ∈ s.waiting, ∀ y : Waiter, x ∈ s.waiting ++ [y] :=
    fun x hx y => List.mem_append_left _ hx
  cases hm with
  | idle => exact h
  | registered => exact h.kept (fun _ hx => hx) (le_refl _) rfl (fun _ hr => Or.inl hr)
  | hit hknown hkey hget hc => exact h.kept (fun _ hx => hx) (Nat.le_succ _) rfl (fun _ hr => Or.inl hr)
  | joined hknown hkey hmiss hin hc =>
    unfold join
    split
    · exact h.kept (fun _ hx => hx) (Nat.le_succ _) rfl (fun _ hr => Or.inl hr)
    · exact h.kept (fun x hx => hleft x hx _) (Nat.le_succ _) rfl (fun _ hr => Or.inl hr)
  | refused hc => exact h.kept (fun _ hx => hx) (Nat.le_succ _) rfl (fun _ hr => Or.inl hr)
  | accepted hfree hmade hc =>
    refine h.kept (fun x hx => hleft x hx _) (Nat.le_succ _) rfl (fun r hr => ?_)
    rcases mem_alive_accept.mp hr with rfl | hr
    · exact Or.inr hmade.future
    · exact Or.inl hr
  | suspended hfree hmade hc =>
    refine h.kept (fun _ hx => hx) (Nat.le_succ _) rfl (fun r hr => ?_)
    rcases List.mem_cons.mp ((alive_suspended _ _).mem_iff.mp hr) with rfl | hr
    · exact Or.inr hmade.future
    · exact Or.inl hr
  | placed hput =>
    have hmem := (requestOf_some hput).1
    refine h.kept (fun x hx => hleft x hx _) (le_refl _) rfl (fun r hr => Or.inl ?_)
    rcases mem_alive_accept.mp hr with rfl | hr
    · exact List.mem_append_left _ (List.mem_append_left _ hmem)
    · simp only [alive, List.mem_append, mem_without] at hr ⊢
      tauto
  | timedOut hput =>
    refine h.kept (fun _ hx => hx) (le_refl _) rfl (fun r hr => Or.inl ?_)
    simp only [alive, answer, List.mem_append, mem_without] at hr ⊢
    tauto
  | taken hqueue =>
    exact h.kept (fun _ hx => hx) (le_refl _) rfl
      (fun r hr => Or.inl ((alive_taken hqueue).mem_iff.mp hr))
  | done hrun hc =>
    have hmem := (requestOf_some hrun).1
    have hne := h.gone _ (List.mem_append_right _ hmem)
    refine ⟨h.waiting, h.below, ?_, fun r hr => h.gone r ?_⟩
    · dsimp only
      rw [setResult_of_ne hne.symm]
      exact h.unresolved
    · simp only [alive, List.mem_append, mem_without] at hr ⊢
      tauto
  | woken hw hr =>
    rename_i x res
    have hne : w ≠ x := fun he => by
      rw [← he, h.unresolved] at hr
      cases hr
    exact ⟨(List.mem_erase_of_ne hne).mpr h.waiting, h.below, h.unresolved, h.gone⟩

theorem Abandoned.forever {allowed : Event α → Loop α → Prop} (h : Abandoned w s)
    (hr : Reaches allowed s s') : Abandoned w s' := by
  induction hr with
  | refl => exact h
  | tail _ hstep ih =>
    obtain ⟨e, -, rfl⟩ := hstep
    exact ih.moves (perform_moves e _)

end abandoned

end invariant

def sampleSpec (name : Str) : FlowSpec := ⟨name, name, []⟩

def sampleRuntime (timeout : ℚ) : FlowRuntime ℕ where
  flows := fun name => if name = ['f'] ∨ name = ['g'] then some (sampleSpec name) else none
  governance := { config := {} }
  maxConcurrency := 1
  queueCapacity := 1
  queueWaitTimeout := timeout
  idempotencyTtl := 30
  idempotencyCacheSize := 1024

theorem fresh_sampleRuntime (timeout : ℚ) : (sampleRuntime timeout).Fresh := ⟨rfl, rfl, rfl⟩

def ran (timeout : ℚ) (es : List (Event ℕ)) : Loop ℕ :=
  es.foldl (fun s e => s.perform e) { runtime := sampleRuntime timeout }

theorem Reaches.snoc {allowed : Event ℕ → Loop ℕ → Prop} {timeout : ℚ} {es : List (Event ℕ)}
    {e : Event ℕ} (h : Reaches allowed { runtime := sampleRuntime timeout } (ran timeout es))
    (he : allowed e (ran timeout es)) :
    Reaches allowed { runtime := sampleRuntime timeout } (ran timeout (es ++ [e])) := by
  refine h.tail ⟨e, he, ?_⟩
  rw [ran, List.foldl_append]
  rfl

theorem reaches_ran (timeout : ℚ) (es : List (Event ℕ)) :
    Reaches (fun _ _ => True) { runtime := sampleRuntime timeout } (ran timeout es) := by
  induction es using List.reverseRecOn with
  | nil => exact .refl
  | append_singleton es e ih => exact ih.snoc trivial

def keyed (name : Str) : Event ℕ :=
  .execute { name, runId := [], idempotencyKey := some ['K'] } { allowed := true } 0

def unkeyed : Event ℕ := .execute { name := ['f'], runId := [] } { allowed := true } 0

theorem joiners_served_sample :
    ∃ w ∈ (ran 0 [keyed ['f'], keyed ['f']]).waiting, w.joined = true ∧
      ((ran 0 [keyed ['f'], keyed ['f']]).futures w.future ≠ none ∨
        (∃ r ∈ (ran 0 [keyed ['f'], keyed ['f']]).runtime.queue, r.future = w.future) ∨
        ∃ r ∈ (ran 0 [keyed ['f'], keyed ['f']]).running, r.future = w.future) := by
  have hfirst : Reaches Prompt { runtime := sampleRuntime 0 } (ran 0 ([] ++ [keyed ['f']])) :=
    Reaches.snoc .refl (fun _ _ _ _ r hr => by cases hr)
  have hempty : (ran 0 [keyed ['f']]).putting = [] :=
    List.isEmpty_iff.mp (by decide +kernel)
  have hsecond : Reaches Prompt { runtime := sampleRuntime 0 } (ran 0 [keyed ['f'], keyed ['f']]) :=
    hfirst.snoc (fun _ _ _ _ r hr => by rw [List.nil_append, hempty] at hr; cases hr)
  have hw : (⟨1, ['f'], 0, true⟩ : Waiter) ∈ (ran 0 [keyed ['f'], keyed ['f']]).waiting := by
    decide +kernel
  exact ⟨_, hw, rfl, (joiners_served (fresh_sampleRuntime 0) _).2 hsecond _ hw rfl⟩

def lapse : List (Event ℕ) :=
  [unkeyed, .put 0, .take 0, unkeyed, .put 1, keyed ['f'], keyed ['f'], .timeout 2]

theorem timeout_abandons_joiner :
    Reaches (fun _ _ => True) { runtime := sampleRuntime 1 } (ran 1 lapse) ∧
      (⟨3, ['f'], 2, true⟩ : Waiter) ∈ (ran 1 lapse).waiting ∧
      (∀ r ∈ (ran 1 lapse).alive, r.future ≠ 2) ∧
      ∀ s', Reaches (fun _ _ => True) (ran 1 lapse) s' →
        (⟨3, ['f'], 2, true⟩ : Waiter) ∈ s'.waiting ∧ s'.futures 2 = none := by
  have hw : (⟨3, ['f'], 2, true⟩ : Waiter) ∈ (ran 1 lapse).waiting := by decide +kernel
  have hgone : ∀ r ∈ (ran 1 lapse).alive, r.future ≠ 2 := by decide +kernel
  have habandoned : Abandoned ⟨3, ['f'], 2, true⟩ (ran 1 lapse) :=
    ⟨hw, by decide +kernel, Option.isNone_iff_eq_none.mp (by decide +kernel), hgone⟩
  refine ⟨reaches_ran 1 lapse, hw, hgone, fun s' hr => ?_⟩
  have hend := habandoned.forever hr
  exact ⟨hend.waiting, hend.unresolved⟩

end Loop

end TraceMind.Flow
