import TraceMind.Control.HttpCycles
import TraceMind.Transport.Rpc
import TraceMind.Foundation.Fallible

namespace TraceMind.Control

open Artifacts
open Queue (Document PyFloat PyText)
open Transport (HttpTransport SeenEntry dedupKey hasKey senderOf pairOf composite)
open Transport.FileQueueTransport (HandlerResult)

def Phase.pending : Phase → Option ℕ
  | .running e => some e
  | .answered e _ => some e
  | _ => none

namespace Cycles

section conditions

variable {ε : Type} (py : PyText) (float : PyFloat) (sha : Sha256) (readers : LeafReaders ε)

def Quiet (url k : Str) (s : Cycles ε) : Prop :=
  (∀ reply, (s.servers url).transport.dedupSeen k ≠ some (.reply reply)) ∧
    ∀ h ∈ s.handlings, h.url = url → hasKey py float k h.envelope = true → h.phase.pending = none

def Clean (s : Cycles ε) : CycleAction → Prop
  | .call c peer cycleNumber => ∀ r, c.leafRequest peer cycleNumber = .ok r →
      Quiet py float r.url (c.replyKey peer cycleNumber) s
  | _ => True

def CleanRun (s : Cycles ε) : List CycleAction → Prop
  | [] => True
  | a :: as => Clean py float s a ∧ CleanRun (s.step py float sha readers a) as

def Gave (s : Cycles ε) (url : Str) (execution : ℕ) (reply : Document) : Prop :=
  (∃ x, s.started[execution]? = some x ∧ x.url = url) ∧ (execution, .reply reply) ∈ s.finished

def FreshCall (s : Cycles ε) (c : LeafCall ε) : Prop :=
  ∀ result execution, c.ended = some (.ok (result, execution)) →
    c.began ≤ execution ∧ ∃ reply, s.Gave c.url execution reply ∧
      parseLeafReply py float sha readers c.peer reply = .ok result

end conditions

section invariant

variable {ε : Type} (py : PyText) (float : PyFloat) (sha : Sha256) (readers : LeafReaders ε)

def Kept (s : Cycles ε) (p : Str × Str) (e : ℕ) : Prop :=
  ∃ reply, (s.servers p.1).transport.dedupSeen p.2 = some (.reply reply) ∧
    (s.servers p.1).origin p.2 = e

def Pending (s : Cycles ε) (p : Str × Str) (e : ℕ) : Prop :=
  ∃ h ∈ s.handlings, h.url = p.1 ∧ hasKey py float p.2 h.envelope = true ∧ h.phase.pending = some e

def Held (s : Cycles ε) (p : Str × Str) (e : ℕ) : Prop := s.Kept p e ∨ s.Pending py float p e

def Marked (s : Cycles ε) (p : Str × Str) (m : ℕ) : Prop :=
  ∃ c ∈ s.calls, c.url = p.1 ∧ hasKey py float p.2 c.envelope = true ∧ c.began = m

def PhaseOk (s : Cycles ε) (url : Str) (began : ℕ) : Phase → Prop
  | .missed | .failed => True
  | .running e => ∃ x, s.started[e]? = some x ∧ x.url = url
  | .answered e reply => s.Gave url e reply
  | .returned e reply => began ≤ e ∧ s.Gave url e reply

def HandlingOk (s : Cycles ε) (h : Handling) : Prop :=
  ∃ c, s.calls[h.call]? = some c ∧ c.url = h.url ∧ c.envelope = h.envelope ∧
    s.PhaseOk h.url c.began h.phase

structure Inv (s : Cycles ε) : Prop where
  sound : Freshness.Sound s.started.length (s.Marked py float) (s.Held py float)
  kept : ∀ url k reply, (s.servers url).transport.dedupSeen k = some (.reply reply) →
    s.Gave url ((s.servers url).origin k) reply
  handlings : ∀ h ∈ s.handlings, s.HandlingOk h
  keyed : ∀ c ∈ s.calls, ∃ k, hasKey py float k c.envelope = true
  calls : ∀ c ∈ s.calls, s.FreshCall py float sha readers c

structure Grows (s s' : Cycles ε) : Prop where
  started : s.started <+: s'.started
  finished : s.finished ⊆ s'.finished
  calls : ∀ (i : ℕ) (c : LeafCall ε), s.calls[i]? = some c → ∃ c' : LeafCall ε,
    s'.calls[i]? = some c' ∧ c'.url = c.url ∧ c'.envelope = c.envelope ∧ c'.began = c.began

end invariant

section growth

variable {ε : Type} {py : PyText} {float : PyFloat} {sha : Sha256} {readers : LeafReaders ε}
  {s s' : Cycles ε}

theorem Grows.gave (hg : Grows s s') {url : Str} {e : ℕ} {reply : Document}
    (h : s.Gave url e reply) : s'.Gave url e reply := by
  obtain ⟨⟨x, hx, hurl⟩, hfin⟩ := h
  exact ⟨⟨x, Freshness.getElem?_of_isPrefix hg.started hx, hurl⟩, hg.finished hfin⟩

theorem Grows.phaseOk (hg : Grows s s') {url : Str} {began : ℕ} {p : Phase}
    (h : s.PhaseOk url began p) : s'.PhaseOk url began p := by
  cases p with
  | missed => trivial
  | running e =>
    obtain ⟨x, hx, hurl⟩ := h
    exact ⟨x, Freshness.getElem?_of_isPrefix hg.started hx, hurl⟩
  | answered e reply => exact hg.gave h
  | returned e reply => exact ⟨h.1, hg.gave h.2⟩
  | failed => trivial

theorem Grows.handlingOk (hg : Grows s s') {h : Handling} (hh : s.HandlingOk h) :
    s'.HandlingOk h := by
  obtain ⟨c, hc, hurl, henv, hphase⟩ := hh
  obtain ⟨c', hc', hurl', henv', hbegan⟩ := hg.calls _ c hc
  exact ⟨c', hc', hurl'.trans hurl, henv'.trans henv, hbegan.symm ▸ hg.phaseOk hphase⟩

theorem Grows.freshCall (hg : Grows s s') {c : LeafCall ε}
    (h : s.FreshCall py float sha readers c) : s'.FreshCall py float sha readers c := by
  intro result e hended
  obtain ⟨hbegan, reply, hgave, hparse⟩ := h result e hended
  exact ⟨hbegan, reply, hg.gave hgave, hparse⟩

theorem Grows.of_calls (hstarted : s.started <+: s'.started) (hfinished : s.finished ⊆ s'.finished)
    (hcalls : s'.calls = s.calls) : Grows s s' :=
  ⟨hstarted, hfinished, fun _ c hc => ⟨c, hcalls ▸ hc, rfl, rfl, rfl⟩⟩

end growth

section requests

variable {py : PyText} {float : PyFloat} {c : NetworkController} {peer : Str} {cycleNumber : ℤ}
  {r : LeafRequest}

theorem makeEnvelope_key (py : PyText) (float : PyFloat) (c : HttpClient) (kind peer : Str)
    (message : Document) {key : Str} (hkey : key ≠ []) :
    dedupKey py float (c.makeEnvelope kind peer message key) = some (composite (c.myId, key)) := by
  have hsender : senderOf py float (c.makeEnvelope kind peer message key) = c.myId := by
    show (if Queue.TaskEnvelope.isFalse float (.str c.myId) then [] else py.str (.str c.myId)) = _
    cases hid : c.myId with
    | nil => exact absurd hid c.named
    | cons x xs => exact py.str_str (x :: xs)
  rw [Transport.dedupKey_eq]
  cases key with
  | nil => exact absurd rfl hkey
  | cons x xs =>
    show some (composite (senderOf py float _, x :: xs)) = _
    rw [hsender]

theorem leafRequest_key (h : c.leafRequest peer cycleNumber = .ok r) :
    dedupKey py float r.envelope = some (c.replyKey peer cycleNumber) := by
  rw [NetworkController.leafRequest] at h
  cases hleaf : c.topology.leaves.get? peer with
  | none =>
    rw [hleaf] at h
    cases h
  | some leaf =>
    rw [hleaf] at h
    cases hurl : c.transport.endpointUrl peer with
    | none =>
      rw [hurl] at h
      cases h
    | some url =>
      rw [hurl] at h
      cases h
      exact makeEnvelope_key py float c.transport _ _ _ (cycleKey_ne _ _ _)

end requests

section steps

variable {ε : Type} {py : PyText} {float : PyFloat} {sha : Sha256} {readers : LeafReaders ε}
  {s s' : Cycles ε}

theorem Inv.onServers (h : s.Inv py float sha readers) (hstarted : s'.started = s.started)
    (hfinished : s'.finished = s.finished) (hcalls : s'.calls = s.calls)
    (hhandlings : ∀ g ∈ s'.handlings, s'.HandlingOk g)
    (hpending : ∀ p e, s'.Pending py float p e → s.Pending py float p e)
    (hkept : ∀ u k reply, (s'.servers u).transport.dedupSeen k = some (.reply reply) →
      (s.servers u).transport.dedupSeen k = some (.reply reply) ∧
        (s'.servers u).origin k = (s.servers u).origin k) :
    s'.Inv py float sha readers := by
  have hgrow : Grows s s' := .of_calls (hstarted ▸ List.prefix_refl _)
    (hfinished ▸ List.Subset.refl _) hcalls
  refine ⟨?_, fun u k reply hk => ?_, hhandlings, hcalls ▸ h.keyed, fun c hc => ?_⟩
  · rw [hstarted]
    refine h.sound.mono (fun p m hm => ?_) (fun p e he => ?_)
    · obtain ⟨c, hc, hrest⟩ := hm
      exact ⟨c, hcalls ▸ hc, hrest⟩
    · rcases he with ⟨reply, hk, hor⟩ | he
      · obtain ⟨hold, hsame⟩ := hkept _ _ _ hk
        exact Or.inl ⟨reply, hold, hsame ▸ hor⟩
      · exact Or.inr (hpending p e he)
  · obtain ⟨hold, hsame⟩ := hkept _ _ _ hk
    rw [hsame]
    exact hgrow.gave (h.kept u k reply hold)
  · exact hgrow.freshCall (h.calls c (hcalls ▸ hc))

theorem onServer_same (s : Cycles ε) (url : Str) (f : LeafServer → LeafServer) :
    (s.onServer url f).servers url = f (s.servers url) := Function.update_self ..

theorem onServer_ne (s : Cycles ε) {url u : Str} (hu : u ≠ url) (f : LeafServer → LeafServer) :
    (s.onServer url f).servers u = s.servers u := Function.update_of_ne hu _ _

theorem overTransport_inv (h : s.Inv py float sha readers) (url : Str)
    {f : HttpTransport → HttpTransport} (hf : ∀ t, (f t).dedupSeen = t.dedupSeen) :
    (s.onServer url (overTransport f)).Inv py float sha readers := by
  have hgrow : Grows s (s.onServer url (overTransport f)) :=
    .of_calls (List.prefix_refl _) (List.Subset.refl _) rfl
  refine h.onServers rfl rfl rfl (fun g hg => hgrow.handlingOk (h.handlings g hg))
    (fun _ _ hp => hp) (fun u k reply hk => ?_)
  by_cases hu : u = url
  · subst hu
    rw [onServer_same, overTransport, hf] at hk
    exact ⟨hk, by rw [onServer_same, overTransport]⟩
  · rw [onServer_ne s hu] at hk
    exact ⟨hk, by rw [onServer_ne s hu]⟩

theorem killed_cases (url : Str) (h : Handling) :
    killed url h = h ∨ killed url h = { h with phase := .failed } := by
  rw [killed]
  split
  · exact Or.inl rfl
  · split_ifs
    · exact Or.inr rfl
    · exact Or.inl rfl

theorem restart_servers (s : Cycles ε) (url u : Str) : (s.restart url).servers u =
    (s.onServer url (fun l => LeafServer.fresh l.transport)).servers u := rfl

theorem restart_inv (h : s.Inv py float sha readers) (url : Str) :
    (s.restart url).Inv py float sha readers := by
  have hgrow : Grows s (s.restart url) :=
    .of_calls (List.prefix_refl _) (List.Subset.refl _) rfl
  refine h.onServers rfl rfl rfl (fun g hg => ?_) (fun p e hp => ?_) (fun u k reply hk => ?_)
  · obtain ⟨g₀, hg₀, rfl⟩ := List.mem_map.mp hg
    obtain ⟨c, hc, hurl, henv, hphase⟩ := hgrow.handlingOk (h.handlings g₀ hg₀)
    rcases killed_cases url g₀ with heq | heq
    · rw [heq]
      exact ⟨c, hc, hurl, henv, hphase⟩
    · rw [heq]
      exact ⟨c, hc, hurl, henv, trivial⟩
  · obtain ⟨g, hg, hrest⟩ := hp
    obtain ⟨g₀, hg₀, rfl⟩ := List.mem_map.mp hg
    rcases killed_cases url g₀ with heq | heq
    · rw [heq] at hrest
      exact ⟨g₀, hg₀, hrest⟩
    · rw [heq] at hrest
      cases hrest.2.2
  · rw [restart_servers] at hk ⊢
    by_cases hu : u = url
    · subst hu
      rw [onServer_same] at hk
      cases hk
    · rw [onServer_ne s hu] at hk ⊢
      exact ⟨hk, rfl⟩

theorem call_inv (h : s.Inv py float sha readers) {c : NetworkController} {peer : Str}
    {cycleNumber : ℤ} (hclean : s.Clean py float (.call c peer cycleNumber)) :
    (s.call c peer cycleNumber).Inv py float sha readers := by
  rw [call]
  cases hr : c.leafRequest peer cycleNumber with
  | error e => exact h
  | ok r =>
    have hkey : dedupKey py float r.envelope = some (c.replyKey peer cycleNumber) :=
      leafRequest_key hr
    have hquiet : Quiet py float r.url (c.replyKey peer cycleNumber) s := hclean r hr
    have hnew : ∀ d ∈ s.calls ++ [LeafCall.mk peer r.url r.envelope s.started.length none],
        d ∈ s.calls ∨ d = ⟨peer, r.url, r.envelope, s.started.length, none⟩ := fun d hd =>
      (List.mem_append.mp hd).imp_right List.mem_singleton.mp
    refine ⟨?_, h.kept, fun g hg => ?_, fun d hd => ?_, fun d hd => ?_⟩
    · refine h.sound.arrive (k := (r.url, c.replyKey peer cycleNumber)) ?_ ?_
      · rintro e (⟨reply, hreply, -⟩ | ⟨g, hg, hurl, hk, hpending⟩)
        · exact hquiet.1 reply hreply
        · rw [hquiet.2 g hg hurl hk] at hpending
          cases hpending
      · rintro p m ⟨d, hd, hurl, hk, rfl⟩
        rcases hnew d hd with hd | rfl
        · exact Or.inl ⟨d, hd, hurl, hk, rfl⟩
        · rw [hasKey, hkey, decide_eq_true_eq, Option.some.injEq] at hk
          exact Or.inr ⟨Prod.ext hurl.symm hk.symm, rfl⟩
    · obtain ⟨d, hd, hrest⟩ := h.handlings g hg
      exact ⟨d, List.getElem?_append_left (List.getElem?_eq_some_iff.mp hd).1 ▸ hd, hrest⟩
    · rcases hnew d hd with hd | rfl
      · exact h.keyed d hd
      · exact ⟨_, decide_eq_true hkey⟩
    · rcases hnew d hd with hd | rfl
      · exact h.calls d hd
      · intro result e hended
        cases hended

theorem lookup_ok (h : s.Inv py float sha readers) {c : LeafCall ε} (hc : c ∈ s.calls) :
    s.PhaseOk c.url c.began (lookup py float c.envelope (s.servers c.url)) := by
  rw [lookup]
  cases HttpTransport.rpcError py float c.envelope with
  | some e => trivial
  | none =>
    cases hcached : (s.servers c.url).transport.cachedReply py float c.envelope with
    | none => trivial
    | some reply =>
      obtain ⟨k, hkey⟩ := h.keyed c hc
      have hseen := Transport.HttpServer.seen_of_payload
        ((Transport.HttpServer.cachedReply_seen hkey).symm.trans hcached)
      have horigin : (s.servers c.url).originOf py float c.envelope = (s.servers c.url).origin k := by
        rw [LeafServer.originOf, of_decide_eq_true hkey]
      show c.began ≤ _ ∧ s.Gave c.url _ reply
      rw [horigin]
      refine ⟨?_, h.kept c.url k reply hseen⟩
      exact h.sound.fresh (c.url, k) _ _ ⟨c, hc, rfl, hkey, rfl⟩ (Or.inl ⟨reply, hseen, rfl⟩)

theorem lookup_pending (d : Document) (l : LeafServer) :
    (lookup py float d l).pending = none := by
  rw [lookup]
  cases HttpTransport.rpcError py float d with
  | some e => rfl
  | none => cases l.transport.cachedReply py float d <;> rfl

theorem arrive_inv (h : s.Inv py float sha readers) (i : ℕ) :
    (s.arrive py float i).Inv py float sha readers := by
  rw [arrive]
  cases hc : s.calls[i]? with
  | none => exact h
  | some c =>
    have hmem : c ∈ s.calls := List.mem_of_getElem? hc
    refine h.onServers rfl rfl rfl (fun g hg => ?_) ?_ (fun _ _ _ hk => ⟨hk, rfl⟩)
    · rcases List.mem_append.mp hg with hg | hg
      · exact h.handlings g hg
      · obtain rfl := List.mem_singleton.mp hg
        exact ⟨c, hc, rfl, rfl, lookup_ok h hmem⟩
    · rintro p e ⟨g, hg, hurl, hk, hpending⟩
      rcases List.mem_append.mp hg with hg | hg
      · exact ⟨g, hg, hurl, hk, hpending⟩
      · obtain rfl := List.mem_singleton.mp hg
        rw [lookup_pending] at hpending
        cases hpending

section phases

variable {j : ℕ} {g : Handling} {phase : Phase}

theorem mem_setPhase {g' : Handling} (h : g' ∈ (s.setPhase j g phase).handlings) :
    g' ∈ s.handlings ∨ g' = { g with phase } := List.mem_or_eq_of_mem_set h

theorem pending_setPhase {p : Str × Str} {e : ℕ}
    (h : (s.setPhase j g phase).Pending py float p e) : s.Pending py float p e ∨
      g.url = p.1 ∧ hasKey py float p.2 g.envelope = true ∧ phase.pending = some e := by
  obtain ⟨g', hg', hrest⟩ := h
  rcases mem_setPhase hg' with hg' | rfl
  · exact Or.inl ⟨g', hg', hrest⟩
  · exact Or.inr hrest

theorem handlingOk_setPhase (phase : Phase) (hgrow : Grows s s')
    (h : ∀ g ∈ s.handlings, s.HandlingOk g) (hg : g ∈ s.handlings)
    (hphase : ∀ c ∈ s.calls, c.url = g.url → c.envelope = g.envelope →
      s'.PhaseOk g.url c.began phase)
    {g' : Handling} (hg' : g' ∈ s.handlings ∨ g' = { g with phase }) : s'.HandlingOk g' := by
  rcases hg' with hg' | rfl
  · exact hgrow.handlingOk (h g' hg')
  · obtain ⟨c, hc, hurl, henv, -⟩ := h g hg
    obtain ⟨c', hc', hurl', henv', hbegan⟩ := hgrow.calls _ c hc
    refine ⟨c', hc', hurl'.trans hurl, henv'.trans henv, hbegan.symm ▸ ?_⟩
    exact hphase c (List.mem_of_getElem? hc) hurl henv

theorem setPhase_inv (h : s.Inv py float sha readers) (hg : s.handlings[j]? = some g)
    (hstarted : s'.started = s.started) (hfinished : s.finished ⊆ s'.finished)
    (hcalls : s'.calls = s.calls) (hservers : s'.servers = s.servers)
    (hhandlings : s'.handlings = (s.setPhase j g phase).handlings)
    (hphase : ∀ began, s'.PhaseOk g.url began phase)
    (hpending : ∀ e, phase.pending = some e → g.phase.pending = some e) :
    s'.Inv py float sha readers := by
  have hmem : g ∈ s.handlings := List.mem_of_getElem? hg
  have hgrow : Grows s s' := .of_calls (hstarted ▸ List.prefix_refl _) hfinished hcalls
  refine ⟨?_, fun u k reply hk => ?_, fun g' hg' => ?_, hcalls ▸ h.keyed, fun c hc => ?_⟩
  · rw [hstarted]
    refine h.sound.mono (fun p m hm => ?_) (fun p e he => ?_)
    · obtain ⟨c, hc, hrest⟩ := hm
      exact ⟨c, hcalls ▸ hc, hrest⟩
    · rcases he with ⟨reply, hk, hor⟩ | ⟨g', hg', hrest⟩
      · rw [hservers] at hk hor
        exact Or.inl ⟨reply, hk, hor⟩
      · rcases pending_setPhase (s := s) ⟨g', hhandlings ▸ hg', hrest⟩ with hp | ⟨hurl, hk, hp⟩
        · exact Or.inr hp
        · exact Or.inr ⟨g, hmem, hurl, hk, hpending e hp⟩
  · rw [hservers] at hk ⊢
    exact hgrow.gave (h.kept u k reply hk)
  · exact handlingOk_setPhase _ hgrow h.handlings hmem (fun c _ _ _ => hphase c.began)
      (mem_setPhase (hhandlings ▸ hg'))
  · exact hgrow.freshCall (h.calls c (hcalls ▸ hc))

theorem start_inv (h : s.Inv py float sha readers) (j : ℕ) :
    (s.start py float j).Inv py float sha readers := by
  rw [start]
  cases hg : s.handlings[j]? with
  | none => exact h
  | some g =>
    have hmem : g ∈ s.handlings := List.mem_of_getElem? hg
    dsimp only
    cases hphase : g.phase with
    | running _ | answered _ _ | returned _ _ | failed => exact h
    | missed =>
      dsimp only
      split_ifs
      · have hgrow : Grows s { s.setPhase j g (.running s.started.length) with
            started := s.started ++ [⟨g.url, g.envelope⟩] } :=
          .of_calls (List.prefix_append _ _) (List.Subset.refl _) rfl
        refine ⟨?_, fun u k reply hk => hgrow.gave (h.kept u k reply hk), fun g' hg' => ?_,
          h.keyed, fun c hc => hgrow.freshCall (h.calls c hc)⟩
        · have hlength : (s.started ++ [Started.mk g.url g.envelope]).length =
              s.started.length + 1 := List.length_append
          show Freshness.Sound (s.started ++ [Started.mk g.url g.envelope]).length _ _
          rw [hlength]
          refine (h.sound.begin (Held py float _) ?_)
          rintro p e (hk | hp)
          · exact Or.inl (Or.inl hk)
          · rcases pending_setPhase hp with hp | ⟨-, -, hp⟩
            · exact Or.inl (Or.inr hp)
            · exact Or.inr (Option.some.inj hp).symm
        · refine handlingOk_setPhase (.running s.started.length) hgrow h.handlings hmem
            (fun c _ _ _ => ?_) (mem_setPhase hg')
          exact ⟨⟨g.url, g.envelope⟩, List.getElem?_concat_length, rfl⟩
      · exact setPhase_inv h hg rfl (List.Subset.refl _) rfl rfl rfl (fun _ => trivial)
          (fun e he => by cases he)

theorem finish_inv (h : s.Inv py float sha readers) (j : ℕ) (result : HandlerResult) :
    (s.finish j result).Inv py float sha readers := by
  rw [finish]
  cases hg : s.handlings[j]? with
  | none => exact h
  | some g =>
    have hmem : g ∈ s.handlings := List.mem_of_getElem? hg
    dsimp only
    cases hphase : g.phase with
    | missed | answered _ _ | returned _ _ | failed => exact h
    | running execution =>
      obtain ⟨c, -, -, -, hrunning⟩ := h.handlings g hmem
      rw [hphase] at hrunning
      refine setPhase_inv h hg rfl (List.subset_append_left _ _) rfl rfl rfl (fun _ => ?_)
        (fun e he => ?_)
      · cases result with
        | reply reply =>
          exact ⟨hrunning, List.mem_append_right _ (List.mem_singleton.mpr rfl)⟩
        | nonMapping _ => trivial
        | raised => trivial
      · rw [hphase]
        cases result with
        | reply reply => exact he
        | nonMapping _ => cases he
        | raised => cases he

theorem record_origin (d reply : Document) (e : ℕ) (l : LeafServer) (k : Str) :
    (l.record py float d reply e).origin k =
      if hasKey py float k d = true then e else l.origin k := by
  rw [LeafServer.record, hasKey]
  cases hd : dedupKey py float d with
  | none => rfl
  | some k' =>
    by_cases hk : k' = k
    · subst hk
      rw [if_pos (decide_eq_true rfl)]
      exact Function.update_self ..
    · rw [if_neg (fun hh => hk (Option.some.inj (of_decide_eq_true hh)))]
      exact Function.update_of_ne (Ne.symm hk) _ _

theorem record_seen {url u k : Str} {d reply reply' : Document} {e : ℕ}
    (hk : ((s.onServer url (LeafServer.record py float d reply e)).servers u).transport.dedupSeen k =
      some (.reply reply')) :
    (u = url ∧ hasKey py float k d = true ∧ reply' = reply ∧
      ((s.onServer url (LeafServer.record py float d reply e)).servers u).origin k = e) ∨
    ((s.servers u).transport.dedupSeen k = some (.reply reply') ∧
      ((s.onServer url (LeafServer.record py float d reply e)).servers u).origin k =
        (s.servers u).origin k) := by
  by_cases hu : u = url
  · subst hu
    rw [onServer_same] at hk ⊢
    rw [record_origin]
    change ((s.servers u).transport.recordReply py float d reply).dedupSeen k = _ at hk
    rw [Transport.HttpServer.recordReply_seen] at hk
    split_ifs at hk ⊢ with hkey
    · cases hk
      exact Or.inl ⟨rfl, hkey, rfl, rfl⟩
    · exact Or.inr ⟨hk, rfl⟩
  · rw [onServer_ne s hu] at hk ⊢
    exact Or.inr ⟨hk, rfl⟩

theorem record_inv (h : s.Inv py float sha readers) (j : ℕ) :
    (s.record py float j).Inv py float sha readers := by
  rw [record]
  cases hg : s.handlings[j]? with
  | none => exact h
  | some g =>
    have hmem : g ∈ s.handlings := List.mem_of_getElem? hg
    dsimp only
    cases hphase : g.phase with
    | missed | running _ | returned _ _ | failed => exact h
    | answered execution reply =>
      dsimp only
      have hgrow : Grows s ((s.setPhase j g (.returned execution reply)).onServer g.url
          (LeafServer.record py float g.envelope reply execution)) :=
        .of_calls (List.prefix_refl _) (List.Subset.refl _) rfl
      have hgave : s.Gave g.url execution reply := by
        obtain ⟨c, -, -, -, hanswered⟩ := h.handlings g hmem
        rw [hphase] at hanswered
        exact hanswered
      refine ⟨?_, fun u k reply' hk => ?_, fun g' hg' => ?_, h.keyed,
        fun c hc => hgrow.freshCall (h.calls c hc)⟩
      · refine h.sound.mono (fun p m hm => hm) ?_
        rintro p e (⟨reply', hk, rfl⟩ | ⟨g', hg', hrest⟩)
        · rcases record_seen hk with ⟨hu, hkey, -, horigin⟩ | ⟨hold, horigin⟩
          · rw [horigin]
            exact Or.inr ⟨g, hmem, hu.symm, hkey, by rw [hphase]; rfl⟩
          · exact Or.inl ⟨reply', hold, horigin.symm⟩
        · rcases pending_setPhase (s := s) ⟨g', hg', hrest⟩ with hp | ⟨-, -, hp⟩
          · exact Or.inr hp
          · cases hp
      · rcases record_seen hk with ⟨rfl, -, rfl, horigin⟩ | ⟨hold, horigin⟩
        · rw [horigin]
          exact hgrow.gave hgave
        · rw [horigin]
          exact hgrow.gave (h.kept u k reply' hold)
      · refine handlingOk_setPhase _ hgrow h.handlings hmem (fun c hc hurl henv => ?_)
          (mem_setPhase (s := s) hg')
        obtain ⟨k, hkey⟩ := h.keyed c hc
        refine ⟨?_, hgrow.gave hgave⟩
        refine h.sound.fresh (c.url, k) _ _ ⟨c, hc, rfl, hkey, rfl⟩ (Or.inr ?_)
        exact ⟨g, hmem, hurl.symm, henv ▸ hkey, by rw [hphase]; rfl⟩

theorem endCall_inv (h : s.Inv py float sha readers) {i : ℕ} {c : LeafCall ε}
    (hc : s.calls[i]? = some c) (r : Except CycleError (LeafCycleResult ε × ℕ))
    (hr : s.FreshCall py float sha readers { c with ended := some r }) :
    (s.endCall i c r).Inv py float sha readers := by
  have hmem : ∀ d ∈ (s.endCall i c r).calls, d ∈ s.calls ∨ d = { c with ended := some r } :=
    fun d hd => List.mem_or_eq_of_mem_set hd
  have hcs : c ∈ s.calls := List.mem_of_getElem? hc
  have hgrow : Grows s (s.endCall i c r) := by
    refine ⟨List.prefix_refl _, List.Subset.refl _, fun k d hd => ?_⟩
    by_cases hk : i = k
    · subst hk
      rw [hc] at hd
      cases hd
      exact ⟨_, List.getElem?_set_self (List.getElem?_eq_some_iff.mp hc).1, rfl, rfl, rfl⟩
    · exact ⟨d, (List.getElem?_set_ne hk).trans hd, rfl, rfl, rfl⟩
  refine ⟨?_, h.kept, fun g hg => hgrow.handlingOk (h.handlings g hg), fun d hd => ?_,
    fun d hd => ?_⟩
  · refine h.sound.mono ?_ (fun p e he => he)
    rintro p m ⟨d, hd, hrest⟩
    rcases hmem d hd with hd | rfl
    · exact ⟨d, hd, hrest⟩
    · exact ⟨c, hcs, hrest⟩
  · rcases hmem d hd with hd | rfl
    · exact h.keyed d hd
    · exact h.keyed c hcs
  · rcases hmem d hd with hd | rfl
    · exact h.calls d hd
    · exact hr

theorem receive_inv (h : s.Inv py float sha readers) (i j : ℕ) :
    (s.receive py float sha readers i j).Inv py float sha readers := by
  rw [receive]
  cases hc : s.calls[i]? with
  | none => exact h
  | some c =>
    cases hg : s.handlings[j]? with
    | none => exact h
    | some g =>
      cases hended : c.ended with
      | some r => simpa only [hended] using h
      | none =>
        dsimp only
        rw [hended]
        cases hphase : g.phase with
        | missed | running _ | answered _ _ | failed => exact h
        | returned execution reply =>
          dsimp only
          split_ifs with hcall
          · refine endCall_inv h hc _ (fun result e he => ?_)
            obtain ⟨d, hd, hurl, -, hreturned⟩ := h.handlings g (List.mem_of_getElem? hg)
            rw [hcall, hc] at hd
            cases hd
            rw [hphase] at hreturned
            obtain ⟨r, hparse, hpair⟩ := Fallible.map_eq_ok.mp (Option.some.inj he)
            cases hpair
            exact ⟨hreturned.1, reply, hurl ▸ hreturned.2, hparse⟩
          · exact h

theorem giveUp_inv (h : s.Inv py float sha readers) (i : ℕ) (reason : Str) :
    (s.giveUp i reason).Inv py float sha readers := by
  rw [giveUp]
  cases hc : s.calls[i]? with
  | none => exact h
  | some c =>
    dsimp only
    cases hended : c.ended with
    | some r => exact h
    | none => exact endCall_inv h hc _ (fun result e he => by cases he)

theorem step_inv (h : s.Inv py float sha readers) {a : CycleAction}
    (hclean : s.Clean py float a) : (s.step py float sha readers a).Inv py float sha readers := by
  cases a with
  | register url peer => exact overTransport_inv h url (fun _ => rfl)
  | unregister url peer => exact overTransport_inv h url (fun _ => rfl)
  | restart url => exact restart_inv h url
  | call c peer cycleNumber => exact call_inv h hclean
  | arrive i => exact arrive_inv h i
  | start j => exact start_inv h j
  | finish j result => exact finish_inv h j result
  | record j => exact record_inv h j
  | receive i j => exact receive_inv h i j
  | giveUp i reason => exact giveUp_inv h i reason

theorem run_inv {as : List CycleAction} : ∀ {s : Cycles ε}, s.Inv py float sha readers →
    s.CleanRun py float sha readers as → (s.run py float sha readers as).Inv py float sha readers := by
  induction as with
  | nil => exact fun h _ => h
  | cons a as ih => exact fun h hrun => ih (step_inv h hrun.1) hrun.2

theorem opened_inv (servers : Str → HttpTransport) :
    (opened (ε := ε) servers).Inv py float sha readers := by
  refine ⟨Freshness.Sound.none.mono ?_ ?_, fun u k reply hk => (by cases hk),
    fun g hg => absurd hg List.not_mem_nil, fun c hc => absurd hc List.not_mem_nil,
    fun c hc => absurd hc List.not_mem_nil⟩
  · rintro p m ⟨c, hc, -⟩
    exact List.not_mem_nil hc
  · rintro p e (⟨reply, hk, -⟩ | ⟨g, hg, -⟩)
    · cases hk
    · exact List.not_mem_nil hg

end phases

end steps

end Cycles

section results

variable {ε : Type} (py : PyText) (float : PyFloat) (sha : Sha256) (readers : LeafReaders ε)

theorem results_fresh (servers : Str → HttpTransport) (as : List CycleAction)
    (hrun : (Cycles.opened servers).CleanRun py float sha readers as) :
    ∀ c ∈ ((Cycles.opened servers).run py float sha readers as).calls,
      ((Cycles.opened servers).run py float sha readers as).FreshCall py float sha readers c :=
  (Cycles.run_inv (Cycles.opened_inv servers) hrun).calls

end results

def plainReport (hash : Str) : ProofReport where
  reportId := []
  intentId := []
  cycleId := []
  preSnapshot := .obj []
  postSnapshot := .obj []
  executionSummary := .obj []
  kripkeVerdict := { verified := false, propertiesChecked := 0, propertiesPassed := 0 }
  evidenceChain := []
  policyDecisions := []
  overallVerdict := .inconclusive
  verdictReason := []
  reportHash := hash

def plainReaders : LeafReaders Unit where
  dict v :=
    match Document.ofJson? v with
    | some d => .ok d
    | none => .error (.typeError "cannot convert to a dictionary")
  proofReport d := .ok (plainReport (dataText d.fields "report_hash".toList))
  escalation _ := .ok ()

def leafReply (hash : String) : Document :=
  ⟨[("outputs".toList, .obj [("proof_report".toList,
    .obj [("report_hash".toList, .str hash.toList)])])], rfl⟩

def plainController : NetworkController where
  topology := ⟨"n".toList, OrderedDict.empty.store "leaf".toList ⟨"leaf".toList, []⟩⟩
  transport := ⟨"center".toList, OrderedDict.empty.store "leaf".toList "u".toList, by decide⟩

def leafUrl : Str := "u/_transport/rpc".toList

def plainServers (_ : Str) : HttpTransport := { myId := "leaf".toList, named := by decide }

def oneCycle (i : ℕ) (cycleNumber : ℤ) (hash : String) : List CycleAction :=
  [.call plainController "leaf".toList cycleNumber, .arrive i, .start i,
    .finish i (.reply (leafReply hash)), .record i, .receive i i]

def cyclesAfter (as : List CycleAction) : Cycles Unit :=
  (Cycles.opened plainServers).run Queue.plainPy (fun _ => none) peerSha plainReaders
    (.register leafUrl "leaf".toList :: as)

def LeafCall.execution {ε : Type} (c : LeafCall ε) : Option ℕ :=
  match c.ended with
  | some (.ok (_, e)) => some e
  | _ => none

theorem execution_eq {ε : Type} {c : LeafCall ε} {e : ℕ} (h : c.execution = some e) :
    ∃ result, c.ended = some (.ok (result, e)) := by
  rw [LeafCall.execution] at h
  rcases hended : c.ended with _ | _ | ⟨result, x⟩
  · rw [hended] at h
    cases h
  · rw [hended] at h
    cases h
  · rw [hended] at h
    cases h
    exact ⟨result, rfl⟩

def firstCycle : List CycleAction :=
  [.call plainController "leaf".toList 1, .register leafUrl "leaf".toList, .arrive 0, .start 0,
    .finish 0 (.reply (leafReply "a")), .record 0, .receive 0 0]

theorem firstCycle_clean : (Cycles.opened plainServers).CleanRun Queue.plainPy (fun _ => none)
    peerSha plainReaders firstCycle := by
  refine ⟨fun r _ => ⟨fun reply hk => (by cases hk), fun g hg => absurd hg List.not_mem_nil⟩,
    trivial, trivial, trivial, trivial, trivial, trivial, trivial⟩

theorem results_fresh_in_first_cycles :
    ((Cycles.opened plainServers).run Queue.plainPy (fun _ => none) peerSha plainReaders
        firstCycle).calls ≠ [] ∧
    ∀ c ∈ ((Cycles.opened plainServers).run Queue.plainPy (fun _ => none) peerSha plainReaders
        firstCycle).calls,
      ((Cycles.opened plainServers).run Queue.plainPy (fun _ => none) peerSha plainReaders
        firstCycle).FreshCall Queue.plainPy (fun _ => none) peerSha plainReaders c :=
  ⟨List.cons_ne_nil _ _, results_fresh Queue.plainPy (fun _ => none) peerSha plainReaders
    plainServers firstCycle firstCycle_clean⟩

theorem restarted_controller_gets_old_proof :
    ¬∀ (servers : Str → HttpTransport) (as : List CycleAction),
      ∀ c ∈ ((Cycles.opened servers).run Queue.plainPy (fun _ => none) peerSha plainReaders
        as).calls,
      ((Cycles.opened servers).run Queue.plainPy (fun _ => none) peerSha plainReaders as).FreshCall
        Queue.plainPy (fun _ => none) peerSha plainReaders c := by
  intro h
  have hall := h plainServers (.register leafUrl "leaf".toList ::
    (oneCycle 0 1 "a" ++ oneCycle 1 1 "b"))
  have hcalls : ((cyclesAfter (oneCycle 0 1 "a" ++ oneCycle 1 1 "b")).calls.map
      (fun c => (c.began, c.execution))) = [(0, some 0), (1, some 0)] := by decide +kernel
  have hmem : (1, some 0) ∈ (cyclesAfter (oneCycle 0 1 "a" ++ oneCycle 1 1 "b")).calls.map
      (fun c => (c.began, c.execution)) := by
    rw [hcalls]
    exact List.mem_cons_of_mem _ List.mem_cons_self
  obtain ⟨c, hc, heq⟩ := List.mem_map.mp hmem
  obtain ⟨hbegan, hexec⟩ := Prod.mk.inj heq
  obtain ⟨result, hended⟩ := execution_eq hexec
  have hle := (hall c hc result 0 hended).1
  rw [hbegan] at hle
  exact absurd hle (by decide)

end TraceMind.Control
