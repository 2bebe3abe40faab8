import TraceMind.Artifacts.Forms
import TraceMind.Policy.Deterministic
import TraceMind.Transport.Http

namespace TraceMind.Runtime.Remote

open Artifacts (Sha256 Alike Form form formItems formFields keyOrder star)
open Policy (sortKeys sortKeysItems sortKeysFields)
open Queue (Document PyFloat PyText)
open Transport (HttpTransport TransportError dedupKey senderOf)
open Transport.FileQueueTransport (HandlerResult)

structure AgentSpec where
  agentId : Str
  runtimeConfig : Document

structure RemoteRuntimeAgent where
  spec : AgentSpec
  config : Document

structure Invocation where
  agent : RemoteRuntimeAgent
  inputs : Document

def idempotencyPayload (spec : AgentSpec) (inputs : Document) : Json :=
  .obj [("agent_id".toList, .str spec.agentId), ("inputs".toList, inputs.json),
    ("config".toList, spec.runtimeConfig.json)]

def defaultStyle : Json.Style := ⟨false, true⟩

def idempotencyKey (sha : Sha256) (spec : AgentSpec) (inputs : Document) : Str :=
  sha.hexdigest (defaultStyle.render (sortKeys (idempotencyPayload spec inputs)))

namespace Invocation

def key (sha : Sha256) (i : Invocation) : Str := idempotencyKey sha i.agent.spec i.inputs

def envelopeFields (i : Invocation) : List (Str × Json) :=
  [("op".toList, .str "agent.run".toList), ("agent_id".toList, .str i.agent.spec.agentId),
    ("inputs".toList, i.inputs.json), ("config".toList, i.agent.config.json)]

theorem envelope_keys :
    ["op".toList, "agent_id".toList, "inputs".toList, "config".toList].Nodup := by
  decide +kernel

theorem envelopeFields_wf (i : Invocation) : Json.wf (.obj i.envelopeFields) = true := by
  refine Json.wf_obj envelope_keys fun f hf => ?_
  simp only [envelopeFields, List.mem_cons, List.not_mem_nil, or_false] at hf
  rcases hf with rfl | rfl | rfl | rfl
  · rfl
  · rfl
  · exact i.inputs.wf
  · exact i.agent.config.wf

def envelope (i : Invocation) : Document := ⟨i.envelopeFields, i.envelopeFields_wf⟩

theorem posted_keys : ["from".toList, "to".toList, "kind".toList, "body".toList,
    "idempotency_key".toList].Nodup := by decide +kernel

def posted (sha : Sha256) (myId peerId : Str) (i : Invocation) : Document :=
  ⟨[("from".toList, .str myId), ("to".toList, .str peerId), ("kind".toList, .str "request".toList),
    ("body".toList, i.envelope.json), ("idempotency_key".toList, .str (i.key sha))], by
    refine Json.wf_obj posted_keys fun f hf => ?_
    simp only [List.mem_cons, List.not_mem_nil, or_false] at hf
    rcases hf with rfl | rfl | rfl | rfl | rfl
    · rfl
    · rfl
    · rfl
    · exact i.envelope.wf
    · rfl⟩

end Invocation

section server

variable (py : PyText) (float : PyFloat) (sha : Sha256) (myId peerId : Str)

def serve (t : HttpTransport) : List (Invocation × HandlerResult) →
    List (Except TransportError Document)
  | [] => []
  | (i, result) :: rest =>
    let answered := t.handleRpc py float result (i.posted sha myId peerId)
    answered.1 :: serve answered.2 rest

end server

section same

def SameValue (v w : Json) : Prop := Alike keyOrder [] v w

mutual

theorem sortKeys_eq : ∀ (path : List Str) (v : Json), sortKeys v = form keyOrder path v
  | _, .null | _, .bool _ | _, .nan | _, .infinity _ | _, .int _ | _, .float _ | _, .str _ => rfl
  | path, .arr vs => congrArg Json.arr (sortKeysItems_eq (path ++ [star]) vs)
  | path, .obj fs =>
    congrArg (fun gs => Json.obj (Artifacts.sortFields gs)) (sortKeysFields_eq path fs)

theorem sortKeysItems_eq : ∀ (path : List Str) (vs : List Json),
    sortKeysItems vs = formItems keyOrder path vs
  | _, [] => rfl
  | path, v :: vs => by
    rw [sortKeysItems, formItems, sortKeys_eq path v, sortKeysItems_eq path vs]

theorem sortKeysFields_eq : ∀ (path : List Str) (fs : List (Str × Json)),
    sortKeysFields fs = formFields keyOrder path fs
  | _, [] => rfl
  | path, (k, v) :: fs => by
    rw [sortKeysFields, formFields, sortKeys_eq (path ++ [k]) v, sortKeysFields_eq path fs]

end

variable {v w : Json}

theorem sameValue_iff (hv : Json.wf v = true) (hw : Json.wf w = true) :
    SameValue v w ↔ sortKeys v = sortKeys w := by
  rw [SameValue, ← Artifacts.form_eq_iff keyOrder v [] hv w hw, sortKeys_eq [], sortKeys_eq []]

theorem sortKeys_str (s : Str) : sortKeys (.str s) = .str s := rfl

theorem sameDocument_iff (a b : Document) :
    SameValue a.json b.json ↔ sortKeys a.json = sortKeys b.json := sameValue_iff a.wf b.wf

theorem sortKeys_injective_text (hv : Json.wf v = true) (hw : Json.wf w = true)
    (h : defaultStyle.render (sortKeys v) = defaultStyle.render (sortKeys w)) :
    sortKeys v = sortKeys w := by
  rw [sortKeys_eq [], sortKeys_eq []] at h ⊢
  exact Json.render_injective _ (Artifacts.form_wf _ _ hv) (Artifacts.form_wf _ _ hw) h

theorem eq_of_perm_keys {α : Type} {fs gs : List (Str × α)} (hp : List.Perm fs gs)
    (hkeys : fs.map Prod.fst = gs.map Prod.fst) (hnd : (fs.map Prod.fst).Nodup) : fs = gs := by
  induction fs generalizing gs with
  | nil => exact hp.nil_eq
  | cons f fs ih =>
    cases gs with
    | nil => cases hkeys
    | cons g gs =>
      obtain ⟨hk, hks⟩ := List.cons.inj hkeys
      obtain ⟨hf, hnd⟩ := List.nodup_cons.mp hnd
      rcases List.mem_cons.mp (hp.subset List.mem_cons_self) with rfl | hm
      · rw [ih hp.cons_inv hks hnd]
      · exact absurd (hks ▸ List.mem_map_of_mem hm) hf

theorem sameValue_obj {fs gs : List (Str × Json)} (hf : Json.wf (.obj fs) = true)
    (hg : Json.wf (.obj gs) = true) (hkeys : fs.map Prod.fst = gs.map Prod.fst) :
    SameValue (.obj fs) (.obj gs) ↔ sortKeysFields fs = sortKeysFields gs := by
  have hnd : ((sortKeysFields fs).map Prod.fst).Nodup := by
    rw [sortKeysFields_eq [], Artifacts.formFields_keys]
    exact of_decide_eq_true (Bool.and_eq_true_iff.mp hf).1
  have hsame : (sortKeysFields fs).map Prod.fst = (sortKeysFields gs).map Prod.fst := by
    rw [sortKeysFields_eq [], sortKeysFields_eq [], Artifacts.formFields_keys,
      Artifacts.formFields_keys, hkeys]
  rw [sameValue_iff hf hg, sortKeys, sortKeys, Json.obj.injEq, Artifacts.sortFields_eq_iff hnd]
  exact ⟨fun hp => eq_of_perm_keys hp hsame hnd, fun he => he ▸ List.Perm.refl _⟩

end same

section keys

variable {sha : Sha256} {i j : Invocation}

namespace Invocation

def SameKeyed (i j : Invocation) : Prop :=
  i.agent.spec.agentId = j.agent.spec.agentId ∧ SameValue i.inputs.json j.inputs.json ∧
    SameValue i.agent.spec.runtimeConfig.json j.agent.spec.runtimeConfig.json

def SameConfig (i j : Invocation) : Prop :=
  SameValue i.agent.config.json j.agent.config.json

theorem payload_keys : ["agent_id".toList, "inputs".toList, "config".toList].Nodup := by
  decide +kernel

theorem payload_wf (spec : AgentSpec) (inputs : Document) :
    Json.wf (idempotencyPayload spec inputs) = true := by
  refine Json.wf_obj payload_keys fun f hf => ?_
  simp only [List.mem_cons, List.not_mem_nil, or_false] at hf
  rcases hf with rfl | rfl | rfl
  · rfl
  · exact inputs.wf
  · exact spec.runtimeConfig.wf

theorem payload_same : SameValue (idempotencyPayload i.agent.spec i.inputs)
    (idempotencyPayload j.agent.spec j.inputs) ↔ SameKeyed i j := by
  have hobj := sameValue_obj (payload_wf i.agent.spec i.inputs)
    (payload_wf j.agent.spec j.inputs) rfl
  refine hobj.trans ?_
  rw [SameKeyed, sameDocument_iff, sameDocument_iff]
  simp [sortKeysFields, sortKeys_str]

theorem key_eq_iff (hsha : Function.Injective sha.hexdigest) :
    i.key sha = j.key sha ↔ SameKeyed i j := by
  rw [← payload_same, sameValue_iff (payload_wf _ _) (payload_wf _ _)]
  constructor
  · exact fun h => sortKeys_injective_text (payload_wf _ _) (payload_wf _ _) (hsha h)
  · intro h
    rw [key, key, idempotencyKey, idempotencyKey, h]

theorem envelope_same : SameValue i.envelope.json j.envelope.json ↔
    i.agent.spec.agentId = j.agent.spec.agentId ∧ SameValue i.inputs.json j.inputs.json ∧
      SameConfig i j := by
  refine (sameValue_obj i.envelopeFields_wf j.envelopeFields_wf rfl).trans ?_
  rw [SameConfig, sameDocument_iff, sameDocument_iff]
  simp [envelopeFields, sortKeysFields, sortKeys_str]

end Invocation

end keys

section replies

variable {py : PyText} {float : PyFloat} {sha : Sha256} {myId peerId : Str}

def place (py : PyText) (sha : Sha256) (myId : Str) (i : Invocation) : Str :=
  (if myId = [] then [] else py.str (.str myId)) ++ '|' :: i.key sha

theorem posted_key (sha : Sha256) (myId peerId : Str) (i : Invocation) :
    (i.posted sha myId peerId).get? "idempotency_key".toList = some (.str (i.key sha)) := by
  simp [Invocation.posted, Document.get?, List.lookup_cons]

theorem posted_from (i : Invocation) :
    (i.posted sha myId peerId).get? "from".toList = some (.str myId) := by
  simp [Invocation.posted, Document.get?]

theorem senderOf_posted (i : Invocation) : senderOf py float (i.posted sha myId peerId) =
    if myId = [] then [] else py.str (.str myId) := by
  rw [senderOf, posted_from]
  cases myId with
  | nil => rfl
  | cons c cs => rfl

theorem dedupKey_posted (i : Invocation) :
    dedupKey py float (i.posted sha myId peerId) = some (place py sha myId i) := by
  obtain ⟨c, cs, hkey⟩ := List.exists_cons_of_ne_nil (sha.nonempty
    (defaultStyle.render (sortKeys (idempotencyPayload i.agent.spec i.inputs))))
  have hposted := posted_key sha myId peerId i
  have hk : i.key sha = c :: cs := hkey
  rw [dedupKey, hposted, place, hk]
  dsimp only
  rw [senderOf_posted]

def Known (py : PyText) (sha : Sha256) (myId : Str) (past : List (Invocation × HandlerResult))
    (t : HttpTransport) : Prop :=
  ∀ k reply, t.dedupSeen k = some (.reply reply) →
    ∃ c ∈ past, place py sha myId c.1 = k ∧ c.2 = .reply reply

theorem Known.mono {past : List (Invocation × HandlerResult)} {t : HttpTransport}
    (h : Known py sha myId past t) (c : Invocation × HandlerResult) :
    Known py sha myId (past ++ [c]) t := by
  intro k reply hk
  obtain ⟨d, hd, hplace⟩ := h k reply hk
  exact ⟨d, List.mem_append_left _ hd, hplace⟩

theorem cachedReply_some {t : HttpTransport} {i : Invocation} {reply : Document}
    (h : t.cachedReply py float (i.posted sha myId peerId) = some reply) :
    t.dedupSeen (place py sha myId i) = some (.reply reply) := by
  unfold HttpTransport.cachedReply at h
  rw [dedupKey_posted] at h
  dsimp only at h
  cases hseen : t.dedupSeen (place py sha myId i) with
  | none =>
    rw [hseen] at h
    cases h
  | some e =>
    rw [hseen] at h
    cases e with
    | seen => cases h
    | reply payload =>
      cases h
      rfl

theorem Known.record {past : List (Invocation × HandlerResult)} {t : HttpTransport}
    (h : Known py sha myId past t) (i : Invocation) (reply : Document) :
    Known py sha myId (past ++ [(i, .reply reply)])
      (t.recordReply py float (i.posted sha myId peerId) reply) := by
  intro k r hk
  unfold HttpTransport.recordReply at hk
  rw [dedupKey_posted] at hk
  dsimp only at hk
  by_cases hplace : k = place py sha myId i
  · rw [hplace, Function.update_self] at hk
    cases hk
    exact ⟨_, List.mem_append_right _ List.mem_cons_self, hplace.symm, rfl⟩
  · rw [Function.update_of_ne hplace] at hk
    exact h.mono _ k r hk

theorem Known.handle {past : List (Invocation × HandlerResult)} {t : HttpTransport}
    (h : Known py sha myId past t) (float : PyFloat) (peerId : Str) (i : Invocation)
    (result : HandlerResult) :
    Known py sha myId (past ++ [(i, result)])
        (t.handleRpc py float result (i.posted sha myId peerId)).2 ∧
      ∀ reply, (t.handleRpc py float result (i.posted sha myId peerId)).1 = .ok reply →
        ∃ c ∈ past ++ [(i, result)], place py sha myId c.1 = place py sha myId i ∧
          c.2 = .reply reply := by
  have hlast : (i, result) ∈ past ++ [(i, result)] := List.mem_append_right _ List.mem_cons_self
  unfold HttpTransport.handleRpc
  cases HttpTransport.rpcError py float (i.posted sha myId peerId) with
  | some e => exact ⟨h.mono _, nofun⟩
  | none =>
    dsimp only
    cases hcached : t.cachedReply py float (i.posted sha myId peerId) with
    | some reply =>
      refine ⟨h.mono _, fun r hr => ?_⟩
      cases hr
      obtain ⟨c, hc, hplace, hreply⟩ := h _ _ (cachedReply_some hcached)
      exact ⟨c, List.mem_append_left _ hc, hplace, hreply⟩
    | none =>
      dsimp only
      split_ifs
      · cases result with
        | reply payload =>
          refine ⟨h.record i payload, fun r hr => ?_⟩
          cases hr
          exact ⟨_, hlast, rfl, rfl⟩
        | nonMapping typeName => exact ⟨h.mono _, nofun⟩
        | raised => exact ⟨h.mono _, nofun⟩
      · exact ⟨h.mono _, nofun⟩

theorem Known.serve {calls : List (Invocation × HandlerResult)} :
    ∀ {past : List (Invocation × HandlerResult)} {t : HttpTransport}, Known py sha myId past t →
    ∀ (n : ℕ) (c : Invocation × HandlerResult) (reply : Document), calls[n]? = some c →
    (serve py float sha myId peerId t calls)[n]? = some (.ok reply) →
    ∃ d ∈ past ++ calls.take (n + 1), place py sha myId d.1 = place py sha myId c.1 ∧
      d.2 = .reply reply := by
  induction calls with
  | nil => exact fun _ n c reply hc _ => absurd hc (by simp)
  | cons first rest ih =>
    obtain ⟨i, result⟩ := first
    intro past t h n c reply hc hr
    obtain ⟨hnext, hown⟩ := h.handle float peerId i result
    cases n with
    | zero =>
      cases hc
      exact hown reply (Option.some.inj hr)
    | succ n =>
      have hrest := ih hnext n c reply hc hr
      rwa [List.append_assoc] at hrest

end replies

section promise

def freshServer (serverId : Str) (named : serverId ≠ []) (handlers : List Str) : HttpTransport :=
  { myId := serverId, handlers, named }

def OwnReplies (py : PyText) (float : PyFloat) (sha : Sha256) (myId peerId : Str)
    (t : HttpTransport) (calls : List (Invocation × HandlerResult)) : Prop :=
  ∀ (n : ℕ) (c : Invocation × HandlerResult) (reply : Document), calls[n]? = some c →
    (serve py float sha myId peerId t calls)[n]? = some (.ok reply) →
    ∃ d ∈ calls.take (n + 1), d.2 = .reply reply ∧
      SameValue d.1.envelope.json c.1.envelope.json

structure Separate (py : PyText) (float : PyFloat) (sha : Sha256) (myId peerId : Str)
    (t : HttpTransport) (calls : List (Invocation × HandlerResult)) : Prop where
  keys : ∀ c ∈ calls, ∀ d ∈ calls, c.1.key sha = d.1.key sha →
    SameValue c.1.envelope.json d.1.envelope.json
  replies : OwnReplies py float sha myId peerId t calls

variable {py : PyText} {float : PyFloat} {sha : Sha256} {myId peerId : Str}

theorem key_of_place {i j : Invocation} (h : place py sha myId i = place py sha myId j) :
    i.key sha = j.key sha := (List.cons.inj (List.append_cancel_left h)).2

theorem envelope_of_config (hsha : Function.Injective sha.hexdigest) {i j : Invocation}
    (hkey : i.key sha = j.key sha) (h : i.SameKeyed j → i.SameConfig j) :
    SameValue i.envelope.json j.envelope.json := by
  have hkeyed := (Invocation.key_eq_iff hsha).mp hkey
  exact Invocation.envelope_same.mpr ⟨hkeyed.1, hkeyed.2.1, h hkeyed⟩

theorem separate_iff (hsha : Function.Injective sha.hexdigest) {serverId : Str}
    (named : serverId ≠ []) (handlers : List Str) (calls : List (Invocation × HandlerResult)) :
    Separate py float sha myId peerId (freshServer serverId named handlers) calls ↔
      ∀ c ∈ calls, ∀ d ∈ calls, c.1.SameKeyed d.1 → c.1.SameConfig d.1 := by
  constructor
  · intro h c hc d hd hkeyed
    have henv := h.keys c hc d hd ((Invocation.key_eq_iff hsha).mpr hkeyed)
    exact (Invocation.envelope_same.mp henv).2.2
  · intro h
    refine ⟨fun c hc d hd hkey => envelope_of_config hsha hkey (h c hc d hd), ?_⟩
    intro n c reply hc hr
    have hknown : Known py sha myId [] (freshServer serverId named handlers) := nofun
    obtain ⟨d, hd, hplace, hreply⟩ := hknown.serve n c reply hc hr
    exact ⟨d, hd, hreply, envelope_of_config hsha (key_of_place hplace)
      (h d (List.mem_of_mem_take hd) c (List.mem_of_getElem? hc))⟩

end promise

def observed (mode : Str) : Invocation where
  agent := ⟨⟨['a'], .empty⟩, ⟨[(['m'], .str mode)], rfl⟩⟩
  inputs := .empty

theorem separate_same_mode : Separate Queue.plainPy (fun _ => none) (.ofTable [] rfl) ['c'] ['a']
    (freshServer ['a'] (by decide) [['a']])
    [(observed ['t'], .reply .empty), (observed ['t'], .raised)] := by
  refine (separate_iff Artifacts.ofTable_nil_injective (by decide) _ _).mpr ?_
  intro c hc d hd _
  simp only [List.mem_cons, List.not_mem_nil, or_false] at hc hd
  rcases hc with rfl | rfl <;> rcases hd with rfl | rfl <;> exact (sameDocument_iff _ _).mpr rfl

theorem modes_share_key : ¬ ∀ (sha : Sha256), Function.Injective sha.hexdigest →
    ∀ i j : Invocation, i.key sha = j.key sha →
      SameValue i.envelope.json j.envelope.json := by
  intro h
  have hsame := h _ Artifacts.ofTable_nil_injective (observed ['t']) (observed ['p']) rfl
  have hconfig := (sameDocument_iff _ _).mp (Invocation.envelope_same.mp hsame).2.2
  simp [observed, Document.json, sortKeys, sortKeysFields, Artifacts.sortFields,
    Artifacts.insertField] at hconfig

end TraceMind.Runtime.Remote
