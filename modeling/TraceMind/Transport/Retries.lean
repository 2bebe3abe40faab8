import TraceMind.Transport.FileQueue

namespace TraceMind.Transport

open Queue (Document PyFloat PyText)

open FileQueueTransport (Fate Outcome)

namespace Retries

structure Handled where
  sender : Str
  correlationId : Str
  key : Option Str
  answered : Bool
deriving DecidableEq

structure Server where
  root : Root := {}
  transport : Option FileQueueTransport := none
  history : List Handled := []

inductive Event where
  | deposit (name : Str) (text : FileText)
  | collect (peer name : Str)
  | start (rootDir : Str) (knownPeers : List Str) (window : ℕ)
  | register (peer : Str)
  | unregister (peer : Str)
  | visit (name : Str) (fate : Fate)
  | stop

section runs

variable (cls : CharClasses) (py : PyText) (float : PyFloat) (me : Str)

def Outcome.isReplied : Outcome → Bool
  | .replied => true
  | _ => false

def Outcome.isCrashed : Outcome → Bool
  | .crashed => true
  | _ => false

def requestAt (name : Str) (s : Server) : Option Document :=
  match (s.root.peer me).inbox.get? name with
  | some (.object d) => if isEnvelopeFilename cls name && isRequest d then some d else none
  | _ => none

def taken (d : Document) : Prop := senderOf py float d ≠ [] ∧ correlationIdOf py float d ≠ []

instance (d : Document) : Decidable (taken py float d) := inferInstanceAs (Decidable (_ ∧ _))

def handledAs (d : Document) (answered : Bool) : Handled :=
  ⟨senderOf py float d, correlationIdOf py float d, dedupKey py float d, answered⟩

def handle (name : Str) (fate : Fate) (d : Document) (t : FileQueueTransport) (s : Server) :
    Server :=
  let w := t.handleRequest py float fate name d s.root
  let transport := if Outcome.isCrashed w.1 then none else some w.2.1
  let history :=
    if taken py float d then handledAs py float d (Outcome.isReplied w.1) :: s.history
    else s.history
  { root := w.2.2, transport, history }

def perform (e : Event) (s : Server) : Server :=
  match e with
  | .deposit name text =>
    { s with root := s.root.update me (fun d => { d with inbox := d.inbox.insert name text }) }
  | .collect peer name =>
    { s with root := s.root.update peer (fun d => { d with responses := d.responses.erase name }) }
  | .start rootDir knownPeers window =>
    match FileQueueTransport.init me rootDir knownPeers window s.root with
    | none => s
    | some (t, r) => { s with root := r, transport := some t }
  | .register peer =>
    { s with transport := s.transport.map (fun t => { t with handlers := peer :: t.handlers }) }
  | .unregister peer =>
    { s with transport := s.transport.map (fun t =>
        { t with handlers := t.handlers.filter (fun h => h ≠ peer) }) }
  | .visit name fate =>
    match s.transport, requestAt cls me name s with
    | some t, some d => handle py float name fate d t s
    | _, _ => s
  | .stop => { s with transport := none }

end runs

section statements

variable (cls : CharClasses) (py : PyText) (float : PyFloat) (me : Str)

def textKey : Json → Option Str
  | .str k => some k
  | _ => none

def storedKeys (d : PeerDir) : List Str :=
  match d.dedup with
  | some (.object doc) =>
    match doc.get? "keys".toList with
    | some (.arr keys) => keys.filterMap textKey
    | _ => []
  | _ => []

def Absorbs (k : Str) (t : FileQueueTransport) : Prop :=
  ∃ d, dedupKey py float d = some k ∧ t.isDuplicate py float d = true

def Admits (k : Str) (s : Server) : Prop :=
  match s.transport with
  | some t => ¬Absorbs py float k t
  | none => ∀ rootDir knownPeers window t r,
      FileQueueTransport.init me rootDir knownPeers window s.root = some (t, r) →
        ¬Absorbs py float k t

def AnsweredTo (sender correlationId : Str) (s : Server) : Prop :=
  ∃ y ∈ s.history, y.answered = true ∧ y.sender = sender ∧ y.correlationId = correlationId

def Resolved (s : Server) : Prop :=
  ∀ newer x older, s.history = newer ++ x :: older →
    AnsweredTo x.sender x.correlationId s ∨ ∀ k, x.key = some k →
      (∃ y ∈ newer, y.answered = true ∧ y.key = some k) ∨ Admits py float me k s

def Replies (fate : Fate) (d : Document) (t : FileQueueTransport) : Prop :=
  textOr py float (d.get? "to".toList) t.myId ∈ t.handlers →
    FileQueueTransport.bodyOf float d ≠ none ∧ ∃ payload, fate.handler = .reply payload

def StopsBefore (fate : Fate) (d : Document) (t : FileQueueTransport) : Prop :=
  fate.crash = some .moved ∨ fate.crash = some .remembered ∨
    fate.persisted ≠ .replaced ∧ (fate.crash = some .persisted ∨
      fate.crash = some .answering ∧ Replies py float fate d t)

def CarefulWith (k : Str) (fate : Fate) (d : Document) (t : FileQueueTransport) (s : Server) :
    Prop :=
  if t.isDuplicate py float d = true ∧ fate.crash ≠ some .moved then
    AnsweredTo (senderOf py float d) (correlationIdOf py float d) s
  else
    (fate.crash = none ∧ fate.replied = .replaced ∧ Replies py float fate d t) ∨
      (k ∉ storedKeys (s.root.peer me) ∧ (StopsBefore py float fate d t ∨ t.dedupWindow = 0))

def Careful (e : Event) (s : Server) : Prop :=
  ∀ name fate t d k, e = .visit name fate → s.transport = some t →
    requestAt cls me name s = some d → taken py float d → dedupKey py float d = some k →
      CarefulWith py float me k fate d t s

def Reaches (allowed : Event → Server → Prop) : Server → Server → Prop :=
  Relation.ReflTransGen (fun s s' => ∃ e, allowed e s ∧ s' = perform cls py float me e s)

end statements

section keys

variable {py : PyText} {float : PyFloat} {k : Str} {d : Document} {t : FileQueueTransport} {r : Root}

theorem absorbs_iff : Absorbs py float k t ↔
    (∃ d, dedupKey py float d = some k) ∧ k ∈ t.dedupState := by
  constructor
  · rintro ⟨d, hd, hdup⟩
    rw [FileQueueTransport.isDuplicate, hd] at hdup
    exact ⟨⟨d, hd⟩, of_decide_eq_true hdup⟩
  · rintro ⟨⟨d, hd⟩, hk⟩
    refine ⟨d, hd, ?_⟩
    rw [FileQueueTransport.isDuplicate, hd]
    exact decide_eq_true hk

theorem mem_pushBounded {window : ℕ} {keys : List Str} {key j : Str}
    (h : j ∈ FileQueueTransport.pushBounded window keys key) : j ∈ keys ∨ j = key := by
  have hm := List.mem_of_mem_drop h
  rwa [List.mem_append, List.mem_singleton] at hm

theorem pushBounded_zero (keys : List Str) (key : Str) :
    FileQueueTransport.pushBounded 0 keys key = [] := by
  rw [FileQueueTransport.pushBounded]
  exact List.drop_eq_nil_of_le (by simp)

theorem mem_foldl_loadKey {window : ℕ} {vs : List Json} {keys : List Str} {j : Str}
    (h : j ∈ vs.foldl (FileQueueTransport.loadKey window) keys) :
    j ∈ keys ∨ j ∈ vs.filterMap textKey := by
  induction vs generalizing keys with
  | nil => exact Or.inl h
  | cons v vs ih =>
    rw [List.foldl_cons] at h
    cases v with
    | str key =>
      rw [List.filterMap_cons_some (rfl : textKey (.str key) = some key), List.mem_cons]
      rcases ih h with h | h
      · rcases mem_pushBounded h with h | h
        · exact Or.inl h
        · exact Or.inr (Or.inl h)
      · exact Or.inr (Or.inr h)
    | _ => exact (ih h).imp_right (fun h => by rwa [List.filterMap_cons_none rfl])

theorem foldl_loadKey_zero (vs : List Json) :
    vs.foldl (FileQueueTransport.loadKey 0) [] = [] := by
  induction vs with
  | nil => rfl
  | cons v vs ih =>
    rw [List.foldl_cons]
    cases v with
    | str key => rwa [FileQueueTransport.loadKey, pushBounded_zero]
    | _ => exact ih

theorem mem_loadDedupState {window : ℕ} {dir : PeerDir} {j : Str}
    (h : j ∈ FileQueueTransport.loadDedupState window dir) : j ∈ storedKeys dir := by
  have hsub : ∀ keys : List Json, (FileQueueTransport.lastKeys window keys).Sublist keys := by
    intro keys
    unfold FileQueueTransport.lastKeys
    split_ifs
    · exact List.Sublist.refl keys
    · exact List.drop_sublist _ keys
  rw [FileQueueTransport.loadDedupState] at h
  rw [storedKeys]
  cases hdedup : dir.dedup with
  | none =>
    rw [hdedup] at h
    cases h
  | some text =>
    rw [hdedup] at h
    cases text with
    | object doc =>
      dsimp only at h ⊢
      cases hkeys : doc.get? "keys".toList with
      | none =>
        rw [hkeys] at h
        cases h
      | some v =>
        rw [hkeys] at h
        cases v with
        | arr keys =>
          rcases mem_foldl_loadKey h with h | h
          · cases h
          · exact ((hsub keys).filterMap textKey).subset h
        | _ => cases h
    | _ => cases h

theorem loadDedupState_zero (dir : PeerDir) : FileQueueTransport.loadDedupState 0 dir = [] := by
  unfold FileQueueTransport.loadDedupState
  split
  · split
    · exact foldl_loadKey_zero _
    · rfl
  · rfl

theorem storedKeys_keysDocument (dir : PeerDir) (keys : List Str) :
    storedKeys { dir with dedup := some (.object (FileQueueTransport.keysDocument keys)) } =
      keys := by
  change (keys.map Json.str).filterMap textKey = keys
  rw [List.filterMap_map]
  exact List.filterMap_some

end keys

section effects

variable {py : PyText} {float : PyFloat} {me k : Str} {fate : Fate} {d : Document} {name : Str}
  {t : FileQueueTransport} {r : Root}

theorem dedup_moveToProcessed (p q name : Str) (r : Root) :
    ((r.moveToProcessed p name).peer q).dedup = (r.peer q).dedup := by
  unfold Root.moveToProcessed
  split
  · rfl
  · rw [Root.peer_update]
    split_ifs with h
    · rw [h]
    · rfl

theorem storedKeys_congr {a b : PeerDir} (h : a.dedup = b.dedup) : storedKeys a = storedKeys b := by
  rw [storedKeys, storedKeys, h]

theorem dedup_reply (outcome : WriteOutcome) (sender correlationId : Str) (payload : Document)
    (r : Root) (q : Str) :
    ((FileQueueTransport.reply outcome sender correlationId payload r).2.peer q).dedup =
      (r.peer q).dedup := by
  unfold FileQueueTransport.reply
  cases outcome with
  | replaced =>
    simp only [Root.peer_update, Root.peer_ensurePeerDirs]
    split_ifs with h
    · rw [h]
    · rfl
  | abandoned suffix => simp only [Root.peer_ensurePeerDirs]
  | refused => simp only [Root.peer_ensurePeerDirs]

def SameKeys (w : Outcome × FileQueueTransport × Root) (t : FileQueueTransport) (r : Root) : Prop :=
  w.2.1 = t ∧ ∀ q, (w.2.2.peer q).dedup = (r.peer q).dedup

theorem sameKeys_deliver (sender correlationId : Str) (payload : Document) :
    SameKeys (FileQueueTransport.deliver fate sender correlationId payload t r) t r := by
  have hreply := dedup_reply fate.replied sender correlationId payload r
  unfold FileQueueTransport.deliver
  split_ifs
  · exact ⟨rfl, fun _ => rfl⟩
  · split
    · rename_i heq
      rw [heq] at hreply
      exact ⟨rfl, hreply⟩
    · rename_i heq
      rw [heq] at hreply
      exact ⟨rfl, hreply⟩

theorem sameKeys_invokeHandler (sender correlationId : Str) :
    SameKeys (FileQueueTransport.invokeHandler py float fate sender correlationId name d t r)
      t r := by
  unfold FileQueueTransport.invokeHandler
  dsimp only
  split_ifs
  · split
    · exact ⟨rfl, fun _ => rfl⟩
    · split
      · exact ⟨rfl, fun _ => rfl⟩
      · exact ⟨rfl, fun _ => rfl⟩
      · exact sameKeys_deliver ..
  · exact sameKeys_deliver ..

theorem deliver_isReplied {sender correlationId : Str} {payload : Document}
    (hcrash : fate.crash = none) (hwritten : fate.replied = .replaced) :
    (FileQueueTransport.deliver fate sender correlationId payload t r).1 = .replied := by
  rw [FileQueueTransport.deliver, hcrash, if_neg nofun, hwritten]
  rfl

theorem deliver_isCrashed {sender correlationId : Str} {payload : Document}
    (hcrash : fate.crash = some .answering) :
    (FileQueueTransport.deliver fate sender correlationId payload t r).1 = .crashed := by
  rw [FileQueueTransport.deliver, if_pos hcrash]

theorem invokeHandler_of_replies (h : Replies py float fate d t) (sender correlationId : Str) :
    ∃ payload, FileQueueTransport.invokeHandler py float fate sender correlationId name d t r =
      FileQueueTransport.deliver fate sender correlationId payload t r := by
  rw [FileQueueTransport.invokeHandler]
  split_ifs with hk
  · obtain ⟨hbody, payload, hp⟩ := h hk
    obtain ⟨body, hb⟩ := Option.ne_none_iff_exists'.mp hbody
    exact ⟨payload, by rw [hb, hp]⟩
  · exact ⟨_, rfl⟩

theorem mem_recordSeen {j : Str}
    (h : j ∈ (t.recordSeen py float fate.persisted d r).1.dedupState) :
    j ∈ t.dedupState ∨ dedupKey py float d = some j := by
  unfold FileQueueTransport.recordSeen at h
  split at h
  · exact Or.inl h
  · rename_i key hkey
    split_ifs at h
    · exact Or.inl h
    · rcases mem_pushBounded h with h | h
      · exact Or.inl h
      · exact Or.inr (by rw [hkey, h])

theorem storedKeys_recordSeen (hid : t.myId = me) {j : Str}
    (h : j ∈ storedKeys ((t.recordSeen py float fate.persisted d r).2.peer me)) :
    j ∈ storedKeys (r.peer me) ∨
      fate.persisted = .replaced ∧ j ∈ (t.recordSeen py float fate.persisted d r).1.dedupState := by
  unfold FileQueueTransport.recordSeen at h ⊢
  split at h
  · exact Or.inl h
  · split_ifs at h
    · exact Or.inl h
    · rename_i hnew
      unfold FileQueueTransport.persistDedupState at h
      split at h
      · rename_i hp
        refine Or.inr ⟨hp, ?_⟩
        rw [Root.peer_update, if_pos (by exact hid.symm), storedKeys_keysDocument] at h
        rw [if_neg hnew]
        exact h
      · exact Or.inl h

theorem recordSeen_zero (hw : t.dedupWindow = 0) (ht : t.dedupState = []) :
    (t.recordSeen py float fate.persisted d r).1.dedupState = [] := by
  unfold FileQueueTransport.recordSeen
  split
  · exact ht
  · rw [ht, if_neg List.not_mem_nil]
    simp only [FileQueueTransport.remember, ht, hw, pushBounded_zero]

theorem recordSeen_fields (py : PyText) (float : PyFloat) (persisted : WriteOutcome)
    (d : Document) (t : FileQueueTransport) (r : Root) :
    (t.recordSeen py float persisted d r).1.myId = t.myId ∧
      (t.recordSeen py float persisted d r).1.handlers = t.handlers ∧
      (t.recordSeen py float persisted d r).1.dedupWindow = t.dedupWindow := by
  unfold FileQueueTransport.recordSeen
  split
  · exact ⟨rfl, rfl, rfl⟩
  · split_ifs <;> exact ⟨rfl, rfl, rfl⟩

theorem Replies.recordSeen (h : Replies py float fate d t) (persisted : WriteOutcome) :
    Replies py float fate d (t.recordSeen py float persisted d r).1 := by
  obtain ⟨hid, hhandlers, -⟩ := recordSeen_fields py float persisted d t r
  rw [Replies, hid, hhandlers]
  exact h

theorem sameKeys_recordAndInvoke (sender correlationId : Str) :
    SameKeys (FileQueueTransport.recordAndInvoke py float fate sender correlationId name d t r)
      t r ∨
    SameKeys (FileQueueTransport.recordAndInvoke py float fate sender correlationId name d t r)
      (t.recordSeen py float fate.persisted d r).1
      (t.recordSeen py float fate.persisted d r).2 := by
  unfold FileQueueTransport.recordAndInvoke
  dsimp only
  split_ifs
  · exact Or.inl ⟨rfl, fun _ => rfl⟩
  · exact Or.inr ⟨rfl, fun _ => rfl⟩
  · exact Or.inr (sameKeys_invokeHandler ..)

theorem handleRequest_keys (py : PyText) (float : PyFloat) (fate : Fate) (d : Document)
    (name : Str) (t : FileQueueTransport) (r : Root) : ∃ r₀ : Root, (∀ q, (r₀.peer q).dedup = (r.peer q).dedup) ∧
    (SameKeys (t.handleRequest py float fate name d r) t r₀ ∨
      SameKeys (t.handleRequest py float fate name d r)
        (t.recordSeen py float fate.persisted d r₀).1
        (t.recordSeen py float fate.persisted d r₀).2) := by
  unfold FileQueueTransport.handleRequest
  dsimp only
  split_ifs
  · exact ⟨r, fun _ => rfl, Or.inl ⟨rfl, fun _ => rfl⟩⟩
  · exact ⟨r.moveToProcessed t.myId name, fun q => dedup_moveToProcessed ..,
      Or.inl ⟨rfl, fun _ => rfl⟩⟩
  · exact ⟨r.moveToProcessed t.myId name, fun q => dedup_moveToProcessed ..,
      Or.inl ⟨rfl, fun _ => rfl⟩⟩
  · exact ⟨r.moveToProcessed t.myId name, fun q => dedup_moveToProcessed ..,
      sameKeys_recordAndInvoke ..⟩
  · exact ⟨r, fun _ => rfl, Or.inl ⟨rfl, fun _ => rfl⟩⟩

end effects

section invariant

variable {cls : CharClasses} {py : PyText} {float : PyFloat} {me k : Str} {s : Server}

def Absent (me k : Str) (s : Server) : Prop :=
  k ∉ storedKeys (s.root.peer me) ∧ ∀ t, s.transport = some t → k ∉ t.dedupState

theorem Absent.admits (h : Absent me k s) : Admits py float me k s := by
  unfold Admits
  split
  · rename_i t ht
    exact fun ha => h.2 t ht (absorbs_iff.mp ha).2
  · intro rootDir knownPeers window t r hinit ha
    unfold FileQueueTransport.init at hinit
    split_ifs at hinit
    obtain ⟨rfl, -⟩ := Prod.mk.inj (Option.some.inj hinit)
    have hk := mem_loadDedupState (absorbs_iff.mp ha).2
    rw [Root.peer_ensurePeerDirs] at hk
    exact h.1 hk

structure Inv (me : Str) (s : Server) : Prop where
  serving : ∀ t, s.transport = some t →
    t.myId = me ∧ (t.dedupWindow = 0 → t.dedupState = [])
  covered : ∀ newer x older, s.history = newer ++ x :: older →
    AnsweredTo x.sender x.correlationId s ∨ ∀ k, x.key = some k →
      (∃ y ∈ newer, y.answered = true ∧ y.key = some k) ∨ Absent me k s

theorem Inv.init : Inv me {} := ⟨nofun, fun newer x older h => by simp at h⟩

theorem Inv.resolved (h : Inv me s) : Resolved py float me s := by
  intro newer x older hx
  refine (h.covered newer x older hx).imp_right (fun hk k hkey => ?_)
  exact (hk k hkey).imp_right Absent.admits

theorem Inv.same (h : Inv me s) {s' : Server} (hhist : s'.history = s.history)
    (hserving : ∀ t, s'.transport = some t →
      t.myId = me ∧ (t.dedupWindow = 0 → t.dedupState = []))
    (habs : ∀ k, Absent me k s → Absent me k s') : Inv me s' := by
  refine ⟨hserving, fun newer x older hx => ?_⟩
  rw [hhist] at hx
  rcases h.covered newer x older hx with hans | hk
  · left
    rw [AnsweredTo, hhist]
    exact hans
  · exact Or.inr (fun k hkey => (hk k hkey).imp_right (habs k))

theorem Inv.record (h : Inv me s) {s' : Server} {x : Handled} (hhist : s'.history = x :: s.history)
    (hserving : ∀ t, s'.transport = some t →
      t.myId = me ∧ (t.dedupWindow = 0 → t.dedupState = []))
    (hx : x.answered = true ∨ AnsweredTo x.sender x.correlationId s ∨
      ∀ k, x.key = some k → Absent me k s')
    (hkeep : ∀ k, Absent me k s → (x.answered = true ∧ x.key = some k) ∨ Absent me k s') :
    Inv me s' := by
  have hmono : ∀ sender correlationId, AnsweredTo sender correlationId s →
      AnsweredTo sender correlationId s' := by
    rintro sender correlationId ⟨y, hy, hans⟩
    exact ⟨y, hhist ▸ List.mem_cons_of_mem _ hy, hans⟩
  refine ⟨hserving, fun newer y older hy => ?_⟩
  rw [hhist] at hy
  rcases List.cons_eq_append_iff.mp hy with ⟨rfl, hfirst⟩ | ⟨rest, rfl, hrest⟩
  · obtain ⟨rfl, rfl⟩ := List.cons.inj hfirst
    rcases hx with hans | hans | habs
    · exact Or.inl ⟨_, hhist ▸ List.mem_cons_self, hans, rfl, rfl⟩
    · exact Or.inl (hmono _ _ hans)
    · exact Or.inr (fun k hk => Or.inr (habs k hk))
  · refine (h.covered rest y older hrest).imp (hmono _ _) (fun hcov k hk => ?_)
    rcases hcov k hk with ⟨z, hz, hans⟩ | habs
    · exact Or.inl ⟨z, List.mem_cons_of_mem _ hz, hans⟩
    · exact (hkeep k habs).imp_left (fun hans => ⟨x, List.mem_cons_self, hans⟩)

section handling

variable {fate : Fate} {d : Document} {name : Str} {t : FileQueueTransport}

theorem handleRequest_other {r : Root} {j : Str} (fate : Fate) (name : Str) (hid : t.myId = me)
    (hj : dedupKey py float d ≠ some j) (hs : j ∉ storedKeys (r.peer me))
    (hm : j ∉ t.dedupState) :
    j ∉ storedKeys ((t.handleRequest py float fate name d r).2.2.peer me) ∧
      j ∉ (t.handleRequest py float fate name d r).2.1.dedupState := by
  obtain ⟨r₀, hr₀, ⟨ht, hr⟩ | ⟨ht, hr⟩⟩ :=
    handleRequest_keys py float fate d name t r
  · rw [ht, storedKeys_congr (hr me), storedKeys_congr (hr₀ me)]
    exact ⟨hs, hm⟩
  · have hm' : j ∉ (t.recordSeen py float fate.persisted d r₀).1.dedupState :=
      fun h => (mem_recordSeen h).elim hm hj
    rw [ht, storedKeys_congr (hr me)]
    refine ⟨fun h => ?_, hm'⟩
    rcases storedKeys_recordSeen hid h with h | ⟨-, h⟩
    · rw [storedKeys_congr (hr₀ me)] at h
      exact hs h
    · exact hm' h

theorem handleRequest_serving {r : Root}
    (h : t.myId = me ∧ (t.dedupWindow = 0 → t.dedupState = [])) :
    (t.handleRequest py float fate name d r).2.1.myId = me ∧
      ((t.handleRequest py float fate name d r).2.1.dedupWindow = 0 →
        (t.handleRequest py float fate name d r).2.1.dedupState = []) := by
  obtain ⟨r₀, -, ⟨ht, -⟩ | ⟨ht, -⟩⟩ :=
    handleRequest_keys py float fate d name t r
  · rw [ht]
    exact h
  · obtain ⟨hid, -, hw⟩ := recordSeen_fields py float fate.persisted d t r₀
    rw [ht, hid, hw]
    exact ⟨h.1, fun h0 => recordSeen_zero h0 (h.2 h0)⟩

theorem recordAndInvoke_replied {r : Root} {sender correlationId : Str}
    (hcrash : fate.crash = none) (hwritten : fate.replied = .replaced)
    (hreplies : Replies py float fate d t) :
    (t.recordAndInvoke py float fate sender correlationId name d r).1 = .replied := by
  obtain ⟨payload, hp⟩ := invokeHandler_of_replies
    (hreplies.recordSeen fate.persisted) sender correlationId
  rw [FileQueueTransport.recordAndInvoke, hcrash, if_neg nofun, if_neg nofun, hp]
  exact deliver_isReplied hcrash hwritten

theorem recordAndInvoke_crashed {r : Root} {sender correlationId : Str}
    (hstop : fate.crash = some .remembered ∨ fate.crash = some .persisted ∨
      fate.crash = some .answering ∧ Replies py float fate d t) :
    (t.recordAndInvoke py float fate sender correlationId name d r).1 = .crashed := by
  rw [FileQueueTransport.recordAndInvoke]
  rcases hstop with h | h | ⟨h, hreplies⟩
  · rw [if_pos h]
  · rw [h, if_neg nofun, if_pos rfl]
  · obtain ⟨payload, hp⟩ := invokeHandler_of_replies
      (hreplies.recordSeen fate.persisted) sender correlationId
    rw [h, if_neg nofun, if_neg nofun, hp]
    exact deliver_isCrashed h

theorem recordAndInvoke_unstored {r : Root} {sender correlationId : Str} (hid : t.myId = me)
    (hk : k ∉ storedKeys (r.peer me))
    (hstop : fate.crash = some .remembered ∨ fate.persisted ≠ .replaced ∨
      k ∉ (t.recordSeen py float fate.persisted d r).1.dedupState) :
    k ∉ storedKeys ((t.recordAndInvoke py float fate sender correlationId name d r).2.2.peer
      me) := by
  rcases hstop with h | h
  · rw [FileQueueTransport.recordAndInvoke, if_pos h]
    exact hk
  · rcases sameKeys_recordAndInvoke sender correlationId with ⟨-, hr⟩ | ⟨-, hr⟩
    · rw [storedKeys_congr (hr me)]
      exact hk
    · rw [storedKeys_congr (hr me)]
      intro hmem
      rcases storedKeys_recordSeen hid hmem with hmem | ⟨hp, hmem⟩
      · exact hk hmem
      · exact h.elim (fun h => h hp) (fun h => h hmem)

theorem recordAndInvoke_forgets {r : Root} {sender correlationId : Str}
    (hw : t.dedupWindow = 0) (ht : t.dedupState = []) :
    k ∉ (t.recordAndInvoke py float fate sender correlationId name d r).2.1.dedupState := by
  rcases sameKeys_recordAndInvoke sender correlationId with ⟨heq, -⟩ | ⟨heq, -⟩
  · rw [heq, ht]
    exact List.not_mem_nil
  · rw [heq, recordSeen_zero hw ht]
    exact List.not_mem_nil

theorem handleRequest_own (hserving : t.myId = me ∧ (t.dedupWindow = 0 → t.dedupState = []))
    (hin : (s.root.peer me).inbox.contains name = true) (htaken : taken py float d)
    (hc : CarefulWith py float me k fate d t s) :
    (t.handleRequest py float fate name d s.root).1 = .replied ∨
    ((t.handleRequest py float fate name d s.root).1 = .absorbed ∧
      (t.handleRequest py float fate name d s.root).2.1 = t ∧
      storedKeys ((t.handleRequest py float fate name d s.root).2.2.peer me) =
        storedKeys (s.root.peer me) ∧
      AnsweredTo (senderOf py float d) (correlationIdOf py float d) s) ∨
    (k ∉ storedKeys ((t.handleRequest py float fate name d s.root).2.2.peer me) ∧
      ((t.handleRequest py float fate name d s.root).1 = .crashed ∨
        k ∉ (t.handleRequest py float fate name d s.root).2.1.dedupState)) := by
  have hmoved := storedKeys_congr (dedup_moveToProcessed t.myId me name s.root)
  have hempty : ¬(senderOf py float d = [] ∨ correlationIdOf py float d = []) :=
    fun h => h.elim htaken.1 htaken.2
  rw [← hserving.1] at hin
  rw [FileQueueTransport.handleRequest, if_neg hempty, if_pos hin]
  dsimp only
  rw [CarefulWith] at hc
  by_cases hm : fate.crash = some .moved
  · rw [if_neg (fun h => h.2 hm)] at hc
    rw [if_pos hm, hmoved]
    rcases hc with ⟨hnone, -⟩ | ⟨hk, -⟩
    · rw [hnone] at hm
      cases hm
    · exact Or.inr (Or.inr ⟨hk, Or.inl rfl⟩)
  · rw [if_neg hm]
    by_cases hdup : t.isDuplicate py float d = true
    · rw [if_pos ⟨hdup, hm⟩] at hc
      rw [if_pos hdup]
      exact Or.inr (Or.inl ⟨rfl, rfl, hmoved, hc⟩)
    · rw [if_neg (fun h => hdup h.1)] at hc
      rw [if_neg hdup]
      rcases hc with ⟨hnone, hwritten, hreplies⟩ | ⟨hk, hstop | hw⟩
      · exact Or.inl (recordAndInvoke_replied hnone hwritten hreplies)
      · rw [← hmoved] at hk
        refine Or.inr (Or.inr ?_)
        rcases hstop with h | h | ⟨hp, h⟩
        · exact absurd h hm
        · exact ⟨recordAndInvoke_unstored hserving.1 hk (Or.inl h),
            Or.inl (recordAndInvoke_crashed (Or.inl h))⟩
        · exact ⟨recordAndInvoke_unstored hserving.1 hk (Or.inr (Or.inl hp)),
            Or.inl (recordAndInvoke_crashed (Or.inr h))⟩
      · have ht := hserving.2 hw
        rw [← hmoved] at hk
        have hseen : k ∉ (t.recordSeen py float fate.persisted d
            (s.root.moveToProcessed t.myId name)).1.dedupState := by
          rw [recordSeen_zero hw ht]
          exact List.not_mem_nil
        exact Or.inr (Or.inr ⟨recordAndInvoke_unstored hserving.1 hk (Or.inr (Or.inr hseen)),
          Or.inr (recordAndInvoke_forgets hw ht)⟩)

theorem handle_transport {t' : FileQueueTransport}
    (h : (Retries.handle py float name fate d t s).transport = some t') :
    (t.handleRequest py float fate name d s.root).1 ≠ .crashed ∧
      t' = (t.handleRequest py float fate name d s.root).2.1 := by
  simp only [Retries.handle] at h
  split_ifs at h with hcrash
  refine ⟨fun hc => hcrash ?_, (Option.some.inj h).symm⟩
  rw [hc]
  rfl

theorem requestAt_contains (h : requestAt cls me name s = some d) :
    (s.root.peer me).inbox.contains name = true := by
  unfold requestAt at h
  split at h
  · rename_i hget
    rw [SortedMap.contains, hget]
    rfl
  · cases h

theorem handle_own (ht : s.transport = some t)
    (hserving : t.myId = me ∧ (t.dedupWindow = 0 → t.dedupState = []))
    (hd : requestAt cls me name s = some d) (htaken : taken py float d)
    (hc : CarefulWith py float me k fate d t s) :
    Outcome.isReplied (t.handleRequest py float fate name d s.root).1 = true ∨
      (AnsweredTo (senderOf py float d) (correlationIdOf py float d) s ∧
        (Absent me k s → Absent me k (Retries.handle py float name fate d t s))) ∨
      Absent me k (Retries.handle py float name fate d t s) := by
  rcases handleRequest_own hserving (requestAt_contains hd) htaken hc with
    h | ⟨-, hsame, hstored, hans⟩ | ⟨hstored, hm⟩
  · left
    rw [h]
    rfl
  · refine Or.inr (Or.inl ⟨hans, fun habs => ⟨?_, fun t' ht' => ?_⟩⟩)
    · exact hstored ▸ habs.1
    · rw [(handle_transport ht').2, hsame]
      exact habs.2 t ht
  · refine Or.inr (Or.inr ⟨hstored, fun t' ht' => ?_⟩)
    obtain ⟨hcrash, rfl⟩ := handle_transport ht'
    exact hm.resolve_left hcrash

theorem Absent.handle_other {j : Str} (h : Absent me j s) (ht : s.transport = some t)
    (hid : t.myId = me) (hj : dedupKey py float d ≠ some j) :
    Absent me j (Retries.handle py float name fate d t s) := by
  obtain ⟨hs, hm⟩ := handleRequest_other fate name hid hj h.1 (h.2 t ht)
  refine ⟨hs, fun t' ht' => ?_⟩
  rw [(handle_transport ht').2]
  exact hm

theorem Inv.handle (h : Inv me s) (ht : s.transport = some t)
    (hd : requestAt cls me name s = some d)
    (hc : ∀ k, taken py float d → dedupKey py float d = some k →
      CarefulWith py float me k fate d t s) :
    Inv me (Retries.handle py float name fate d t s) := by
  have hserving := h.serving t ht
  have hserving' : ∀ t', (Retries.handle py float name fate d t s).transport = some t' →
      t'.myId = me ∧ (t'.dedupWindow = 0 → t'.dedupState = []) := by
    intro t' ht'
    rw [(handle_transport ht').2]
    exact handleRequest_serving hserving
  by_cases htaken : taken py float d
  · refine h.record (if_pos htaken) hserving' ?_ (fun k habs => ?_)
    · cases hkey : dedupKey py float d with
      | none =>
        refine Or.inr (Or.inr (fun k hk => ?_))
        cases hkey.symm.trans hk
      | some k =>
        refine (handle_own ht hserving hd htaken (hc k htaken hkey)).imp_right
          (Or.imp And.left (fun habs j hj => ?_))
        rw [← Option.some.inj (hkey.symm.trans hj)]
        exact habs
    · by_cases hkey : dedupKey py float d = some k
      · rcases handle_own ht hserving hd htaken (hc k htaken hkey) with hr | ⟨-, hkeep⟩ | habs'
        · exact Or.inl ⟨hr, hkey⟩
        · exact Or.inr (hkeep habs)
        · exact Or.inr habs'
      · exact Or.inr (habs.handle_other ht hserving.1 hkey)
  · have hempty : senderOf py float d = [] ∨ correlationIdOf py float d = [] := by
      rw [taken] at htaken
      tauto
    refine h.same (if_neg htaken) hserving' (fun k hk => ?_)
    have hw : (t.handleRequest py float fate name d s.root).2 = (t, s.root) := by
      rw [FileQueueTransport.handleRequest, if_pos hempty]
    refine ⟨?_, fun t' ht' => ?_⟩
    · change k ∉ storedKeys ((t.handleRequest py float fate name d s.root).2.2.peer me)
      rw [hw]
      exact hk.1
    · rw [(handle_transport ht').2, hw]
      exact hk.2 t ht

end handling

theorem Absent.of_root (h : Absent me k s) {r : Root}
    (hr : (r.peer me).dedup = (s.root.peer me).dedup) : Absent me k { s with root := r } :=
  ⟨storedKeys_congr hr ▸ h.1, h.2⟩

theorem Inv.init_transport {rootDir : Str} {knownPeers : List Str} {window : ℕ} {r : Root}
    {t : FileQueueTransport} (h : Inv me s)
    (hinit : FileQueueTransport.init me rootDir knownPeers window s.root = some (t, r)) :
    Inv me { s with root := r, transport := some t } := by
  have hpeer := FileQueueTransport.peer_init hinit me
  unfold FileQueueTransport.init at hinit
  split_ifs at hinit
  obtain ⟨rfl, -⟩ := Prod.mk.inj (Option.some.inj hinit)
  refine h.same rfl (fun t' ht' => ?_) (fun k hk => ⟨hpeer ▸ hk.1, fun t' ht' => ?_⟩)
  · obtain rfl := Option.some.inj ht'
    refine ⟨rfl, fun (hw : window = 0) => ?_⟩
    rw [hw]
    exact loadDedupState_zero _
  · obtain rfl := Option.some.inj ht'
    refine fun hm => hk.1 ?_
    have hload := mem_loadDedupState hm
    rwa [Root.peer_ensurePeerDirs] at hload

theorem Inv.map_transport (h : Inv me s) {f : FileQueueTransport → FileQueueTransport}
    (hf : ∀ t, (f t).myId = t.myId ∧ (f t).dedupWindow = t.dedupWindow ∧
      (f t).dedupState = t.dedupState) : Inv me { s with transport := s.transport.map f } := by
  refine h.same rfl (fun t' ht' => ?_) (fun k hk => ⟨hk.1, fun t' ht' => ?_⟩)
  · obtain ⟨t, ht, rfl⟩ := Option.map_eq_some_iff.mp ht'
    obtain ⟨hid, hw, hstate⟩ := hf t
    rw [hid, hw, hstate]
    exact h.serving t ht
  · obtain ⟨t, ht, rfl⟩ := Option.map_eq_some_iff.mp ht'
    rw [(hf t).2.2]
    exact hk.2 t ht

theorem Inv.perform (h : Inv me s) {e : Event} (hc : Careful cls py float me e s) :
    Inv me (Retries.perform cls py float me e s) := by
  cases e with
  | deposit name text =>
    refine h.same rfl h.serving (fun k hk => hk.of_root ?_)
    rw [Root.peer_update, if_pos rfl]
  | collect peer name =>
    refine h.same rfl h.serving (fun k hk => hk.of_root ?_)
    rw [Root.peer_update]
    split_ifs with hp
    · rw [hp]
    · rfl
  | start rootDir knownPeers window =>
    simp only [Retries.perform]
    split
    · exact h
    · rename_i hinit
      exact h.init_transport hinit
  | register peer => exact h.map_transport (fun t => ⟨rfl, rfl, rfl⟩)
  | unregister peer => exact h.map_transport (fun t => ⟨rfl, rfl, rfl⟩)
  | visit name fate =>
    simp only [Retries.perform]
    split
    · rename_i t d ht hd
      exact h.handle ht hd (fun k htaken hkey => hc name fate t d k rfl ht hd htaken hkey)
    · exact h
  | stop => exact h.same rfl nofun (fun k hk => ⟨hk.1, nofun⟩)

theorem Inv.reaches {s' : Server} (h : Inv me s)
    (hr : Reaches cls py float me (Careful cls py float me) s s') : Inv me s' := by
  induction hr with
  | refl => exact h
  | tail _ hstep ih =>
    obtain ⟨e, hc, rfl⟩ := hstep
    exact ih.perform hc

end invariant

def sampleSender : FileQueueTransport := { myId := ['a'], rootDir := [], named := nofun }

def sampleUuid : Uuid := ⟨List.replicate 32 '0', rfl, rfl⟩

def sampleRequest (correlationId : Str) : Document :=
  (sampleSender.makeEnvelope "request".toList ['b'] Document.empty sampleUuid [] (some ['K'])
    (some correlationId)).1

def sampleName (seq : ℕ) : Str := filename seq sampleUuid.hex

def sampleRun (es : List Event) : Server :=
  es.foldl (fun s e => perform asciiClasses Queue.plainPy (fun _ => none) ['b'] e s) {}

def sampleStart : List Event :=
  [.start [] [] 256, .register ['b'], .deposit (sampleName 1) (.object (sampleRequest ['c']))]

theorem reaches_snoc {allowed : Event → Server → Prop} (es : List Event) (e : Event)
    (h : Reaches asciiClasses Queue.plainPy (fun _ => none) ['b'] allowed {} (sampleRun es))
    (he : allowed e (sampleRun es)) :
    Reaches asciiClasses Queue.plainPy (fun _ => none) ['b'] allowed {}
      (sampleRun (es ++ [e])) := by
  refine .tail h ⟨e, he, ?_⟩
  rw [sampleRun, List.foldl_append]
  rfl

theorem reaches_sampleRun (es : List Event) :
    Reaches asciiClasses Queue.plainPy (fun _ => none) ['b'] (fun _ _ => True) {}
      (sampleRun es) := by
  induction es using List.reverseRecOn with
  | nil => exact .refl
  | append_singleton es e ih => exact reaches_snoc es e ih trivial

def sampleFate : Fate := { handler := .reply Document.empty }

def admitsSample (s : Server) : Bool :=
  s.transport.all (fun t =>
    (requestAt asciiClasses ['b'] (sampleName 1) s).all (fun d =>
      !t.isDuplicate Queue.plainPy (fun _ => none) d &&
        (FileQueueTransport.bodyOf (fun _ => none) d).isSome))

theorem careful_of_admitsSample {s : Server} (h : admitsSample s = true) :
    Careful asciiClasses Queue.plainPy (fun _ => none) ['b'] (.visit (sampleName 1) sampleFate)
      s := by
  intro name fate t d k he ht hd htaken hkey
  cases he
  rw [admitsSample, ht, Option.all_some, hd, Option.all_some, Bool.and_eq_true,
    Bool.not_eq_eq_eq_not, Bool.not_true] at h
  rw [CarefulWith, if_neg (fun hdup => by rw [h.1] at hdup; cases hdup.1)]
  refine Or.inl ⟨rfl, rfl, fun _ => ⟨fun hnone => ?_, Document.empty, rfl⟩⟩
  rw [hnone] at h
  cases h.2

def raisedRun : List Event := sampleStart ++ [.visit (sampleName 1) { handler := .raised },
  .deposit (sampleName 2) (.object (sampleRequest ['d'])),
  .visit (sampleName 2) sampleFate]

def absorbsSample (s : Server) : Bool :=
  s.transport.any (fun t => t.isDuplicate Queue.plainPy (fun _ => none) (sampleRequest ['d']))

theorem not_resolved_of_absorbed {s : Server} {x y : Handled} (hhist : s.history = [x, y])
    (hx : x.answered = false) (hy : y.answered = false) (hkey : x.key = some ['a', '|', 'K'])
    (hdup : absorbsSample s = true) : ¬Resolved Queue.plainPy (fun _ => none) ['b'] s := by
  intro h
  rcases h [] x [y] hhist with ⟨z, hz, hans, -⟩ | hretry
  · rw [hhist] at hz
    rcases List.mem_cons.mp hz with rfl | hz
    · cases hx.symm.trans hans
    · obtain rfl := List.mem_singleton.mp hz
      cases hy.symm.trans hans
  · rcases hretry _ hkey with ⟨z, hz, -⟩ | hadmits
    · cases hz
    · cases ht : s.transport with
      | none =>
        rw [absorbsSample, ht] at hdup
        cases hdup
      | some t =>
        rw [absorbsSample, ht, Option.any_some] at hdup
        rw [Admits, ht] at hadmits
        exact hadmits ⟨sampleRequest ['d'], by decide +kernel, hdup⟩

end Retries

end TraceMind.Transport
