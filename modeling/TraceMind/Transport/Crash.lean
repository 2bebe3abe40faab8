import TraceMind.Transport.Order

namespace TraceMind.Transport

open Queue (Document PyFloat PyText)
open TraceMind.Transport.Order (Message entry deliverable mem_deliverable Shrinks)

namespace Crash

section mailbox

variable (cls : CharClasses) (py : PyText) (float : PyFloat)

def cutsFrom (persisted : WriteOutcome) (peer : Str) : List Str → FileQueueTransport → Root →
    List (Bool × Root)
  | [], _, r => [(false, r)]
  | name :: names, t, r =>
    (false, r) ::
      if isEnvelopeFilename cls name then
        match (r.peer peer).inbox.get? name with
        | none => cutsFrom persisted peer names t r
        | some .garbled => []
        | some .other => [(true, r.moveToProcessed peer name)]
        | some (.object d) =>
          let r := r.moveToProcessed peer name
          if t.isDuplicate py float d then cutsFrom persisted peer names t r
          else [(true, r), (true, (t.recordSeen py float persisted d r).2)]
      else cutsFrom persisted peer names t r

structure Posting where
  sender : FileQueueTransport
  kind : Str
  message : Document
  uuid : Uuid
  timestamp : Str
  idempotencyKey : Option Str := none
  correlationId : Option Str := none

def Posting.posted (post : Posting) (peer : Str) : Message :=
  let e := post.sender.makeEnvelope post.kind peer post.message post.uuid post.timestamp
    post.idempotencyKey post.correlationId
  ⟨post.sender.myId, peer, e.2.seq, post.uuid, e.1⟩

structure Mailbox where
  root : Root := {}
  receiver : FileQueueTransport
  sent : List Message := []
  returned : List Document := []

inductive Event where
  | send (post : Posting) (outcome : WriteOutcome)
  | recv (persisted : WriteOutcome)
  | crash (persisted : WriteOutcome) (cut window : ℕ)

def Mailbox.cuts (peer : Str) (persisted : WriteOutcome) (s : Mailbox) : List (Bool × Root) :=
  cutsFrom cls py float persisted peer (s.root.peer peer).inbox.keys s.receiver s.root

def perform (peer : Str) (e : Event) (s : Mailbox) : Mailbox :=
  match e with
  | .send post outcome =>
    let m := post.posted peer
    let w := FileQueueTransport.enqueue outcome peer m.seq m.uuid m.envelope s.root
    { s with
      root := w.2
      sent := match w.1 with
        | .ok _ => s.sent ++ [m]
        | .error _ => s.sent }
  | .recv persisted =>
    let w := s.receiver.recv cls py float persisted peer s.root
    { s with
      root := w.2.2
      receiver := w.2.1
      returned := match w.1 with
        | .ok (some d) => s.returned ++ [d]
        | _ => s.returned }
  | .crash persisted cut window =>
    match (s.cuts cls py float peer persisted)[cut]? with
    | none => s
    | some (_, left) =>
      match FileQueueTransport.init s.receiver.myId s.receiver.rootDir [] window left with
      | none => s
      | some (t, r) => { s with root := r, receiver := t }

def Fresh (s : Mailbox) : Event → Prop
  | .send post _ => ∀ m ∈ s.sent, m.uuid.hex ≠ post.uuid.hex
  | _ => True

def Harmless (peer : Str) (s : Mailbox) : Event → Prop
  | .send post _ => '|' ∉ post.sender.myId ∧ post.sender.seq + 1 < 10 ^ 20
  | .recv _ => True
  | .crash persisted cut _ => ∀ left, (s.cuts cls py float peer persisted)[cut]? ≠ some (true, left)

def opened (t : FileQueueTransport) : Mailbox := { receiver := { t with dedupState := [] } }

inductive Reach (allowed : Mailbox → Event → Prop) (peer : Str) (t : FileQueueTransport) :
    Mailbox → Prop where
  | start : Reach allowed peer t (opened t)
  | step {s : Mailbox} (e : Event) (hs : Reach allowed peer t s) (hfresh : Fresh s e)
      (hallowed : allowed s e) : Reach allowed peer t (perform cls py float peer e s)

def receiveAll (peer : Str) (outcomes : List WriteOutcome) (s : Mailbox) : Mailbox :=
  outcomes.foldl (fun s o => perform cls py float peer (.recv o) s) s

def PairReturned (returned : List Document) (d : Document) : Prop :=
  ∃ pair, pairOf py float d = some pair ∧ ∃ d' ∈ returned, pairOf py float d' = some pair

def Answered (returned : List Document) (m : Message) : Prop :=
  m.envelope ∈ returned ∨ PairReturned py float returned m.envelope

def Waiting (peer : Str) (s : Mailbox) (m : Message) : Prop :=
  (s.root.peer peer).inbox.get? m.name = some (.object m.envelope)

def AtLeastOnce (peer : Str) (s : Mailbox) : Prop :=
  ∀ m ∈ s.sent, ¬PairReturned py float s.returned m.envelope → m.envelope ∈ s.returned ∨
    Waiting peer s m ∧ ∃ n, ∀ outcomes : List WriteOutcome, outcomes.length = n →
      Answered py float (receiveAll cls py float peer outcomes s).returned m

end mailbox

section dedup

variable {window : ℕ} {k : Str}

theorem mem_pushBounded {keys : List Str} {key : Str}
    (h : k ∈ FileQueueTransport.pushBounded window keys key) : k ∈ keys ∨ k = key := by
  have hm := List.mem_of_mem_drop h
  rw [List.mem_append, List.mem_singleton] at hm
  exact hm

theorem mem_foldl_loadKey {vs : List Json} {keys : List Str}
    (h : k ∈ vs.foldl (FileQueueTransport.loadKey window) keys) : k ∈ keys ∨ .str k ∈ vs := by
  induction vs generalizing keys with
  | nil => exact Or.inl h
  | cons v vs ih =>
    rcases ih h with hk | hk
    · cases v with
      | str key =>
        rcases mem_pushBounded hk with hk | rfl
        · exact Or.inl hk
        · exact Or.inr List.mem_cons_self
      | _ => exact Or.inl hk
    · exact Or.inr (List.mem_cons_of_mem _ hk)

theorem mem_lastKeys {vs : List Json} {v : Json}
    (h : v ∈ FileQueueTransport.lastKeys window vs) : v ∈ vs := by
  rw [FileQueueTransport.lastKeys] at h
  split_ifs at h
  · exact h
  · exact List.mem_of_mem_drop h

theorem mem_loadDedupState {dir : PeerDir} {keys : List Str}
    (hdir : dir.dedup = some (.object (FileQueueTransport.keysDocument keys)))
    (h : k ∈ FileQueueTransport.loadDedupState window dir) : k ∈ keys := by
  have hkeys : (FileQueueTransport.keysDocument keys).get? "keys".toList =
      some (.arr (keys.map .str)) := rfl
  rw [FileQueueTransport.loadDedupState, hdir] at h
  dsimp only at h
  rw [hkeys] at h
  rcases mem_foldl_loadKey h with hk | hk
  · cases hk
  · obtain ⟨key, hkey, he⟩ := List.mem_map.mp (mem_lastKeys hk)
    cases he
    exact hkey

end dedup

section kept

variable (cls : CharClasses) (py : PyText) (float : PyFloat)

structure Genuine (sent : List Message) : Prop where
  uuids : (sent.map (fun m => m.uuid.hex)).Nodup
  numbered : ∀ m ∈ sent, m.seq < 10 ^ 20
  plain : ∀ m ∈ sent, '|' ∉ senderOf py float m.envelope

structure Kept (peer : Str) (sent : List Message) (returned : List Document)
    (t : FileQueueTransport) (r : Root) : Prop where
  files : ∀ name text, (r.peer peer).inbox.get? name = some text →
    isEnvelopeFilename cls name = true → ∃ m ∈ sent, entry m = (name, text)
  kept : ∀ m ∈ sent, (r.peer peer).inbox.get? m.name = some (.object m.envelope) ∨
    Answered py float returned m
  handed : ∀ d ∈ returned, ∃ m ∈ sent, m.envelope = d
  memory : ∀ k ∈ t.dedupState, ∃ d ∈ returned, dedupKey py float d = some k
  disk : ∀ window, ∀ k ∈ FileQueueTransport.loadDedupState window (r.peer t.myId),
    ∃ d ∈ returned, dedupKey py float d = some k

variable {cls py float} {peer name : Str} {sent : List Message} {returned : List Document}
  {t : FileQueueTransport} {r : Root} {d : Document} {m : Message}

theorem Genuine.eq_of_name (h : Genuine py float sent) {n : Message} (hm : m ∈ sent)
    (hn : n ∈ sent) (he : m.name = n.name) : m = n :=
  List.inj_on_of_nodup_map h.uuids hm hn
    (Order.uuid_eq_of_name_eq (h.numbered m hm) (h.numbered n hn) he)

theorem Answered.mono (h : Answered py float returned m) (d : Document) :
    Answered py float (returned ++ [d]) m := by
  rcases h with h | ⟨pair, hp, d', hd', hpair⟩
  · exact Or.inl (List.mem_append_left _ h)
  · exact Or.inr ⟨pair, hp, d', List.mem_append_left _ hd', hpair⟩

theorem Kept.answered_of_duplicate (hg : Genuine py float sent)
    (h : Kept cls py float peer sent returned t r) (hm : m ∈ sent)
    (hdup : t.isDuplicate py float m.envelope = true) : Answered py float returned m := by
  rw [FileQueueTransport.isDuplicate] at hdup
  cases hk : dedupKey py float m.envelope with
  | none =>
    rw [hk] at hdup
    cases hdup
  | some k =>
    rw [hk] at hdup
    obtain ⟨d, hd, hdk⟩ := h.memory k (of_decide_eq_true hdup)
    obtain ⟨n, hn, rfl⟩ := h.handed d hd
    rw [dedupKey_eq] at hk
    obtain ⟨pair, hpair, rfl⟩ := Option.map_eq_some_iff.mp hk
    refine Or.inr ⟨pair, hpair, n.envelope, hd, ?_⟩
    have hplain : '|' ∉ pair.1 := senderOf_of_pairOf hpair ▸ hg.plain m hm
    exact of_decide_eq_true (hasPair_of_hasKey hplain (hg.plain n hn) (decide_eq_true hdk))

theorem inbox_moveToProcessed (hget : (r.peer peer).inbox.get? name = some (.object d)) (n : Str) :
    ((r.moveToProcessed peer name).peer peer).inbox.get? n =
      if n = name then none else (r.peer peer).inbox.get? n := by
  rw [Order.peer_moveToProcessed hget, SortedMap.get?_erase]
  split_ifs <;> rfl

theorem dedup_moveToProcessed (q : Str) :
    ((r.moveToProcessed peer name).peer q).dedup = (r.peer q).dedup := by
  rw [Root.moveToProcessed]
  cases (r.peer peer).inbox.get? name with
  | none => rfl
  | some text =>
    dsimp only
    rw [Root.peer_update]
    split_ifs with hq
    · rw [hq]
    · rfl

theorem load_congr {dir dir' : PeerDir} (h : dir.dedup = dir'.dedup) (window : ℕ) :
    FileQueueTransport.loadDedupState window dir =
      FileQueueTransport.loadDedupState window dir' := by
  rw [FileQueueTransport.loadDedupState, FileQueueTransport.loadDedupState, h]

theorem Kept.move (hg : Genuine py float sent) (h : Kept cls py float peer sent returned t r)
    (hm : m ∈ sent) (hget : (r.peer peer).inbox.get? m.name = some (.object m.envelope))
    (hans : Answered py float returned m) :
    Kept cls py float peer sent returned t (r.moveToProcessed peer m.name) := by
  refine ⟨?_, ?_, h.handed, h.memory, ?_⟩
  · intro n text hn hname
    rw [inbox_moveToProcessed hget] at hn
    split_ifs at hn
    exact h.files n text hn hname
  · intro m' hm'
    rw [inbox_moveToProcessed hget]
    split_ifs with he
    · rw [hg.eq_of_name hm' hm he]
      exact Or.inr hans
    · exact h.kept m' hm'
  · intro window k hk
    rw [load_congr (dedup_moveToProcessed t.myId)] at hk
    exact h.disk window k hk

theorem Kept.returns (h : Kept cls py float peer sent returned t r) (hm : m ∈ sent) :
    Kept cls py float peer sent (returned ++ [m.envelope]) t r := by
  refine ⟨h.files, ?_, ?_, ?_, ?_⟩
  · intro m' hm'
    exact (h.kept m' hm').imp_right (fun ha => ha.mono _)
  · intro d hd
    rcases List.mem_append.mp hd with hd | hd
    · exact h.handed d hd
    · exact ⟨m, hm, (List.mem_singleton.mp hd).symm⟩
  · intro k hk
    obtain ⟨d, hd, hdk⟩ := h.memory k hk
    exact ⟨d, List.mem_append_left _ hd, hdk⟩
  · intro window k hk
    obtain ⟨d, hd, hdk⟩ := h.disk window k hk
    exact ⟨d, List.mem_append_left _ hd, hdk⟩

theorem Kept.recordSeen (h : Kept cls py float peer sent returned t r) (hd : d ∈ returned)
    (persisted : WriteOutcome) :
    Kept cls py float peer sent returned (t.recordSeen py float persisted d r).1
      (t.recordSeen py float persisted d r).2 := by
  rw [FileQueueTransport.recordSeen]
  cases hk : dedupKey py float d with
  | none => exact h
  | some k =>
    dsimp only
    split_ifs with hmem
    · exact h
    · have hmemory : ∀ j ∈ (t.remember k).dedupState, ∃ d ∈ returned,
          dedupKey py float d = some j := by
        intro j hj
        rcases mem_pushBounded hj with hj | rfl
        · exact h.memory j hj
        · exact ⟨d, hd, hk⟩
      cases persisted with
      | replaced =>
        have hpeer : ∀ q, (((t.remember k).persistDedupState .replaced r).peer q).inbox =
            (r.peer q).inbox := by
          intro q
          rw [FileQueueTransport.persistDedupState, Root.peer_update]
          split_ifs with hq
          · rw [hq]
          · rfl
        refine ⟨?_, ?_, h.handed, hmemory, ?_⟩
        · rw [hpeer]
          exact h.files
        · rw [hpeer]
          exact h.kept
        · intro window j hj
          refine hmemory j (mem_loadDedupState ?_ hj)
          rw [FileQueueTransport.persistDedupState, Root.peer_update, if_pos rfl]
      | abandoned suffix => exact ⟨h.files, h.kept, h.handed, hmemory, h.disk⟩
      | refused => exact ⟨h.files, h.kept, h.handed, hmemory, h.disk⟩

end kept

section calls

variable {cls : CharClasses} {py : PyText} {float : PyFloat} {peer : Str} {sent : List Message}
  {returned : List Document} {t : FileQueueTransport} {r : Root} {persisted : WriteOutcome}
  {names : List Str}

theorem Kept.file (h : Kept cls py float peer sent returned t r) {name : Str} {text : FileText}
    (hget : (r.peer peer).inbox.get? name = some text)
    (hname : isEnvelopeFilename cls name = true) :
    ∃ m ∈ sent, m.name = name ∧ text = .object m.envelope := by
  obtain ⟨m, hm, he⟩ := h.files name text hget hname
  cases he
  exact ⟨m, hm, rfl, rfl⟩

theorem popFrom_cases (hg : Genuine py float sent)
    (h : Kept cls py float peer sent returned t r) (name : Str) :
    (¬(isEnvelopeFilename cls name = true ∧ ((r.peer peer).inbox.get? name).isSome = true) ∧
      t.popFrom cls py float persisted peer (name :: names) r =
        t.popFrom cls py float persisted peer names r ∧
      cutsFrom cls py float persisted peer (name :: names) t r =
        (false, r) :: cutsFrom cls py float persisted peer names t r) ∨
    (∃ m ∈ sent, m.name = name ∧ (r.peer peer).inbox.get? m.name = some (.object m.envelope) ∧
      Answered py float returned m ∧
      t.popFrom cls py float persisted peer (name :: names) r =
        t.popFrom cls py float persisted peer names (r.moveToProcessed peer name) ∧
      cutsFrom cls py float persisted peer (name :: names) t r =
        (false, r) ::
          cutsFrom cls py float persisted peer names t (r.moveToProcessed peer name)) ∨
    (∃ m ∈ sent, m.name = name ∧ (r.peer peer).inbox.get? m.name = some (.object m.envelope) ∧
      t.popFrom cls py float persisted peer (name :: names) r =
        (.ok (some m.envelope),
          t.recordSeen py float persisted m.envelope (r.moveToProcessed peer name)) ∧
      cutsFrom cls py float persisted peer (name :: names) t r =
        [(false, r), (true, r.moveToProcessed peer name),
          (true, (t.recordSeen py float persisted m.envelope
            (r.moveToProcessed peer name)).2)]) := by
  rw [FileQueueTransport.popFrom, cutsFrom]
  by_cases hname : isEnvelopeFilename cls name = true
  · rw [if_pos hname, if_pos hname]
    cases hget : (r.peer peer).inbox.get? name with
    | none => exact Or.inl ⟨fun hc => by simp at hc, rfl, rfl⟩
    | some text =>
      obtain ⟨m, hm, rfl, rfl⟩ := h.file hget hname
      dsimp only
      by_cases hdup : t.isDuplicate py float m.envelope = true
      · rw [if_pos hdup, if_pos hdup]
        exact Or.inr (Or.inl ⟨m, hm, rfl, hget, h.answered_of_duplicate hg hm hdup, rfl, rfl⟩)
      · rw [if_neg hdup, if_neg hdup]
        exact Or.inr (Or.inr ⟨m, hm, rfl, hget, rfl, rfl⟩)
  · rw [if_neg hname, if_neg hname]
    exact Or.inl ⟨fun hc => hname hc.1, rfl, rfl⟩

inductive Pops (cls : CharClasses) (py : PyText) (float : PyFloat) (peer : Str)
    (sent : List Message) (returned : List Document) :
    Except TransportError (Option Document) × FileQueueTransport × Root → Prop where
  | empty {t : FileQueueTransport} {r : Root} (h : Kept cls py float peer sent returned t r) :
      Pops cls py float peer sent returned (.ok none, t, r)
  | handed {d : Document} {t : FileQueueTransport} {r : Root}
      (h : Kept cls py float peer sent (returned ++ [d]) t r) :
      Pops cls py float peer sent returned (.ok (some d), t, r)

theorem popFrom_pops (hg : Genuine py float sent) (names : List Str)
    (h : Kept cls py float peer sent returned t r) :
    Pops cls py float peer sent returned (t.popFrom cls py float persisted peer names r) := by
  induction names generalizing r with
  | nil => exact .empty h
  | cons name names ih =>
    rcases popFrom_cases hg h name with ⟨-, hpop, -⟩ | ⟨m, hm, rfl, hget, hans, hpop, -⟩ |
      ⟨m, hm, rfl, hget, hpop, -⟩
    · rw [hpop]
      exact ih h
    · rw [hpop]
      exact ih (h.move hg hm hget hans)
    · rw [hpop]
      refine .handed (Kept.recordSeen ?_ (List.mem_append_right _ (List.mem_singleton_self _)) _)
      exact (h.returns hm).move hg hm hget
        (Or.inl (List.mem_append_right _ (List.mem_singleton_self _)))

theorem cutsFrom_kept (hg : Genuine py float sent) (names : List Str)
    (h : Kept cls py float peer sent returned t r) {left : Root}
    (hcut : (false, left) ∈ cutsFrom cls py float persisted peer names t r) :
    Kept cls py float peer sent returned t left := by
  induction names generalizing r with
  | nil =>
    cases List.mem_singleton.mp hcut
    exact h
  | cons name names ih =>
    rcases popFrom_cases hg h name with ⟨-, -, hcuts⟩ | ⟨m, hm, rfl, hget, hans, -, hcuts⟩ |
      ⟨m, hm, rfl, hget, -, hcuts⟩
    · rw [hcuts] at hcut
      rcases List.mem_cons.mp hcut with he | hcut
      · cases he
        exact h
      · exact ih h hcut
    · rw [hcuts] at hcut
      rcases List.mem_cons.mp hcut with he | hcut
      · cases he
        exact h
      · exact ih (h.move hg hm hget hans) hcut
    · rw [hcuts] at hcut
      simp only [List.mem_cons, Prod.mk.injEq, true_and, Bool.false_eq_true, false_and,
        List.not_mem_nil, or_false] at hcut
      rw [hcut]
      exact h

end calls

section steps

variable {cls : CharClasses} {py : PyText} {float : PyFloat} {peer : Str} {s : Mailbox}

structure Sound (cls : CharClasses) (py : PyText) (float : PyFloat) (peer : Str)
    (s : Mailbox) : Prop where
  genuine : Genuine py float s.sent
  kept : Kept cls py float peer s.sent s.returned s.receiver s.root

theorem sound_opened (t : FileQueueTransport) : Sound cls py float peer (opened t) := by
  refine ⟨⟨List.nodup_nil, nofun, nofun⟩, ⟨?_, nofun, nofun, nofun, ?_⟩⟩
  · intro name text hget
    cases hget
  · intro window k hk
    cases hk

theorem senderOf_posted (post : Posting) :
    senderOf py float (post.posted peer).envelope = post.sender.myId := by
  have hfrom : (post.posted peer).envelope.get? "from".toList = some (.str post.sender.myId) := rfl
  rw [senderOf, hfrom, textOr]
  split_ifs with hfalse
  · cases hid : post.sender.myId with
    | nil => exact absurd hid post.sender.named
    | cons c cs =>
      rw [hid] at hfalse
      cases hfalse
  · exact py.str_str _

theorem Genuine.posted {sent : List Message} (h : Genuine py float sent) {post : Posting}
    (hfresh : ∀ m ∈ sent, m.uuid.hex ≠ post.uuid.hex) (hplain : '|' ∉ post.sender.myId)
    (hseq : post.sender.seq + 1 < 10 ^ 20) :
    Genuine py float (sent ++ [post.posted peer]) := by
  refine ⟨?_, ?_, ?_⟩
  · rw [List.map_append, List.nodup_append]
    refine ⟨h.uuids, List.nodup_singleton _, ?_⟩
    intro a ha b hb he
    obtain ⟨m, hm, rfl⟩ := List.mem_map.mp ha
    obtain rfl : b = post.uuid.hex := List.mem_singleton.mp hb
    exact hfresh m hm he
  · intro m hm
    rcases List.mem_append.mp hm with hm | hm
    · exact h.numbered m hm
    · rw [List.mem_singleton.mp hm]
      exact hseq
  · intro m hm
    rcases List.mem_append.mp hm with hm | hm
    · exact h.plain m hm
    · rw [List.mem_singleton.mp hm, senderOf_posted]
      exact hplain

def deposit (peer name : Str) (text : FileText) (r : Root) : Root :=
  (r.ensurePeerDirs peer).update peer (fun d => { d with inbox := d.inbox.insert name text })

theorem inbox_deposit (peer name : Str) (text : FileText) (r : Root) (n : Str) :
    ((deposit peer name text r).peer peer).inbox.get? n =
      if n = name then some text else (r.peer peer).inbox.get? n := by
  rw [deposit, Root.peer_update, if_pos rfl, Root.peer_ensurePeerDirs, SortedMap.get?_insert]
  split_ifs <;> rfl

theorem dedup_deposit (peer name : Str) (text : FileText) (r : Root) (q : Str) :
    ((deposit peer name text r).peer q).dedup = (r.peer q).dedup := by
  rw [deposit, Root.peer_update]
  split_ifs with hq
  · rw [hq, Root.peer_ensurePeerDirs]
  · rw [Root.peer_ensurePeerDirs]

theorem Kept.of_inbox {sent sent' : List Message} {returned : List Document}
    {t : FileQueueTransport} {r r' : Root}
    (h : Kept cls py float peer sent returned t r) (hsent : ∀ m ∈ sent, m ∈ sent')
    (hfiles : ∀ name text, (r'.peer peer).inbox.get? name = some text →
      isEnvelopeFilename cls name = true → ∃ m ∈ sent', entry m = (name, text))
    (hkept : ∀ m ∈ sent', (r'.peer peer).inbox.get? m.name = some (.object m.envelope) ∨
      Answered py float returned m)
    (hdedup : (r'.peer t.myId).dedup = (r.peer t.myId).dedup) :
    Kept cls py float peer sent' returned t r' := by
  refine ⟨hfiles, hkept, ?_, h.memory, ?_⟩
  · intro d hd
    obtain ⟨m, hm, he⟩ := h.handed d hd
    exact ⟨m, hsent m hm, he⟩
  · intro window k hk
    rw [load_congr hdedup] at hk
    exact h.disk window k hk

theorem Kept.posted {returned : List Document} {t : FileQueueTransport} {r : Root}
    {sent : List Message} {m : Message} (hg : Genuine py float (sent ++ [m]))
    (h : Kept cls py float peer sent returned t r) :
    Kept cls py float peer (sent ++ [m]) returned t
      (deposit peer m.name (.object m.envelope) r) := by
  have hlast : m ∈ sent ++ [m] := List.mem_append_right _ (List.mem_singleton_self m)
  refine h.of_inbox (fun n hn => List.mem_append_left _ hn) ?_ ?_ (dedup_deposit ..)
  · intro name text hget hname
    rw [inbox_deposit] at hget
    split_ifs at hget with hn
    · exact ⟨m, hlast, Prod.ext hn.symm (Option.some.inj hget)⟩
    · obtain ⟨n, hn, he⟩ := h.files name text hget hname
      exact ⟨n, List.mem_append_left _ hn, he⟩
  · intro n hn
    rw [inbox_deposit]
    split_ifs with he
    · rw [hg.eq_of_name hn hlast he]
      exact Or.inl rfl
    · rcases List.mem_append.mp hn with hn | hn
      · exact h.kept n hn
      · rw [List.mem_singleton.mp hn] at he
        exact absurd rfl he

theorem Kept.abandoned {returned : List Document} {t : FileQueueTransport} {r : Root}
    {sent : List Message} (hg : Genuine py float sent) (suffix : Str)
    (h : Kept cls py float peer sent returned t r) :
    Kept cls py float peer sent returned t (deposit peer (temporaryName suffix) .garbled r) := by
  refine h.of_inbox (fun n hn => hn) ?_ ?_ (dedup_deposit ..)
  · intro name text hget hname
    rw [inbox_deposit] at hget
    split_ifs at hget with hn
    · rw [hn, Order.isEnvelopeFilename_temporaryName] at hname
      cases hname
    · exact h.files name text hget hname
  · intro m hm
    have hname : isEnvelopeFilename cls m.name = true :=
      (Order.isEnvelopeFilename_filename m.seq m.uuid).trans (decide_eq_true (hg.numbered m hm))
    rw [inbox_deposit]
    split_ifs with he
    · rw [he, Order.isEnvelopeFilename_temporaryName] at hname
      cases hname
    · exact h.kept m hm

theorem Sound.send (h : Sound cls py float peer s) {post : Posting} {outcome : WriteOutcome}
    (hfresh : Fresh s (.send post outcome))
    (hharmless : Harmless cls py float peer s (.send post outcome)) :
    Sound cls py float peer (perform cls py float peer (.send post outcome) s) := by
  have hg : Genuine py float (s.sent ++ [post.posted peer]) :=
    h.genuine.posted hfresh hharmless.1 hharmless.2
  cases outcome with
  | replaced => exact ⟨hg, h.kept.posted hg⟩
  | abandoned suffix => exact ⟨h.genuine, h.kept.abandoned h.genuine suffix⟩
  | refused =>
    refine ⟨h.genuine, h.kept.of_inbox (fun n hn => hn) ?_ ?_ ?_⟩
    · intro name text hget
      rw [perform, FileQueueTransport.enqueue, Root.peer_ensurePeerDirs] at hget
      exact h.kept.files name text hget
    · intro m hm
      rw [perform, FileQueueTransport.enqueue, Root.peer_ensurePeerDirs]
      exact h.kept.kept m hm
    · exact congrArg _ (Root.peer_ensurePeerDirs ..)

theorem Sound.recv (h : Sound cls py float peer s) (persisted : WriteOutcome) :
    Sound cls py float peer (perform cls py float peer (.recv persisted) s) := by
  have hpops : Pops cls py float peer s.sent s.returned (s.receiver.popFrom cls py float persisted
      peer (s.root.peer peer).inbox.keys s.root) := popFrom_pops h.genuine _ h.kept
  rw [perform, FileQueueTransport.recv]
  generalize s.receiver.popFrom cls py float persisted peer (s.root.peer peer).inbox.keys s.root =
    w at hpops
  cases hpops with
  | empty hk => exact ⟨h.genuine, hk⟩
  | handed hk => exact ⟨h.genuine, hk⟩

theorem Kept.restarted {sent : List Message} {returned : List Document}
    {t t' : FileQueueTransport} {r r' : Root} {rootDir : Str} {window : ℕ}
    (h : Kept cls py float peer sent returned t r)
    (hinit : FileQueueTransport.init t.myId rootDir [] window r = some (t', r')) :
    Kept cls py float peer sent returned t' r' := by
  have hpeer := FileQueueTransport.peer_init hinit
  rw [FileQueueTransport.init, dif_pos t.named] at hinit
  obtain ⟨rfl, -⟩ := Prod.mk.inj (Option.some.inj hinit)
  refine ⟨?_, ?_, h.handed, ?_, ?_⟩
  · rw [hpeer]
    exact h.files
  · rw [hpeer]
    exact h.kept
  · intro k hk
    dsimp only at hk
    rw [Root.peer_ensurePeerDirs] at hk
    exact h.disk window k hk
  · intro w k hk
    rw [hpeer] at hk
    exact h.disk w k hk

theorem perform_crash (persisted : WriteOutcome) (cut window : ℕ) (s : Mailbox) :
    (perform cls py float peer (.crash persisted cut window) s).sent = s.sent ∧
      (perform cls py float peer (.crash persisted cut window) s).returned = s.returned := by
  rw [perform]
  cases (s.cuts cls py float peer persisted)[cut]? with
  | none => exact ⟨rfl, rfl⟩
  | some c =>
    dsimp only
    cases FileQueueTransport.init s.receiver.myId s.receiver.rootDir [] window c.2 with
    | none => exact ⟨rfl, rfl⟩
    | some w => exact ⟨rfl, rfl⟩

theorem Sound.crash (h : Sound cls py float peer s) {persisted : WriteOutcome} {cut window : ℕ}
    (hharmless : Harmless cls py float peer s (.crash persisted cut window)) :
    Sound cls py float peer (perform cls py float peer (.crash persisted cut window) s) := by
  rw [perform]
  cases hcut : (s.cuts cls py float peer persisted)[cut]? with
  | none => exact h
  | some c =>
    obtain ⟨gone, left⟩ := c
    dsimp only
    cases hinit : FileQueueTransport.init s.receiver.myId s.receiver.rootDir [] window left with
    | none => exact h
    | some w =>
      obtain ⟨t, r⟩ := w
      cases gone with
      | true => exact absurd hcut (hharmless left)
      | false =>
        have hleft := cutsFrom_kept h.genuine _ h.kept (List.mem_of_getElem? hcut)
        exact ⟨h.genuine, hleft.restarted hinit⟩

end steps

section progress

variable {cls : CharClasses} {py : PyText} {float : PyFloat} {peer : Str} {sent : List Message}
  {returned : List Document} {t : FileQueueTransport} {r r' : Root} {persisted : WriteOutcome}
  {s : Mailbox}

def Takes (cls : CharClasses) (peer : Str) (r r' : Root) : Prop :=
  ∃ name text, (r.peer peer).inbox.get? name = some text ∧ isEnvelopeFilename cls name = true ∧
    (r'.peer peer).inbox.get? name = none

theorem get?_none_of_shrinks (h : Shrinks r r') {name : Str}
    (hget : (r.peer peer).inbox.get? name = none) : (r'.peer peer).inbox.get? name = none := by
  cases hget' : (r'.peer peer).inbox.get? name with
  | none => rfl
  | some text =>
    rw [h peer name text hget'] at hget
    cases hget

theorem takes_moved {m : Message} (hg : Genuine py float sent) (hm : m ∈ sent)
    (hget : (r.peer peer).inbox.get? m.name = some (.object m.envelope))
    (h : Shrinks (r.moveToProcessed peer m.name) r') : Takes cls peer r r' := by
  refine ⟨m.name, .object m.envelope, hget, ?_, get?_none_of_shrinks h ?_⟩
  · exact (Order.isEnvelopeFilename_filename m.seq m.uuid).trans
      (decide_eq_true (hg.numbered m hm))
  · rw [inbox_moveToProcessed hget, if_pos rfl]

theorem popFrom_takes (hg : Genuine py float sent) {names : List Str}
    (h : Kept cls py float peer sent returned t r) {name : Str} (hname : name ∈ names)
    (henv : isEnvelopeFilename cls name = true)
    (hget : ((r.peer peer).inbox.get? name).isSome = true) :
    Takes cls peer r (t.popFrom cls py float persisted peer names r).2.2 := by
  induction names with
  | nil => cases hname
  | cons first names ih =>
    rcases popFrom_cases hg h first with ⟨hpass, hpop, -⟩ | ⟨m, hm, rfl, hm', -, hpop, -⟩ |
      ⟨m, hm, rfl, hm', hpop, -⟩
    · rw [hpop]
      rcases List.mem_cons.mp hname with rfl | hname
      · exact absurd ⟨henv, hget⟩ hpass
      · exact ih hname
    · rw [hpop]
      exact takes_moved hg hm hm' (Order.shrinks_popFrom persisted peer names t _)
    · rw [hpop]
      exact takes_moved hg hm hm' (Order.shrinks_recordSeen persisted m.envelope t _)

theorem length_deliverable_lt (hs : Shrinks r r') (ht : Takes cls peer r r') :
    (deliverable cls peer r').length < (deliverable cls peer r).length := by
  obtain ⟨name, text, hget, henv, hgone⟩ := ht
  have hnodup : ((name, text) :: deliverable cls peer r').Nodup := by
    refine List.nodup_cons.mpr ⟨?_, (SortedMap.entries_nodup _).filter _⟩
    intro hmem
    have hget' := (mem_deliverable.mp hmem).1
    rw [hgone] at hget'
    cases hget'
  have hsubset : (name, text) :: deliverable cls peer r' ⊆ deliverable cls peer r := by
    refine List.cons_subset.mpr ⟨mem_deliverable.mpr ⟨hget, henv⟩, ?_⟩
    intro e he
    obtain ⟨hget', henv'⟩ := mem_deliverable.mp he
    exact mem_deliverable.mpr ⟨hs peer e.1 e.2 hget', henv'⟩
  exact (List.subperm_of_subset hnodup hsubset).length_le

theorem shrinks_recv (persisted : WriteOutcome) :
    Shrinks s.root (perform cls py float peer (.recv persisted) s).root :=
  Order.shrinks_popFrom persisted peer _ _ _

theorem recv_takes (h : Sound cls py float peer s) (persisted : WriteOutcome)
    (hne : deliverable cls peer s.root ≠ []) :
    (deliverable cls peer (perform cls py float peer (.recv persisted) s).root).length <
      (deliverable cls peer s.root).length := by
  obtain ⟨e, he⟩ := List.exists_mem_of_ne_nil _ hne
  obtain ⟨hget, henv⟩ := mem_deliverable.mp he
  have hsome : ((s.root.peer peer).inbox.get? e.1).isSome = true := by rw [hget]; rfl
  refine length_deliverable_lt (shrinks_recv persisted) ?_
  exact popFrom_takes h.genuine h.kept (SortedMap.mem_keys_iff.mpr hsome) henv hsome

theorem deliverable_recv_nil (h : deliverable cls peer s.root = []) (persisted : WriteOutcome) :
    deliverable cls peer (perform cls py float peer (.recv persisted) s).root = [] := by
  refine List.eq_nil_iff_forall_not_mem.mpr ?_
  intro e he
  obtain ⟨hget, henv⟩ := mem_deliverable.mp he
  have hmem : e ∈ deliverable cls peer s.root :=
    mem_deliverable.mpr ⟨shrinks_recv persisted peer e.1 e.2 hget, henv⟩
  rw [h] at hmem
  cases hmem

theorem receiveAll_sent (outcomes : List WriteOutcome) (s : Mailbox) :
    (receiveAll cls py float peer outcomes s).sent = s.sent := by
  induction outcomes generalizing s with
  | nil => rfl
  | cons o outcomes ih => exact ih _

theorem Sound.receiveAll (h : Sound cls py float peer s) (outcomes : List WriteOutcome) :
    Sound cls py float peer (receiveAll cls py float peer outcomes s) := by
  induction outcomes generalizing s with
  | nil => exact h
  | cons o outcomes ih => exact ih (h.recv o)

theorem receiveAll_empties (h : Sound cls py float peer s) (outcomes : List WriteOutcome)
    (hn : (deliverable cls peer s.root).length ≤ outcomes.length) :
    deliverable cls peer (receiveAll cls py float peer outcomes s).root = [] := by
  induction outcomes generalizing s with
  | nil => exact List.eq_nil_of_length_eq_zero (Nat.le_zero.mp hn)
  | cons o outcomes ih =>
    apply ih (h.recv o)
    by_cases hnil : deliverable cls peer s.root = []
    · rw [deliverable_recv_nil hnil]
      exact Nat.zero_le _
    · have hlt := recv_takes h o hnil
      rw [List.length_cons] at hn
      omega

theorem Sound.answered (h : Sound cls py float peer s)
    (hnil : deliverable cls peer s.root = []) {m : Message} (hm : m ∈ s.sent) :
    Answered py float s.returned m := by
  rcases h.kept.kept m hm with hget | hans
  · have hname : isEnvelopeFilename cls m.name = true :=
      (Order.isEnvelopeFilename_filename m.seq m.uuid).trans
        (decide_eq_true (h.genuine.numbered m hm))
    have hmem : (m.name, .object m.envelope) ∈ deliverable cls peer s.root :=
      mem_deliverable.mpr ⟨hget, hname⟩
    rw [hnil] at hmem
    cases hmem
  · exact hans

theorem Sound.at_least_once (h : Sound cls py float peer s) : AtLeastOnce cls py float peer s := by
  intro m hm hnot
  rcases h.kept.kept m hm with hwait | hans
  · refine Or.inr ⟨hwait, (deliverable cls peer s.root).length, ?_⟩
    intro outcomes hn
    have hnil := receiveAll_empties h outcomes hn.ge
    exact (h.receiveAll outcomes).answered hnil ((receiveAll_sent outcomes s).symm ▸ hm)
  · exact Or.inl (hans.resolve_right hnot)

end progress

section runs

variable {cls : CharClasses} {py : PyText} {float : PyFloat} {peer : Str}

theorem Sound.perform {s : Mailbox} (h : Sound cls py float peer s) {e : Event}
    (hfresh : Fresh s e) (hharmless : Harmless cls py float peer s e) :
    Sound cls py float peer (perform cls py float peer e s) := by
  cases e with
  | send post outcome => exact h.send hfresh hharmless
  | recv persisted => exact h.recv persisted
  | crash persisted cut window => exact h.crash hharmless

theorem Reach.sound {t : FileQueueTransport} {s : Mailbox}
    (h : Reach cls py float (Harmless cls py float peer) peer t s) :
    Sound cls py float peer s := by
  induction h with
  | start => exact sound_opened t
  | step e _ hfresh hharmless ih => exact ih.perform hfresh hharmless

theorem delivered_at_least_once (t : FileQueueTransport) (s : Mailbox)
    (h : Reach cls py float (Harmless cls py float peer) peer t s) :
    AtLeastOnce cls py float peer s :=
  h.sound.at_least_once

end runs

def samplePost : Posting where
  sender := { myId := ['a'], rootDir := [], named := List.cons_ne_nil _ _ }
  kind := "send".toList
  message := Document.empty
  uuid := Order.zeroUuid
  timestamp := []

def sampleBox : Mailbox := opened Order.sampleReceiver

def samplePerform (e : Event) (s : Mailbox) : Mailbox :=
  perform asciiClasses Queue.plainPy (fun _ => none) ['b'] e s

def sentSample : Mailbox := samplePerform (.send samplePost .replaced) sampleBox

def stoppedBefore : Mailbox := samplePerform (.crash .replaced 0 256) sentSample

def stoppedAfter : Mailbox := samplePerform (.crash .replaced 1 256) sentSample

theorem delivered_at_least_once_stoppedBefore :
    stoppedBefore.sent.length = 1 ∧ stoppedBefore.returned = [] ∧
      AtLeastOnce asciiClasses Queue.plainPy (fun _ => none) ['b'] stoppedBefore := by
  refine ⟨by decide +kernel, by rfl, ?_⟩
  refine delivered_at_least_once Order.sampleReceiver _ (.step (.crash .replaced 0 256)
    (.step (.send samplePost .replaced) .start nofun ⟨by decide +kernel, by decide +kernel⟩)
    trivial ?_)
  intro left hcut
  have hfirst : (sentSample.cuts asciiClasses Queue.plainPy (fun _ => none) ['b']
      .replaced)[0]?.map Prod.fst = some false := by decide +kernel
  have hmarked : (sentSample.cuts asciiClasses Queue.plainPy (fun _ => none) ['b']
      .replaced)[0]?.map Prod.fst = some true := congrArg (Option.map Prod.fst) hcut
  rw [hfirst] at hmarked
  cases hmarked

theorem stopped_after_rename :
    Reach asciiClasses Queue.plainPy (fun _ => none) (fun _ _ => True) ['b'] Order.sampleReceiver
      stoppedAfter ∧
    ¬AtLeastOnce asciiClasses Queue.plainPy (fun _ => none) ['b'] stoppedAfter := by
  have hsend : Reach asciiClasses Queue.plainPy (fun _ => none) (fun _ _ => True) ['b']
      Order.sampleReceiver sentSample :=
    .step (.send samplePost .replaced) .start nofun trivial
  have hcrash := Reach.step (.crash .replaced 1 256) hsend trivial trivial
  refine ⟨hcrash, ?_⟩
  intro h
  obtain ⟨hsame, hnone⟩ : stoppedAfter.sent = sentSample.sent ∧
      stoppedAfter.returned = sentSample.returned := by
    rw [stoppedAfter, samplePerform]
    exact perform_crash .replaced 1 256 sentSample
  have hgone : ((stoppedAfter.root.peer ['b']).inbox.get? (samplePost.posted ['b']).name).isSome =
      false := by decide +kernel
  have hsent : samplePost.posted ['b'] ∈ stoppedAfter.sent :=
    hsame.symm ▸ List.mem_singleton.mpr rfl
  have hnot : ¬PairReturned Queue.plainPy (fun _ => none) stoppedAfter.returned
      (samplePost.posted ['b']).envelope := by
    rintro ⟨_, _, _, hd, _⟩
    rw [hnone] at hd
    cases hd
  rcases h _ hsent hnot with hd | ⟨hwait, -⟩
  · rw [hnone] at hd
    cases hd
  · rw [Waiting] at hwait
    rw [hwait] at hgone
    cases hgone

end Crash

end TraceMind.Transport
