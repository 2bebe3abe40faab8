import TraceMind.Foundation.Naming
import TraceMind.Queue.Envelope

namespace TraceMind.Transport

open Queue (Document PyFloat PyText)

-- The classes `\d` and `\w` of Python's regular expressions.
structure CharClasses where
  digit : Char → Bool
  word : Char → Bool
  digit_ascii : ∀ c, c.toNat < 128 → digit c = c.isDigit
  word_ascii : ∀ c, c.toNat < 128 → word c = (c.isAlphanum || c = '_')

def asciiClasses : CharClasses where
  digit := Char.isDigit
  word c := c.isAlphanum || c = '_'
  digit_ascii _ _ := rfl
  word_ascii _ _ := rfl

inductive FileText where
  | object (d : Document)
  | other
  | garbled

structure PeerDir where
  inbox : SortedMap Str FileText := SortedMap.empty
  processed : SortedMap Str FileText := SortedMap.empty
  responses : SortedMap Str FileText := SortedMap.empty
  dedup : Option FileText := none

structure Root where
  peers : SortedMap Str PeerDir := SortedMap.empty

namespace Root

def peer (p : Str) (r : Root) : PeerDir := (r.peers.get? p).getD {}

def update (p : Str) (f : PeerDir → PeerDir) (r : Root) : Root :=
  ⟨r.peers.insert p (f (r.peer p))⟩

def ensurePeerDirs (p : Str) (r : Root) : Root := r.update p id

@[simp] theorem peer_update (p q : Str) (f : PeerDir → PeerDir) (r : Root) :
    (r.update p f).peer q = if q = p then f (r.peer p) else r.peer q := by
  unfold peer update
  rw [SortedMap.get?_insert]
  split_ifs <;> rfl

@[simp] theorem peer_ensurePeerDirs (p q : Str) (r : Root) :
    (r.ensurePeerDirs p).peer q = r.peer q := by
  rw [ensurePeerDirs, peer_update]
  split_ifs with h
  · rw [h, id]
  · rfl

theorem peer_foldl_ensurePeerDirs (ps : List Str) (r : Root) (q : Str) :
    (ps.foldl (fun r p => r.ensurePeerDirs p) r).peer q = r.peer q := by
  induction ps generalizing r with
  | nil => rfl
  | cons p ps ih => rw [List.foldl_cons, ih, Root.peer_ensurePeerDirs]

def moveToProcessed (p name : Str) (r : Root) : Root :=
  match (r.peer p).inbox.get? name with
  | none => r
  | some text => r.update p (fun d =>
      { d with inbox := d.inbox.erase name, processed := d.processed.insert name text })

end Root

inductive TransportError where
  | transport (message : Str)
  | network (message peer : Str)
  | attribute (message : Str)
  | os
  | handler

inductive WriteOutcome where
  | replaced
  | abandoned (suffix : Str)
  | refused

structure FileQueueTransport where
  myId : Str
  rootDir : Str
  dedupWindow : ℕ := 256
  seq : ℕ := 0
  handlers : List Str := []
  dedupState : List Str := []
  named : myId ≠ []

structure Uuid where
  hex : Str
  length : hex.length = 32
  digits : hex.all (fun c => c.isDigit || ('a' ≤ c && c ≤ 'f')) = true

def jsonSuffix : Str := ".json".toList

def dropFinalNewline (s : Str) : Str :=
  if s.getLast? = some '\n' then s.dropLast else s

def isWordChar (cls : CharClasses) (c : Char) : Bool := cls.word c || c = '.' || c = '-'

def isEnvelopeFilename (cls : CharClasses) (name : Str) : Bool :=
  let digits := name.take 20
  match name.drop 20 with
  | '-' :: rest =>
    let rest := dropFinalNewline rest
    let stem := rest.take (rest.length - 5)
    digits.length = 20 && digits.all cls.digit && rest.drop (rest.length - 5) = jsonSuffix &&
      !stem.isEmpty && stem.all (isWordChar cls)
  | _ => false

def filename (seq : ℕ) (uuid : Str) : Str := Digits.padded 20 seq ++ '-' :: (uuid ++ jsonSuffix)

def temporaryName (suffix : Str) : Str := ".tmp-".toList ++ suffix ++ jsonSuffix

def inboxPath (rootDir peer name : Str) : Str :=
  rootDir ++ "/peers/".toList ++ peer ++ "/inbox/".toList ++ name

-- Python's `v or d` for a field that may be missing, as text.
def textOr (py : PyText) (float : PyFloat) (v : Option Json) (d : Str) : Str :=
  match v with
  | none => d
  | some v => if Queue.TaskEnvelope.isFalse float v then d else py.str v

def senderOf (py : PyText) (float : PyFloat) (d : Document) : Str :=
  textOr py float (d.get? "from".toList) []

def correlationIdOf (py : PyText) (float : PyFloat) (d : Document) : Str :=
  textOr py float (d.get? "correlation_id".toList) []

def isRequest (d : Document) : Bool :=
  match d.get? "kind".toList with
  | some (.str s) => s = "request".toList
  | _ => false

def dedupKey (py : PyText) (float : PyFloat) (d : Document) : Option Str :=
  match d.get? "idempotency_key".toList with
  | some (.str (c :: cs)) => some (senderOf py float d ++ '|' :: c :: cs)
  | _ => none

def pairOf (py : PyText) (float : PyFloat) (d : Document) : Option (Str × Str) :=
  match d.get? "idempotency_key".toList with
  | some (.str (c :: cs)) => some (senderOf py float d, c :: cs)
  | _ => none

def composite (p : Str × Str) : Str := p.1 ++ '|' :: p.2

theorem dedupKey_eq (py : PyText) (float : PyFloat) (d : Document) :
    dedupKey py float d = (pairOf py float d).map composite := by
  unfold dedupKey pairOf
  split <;> rfl

theorem dedupKey_of_pairOf {py : PyText} {float : PyFloat} {d : Document} {p : Str × Str}
    (h : pairOf py float d = some p) : dedupKey py float d = some (composite p) := by
  rw [dedupKey_eq, h]
  rfl

def hasKey (py : PyText) (float : PyFloat) (k : Str) (d : Document) : Bool :=
  dedupKey py float d = some k

def hasPair (py : PyText) (float : PyFloat) (p : Str × Str) (d : Document) : Bool :=
  pairOf py float d = some p

theorem hasKey_of_hasPair {py : PyText} {float : PyFloat} {p : Str × Str} {d : Document}
    (h : hasPair py float p d = true) : hasKey py float (composite p) d = true :=
  decide_eq_true (dedupKey_of_pairOf (of_decide_eq_true h))

theorem senderOf_of_pairOf {py : PyText} {float : PyFloat} {d : Document} {p : Str × Str}
    (h : pairOf py float d = some p) : senderOf py float d = p.1 := by
  unfold pairOf at h
  split at h
  · rw [← Option.some.inj h]
  · cases h

theorem composite_inj {p q : Str × Str} (hp : '|' ∉ p.1) (hq : '|' ∉ q.1)
    (h : composite p = composite q) : p = q := by
  rcases List.append_eq_append_iff.mp h with ⟨us, hus, hrest⟩ | ⟨us, hus, hrest⟩
  · cases us with
    | nil =>
      rw [List.append_nil] at hus
      exact Prod.ext hus.symm (List.cons.inj hrest).2
    | cons c us =>
      rw [hus, ← (List.cons.inj hrest).1] at hq
      exact absurd (List.mem_append_right _ List.mem_cons_self) hq
  · cases us with
    | nil =>
      rw [List.append_nil] at hus
      exact Prod.ext hus (List.cons.inj hrest).2.symm
    | cons c us =>
      rw [hus, ← (List.cons.inj hrest).1] at hp
      exact absurd (List.mem_append_right _ List.mem_cons_self) hp

theorem hasPair_of_hasKey {py : PyText} {float : PyFloat} {p : Str × Str} {d : Document}
    (hp : '|' ∉ p.1) (hd : '|' ∉ senderOf py float d)
    (h : hasKey py float (composite p) d = true) : hasPair py float p d = true := by
  rw [hasKey, decide_eq_true_eq, dedupKey_eq] at h
  obtain ⟨q, hq, hkey⟩ := Option.map_eq_some_iff.mp h
  rw [senderOf_of_pairOf hq] at hd
  rw [hasPair, hq, composite_inj hd hp hkey]
  exact decide_eq_true rfl

namespace FileQueueTransport

section dedup

variable (py : PyText) (float : PyFloat)

def isDuplicate (d : Document) (t : FileQueueTransport) : Bool :=
  match dedupKey py float d with
  | none => false
  | some k => k ∈ t.dedupState

def pushBounded (window : ℕ) (keys : List Str) (key : Str) : List Str :=
  (keys ++ [key]).drop (keys.length + 1 - window)

def keysDocument (keys : List Str) : Document :=
  ⟨[("keys".toList, .arr (keys.map .str))], by
    have hitems : Json.wfItems (keys.map .str) = true := by
      induction keys with
      | nil => rfl
      | cons k ks ih => simpa [Json.wfItems, Json.wf] using ih
    simp [Json.wf, Json.wfFields, hitems]⟩

def persistDedupState (outcome : WriteOutcome) (t : FileQueueTransport) (r : Root) : Root :=
  match outcome with
  | .replaced => r.update t.myId (fun d =>
      { d with dedup := some (.object (keysDocument t.dedupState)) })
  | _ => r

def remember (key : Str) (t : FileQueueTransport) : FileQueueTransport :=
  { t with dedupState := pushBounded t.dedupWindow t.dedupState key }

def recordSeen (outcome : WriteOutcome) (d : Document) (t : FileQueueTransport) (r : Root) :
    FileQueueTransport × Root :=
  match dedupKey py float d with
  | none => (t, r)
  | some k =>
    if k ∈ t.dedupState then (t, r)
    else
      let t := t.remember k
      (t, t.persistDedupState outcome r)

-- Python's `keys[-window:]`, which is all of `keys` for a window of zero.
def lastKeys (window : ℕ) (keys : List Json) : List Json :=
  if window = 0 then keys else keys.drop (keys.length - window)

def loadKey (window : ℕ) (keys : List Str) (v : Json) : List Str :=
  match v with
  | .str k => pushBounded window keys k
  | _ => keys

def loadDedupState (window : ℕ) (d : PeerDir) : List Str :=
  match d.dedup with
  | some (.object doc) =>
    match doc.get? "keys".toList with
    | some (.arr keys) => (lastKeys window keys).foldl (loadKey window) []
    | _ => []
  | _ => []

end dedup

def init (myId rootDir : Str) (knownPeers : List Str) (window : ℕ) (r : Root) :
    Option (FileQueueTransport × Root) :=
  if h : myId ≠ [] then
    let r := r.ensurePeerDirs myId
    let t : FileQueueTransport :=
      { myId, rootDir, dedupWindow := window, named := h,
        dedupState := loadDedupState window (r.peer myId) }
    some (t, knownPeers.foldl (fun r p => r.ensurePeerDirs p) r)
  else none

theorem peer_init {myId rootDir : Str} {knownPeers : List Str} {window : ℕ} {r r' : Root}
    {t : FileQueueTransport}
    (h : init myId rootDir knownPeers window r = some (t, r')) (q : Str) :
    r'.peer q = r.peer q := by
  unfold init at h
  split_ifs at h
  obtain ⟨-, rfl⟩ := Prod.mk.inj (Option.some.inj h)
  rw [Root.peer_foldl_ensurePeerDirs, Root.peer_ensurePeerDirs]

def optionalField (name : String) : Option Str → List (Str × Json)
  | none => []
  | some v => [(name.toList, .str v)]

def makeEnvelope (kind peerId : Str) (message : Document) (uuid : Uuid) (timestamp : Str)
    (idempotencyKey correlationId : Option Str) (t : FileQueueTransport) :
    Document × FileQueueTransport :=
  let seq := t.seq + 1
  (⟨[("from".toList, .str t.myId), ("to".toList, .str peerId), ("kind".toList, .str kind),
      ("body".toList, message.json), ("seq".toList, .int seq), ("uuid".toList, .str uuid.hex),
      ("timestamp".toList, .str timestamp)] ++ optionalField "idempotency_key" idempotencyKey ++
      optionalField "correlation_id" correlationId, by
    have hbody : Json.wf message.json = true := message.wf
    cases idempotencyKey <;> cases correlationId <;>
      simp [optionalField, Json.wf, Json.wfFields, hbody]⟩,
    { t with seq })

def enqueue (outcome : WriteOutcome) (peerId : Str) (seq : ℕ) (uuid : Uuid) (envelope : Document)
    (r : Root) : Except TransportError Unit × Root :=
  let r := r.ensurePeerDirs peerId
  let failed := TransportError.network
    ("failed to enqueue message for '".toList ++ peerId ++ "'".toList) peerId
  match outcome with
  | .replaced => (.ok (), r.update peerId (fun d =>
      { d with inbox := d.inbox.insert (filename seq uuid.hex) (.object envelope) }))
  | .abandoned suffix => (.error failed, r.update peerId (fun d =>
      { d with inbox := d.inbox.insert (temporaryName suffix) .garbled }))
  | .refused => (.error failed, r)

def send (outcome : WriteOutcome) (peerId : Str) (message : Document) (uuid : Uuid)
    (timestamp : Str) (t : FileQueueTransport) (r : Root) :
    Except TransportError Unit × FileQueueTransport × Root :=
  let e := t.makeEnvelope "send".toList peerId message uuid timestamp none none
  let w := enqueue outcome peerId e.2.seq uuid e.1 r
  (w.1, e.2, w.2)

section receiving

variable (cls : CharClasses) (py : PyText) (float : PyFloat)

def popFrom (persisted : WriteOutcome) (peer : Str) : List Str → FileQueueTransport → Root →
    Except TransportError (Option Document) × FileQueueTransport × Root
  | [], t, r => (.ok none, t, r)
  | name :: names, t, r =>
    if isEnvelopeFilename cls name then
      match (r.peer peer).inbox.get? name with
      | none => popFrom persisted peer names t r
      | some .garbled => (.error (.transport ("FileQueue inbox file ".toList ++
          inboxPath t.rootDir peer name ++ " is not valid JSON".toList)), t, r)
      | some .other =>
        (.error (.attribute "object has no attribute 'get'".toList), t, r.moveToProcessed peer name)
      | some (.object d) =>
        let r := r.moveToProcessed peer name
        if t.isDuplicate py float d then popFrom persisted peer names t r
        else
          let seen := t.recordSeen py float persisted d r
          (.ok (some d), seen.1, seen.2)
    else popFrom persisted peer names t r

def recv (persisted : WriteOutcome) (peer : Str) (t : FileQueueTransport) (r : Root) :
    Except TransportError (Option Document) × FileQueueTransport × Root :=
  t.popFrom cls py float persisted peer (r.peer peer).inbox.keys r

end receiving

section requests

variable (cls : CharClasses) (py : PyText) (float : PyFloat)

inductive HandlerResult where
  | reply (payload : Document)
  | nonMapping (typeName : Str)
  | raised

inductive CrashPoint where
  | moved
  | remembered
  | persisted
  | answering
deriving DecidableEq

structure Fate where
  persisted : WriteOutcome := .replaced
  handler : HandlerResult
  replied : WriteOutcome := .replaced
  crash : Option CrashPoint := none

inductive Outcome where
  | replied
  | absorbed
  | vanished
  | raised (e : TransportError)
  | crashed

def reply (outcome : WriteOutcome) (sender correlationId : Str) (payload : Document) (r : Root) :
    Except TransportError Unit × Root :=
  let r := r.ensurePeerDirs sender
  match outcome with
  | .replaced => (.ok (), r.update sender (fun d =>
      { d with responses := d.responses.insert (correlationId ++ jsonSuffix) (.object payload) }))
  | _ => (.error .os, r)

def noHandler (handlerKey correlationId : Str) : Document :=
  ⟨[("error".toList, .str "no_handler".toList), ("handler_key".toList, .str handlerKey),
    ("correlation_id".toList, .str correlationId)], by simp [Json.wf, Json.wfFields]⟩

def bodyOf (d : Document) : Option Document :=
  match d.get? "body".toList with
  | none => some Document.empty
  | some v => if Queue.TaskEnvelope.isFalse float v then some Document.empty else Document.ofJson? v

def deliver (fate : Fate) (sender correlationId : Str) (payload : Document)
    (t : FileQueueTransport) (r : Root) : Outcome × FileQueueTransport × Root :=
  if fate.crash = some .answering then (.crashed, t, r)
  else
    match reply fate.replied sender correlationId payload r with
    | (.ok _, r) => (.replied, t, r)
    | (.error e, r) => (.raised e, t, r)

def invokeHandler (fate : Fate) (sender correlationId name : Str) (d : Document)
    (t : FileQueueTransport) (r : Root) : Outcome × FileQueueTransport × Root :=
  let handlerKey := textOr py float (d.get? "to".toList) t.myId
  if handlerKey ∈ t.handlers then
    match bodyOf float d with
    | none => (.raised (.transport ("FileQueue request envelope ".toList ++
        inboxPath t.rootDir t.myId name ++ " body must be a mapping".toList)), t, r)
    | some _ =>
      match fate.handler with
      | .raised => (.raised .handler, t, r)
      | .nonMapping typeName => (.raised (.transport ("handler for '".toList ++ handlerKey ++
          "' returned non-mapping ".toList ++ typeName)), t, r)
      | .reply payload => deliver fate sender correlationId payload t r
  else deliver fate sender correlationId (noHandler handlerKey correlationId) t r

def recordAndInvoke (fate : Fate) (sender correlationId name : Str) (d : Document)
    (t : FileQueueTransport) (r : Root) : Outcome × FileQueueTransport × Root :=
  if fate.crash = some .remembered then (.crashed, t, r)
  else
    let seen := t.recordSeen py float fate.persisted d r
    if fate.crash = some .persisted then (.crashed, seen.1, seen.2)
    else invokeHandler py float fate sender correlationId name d seen.1 seen.2

def handleRequest (fate : Fate) (name : Str) (d : Document) (t : FileQueueTransport)
    (r : Root) : Outcome × FileQueueTransport × Root :=
  let sender := senderOf py float d
  let correlationId := correlationIdOf py float d
  if sender = [] ∨ correlationId = [] then
    (.raised (.transport ("FileQueue request envelope ".toList ++
      inboxPath t.rootDir t.myId name ++ " is missing 'from' or 'correlation_id'".toList)), t, r)
  else if (r.peer t.myId).inbox.contains name then
    let r := r.moveToProcessed t.myId name
    if fate.crash = some .moved then (.crashed, t, r)
    else if t.isDuplicate py float d then (.absorbed, t, r)
    else recordAndInvoke py float fate sender correlationId name d t r
  else (.vanished, t, r)

end requests

end FileQueueTransport

end TraceMind.Transport
