import TraceMind.Transport.FileQueue

namespace TraceMind.Transport

open Queue (Document PyFloat PyText)

namespace Order

structure Message where
  sender : Str
  recipient : Str
  seq : ℕ
  uuid : Uuid
  envelope : Document

namespace Message

def name (m : Message) : Str := filename m.seq m.uuid.hex

def Before (m n : Message) : Prop :=
  m.seq < n.seq ∨ m.seq = n.seq ∧ m.uuid.hex < n.uuid.hex

instance : DecidableRel Before := fun _ _ => inferInstanceAs (Decidable (_ ∨ _))

end Message

structure Exchange where
  root : Root := {}
  instances : List FileQueueTransport := []
  sent : List Message := []

inductive Event where
  | start (myId rootDir : Str) (knownPeers : List Str) (window : ℕ)
  | send (i : ℕ) (outcome : WriteOutcome) (peerId : Str) (message : Document) (uuid : Uuid)
      (timestamp : Str)
  | recv (i : ℕ) (persisted : WriteOutcome) (peerId : Str)

section runs

variable (cls : CharClasses) (py : PyText) (float : PyFloat)

def sentMessage (peerId : Str) (message : Document) (uuid : Uuid) (timestamp : Str)
    (t : FileQueueTransport) : Message :=
  let e := t.makeEnvelope "send".toList peerId message uuid timestamp none none
  ⟨t.myId, peerId, e.2.seq, uuid, e.1⟩

def perform (e : Event) (s : Exchange) : Exchange :=
  match e with
  | .start myId rootDir knownPeers window =>
    match FileQueueTransport.init myId rootDir knownPeers window s.root with
    | none => s
    | some (t, r) => { s with root := r, instances := s.instances ++ [t] }
  | .send i outcome peerId message uuid timestamp =>
    match s.instances[i]? with
    | none => s
    | some t =>
      let w := t.send outcome peerId message uuid timestamp s.root
      let sent :=
        match w.1 with
        | .ok _ => s.sent ++ [sentMessage peerId message uuid timestamp t]
        | .error _ => s.sent
      { root := w.2.2, instances := s.instances.set i w.2.1, sent }
  | .recv i persisted peerId =>
    match s.instances[i]? with
    | none => s
    | some t =>
      let w := t.recv cls py float persisted peerId s.root
      { s with root := w.2.2, instances := s.instances.set i w.2.1 }

def Fresh (e : Event) (s : Exchange) : Prop :=
  ∀ i outcome peerId message uuid timestamp,
    e = .send i outcome peerId message uuid timestamp → ∀ m ∈ s.sent, m.uuid.hex ≠ uuid.hex

def Reaches : Exchange → Exchange → Prop :=
  Relation.ReflTransGen (fun s s' => ∃ e, Fresh e s ∧ s' = perform cls py float e s)

def waiting (p : Str) (s : Exchange) : List Message :=
  s.sent.filter (fun m => m.recipient = p && (s.root.peer p).inbox.contains m.name)

def receive (p : Str) : List WriteOutcome → FileQueueTransport → Root →
    List (Except TransportError (Option Document))
  | [], _, _ => []
  | persisted :: rest, t, r =>
    let w := t.recv cls py float persisted p r
    w.1 :: receive p rest w.2.1 w.2.2

def delivered (m : Message) : Except TransportError (Option Document) := .ok (some m.envelope)

def sentBy (q : Str) (w : Except TransportError (Option Document)) : Bool :=
  match w with
  | .ok (some d) =>
    match d.get? "from".toList with
    | some (.str s) => s = q
    | _ => false
  | _ => false

def Ordered (ms : List Message) : Prop :=
  ms.Pairwise Message.Before ∧ ∀ m ∈ ms, m.seq < 10 ^ 20

instance (ms : List Message) : Decidable (Ordered ms) := inferInstanceAs (Decidable (_ ∧ _))

end runs

section names

variable {cls : CharClasses}

theorem ascii_of_isDigit {c : Char} (h : c.isDigit = true) : c.toNat < 128 := by
  have h9 : '9'.toNat = 57 := rfl
  simp only [Char.isDigit, Char.toNat, UInt32.le_iff_toNat_le, Bool.and_eq_true,
    decide_eq_true_eq, ge_iff_le] at h h9 ⊢
  omega

theorem ascii_of_mem_hex (u : Uuid) : ∀ c ∈ u.hex, c.isAlphanum = true ∧ c.toNat < 128 := by
  intro c hc
  have h := List.all_eq_true.mp u.digits c hc
  rw [Bool.or_eq_true] at h
  rcases h with h | h
  · exact ⟨by simp [Char.isAlphanum, h], ascii_of_isDigit h⟩
  · have hf : 'f'.toNat = 102 ∧ 'z'.toNat = 122 := ⟨rfl, rfl⟩
    simp only [Char.le_def, Char.toNat, UInt32.le_iff_toNat_le, Bool.and_eq_true,
      decide_eq_true_eq] at h hf
    refine ⟨?_, ?_⟩
    · delta Char.isAlphanum Char.isAlpha Char.isLower
      simp only [UInt32.le_iff_toNat_le, Bool.or_eq_true, Bool.and_eq_true, decide_eq_true_eq,
        ge_iff_le]
      exact Or.inl (Or.inr ⟨h.1, by omega⟩)
    · simp only [Char.toNat]
      omega

theorem isWordChar_hex (cls : CharClasses) (u : Uuid) : u.hex.all (isWordChar cls) = true := by
  refine List.all_eq_true.mpr (fun c hc => ?_)
  obtain ⟨halnum, hlt⟩ := ascii_of_mem_hex u c hc
  simp [isWordChar, cls.word_ascii c hlt, halnum]

theorem digit_padded (cls : CharClasses) (w n : ℕ) : (Digits.padded w n).all cls.digit = true := by
  refine List.all_eq_true.mpr (fun c hc => ?_)
  have hd := Digits.padded_isDigit w n c hc
  rw [cls.digit_ascii c (ascii_of_isDigit hd), hd]

theorem isEnvelopeFilename_filename (seq : ℕ) (u : Uuid) :
    isEnvelopeFilename cls (filename seq u.hex) = decide (seq < 10 ^ 20) := by
  by_cases h : seq < 10 ^ 20
  · have hlen := Digits.length_padded (by decide) h
    have hdigits := digit_padded cls 20 seq
    have hhex := isWordChar_hex cls u
    have hne : u.hex.isEmpty = false :=
      Bool.eq_false_iff.mpr (fun he => by simpa [List.isEmpty_iff.mp he] using u.length)
    have htake : (filename seq u.hex).take 20 = Digits.padded 20 seq := List.take_left' hlen
    have hdrop : (filename seq u.hex).drop 20 = '-' :: (u.hex ++ jsonSuffix) :=
      List.drop_left' hlen
    have hlast : dropFinalNewline (u.hex ++ jsonSuffix) = u.hex ++ jsonSuffix := by
      simp [dropFinalNewline, jsonSuffix, List.getLast?_append]
    have hsize : (u.hex ++ jsonSuffix).length - 5 = u.hex.length := by simp [jsonSuffix]
    simp only [isEnvelopeFilename, htake, hdrop, hlast, hsize, List.take_left, List.drop_left]
    rw [decide_eq_true h]
    simp [hlen, hdigits, hhex, hne]
  · have hlen := Digits.width_lt_length_padded (by decide) (Nat.le_of_not_lt h)
    obtain ⟨c, cs, hcs⟩ : ∃ c cs, (Digits.padded 20 seq).drop 20 = c :: cs :=
      List.exists_cons_of_length_pos (by simpa using hlen)
    have hc : c.isDigit = true :=
      Digits.padded_isDigit 20 seq c (List.mem_of_mem_drop (hcs ▸ List.mem_cons_self))
    have hdash : c ≠ '-' := fun he => by simp [he] at hc
    have hdrop : (filename seq u.hex).drop 20 = c :: (cs ++ '-' :: (u.hex ++ jsonSuffix)) := by
      rw [filename, List.drop_append_of_le_length hlen.le, hcs, List.cons_append]
    simp only [isEnvelopeFilename, hdrop, decide_eq_false h]
    split
    · rename_i heq
      exact absurd (List.cons.inj heq).1 hdash
    · rfl

theorem isEnvelopeFilename_temporaryName (suffix : Str) :
    isEnvelopeFilename cls (temporaryName suffix) = false := by
  have hdot : cls.digit '.' = false := cls.digit_ascii '.' (by decide)
  unfold isEnvelopeFilename temporaryName
  dsimp only
  split
  · simp [hdot]
  · rfl

theorem uuid_eq_of_name_eq {m n : Message} (hm : m.seq < 10 ^ 20) (hn : n.seq < 10 ^ 20)
    (h : m.name = n.name) : m.uuid.hex = n.uuid.hex := by
  have hlen : (Digits.padded 20 m.seq).length = (Digits.padded 20 n.seq).length := by
    rw [Digits.length_padded (by decide) hm, Digits.length_padded (by decide) hn]
  have hrest := (List.append_inj h hlen).2
  exact List.append_cancel_right (List.cons.inj hrest).2

theorem name_lt_iff {m n : Message} (hm : m.seq < 10 ^ 20) (hn : n.seq < 10 ^ 20) :
    m.name < n.name ↔ m.Before n := by
  have hlen : (Digits.padded 20 m.seq).length = (Digits.padded 20 n.seq).length := by
    rw [Digits.length_padded (by decide) hm, Digits.length_padded (by decide) hn]
  have huuid : m.uuid.hex.length = n.uuid.hex.length := by rw [m.uuid.length, n.uuid.length]
  rw [Message.name, Message.name, filename, filename, Digits.append_lt_append_iff hlen,
    Digits.padded_lt_iff (by decide) hm hn, Digits.padded_inj,
    List.cons_lt_cons_iff, Digits.append_lt_append_iff huuid, Message.Before]
  simp

end names

section receiving

variable {cls : CharClasses} {py : PyText} {float : PyFloat} {r : Root} {p : Str}

def entry (m : Message) : Str × FileText := (m.name, .object m.envelope)

def deliverable (cls : CharClasses) (p : Str) (r : Root) : List (Str × FileText) :=
  (r.peer p).inbox.entries.filter (fun e => isEnvelopeFilename cls e.1)

theorem mem_deliverable {e : Str × FileText} : e ∈ deliverable cls p r ↔
    (r.peer p).inbox.get? e.1 = some e.2 ∧ isEnvelopeFilename cls e.1 = true := by
  rw [deliverable, List.mem_filter, SortedMap.get?_eq_some_iff]

theorem popFrom_none (persisted : WriteOutcome) (t : FileQueueTransport)
    {es : List (Str × FileText)} (h : es.filter (fun e => isEnvelopeFilename cls e.1) = []) :
    t.popFrom cls py float persisted p (es.map Prod.fst) r = (.ok none, t, r) := by
  induction es with
  | nil => rfl
  | cons e es ih =>
    rw [List.filter_cons] at h
    split_ifs at h with he
    rw [List.map_cons, FileQueueTransport.popFrom, if_neg he]
    exact ih h

theorem isDuplicate_of_no_key {d : Document} (h : d.get? "idempotency_key".toList = none)
    (t : FileQueueTransport) : t.isDuplicate py float d = false := by
  rw [FileQueueTransport.isDuplicate, dedupKey, h]

theorem recordSeen_of_no_key {d : Document} (h : d.get? "idempotency_key".toList = none)
    (persisted : WriteOutcome) (t : FileQueueTransport) (r : Root) :
    t.recordSeen py float persisted d r = (t, r) := by
  rw [FileQueueTransport.recordSeen, dedupKey, h]

theorem popFrom_first (persisted : WriteOutcome) (t : FileQueueTransport) {name : Str}
    {d : Document} {es rest : List (Str × FileText)}
    (h : es.filter (fun e => isEnvelopeFilename cls e.1) = (name, .object d) :: rest)
    (hget : (r.peer p).inbox.get? name = some (.object d))
    (hkey : d.get? "idempotency_key".toList = none) :
    t.popFrom cls py float persisted p (es.map Prod.fst) r =
      (.ok (some d), t, r.moveToProcessed p name) := by
  induction es with
  | nil => cases h
  | cons e es ih =>
    rw [List.filter_cons] at h
    split_ifs at h with he
    · obtain rfl : e = (name, .object d) := (List.cons.inj h).1
      rw [List.map_cons, FileQueueTransport.popFrom, if_pos he]
      dsimp only
      rw [hget]
      dsimp only
      rw [isDuplicate_of_no_key hkey, recordSeen_of_no_key hkey]
      rfl
    · rw [List.map_cons, FileQueueTransport.popFrom, if_neg he]
      exact ih h

theorem peer_moveToProcessed {name : Str} {text : FileText}
    (hget : (r.peer p).inbox.get? name = some text) :
    ((r.moveToProcessed p name).peer p).inbox = (r.peer p).inbox.erase name := by
  rw [Root.moveToProcessed, hget]
  simp

theorem deliverable_moveToProcessed {name : Str} {text : FileText}
    {rest : List (Str × FileText)} (h : deliverable cls p r = (name, text) :: rest) :
    deliverable cls p (r.moveToProcessed p name) = rest := by
  have hmem : (name, text) ∈ deliverable cls p r := h ▸ List.mem_cons_self
  have hget : (r.peer p).inbox.get? name = some text := (mem_deliverable.mp hmem).1
  have hsorted : (deliverable cls p r).Pairwise (fun a b => a.1 < b.1) :=
    (r.peer p).inbox.sorted.filter _
  rw [h, List.pairwise_cons] at hsorted
  have herase : deliverable cls p (r.moveToProcessed p name) =
      (deliverable cls p r).filter (fun a => decide (a.1 ≠ name)) := by
    rw [deliverable, deliverable, peer_moveToProcessed hget, SortedMap.erase, List.filter_filter,
      List.filter_filter]
    exact List.filter_congr (fun a _ => by simp [Bool.and_comm])
  rw [herase, h, List.filter_cons_of_neg (by simp)]
  exact List.filter_eq_self.mpr (fun a ha => decide_eq_true (ne_of_gt (hsorted.1 a ha)))

theorem receive_eq {ms : List Message} (hms : deliverable cls p r = ms.map entry)
    (hkey : ∀ m ∈ ms, m.envelope.get? "idempotency_key".toList = none)
    (outcomes : List WriteOutcome) (t : FileQueueTransport) :
    receive cls py float p outcomes t r = (ms.map delivered).take outcomes.length ++
      List.replicate (outcomes.length - ms.length) (.ok none) := by
  induction outcomes generalizing r ms with
  | nil => simp [receive]
  | cons o outcomes ih =>
    cases ms with
    | nil =>
      have hrecv : t.recv cls py float o p r = (.ok none, t, r) := popFrom_none o t hms
      rw [receive, hrecv, ih hms hkey]
      simp [List.replicate_succ]
    | cons m ms =>
      have hm := hkey m List.mem_cons_self
      have hfirst : deliverable cls p r = (m.name, .object m.envelope) :: ms.map entry := hms
      have hmem : (m.name, .object m.envelope) ∈ deliverable cls p r :=
        hfirst ▸ List.mem_cons_self
      have hget := (mem_deliverable.mp hmem).1
      have hrecv : t.recv cls py float o p r =
          (.ok (some m.envelope), t, r.moveToProcessed p m.name) :=
        popFrom_first o t hfirst hget hm
      have htail := ih (deliverable_moveToProcessed hfirst) (fun n hn => hkey n (List.mem_cons_of_mem _ hn))
      rw [receive, hrecv]
      dsimp only
      rw [htail]
      simp [delivered]

end receiving

section invariant

variable {cls : CharClasses} {py : PyText} {float : PyFloat} {s : Exchange} {p : Str}

structure Genuine (m : Message) : Prop where
  sender : m.envelope.get? "from".toList = some (.str m.sender)
  uuid : m.envelope.get? "uuid".toList = some (.str m.uuid.hex)
  keyless : m.envelope.get? "idempotency_key".toList = none

structure Inv (cls : CharClasses) (s : Exchange) : Prop where
  uuids : (s.sent.map (fun m => m.uuid.hex)).Nodup
  genuine : ∀ m ∈ s.sent, Genuine m
  inboxes : ∀ p name text, (s.root.peer p).inbox.get? name = some text →
    isEnvelopeFilename cls name = true → ∃ m ∈ s.sent, m.recipient = p ∧ entry m = (name, text)

theorem Inv.init : Inv cls {} :=
  ⟨List.nodup_nil, nofun, fun _ _ _ h => by cases h⟩

theorem genuine_sentMessage (peerId : Str) (message : Document) (uuid : Uuid) (timestamp : Str)
    (t : FileQueueTransport) : Genuine (sentMessage peerId message uuid timestamp t) :=
  ⟨rfl, rfl, rfl⟩

def Shrinks (r r' : Root) : Prop :=
  ∀ p name text, (r'.peer p).inbox.get? name = some text →
    (r.peer p).inbox.get? name = some text

theorem shrinks_moveToProcessed (p name : Str) (r : Root) :
    Shrinks r (r.moveToProcessed p name) := by
  intro q n text h
  cases hget : (r.peer p).inbox.get? name with
  | none =>
    rw [Root.moveToProcessed, hget] at h
    exact h
  | some text' =>
    rw [Root.moveToProcessed, hget] at h
    simp only [Root.peer_update] at h
    split_ifs at h with hq
    · rw [SortedMap.get?_erase] at h
      split_ifs at h
      rw [hq]
      exact h
    · exact h

theorem shrinks_recordSeen (persisted : WriteOutcome) (d : Document) (t : FileQueueTransport)
    (r : Root) : Shrinks r (t.recordSeen py float persisted d r).2 := by
  intro q n text h
  unfold FileQueueTransport.recordSeen at h
  split at h
  · exact h
  · split_ifs at h
    · exact h
    · unfold FileQueueTransport.persistDedupState at h
      split at h
      · simp only [Root.peer_update] at h
        split_ifs at h with hq
        · rw [hq]
          exact h
        · exact h
      · exact h

theorem Shrinks.trans {a b c : Root} (h : Shrinks a b) (h' : Shrinks b c) : Shrinks a c :=
  fun p name text hc => h p name text (h' p name text hc)

theorem shrinks_popFrom (persisted : WriteOutcome) (p : Str) (names : List Str)
    (t : FileQueueTransport) (r : Root) :
    Shrinks r (t.popFrom cls py float persisted p names r).2.2 := by
  induction names generalizing t r with
  | nil => exact fun _ _ _ h => h
  | cons name names ih =>
    rw [FileQueueTransport.popFrom]
    split_ifs
    · split
      · exact ih t r
      · exact fun _ _ _ h => h
      · exact shrinks_moveToProcessed p name r
      · dsimp only
        split_ifs
        · exact (shrinks_moveToProcessed p name r).trans (ih t _)
        · exact (shrinks_moveToProcessed p name r).trans (shrinks_recordSeen persisted _ t _)
    · exact ih t r

theorem Inv.shrink (h : Inv cls s) {r : Root} (hr : Shrinks s.root r)
    (ts : List FileQueueTransport) : Inv cls { s with root := r, instances := ts } :=
  ⟨h.uuids, h.genuine, fun p name text hget => h.inboxes p name text (hr p name text hget)⟩

theorem Inv.sent (h : Inv cls s) {peerId : Str} {message : Document} {uuid : Uuid}
    {timestamp : Str} {t : FileQueueTransport} (hfresh : ∀ m ∈ s.sent, m.uuid.hex ≠ uuid.hex)
    (ts : List FileQueueTransport) :
    Inv cls ⟨(t.send .replaced peerId message uuid timestamp s.root).2.2, ts,
      s.sent ++ [sentMessage peerId message uuid timestamp t]⟩ := by
  refine ⟨?_, fun m hm => ?_, fun q name text hget hname => ?_⟩
  · rw [List.map_append, List.nodup_append]
    refine ⟨h.uuids, List.nodup_singleton _, fun a ha b hb he => ?_⟩
    obtain ⟨m, hm, rfl⟩ := List.mem_map.mp ha
    obtain rfl : b = uuid.hex := List.mem_singleton.mp hb
    exact hfresh m hm he
  · rcases List.mem_append.mp hm with hm | hm
    · exact h.genuine m hm
    · rw [List.mem_singleton.mp hm]
      exact genuine_sentMessage ..
  · have hold : (s.root.peer q).inbox.get? name = some text →
        ∃ m ∈ s.sent ++ [sentMessage peerId message uuid timestamp t],
          m.recipient = q ∧ entry m = (name, text) := by
      intro hget
      obtain ⟨m, hm, hr, he⟩ := h.inboxes q name text hget hname
      exact ⟨m, List.mem_append_left _ hm, hr, he⟩
    simp only [FileQueueTransport.send, FileQueueTransport.enqueue, Root.peer_update,
      Root.peer_ensurePeerDirs] at hget
    split_ifs at hget with hq
    · rw [SortedMap.get?_insert] at hget
      split_ifs at hget with hn
      · refine ⟨_, List.mem_append_right _ (List.mem_singleton_self _), hq.symm, ?_⟩
        rw [hn, ← Option.some.inj hget]
        rfl
      · rw [← hq] at hget
        exact hold hget
    · exact hold hget

theorem Inv.unsent (h : Inv cls s) (outcome : WriteOutcome) (ho : outcome ≠ .replaced)
    {peerId : Str} {message : Document} {uuid : Uuid} {timestamp : Str} {t : FileQueueTransport}
    (ts : List FileQueueTransport) :
    Inv cls { s with
      root := (t.send outcome peerId message uuid timestamp s.root).2.2, instances := ts } := by
  refine ⟨h.uuids, h.genuine, fun q name text hget hname => h.inboxes q name text ?_ hname⟩
  cases outcome with
  | replaced => exact absurd rfl ho
  | refused =>
    simp only [FileQueueTransport.send, FileQueueTransport.enqueue,
      Root.peer_ensurePeerDirs] at hget
    exact hget
  | abandoned suffix =>
    simp only [FileQueueTransport.send, FileQueueTransport.enqueue, Root.peer_update,
      Root.peer_ensurePeerDirs] at hget
    split_ifs at hget with hq
    · rw [SortedMap.get?_insert] at hget
      split_ifs at hget with hn
      · rw [hn, isEnvelopeFilename_temporaryName] at hname
        cases hname
      · rw [hq]
        exact hget
    · exact hget

theorem Inv.perform (h : Inv cls s) {e : Event} (hf : Fresh e s) :
    Inv cls (Order.perform cls py float e s) := by
  cases e with
  | start myId rootDir knownPeers window =>
    simp only [Order.perform]
    split
    · exact h
    · rename_i hinit
      exact h.shrink (fun p name text hget => by rwa [FileQueueTransport.peer_init hinit] at hget) _
  | send i outcome peerId message uuid timestamp =>
    simp only [Order.perform]
    split
    · exact h
    · cases outcome with
      | replaced => exact h.sent (hf _ _ _ _ _ _ rfl) _
      | abandoned suffix => exact h.unsent (.abandoned suffix) nofun _
      | refused => exact h.unsent .refused nofun _
  | recv i persisted peerId =>
    simp only [Order.perform]
    split
    · exact h
    · exact h.shrink (shrinks_popFrom persisted peerId _ _ _) _

theorem Inv.reaches {s' : Exchange} (h : Inv cls s) (hr : Reaches cls py float s s') :
    Inv cls s' := by
  induction hr with
  | refl => exact h
  | tail _ hstep ih =>
    obtain ⟨e, hf, rfl⟩ := hstep
    exact ih.perform hf

end invariant

section order

variable {cls : CharClasses} {py : PyText} {float : PyFloat} {s : Exchange} {p : Str}

theorem Inv.eq_of_uuid (h : Inv cls s) {m n : Message} (hm : m ∈ s.sent) (hn : n ∈ s.sent)
    (he : m.uuid.hex = n.uuid.hex) : m = n :=
  List.inj_on_of_nodup_map h.uuids hm hn he

theorem Inv.eq_of_envelope (h : Inv cls s) {m n : Message} (hm : m ∈ s.sent) (hn : n ∈ s.sent)
    (he : m.envelope = n.envelope) : m = n := by
  have hu := (h.genuine m hm).uuid
  rw [he, (h.genuine n hn).uuid] at hu
  exact h.eq_of_uuid hm hn (Json.str.inj (Option.some.inj hu)).symm

theorem exists_map_eq {α β : Type} {f : α → β} {q : α → Prop} {ys : List β}
    (h : ∀ y ∈ ys, ∃ x, q x ∧ f x = y) : ∃ xs : List α, ys = xs.map f ∧ ∀ x ∈ xs, q x := by
  induction ys with
  | nil => exact ⟨[], rfl, nofun⟩
  | cons y ys ih =>
    obtain ⟨x, hx, rfl⟩ := h y List.mem_cons_self
    obtain ⟨xs, rfl, hxs⟩ := ih (fun y hy => h y (List.mem_cons_of_mem _ hy))
    exact ⟨x :: xs, rfl, List.forall_mem_cons.mpr ⟨hx, hxs⟩⟩

def numbered (m : Message) : Bool := m.seq < 10 ^ 20

theorem Inv.deliverable (h : Inv cls s) (p : Str) : ∃ ms : List Message,
    deliverable cls p s.root = ms.map entry ∧ ms.Pairwise Message.Before ∧
      List.Perm ms ((waiting p s).filter numbered) := by
  have hfiles : ∀ e ∈ Order.deliverable cls p s.root,
      ∃ m, (m ∈ s.sent ∧ m.recipient = p) ∧ entry m = e := by
    intro e he
    obtain ⟨hget, hname⟩ := mem_deliverable.mp he
    obtain ⟨m, hm, hr, hentry⟩ := h.inboxes p e.1 e.2 hget hname
    exact ⟨m, ⟨hm, hr⟩, hentry⟩
  obtain ⟨ms, hms, hsent⟩ := exists_map_eq hfiles
  have hmem : ∀ m ∈ ms, (s.root.peer p).inbox.get? m.name = some (.object m.envelope) ∧
      m.seq < 10 ^ 20 := by
    intro m hm
    have hin : entry m ∈ Order.deliverable cls p s.root := hms ▸ List.mem_map_of_mem hm
    obtain ⟨hget, hname⟩ := mem_deliverable.mp hin
    exact ⟨hget, of_decide_eq_true ((isEnvelopeFilename_filename m.seq m.uuid).symm.trans hname)⟩
  have hsorted : ms.Pairwise (fun m n => m.name < n.name) := by
    have hs : (Order.deliverable cls p s.root).Pairwise (fun a b => a.1 < b.1) :=
      (s.root.peer p).inbox.sorted.filter _
    rw [hms, List.pairwise_map] at hs
    exact hs
  have hsent' : s.sent.Nodup := List.Nodup.of_map _ h.uuids
  refine ⟨ms, hms, ?_, (List.perm_ext_iff_of_nodup ?_ ?_).mpr (fun m => ?_)⟩
  · exact hsorted.imp_of_mem (fun hm hn hlt =>
      (name_lt_iff (hmem _ hm).2 (hmem _ hn).2).mp hlt)
  · exact hsorted.imp (fun hlt he => (lt_irrefl _ (he ▸ hlt)).elim)
  · exact (hsent'.filter _).filter _
  · rw [List.mem_filter, waiting, List.mem_filter, Bool.and_eq_true, decide_eq_true_eq, numbered,
      decide_eq_true_eq, SortedMap.contains, Option.isSome_iff_exists]
    constructor
    · intro hm
      exact ⟨⟨(hsent m hm).1, (hsent m hm).2, _, (hmem m hm).1⟩, (hmem m hm).2⟩
    · rintro ⟨⟨hm, -, text, hget⟩, hseq⟩
      have hname : isEnvelopeFilename cls m.name = true :=
        (isEnvelopeFilename_filename m.seq m.uuid).trans (decide_eq_true hseq)
      have hin : (m.name, text) ∈ ms.map entry := hms ▸ mem_deliverable.mpr ⟨hget, hname⟩
      obtain ⟨n, hn, he⟩ := List.mem_map.mp hin
      have hu := uuid_eq_of_name_eq (hmem n hn).2 hseq (Prod.mk.inj he).1
      rw [← h.eq_of_uuid (hsent n hn).1 hm hu]
      exact hn

theorem eq_of_map_delivered (h : Inv cls s) {ms ns : List Message} (hms : ∀ m ∈ ms, m ∈ s.sent)
    (hns : ∀ n ∈ ns, n ∈ s.sent) (he : ms.map delivered = ns.map delivered) : ms = ns := by
  induction ms generalizing ns with
  | nil => exact (List.map_eq_nil_iff.mp he.symm).symm
  | cons m ms ih =>
    cases ns with
    | nil => cases he
    | cons n ns =>
      obtain ⟨hhead, htail⟩ := List.cons.inj he
      have hmn : m = n := h.eq_of_envelope (hms m List.mem_cons_self) (hns n List.mem_cons_self)
        (Option.some.inj (Except.ok.inj hhead))
      rw [hmn, ih (fun a ha => hms a (List.mem_cons_of_mem _ ha))
        (fun a ha => hns a (List.mem_cons_of_mem _ ha)) htail]

theorem Message.Before.asymm {m n : Message} (h : m.Before n) : ¬n.Before m := by
  rcases h with h | ⟨h, hlt⟩
  · rintro (h' | ⟨h', -⟩) <;> omega
  · rintro (h' | ⟨-, hlt'⟩)
    · omega
    · exact lt_asymm hlt hlt'

theorem filter_eq_iff_ordered {ms ws : List Message} (hsorted : ms.Pairwise Message.Before)
    (hperm : List.Perm ms (ws.filter numbered)) (f : Message → Bool) :
    ms.filter f = ws.filter f ↔ Ordered (ws.filter f) := by
  constructor
  · intro he
    rw [← he]
    refine ⟨hsorted.filter _, fun m hm => ?_⟩
    have hmem := hperm.subset (List.mem_of_mem_filter hm)
    exact of_decide_eq_true (List.mem_filter.mp hmem).2
  · rintro ⟨hpair, hseq⟩
    have hall : (ws.filter numbered).filter f = ws.filter f := by
      rw [List.filter_comm]
      exact List.filter_eq_self.mpr (fun m hm => decide_eq_true (hseq m hm))
    have hp : List.Perm (ms.filter f) (ws.filter f) := hall ▸ hperm.filter f
    exact hp.eq_of_pairwise (fun a b _ _ hab hba => absurd hba hab.asymm) (hsorted.filter _) hpair

theorem filter_sentBy_delivered (h : Inv cls s) {ms : List Message} (hms : ∀ m ∈ ms, m ∈ s.sent)
    (q : Str) : (ms.map delivered).filter (sentBy q) =
      (ms.filter (fun m => m.sender = q)).map delivered := by
  rw [List.filter_map]
  refine congrArg _ (List.filter_congr (fun m hm => ?_))
  rw [Function.comp, delivered, sentBy, (h.genuine m (hms m hm)).sender]

theorem received_in_order_iff (hr : Reaches cls py float {} s) (t : FileQueueTransport) (p : Str)
    (outcomes : List WriteOutcome) (hn : outcomes.length = (waiting p s).length) :
    (receive cls py float p outcomes t s.root = (waiting p s).map delivered ↔
      Ordered (waiting p s)) ∧
    ∀ q, ((receive cls py float p outcomes t s.root).filter (sentBy q) =
        ((waiting p s).filter (fun m => m.sender = q)).map delivered ↔
      Ordered ((waiting p s).filter (fun m => m.sender = q))) := by
  have h : Inv cls s := Inv.init.reaches hr
  obtain ⟨ms, hms, hsorted, hperm⟩ := h.deliverable p
  have hwait : ∀ m ∈ waiting p s, m ∈ s.sent := fun m hm => List.mem_of_mem_filter hm
  have hin : ∀ m ∈ ms, m ∈ s.sent :=
    fun m hm => hwait m (List.mem_of_mem_filter (hperm.subset hm))
  have hlen : ms.length ≤ outcomes.length := by
    rw [hn, hperm.length_eq]
    exact List.length_filter_le ..
  have hrecv : receive cls py float p outcomes t s.root = ms.map delivered ++
      List.replicate (outcomes.length - ms.length) (.ok none) := by
    rw [receive_eq hms (fun m hm => (h.genuine m (hin m hm)).keyless),
      List.take_of_length_le (by simpa using hlen)]
  have hfilter := filter_eq_iff_ordered hsorted hperm
  refine ⟨?_, fun q => ?_⟩
  · have hall := hfilter (fun _ => true)
    rw [List.filter_true, List.filter_true] at hall
    rw [hrecv, ← hall]
    constructor
    · intro he
      have hnone : (.ok none : Except TransportError (Option Document)) ∉
          (waiting p s).map delivered := fun hm => by
        obtain ⟨m, -, hm⟩ := List.mem_map.mp hm
        cases hm
      have hzero : outcomes.length - ms.length = 0 := by
        by_contra hpos
        refine hnone (he ▸ List.mem_append_right _ (List.mem_replicate.mpr ⟨hpos, rfl⟩))
      rw [hzero, List.replicate_zero, List.append_nil] at he
      exact eq_of_map_delivered h hin hwait he
    · intro he
      rw [hn, he]
      simp
  · have hnone : (List.replicate (outcomes.length - ms.length)
        (.ok none : Except TransportError (Option Document))).filter (sentBy q) = [] :=
      List.filter_eq_nil_iff.mpr (fun w hw => by
        rw [List.eq_of_mem_replicate hw]
        exact Bool.false_ne_true)
    rw [hrecv, List.filter_append, hnone, List.append_nil, filter_sentBy_delivered h hin q,
      ← hfilter]
    refine ⟨fun he => ?_, congrArg _⟩
    exact eq_of_map_delivered h (fun m hm => hin m (List.mem_of_mem_filter hm))
      (fun m hm => hwait m (List.mem_of_mem_filter hm)) he

end order

def zeroUuid : Uuid := ⟨List.replicate 32 '0', by decide, by decide⟩

def oneUuid : Uuid := ⟨List.replicate 31 '0' ++ ['1'], by decide, by decide⟩

def twoUuid : Uuid := ⟨List.replicate 31 '0' ++ ['2'], by decide, by decide⟩

def sampleStep (e : Event) (s : Exchange) : Exchange :=
  perform asciiClasses Queue.plainPy (fun _ => none) e s

def startSample : Event := .start ['a'] [] [] 256

def sendSample (i : ℕ) (uuid : Uuid) : Event := .send i .replaced ['b'] Document.empty uuid []

def sentTwice : Exchange :=
  sampleStep (sendSample 0 oneUuid) (sampleStep (sendSample 0 zeroUuid) (sampleStep startSample {}))

def sentAfterRestart : Exchange :=
  sampleStep (sendSample 1 twoUuid) (sampleStep startSample sentTwice)

theorem reaches_start {s s' : Exchange}
    (h : Reaches asciiClasses Queue.plainPy (fun _ => none) s s') :
    Reaches asciiClasses Queue.plainPy (fun _ => none) s (sampleStep startSample s') :=
  .tail h ⟨_, fun _ _ _ _ _ _ he => (by cases he), rfl⟩

theorem reaches_send {s s' : Exchange} (i : ℕ) (uuid : Uuid)
    (h : Reaches asciiClasses Queue.plainPy (fun _ => none) s s')
    (hf : ∀ m ∈ s'.sent, m.uuid.hex ≠ uuid.hex) :
    Reaches asciiClasses Queue.plainPy (fun _ => none) s (sampleStep (sendSample i uuid) s') := by
  refine .tail h ⟨_, fun _ _ _ _ u _ he => ?_, rfl⟩
  cases he
  exact hf

theorem reaches_sentTwice : Reaches asciiClasses Queue.plainPy (fun _ => none) {} sentTwice := by
  unfold sentTwice
  refine reaches_send 0 oneUuid (reaches_send 0 zeroUuid (reaches_start .refl) ?_) ?_ <;>
    decide +kernel

theorem reaches_sentAfterRestart :
    Reaches asciiClasses Queue.plainPy (fun _ => none) {} sentAfterRestart := by
  unfold sentAfterRestart
  refine reaches_send 1 twoUuid (reaches_start reaches_sentTwice) ?_
  decide +kernel

def sampleReceiver : FileQueueTransport := { myId := ['b'], rootDir := [], named := nofun }

def receivedSample (s : Exchange) : List (Except TransportError (Option Document)) :=
  receive asciiClasses Queue.plainPy (fun _ => none) ['b']
    (List.replicate (waiting ['b'] s).length .replaced) sampleReceiver s.root

def seqOf (w : Except TransportError (Option Document)) : Option ℤ :=
  match w with
  | .ok (some d) =>
    match d.get? "seq".toList with
    | some (.int n) => some n
    | _ => none
  | _ => none

theorem received_in_order_sample :
    receivedSample sentTwice = (waiting ['b'] sentTwice).map delivered := by
  have hordered : Ordered (waiting ['b'] sentTwice) := by decide +kernel
  exact (received_in_order_iff reaches_sentTwice sampleReceiver ['b'] _
    List.length_replicate).1.mpr hordered

theorem restart_reorders :
    ∃ s, Reaches asciiClasses Queue.plainPy (fun _ => none) {} s ∧
      (receivedSample s).filter (sentBy ['a']) ≠
        ((waiting ['b'] s).filter (fun m => m.sender = ['a'])).map delivered := by
  refine ⟨sentAfterRestart, reaches_sentAfterRestart, fun he => ?_⟩
  have hseq : ((receivedSample sentAfterRestart).filter (sentBy ['a'])).map seqOf =
      (((waiting ['b'] sentAfterRestart).filter (fun m => m.sender = ['a'])).map delivered).map
        seqOf := congrArg _ he
  revert hseq
  decide +kernel

end Order

end TraceMind.Transport
