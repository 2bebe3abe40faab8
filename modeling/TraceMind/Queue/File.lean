import TraceMind.Queue.Base
import Mathlib.Algebra.Group.Nat.Defs

namespace TraceMind.Queue

structure FileEntry where
  task : Task
  segmentSeq : ℕ
  availableAt : ℚ
  leaseDeadline : ℚ := 0
  token : Option Str := none
  acked : Bool := false

structure FileSegment where
  seq : ℕ
  startOffset : ℤ
  endOffset : ℤ
  sizeBytes : ℕ
  recordCount : ℕ
  pending : ℕ
  acked : OffsetSet := SortedMap.empty

namespace FileSegment

def addRecord (offset : ℤ) (size : ℕ) (s : FileSegment) : FileSegment :=
  { s with
    startOffset := if s.recordCount = 0 then offset else s.startOffset
    endOffset := offset
    recordCount := s.recordCount + 1
    pending := s.pending + 1
    sizeBytes := s.sizeBytes + size }

def ack (offset : ℤ) (s : FileSegment) : FileSegment :=
  if s.acked.contains offset then s
  else { s with acked := s.acked.insert offset (), pending := s.pending - 1 }

end FileSegment

structure Disk where
  logs : SortedMap ℕ Str := SortedMap.empty
  indexes : SortedMap ℕ Str := SortedMap.empty
  metaSeq : ℕ := 0
  offset : ℕ := 0

structure FileWorkQueue where
  segmentMaxBytes : ℕ
  v2Enabled : Bool
  segments : List ℕ := []
  segmentsBySeq : SortedMap ℕ FileSegment := SortedMap.empty
  entries : SortedMap ℤ FileEntry := SortedMap.empty
  readyHeap : ReadyHeap := PriorityQueue.empty
  readySet : OffsetSet := SortedMap.empty
  leaseSeq : ℕ := 0
  nextOffset : ℤ := 0
  currentSegment : Option ℕ := none

structure Config where
  float : PyFloat
  segmentMaxBytes : ℤ
  v2Enabled : Bool

structure Opened where
  queue : FileWorkQueue
  disk : Disk

namespace FileWorkQueue

def setEntry (offset : ℤ) (e : FileEntry) (q : FileWorkQueue) : FileWorkQueue :=
  { q with entries := q.entries.insert offset e }

def pushReady (offset : ℤ) (availableAt : ℚ) (q : FileWorkQueue) : FileWorkQueue :=
  if q.readySet.contains offset then q
  else
    { q with
      readyHeap := q.readyHeap.push (readyItem availableAt offset)
      readySet := q.readySet.insert offset () }

-- Each turn pops an item for good or ends the loop, so the size of the heap bounds the turns.
def popReadyLoop (now : ℚ) : ℕ → FileWorkQueue → Option (ℤ × ℚ) × FileWorkQueue
  | 0, q => (none, q)
  | fuel + 1, q =>
    match q.readyHeap.pop? with
    | none => (none, q)
    | some (item, rest) =>
      let q := { q with readyHeap := rest, readySet := q.readySet.erase item.offset }
      if now < item.availableAt then
        (none, { q with
          readyHeap := q.readyHeap.push item
          readySet := q.readySet.insert item.offset () })
      else
        match q.entries.get? item.offset with
        | none => popReadyLoop now fuel q
        | some e =>
          if e.token ≠ none then popReadyLoop now fuel q
          else (some (item.offset, item.availableAt), q)

def popReady (now : ℚ) (q : FileWorkQueue) : Option (ℤ × ℚ) × FileWorkQueue :=
  popReadyLoop now q.readyHeap.size q

def releaseOne (now : ℚ) (q : FileWorkQueue) (offset : ℤ) : FileWorkQueue :=
  match q.entries.get? offset with
  | none => q
  | some e =>
    if e.token = none ∨ e.acked = true then q
    else if e.leaseDeadline ≤ now then
      (q.setEntry offset { e with token := none, leaseDeadline := 0 }).pushReady
        offset e.availableAt
    else q

def releaseExpired (now : ℚ) (q : FileWorkQueue) : FileWorkQueue :=
  q.entries.keys.foldl (releaseOne now) q

def grant (offset : ℤ) (e : FileEntry) (deadline : ℚ) (q : FileWorkQueue) :
    LeasedTask × FileWorkQueue :=
  let token := leaseToken (q.leaseSeq + 1)
  (⟨offset, e.task, deadline, token⟩,
    { q with leaseSeq := q.leaseSeq + 1 }.setEntry offset
      { e with token := some token, leaseDeadline := deadline })

def leaseLoop (now deadline : ℚ) (count : ℕ) : ℕ → List LeasedTask → FileWorkQueue →
    List LeasedTask × FileWorkQueue
  | 0, leased, q => (leased, q)
  | fuel + 1, leased, q =>
    if leased.length < count then
      match q.popReady now with
      | (none, q) => (leased, q)
      | (some (offset, _), q) =>
        match q.entries.get? offset with
        | none => leaseLoop now deadline count fuel leased q
        | some e =>
          let r := q.grant offset e deadline
          leaseLoop now deadline count fuel (leased ++ [r.1]) r.2
    else (leased, q)

def lease (now : ℚ) (count leaseMs : ℤ) (q : FileWorkQueue) :
    List LeasedTask × FileWorkQueue :=
  if count ≤ 0 then ([], q)
  else
    let q := q.releaseExpired now
    leaseLoop now (now + leaseDelta leaseMs) count.toNat q.readyHeap.size [] q

def reschedule (offset : ℤ) (availableAt : ℚ) (q : FileWorkQueue) : FileWorkQueue :=
  match q.entries.get? offset with
  | none => q
  | some e =>
    let q := q.setEntry offset { e with availableAt }
    if e.token = none then q.pushReady offset availableAt else q

def pendingCount (q : FileWorkQueue) : ℕ := q.entries.size

def setSegment (s : FileSegment) (q : FileWorkQueue) : FileWorkQueue :=
  { q with segmentsBySeq := q.segmentsBySeq.insert s.seq s }

def current? (q : FileWorkQueue) : Option FileSegment :=
  match q.currentSegment with
  | none => none
  | some seq => q.segmentsBySeq.get? seq

end FileWorkQueue

namespace Opened

def allocateSegmentSeq (n : Opened) : ℕ × Opened :=
  let seq := n.disk.metaSeq + 1
  (seq, { n with disk := { n.disk with metaSeq := seq } })

def allocateOffset (n : Opened) : ℤ × Opened :=
  let next := n.disk.offset + 1
  (n.disk.offset, ⟨{ n.queue with nextOffset := next }, { n.disk with offset := next }⟩)

def raiseCounter (current floor : ℕ) : ℕ :=
  if current < floor then current * 10 ^ (Nat.toDigits 10 floor).length + floor else current

def openSegmentFile (s : FileSegment) (n : Opened) : Opened :=
  let log := (n.disk.logs.get? s.seq).getD []
  ⟨{ n.queue.setSegment { s with sizeBytes := log.length } with currentSegment := some s.seq },
    { n.disk with logs := n.disk.logs.insert s.seq log }⟩

def rotateSegment (n : Opened) : Opened :=
  let (seq, n) := n.allocateSegmentSeq
  let segment : FileSegment :=
    { seq
      startOffset := n.queue.nextOffset
      endOffset := n.queue.nextOffset - 1
      sizeBytes := 0
      recordCount := 0
      pending := 0 }
  openSegmentFile segment
    { n with queue := { n.queue with segments := n.queue.segments ++ [seq] } }

def ensureActiveSegment (n : Opened) : Opened :=
  if n.queue.currentSegment = none then n.rotateSegment else n

def maybeRotate (n : Opened) : Opened :=
  match n.queue.current? with
  | none => n
  | some s => if n.queue.segmentMaxBytes ≤ s.sizeBytes then n.rotateSegment else n

def indexJson (s : FileSegment) : Json :=
  .obj [("acked".toList, .arr (s.acked.keys.map Json.int)),
    ("start_offset".toList, .int s.startOffset),
    ("end_offset".toList, .int s.endOffset),
    ("record_count".toList, .int s.recordCount)]

def persistSegmentState (s : FileSegment) (n : Opened) : Opened :=
  { n with disk :=
    { n.disk with indexes := n.disk.indexes.insert s.seq (indexJson s).dumps } }

def removeSegment (seq : ℕ) (rest : List ℕ) (n : Opened) : Opened :=
  ⟨{ n.queue with
      segments := rest
      segmentsBySeq := n.queue.segmentsBySeq.erase seq },
    { n.disk with
      logs := n.disk.logs.erase seq
      indexes := n.disk.indexes.erase seq }⟩

def compactLoop : List ℕ → Opened → Opened
  | [], n => n
  | head :: rest, n =>
    match n.queue.segmentsBySeq.get? head with
    | none => n
    | some s =>
      if 0 < s.pending then n
      else if n.queue.currentSegment = some head then n
      else compactLoop rest (n.removeSegment head rest)

def maybeCompactHead (n : Opened) : Opened := compactLoop n.queue.segments n

def recordJson (offset : ℤ) (doc : Document) (stamp : FloatText) : Json :=
  .obj [("offset".toList, .int offset), ("task".toList, doc.json),
    ("enqueued_at".toList, .float stamp.text)]

def newline : Char := Char.ofNat 10

def recordText (offset : ℤ) (doc : Document) (stamp : FloatText) : Str :=
  (recordJson offset doc stamp).dumps ++ [newline]

def appendLog (seq : ℕ) (text : Str) (d : Disk) : Disk :=
  { d with logs := d.logs.insert seq ((d.logs.get? seq).getD [] ++ text) }

def rotates (segmentMaxBytes : ℕ) (s : FileSegment) (record : Str) : Bool :=
  segmentMaxBytes < s.sizeBytes + record.length && 0 < s.recordCount

def prepare (clock : Clock) (task : Task) (n : Opened) :
    Except Error (ℤ × Str × FileSegment) × Opened :=
  let n := n.ensureActiveSegment
  match n.queue.current? with
  | none => (.error (.runtimeError "active segment missing after ensure"), n)
  | some s =>
    let (offset, n) := n.allocateOffset
    match task with
    | .other _ => (.error (.typeError "Object is not JSON serializable"), n)
    | .json doc =>
      let record := recordText offset doc clock.stamp
      let n := if rotates n.queue.segmentMaxBytes s record then n.rotateSegment else n
      match n.queue.current? with
      | none => (.error (.runtimeError "active segment missing after rotate"), n)
      | some s => (.ok (offset, record, s), n)

def enqueue (float : PyFloat) (clock : Clock) (task : Task) (offset : ℤ) (size : ℕ)
    (s : FileSegment) (n : Opened) : Opened :=
  let availableAt := extractAvailableAt float task clock
  let q := n.queue.setSegment (s.addRecord offset size)
  let q := q.setEntry offset { task, segmentSeq := s.seq, availableAt }
  maybeRotate { n with queue := q.pushReady offset availableAt }

def put (float : PyFloat) (clock : Clock) (task : Task) (n : Opened) :
    Except Error ℤ × Opened :=
  match n.prepare clock task with
  | (.error e, n) => (.error e, n)
  | (.ok (offset, record, s), n) =>
    let n := { n with disk := appendLog s.seq record n.disk }
    (.ok offset, n.enqueue float clock task offset record.length s)

def settle (offset : ℤ) (s : FileSegment) (n : Opened) : Opened :=
  let s := s.ack offset
  let q := n.queue.setSegment s
  persistSegmentState s { n with queue := { q with entries := q.entries.erase offset } }

def ack (offset : ℤ) (token : Str) (n : Opened) : Opened :=
  match n.queue.entries.get? offset with
  | none => n
  | some e =>
    if e.token ≠ some token then n
    else
      match n.queue.segmentsBySeq.get? e.segmentSeq with
      | none => n
      | some s => maybeCompactHead (n.settle offset s)

def nack (now : ℚ) (offset : ℤ) (token : Str) (requeue : Bool) (n : Opened) : Opened :=
  match n.queue.entries.get? offset with
  | none => n
  | some e =>
    if e.token ≠ some token then n
    else if requeue then
      let availableAt := max e.availableAt now
      let e := { e with token := none, leaseDeadline := 0, acked := false, availableAt }
      { n with queue := (n.queue.setEntry offset e).pushReady offset availableAt }
    else
      match n.queue.segmentsBySeq.get? e.segmentSeq with
      | none =>
        let e := { e with token := none, leaseDeadline := 0, acked := true }
        { n with queue := n.queue.setEntry offset e }
      | some s => maybeCompactHead (n.settle offset s)

def lease (now : ℚ) (count leaseMs : ℤ) (n : Opened) : List LeasedTask × Opened :=
  let r := n.queue.lease now count leaseMs
  (r.1, { n with queue := r.2 })

def reschedule (offset : ℤ) (availableAt : ℚ) (n : Opened) : Opened :=
  { n with queue := n.queue.reschedule offset availableAt }

def workQueue (float : PyFloat) : WorkQueue Opened where
  put := put float
  lease := lease
  ack := ack
  nack := nack
  reschedule := reschedule
  pendingCount n := n.queue.pendingCount

end Opened

end TraceMind.Queue
