import TraceMind.Foundation.Texts
import TraceMind.Queue.File

namespace TraceMind.Queue

def signless : Str → Bool × Str
  | '-' :: ds => (true, ds)
  | '+' :: ds => (false, ds)
  | ds => (false, ds)

def plainDigits : Bool → Str → Option Str
  | digit, [] => if digit then some [] else none
  | digit, c :: cs =>
    if c.isDigit then (plainDigits true cs).map (c :: ·)
    else if c = '_' ∧ digit then plainDigits false cs
    else none

def intOfText (s : Str) : Option ℤ :=
  let (negative, ds) := signless (strip s)
  (plainDigits false ds).map (fun ds =>
    if negative then -(Json.natValue ds : ℤ) else Json.natValue ds)

def typeName : Json → String
  | .null => "NoneType"
  | .bool _ => "bool"
  | .nan | .infinity _ | .float _ => "float"
  | .int _ => "int"
  | .str _ => "str"
  | .arr _ => "list"
  | .obj _ => "dict"

def pyInt (float : PyFloat) (v : Json) : Except Error ℤ :=
  match v with
  | .int n => .ok n
  | .bool b => .ok (if b then 1 else 0)
  | .nan => .error (.valueError "cannot convert float NaN to integer")
  | .infinity _ => .error (.overflowError "cannot convert float infinity to integer")
  | .float t =>
    match float (.float t) with
    | some x => .ok (x.num.tdiv x.den)
    | none => .error (.overflowError "cannot convert float infinity to integer")
  | .str s =>
    match intOfText s with
    | some n => .ok n
    | none => .error (.valueError "invalid literal for int() with base 10")
  | v => .error (.typeError
      ("int() argument must be a string, a bytes-like object or a real number, not " ++
        typeName v))

def offsetOf (float : PyFloat) (data : Json) : Except Error ℤ :=
  match data with
  | .obj fs =>
    match fs.lookup "offset".toList with
    | none => .error (.keyError "offset")
    | some v => pyInt float v
  | v => .error (.typeError (typeName v ++ " has no item offset"))

def taskOf (data : Json) : Document :=
  match data with
  | .obj fs => ((fs.lookup "task".toList).bind Document.ofJson?).getD Document.empty
  | _ => Document.empty

def isBlankByte (c : Char) : Bool :=
  let n := c.toNat
  (9 ≤ n && n ≤ 13) || n == 32

-- `none` is a line that is passed over: a blank one, or one that does not decode.
def readLine (float : PyFloat) (line : Str) : Except Error (Option (ℤ × Document)) :=
  if line.all isBlankByte then .ok none
  else
    match Json.loads line with
    | none => .ok none
    | some data => do
      let offset ← offsetOf float data
      pure (some (offset, taskOf data))

def readLog (float : PyFloat) (log : Str) : Except Error (List (ℤ × Document)) := do
  let found ← (lines Opened.newline log).mapM (readLine float)
  pure (found.filterMap id)

def addAcked (float : PyFloat) (r : OffsetSet × Bool) (v : Json) :
    Except Error (OffsetSet × Bool) :=
  match pyInt float v with
  | .ok n => if n < 0 then .ok (r.1, true) else .ok (r.1.insert n (), r.2)
  | .error (.typeError _) => .ok (r.1, true)
  | .error (.valueError _) => .ok (r.1, true)
  | .error e => .error e

def loadIndexMetadata (float : PyFloat) (v2Enabled : Bool) (index : Option Str) :
    Except Error (OffsetSet × Bool) :=
  match index with
  | none => .ok (SortedMap.empty, v2Enabled)
  | some text =>
    match Json.loads text with
    | none => .ok (SortedMap.empty, v2Enabled)
    | some (.obj fs) =>
      match fs.lookup "acked".toList with
      | none => .ok (SortedMap.empty, false)
      | some (.arr vs) => vs.foldlM (addAcked float) (SortedMap.empty, false)
      | some _ => .ok (SortedMap.empty, true)
    | some v => .error (.attributeError (typeName v ++ " object has no attribute get"))

namespace Opened

def loadRecord (float : PyFloat) (clock : Clock) (seq : ℕ) (acked : OffsetSet)
    (q : FileWorkQueue) (r : ℤ × Document) : FileWorkQueue :=
  if acked.contains r.1 then q
  else
    let availableAt := extractAvailableAt float (.json r.2) clock
    (q.setEntry r.1 { task := .json r.2, segmentSeq := seq, availableAt }).pushReady
      r.1 availableAt

def segmentOf (q : FileWorkQueue) (seq size : ℕ) (records : List (ℤ × Document))
    (acked : OffsetSet) : FileSegment :=
  let offsets := records.map Prod.fst
  { seq
    startOffset := offsets.head?.getD q.nextOffset
    endOffset := offsets.getLast?.getD (q.nextOffset - 1)
    sizeBytes := size
    recordCount := records.length
    pending := records.countP (fun r => !acked.contains r.1)
    acked := acked.filterKeys (fun o => offsets.contains o) }

def buildSegmentFromFiles (float : PyFloat) (clock : Clock) (seq : ℕ) (log : Str) (n : Opened) :
    Except Error (FileSegment × Opened) := do
  let (acked, rewrite) ← loadIndexMetadata float n.queue.v2Enabled (n.disk.indexes.get? seq)
  let records ← readLog float log
  let n := { n with queue := records.foldl (loadRecord float clock seq acked) n.queue }
  let s := segmentOf n.queue seq log.length records acked
  let missing := acked.keys.any (fun o => !(records.map Prod.fst).contains o)
  if n.queue.v2Enabled && (rewrite || missing) then pure (s, n.persistSegmentState s)
  else pure (s, n)

def loadSegment (float : PyFloat) (clock : Clock) (n : Opened) (file : ℕ × Str) :
    Except Error Opened := do
  let (s, n) ← n.buildSegmentFromFiles float clock file.1 file.2
  let q := n.queue.setSegment s
  pure { n with queue := { q with segments := q.segments ++ [file.1] } }

def isListed (file : ℕ × Str) : Bool := file.1 < 10 ^ 6

def maxOffset (q : FileWorkQueue) : ℤ :=
  (q.segmentsBySeq.entries.map (fun s => s.2.endOffset)).foldl max (-1)

def raiseNextOffset (n : Opened) : Opened :=
  let top := maxOffset n.queue
  if 0 ≤ top then { n with queue := { n.queue with nextOffset := top + 1 } } else n

def openLast (n : Opened) : Opened :=
  match n.queue.segments.getLast? with
  | none => n
  | some seq =>
    match n.queue.segmentsBySeq.get? seq with
    | none => n
    | some s => n.openSegmentFile s

def loadExistingSegments (float : PyFloat) (clock : Clock) (n : Opened) :
    Except Error Opened := do
  let n ← (n.disk.logs.entries.filter isListed).foldlM (loadSegment float clock) n
  pure n.raiseNextOffset.openLast

def initializeMeta (n : Opened) : Opened :=
  let maxSeq := n.queue.segments.foldl max 0
  { n with disk := { n.disk with metaSeq := raiseCounter n.disk.metaSeq maxSeq } }

def initializeOffset (n : Opened) : Opened :=
  let initial := (maxOffset n.queue + 1).toNat
  ⟨{ n.queue with nextOffset := max n.disk.offset initial },
    { n.disk with offset := raiseCounter n.disk.offset initial }⟩

def init (cfg : Config) (clock : Clock) (d : Disk) : Except Error Opened := do
  let q : FileWorkQueue :=
    { segmentMaxBytes := (max cfg.segmentMaxBytes 1024).toNat, v2Enabled := cfg.v2Enabled }
  let n ← loadExistingSegments cfg.float clock ⟨q, d⟩
  let n := n.initializeMeta.initializeOffset
  pure (if n.queue.currentSegment = none then n.rotateSegment else n)

end Opened

def secondStamp : FloatText := ⟨['0', '.', '0'], by decide⟩

def clockAt (t : ℚ) : Clock := ⟨secondStamp, t, t⟩

def plainConfig : Config := ⟨fun _ => none, 1024, false⟩

def plainTask : Task := .json Document.empty

end TraceMind.Queue
