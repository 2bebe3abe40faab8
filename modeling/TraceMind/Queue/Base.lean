import TraceMind.Basic
import TraceMind.Foundation.JsonSpec
import TraceMind.Foundation.Sorting
import TraceMind.Foundation.SortedMap
import Mathlib.Algebra.Order.Ring.Unbundled.Rat
import Mathlib.Data.Prod.Lex

namespace TraceMind.Queue

structure Document where
  fields : List (Str × Json)
  wf : Json.wf (.obj fields) = true

namespace Document

theorem ext {a b : Document} (h : a.fields = b.fields) : a = b := by
  cases a
  cases b
  cases h
  rfl

def json (d : Document) : Json := .obj d.fields

def empty : Document := ⟨[], rfl⟩

def get? (d : Document) (key : Str) : Option Json := d.fields.lookup key

def ofJson? (v : Json) : Option Document :=
  match v with
  | .obj fs => if h : Json.wf (.obj fs) = true then some ⟨fs, h⟩ else none
  | _ => none

theorem ofJson?_json (d : Document) : ofJson? d.json = some d := by
  simp only [ofJson?, json]
  exact dif_pos d.wf

end Document

inductive Task where
  | json (doc : Document)
  | other (scheduledAt : Option ℚ)

structure LeasedTask where
  offset : ℤ
  task : Task
  leaseDeadline : ℚ
  token : Str

inductive Error where
  | runtimeError (message : String)
  | typeError (message : String)
  | keyError (key : String)
  | valueError (message : String)
  | overflowError (message : String)
  | attributeError (message : String)
deriving DecidableEq

structure FloatText where
  text : Str
  valid : Json.wf (.float text) = true

structure Clock where
  stamp : FloatText
  wall : ℚ
  monotonic : ℚ

-- Python's `float`, of which nothing but its results is used; `none` is an exception.
abbrev PyFloat := Json → Option ℚ

def scheduledAt (float : PyFloat) (task : Task) : ℚ :=
  match task with
  | .json doc =>
    match doc.get? "scheduled_at".toList with
    | none => 0
    | some v => (float v).getD 0
  | .other scheduled => scheduled.getD 0

def extractAvailableAt (float : PyFloat) (task : Task) (clock : Clock) : ℚ :=
  let scheduled := scheduledAt float task
  if scheduled ≤ 0 then clock.monotonic
  else clock.monotonic + max 0 (scheduled - clock.wall)

def leaseToken (n : ℕ) : Str := "lease-".toList ++ Nat.toDigits 10 n

def leaseDelta (leaseMs : ℤ) : ℚ := (max leaseMs 0 : ℤ) / 1000

abbrev ReadyItem := ℚ ×ₗ ℤ

def ReadyItem.availableAt (i : ReadyItem) : ℚ := (ofLex i).1

def ReadyItem.offset (i : ReadyItem) : ℤ := (ofLex i).2

def readyItem (availableAt : ℚ) (offset : ℤ) : ReadyItem := toLex (availableAt, offset)

abbrev ReadyHeap := PriorityQueue ReadyItem

def ReadyHeap.offsets (h : ReadyHeap) : List ℤ := h.items.map ReadyItem.offset

abbrev OffsetSet := SortedMap ℤ Unit

inductive Call where
  | put (task : Task)
  | lease (count leaseMs : ℤ)
  | ack (offset : ℤ) (token : Str)
  | nack (offset : ℤ) (token : Str) (requeue : Bool)
  | reschedule (offset : ℤ) (availableAt : ℚ)

inductive Response where
  | offset (o : ℤ)
  | raised (e : Error)
  | leased (tasks : List LeasedTask)
  | done

structure WorkQueue (σ : Type) where
  put : Clock → Task → σ → Except Error ℤ × σ
  lease : ℚ → ℤ → ℤ → σ → List LeasedTask × σ
  ack : ℤ → Str → σ → σ
  nack : ℚ → ℤ → Str → Bool → σ → σ
  reschedule : ℤ → ℚ → σ → σ
  pendingCount : σ → ℕ

namespace WorkQueue

variable {σ : Type}

def call (w : WorkQueue σ) (clock : Clock) (c : Call) (s : σ) : Response × σ :=
  match c with
  | .put task =>
    match w.put clock task s with
    | (.ok o, s') => (.offset o, s')
    | (.error e, s') => (.raised e, s')
  | .lease count leaseMs =>
    let r := w.lease clock.monotonic count leaseMs s
    (.leased r.1, r.2)
  | .ack offset token => (.done, w.ack offset token s)
  | .nack offset token requeue => (.done, w.nack clock.monotonic offset token requeue s)
  | .reschedule offset availableAt => (.done, w.reschedule offset availableAt s)

def leasedBy (w : WorkQueue σ) (c : Clock × Call) (s : σ) : List LeasedTask :=
  match (w.call c.1 c.2 s).1 with
  | .leased tasks => tasks
  | _ => []

def after (w : WorkQueue σ) (calls : List (Clock × Call)) (s : σ) : σ :=
  calls.foldl (fun s c => (w.call c.1 c.2 s).2) s

theorem after_cons (w : WorkQueue σ) (c : Clock × Call) (calls : List (Clock × Call)) (s : σ) :
    w.after (c :: calls) s = w.after calls (w.call c.1 c.2 s).2 := rfl

theorem after_append (w : WorkQueue σ) (a b : List (Clock × Call)) (s : σ) :
    w.after (a ++ b) s = w.after b (w.after a s) := List.foldl_append ..

end WorkQueue

end TraceMind.Queue
