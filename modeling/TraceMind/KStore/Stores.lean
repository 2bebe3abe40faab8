import TraceMind.Queue.Base
import TraceMind.Foundation.OrderedDict
import TraceMind.Foundation.Texts
import Mathlib.Data.Char
import Mathlib.Data.List.Lex

namespace TraceMind.KStore

open Queue (Document)
open Like (like like_self)

inductive Op where
  | put (key : Str) (value : Document)
  | get (key : Str)
  | scan (pfx : Str)
  | delete (key : Str)

inductive Result where
  | done
  | value (value : Option Json)
  | pairs (items : List (Str × Json))
  | removed (existed : Bool)
  | jsonDecodeError

inductive Record where
  | put (key : Str) (value : Document)
  | delete (key : Str)

def Record.json : Record → Json
  | .put key value =>
    .obj [("op".toList, .str "put".toList), ("key".toList, .str key), ("value".toList, value.json)]
  | .delete key => .obj [("op".toList, .str "delete".toList), ("key".toList, .str key)]

structure JsonlKStore where
  records : List Record
  state : OrderedDict Str Document
  path : Option Str

namespace JsonlKStore

def init : JsonlKStore := ⟨[], OrderedDict.empty, none⟩

def flush (s : JsonlKStore) : JsonlKStore :=
  { s with path := some (s.records.flatMap (fun r => Json.dumps r.json ++ ['\n'])) }

def put (s : JsonlKStore) (key : Str) (value : Document) : JsonlKStore :=
  flush { s with records := s.records ++ [.put key value], state := s.state.assign key value }

def get (s : JsonlKStore) (key : Str) : Option Json := (s.state.get? key).map Document.json

def scan (s : JsonlKStore) (pfx : Str) : List (Str × Json) :=
  let items := (s.state.entries.filter (fun e => startsWith pfx e.1)).map
    (fun e => (e.1, e.2.json))
  items.mergeSort (fun a b => a.1 ≤ b.1)

def delete (s : JsonlKStore) (key : Str) : Bool × JsonlKStore :=
  ((s.state.get? key).isSome,
    flush { s with records := s.records ++ [.delete key], state := s.state.erase key })

def step (s : JsonlKStore) : Op → Result × JsonlKStore
  | .put key value => (.done, s.put key value)
  | .get key => (.value (s.get key), s)
  | .scan pfx => (.pairs (s.scan pfx), s)
  | .delete key => (.removed (s.delete key).1, (s.delete key).2)

def run (s : JsonlKStore) : List Op → List Result
  | [] => []
  | op :: ops => (s.step op).1 :: (s.step op).2.run ops

end JsonlKStore

structure SQLiteKStore where
  rows : SortedMap Str Str

namespace SQLiteKStore

def init : SQLiteKStore := ⟨SortedMap.empty⟩

def put (s : SQLiteKStore) (key : Str) (value : Document) : SQLiteKStore :=
  ⟨s.rows.insert key (Json.dumps value.json)⟩

def get (s : SQLiteKStore) (key : Str) : Result :=
  match s.rows.get? key with
  | none => .value none
  | some text =>
    match Json.loads text with
    | none => .jsonDecodeError
    | some v => .value (some v)

def loadRow (row : Str × Str) : Option (Str × Json) := (Json.loads row.2).map (row.1, ·)

def scan (s : SQLiteKStore) (pfx : Str) : Result :=
  let rows := s.rows.entries.filter (fun row => like (pfx ++ ['%']) row.1)
  match rows.mapM loadRow with
  | none => .jsonDecodeError
  | some items => .pairs items

def delete (s : SQLiteKStore) (key : Str) : Bool × SQLiteKStore :=
  (s.rows.contains key, ⟨s.rows.erase key⟩)

def step (s : SQLiteKStore) : Op → Result × SQLiteKStore
  | .put key value => (.done, s.put key value)
  | .get key => (s.get key, s)
  | .scan pfx => (s.scan pfx, s)
  | .delete key => (.removed (s.delete key).1, (s.delete key).2)

def run (s : SQLiteKStore) : List Op → List Result
  | [] => []
  | op :: ops => (s.step op).1 :: (s.step op).2.run ops

end SQLiteKStore

abbrev Table := SortedMap Str Document

namespace Table

def scan (t : Table) (pfx : Str) : List (Str × Json) :=
  (t.entries.filter (fun e => startsWith pfx e.1)).map (fun e => (e.1, e.2.json))

def step (t : Table) : Op → Result × Table
  | .put key value => (.done, t.insert key value)
  | .get key => (.value ((t.get? key).map Document.json), t)
  | .scan pfx => (.pairs (t.scan pfx), t)
  | .delete key => (.removed (t.contains key), t.erase key)

def run (t : Table) : List Op → List Result
  | [] => []
  | op :: ops => (t.step op).1 :: run (t.step op).2 ops

def PlainScan (t : Table) : Op → Prop
  | .scan pfx => ∀ key ∈ t.keys, like (pfx ++ ['%']) key = true → startsWith pfx key = true
  | _ => True

def PlainScans (t : Table) : List Op → Prop
  | [] => True
  | op :: ops => t.PlainScan op ∧ PlainScans (t.step op).2 ops

end Table

section agreement

def JsonlKStore.Holds (s : JsonlKStore) (t : Table) : Prop := ∀ k, s.state.get? k = t.get? k

def SQLiteKStore.Holds (s : SQLiteKStore) (t : Table) : Prop :=
  s.rows = t.map (fun d => Json.dumps d.json)

variable {t : Table}

theorem JsonlKStore.Holds.perm {s : JsonlKStore} (h : s.Holds t) :
    s.state.entries.Perm t.entries := by
  refine (List.perm_ext_iff_of_nodup s.state.entries_nodup t.entries_nodup).mpr (fun e => ?_)
  obtain ⟨k, v⟩ := e
  rw [← OrderedDict.get?_eq_some, ← SortedMap.get?_eq_some_iff, h k]

theorem Table.scan_sorted (t : Table) (pfx : Str) :
    (t.scan pfx).Pairwise (fun a b => a.1 < b.1) := by
  rw [Table.scan, List.pairwise_map]
  exact t.sorted.filter _

theorem JsonlKStore.Holds.scan {s : JsonlKStore} (h : s.Holds t) (pfx : Str) :
    s.scan pfx = t.scan pfx := by
  have hperm : (s.scan pfx).Perm (t.scan pfx) :=
    (List.mergeSort_perm _ _).trans ((h.perm.filter _).map _)
  have hle : (s.scan pfx).Pairwise (fun a b => decide (a.1 ≤ b.1) = true) :=
    List.pairwise_mergeSort
      (fun a b c hab hbc => decide_eq_true ((of_decide_eq_true hab).trans (of_decide_eq_true hbc)))
      (fun a b => by simpa using le_total a.1 b.1) _
  have hne : (s.scan pfx).Pairwise (fun a b => a.1 ≠ b.1) := by
    have hkeys : ((t.scan pfx).map Prod.fst).Nodup :=
      List.pairwise_map.mpr ((t.scan_sorted pfx).imp ne_of_lt)
    exact List.pairwise_map.mp ((hperm.map Prod.fst).nodup_iff.mpr hkeys)
  have hlt : (s.scan pfx).Pairwise (fun a b => a.1 < b.1) :=
    (hle.and hne).imp (fun hab => lt_of_le_of_ne (of_decide_eq_true hab.1) hab.2)
  exact hperm.eq_of_pairwise
    (fun a b _ _ hab hba => absurd (hab.trans hba) (lt_irrefl a.1)) hlt (t.scan_sorted pfx)

theorem JsonlKStore.Holds.step {s : JsonlKStore} (h : s.Holds t) (op : Op) :
    (s.step op).1 = (t.step op).1 ∧ (s.step op).2.Holds (t.step op).2 := by
  cases op with
  | put key value =>
    refine ⟨rfl, fun k => ?_⟩
    show (s.state.assign key value).get? k = (SortedMap.insert t key value).get? k
    rw [OrderedDict.get?_assign, SortedMap.get?_insert, h k]
    split_ifs <;> rfl
  | get key =>
    refine ⟨?_, h⟩
    show Result.value ((s.state.get? key).map _) = Result.value ((SortedMap.get? t key).map _)
    rw [h key]
  | scan pfx => exact ⟨congrArg Result.pairs (h.scan pfx), h⟩
  | delete key =>
    constructor
    · show Result.removed (s.state.get? key).isSome = Result.removed (SortedMap.get? t key).isSome
      rw [h key]
    · intro k
      show (s.state.erase key).get? k = (SortedMap.erase t key).get? k
      rw [OrderedDict.get?_erase, SortedMap.get?_erase, h k]
      split_ifs <;> rfl

theorem JsonlKStore.Holds.run {s : JsonlKStore} (h : s.Holds t) (ops : List Op) :
    s.run ops = t.run ops := by
  induction ops generalizing s t with
  | nil => rfl
  | cons op ops ih =>
    obtain ⟨hres, hnext⟩ := h.step op
    exact congrArg₂ List.cons hres (ih hnext)

theorem Document.loads (d : Document) : Json.loads (Json.dumps d.json) = some d.json :=
  Json.loads_dumps d.wf

def Table.like (t : Table) (pfx : Str) : List (Str × Json) :=
  (t.entries.filter (fun e => Like.like (pfx ++ ['%']) e.1)).map (fun e => (e.1, e.2.json))

theorem mapM_loadRow (es : List (Str × Document)) :
    (es.map (fun e => (e.1, Json.dumps e.2.json))).mapM SQLiteKStore.loadRow =
      some (es.map (fun e => (e.1, e.2.json))) := by
  induction es with
  | nil => rfl
  | cons e es ih =>
    have hrow : SQLiteKStore.loadRow (e.1, Json.dumps e.2.json) = some (e.1, e.2.json) := by
      rw [SQLiteKStore.loadRow, Document.loads, Option.map_some]
    rw [List.map_cons, List.mapM_cons, hrow, ih]
    rfl

theorem SQLiteKStore.Holds.scan {s : SQLiteKStore} (h : s.Holds t) (pfx : Str) :
    s.scan pfx = .pairs (t.like pfx) := by
  have hrows : s.rows.entries.filter (fun row => Like.like (pfx ++ ['%']) row.1) =
      (t.entries.filter (fun e => Like.like (pfx ++ ['%']) e.1)).map
        (fun e => (e.1, Json.dumps e.2.json)) := by
    rw [h, SortedMap.map, List.filter_map]
    rfl
  simp only [SQLiteKStore.scan, hrows, mapM_loadRow]
  rfl

theorem SQLiteKStore.Holds.get {s : SQLiteKStore} (h : s.Holds t) (key : Str) :
    s.get key = .value ((t.get? key).map Document.json) := by
  have hrow : s.rows.get? key = (t.get? key).map (fun d => Json.dumps d.json) := by
    rw [h, SortedMap.get?_map]
  rw [SQLiteKStore.get, hrow]
  cases t.get? key with
  | none => rfl
  | some d => simp only [Option.map_some, Document.loads]

theorem SQLiteKStore.Holds.contains {s : SQLiteKStore} (h : s.Holds t) (key : Str) :
    s.rows.contains key = t.contains key := by
  rw [h, SortedMap.contains, SortedMap.contains, SortedMap.get?_map, Option.isSome_map]

theorem SQLiteKStore.Holds.next {s : SQLiteKStore} (h : s.Holds t) (op : Op) :
    (s.step op).2.Holds (t.step op).2 := by
  cases op with
  | put key value =>
    show s.rows.insert key _ = SortedMap.map _ (SortedMap.insert t key value)
    rw [h, SortedMap.map_insert]
  | get key => exact h
  | scan pfx => exact h
  | delete key =>
    show s.rows.erase key = SortedMap.map _ (SortedMap.erase t key)
    rw [h, SortedMap.map_erase]

theorem like_of_startsWith {pfx key : Str} (h : startsWith pfx key = true) :
    Like.like (pfx ++ ['%']) key = true := by
  obtain ⟨rest, rfl⟩ := List.isPrefixOf_iff_prefix.mp h
  exact like_self pfx rest

theorem Table.like_eq_scan {pfx : Str} :
    t.like pfx = t.scan pfx ↔ t.PlainScan (.scan pfx) := by
  constructor
  · intro heq key hkey hlike
    obtain ⟨e, he, rfl⟩ := List.mem_map.mp hkey
    have hmem : (e.1, e.2.json) ∈ t.scan pfx :=
      heq ▸ List.mem_map.mpr ⟨e, List.mem_filter.mpr ⟨he, hlike⟩, rfl⟩
    obtain ⟨f, hf, hfe⟩ := List.mem_map.mp hmem
    rw [← (Prod.mk.inj hfe).1]
    exact (List.mem_filter.mp hf).2
  · intro hplain
    refine congrArg (List.map _) (List.filter_congr (fun e he => ?_))
    apply Bool.eq_iff_iff.mpr
    exact ⟨hplain e.1 (List.mem_map_of_mem he), like_of_startsWith⟩

theorem SQLiteKStore.Holds.step {s : SQLiteKStore} (h : s.Holds t) (op : Op) :
    (s.step op).1 = (t.step op).1 ↔ t.PlainScan op := by
  cases op with
  | put key value => exact iff_of_true rfl trivial
  | get key => exact iff_of_true (h.get key) trivial
  | scan pfx =>
    rw [← Table.like_eq_scan]
    constructor
    · intro hres
      exact Result.pairs.inj ((h.scan pfx).symm.trans hres)
    · intro heq
      exact (h.scan pfx).trans (congrArg Result.pairs heq)
  | delete key => exact iff_of_true (congrArg Result.removed (h.contains key)) trivial

theorem SQLiteKStore.Holds.run {s : SQLiteKStore} (h : s.Holds t) (ops : List Op) :
    s.run ops = t.run ops ↔ t.PlainScans ops := by
  induction ops generalizing s t with
  | nil => exact iff_of_true rfl trivial
  | cons op ops ih =>
    rw [SQLiteKStore.run, Table.run, Table.PlainScans, List.cons.injEq, h.step op, ih (h.next op)]

end agreement

end TraceMind.KStore
