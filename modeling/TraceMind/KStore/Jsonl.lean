import TraceMind.Artifacts.Hash
import TraceMind.Foundation.Fallible
import TraceMind.Foundation.Texts
import TraceMind.Foundation.Objects
import TraceMind.Queue.Base

namespace TraceMind.KStore.Jsonl

open Python (Key Object)
open Queue (Document)
open Artifacts (newline replaceCr replaceCrlf)

inductive Error where
  | typeError (message : String)
  | notSerializable
  | osError
  | jsonDecodeError

abbrev Mapping := OrderedDict Str Object

namespace Mapping

def fields (m : Mapping) : List (Key × Object) := m.entries.map (fun e => (Key.str e.1, e.2))

end Mapping

def ensureMapping (value : List (Key × Object)) : Mapping :=
  value.foldl (fun m f => m.assign f.1.shown f.2) .empty

inductive Record where
  | read (doc : Document)
  | put (key : Str) (value : Mapping)
  | delete (key : Str)

namespace Record

def json : Record → Option (List (Str × Json))
  | .read doc => some doc.fields
  | .put key value =>
    (Python.objectFields value.fields).map (fun fs =>
      [("op".toList, .str "put".toList), ("key".toList, .str key), ("value".toList, .obj fs)])
  | .delete key => some [("op".toList, .str "delete".toList), ("key".toList, .str key)]

end Record

abbrev Contents := OrderedDict Str Mapping

structure JsonlKStore where
  records : List Record
  state : Contents
  path : Option Str

def applyRecord (state : Contents) (record : Document) : Except Error Contents :=
  match record.get? "key".toList with
  | some (.str key) =>
    match record.get? "op".toList with
    | some (.str op) =>
      if op = "put".toList then
        match record.get? "value".toList with
        | some (.obj value) => .ok (state.assign key (ensureMapping (Python.fieldsOf value)))
        | _ => .error (.typeError "jsonl record 'value' must be a mapping")
      else if op = "delete".toList then .ok (state.erase key)
      else .ok state
    | _ => .ok state
  | _ => .ok state

def loadLines (s : JsonlKStore) : List Str → Except Error JsonlKStore
  | [] => .ok s
  | line :: rest =>
    if strip line = [] then loadLines s rest
    else
      match Json.loads (strip line) with
      | none => .error .jsonDecodeError
      | some record =>
        match Document.ofJson? record with
        | none => loadLines s rest
        | some doc => do
          let state ← applyRecord s.state doc
          loadLines { s with records := s.records ++ [.read doc], state := state } rest

def load (path : Option Str) : Except Error JsonlKStore :=
  match path with
  | none => .ok ⟨[], .empty, none⟩
  | some text =>
    loadLines ⟨[], .empty, some text⟩ (lines newline (replaceCr (replaceCrlf text)))

inductive Fault where
  | mkdir
  | open
  | write (after : ℕ)
  | fsync
  | replace

def beforeWriting : Option Fault → Bool
  | some .mkdir => true
  | some .open => true
  | _ => false

def writes : Option Fault → Option ℕ
  | some (.write after) => some after
  | _ => none

def writeRecords (left : Option ℕ) : List Record → Except Error Str
  | [] => .ok []
  | r :: rs =>
    match r.json with
    | none => .error .notSerializable
    | some fs =>
      if left = some 0 ∨ left = some 1 then .error .osError
      else do
        let rest ← writeRecords (left.map (· - 2)) rs
        return Json.dumps (.obj fs) ++ newline :: rest

def flush (fault : Option Fault) (records : List Record) : Except Error Str :=
  if beforeWriting fault then .error .osError
  else
    match writeRecords (writes fault) records with
    | .error e => .error e
    | .ok text => if fault.isSome then .error .osError else .ok text

inductive Reply where
  | done
  | removed (existed : Bool)
  | raised (e : Error)

namespace JsonlKStore

-- `none` is a key that is not a string, and a value that is not a mapping.
def put (s : JsonlKStore) (key : Option Str) (value : Option (List (Key × Object)))
    (fault : Option Fault) : Reply × JsonlKStore :=
  match key, value with
  | none, _ => (.raised (.typeError "key must be a string"), s)
  | some _, none => (.raised (.typeError "kstore values must be mappings"), s)
  | some key, some value =>
    let prev := s.state.get? key
    let stored := ensureMapping value
    let records := s.records ++ [.put key stored]
    let state := s.state.assign key (ensureMapping stored.fields)
    match flush fault records with
    | .ok text => (.done, ⟨records, state, some text⟩)
    | .error e =>
      match prev with
      | none => (.raised e, ⟨records.dropLast, state.erase key, s.path⟩)
      | some prev => (.raised e, ⟨records.dropLast, state.assign key prev, s.path⟩)

def delete (s : JsonlKStore) (key : Option Str) (fault : Option Fault) : Reply × JsonlKStore :=
  match key with
  | none => (.raised (.typeError "key must be a string"), s)
  | some key =>
    let prev := s.state.get? key
    let records := s.records ++ [.delete key]
    let state := s.state.erase key
    match flush fault records with
    | .ok text => (.removed prev.isSome, ⟨records, state, some text⟩)
    | .error e =>
      match prev with
      | none => (.raised e, ⟨records.dropLast, state, s.path⟩)
      | some prev => (.raised e, ⟨records.dropLast, state.assign key prev, s.path⟩)

end JsonlKStore

inductive Call where
  | put (key : Option Str) (value : Option (List (Key × Object))) (fault : Option Fault)
  | delete (key : Option Str) (fault : Option Fault)

def Call.run (c : Call) (s : JsonlKStore) : Reply × JsonlKStore :=
  match c with
  | .put key value fault => s.put key value fault
  | .delete key fault => s.delete key fault

def Same (a b : Contents) : Prop := ∀ key, a.get? key = b.get? key

def Untouched (s t : JsonlKStore) : Prop :=
  Same t.state s.state ∧ t.records = s.records ∧ t.path = s.path

def Reopens (s : JsonlKStore) : Prop := ∃ t, load s.path = .ok t ∧ Same t.state s.state

def Faithful (s : JsonlKStore) : List Call → Prop
  | [] => Reopens s
  | c :: cs =>
    Reopens s ∧ (∀ e, (c.run s).1 = .raised e → Untouched s (c.run s).2) ∧
      Faithful (c.run s).2 cs

def Call.Plain : Call → Prop
  | .put (some _) (some value) none =>
    (Python.objectFields (ensureMapping value).fields).isSome = true →
      Python.plainFields (ensureMapping value).fields = true
  | _ => True

theorem assign_new {m : Mapping} {key : Str} {v : Object} (h : key ∉ m.entries.map Prod.fst) :
    (m.assign key v).entries = m.entries ++ [(key, v)] := by
  have hnone : m.get? key = none := by
    cases hg : m.get? key with
    | none => rfl
    | some w => exact absurd (List.mem_map_of_mem (OrderedDict.get?_eq_some.mp hg)) h
  have hkeep : m.entries.filter (fun e => e.1 ≠ key) = m.entries :=
    List.filter_eq_self.mpr fun e he =>
      decide_eq_true fun hk => h (List.mem_map.mpr ⟨e, he, hk⟩)
  rw [OrderedDict.assign, hnone, if_neg (by decide)]
  exact congrArg (· ++ [(key, v)]) hkeep

theorem foldl_assign (fs : List (Key × Object)) (m : Mapping) (ht : ∀ f ∈ fs, Python.isText f.1)
    (hnd : (m.entries.map Prod.fst ++ fs.map (fun f => f.1.shown)).Nodup) :
    (fs.foldl (fun m f => m.assign f.1.shown f.2) m).fields = m.fields ++ fs := by
  induction fs generalizing m with
  | nil => exact (List.append_nil _).symm
  | cons f fs ih =>
    obtain ⟨k, v⟩ := f
    obtain ⟨hk, hts⟩ := List.forall_mem_cons.mp ht
    cases k with
    | other shown written => cases hk
    | str k =>
      have hnew : k ∉ m.entries.map Prod.fst := fun hm =>
        (List.nodup_append.mp hnd).2.2 k hm k List.mem_cons_self rfl
      have hentries : (m.assign k v).entries = m.entries ++ [(k, v)] := assign_new hnew
      have hkeys : (m.assign k v).entries.map Prod.fst ++ fs.map (fun f => f.1.shown) =
          m.entries.map Prod.fst ++ ((Key.str k, v) :: fs).map (fun f => f.1.shown) := by
        simp [hentries, Key.shown]
      have hfields : Mapping.fields (m.assign k v) = m.fields ++ [(Key.str k, v)] := by
        simp [Mapping.fields, hentries]
      rw [List.foldl_cons]
      change Mapping.fields (fs.foldl _ (m.assign k v)) = _
      rw [ih (m.assign k v) hts (hkeys ▸ hnd), hfields, List.append_assoc]
      rfl

theorem fields_ensureMapping {fs : List (Key × Object)}
    (h : Python.Object.plain (.dict fs) = true) : (ensureMapping fs).fields = fs := by
  obtain ⟨hnd, hfs⟩ := Bool.and_eq_true_iff.mp h
  have htext : ∀ f ∈ fs, Python.isText f.1 := by
    clear hnd h
    induction fs with
    | nil => exact List.forall_mem_nil _
    | cons f fs ih =>
      obtain ⟨hf, hfs⟩ := Bool.and_eq_true_iff.mp hfs
      exact List.forall_mem_cons.mpr ⟨(Bool.and_eq_true_iff.mp hf).1, ih hfs⟩
  exact foldl_assign fs .empty htext (of_decide_eq_true hnd)

theorem fields_injective {m n : Mapping} (h : m.fields = n.fields) : m = n := by
  refine OrderedDict.ext ?_
  have hinj : Function.Injective (fun e : Str × Object => (Key.str e.1, e.2)) := by
    rintro ⟨k, v⟩ ⟨l, w⟩ he
    cases he
    rfl
  exact List.map_injective_iff.mpr hinj h

theorem fields_keys (m : Mapping) : m.fields.map (fun f => f.1.shown) = m.entries.map Prod.fst := by
  rw [Mapping.fields, List.map_map]
  rfl

@[simp] theorem ensureMapping_fields (m : Mapping) : ensureMapping m.fields = m := by
  refine fields_injective (foldl_assign m.fields .empty ?_ ?_)
  · intro f hf
    obtain ⟨e, -, rfl⟩ := List.mem_map.mp hf
    rfl
  · rw [fields_keys]
    exact m.nodup

theorem reread_mapping {m : Mapping} {gs : List (Str × Json)}
    (h : Python.objectFields m.fields = some gs) :
    ensureMapping (Python.fieldsOf (Json.mergeFields [] gs)) = m ↔
      Python.plainFields m.fields = true := by
  have hj : Object.toJson (.dict m.fields) = some (.obj gs) := congrArg (Option.map Json.obj) h
  have hplain : Object.plain (.dict m.fields) = Python.plainFields m.fields := by
    rw [Object.plain, fields_keys, decide_eq_true m.nodup, Bool.true_and]
  have hread : Object.plain (Object.ofJson (Json.merge (.obj gs))) = true :=
    Python.plain_ofJson (Json.merge_wf (Python.toJson_readable hj))
  rw [← hplain, ← Python.reread_eq_iff hj]
  constructor
  · intro he
    rw [← he, fields_ensureMapping hread]
    rfl
  · intro he
    have hfields : Python.fieldsOf (Json.mergeFields [] gs) = m.fields := Object.dict.inj he
    rw [hfields, ensureMapping_fields]

def fileText (fss : List (List (Str × Json))) : Str :=
  fss.flatMap (fun fs => Json.dumps (.obj fs) ++ [newline])

theorem json_readable {r : Record} {fs : List (Str × Json)} (h : r.json = some fs) :
    Json.readable (.obj fs) = true := by
  cases r with
  | read doc =>
    cases h
    exact Json.readable_of_wf doc.wf
  | put key value =>
    obtain ⟨gs, hgs, rfl⟩ := Option.map_eq_some_iff.mp h
    have hvalue : Json.readable (.obj gs) = true := Python.objectFields_readable hgs
    simp only [Json.readable, Json.readableFields, Bool.true_and, Bool.and_true] at hvalue ⊢
    exact hvalue
  | delete key =>
    cases h
    rfl

theorem writeRecords_eq_ok {rs : List Record} {text : Str} :
    writeRecords none rs = .ok text ↔
      ∃ fss, List.Forall₂ (fun r fs => Record.json r = some fs) rs fss ∧ fileText fss = text := by
  induction rs generalizing text with
  | nil =>
    constructor
    · intro h
      cases h
      exact ⟨[], .nil, rfl⟩
    · rintro ⟨fss, hfss, rfl⟩
      cases hfss
      rfl
  | cons r rs ih =>
    unfold writeRecords
    cases hr : r.json with
    | none =>
      constructor
      · intro h
        cases h
      · rintro ⟨fss, hfss, rfl⟩
        cases hfss with
        | cons hfs _ => cases hr.symm.trans hfs
    | some fs =>
      simp only [reduceCtorEq, or_self, if_false, Option.map_none]
      constructor
      · intro h
        obtain ⟨rest, hrest, h⟩ := Fallible.bind_eq_ok.mp h
        obtain ⟨fss, hfss, rfl⟩ := ih.mp hrest
        cases h
        refine ⟨fs :: fss, .cons hr hfss, ?_⟩
        rw [fileText, List.flatMap_cons, List.append_assoc]
        rfl
      · rintro ⟨fss, hfss, rfl⟩
        cases hfss with
        | cons hfs hfss =>
          obtain rfl := Option.some.inj (hr.symm.trans hfs)
          refine Fallible.bind_eq_ok.mpr ⟨_, ih.mpr ⟨_, hfss, rfl⟩, ?_⟩
          simp only [fileText, List.flatMap_cons, List.append_assoc]
          rfl

theorem flush_none (rs : List Record) : flush none rs = writeRecords none rs := by
  unfold flush
  rw [if_neg (by decide)]
  change _ = writeRecords (writes none) rs
  cases writeRecords (writes none) rs <;> rfl

theorem flush_some (fault : Fault) (rs : List Record) : ∃ e, flush (some fault) rs = .error e := by
  unfold flush
  by_cases hb : beforeWriting (some fault) = true
  · exact ⟨_, if_pos hb⟩
  · rw [if_neg hb]
    cases writeRecords (writes (some fault)) rs with
    | error e => exact ⟨e, rfl⟩
    | ok text => exact ⟨.osError, rfl⟩

theorem flush_eq_ok {fault : Option Fault} {rs : List Record} {text : Str} :
    flush fault rs = .ok text ↔ fault = none ∧
      ∃ fss, List.Forall₂ (fun r fs => Record.json r = some fs) rs fss ∧ fileText fss = text := by
  cases fault with
  | none => simp [flush_none, writeRecords_eq_ok]
  | some fault =>
    obtain ⟨e, he⟩ := flush_some fault rs
    simp [he]

theorem dumps_no_newline {fs : List (Str × Json)} (h : Json.readable (.obj fs) = true) :
    newline ∉ Json.dumps (.obj fs) := fun hm => (Json.dumps_oneLine _ h _ hm).1 rfl

theorem fileText_no_return {fss : List (List (Str × Json))}
    (h : ∀ fs ∈ fss, Json.readable (.obj fs) = true) :
    Artifacts.carriageReturn ∉ fileText fss := by
  intro hm
  obtain ⟨fs, hfs, hm⟩ := List.mem_flatMap.mp hm
  rcases List.mem_append.mp hm with hm | hm
  · exact (Json.dumps_oneLine _ (h fs hfs) _ hm).2 rfl
  · cases List.mem_singleton.mp hm

theorem strip_line (fs : List (Str × Json)) :
    strip (Json.dumps (.obj fs) ++ [newline]) = Json.dumps (.obj fs) := by
  obtain ⟨ys, hys⟩ := Json.dumps_obj fs
  have hopen : isSpace '{' = false := rfl
  have hclose : isSpace '}' = false := rfl
  have hnl : isSpace newline = true := rfl
  rw [hys, strip]
  simp [hopen, hclose, hnl]

theorem loadLines_line {fs : List (Str × Json)} {doc : Document} (s : JsonlKStore)
    (rest : List Str) (h : Json.readable (.obj fs) = true)
    (hdoc : Json.merge (.obj fs) = doc.json) :
    loadLines s ((Json.dumps (.obj fs) ++ [newline]) :: rest) = (do
      let state ← applyRecord s.state doc
      loadLines ⟨s.records ++ [.read doc], state, s.path⟩ rest) := by
  have hne : Json.dumps (.obj fs) ≠ [] := by
    obtain ⟨ys, hys⟩ := Json.dumps_obj fs
    rw [hys]
    exact List.cons_ne_nil _ _
  have hloads : Json.loads (Json.dumps (.obj fs)) = some doc.json := by
    rw [Json.dumps_eq, Json.loads_merge _ h, hdoc]
  rw [loadLines, strip_line, if_neg hne, hloads]
  simp only [Document.ofJson?_json]

theorem loadLines_fileText {fss : List (List (Str × Json))} {docs : List Document}
    (h : List.Forall₂ (fun fs doc => Json.readable (.obj fs) = true ∧
      Json.merge (.obj fs) = Document.json doc) fss docs) (s : JsonlKStore) :
    loadLines s (lines newline (fileText fss)) = (docs.foldlM applyRecord s.state).map
      (fun state => ⟨s.records ++ docs.map .read, state, s.path⟩) := by
  induction h generalizing s with
  | nil =>
    change Except.ok s = Except.ok _
    rw [List.map_nil, List.append_nil]
  | @cons fs doc fss docs hfs _ ih =>
    have hlines : lines newline (fileText (fs :: fss)) =
        (Json.dumps (.obj fs) ++ [newline]) :: lines newline (fileText fss) := by
      rw [fileText, List.flatMap_cons, List.append_assoc]
      exact Lines.lines_line (dumps_no_newline hfs.1)
    rw [hlines, loadLines_line s _ hfs.1 hfs.2, List.foldlM_cons]
    cases applyRecord s.state doc with
    | error e => rfl
    | ok state =>
      change loadLines _ _ = (List.foldlM applyRecord state docs).map _
      rw [ih]
      simp only [List.map_cons, List.append_assoc, List.singleton_append]

theorem load_fileText {fss : List (List (Str × Json))} {docs : List Document}
    (h : List.Forall₂ (fun fs doc => Json.readable (.obj fs) = true ∧
      Json.merge (.obj fs) = Document.json doc) fss docs) :
    load (some (fileText fss)) = (docs.foldlM applyRecord .empty).map
      (fun state => ⟨docs.map .read, state, some (fileText fss)⟩) := by
  have hread : ∀ fs ∈ fss, Json.readable (.obj fs) = true := by
    induction h with
    | nil => exact List.forall_mem_nil _
    | cons hfs _ ih => exact List.forall_mem_cons.mpr ⟨hfs.1, ih⟩
  have hcr := fileText_no_return hread
  rw [load, Artifacts.replaceCrlf_plain hcr, Artifacts.replaceCr_plain hcr]
  exact loadLines_fileText h _

theorem exists_document {fs : List (Str × Json)} (h : Json.readable (.obj fs) = true) :
    ∃ doc : Document, Json.merge (.obj fs) = doc.json :=
  ⟨⟨Json.mergeFields [] fs, Json.merge_wf h⟩, rfl⟩

def liveApply (state : Contents) : Record → Except Error Contents
  | .read doc => applyRecord state doc
  | .put key value => .ok (state.assign key value)
  | .delete key => .ok (state.erase key)

theorem op_ne_key : "op".toList ≠ "key".toList := by decide +kernel

theorem op_ne_value : "op".toList ≠ "value".toList := by decide +kernel

theorem key_ne_value : "key".toList ≠ "value".toList := by decide +kernel

theorem put_ne_delete : "delete".toList ≠ "put".toList := by decide +kernel

section three

variable {a b c : Str} {x y z : Json}

theorem merge_two (hab : a ≠ b) :
    Json.mergeFields [] [(a, x), (b, y)] = [(a, Json.merge x), (b, Json.merge y)] := by
  simp only [Json.mergeFields, Json.setField, if_neg hab]

theorem merge_three (hab : a ≠ b) (hac : a ≠ c) (hbc : b ≠ c) :
    Json.mergeFields [] [(a, x), (b, y), (c, z)] =
      [(a, Json.merge x), (b, Json.merge y), (c, Json.merge z)] := by
  simp only [Json.mergeFields, Json.setField, if_neg hab, if_neg hac, if_neg hbc]

end three

theorem applyRecord_delete (state : Contents) (key : Str) {doc : Document}
    (h : doc.fields = [("op".toList, .str "delete".toList), ("key".toList, .str key)]) :
    applyRecord state doc = .ok (state.erase key) := by
  have hop : doc.get? "op".toList = some (.str "delete".toList) := by
    rw [Document.get?, h]
    exact List.lookup_cons_self
  have hkey : doc.get? "key".toList = some (.str key) := by
    rw [Document.get?, h, List.lookup_cons, beq_false_of_ne op_ne_key.symm]
    exact List.lookup_cons_self
  simp only [applyRecord, hkey, hop]
  rw [if_neg put_ne_delete, if_pos trivial]

theorem applyRecord_put (state : Contents) (key : Str) {value : List (Str × Json)}
    {doc : Document} (h : doc.fields = [("op".toList, .str "put".toList),
      ("key".toList, .str key), ("value".toList, .obj value)]) :
    applyRecord state doc =
      .ok (state.assign key (ensureMapping (Python.fieldsOf value))) := by
  have hop : doc.get? "op".toList = some (.str "put".toList) := by
    rw [Document.get?, h]
    exact List.lookup_cons_self
  have hkey : doc.get? "key".toList = some (.str key) := by
    rw [Document.get?, h, List.lookup_cons, beq_false_of_ne op_ne_key.symm]
    exact List.lookup_cons_self
  have hvalue : doc.get? "value".toList = some (.obj value) := by
    rw [Document.get?, h, List.lookup_cons, beq_false_of_ne op_ne_value.symm]
    change List.lookup _ (_ :: _) = _
    rw [List.lookup_cons, beq_false_of_ne key_ne_value.symm]
    exact List.lookup_cons_self
  simp only [applyRecord, hkey, hop, hvalue]
  rw [if_pos trivial]

def Record.Plain : Record → Prop
  | .put _ value => Python.plainFields value.fields = true
  | _ => True

def Rereads (r : Record) (doc : Document) : Prop :=
  ∃ fs, r.json = some fs ∧ Json.merge (.obj fs) = doc.json

theorem Rereads.put {key : Str} {value : Mapping} {doc : Document}
    (h : Rereads (.put key value) doc) (state : Contents) :
    ∃ gs, Python.objectFields value.fields = some gs ∧ applyRecord state doc =
      .ok (state.assign key (ensureMapping (Python.fieldsOf (Json.mergeFields [] gs)))) := by
  obtain ⟨fs, hfs, hdoc⟩ := h
  obtain ⟨gs, hgs, rfl⟩ := Option.map_eq_some_iff.mp hfs
  have hfields : _ = doc.fields := Json.obj.inj hdoc
  rw [merge_three op_ne_key op_ne_value key_ne_value] at hfields
  exact ⟨gs, hgs, applyRecord_put state key hfields.symm⟩

theorem Rereads.apply {r : Record} {doc : Document} (h : Rereads r doc) (hr : r.Plain)
    (state : Contents) : applyRecord state doc = liveApply state r := by
  cases r with
  | read d =>
    obtain ⟨fs, hfs, hdoc⟩ := h
    cases hfs
    have hd : doc = d :=
      Document.ext (Json.obj.inj (hdoc.symm.trans (Json.merge_of_wf d.wf)))
    rw [hd, liveApply]
  | put key value =>
    obtain ⟨gs, hgs, happly⟩ := h.put state
    rw [happly, (reread_mapping hgs).mpr hr, liveApply]
  | delete key =>
    obtain ⟨fs, hfs, hdoc⟩ := h
    cases hfs
    have hfields : _ = doc.fields := Json.obj.inj hdoc
    rw [merge_two op_ne_key] at hfields
    exact applyRecord_delete state key hfields.symm

theorem foldlM_rereads {rs : List Record} {docs : List Document}
    (h : List.Forall₂ Rereads rs docs) (hrs : ∀ r ∈ rs, r.Plain) (state : Contents) :
    docs.foldlM applyRecord state = rs.foldlM liveApply state := by
  induction h generalizing state with
  | nil => rfl
  | @cons r doc rs docs hr _ ih =>
    obtain ⟨hplain, hplains⟩ := List.forall_mem_cons.mp hrs
    rw [List.foldlM_cons, List.foldlM_cons, hr.apply hplain]
    congr 1
    funext t
    exact ih hplains t

section same

variable {a b : Contents}

theorem Same.assign (h : Same a b) (key : Str) (value : Mapping) :
    Same (a.assign key value) (b.assign key value) := by
  intro k
  rw [OrderedDict.get?_assign, OrderedDict.get?_assign, h k]

theorem Same.erase (h : Same a b) (key : Str) : Same (a.erase key) (b.erase key) := by
  intro k
  rw [OrderedDict.get?_erase, OrderedDict.get?_erase, h k]

theorem same_erase_assign {key : Str} (h : a.get? key = none) (value : Mapping) :
    Same ((a.assign key value).erase key) a := by
  intro k
  rw [OrderedDict.get?_erase, OrderedDict.get?_assign]
  split_ifs with hk
  · exact (hk ▸ h).symm
  · rfl

theorem same_assign_assign {key : Str} {prev : Mapping} (h : a.get? key = some prev)
    (value : Mapping) : Same ((a.assign key value).assign key prev) a := by
  intro k
  rw [OrderedDict.get?_assign, OrderedDict.get?_assign]
  split_ifs with hk
  · exact (hk ▸ h).symm
  · rfl

theorem same_erase {key : Str} (h : a.get? key = none) : Same (a.erase key) a := by
  intro k
  rw [OrderedDict.get?_erase]
  split_ifs with hk
  · exact (hk ▸ h).symm
  · rfl

theorem same_assign_erase {key : Str} {prev : Mapping} (h : a.get? key = some prev) :
    Same ((a.erase key).assign key prev) a := by
  intro k
  rw [OrderedDict.get?_assign, OrderedDict.get?_erase]
  split_ifs with hk
  · exact (hk ▸ h).symm
  · rfl

end same

section calls

variable {s t : JsonlKStore} {c : Call}

theorem Untouched.refl (s : JsonlKStore) : Untouched s s := ⟨fun _ => rfl, rfl, rfl⟩

inductive Appends : Call → Record → Prop where
  | put (key : Str) (value : List (Key × Object)) :
    Appends (.put (some key) (some value) none) (.put key (ensureMapping value))
  | delete (key : Str) : Appends (.delete (some key) none) (.delete key)

theorem Appends.plain {r : Record} (h : Appends c r) (hr : ∃ fs, r.json = some fs) :
    c.Plain ↔ r.Plain := by
  cases h with
  | put key value =>
    obtain ⟨fs, hfs⟩ := hr
    obtain ⟨gs, hgs, -⟩ := Option.map_eq_some_iff.mp hfs
    have hsome : (Python.objectFields (ensureMapping value).fields).isSome = true := by
      rw [hgs]
      rfl
    exact ⟨fun h => h hsome, fun h _ => h⟩
  | delete key => exact Iff.rfl

inductive Ran (s : JsonlKStore) (c : Call) : Reply × JsonlKStore → Prop where
  | raised {e : Error} {t : JsonlKStore} : Untouched s t →
    (∀ r, Appends c r → ∃ e, flush none (s.records ++ [r]) = .error e) → Ran s c (.raised e, t)
  | wrote {reply : Reply} {r : Record} {state : Contents} {text : Str} :
    (∀ e, reply ≠ .raised e) → Appends c r → flush none (s.records ++ [r]) = .ok text →
    liveApply s.state r = .ok state → Ran s c (reply, ⟨s.records ++ [r], state, some text⟩)

theorem put_ran (s : JsonlKStore) (key : Option Str) (value : Option (List (Key × Object)))
    (fault : Option Fault) : Ran s (.put key value fault) (s.put key value fault) := by
  cases key with
  | none => exact .raised (.refl s) (by rintro r ⟨⟩)
  | some key =>
    cases value with
    | none => exact .raised (.refl s) (by rintro r ⟨⟩)
    | some value =>
      unfold JsonlKStore.put
      simp only [ensureMapping_fields]
      cases hflush : flush fault (s.records ++ [.put key (ensureMapping value)]) with
      | ok text =>
        obtain ⟨rfl, -⟩ := flush_eq_ok.mp hflush
        exact .wrote (by rintro e ⟨⟩) (.put key value) hflush rfl
      | error e =>
        have hraised : ∀ r, Appends (.put (some key) (some value) fault) r →
            ∃ e, flush none (s.records ++ [r]) = .error e := by
          rintro r ⟨⟩
          exact ⟨e, hflush⟩
        cases hprev : s.state.get? key with
        | none =>
          exact .raised ⟨same_erase_assign hprev _, List.dropLast_concat, rfl⟩ hraised
        | some prev =>
          exact .raised ⟨same_assign_assign hprev _, List.dropLast_concat, rfl⟩ hraised

theorem delete_ran (s : JsonlKStore) (key : Option Str) (fault : Option Fault) :
    Ran s (.delete key fault) (s.delete key fault) := by
  cases key with
  | none => exact .raised (.refl s) (by rintro r ⟨⟩)
  | some key =>
    unfold JsonlKStore.delete
    dsimp only
    cases hflush : flush fault (s.records ++ [.delete key]) with
    | ok text =>
      obtain ⟨rfl, -⟩ := flush_eq_ok.mp hflush
      exact .wrote (by rintro e ⟨⟩) (.delete key) hflush rfl
    | error e =>
      have hraised : ∀ r, Appends (.delete (some key) fault) r →
          ∃ e, flush none (s.records ++ [r]) = .error e := by
        rintro r ⟨⟩
        exact ⟨e, hflush⟩
      cases hprev : s.state.get? key with
      | none => exact .raised ⟨same_erase hprev, List.dropLast_concat, rfl⟩ hraised
      | some prev => exact .raised ⟨same_assign_erase hprev, List.dropLast_concat, rfl⟩ hraised

theorem call_ran (s : JsonlKStore) (c : Call) : Ran s c (c.run s) := by
  cases c with
  | put key value fault => exact put_ran s key value fault
  | delete key fault => exact delete_ran s key fault

end calls

section invariant

variable {s t : JsonlKStore}

structure Kept (s : JsonlKStore) : Prop where
  written : ∀ r ∈ s.records, ∃ fs, r.json = some fs
  plain : ∀ r ∈ s.records, r.Plain
  live : ∃ t, s.records.foldlM liveApply .empty = .ok t ∧ Same t s.state

theorem flush_written {rs : List Record} (h : ∀ r ∈ rs, ∃ fs, r.json = some fs) :
    ∃ fss, List.Forall₂ (fun r fs => Record.json r = some fs) rs fss ∧
      flush none rs = .ok (fileText fss) := by
  have hfss : ∃ fss, List.Forall₂ (fun r fs => Record.json r = some fs) rs fss := by
    induction rs with
    | nil => exact ⟨[], .nil⟩
    | cons r rs ih =>
      obtain ⟨hr, hrs⟩ := List.forall_mem_cons.mp h
      obtain ⟨fs, hfs⟩ := hr
      obtain ⟨fss, hfss⟩ := ih hrs
      exact ⟨fs :: fss, .cons hfs hfss⟩
  obtain ⟨fss, hfss⟩ := hfss
  exact ⟨fss, hfss, flush_eq_ok.mpr ⟨rfl, fss, hfss, rfl⟩⟩

theorem written_of_flush {rs : List Record} {text : Str} (h : flush none rs = .ok text) :
    ∀ r ∈ rs, ∃ fs, r.json = some fs := by
  obtain ⟨-, fss, hfss, -⟩ := flush_eq_ok.mp h
  clear h
  induction hfss with
  | nil => exact List.forall_mem_nil _
  | cons hfs _ ih => exact List.forall_mem_cons.mpr ⟨⟨_, hfs⟩, ih⟩

theorem load_written {rs : List Record} {text : Str} (h : flush none rs = .ok text) :
    ∃ docs, List.Forall₂ Rereads rs docs ∧ load (some text) =
      (docs.foldlM applyRecord .empty).map
        (fun state => ⟨docs.map .read, state, some text⟩) := by
  obtain ⟨-, fss, hfss, rfl⟩ := flush_eq_ok.mp h
  have hdocs : ∃ docs, List.Forall₂ Rereads rs docs ∧
      List.Forall₂ (fun fs doc => Json.readable (.obj fs) = true ∧
        Json.merge (.obj fs) = Document.json doc) fss docs := by
    clear h
    induction hfss with
    | nil => exact ⟨[], .nil, .nil⟩
    | cons hfs _ ih =>
      obtain ⟨docs, hrs, hdocs⟩ := ih
      have hread := json_readable hfs
      obtain ⟨doc, hdoc⟩ := exists_document hread
      exact ⟨doc :: docs, .cons ⟨_, hfs, hdoc⟩ hrs, .cons ⟨hread, hdoc⟩ hdocs⟩
  obtain ⟨docs, hrs, hdocs⟩ := hdocs
  exact ⟨docs, hrs, load_fileText hdocs⟩

theorem Untouched.kept (h : Untouched s t) (hs : Kept s) : Kept t := by
  obtain ⟨hstate, hrecords, -⟩ := h
  obtain ⟨u, hu, hsame⟩ := hs.live
  refine ⟨hrecords ▸ hs.written, hrecords ▸ hs.plain, u, hrecords ▸ hu, fun key => ?_⟩
  rw [hsame key, hstate key]

theorem Untouched.reopens (h : Untouched s t) (hs : Reopens s) : Reopens t := by
  obtain ⟨hstate, -, hpath⟩ := h
  obtain ⟨u, hu, hsame⟩ := hs
  refine ⟨u, hpath ▸ hu, fun key => ?_⟩
  rw [hsame key, hstate key]

theorem liveApply_same {a b state : Contents} {r : Record} {c : Call} (hc : Appends c r)
    (h : Same a b) (hb : liveApply b r = .ok state) :
    ∃ u, liveApply a r = .ok u ∧ Same u state := by
  cases hc with
  | put key value =>
    cases hb
    exact ⟨_, rfl, h.assign key _⟩
  | delete key =>
    cases hb
    exact ⟨_, rfl, h.erase key⟩

section append

variable {c : Call} {r : Record} {state : Contents} {text : Str}

theorem Kept.append (hs : Kept s) (hc : Appends c r)
    (hflush : flush none (s.records ++ [r]) = .ok text) (hlive : liveApply s.state r = .ok state)
    (hr : r.Plain) : Kept ⟨s.records ++ [r], state, some text⟩ := by
  obtain ⟨u, hu, hsame⟩ := hs.live
  obtain ⟨v, hv, hstate⟩ := liveApply_same hc hsame hlive
  refine ⟨written_of_flush hflush, ?_, v, ?_, hstate⟩
  · exact List.forall_mem_append.mpr ⟨hs.plain, List.forall_mem_singleton.mpr hr⟩
  · rw [List.foldlM_append, hu]
    exact Fallible.bind_eq_ok.mpr ⟨u, rfl, Fallible.bind_eq_ok.mpr ⟨v, hv, rfl⟩⟩

theorem forall₂_snoc {α β : Type} {R : α → β → Prop} {xs : List α} {x : α} {ys : List β}
    (h : List.Forall₂ R (xs ++ [x]) ys) :
    ∃ zs y, ys = zs ++ [y] ∧ List.Forall₂ R xs zs ∧ R x y := by
  induction xs generalizing ys with
  | nil =>
    cases h with
    | cons hx hrest =>
      cases hrest
      exact ⟨[], _, rfl, .nil, hx⟩
  | cons w xs ih =>
    cases h with
    | cons hw hrest =>
      obtain ⟨zs, y, rfl, hzs, hy⟩ := ih hrest
      exact ⟨_ :: zs, y, rfl, .cons hw hzs, hy⟩

theorem Kept.reopens_append (hs : Kept s) (hc : Appends c r)
    (hflush : flush none (s.records ++ [r]) = .ok text)
    (hlive : liveApply s.state r = .ok state) :
    Reopens ⟨s.records ++ [r], state, some text⟩ ↔ r.Plain := by
  obtain ⟨u, hu, hsame⟩ := hs.live
  obtain ⟨docs, hdocs, hload⟩ := load_written hflush
  obtain ⟨ds, doc, rfl, hds, hdoc⟩ := forall₂_snoc hdocs
  have hreplay : (ds ++ [doc]).foldlM applyRecord .empty = applyRecord u doc := by
    rw [List.foldlM_append, foldlM_rereads hds hs.plain, hu]
    exact bind_pure (applyRecord u doc)
  constructor
  · rintro ⟨t, ht, hstate⟩
    cases hc with
    | delete key => trivial
    | put key value =>
      obtain ⟨gs, hgs, happly⟩ := hdoc.put u
      rw [hload, hreplay, happly] at ht
      cases ht
      cases hlive
      have hkey := hstate key
      rw [OrderedDict.get?_assign, OrderedDict.get?_assign, if_pos rfl, if_pos rfl] at hkey
      exact (reread_mapping hgs).mp (Option.some.inj hkey)
  · intro hr
    obtain ⟨v, hv, hstate⟩ := liveApply_same hc hsame hlive
    refine ⟨⟨(ds ++ [doc]).map .read, v, some text⟩, ?_, hstate⟩
    rw [hload, hreplay, hdoc.apply hr, hv]
    rfl

end append

structure Loaded (s : JsonlKStore) : Prop where
  read : ∀ r ∈ s.records, ∃ doc, r = .read doc
  live : s.records.foldlM liveApply .empty = .ok s.state

theorem Loaded.next (hs : Loaded s) {doc : Document} {state : Contents}
    (h : applyRecord s.state doc = .ok state) :
    Loaded ⟨s.records ++ [.read doc], state, s.path⟩ := by
  constructor
  · exact List.forall_mem_append.mpr ⟨hs.read, List.forall_mem_singleton.mpr ⟨doc, rfl⟩⟩
  · rw [List.foldlM_append, hs.live]
    exact Fallible.bind_eq_ok.mpr ⟨s.state, rfl, Fallible.bind_eq_ok.mpr ⟨state, h, rfl⟩⟩

theorem Loaded.kept (hs : Loaded s) : Kept s := by
  refine ⟨fun r hr => ?_, fun r hr => ?_, s.state, hs.live, fun _ => rfl⟩
  · obtain ⟨doc, rfl⟩ := hs.read r hr
    exact ⟨doc.fields, rfl⟩
  · obtain ⟨doc, rfl⟩ := hs.read r hr
    trivial

theorem Loaded.lines {ls : List Str} : ∀ {s t : JsonlKStore}, Loaded s →
    loadLines s ls = .ok t → Loaded t ∧ t.path = s.path := by
  induction ls with
  | nil =>
    intro s t hs h
    cases h
    exact ⟨hs, rfl⟩
  | cons line rest ih =>
    intro s t hs h
    unfold loadLines at h
    split_ifs at h
    · exact ih hs h
    · cases hl : Json.loads (strip line) with
      | none =>
        rw [hl] at h
        cases h
      | some record =>
        rw [hl] at h
        dsimp only at h
        cases hd : Document.ofJson? record with
        | none =>
          rw [hd] at h
          exact ih hs h
        | some doc =>
          rw [hd] at h
          obtain ⟨state, hstate, h⟩ := Fallible.bind_eq_ok.mp h
          have hrest := ih (hs.next hstate) h
          exact hrest

theorem load_loaded {path : Option Str} (h : load path = .ok s) : Loaded s ∧ s.path = path := by
  cases path with
  | none =>
    cases h
    exact ⟨⟨List.forall_mem_nil _, rfl⟩, rfl⟩
  | some text => exact Loaded.lines ⟨List.forall_mem_nil _, rfl⟩ h

end invariant

section runs

variable {s : JsonlKStore}

theorem Kept.plain_of_raised (hs : Kept s) {c : Call}
    (h : ∀ r, Appends c r → ∃ e, flush none (s.records ++ [r]) = .error e) : c.Plain := by
  cases c with
  | delete key fault => trivial
  | put key value fault =>
    cases key with
    | none => trivial
    | some key =>
      cases value with
      | none => trivial
      | some value =>
        cases fault with
        | some fault => trivial
        | none =>
          intro hsome
          obtain ⟨gs, hgs⟩ := Option.isSome_iff_exists.mp hsome
          have hjson : ∃ fs, Record.json (.put key (ensureMapping value)) = some fs :=
            ⟨_, congrArg (Option.map _) hgs⟩
          obtain ⟨fss, -, hok⟩ := flush_written
            (List.forall_mem_append.mpr ⟨hs.written, List.forall_mem_singleton.mpr hjson⟩)
          obtain ⟨e, he⟩ := h _ (.put key value)
          exact absurd (hok.symm.trans he) nofun

theorem Kept.faithful (hs : Kept s) (hopen : Reopens s) (calls : List Call) :
    Faithful s calls ↔ ∀ c ∈ calls, c.Plain := by
  induction calls generalizing s with
  | nil => exact iff_of_true hopen (List.forall_mem_nil _)
  | cons c cs ih =>
    rw [List.forall_mem_cons]
    unfold Faithful
    have hran := call_ran s c
    generalize c.run s = out at hran ⊢
    cases hran with
    | @raised e t hsame hfail =>
      have hc := hs.plain_of_raised hfail
      have hrest := ih (hsame.kept hs) (hsame.reopens hopen)
      constructor
      · rintro ⟨-, -, h⟩
        exact ⟨hc, hrest.mp h⟩
      · rintro ⟨-, h⟩
        exact ⟨hopen, fun _ _ => hsame, hrest.mpr h⟩
    | @wrote reply r state text hreply happ hflush hlive =>
      have hwritten := written_of_flush hflush r (List.mem_append_right _ List.mem_cons_self)
      have hplain := happ.plain hwritten
      have hagree := hs.reopens_append happ hflush hlive
      constructor
      · rintro ⟨-, -, h⟩
        have hr : r.Plain := by
          apply hagree.mp
          cases cs with
          | nil => exact h
          | cons d ds => exact h.1
        exact ⟨hplain.mpr hr, (ih (hs.append happ hflush hlive hr) (hagree.mpr hr)).mp h⟩
      · rintro ⟨hc, h⟩
        have hr := hplain.mp hc
        exact ⟨hopen, fun e he => absurd he (hreply e),
          (ih (hs.append happ hflush hlive hr) (hagree.mpr hr)).mpr h⟩

theorem faithful_iff_plain {path : Option Str} (h : load path = .ok s) (calls : List Call) :
    Faithful s calls ↔ ∀ c ∈ calls, c.Plain := by
  obtain ⟨hloaded, hpath⟩ := load_loaded h
  exact hloaded.kept.faithful ⟨s, hpath ▸ h, fun _ => rfl⟩ calls

theorem faithful_from_nothing : Faithful ⟨[], .empty, none⟩
    [.put (some ['k']) (some [(.str ['n'], .int 1)]) none, .delete (some ['k']) (some .fsync)] := by
  have hopen : load none = .ok ⟨[], .empty, none⟩ := rfl
  apply (faithful_iff_plain hopen _).mpr
  exact List.forall_mem_cons.mpr ⟨fun _ => rfl, List.forall_mem_singleton.mpr trivial⟩

theorem pair_not_kept : ¬ ∀ (path : Option Str) (s : JsonlKStore), load path = .ok s →
    ∀ calls : List Call, Faithful s calls := by
  intro h
  have hput := h none ⟨[], .empty, none⟩ rfl
    [.put (some ['k']) (some [(.str ['p'], .tuple [.int 1, .int 2])]) none]
  have hkept : Kept ⟨[], .empty, none⟩ :=
    Loaded.kept ⟨List.forall_mem_nil _, rfl⟩
  have hplain := (hkept.faithful ⟨_, rfl, fun _ => rfl⟩ _).mp hput
  exact absurd (List.forall_mem_singleton.mp hplain rfl) (by decide)

end runs

end TraceMind.KStore.Jsonl
