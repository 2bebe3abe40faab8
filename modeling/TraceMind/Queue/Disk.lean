import TraceMind.Foundation.Fallible
import TraceMind.Queue.Recovery

namespace TraceMind.Queue

open Opened

theorem recordJson_wf (o : ℤ) (doc : Document) (stamp : FloatText) :
    Json.wf (recordJson o doc stamp) = true := by
  have hkeys : (["offset".toList, "task".toList, "enqueued_at".toList] : List Str).Nodup := by
    decide
  simp only [recordJson, Json.wf, Json.wfFields, Document.json, List.map_cons, List.map_nil,
    Bool.and_true, Bool.true_and, Bool.and_eq_true, decide_eq_true_eq]
  have hdoc := doc.wf
  have hstamp := stamp.valid
  simp only [Json.wf, Bool.and_eq_true, decide_eq_true_eq] at hdoc hstamp
  exact ⟨hkeys, hdoc, hstamp⟩

def recordBody (o : ℤ) (doc : Document) (stamp : FloatText) : Str :=
  (recordJson o doc stamp).dumps

theorem recordText_eq (o : ℤ) (doc : Document) (stamp : FloatText) :
    recordText o doc stamp = recordBody o doc stamp ++ [newline] := rfl

theorem recordBody_head (o : ℤ) (doc : Document) (stamp : FloatText) :
    ∃ ds, recordBody o doc stamp = '{' :: Json.quote :: 'o' :: ds := by
  exact ⟨_, rfl⟩

theorem newline_not_mem (o : ℤ) (doc : Document) (stamp : FloatText) :
    newline ∉ recordBody o doc stamp := by
  intro hm
  exact Json.dumps_noNewline _ (recordJson_wf o doc stamp) newline hm rfl

def decodeLine (line : Str) : Option (ℤ × Document) :=
  match Json.loads line with
  | some (.obj fs) =>
    match fs.lookup "offset".toList with
    | some (.int o) => some (o, taskOf (.obj fs))
    | _ => none
  | _ => none

def recordsOf (log : Str) : List (ℤ × Document) := (lines newline log).filterMap decodeLine

theorem lookup_offset (o : ℤ) (doc : Document) (stamp : FloatText) :
    [("offset".toList, Json.int o), ("task".toList, doc.json),
      ("enqueued_at".toList, Json.float stamp.text)].lookup "offset".toList =
        some (.int o) := by
  rw [List.lookup_cons_self]

theorem taskOf_record (o : ℤ) (doc : Document) (stamp : FloatText) :
    taskOf (recordJson o doc stamp) = doc := by
  have hne : ("task".toList == "offset".toList) = false := by decide
  simp only [taskOf, recordJson]
  rw [List.lookup_cons, hne]
  simp only
  rw [List.lookup_cons_self, Option.bind_some, Document.ofJson?_json]
  rfl

theorem decodeLine_of_loads {line : Str} {o : ℤ} {doc : Document} {stamp : FloatText}
    (h : Json.loads line = some (recordJson o doc stamp)) :
    decodeLine line = some (o, doc) := by
  have ht := taskOf_record o doc stamp
  simp only [recordJson] at h ht
  simp only [decodeLine, h, lookup_offset, ht]

def LineReadable (line : Str) : Prop := ∀ float, readLine float line = .ok (decodeLine line)

theorem lineReadable_of_none {line : Str} (h : Json.loads line = none) : LineReadable line := by
  intro float
  simp only [readLine, decodeLine, h]
  split_ifs <;> rfl

theorem lineReadable_of_loads {line : Str} {o : ℤ} {doc : Document} {stamp : FloatText}
    (hb : line.all isBlankByte = false)
    (h : Json.loads line = some (recordJson o doc stamp)) : LineReadable line := by
  intro float
  have ht := taskOf_record o doc stamp
  have ho : offsetOf float (recordJson o doc stamp) = .ok o := by
    simp only [offsetOf, recordJson, lookup_offset, pyInt]
  rw [decodeLine_of_loads h]
  simp only [readLine, hb, h, ho, ht, Bool.false_eq_true, if_false]
  rfl

theorem body_not_blank (o : ℤ) (doc : Document) (stamp : FloatText) (rest : Str) :
    (recordBody o doc stamp ++ rest).all isBlankByte = false := by
  obtain ⟨ds, hds⟩ := recordBody_head o doc stamp
  rw [hds]
  rfl

theorem loads_body (o : ℤ) (doc : Document) (stamp : FloatText) :
    Json.loads (recordBody o doc stamp) = some (recordJson o doc stamp) :=
  Json.loads_dumps (recordJson_wf o doc stamp)

theorem loads_record (o : ℤ) (doc : Document) (stamp : FloatText) :
    Json.loads (recordText o doc stamp) = some (recordJson o doc stamp) :=
  Json.loads_line (recordJson_wf o doc stamp)

section logs

variable {log : Str}

def LogReadable (log : Str) : Prop := ∀ line ∈ lines newline log, LineReadable line

theorem logReadable_nil : LogReadable [] := fun _ hl => nomatch hl

theorem LogReadable.readLog (h : LogReadable log) (float : PyFloat) :
    readLog float log = .ok (recordsOf log) := by
  have hm : (lines newline log).mapM (readLine float) =
      .ok ((lines newline log).map decodeLine) := by
    rw [Fallible.mapM_eq_ok, List.forall₂_map_right_iff, List.forall₂_same]
    exact fun line hl => h line hl float
  rw [Queue.readLog, hm]
  change Except.ok _ = Except.ok _
  rw [recordsOf, List.filterMap_map]
  rfl

theorem lines_record (o : ℤ) (doc : Document) (stamp : FloatText) :
    lines newline (recordText o doc stamp) = [recordText o doc stamp] := by
  have h := Lines.lines_line (b := []) (newline_not_mem o doc stamp)
  exact h

theorem ended_record (o : ℤ) (doc : Document) (stamp : FloatText) :
    Lines.Ended newline (recordText o doc stamp) :=
  Lines.Ended.line (newline_not_mem o doc stamp) Lines.Ended.nil

theorem recordsOf_append (he : Lines.Ended newline log) (text : Str) :
    recordsOf (log ++ text) = recordsOf log ++ recordsOf text := by
  rw [recordsOf, he.lines_append, List.filterMap_append]
  rfl

theorem LogReadable.append (h : LogReadable log) (he : Lines.Ended newline log) {text : Str}
    (ht : LogReadable text) : LogReadable (log ++ text) := by
  intro line hl
  rw [he.lines_append, List.mem_append] at hl
  exact hl.elim (h line) (ht line)

theorem recordsOf_record (o : ℤ) (doc : Document) (stamp : FloatText) :
    recordsOf (recordText o doc stamp) = [(o, doc)] := by
  rw [recordsOf, lines_record, List.filterMap_cons,
    decodeLine_of_loads (loads_record o doc stamp)]
  rfl

theorem logReadable_record (o : ℤ) (doc : Document) (stamp : FloatText) :
    LogReadable (recordText o doc stamp) := by
  intro line hl
  rw [lines_record, List.mem_singleton] at hl
  subst hl
  exact lineReadable_of_loads (body_not_blank o doc stamp [newline]) (loads_record o doc stamp)

end logs

theorem offsetSet_ext {a b : OffsetSet} (h : ∀ o, a.contains o = b.contains o) : a = b := by
  apply SortedMap.ext
  intro o
  have ho := h o
  simp only [SortedMap.contains] at ho
  rcases ha : a.get? o with _ | u <;> rcases hb : b.get? o with _ | v
  · rfl
  · simp [ha, hb] at ho
  · simp [ha, hb] at ho
  · rfl

def addOffset (acked : OffsetSet) (v : Json) : OffsetSet :=
  match v with
  | .int n => acked.insert n ()
  | _ => acked

def ackedOf (index : Option Str) : OffsetSet :=
  match index.bind Json.loads with
  | some (.obj fs) =>
    match fs.lookup "acked".toList with
    | some (.arr vs) => vs.foldl addOffset SortedMap.empty
    | _ => SortedMap.empty
  | _ => SortedMap.empty

def IndexReadable (index : Option Str) : Prop :=
  ∀ float v2Enabled, ∃ rewrite,
    loadIndexMetadata float v2Enabled index = .ok (ackedOf index, rewrite)

theorem indexReadable_none : IndexReadable none := fun _ v2Enabled => ⟨v2Enabled, rfl⟩

theorem contains_addOffsets (ks : List ℤ) (m : OffsetSet) (o : ℤ) :
    ((ks.map Json.int).foldl addOffset m).contains o = true ↔ o ∈ ks ∨ m.contains o = true := by
  induction ks generalizing m with
  | nil => simp
  | cons k ks ih =>
    rw [List.map_cons, List.foldl_cons, ih, addOffset, SortedMap.contains_insert, List.mem_cons]
    simp only [Bool.or_eq_true, decide_eq_true_eq]
    tauto

theorem addOffsets_keys (s : OffsetSet) :
    (s.keys.map Json.int).foldl addOffset SortedMap.empty = s := by
  apply offsetSet_ext
  intro o
  rw [Bool.eq_iff_iff, contains_addOffsets, SortedMap.mem_keys_iff]
  simp [SortedMap.contains]

theorem wfItems_ints (ks : List ℤ) : Json.wfItems (ks.map Json.int) = true := by
  induction ks with
  | nil => rfl
  | cons k ks ih => simpa [Json.wfItems, Json.wf] using ih

theorem indexJson_wf (s : FileSegment) : Json.wf (indexJson s) = true := by
  have hkeys : (["acked".toList, "start_offset".toList, "end_offset".toList,
      "record_count".toList] : List Str).Nodup := by
    decide
  simp only [indexJson, Json.wf, Json.wfFields, List.map_cons, List.map_nil, Bool.and_true,
    Bool.and_eq_true, decide_eq_true_eq]
  exact ⟨hkeys, wfItems_ints s.acked.keys⟩

theorem ackedOf_index (s : FileSegment) : ackedOf (some (indexJson s).dumps) = s.acked := by
  have hl := Json.loads_dumps (indexJson_wf s)
  simp only [indexJson] at hl
  simp only [ackedOf, Option.bind_some, indexJson, hl]
  rw [List.lookup_cons_self]
  exact addOffsets_keys s.acked

theorem foldlM_addAcked (float : PyFloat) {ks : List ℤ} (h : ∀ k ∈ ks, 0 ≤ k)
    (m : OffsetSet) (rewrite : Bool) :
    (ks.map Json.int).foldlM (addAcked float) (m, rewrite) =
      .ok ((ks.map Json.int).foldl addOffset m, rewrite) := by
  induction ks generalizing m with
  | nil => rfl
  | cons k ks ih =>
    have hk : ¬k < 0 := not_lt.mpr (h k List.mem_cons_self)
    have hstep : addAcked float (m, rewrite) (.int k) = .ok (m.insert k (), rewrite) := by
      simp only [addAcked, pyInt, hk, if_false]
    rw [List.map_cons, List.foldlM_cons, hstep]
    exact ih (fun j hj => h j (List.mem_cons_of_mem _ hj)) (m.insert k ())

theorem indexReadable_index {s : FileSegment} (h : ∀ o, s.acked.contains o = true → 0 ≤ o) :
    IndexReadable (some (indexJson s).dumps) := by
  intro float v2Enabled
  refine ⟨false, ?_⟩
  have hl := Json.loads_dumps (indexJson_wf s)
  simp only [indexJson] at hl
  rw [ackedOf_index]
  simp only [loadIndexMetadata, indexJson, hl]
  rw [List.lookup_cons_self]
  simp only
  rw [foldlM_addAcked float (fun k hk => h k (SortedMap.mem_keys_iff.mp hk)), addOffsets_keys]

end TraceMind.Queue
