import TraceMind.Queue.Manager

namespace TraceMind.Queue

structure StoredRecord extends DeadLetterRecord where
  state : Str

structure Filing where
  milliseconds : ℕ
  pid : ℕ
  timestamp : FloatText
  flowId : Str
  task : Document
  error : Document
  attempt : ℤ

structure DeadLetterDirectory where
  pending : SortedMap Str Str := SortedMap.empty
  requeued : SortedMap Str Str := SortedMap.empty
  purged : SortedMap Str Str := SortedMap.empty

inductive DeadLetterCall where
  | append (a : Filing)
  | consume (entryId state : Str) (consumedAt : FloatText)

namespace Filing

def entryId (a : Filing) : Str :=
  DeadLetterStore.entryIdAt ⟨a.milliseconds, a.pid, a.timestamp, .whole⟩

def record (a : Filing) : StoredRecord where
  entryId := a.entryId
  flowId := a.flowId
  task := a.task
  error := a.error
  attempt := a.attempt
  timestamp := a.timestamp
  state := "pending".toList

end Filing

namespace DeadLetterDirectory

def fileName (entryId : Str) : Str := entryId ++ ".json".toList

def diskStyle : Json.Style := ⟨true, true⟩

def recordFields (r : StoredRecord) : List (Str × Json) :=
  [("entry_id".toList, .str r.entryId), ("flow_id".toList, .str r.flowId),
    ("task".toList, r.task.json), ("error".toList, r.error.json), ("attempt".toList, .int r.attempt),
    ("timestamp".toList, .float r.timestamp.text), ("state".toList, .str r.state)]

def recordText (r : StoredRecord) : Str := diskStyle.render (.obj (recordFields r))

def consumedText (r : StoredRecord) (consumedAt : FloatText) : Str :=
  diskStyle.render (.obj (recordFields r ++ [("consumed_at".toList, .float consumedAt.text)]))

def text? : Json → Option Str
  | .str s => some s
  | _ => none

def int? : Json → Option ℤ
  | .int n => some n
  | .bool b => some b.toNat
  | _ => none

def float? (py : PyText) : Json → Option FloatText
  | .str _ | .null | .arr _ | .obj _ => none
  | v => (py.floatText v).toOption

def decode (py : PyText) (data : List (Str × Json)) : Option StoredRecord := do
  let entryId ← (data.lookup "entry_id".toList).bind text?
  let flowId ← (data.lookup "flow_id".toList).bind text?
  let task ← (data.lookup "task".toList).bind Document.ofJson?
  let error ← (data.lookup "error".toList).bind Document.ofJson?
  let attempt ← (data.lookup "attempt".toList).bind int?
  let timestamp ← (data.lookup "timestamp".toList).bind (float? py)
  let state := py.str ((data.lookup "state".toList).getD (.str "pending".toList))
  some { entryId, flowId, task, error, attempt, timestamp, state }

def loadPath (py : PyText) (text : Str) : Option StoredRecord :=
  match Json.loads text with
  | some (.obj data) => decode py data
  | _ => none

def append (a : Filing) (d : DeadLetterDirectory) : StoredRecord × DeadLetterDirectory :=
  (a.record, { d with pending := d.pending.insert (fileName a.entryId) (recordText a.record) })

def list (py : PyText) (d : DeadLetterDirectory) : List StoredRecord :=
  d.pending.entries.filterMap (fun e => loadPath py e.2)

def load (py : PyText) (entryId : Str) (d : DeadLetterDirectory) : Option StoredRecord :=
  (d.pending.get? (fileName entryId)).bind (loadPath py)

def archive (state name text : Str) (d : DeadLetterDirectory) : DeadLetterDirectory :=
  if state = "requeued".toList then { d with requeued := d.requeued.insert name text }
  else { d with purged := d.purged.insert name text }

def consume (py : PyText) (entryId state : Str) (consumedAt : FloatText)
    (d : DeadLetterDirectory) : Option StoredRecord × DeadLetterDirectory :=
  match d.load py entryId with
  | none => (none, d)
  | some r =>
    let r := { r with state }
    let d := d.archive state (fileName entryId) (consumedText r consumedAt)
    (some r, { d with pending := d.pending.erase (fileName entryId) })

def step (py : PyText) (d : DeadLetterDirectory) : DeadLetterCall → DeadLetterDirectory
  | .append a => (d.append a).2
  | .consume entryId state consumedAt => (d.consume py entryId state consumedAt).2

def run (py : PyText) (calls : List DeadLetterCall) : DeadLetterDirectory :=
  calls.foldl (step py) {}

end DeadLetterDirectory

def keepOutstanding (held : List Filing) : DeadLetterCall → List Filing
  | .append a => held ++ [a]
  | .consume entryId _ _ => held.filter (fun a => a.entryId ≠ entryId)

def outstanding (calls : List DeadLetterCall) : List Filing := calls.foldl keepOutstanding []

def Retrievable (py : PyText) (calls : List DeadLetterCall) : Prop :=
  (∀ a ∈ outstanding calls, (DeadLetterDirectory.run py calls).load py a.entryId = some a.record) ∧
    ((DeadLetterDirectory.run py calls).list py).Perm ((outstanding calls).map Filing.record)

def Fresh (calls : List DeadLetterCall) : Prop := ∀ p a, p ++ [.append a] <+: calls →
  ∀ b ∈ outstanding p, (a.milliseconds, a.pid) ≠ (b.milliseconds, b.pid)

namespace DeadLetterDirectory

variable {py : PyText}

theorem recordFields_wf (a : Filing) : Json.wf (.obj (recordFields a.record)) = true := by
  have hkeys : ((recordFields a.record).map Prod.fst).Nodup := by
    show ["entry_id".toList, "flow_id".toList, "task".toList, "error".toList, "attempt".toList,
      "timestamp".toList, "state".toList].Nodup
    decide
  refine Json.wf_obj hkeys (fun f hf => ?_)
  simp only [recordFields, List.mem_cons, List.not_mem_nil, or_false] at hf
  rcases hf with rfl | rfl | rfl | rfl | rfl | rfl | rfl
  · rfl
  · rfl
  · exact a.task.wf
  · exact a.error.wf
  · rfl
  · exact a.timestamp.valid
  · rfl

theorem decode_recordFields (py : PyText) (a : Filing) :
    decode py (recordFields a.record) = some a.record := by
  have hentry : (recordFields a.record).lookup "entry_id".toList = some (.str a.entryId) := rfl
  have hflow : (recordFields a.record).lookup "flow_id".toList = some (.str a.flowId) := rfl
  have htask : (recordFields a.record).lookup "task".toList = some a.task.json := rfl
  have herror : (recordFields a.record).lookup "error".toList = some a.error.json := rfl
  have hattempt : (recordFields a.record).lookup "attempt".toList = some (.int a.attempt) := rfl
  have hstamp : (recordFields a.record).lookup "timestamp".toList = some (.float a.timestamp.text) := rfl
  have hstate : (recordFields a.record).lookup "state".toList = some (.str "pending".toList) := rfl
  have hfloat : float? py (.float a.timestamp.text) = some a.timestamp := by
    show (py.floatText (.float a.timestamp.text)).toOption = _
    rw [py.floatText_float]
    rfl
  rw [decode, hentry, hflow, htask, herror, hattempt, hstamp, hstate]
  simp only [Option.bind_some, text?, int?, hfloat, Document.ofJson?_json, Option.getD_some, py.str_str]
  rfl

theorem loadPath_recordText (py : PyText) (a : Filing) :
    loadPath py (recordText a.record) = some a.record := by
  rw [loadPath, recordText, Json.loads_render diskStyle (recordFields_wf a)]
  exact decode_recordFields py a

theorem fileName_inj {x y : Str} : fileName x = fileName y ↔ x = y := List.append_left_inj _

theorem entryId_inj {a b : Filing} :
    a.entryId = b.entryId ↔ (a.milliseconds, a.pid) = (b.milliseconds, b.pid) := by
  have key (x y : Filing) : x.entryId = y.entryId ↔
      Digits.padded 13 x.milliseconds ++ '-' :: Digits.padded 5 x.pid =
        Digits.padded 13 y.milliseconds ++ '-' :: Digits.padded 5 y.pid := by
    simp [Filing.entryId, DeadLetterStore.entryIdAt]
  have hdash (w n : ℕ) : '-' ∉ Digits.padded w n := by
    intro h
    have := Digits.padded_isDigit w n '-' h
    revert this
    decide
  rw [key, List.append_cons_inj_of_notMem (hdash _ _) (hdash _ _), Digits.padded_inj, Digits.padded_inj]
  simp

def file (a : Filing) : Str × Str := (fileName a.entryId, recordText a.record)

structure Files (held : List Filing) (d : DeadLetterDirectory) : Prop where
  distinct : (held.map Filing.entryId).Nodup
  files : d.pending.entries.Perm (held.map file)

section files

variable {held : List Filing} {d : DeadLetterDirectory} {a : Filing}

theorem Files.load (h : Files held d) (ha : a ∈ held) : d.load py a.entryId = some a.record := by
  have hmem : file a ∈ d.pending.entries := h.files.mem_iff.mpr (List.mem_map_of_mem ha)
  rw [DeadLetterDirectory.load, SortedMap.get?_eq_some_iff.mpr hmem]
  exact loadPath_recordText py a

theorem Files.list (h : Files held d) : (d.list py).Perm (held.map Filing.record) := by
  have hall : (held.map file).filterMap (fun e => loadPath py e.2) = held.map Filing.record := by
    rw [List.filterMap_map, ← List.filterMap_eq_map]
    exact List.filterMap_congr (fun a _ => loadPath_recordText py a)
  rw [← hall]
  exact h.files.filterMap _

theorem Files.insert (h : Files held d) (hfresh : ∀ b ∈ held, a.entryId ≠ b.entryId) :
    Files (held ++ [a]) (d.append a).2 := by
  have hnone : d.pending.get? (fileName a.entryId) = none := by
    cases hget : d.pending.get? (fileName a.entryId) with
    | none => rfl
    | some text =>
      have hmem := h.files.mem_iff.mp (SortedMap.get?_eq_some_iff.mp hget)
      obtain ⟨b, hb, he⟩ := List.mem_map.mp hmem
      have hname : fileName b.entryId = fileName a.entryId := congrArg Prod.fst he
      exact absurd (fileName_inj.mp hname).symm (hfresh b hb)
  constructor
  · rw [List.map_append, List.map_singleton, List.nodup_append]
    refine ⟨h.distinct, List.nodup_singleton _, ?_⟩
    intro x hx y hy
    obtain ⟨b, hb, rfl⟩ := List.mem_map.mp hx
    rw [List.mem_singleton.mp hy]
    exact (hfresh b hb).symm
  · rw [List.map_append, List.map_singleton]
    exact (SortedMap.insert_perm _ hnone).trans
      ((h.files.cons _).trans (List.perm_append_singleton _ _).symm)

theorem Files.erase (h : Files held d) (entryId : Str) :
    Files (held.filter (fun a => a.entryId ≠ entryId))
      { d with pending := d.pending.erase (fileName entryId) } := by
  constructor
  · exact h.distinct.sublist (List.filter_sublist.map _)
  · have hfilter := h.files.filter (fun e => e.1 ≠ fileName entryId)
    rw [List.filter_map] at hfilter
    refine List.Perm.trans (List.Perm.of_eq ?_) (hfilter.trans (List.Perm.of_eq ?_))
    · exact List.filter_congr (fun e _ => by simp)
    · exact congrArg _ (List.filter_congr (fun a _ => by simp [file, fileName_inj]))

theorem Files.overwrite (h : Files held d) (a : Filing) :
    Files (held.filter (fun b => b.entryId ≠ a.entryId) ++ [a]) (d.append a).2 := by
  have herase : (d.append a).2 =
      (append a { d with pending := d.pending.erase (fileName a.entryId) }).2 := by
    have hpending : d.pending.insert (fileName a.entryId) (recordText a.record) =
        (d.pending.erase (fileName a.entryId)).insert (fileName a.entryId) (recordText a.record) := by
      apply SortedMap.ext
      intro k
      rw [SortedMap.get?_insert, SortedMap.get?_insert, SortedMap.get?_erase]
      split_ifs <;> rfl
    simp only [append, hpending]
  rw [herase]
  refine (h.erase a.entryId).insert (fun b hb => ?_)
  have hne := (List.mem_filter.mp hb).2
  exact fun he => by simp [he] at hne

theorem pending_archive (state name text : Str) (d : DeadLetterDirectory) :
    (d.archive state name text).pending = d.pending := by
  rw [archive]
  split_ifs <;> rfl

theorem Files.consume (h : Files held d) (entryId state : Str) (consumedAt : FloatText) :
    Files (held.filter (fun a => a.entryId ≠ entryId)) (d.consume py entryId state consumedAt).2 := by
  rw [DeadLetterDirectory.consume]
  cases hload : d.load py entryId with
  | none =>
    have hall : ∀ a ∈ held, decide (a.entryId ≠ entryId) = true := by
      intro a ha
      rw [decide_eq_true_eq]
      rintro rfl
      rw [h.load ha] at hload
      cases hload
    rw [List.filter_eq_self.mpr hall]
    exact h
  | some r =>
    refine ⟨(h.erase entryId).distinct, ?_⟩
    dsimp only
    rw [pending_archive]
    exact (h.erase entryId).files

end files

theorem run_append (calls : List DeadLetterCall) (c : DeadLetterCall) :
    run py (calls ++ [c]) = step py (run py calls) c := List.foldl_concat ..

theorem outstanding_append (calls : List DeadLetterCall) (c : DeadLetterCall) :
    outstanding (calls ++ [c]) = keepOutstanding (outstanding calls) c := List.foldl_concat ..

theorem files_empty : Files [] {} := ⟨List.nodup_nil, List.Perm.nil⟩

theorem run_files (calls : List DeadLetterCall) : ∃ held, Files held (run py calls) := by
  induction calls using List.reverseRecOn with
  | nil => exact ⟨[], files_empty⟩
  | append_singleton calls c ih =>
    obtain ⟨held, h⟩ := ih
    rw [run_append]
    cases c with
    | append a => exact ⟨_, h.overwrite a⟩
    | consume entryId state consumedAt => exact ⟨_, h.consume entryId state consumedAt⟩

theorem files_of_fresh {calls : List DeadLetterCall} (h : Fresh calls) :
    Files (outstanding calls) (run py calls) := by
  induction calls using List.reverseRecOn with
  | nil => exact files_empty
  | append_singleton calls c ih =>
    have hfiles := ih (fun p a hp => h p a (hp.trans (List.prefix_append _ _)))
    rw [run_append, outstanding_append]
    cases c with
    | append a =>
      refine hfiles.insert (fun b hb he => ?_)
      exact h calls a (List.prefix_refl _) b hb (entryId_inj.mp he)
    | consume entryId state consumedAt => exact hfiles.consume entryId state consumedAt

theorem Files.retrievable {calls : List DeadLetterCall} (h : Files (outstanding calls) (run py calls)) :
    Retrievable py calls := ⟨fun _ ha => h.load ha, h.list⟩

theorem distinct_of_retrievable {calls : List DeadLetterCall} (h : Retrievable py calls) :
    ((outstanding calls).map Filing.entryId).Nodup := by
  obtain ⟨held, hheld⟩ : ∃ held, Files held (run py calls) := run_files calls
  have hperm := hheld.list.symm.trans h.2
  have hids := hperm.map (fun r => r.entryId)
  rw [List.map_map, List.map_map] at hids
  exact hids.nodup_iff.mp hheld.distinct

theorem retrievable_iff (py : PyText) (calls : List DeadLetterCall) :
    (∀ p, p <+: calls → Retrievable py p) ↔ Fresh calls := by
  constructor
  · intro h p a hp b hb he
    have hnodup := distinct_of_retrievable (h _ hp)
    rw [outstanding_append, keepOutstanding, List.map_append, List.map_singleton,
      List.nodup_append] at hnodup
    exact hnodup.2.2 _ (List.mem_map_of_mem hb) _ (List.mem_singleton_self _) (entryId_inj.mpr he).symm
  · intro h p hp
    have hfresh : Fresh p := fun q a hq => h q a (hq.trans hp)
    exact (files_of_fresh hfresh).retrievable

def filingAt (flowId : Str) : Filing where
  milliseconds := 1700000000000
  pid := 4242
  timestamp := ⟨"1700000000.0".toList, by decide⟩
  flowId := flowId
  task := Document.empty
  error := Document.empty
  attempt := 3

theorem second_append_overwrites : ¬∀ calls, Retrievable plainPy calls := by
  intro h
  have hnodup := distinct_of_retrievable (h [.append (filingAt ['a']), .append (filingAt ['b'])])
  have hsame : outstanding [.append (filingAt ['a']), .append (filingAt ['b'])] =
      [filingAt ['a'], filingAt ['b']] := rfl
  rw [hsame, List.map_cons, List.nodup_cons] at hnodup
  exact hnodup.1 (List.mem_map.mpr ⟨filingAt ['b'], by simp, rfl⟩)

end DeadLetterDirectory

end TraceMind.Queue
