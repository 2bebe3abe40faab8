import TraceMind.Queue.Recovery

namespace TraceMind.Queue

structure TaskEnvelope where
  taskId : Str
  flowId : Str
  input : Document
  headers : Document
  attempt : ℤ
  scheduledAt : FloatText
  trace : Document

-- Python's `str` and `float` on decoded values; only their results are used.
structure PyText where
  str : Json → Str
  floatText : Json → Except Error FloatText
  str_str : ∀ s, str (.str s) = s
  floatText_float : ∀ t : FloatText, floatText (.float t.text) = .ok t

def plainPy : PyText where
  str v :=
    match v with
    | .str s => s
    | _ => "None".toList
  floatText v :=
    match v with
    | .float t => if h : Json.wf (.float t) = true then .ok ⟨t, h⟩
      else .error (.valueError "could not convert string to float")
    | _ => .error (.typeError "float() argument must be a string or a real number")
  str_str _ := rfl
  floatText_float t := by
    simp only [t.valid]
    rfl

namespace Document

def erase (key : Str) (d : Document) : Document :=
  ⟨d.fields.filter (fun f => f.1 ≠ key), by
    have hd := d.wf
    rw [Json.wf, Bool.and_eq_true, decide_eq_true_eq] at hd ⊢
    exact ⟨hd.1.sublist ((List.filter_sublist ..).map Prod.fst), Json.wfFields_filter _ hd.2⟩⟩

def setField (key : Str) (v : Json) : List (Str × Json) → List (Str × Json)
  | [] => [(key, v)]
  | f :: fs => if f.1 = key then (key, v) :: fs else f :: setField key v fs

theorem setField_keys (key : Str) (v : Json) (fs : List (Str × Json)) :
    (setField key v fs).map Prod.fst =
      if key ∈ fs.map Prod.fst then fs.map Prod.fst else fs.map Prod.fst ++ [key] := by
  induction fs with
  | nil => simp [setField]
  | cons f fs ih =>
    rw [setField]
    split_ifs with hf hm hm
    · simp [hf]
    · simp [hf] at hm
    · have hk : key ∈ fs.map Prod.fst := by simpa [Ne.symm hf] using hm
      rw [List.map_cons, ih, if_pos hk, List.map_cons]
    · have hk : key ∉ fs.map Prod.fst := fun h => hm (by simp [h])
      rw [List.map_cons, ih, if_neg hk, List.map_cons, List.cons_append]

theorem setField_wf {key : Str} {v : Json} (hv : v.wf = true) {fs : List (Str × Json)}
    (h : Json.wfFields fs = true) : Json.wfFields (setField key v fs) = true := by
  induction fs with
  | nil => simp [setField, Json.wfFields, hv]
  | cons f fs ih =>
    obtain ⟨k, u⟩ := f
    rw [Json.wfFields, Bool.and_eq_true] at h
    rw [setField]
    split_ifs
    · rw [Json.wfFields, Bool.and_eq_true]
      exact ⟨hv, h.2⟩
    · rw [Json.wfFields, Bool.and_eq_true]
      exact ⟨h.1, ih h.2⟩

def setText (key text : Str) (d : Document) : Document :=
  ⟨setField key (.str text) d.fields, by
    have hd := d.wf
    rw [Json.wf, Bool.and_eq_true, decide_eq_true_eq] at hd ⊢
    refine ⟨?_, setField_wf rfl hd.2⟩
    rw [setField_keys]
    split_ifs with hm
    · exact hd.1
    · rw [List.nodup_append]
      refine ⟨hd.1, by simp, fun a ha b hb he => hm ?_⟩
      obtain rfl : b = key := by simpa using hb
      exact he ▸ ha⟩

end Document

namespace TaskEnvelope

def idempotencyKey (e : TaskEnvelope) : Option Str :=
  match e.headers.get? "idempotency_key".toList with
  | some (.str (c :: cs)) => some (c :: cs)
  | _ => none

def compositeKey (e : TaskEnvelope) : Str := e.idempotencyKey.getD e.taskId

def toDict (e : TaskEnvelope) : Document :=
  ⟨[("task_id".toList, .str e.taskId), ("flow_id".toList, .str e.flowId),
    ("input".toList, e.input.json), ("headers".toList, e.headers.json),
    ("attempt".toList, .int e.attempt), ("scheduled_at".toList, .float e.scheduledAt.text),
    ("trace".toList, e.trace.json)], by
    have hkeys : Json.wf (.obj [("task_id".toList, .null), ("flow_id".toList, .null),
        ("input".toList, .null), ("headers".toList, .null), ("attempt".toList, .null),
        ("scheduled_at".toList, .null), ("trace".toList, .null)]) = true := by decide
    have hfloat := e.scheduledAt.valid
    have hinput : Json.wf e.input.json = true := e.input.wf
    have hheaders : Json.wf e.headers.json = true := e.headers.wf
    have htrace : Json.wf e.trace.json = true := e.trace.wf
    rw [Json.wf, Bool.and_eq_true] at hkeys ⊢
    refine ⟨hkeys.1, ?_⟩
    simp only [Json.wfFields, hinput, hheaders, htrace, hfloat, Bool.and_true, Bool.true_and]
    rfl⟩

def withRetry (attempt : ℤ) (scheduledAt : FloatText) (e : TaskEnvelope) : TaskEnvelope :=
  { e with attempt, scheduledAt }

def new (taskId flowId : Str) (input headers trace : Document) (scheduledAt : FloatText) :
    TaskEnvelope :=
  { taskId, flowId, input, headers := headers.erase "task_id".toList, attempt := 0,
    scheduledAt, trace }

-- The values that Python takes for false; a field that holds one reads as an empty mapping.
def isFalse (float : PyFloat) : Json → Bool
  | .null | .bool false | .int 0 | .str [] | .arr [] | .obj [] => true
  | .float t => float (.float t) = some 0
  | _ => false

def freezeMapping (float : PyFloat) (v : Json) : Except Error Document :=
  if isFalse float v then .ok Document.empty
  else
    match Document.ofJson? v with
    | some d => .ok d
    | none => .error (.typeError "expected mapping for task field")

def fromDict (py : PyText) (float : PyFloat) (clock : Clock) (doc : Document) :
    Except Error TaskEnvelope := do
  let taskId := py.str ((doc.get? "task_id".toList).getD .null)
  if taskId = [] then throw (.valueError "task payload missing task_id")
  let flowId := py.str ((doc.get? "flow_id".toList).getD .null)
  if flowId = [] then throw (.valueError "task payload missing flow_id")
  let attempt ← pyInt float ((doc.get? "attempt".toList).getD (.int 0))
  let scheduledAt ←
    match doc.get? "scheduled_at".toList with
    | none | some .null => pure clock.stamp
    | some v => py.floatText v
  let input ← freezeMapping float ((doc.get? "input".toList).getD .null)
  let headers ← freezeMapping float ((doc.get? "headers".toList).getD .null)
  let trace ← freezeMapping float ((doc.get? "trace".toList).getD .null)
  pure { taskId, flowId, input, headers, attempt, scheduledAt, trace }

theorem freezeMapping_json (float : PyFloat) (d : Document) :
    freezeMapping float d.json = .ok d := by
  rw [freezeMapping, Document.ofJson?_json]
  split_ifs with h
  · obtain ⟨_ | ⟨f, fs⟩, hwf⟩ := d
    · rfl
    · cases h
  · rfl

theorem fromDict_toDict (py : PyText) (float : PyFloat) (clock : Clock) (e : TaskEnvelope)
    (hid : e.taskId ≠ []) (hflow : e.flowId ≠ []) :
    fromDict py float clock e.toDict = .ok e := by
  have hget : ∀ k v, e.toDict.fields.lookup k = some v → e.toDict.get? k = some v :=
    fun _ _ h => h
  rw [fromDict, hget "task_id".toList (.str e.taskId) rfl,
    hget "flow_id".toList (.str e.flowId) rfl, hget "attempt".toList (.int e.attempt) rfl,
    hget "scheduled_at".toList (.float e.scheduledAt.text) rfl,
    hget "input".toList e.input.json rfl, hget "headers".toList e.headers.json rfl,
    hget "trace".toList e.trace.json rfl]
  simp only [Option.getD_some, py.str_str, py.floatText_float, freezeMapping_json]
  rw [if_neg hid, if_neg hflow]
  rfl

theorem eq_of_fromDict_toDict {py : PyText} {float : PyFloat} {clock : Clock}
    {e e' : TaskEnvelope} (h : fromDict py float clock e.toDict = .ok e') : e' = e := by
  by_cases hid : e.taskId = []
  · have hget : e.toDict.get? "task_id".toList = some (.str e.taskId) := rfl
    simp only [fromDict, hget, Option.getD_some, py.str_str, if_pos hid] at h
    cases h
  · by_cases hflow : e.flowId = []
    · have hget : e.toDict.get? "task_id".toList = some (.str e.taskId) := rfl
      have hget' : e.toDict.get? "flow_id".toList = some (.str e.flowId) := rfl
      simp only [fromDict, hget, hget', Option.getD_some, py.str_str, if_pos hflow,
        if_neg hid] at h
      cases h
    · rw [fromDict_toDict py float clock e hid hflow] at h
      exact (Except.ok.inj h).symm

end TaskEnvelope

end TraceMind.Queue
