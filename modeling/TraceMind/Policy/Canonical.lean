import TraceMind.Policy.Deterministic

namespace TraceMind.Policy

open Artifacts
open Queue (Document PyText)
open Json (wfFields_iff wfItems_iff)

def Action.canon : Action → Action
  | .set actuator value => .set (sortKeys actuator) (sortKeys value)
  | .emitEvent event payload => .emitEvent (sortKeys event) (sortKeys payload)
  | .other actionType => .other actionType

def Entry.canon (e : Entry) : Entry := { e with action := e.action.canon }

def ActionLog.canon (log : ActionLog) : ActionLog where
  actions := log.actions.map Entry.canon
  finalPatch := log.finalPatch.mapValues sortKeys

def Action.sorted : Action → Json
  | .set actuator value =>
    .obj [("actuator".toList, actuator), ("type".toList, .str "set".toList), ("value".toList, value)]
  | .emitEvent event payload =>
    .obj [("event".toList, event), ("payload".toList, payload),
      ("type".toList, .str "emit_event".toList)]
  | .other actionType => .obj [("type".toList, .str actionType)]

def Entry.sorted (e : Entry) : Json :=
  .obj [("action".toList, e.action.sorted), ("applied".toList, .bool e.applied),
    ("rule_id".toList, .str e.ruleId)]

def ActionLog.sorted (log : ActionLog) : Json :=
  .obj [("actions".toList, .arr (log.actions.map Entry.sorted)),
    ("final_patch".toList, .obj (sortFields log.finalPatch.entries))]

theorem sortKeysItems_eq (vs : List Json) : sortKeysItems vs = vs.map sortKeys := by
  induction vs with
  | nil => rfl
  | cons v vs ih => rw [sortKeysItems, ih, List.map_cons]

theorem sortKeysFields_eq (fs : List (Str × Json)) :
    sortKeysFields fs = fs.map (fun f => (f.1, sortKeys f.2)) := by
  induction fs with
  | nil => rfl
  | cons f fs ih =>
    obtain ⟨k, v⟩ := f
    rw [sortKeysFields, ih, List.map_cons]

theorem sortKeys_action (a : Action) : sortKeys a.json = a.canon.sorted := by
  cases a <;> rfl

theorem sortKeys_entry (e : Entry) : sortKeys e.json = e.canon.sorted := by
  have ha := sortKeys_action e.action
  show Json.obj [("action".toList, sortKeys e.action.json), _, _] = _
  rw [ha]
  rfl

theorem sortKeys_log (log : ActionLog) : sortKeys log.json = log.canon.sorted := by
  show Json.obj [("actions".toList, .arr (sortKeysItems (log.actions.map Entry.json))),
    ("final_patch".toList, .obj (sortFields (sortKeysFields log.finalPatch.entries)))] = _
  rw [sortKeysItems_eq, sortKeysFields_eq, List.map_map]
  have he : sortKeys ∘ Entry.json = Entry.sorted ∘ Entry.canon := funext sortKeys_entry
  rw [he, ← List.map_map]
  rfl

theorem isSome_canon (log : ActionLog) (k : Str) :
    (log.canon.finalPatch.get? k).isSome = (log.finalPatch.get? k).isSome := by
  rw [ActionLog.canon, OrderedDict.get?_mapValues, Option.isSome_map]

theorem append_canon (log : ActionLog) (e : Entry) :
    (log.append e).canon = log.canon.append e.canon := by
  rw [ActionLog.append, ActionLog.canon, List.map_append]
  rfl

theorem add_canon (log : ActionLog) (ruleId : Str) (a : Action) :
    (log.add ruleId a).canon = log.canon.add ruleId a.canon := by
  cases a with
  | set actuator value =>
    cases actuator with
    | str k =>
      show ActionLog.canon (if _ then _ else _) = if _ then _ else _
      rw [isSome_canon]
      split_ifs with hk
      · exact append_canon log _
      · have happ := append_canon log ⟨ruleId, .set (.str k) value, true⟩
        rw [ActionLog.canon, OrderedDict.mapValues_store]
        exact congrArg (fun l : ActionLog => ActionLog.mk l.actions _) happ
    | null | bool _ | nan | infinity _ | int _ | float _ | arr _ | obj _ =>
      exact append_canon log _
  | emitEvent event payload => exact append_canon log _
  | other actionType => exact append_canon log _

theorem sorted_injective {a b : Action} (h : a.sorted = b.sorted) : a = b := by
  cases a <;> cases b <;> simp_all [Action.sorted]

theorem wf_fields {fs : List (Str × Json)} (h : Json.wf (.obj fs) = true) :
    Json.wfFields fs = true := by
  rw [Json.wf, Bool.and_eq_true] at h
  exact h.2

theorem wf_lookup {fs : List (Str × Json)} (h : Json.wf (.obj fs) = true) {k : Str} {v : Json}
    (hv : fs.lookup k = some v) : Json.wf v = true := by
  obtain ⟨l, r, rfl, -⟩ := List.lookup_eq_some_iff.mp hv
  exact wfFields_iff.mp (wf_fields h) (k, v) (by simp)

theorem sortKeysFields_keys (fs : List (Str × Json)) :
    (sortKeysFields fs).map Prod.fst = fs.map Prod.fst := by
  rw [sortKeysFields_eq, List.map_map]
  rfl

mutual

theorem sortKeys_wf : ∀ v : Json, Json.wf v = true → Json.wf (sortKeys v) = true
  | .null, h | .bool _, h | .nan, h | .infinity _, h | .int _, h | .float _, h | .str _, h => h
  | .arr vs, h => sortKeysItems_wf vs h
  | .obj fs, h => by
    rw [Json.wf, Bool.and_eq_true, decide_eq_true_eq] at h
    exact sortFields_wf ((sortKeysFields_keys fs).symm ▸ h.1) (sortKeysFields_wf fs h.2)

theorem sortKeysItems_wf : ∀ vs : List Json, Json.wfItems vs = true →
    Json.wfItems (sortKeysItems vs) = true
  | [], _ => rfl
  | v :: vs, h => by
    rw [Json.wfItems, Bool.and_eq_true] at h
    rw [sortKeysItems, Json.wfItems, sortKeys_wf v h.1, sortKeysItems_wf vs h.2]
    rfl

theorem sortKeysFields_wf : ∀ fs : List (Str × Json), Json.wfFields fs = true →
    Json.wfFields (sortKeysFields fs) = true
  | [], _ => rfl
  | (k, v) :: fs, h => by
    rw [Json.wfFields, Bool.and_eq_true] at h
    rw [sortKeysFields, Json.wfFields, sortKeys_wf v h.1, sortKeysFields_wf fs h.2]
    rfl

end

end TraceMind.Policy
