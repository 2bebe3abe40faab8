import TraceMind.Artifacts.Hash
import TraceMind.Artifacts.Models
import TraceMind.Foundation.ParentWalk

namespace TraceMind.Intent

open Artifacts (JsonFields sortFields sortTexts textLe)

def arrayAt (key : String) (fields : JsonFields) : Option (List Json) :=
  match fields.lookup key.toList with
  | some (.arr items) => some items
  | _ => none

def objectAt (key : String) (fields : JsonFields) : Option JsonFields :=
  match fields.lookup key.toList with
  | some (.obj inner) => some inner
  | _ => none

def nonemptyAt (key : String) (fields : JsonFields) : Option Str :=
  match fields.lookup key.toList with
  | some (.str (c :: cs)) => some (c :: cs)
  | _ => none

def asObject : Json → Option JsonFields
  | .obj fields => some fields
  | _ => none

def extractIntents (payload : JsonFields) : Option (List Json) :=
  (arrayAt "intents" payload).orElse (fun _ =>
    (objectAt "spec" payload).bind (fun spec =>
      (arrayAt "intents" spec).orElse (fun _ =>
        (objectAt "spec" spec).bind (arrayAt "intents"))))

def place (index : ℕ) (rest : String) : Str :=
  "intents[".toList ++ Json.intText index ++ "]".toList ++ rest.toList

def extractTraceLinks (intent : JsonFields) (index : ℕ) : JsonFields × Str :=
  match objectAt "trace_links" intent with
  | some links => (links, place index ".trace_links")
  | none =>
    match (objectAt "metadata" intent).bind (objectAt "trace_links") with
    | some links => (links, place index ".metadata.trace_links")
    | none =>
      match (objectAt "spec" intent).bind (objectAt "trace_links") with
      | some links => (links, place index ".spec.trace_links")
      | none => ([], place index ".trace_links")

def hasSuccessCriteria (intent : JsonFields) : Bool :=
  (intent.lookup "success_criteria".toList).isSome ||
    (objectAt "spec" intent).any (fun spec => (spec.lookup "success_criteria".toList).isSome)

structure IntentTreeIssue where
  intentId : Option Str
  path : Str
  message : Str
deriving DecidableEq

structure Row where
  id : Str
  index : ℕ
  intent : JsonFields

namespace Row

def links (r : Row) : JsonFields := (extractTraceLinks r.intent r.index).1

def linkPath (r : Row) : Str := (extractTraceLinks r.intent r.index).2

def issue (r : Row) (path message : Str) : IntentTreeIssue := ⟨some r.id, path, message⟩

end Row

def objectsOf (items : List Json) : List (ℕ × JsonFields) :=
  items.zipIdx.filterMap (fun e => (asObject e.1).map (fun fields => (e.2, fields)))

def entryIssues (items : List Json) : List IntentTreeIssue :=
  items.zipIdx.filterMap (fun e =>
    if (asObject e.1).isSome then none
    else some ⟨none, place e.2 "", "intent entry must be an object".toList⟩)

def rowOf (o : ℕ × JsonFields) : Option (Str × (ℕ × JsonFields)) :=
  (nonemptyAt "id" o.2).map (fun id => (id, o))

def idIssues (intents : List (ℕ × JsonFields)) : List IntentTreeIssue :=
  intents.filterMap (fun o =>
    if (nonemptyAt "id" o.2).isSome then none
    else some ⟨none, place o.1 ".id", "missing or invalid id".toList⟩)

abbrev IdToRows := OrderedDict Str (List (ℕ × JsonFields))

def idToRows (intents : List (ℕ × JsonFields)) : IdToRows :=
  OrderedDict.group (intents.filterMap rowOf)

def duplicateIssues (rows : IdToRows) : List IntentTreeIssue :=
  rows.entries.flatMap (fun e =>
    if 1 < e.2.length then
      e.2.map (fun o => ⟨some e.1, place o.1 ".id",
        "duplicate id '".toList ++ e.1 ++ "'".toList⟩)
    else [])

def existingIds (rows : IdToRows) : List Str := rows.entries.map Prod.fst

def singleRows (rows : IdToRows) : List Row :=
  rows.entries.filterMap (fun e =>
    match e.2 with
    | [(index, intent)] => some ⟨e.1, index, intent⟩
    | _ => none)

section links

inductive ParentLink where
  | root
  | invalid
  | named (id : Str)
deriving DecidableEq

def parentLink (links : JsonFields) : ParentLink :=
  match links.lookup "parent_intent".toList with
  | none => .root
  | some .null => .root
  | some (.str (c :: cs)) => .named (c :: cs)
  | some _ => .invalid

variable (existing : List Str)

def parentIssues (r : Row) : List IntentTreeIssue :=
  let path := r.linkPath ++ ".parent_intent".toList
  match parentLink r.links with
  | .root => []
  | .invalid => [r.issue path "parent_intent must be a non-empty string or null".toList]
  | .named p =>
    if p ∈ existing then []
    else [r.issue path ("parent_intent '".toList ++ p ++ "' does not exist".toList)]

def relatedIssue (r : Row) (e : Json × ℕ) : Option IntentTreeIssue :=
  let path := r.linkPath ++ ".related_intents[".toList ++ Json.intText e.2 ++ "]".toList
  match e.1 with
  | .str (c :: cs) =>
    if c :: cs = r.id then some (r.issue path "related_intents must not reference self".toList)
    else if c :: cs ∈ existing then none
    else some (r.issue path ("related intent '".toList ++ c :: cs ++ "' does not exist".toList))
  | _ => some (r.issue path "related intent id must be a non-empty string".toList)

def relatedIssues (r : Row) : List IntentTreeIssue :=
  match r.links.lookup "related_intents".toList with
  | none => []
  | some (.arr related) => related.zipIdx.filterMap (relatedIssue existing r)
  | some _ =>
    [r.issue (r.linkPath ++ ".related_intents".toList) "related_intents must be an array".toList]

def linkIssues (r : Row) : List IntentTreeIssue :=
  parentIssues existing r ++ relatedIssues existing r

def parentEntry (r : Row) : Option (Str × Str) :=
  match parentLink r.links with
  | .named p => if p ∈ existing then some (r.id, p) else none
  | _ => none

def parentOf (rows : List Row) : List (Str × Str) := rows.filterMap (parentEntry existing)

def noParentNodes (rows : List Row) : List (Str × Str) :=
  rows.filterMap (fun r =>
    if parentLink r.links = .root then some (r.id, r.linkPath ++ ".parent_intent".toList) else none)

end links

def rootIssues (nodes : List (Str × Str)) : List IntentTreeIssue :=
  match sortFields nodes with
  | [] => [⟨none, "intents".toList,
      "missing root intent: exactly one intent without parent_intent is required".toList⟩]
  | [_] => []
  | first :: rest =>
    ⟨none, "intents".toList, "multiple roots detected: ".toList ++
      ", ".toList.intercalate ((first :: rest).map Prod.fst)⟩ ::
    rest.map (fun n => ⟨some n.1, n.2, "non-root intent must define parent_intent".toList⟩)

def cycleIssue (cycle : Str × List Str) : IntentTreeIssue :=
  ⟨some cycle.1, "intents[*].trace_links.parent_intent".toList,
    "parent_intent cycle detected: ".toList ++ " -> ".toList.intercalate cycle.2⟩

def leafIssues (parents : List (Str × Str)) (rows : List Row) : List IntentTreeIssue :=
  rows.filterMap (fun r =>
    if r.id ∈ parents.map Prod.snd then none
    else if hasSuccessCriteria r.intent then none
    else some (r.issue (place r.index ".success_criteria")
      "leaf intent must define success_criteria".toList))

def issueLe (a b : IntentTreeIssue) : Bool :=
  if a.intentId.getD [] ≠ b.intentId.getD [] then textLe (a.intentId.getD []) (b.intentId.getD [])
  else if a.path ≠ b.path then textLe a.path b.path
  else textLe a.message b.message

-- The walk is no deeper than there are ids; `none` would be one that is.
def cyclesOf (existing : List Str) (parents : List (Str × Str)) : Option (List (Str × List Str)) :=
  (ParentWalk.dfsAll (fun n => parents.lookup n) (existing.length + 1) (sortTexts existing)).map
    ParentWalk.Search.cycles

def validateIntentTree (payload : JsonFields) : Option (List IntentTreeIssue) :=
  match extractIntents payload with
  | none => some [⟨none, "intents".toList, "missing intents array".toList⟩]
  | some items =>
    let intents := objectsOf items
    let byId := idToRows intents
    let existing := existingIds byId
    let rows := singleRows byId
    let parents := parentOf existing rows
    (cyclesOf existing parents).map (fun cycles =>
      (entryIssues items ++ idIssues intents ++ duplicateIssues byId ++
        rows.flatMap (linkIssues existing) ++ rootIssues (noParentNodes rows) ++
        cycles.map cycleIssue ++ leafIssues parents rows).insertionSort
          (fun a b => issueLe a b = true))

end TraceMind.Intent
