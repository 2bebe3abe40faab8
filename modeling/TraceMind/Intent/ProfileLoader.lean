import TraceMind.Artifacts.Models
import TraceMind.Foundation.ParentWalk
import TraceMind.Intent.Completeness

namespace TraceMind.Intent

open Artifacts (JsonFields)
open Queue (PyFloat PyText)

structure PurePath where
  root : Str
  parts : List Str
deriving DecidableEq

namespace PurePath

def ofText (s : Str) : PurePath :=
  let slashes := (s.takeWhile (· = '/')).length
  { root := if slashes = 0 then [] else if slashes = 2 then ['/', '/'] else ['/']
    parts := (s.splitOn '/').filter (fun part => part ≠ [] ∧ part ≠ ['.']) }

def text (p : PurePath) : Str :=
  if p.root = [] ∧ p.parts = [] then ['.'] else p.root ++ ['/'].intercalate p.parts

def name (p : PurePath) : Str := p.parts.getLast?.getD []

def splitName (name : Str) : Str × Str :=
  let after := (name.reverse.takeWhile (· ≠ '.')).reverse
  let before := ((name.reverse.dropWhile (· ≠ '.')).drop 1).reverse
  if before = [] ∨ after = [] then (name, []) else (before, '.' :: after)

def stem (p : PurePath) : Str := (splitName p.name).1

def suffix (p : PurePath) : Str := (splitName p.name).2

def parent (p : PurePath) : PurePath := { p with parts := p.parts.dropLast }

def join (p : PurePath) (s : Str) : PurePath :=
  let q := ofText s
  if q.root = [] then { p with parts := p.parts ++ q.parts } else q

end PurePath

section files

inductive LoadError where
  | valueError (message : Str)
  | other (name : Str)
deriving DecidableEq

structure FileSystem where
  files : List (Except LoadError Json)
  entry : PurePath → Option (Fin files.length)
  expanduser : PurePath → PurePath
  profilesDir : PurePath

variable (fs : FileSystem)

def resolveProfilePath (name : Str) (baseDir : Option PurePath) : PurePath :=
  let candidate := PurePath.ofText name
  let file := name ++ ".yaml".toList
  if lower candidate.suffix ∈ [".yaml".toList, ".yml".toList] ∨ (fs.entry candidate).isSome then
    fs.expanduser candidate
  else
    match baseDir with
    | none => fs.profilesDir.join file
    | some dir =>
      if (fs.entry (dir.join file)).isSome then dir.join file else fs.profilesDir.join file

def readProfile (name : Str) (path : PurePath) : Except LoadError JsonFields :=
  match fs.entry path with
  | none => .error (.valueError ("5W1H profile not found: '".toList ++ name ++
      "' (resolved to ".toList ++ path.text ++ ")".toList))
  | some i =>
    match fs.files.get i with
    | .error e => .error e
    | .ok (.obj raw) => .ok raw
    | .ok _ => .error (.valueError (path.text ++ ": profile must be a YAML mapping".toList))

end files

section layer

variable (py : PyText) (float : PyFloat)

def coerceDimension (raw : Json) : Except LoadError Dimension :=
  match allDimensions.find? (fun d => d.value = lower (strip (py.str raw))) with
  | some d => .ok d
  | none => .error (.valueError ("unknown 5W1H dimension '".toList ++ py.str raw ++ "'".toList))

def coerceSeverity : Json → Except LoadError Severity
  | .bool false => .ok .off
  | .bool true =>
    .error (.valueError "severity 'on'/True is not valid; use error/warn/off".toList)
  | raw =>
    match [Severity.error, .warn, .off].find? (fun s => s.value = lower (strip (py.str raw))) with
    | some s => .ok s
    | none => .error (.valueError ("unknown severity '".toList ++ py.str raw ++ "'".toList))

-- Python's `or` on what stands at a key.
def fieldOr (raw : JsonFields) (key : String) (other : Json) : Json :=
  match raw.lookup key.toList with
  | none => other
  | some v => if Queue.TaskEnvelope.isFalse float v then other else v

def mappingField (label : Str) (raw : JsonFields) (key : String) : Except LoadError JsonFields :=
  match fieldOr float raw key (.obj []) with
  | .obj fields => .ok fields
  | _ => .error (.valueError (label ++ ": ".toList ++ key.toList ++ " must be a mapping".toList))

def slotsField (label : Str) (raw : JsonFields) : Except LoadError (List Str) :=
  match fieldOr float raw "required_slots" (.arr []) with
  | .arr slots => .ok (slots.map py.str)
  | _ => .error (.valueError (label ++ ": required_slots must be a list".toList))

def dimensionEntry {β : Type} (read : Json → Except LoadError β) (f : Str × Json) :
    Except LoadError (Dimension × β) := do
  let v ← read f.2
  let d ← coerceDimension py (.str f.1)
  return (d, v)

def keywordEntry (label : Str) (f : Str × Json) : Except LoadError (Dimension × List Str) :=
  match f.2 with
  | .arr words =>
    (coerceDimension py (.str f.1)).map (fun d =>
      (d, words.map (fun w => lower (strip (py.str w)))))
  | _ => .error (.valueError (label ++ ": heuristic_keywords.".toList ++ f.1 ++
      " must be a list".toList))

def slotsDimension (raw : JsonFields) : Except LoadError (Option Dimension) :=
  match raw.lookup "required_slots_dimension".toList with
  | none => .ok none
  | some .null => .ok none
  | some v => (coerceDimension py v).map some

structure Layer where
  severities : List (Dimension × Severity)
  requiredSlots : List Str
  hints : List (Dimension × Str)
  keywords : List (Dimension × List Str)
  slotsDimension : Option Dimension

def readLayer (label : Str) (raw : JsonFields) : Except LoadError Layer := do
  let overrides ← mappingField float label raw "severity_overrides"
  let severities ← overrides.mapM (dimensionEntry py (coerceSeverity py))
  let requiredSlots ← slotsField py float label raw
  let hintsRaw ← mappingField float label raw "vocabulary_hints"
  let hints ← hintsRaw.mapM (dimensionEntry py (fun v => .ok (py.str v)))
  let keywordsRaw ← mappingField float label raw "heuristic_keywords"
  let keywords ← keywordsRaw.mapM (keywordEntry py label)
  let slotsDimension ← slotsDimension py raw
  return { severities, requiredSlots, hints, keywords, slotsDimension }

def addMissing (existing words : List Str) : List Str :=
  words.foldl (fun acc w => if w ∈ acc then acc else acc ++ [w]) existing

def assignAll {β : Type} (f : Dimension → β) (updates : List (Dimension × β)) : Dimension → β :=
  updates.foldl (fun g u d => if d = u.1 then u.2 else g d) f

def addKeywords (f : Dimension → List Str) (updates : List (Dimension × List Str)) :
    Dimension → List Str :=
  updates.foldl (fun g u d =>
    if d = u.1 then addMissing (g d) (u.2.filter (fun w => w ≠ [])) else g d) f

structure LoadedProfile extends Profile where
  domain : Option Str

def rootProfile : Profile where
  profileId := []
  severities d := some (defaultSeverities d)
  requiredSlots := []
  vocabularyHints _ := none
  heuristicKeywords _ := []
  requiredSlotsDimension := .what

def domainOf (raw : JsonFields) : Option Str :=
  match raw.lookup "domain".toList with
  | none => none
  | some .null => none
  | some (.str s) => if s = [] ∨ s = "null".toList then none else some s
  | some v => some (py.str v)

def layered (label profileId : Str) (raw : JsonFields) (parent : Profile) :
    Except LoadError LoadedProfile :=
  (readLayer py float label raw).map (fun l =>
    { profileId
      severities := assignAll parent.severities (l.severities.map (fun u => (u.1, some u.2)))
      requiredSlots := addMissing parent.requiredSlots l.requiredSlots
      vocabularyHints := assignAll parent.vocabularyHints (l.hints.map (fun u => (u.1, some u.2)))
      heuristicKeywords := addKeywords parent.heuristicKeywords l.keywords
      requiredSlotsDimension := l.slotsDimension.getD parent.requiredSlotsDimension
      domain := domainOf py raw })

end layer

section loading

variable (py : PyText) (float : PyFloat) (fs : FileSystem)

def profileIdOf (raw : JsonFields) (path : PurePath) : Str :=
  py.str (fieldOr float raw "profile_id" (.str path.stem))

def extendsOf (raw : JsonFields) : Option Str :=
  match raw.lookup "extends".toList with
  | none => none
  | some v => if Queue.TaskEnvelope.isFalse float v then none else some (py.str v)

def cycleError (ext : Str) : LoadError :=
  .valueError ("profile extends cycle detected involving '".toList ++ ext ++ "'".toList)

def loadProfile : ℕ → Str → Option PurePath → List Str → Fuelled LoadError LoadedProfile
  | 0, _, _, _ => .out
  | fuel + 1, name, baseDir, seen =>
    let path := resolveProfilePath fs name baseDir
    match readProfile fs name path with
    | .error e => .fail e
    | .ok raw =>
      let profileId := profileIdOf py float raw path
      match extendsOf py float raw with
      | none => some (layered py float path.text profileId raw rootProfile)
      | some ext =>
        if ext = profileId ∨ ext ∈ seen then .fail (cycleError ext)
        else (loadProfile fuel ext (some path.parent) (profileId :: seen)).andThen
          (fun parent => some (layered py float path.text profileId raw parent.toProfile))

end loading

end TraceMind.Intent
