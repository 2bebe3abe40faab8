import TraceMind.Dsl.Wdl
import TraceMind.Foundation.Fallible

namespace TraceMind.Dsl

section parser

structure SourceLocation where
  line : ℕ
  column : ℕ

structure DslParseError where
  message : Str
  location : Option SourceLocation := none
  filename : Option Str := none

abbrev Parsed := Except DslParseError

inductive RawTree where
  | scalar (value : Str) (location : SourceLocation)
  | sequence (items : List RawTree) (location : SourceLocation)
  | mapping (entries : List (Option Str × SourceLocation × RawTree)) (location : SourceLocation)

abbrev RawEntry := Option Str × SourceLocation × RawTree

structure Line where
  number : ℕ
  indent : ℕ
  content : Str

def lstrip (s : Str) : Str := s.dropWhile isSpace

def isLineBreak (c : Char) : Bool :=
  let n := c.toNat
  (10 ≤ n && n ≤ 13) || (28 ≤ n && n ≤ 30) || n == 0x85 || n == 0x2028 || n == 0x2029

def splitLines : Str → List Str
  | [] => []
  | '\r' :: '\n' :: rest => [] :: splitLines rest
  | c :: rest =>
    if isLineBreak c then [] :: splitLines rest
    else
      match splitLines rest with
      | [] => [[c]]
      | l :: ls => (c :: l) :: ls

variable (filename : Option Str)

def prepareLines : ℕ → List Str → Parsed (List Line)
  | _, [] => .ok []
  | number, current :: rest =>
    let indent := current.takeWhile (fun c => c = ' ' ∨ c = '\t')
    let content := current.drop indent.length
    if strip current = [] then prepareLines (number + 1) rest
    else if indent.contains '\t' then
      .error ⟨"Tabs are not allowed for indentation".toList,
        some ⟨number, indent.idxOf '\t' + 1⟩, filename⟩
    else if startsWith ['#'] (lstrip content) then prepareLines (number + 1) rest
    else do
      let lines ← prepareLines (number + 1) rest
      .ok (⟨number, indent.length, content⟩ :: lines)

def findMappingSeparator (inSingle inDouble escapeNext : Bool) : Str → Option ℕ
  | [] => none
  | c :: cs =>
    if escapeNext then (findMappingSeparator inSingle inDouble false cs).map (· + 1)
    else if c = '\\' then (findMappingSeparator inSingle inDouble true cs).map (· + 1)
    else if c.toNat = 39 ∧ ¬inDouble then
      (findMappingSeparator (!inSingle) inDouble false cs).map (· + 1)
    else if c.toNat = 34 ∧ ¬inSingle then
      (findMappingSeparator inSingle (!inDouble) false cs).map (· + 1)
    else if inSingle ∨ inDouble ∨ c ≠ ':' ∨ cs.head? = some '=' then
      (findMappingSeparator inSingle inDouble false cs).map (· + 1)
    else some 0

def Line.error {α : Type} (line : Line) (message : String) : Parsed α :=
  .error ⟨message.toList, some ⟨line.number, line.indent + 1⟩, filename⟩

def nestedValue (indent : ℕ) (location : SourceLocation) (lines : List Line)
    (block : Parsed (RawTree × List Line)) : Parsed (RawTree × List Line) :=
  match lines with
  | [] => .ok (.mapping [] location, [])
  | next :: _ => if next.indent ≤ indent then .ok (.mapping [] location, lines) else block

mutual

-- Each turn takes a line, so twice the number of the lines bounds the turns.
def parseBlock : ℕ → List Line → Parsed (RawTree × List Line)
  | fuel + 1, line :: rest =>
    let location := ⟨line.number, line.indent + 1⟩
    if startsWith "- ".toList line.content then do
      let (items, rest) ← parseSequence fuel line.indent (line :: rest)
      .ok (.sequence items location, rest)
    else do
      let (entries, rest) ← parseMapping fuel line.indent (line :: rest)
      .ok (.mapping entries location, rest)
  | _, lines => .ok (.mapping [] ⟨0, 0⟩, lines)

def parseMapping : ℕ → ℕ → List Line → Parsed (List RawEntry × List Line)
  | fuel + 1, indent, line :: rest =>
    if line.indent < indent then .ok ([], line :: rest)
    else if indent < line.indent then
      line.error filename "Unexpected indentation (expected begin of mapping entry)"
    else if startsWith "- ".toList line.content then
      line.error filename "List item not allowed in mapping context"
    else
      match findMappingSeparator false false false line.content with
      | none => do
        let location := ⟨line.number, line.indent + 1⟩
        let (entries, rest) ← parseMapping fuel indent rest
        .ok ((none, location, .scalar line.content location) :: entries, rest)
      | some i => do
        let keyText := line.content.take i
        let rawValue := line.content.drop (i + 1)
        let valueText := lstrip rawValue
        let location :=
          ⟨line.number, line.indent + i + 2 + (rawValue.length - valueText.length)⟩
        if strip keyText = [] then line.error filename "Key cannot be empty"
        else
          let (value, rest) ←
            if valueText = [] then nestedValue indent location rest (parseBlock fuel rest)
            else .ok (.scalar valueText location, rest)
          let (entries, rest) ← parseMapping fuel indent rest
          .ok ((some (strip keyText),
            ⟨line.number, line.indent + (keyText.takeWhile isSpace).length + 1⟩, value) ::
              entries, rest)
  | _, _, lines => .ok ([], lines)

def parseSequence : ℕ → ℕ → List Line → Parsed (List RawTree × List Line)
  | fuel + 1, indent, line :: rest =>
    if line.indent < indent then .ok ([], line :: rest)
    else if indent < line.indent then
      line.error filename "Unexpected indentation within list item"
    else if !startsWith "- ".toList line.content then
      line.error filename "Expected '-' to start list item"
    else do
      let rawValue := line.content.drop 2
      let valueText := lstrip rawValue
      let location := ⟨line.number, line.indent + 3 + (rawValue.length - valueText.length)⟩
      let (value, rest) ←
        if valueText = [] then
          match rest with
          | [] => line.error filename "Expected indented block after list item"
          | next :: _ =>
            if next.indent ≤ indent then
              line.error filename "Expected indented block after list item"
            else parseBlock fuel rest
        else if valueText.getLast? = some ':' then
          let keyText := (valueText.dropLast.reverse.dropWhile isSpace).reverse
          if keyText = [] then line.error filename "Empty key in list item mapping"
          else do
            let (nested, rest) ← nestedValue indent location rest (parseBlock fuel rest)
            .ok (.mapping [(some keyText, location, nested)]
              ⟨line.number, line.indent + 1⟩, rest)
        else .ok (.scalar valueText location, rest)
      let (items, rest) ← parseSequence fuel indent rest
      .ok (value :: items, rest)
  | _, _, lines => .ok ([], lines)

end

def parseWdl (text : Str) : Parsed (List RawEntry × SourceLocation) := do
  match ← prepareLines filename 1 (splitLines text) with
  | [] => .error { message := "Document is empty".toList, filename }
  | first :: rest =>
    if first.indent ≠ 0 then
      first.error filename "Document must start at the top indentation level"
    else do
      let (entries, extra) ← parseMapping filename (2 * (first :: rest).length + 1) 0 (first :: rest)
      match extra with
      | [] => .ok (entries, ⟨first.number, first.indent + 1⟩)
      | line :: _ => line.error filename "Unexpected content after document body"

end parser

section builder

structure WdlInput where
  name : Str
  typeName : Str
  location : SourceSpan

structure WdlTrigger where
  triggerType : Str
  config : List (Str × Json)
  location : SourceSpan

structure WdlDocument extends WdlWorkflow where
  inputs : List WdlInput
  triggers : List WdlTrigger

inductive IrError where
  | parse (e : DslParseError)
  | value (message : Str)

abbrev Built := Except IrError

namespace RawTree

mutual

def raw : RawTree → RawNode
  | .scalar value _ => .scalar value
  | .sequence items _ => .sequence (rawItems items)
  | .mapping entries _ => .mapping (rawEntries entries)

def rawItems : List RawTree → List RawNode
  | [] => []
  | item :: items => item.raw :: rawItems items

def rawEntries : List (Option Str × SourceLocation × RawTree) → List (Option Str × RawNode)
  | [] => []
  | (key, _, value) :: entries => (key, value.raw) :: rawEntries entries

end

def location : RawTree → SourceLocation
  | .scalar _ location => location
  | .sequence _ location => location
  | .mapping _ location => location

end RawTree

variable (filename : Option Str)

def span (location : SourceLocation) : SourceSpan := ⟨filename, location.line, location.column⟩

def ctxError {α : Type} (message : Str) (location : SourceLocation) : Built α :=
  .error (.parse ⟨message, some location, filename⟩)

def mappingToDict (result : List (Str × RawTree)) : List RawEntry → Built (List (Str × RawTree))
  | [] => .ok result
  | (none, location, _) :: _ =>
    ctxError filename "Unexpected statement in mapping".toList location
  | (some key, location, value) :: rest =>
    if (result.lookup key).isSome then
      ctxError filename ("Duplicate key '".toList ++ key ++ "'".toList) location
    else mappingToDict (result ++ [(key, value)]) rest

def requireScalarNode (hint : Str) : RawTree → Built (Str × SourceLocation)
  | .scalar value location => .ok (value, location)
  | node => ctxError filename ("Expected scalar for ".toList ++ hint) node.location

def requireScalar (top : List (Str × RawTree)) (key : Str) (container : SourceLocation) :
    Built (Str × SourceLocation) :=
  match top.lookup key with
  | none => ctxError filename ("Missing required key '".toList ++ key ++ "'".toList) container
  | some node => requireScalarNode filename key node

def requireMapping (label : Str) : RawTree → Built (List RawEntry)
  | .mapping entries _ => .ok entries
  | node => ctxError filename ("Expected mapping for ".toList ++ label) node.location

def requireSequence (label : Str) : RawTree → Built (List RawTree)
  | .sequence items _ => .ok items
  | node => ctxError filename ("Expected list for ".toList ++ label) node.location

def namedValues (message : String) (entries : List RawEntry) : Built (List Named) :=
  entries.mapM fun (key, location, value) =>
    match key with
    | none => ctxError filename message.toList location
    | some key => .ok ⟨key, value.raw, span filename location⟩

def parseWdlCallHeader (header : Str) (location : SourceLocation) : Built (Str × Str) :=
  match partition ['('] header with
  | none => ctxError filename "Call step must follow 'name(target)' format".toList location
  | some (name, target) =>
    if header.getLast? ≠ some ')' then
      ctxError filename "Call step must follow 'name(target)' format".toList location
    else if strip name = [] then
      ctxError filename "Step identifier cannot be empty".toList location
    else if strip target.dropLast = [] then
      ctxError filename "Call target cannot be empty".toList location
    else .ok (strip name, strip target.dropLast)

def whenPrefix : Str := "when ".toList

def declareStep (key : Str) (location : SourceLocation) (value : RawTree)
    (body : Built (List WdlStep)) : Built WdlStep :=
  if startsWith whenPrefix key then
    let condition := strip (key.drop whenPrefix.length)
    if condition = [] then
      ctxError filename "When step requires a condition".toList location
    else body.map fun steps => .when condition steps (span filename location)
  else do
    let (stepId, target) ← parseWdlCallHeader filename key location
    let entries ← requireMapping filename ("step '".toList ++ stepId ++ "' arguments".toList) value
    let args ← namedValues filename "Argument name cannot be omitted" entries
    .ok (.call stepId target args (span filename location))

mutual

def parseWdlStep : RawTree → Built WdlStep
  | .mapping [] location => ctxError filename "Empty step declaration".toList location
  | .mapping entries location => firstStep location entries
  | node => ctxError filename "Step must be a mapping entry".toList node.location

def firstStep (location : SourceLocation) :
    List (Option Str × SourceLocation × RawTree) → Built WdlStep
  | [] => ctxError filename "Step declaration missing identifier".toList location
  | (none, _, _) :: rest => firstStep location rest
  | (some key, keyLocation, value) :: _ =>
    declareStep filename key keyLocation value (parseWdlStepBlock value)

def parseWdlStepBlock : RawTree → Built (List WdlStep)
  | .sequence items _ => parseWdlSteps items
  | .mapping entries _ => declareSteps entries
  | node => ctxError filename "When body must be a list or mapping".toList node.location

def parseWdlSteps : List RawTree → Built (List WdlStep)
  | [] => .ok []
  | item :: items => do
    let step ← parseWdlStep item
    let steps ← parseWdlSteps items
    .ok (step :: steps)

def declareSteps : List (Option Str × SourceLocation × RawTree) → Built (List WdlStep)
  | [] => .ok []
  | (none, location, _) :: _ =>
    ctxError filename "Step declarations require a name".toList location
  | (some key, location, value) :: entries => do
    let step ← declareStep filename key location value (parseWdlStepBlock value)
    let steps ← declareSteps entries
    .ok (step :: steps)

end

section triggers

variable (literalEval : Str → Option Json)

def isQuoted (s : Str) : Bool :=
  let ends := (s.head?.map Char.toNat, s.getLast?.map Char.toNat)
  ends = (some 34, some 34) || ends = (some 39, some 39)

mutual

def normalizeConfig : Json → Json
  | .str value =>
    if isQuoted (strip value) then (literalEval (strip value)).getD (.str (strip value))
    else .str (strip value)
  | .arr items => .arr (normalizeItems items)
  | .obj fields => .obj (normalizeFields fields)
  | value => value

def normalizeItems : List Json → List Json
  | [] => []
  | item :: items => normalizeConfig item :: normalizeItems items

def normalizeFields : List (List Char × Json) → List (Str × Json)
  | [] => []
  | (key, item) :: fields => (key, normalizeConfig item) :: normalizeFields fields

end

def expectScalarText (label : Str) : RawTree → Built Str
  | .scalar value _ =>
    match normalizeConfig literalEval (.str (strip value)) with
    | .str normalized => .ok normalized
    | _ => .ok (strip value)
  | node => ctxError filename ("Expected scalar text for ".toList ++ label) node.location

def renderValue (value : RawTree) : Built Json := (renderRawNode value.raw).mapError .value

def parseTriggerMapping (entries : List RawEntry) : Built (List WdlTrigger) :=
  let isType := fun entry : RawEntry => decide (entry.1 = some "type".toList)
  let keyed := fun entry : RawEntry => entry.1.map fun key => (key, entry.2)
  match entries.find? isType with
  | some (_, location, value) => do
    let triggerType ← expectScalarText filename literalEval "trigger type".toList value
    let config ← ((entries.eraseP isType).filterMap keyed).mapM fun (key, _, value) =>
      (renderValue value).map fun rendered => (key, rendered)
    .ok [⟨triggerType, toDict config, span filename location⟩]
  | none => (entries.filterMap keyed).mapM fun (key, location, value) => do
    let rendered ← renderValue value
    let config := match normalizeConfig literalEval rendered with
      | .obj fields => fields
      | other => [("value".toList, other)]
    .ok ⟨key, config, span filename location⟩

def parseWdlTriggers : RawTree → Built (List WdlTrigger)
  | .sequence items _ => do
    let triggers ← items.mapM fun item =>
      match item with
      | .mapping entries _ => parseTriggerMapping filename literalEval entries
      | node => ctxError filename "Trigger entries must be mappings".toList node.location
    .ok triggers.flatten
  | .mapping entries _ => parseTriggerMapping filename literalEval entries
  | node => ctxError filename "Expected list or mapping for triggers".toList node.location

def parseWdlInputs (node : RawTree) : Built (List WdlInput) := do
  let entries ← requireMapping filename "inputs".toList node
  entries.mapM fun (key, location, value) =>
    match key with
    | none => ctxError filename "Input declarations must have a name".toList location
    | some key => (requireScalarNode filename "input type".toList value).map fun scalar =>
      ⟨key, strip scalar.1, span filename location⟩

def parseWdlOutputs (node : RawTree) : Built (List Named) := do
  let entries ← requireMapping filename "outputs".toList node
  namedValues filename "Output declarations must have a name" entries

def optional {α : Type} (node : Option RawTree) (parse : RawTree → Built (List α)) :
    Built (List α) :=
  (node.map parse).getD (.ok [])

def requireText (top : List (Str × RawTree)) (key label : Str) (container : SourceLocation) :
    Built Str := do
  let (text, location) ← requireScalar filename top key container
  if strip text = [] then ctxError filename (label ++ " cannot be empty".toList) location
  else .ok (strip text)

def buildWdlIr (root : List RawEntry) (location : SourceLocation) : Built WdlDocument := do
  let top ← mappingToDict filename [] root
  let version ← requireText filename top "version".toList "Workflow version".toList location
  let name ← requireText filename top "workflow".toList "Workflow name".toList location
  let inputs ← optional (top.lookup "inputs".toList) (parseWdlInputs filename)
  let outputs ← optional (top.lookup "outputs".toList) (parseWdlOutputs filename)
  match top.lookup "steps".toList with
  | none => ctxError filename "Workflow must define 'steps'".toList location
  | some node => do
    let items ← requireSequence filename "steps".toList node
    let steps ← parseWdlSteps filename items
    let triggers ←
      optional (top.lookup "triggers".toList) (parseWdlTriggers filename literalEval)
    .ok { version, name, steps, outputs, location := span filename location, inputs, triggers }

end triggers

end builder

section correspondence

def itemEntries : RawTree → List RawEntry
  | .mapping entries _ => entries
  | _ => []

def blockEntries : RawTree → List RawEntry
  | .sequence items _ => items.flatMap itemEntries
  | .mapping entries _ => entries
  | .scalar _ _ => []

variable (filename : Option Str)

mutual

def StandsFor : WdlStep → RawEntry → Prop
  | .call stepId target _ at_, (some key, location, _) =>
    at_ = span filename location ∧
      parseWdlCallHeader filename key location = .ok (stepId, target)
  | .when condition steps at_, (some key, location, value) =>
    at_ = span filename location ∧ startsWith whenPrefix key = true ∧
      condition = strip (key.drop whenPrefix.length) ∧ StandForAll steps (blockEntries value)
  | _, (none, _, _) => False

def StandForAll : List WdlStep → List RawEntry → Prop
  | [], [] => True
  | step :: steps, entry :: entries => StandsFor step entry ∧ StandForAll steps entries
  | _, _ => False

end

mutual

def OneEach : RawTree → Prop
  | .sequence items _ => OneEachItem items
  | .mapping entries _ => OneEachBody entries
  | .scalar _ _ => True

def OneEachItem : List RawTree → Prop
  | [] => True
  | .mapping entries _ :: items => entries.length = 1 ∧ OneEachBody entries ∧ OneEachItem items
  | _ :: _ => False

def OneEachBody : List (Option Str × SourceLocation × RawTree) → Prop
  | [] => True
  | (none, _, _) :: entries => OneEachBody entries
  | (some key, _, value) :: entries =>
    (startsWith whenPrefix key = true → OneEach value) ∧ OneEachBody entries

end

variable {filename} {steps : List WdlStep} {step : WdlStep}

theorem standForAll_length (steps : List WdlStep) : ∀ {entries : List RawEntry},
    StandForAll filename steps entries → steps.length = entries.length := by
  induction steps with
  | nil =>
    intro entries h
    cases entries with
    | nil => rfl
    | cons e es => exact h.elim
  | cons step steps ih =>
    intro entries h
    cases entries with
    | nil => exact h.elim
    | cons e es => exact congrArg (· + 1) (ih h.2)

theorem standsFor_declare {key : Str} {location : SourceLocation} {value : RawTree}
    {body : Built (List WdlStep)} (h : declareStep filename key location value body = .ok step)
    (hbody : ∀ steps, body = .ok steps →
      (StandForAll filename steps (blockEntries value) ↔ OneEach value)) :
    StandsFor filename step (some key, location, value) ↔
      (startsWith whenPrefix key = true → OneEach value) := by
  rw [declareStep] at h
  by_cases hwhen : startsWith whenPrefix key = true
  · rw [if_pos hwhen] at h
    dsimp only at h
    split_ifs at h
    · cases h
    · obtain ⟨steps, hsteps, rfl⟩ := Fallible.map_eq_ok.mp h
      rw [StandsFor, hbody steps hsteps]
      exact ⟨fun hs _ => hs.2.2.2, fun hone => ⟨rfl, hwhen, rfl, hone hwhen⟩⟩
  · rw [if_neg hwhen] at h
    obtain ⟨⟨stepId, target⟩, hheader, h⟩ := Fallible.bind_eq_ok.mp h
    obtain ⟨entries, -, h⟩ := Fallible.bind_eq_ok.mp h
    obtain ⟨args, -, h⟩ := Fallible.bind_eq_ok.mp h
    cases h
    rw [StandsFor]
    exact iff_of_true ⟨rfl, hheader⟩ (fun hw => absurd hw hwhen)

theorem parseWdlStep_mapping {node : RawTree} (h : parseWdlStep filename node = .ok step) :
    ∃ entries location, node = .mapping entries location ∧ entries ≠ [] ∧
      firstStep filename location entries = .ok step := by
  cases node with
  | scalar value location => cases h
  | sequence items location => cases h
  | mapping entries location =>
    cases entries with
    | nil => cases h
    | cons e es => exact ⟨e :: es, location, rfl, List.cons_ne_nil _ _, h⟩

theorem steps_le_entries {items : List RawTree} (h : parseWdlSteps filename items = .ok steps) :
    steps.length ≤ (items.flatMap itemEntries).length := by
  induction items generalizing steps with
  | nil =>
    cases h
    exact Nat.zero_le _
  | cons item items ih =>
    obtain ⟨step, hstep, h⟩ := Fallible.bind_eq_ok.mp h
    obtain ⟨rest, hrest, h⟩ := Fallible.bind_eq_ok.mp h
    cases h
    obtain ⟨entries, location, rfl, hne, -⟩ := parseWdlStep_mapping hstep
    have hpos := List.length_pos_of_ne_nil hne
    have hle := ih hrest
    rw [List.flatMap_cons, List.length_append, List.length_cons, itemEntries]
    omega

mutual

theorem block_iff : ∀ (tree : RawTree) (steps : List WdlStep),
    parseWdlStepBlock filename tree = .ok steps →
      (StandForAll filename steps (blockEntries tree) ↔ OneEach tree)
  | .scalar _ _, _, h => by cases h
  | .sequence items _, steps, h => by
    rw [blockEntries, OneEach]
    exact items_iff items steps h
  | .mapping entries _, steps, h => by
    rw [blockEntries, OneEach]
    exact entries_iff entries steps h

theorem items_iff : ∀ (items : List RawTree) (steps : List WdlStep),
    parseWdlSteps filename items = .ok steps →
      (StandForAll filename steps (items.flatMap itemEntries) ↔ OneEachItem items)
  | [], steps, h => by
    cases h
    exact iff_of_true trivial trivial
  | .scalar _ _ :: _, _, h => by cases h
  | .sequence _ _ :: _, _, h => by cases h
  | .mapping entries location :: items, steps, h => by
    obtain ⟨step, hstep, h⟩ := Fallible.bind_eq_ok.mp h
    obtain ⟨rest, hrest, h⟩ := Fallible.bind_eq_ok.mp h
    cases h
    obtain ⟨_, _, he, hne, hfirst⟩ := parseWdlStep_mapping hstep
    cases he
    have hle := steps_le_entries hrest
    rw [List.flatMap_cons, itemEntries, OneEachItem]
    cases entries with
    | nil => exact absurd rfl hne
    | cons e es =>
      cases es with
      | nil =>
        have hone := first_iff e location step hfirst
        rw [List.singleton_append, StandForAll, hone, items_iff items rest hrest]
        exact (and_iff_right rfl).symm
      | cons e' es =>
        refine iff_of_false (fun hs => ?_) (fun hs => absurd hs.1 (by simp))
        have hlen := standForAll_length _ hs
        simp only [List.length_cons, List.length_append] at hlen
        omega

theorem entries_iff : ∀ (entries : List (Option Str × SourceLocation × RawTree))
    (steps : List WdlStep), declareSteps filename entries = .ok steps →
      (StandForAll filename steps entries ↔ OneEachBody entries)
  | [], steps, h => by
    cases h
    exact iff_of_true trivial trivial
  | (none, _, _) :: _, _, h => by cases h
  | (some key, location, value) :: entries, steps, h => by
    obtain ⟨step, hstep, h⟩ := Fallible.bind_eq_ok.mp h
    obtain ⟨rest, hrest, h⟩ := Fallible.bind_eq_ok.mp h
    cases h
    rw [StandForAll, OneEachBody, standsFor_declare hstep (block_iff value),
      entries_iff entries rest hrest]

theorem first_iff : ∀ (e : Option Str × SourceLocation × RawTree) (location : SourceLocation)
    (step : WdlStep), firstStep filename location [e] = .ok step →
      (StandsFor filename step e ↔ OneEachBody [e])
  | (none, _, _), _, _, h => by cases h
  | (some key, keyLocation, value), location, step, h => by
    rw [standsFor_declare h (block_iff value), OneEachBody, OneEachBody, and_true]

end

theorem mappingToDict_lookup {key : Str} {value : RawTree} {root : List RawEntry}
    {result top : List (Str × RawTree)} (h : mappingToDict filename result root = .ok top)
    (hl : top.lookup key = some value) :
    result.lookup key = some value ∨ ∃ location, (some key, location, value) ∈ root := by
  induction root generalizing result with
  | nil =>
    cases h
    exact Or.inl hl
  | cons e es ih =>
    obtain ⟨_ | k, location, v⟩ := e
    · cases h
    · rw [mappingToDict] at h
      split_ifs at h
      · cases h
      · rcases ih h with hlookup | ⟨l, hmem⟩
        · rw [List.lookup_append, Option.or_eq_some_iff] at hlookup
          refine hlookup.imp_right ?_
          rintro ⟨-, hlast⟩
          rw [List.lookup_cons] at hlast
          split at hlast
          · rename_i heq
            cases hlast
            rw [eq_of_beq heq]
            exact ⟨location, List.mem_cons_self⟩
          · cases hlast
        · exact Or.inr ⟨l, List.mem_cons_of_mem _ hmem⟩

theorem buildWdlIr_steps {literalEval : Str → Option Json} {root : List RawEntry}
    {location : SourceLocation} {document : WdlDocument}
    (h : buildWdlIr filename literalEval root location = .ok document) :
    ∃ at_ items itemsAt, (some "steps".toList, at_, .sequence items itemsAt) ∈ root ∧
      parseWdlSteps filename items = .ok document.steps := by
  rw [buildWdlIr] at h
  obtain ⟨top, htop, h⟩ := Fallible.bind_eq_ok.mp h
  obtain ⟨version, -, h⟩ := Fallible.bind_eq_ok.mp h
  obtain ⟨name, -, h⟩ := Fallible.bind_eq_ok.mp h
  obtain ⟨inputs, -, h⟩ := Fallible.bind_eq_ok.mp h
  obtain ⟨outputs, -, h⟩ := Fallible.bind_eq_ok.mp h
  cases hsteps : top.lookup "steps".toList with
  | none =>
    rw [hsteps] at h
    cases h
  | some node =>
    rw [hsteps] at h
    obtain ⟨items, hitems, h⟩ := Fallible.bind_eq_ok.mp h
    obtain ⟨steps, hparse, h⟩ := Fallible.bind_eq_ok.mp h
    obtain ⟨triggers, -, h⟩ := Fallible.bind_eq_ok.mp h
    cases h
    cases node with
    | scalar value location => cases hitems
    | mapping entries location => cases hitems
    | sequence _ itemsAt =>
      cases hitems
      rcases mappingToDict_lookup htop hsteps with hnil | ⟨at_, hmem⟩
      · cases hnil
      · exact ⟨at_, items, itemsAt, hmem, hparse⟩

theorem build_wdl_ir_iff {literalEval : Str → Option Json} {root : List RawEntry}
    {location : SourceLocation} {document : WdlDocument}
    (h : buildWdlIr filename literalEval root location = .ok document) :
    ∃ at_ items itemsAt, (some "steps".toList, at_, .sequence items itemsAt) ∈ root ∧
      (StandForAll filename document.steps (items.flatMap itemEntries) ↔ OneEachItem items) := by
  obtain ⟨at_, items, itemsAt, hmem, hparse⟩ := buildWdlIr_steps h
  exact ⟨at_, items, itemsAt, hmem, items_iff items _ hparse⟩

end correspondence

def parsedSteps (text : Str) : Option (List WdlStep × List RawEntry) := do
  let (root, location) ← (parseWdl none text).toOption
  let document ← (buildWdlIr none (fun _ => none) root location).toOption
  let entry ← root.find? fun entry => decide (entry.1 = some "steps".toList)
  some (document.steps, blockEntries entry.2.2)

def twoInOne : Str := "version: 1\nworkflow: w\nsteps:\n  - \n    a(x):\n    b(y):\n".toList

theorem list_item_drops_step : ∃ steps entries, parsedSteps twoInOne = some (steps, entries) ∧
    steps.length = 1 ∧ entries.length = 2 ∧ ¬StandForAll none steps entries := by
  have h : (parsedSteps twoInOne).map (fun r => (r.1.length, r.2.length)) = some (1, 2) := by
    decide +kernel
  obtain ⟨⟨steps, entries⟩, hparse, hlen⟩ := Option.map_eq_some_iff.mp h
  obtain ⟨hsteps, hentries⟩ := Prod.mk.inj hlen
  refine ⟨steps, entries, hparse, hsteps, hentries, fun hs => ?_⟩
  have hlen := standForAll_length _ hs
  rw [hsteps, hentries] at hlen
  cases hlen

def origin : SourceLocation := ⟨1, 1⟩

def oneStep : List RawTree := [.mapping [(some "a(x)".toList, origin, .mapping [] origin)] origin]

def oneStepRoot : List RawEntry :=
  [(some "version".toList, origin, .scalar ['1'] origin),
    (some "workflow".toList, origin, .scalar ['w'] origin),
    (some "steps".toList, origin, .sequence oneStep origin)]

theorem build_wdl_ir_one_step : ∃ document,
    buildWdlIr none (fun _ => none) oneStepRoot origin = .ok document ∧
      ∃ at_ items itemsAt, (some "steps".toList, at_, .sequence items itemsAt) ∈ oneStepRoot ∧
        (StandForAll none document.steps (items.flatMap itemEntries) ↔ OneEachItem items) := by
  have hrun : ∃ document, buildWdlIr none (fun _ => none) oneStepRoot origin = .ok document :=
    ⟨_, rfl⟩
  obtain ⟨document, h⟩ := hrun
  exact ⟨document, h, build_wdl_ir_iff h⟩

end TraceMind.Dsl
