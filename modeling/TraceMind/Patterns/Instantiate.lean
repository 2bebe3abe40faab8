import TraceMind.Foundation.OrderedDict
import TraceMind.Verify.Parser
import TraceMind.Queue.Recovery

namespace TraceMind.Patterns

open Queue (typeName)
open Verify.Ctl (parseExpr)

section format

inductive Piece where
  | literal (text : Str)
  | field (name : Str) (conversion : Option Char) (spec : Str)
deriving DecidableEq

def openBrace : Char := '\x7b'

def closeBrace : Char := '\x7d'

def single (brace : Char) : String :=
  "Single '" ++ String.ofList [brace] ++ "' encountered in format string"

def unexpectedBrace : String := "unexpected '" ++ String.ofList [openBrace] ++ "' in field name"

def expectedBrace : String :=
  "expected '" ++ String.ofList [closeBrace] ++ "' before end of string"

def unmatchedBrace : String := "unmatched '" ++ String.ofList [openBrace] ++ "' in format spec"

def isBrace (c : Char) : Bool := c = openBrace || c = closeBrace

def fieldName : Bool → Str → Except String (Str × Str)
  | _, [] => .error expectedBrace
  | true, c :: cs => (fieldName (c ≠ ']') cs).map (Prod.map (c :: ·) id)
  | false, c :: cs =>
    if c = openBrace then .error unexpectedBrace
    else if c = closeBrace ∨ c = ':' ∨ c = '!' then .ok ([], c :: cs)
    else (fieldName (c = '[') cs).map (Prod.map (c :: ·) id)

def formatSpec : ℕ → Str → Except String (Str × Str)
  | _, [] => .error unmatchedBrace
  | depth, c :: cs =>
    if c = closeBrace ∧ depth = 0 then .ok ([], cs)
    else
      (formatSpec (if c = openBrace then depth + 1 else if c = closeBrace then depth - 1 else depth)
        cs).map (Prod.map (c :: ·) id)

def conversion : Str → Except String (Option Char × Str × Str)
  | [] => .error "end of string while looking for conversion specifier"
  | [_] => .error unmatchedBrace
  | c :: d :: cs =>
    if d = closeBrace then .ok (some c, [], cs)
    else if d = ':' then (formatSpec 0 cs).map (fun (spec, rest) => (some c, spec, rest))
    else .error "expected ':' after conversion specifier"

def parseField (s : Str) : Except String (Piece × Str) := do
  let (name, rest) ← fieldName false s
  match rest with
  | [] => .error expectedBrace
  | c :: cs =>
    if c = closeBrace then .ok (.field name none [], cs)
    else if c = ':' then
      let (spec, rest) ← formatSpec 0 cs
      .ok (.field name none spec, rest)
    else
      let (conv, spec, rest) ← conversion cs
      .ok (.field name conv spec, rest)

def piecesAux : ℕ → Str → List Piece × Option String
  | 0, _ => ([], none)
  | n + 1, s =>
    let text := s.takeWhile (fun c => !isBrace c)
    match s.dropWhile (fun c => !isBrace c) with
    | [] => (if text = [] then [] else [.literal text], none)
    | [c] => ([], some (single c))
    | c :: d :: rest =>
      if c = d then
        let (pieces, mistake) := piecesAux n rest
        (.literal (text ++ [c]) :: pieces, mistake)
      else if c = closeBrace then ([], some (single c))
      else
        match parseField (d :: rest) with
        | .error message => ([], some message)
        | .ok (field, rest) =>
          let (pieces, mistake) := piecesAux n rest
          (.literal text :: field :: pieces, mistake)

def pieces (s : Str) : List Piece × Option String := piecesAux (s.length + 1) s

inductive FormatError where
  | keyError (key : Str)
  | indexError (message : String)
  | valueError (message : String)
  | other (error : Err)

-- Attributes and items of a value, conversions and format specifications.
class PyFormat where
  repr : Str → Str
  special : (Str → Option Str) → Str → Str → Option Char → Str → Except FormatError Str

def isSeparator (c : Char) : Bool := c = '.' || c = '['

variable [PyFormat]

def fieldValue (fills : Str → Option Str) (first : Str) : Except FormatError Str :=
  if first.all Char.isDigit then
    if 2 ^ 63 ≤ Json.natValue first then
      .error (.valueError "Too many decimal digits in format string")
    else .error (.indexError "Replacement index out of range for positional args tuple")
  else
    match fills first with
    | some v => .ok v
    | none => .error (.keyError first)

def renderPiece (fills : Str → Option Str) : Piece → Except FormatError Str
  | .literal text => .ok text
  | .field name conv spec => do
    let first := name.takeWhile (fun c => !isSeparator c)
    let rest := name.dropWhile (fun c => !isSeparator c)
    let value ← fieldValue fills first
    if rest = [] ∧ conv = none ∧ spec = [] then .ok value
    else PyFormat.special fills value rest conv spec

def format (template : Str) (fills : Str → Option Str) : Except FormatError Str := do
  let texts ← (pieces template).1.mapM (renderPiece fills)
  match (pieces template).2 with
  | some message => .error (.valueError message)
  | none => .ok texts.flatten

end format

section instantiate

structure PropertyPatternSlot where
  name : Str
  required : Bool

structure PropertyPatternBody where
  patternId : Str
  category : Str
  title : Str
  formulaTemplate : Str
  slots : List PropertyPatternSlot

structure PatternInstance where
  patternId : Str
  category : Str
  resolvedFormula : Str
  slotFills : OrderedDict Str Json
  title : Str
  sourceTemplate : Str

inductive Failure where
  | patternInstantiation (message : Str)
  | format (error : FormatError)

variable [PyFormat]

def errText : Err → Str
  | .valueError m | .typeError m | .indexError m => m.toList
  | .keyError m => PyFormat.repr m.toList

def sortedNames (names : List Str) : Str :=
  '[' :: (", ".toList.intercalate
    ((names.dedup.mergeSort (fun a b => decide (a ≤ b))).map PyFormat.repr) ++ [']'])

def patternError (pattern : PropertyPatternBody) (text : Str) : Failure :=
  .patternInstantiation ("pattern '".toList ++ pattern.patternId ++ "': ".toList ++ text)

def validateFill (pattern : PropertyPatternBody) (fill : Str × Json) : Except Failure Unit :=
  match fill.2 with
  | .str value =>
    if strip value = [] then
      .error (patternError pattern ("slot '".toList ++ fill.1 ++ "' value must be non-empty".toList))
    else .ok ()
  | v => .error (patternError pattern ("slot '".toList ++ fill.1 ++
      "' value must be a string, got ".toList ++ (typeName v).toList))

def validateSlotFills (pattern : PropertyPatternBody) (slotFills : OrderedDict Str Json) :
    Except Failure Unit := do
  let declared := pattern.slots.map PropertyPatternSlot.name
  let provided := slotFills.entries.map Prod.fst
  let unknown := provided.filter (· ∉ declared)
  if unknown ≠ [] then
    throw (patternError pattern ("unknown slot(s): ".toList ++ sortedNames unknown ++
      "; declared slots are ".toList ++ sortedNames declared))
  let required := (pattern.slots.filter PropertyPatternSlot.required).map PropertyPatternSlot.name
  let missing := required.filter (· ∉ provided)
  if missing ≠ [] then
    throw (patternError pattern ("missing required slot(s): ".toList ++ sortedNames missing))
  slotFills.entries.forM (validateFill pattern)

def formatFailure (body : PropertyPatternBody) : FormatError → Failure
  | .keyError key => patternError body ("formula_template references undefined slot ".toList ++
      PyFormat.repr key ++ "; this is a pattern-side bug, not a user error".toList)
  | .indexError _ => patternError body
      "formula_template has positional placeholder; only named slot placeholders are supported".toList
  | e => .format e

def slotText (slotFills : OrderedDict Str Json) (name : Str) : Option Str :=
  match slotFills.get? name with
  | some (.str value) => some value
  | _ => none

def checkFormula (body : PropertyPatternBody) (resolved : Str) : Except Failure Unit :=
  match parseExpr resolved with
  | .ok _ => .ok ()
  | .error exc => .error (patternError body ("resolved formula failed CTL parse: ".toList ++
      PyFormat.repr resolved ++ "; ".toList ++ errText exc))

def instantiatePattern (body : PropertyPatternBody) (slotFills : OrderedDict Str Json)
    (title : Option Str) (validateFormula : Bool) : Except Failure PatternInstance := do
  validateSlotFills body slotFills
  let resolved ← (format body.formulaTemplate (slotText slotFills)).mapError (formatFailure body)
  cond validateFormula (checkFormula body resolved) (.ok ())
  return {
    patternId := body.patternId
    category := body.category
    resolvedFormula := resolved
    slotFills := slotFills
    title := if title.getD [] = [] then body.title else title.getD []
    sourceTemplate := body.formulaTemplate }

end instantiate

structure IntentBody where
  intentId : Str
  propertyPatternRefs : List Str
  slotFills : OrderedDict Str (OrderedDict Str Json) := OrderedDict.empty

end TraceMind.Patterns
