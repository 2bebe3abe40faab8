import Mathlib.Data.List.Basic
import Mathlib.Data.Int.Basic

-- A float is kept as the text that was written for it.
inductive Json where
  | null
  | bool (b : Bool)
  | nan
  | infinity (negative : Bool)
  | int (n : ℤ)
  | float (text : List Char)
  | str (s : List Char)
  | arr (items : List Json)
  | obj (fields : List (List Char × Json))

namespace Json

def quote : Char := Char.ofNat 34

def backslash : Char := Char.ofNat 92

def intText : ℤ → List Char
  | .ofNat n => Nat.toDigits 10 n
  | .negSucc n => '-' :: Nat.toDigits 10 (n + 1)

def hex4 (n : ℕ) : List Char :=
  [n / 4096 % 16, n / 256 % 16, n / 16 % 16, n % 16].map Nat.digitChar

def escapeUnit (n : ℕ) : List Char := backslash :: 'u' :: hex4 n

def shortEscape (c : Char) : Option Char :=
  if c = quote then some quote
  else if c = backslash then some backslash
  else if c.toNat = 10 then some 'n'
  else if c.toNat = 13 then some 'r'
  else if c.toNat = 9 then some 't'
  else if c.toNat = 12 then some 'f'
  else if c.toNat = 8 then some 'b'
  else none

def escapeChar (c : Char) : List Char :=
  match shortEscape c with
  | some l => [backslash, l]
  | none =>
    if 32 ≤ c.toNat ∧ c.toNat ≤ 126 then [c]
    else if c.toNat < 0x10000 then escapeUnit c.toNat
    else escapeUnit (0xd800 + (c.toNat - 0x10000) / 1024) ++
      escapeUnit (0xdc00 + (c.toNat - 0x10000) % 1024)

def dumpString (s : List Char) : List Char := quote :: (s.flatMap escapeChar ++ [quote])

mutual

def dumps : Json → List Char
  | .null => ['n', 'u', 'l', 'l']
  | .bool true => ['t', 'r', 'u', 'e']
  | .bool false => ['f', 'a', 'l', 's', 'e']
  | .nan => ['N', 'a', 'N']
  | .infinity false => ['I', 'n', 'f', 'i', 'n', 'i', 't', 'y']
  | .infinity true => ['-', 'I', 'n', 'f', 'i', 'n', 'i', 't', 'y']
  | .int n => intText n
  | .float t => t
  | .str s => dumpString s
  | .arr [] => ['[', ']']
  | .arr (v :: vs) => '[' :: (dumps v ++ dumpItems vs)
  | .obj [] => ['{', '}']
  | .obj ((k, v) :: fs) => '{' :: (dumpString k ++ ':' :: (dumps v ++ dumpFields fs))

def dumpItems : List Json → List Char
  | [] => [']']
  | v :: vs => ',' :: (dumps v ++ dumpItems vs)

def dumpFields : List (List Char × Json) → List Char
  | [] => ['}']
  | (k, v) :: fs => ',' :: (dumpString k ++ ':' :: (dumps v ++ dumpFields fs))

end

-- The other ways of writing the same value: characters that are not ASCII kept as they are, and
-- blanks behind the separators.
structure Style where
  raw : Bool
  gaps : Bool

def rawChar (c : Char) : List Char :=
  match shortEscape c with
  | some l => [backslash, l]
  | none => if c.toNat < 32 then escapeUnit c.toNat else [c]

namespace Style

def compact : Style := ⟨false, false⟩

def char (st : Style) (c : Char) : List Char := if st.raw then rawChar c else escapeChar c

def string (st : Style) (s : List Char) : List Char := quote :: (s.flatMap st.char ++ [quote])

def gap (st : Style) : List Char := if st.gaps then [' '] else []

mutual

def render (st : Style) : Json → List Char
  | .null => ['n', 'u', 'l', 'l']
  | .bool true => ['t', 'r', 'u', 'e']
  | .bool false => ['f', 'a', 'l', 's', 'e']
  | .nan => ['N', 'a', 'N']
  | .infinity false => ['I', 'n', 'f', 'i', 'n', 'i', 't', 'y']
  | .infinity true => ['-', 'I', 'n', 'f', 'i', 'n', 'i', 't', 'y']
  | .int n => intText n
  | .float t => t
  | .str s => st.string s
  | .arr [] => ['[', ']']
  | .arr (v :: vs) => '[' :: (st.render v ++ st.renderItems vs)
  | .obj [] => ['{', '}']
  | .obj ((k, v) :: fs) =>
    '{' :: (st.string k ++ ':' :: (st.gap ++ (st.render v ++ st.renderFields fs)))

def renderItems (st : Style) : List Json → List Char
  | [] => [']']
  | v :: vs => ',' :: (st.gap ++ (st.render v ++ st.renderItems vs))

def renderFields (st : Style) : List (List Char × Json) → List Char
  | [] => ['}']
  | (k, v) :: fs =>
    ',' :: (st.gap ++ (st.string k ++ ':' :: (st.gap ++ (st.render v ++ st.renderFields fs))))

end

end Style

def isBlank (c : Char) : Bool := c = ' ' || c.toNat = 9 || c.toNat = 10 || c.toNat = 13

def isEnd (c : Char) : Bool := isBlank c || c = ',' || c = ']' || c = '}'

def isAtomChar (c : Char) : Bool :=
  !isEnd c && c != '[' && c != '{' && c != ':' && c != quote

def digitsOnly (s : List Char) : Bool := !s.isEmpty && s.all Char.isDigit

def isExponent : List Char → Bool
  | 'e' :: '-' :: ds => digitsOnly ds
  | 'e' :: '+' :: ds => digitsOnly ds
  | 'e' :: ds => digitsOnly ds
  | 'E' :: '-' :: ds => digitsOnly ds
  | 'E' :: '+' :: ds => digitsOnly ds
  | 'E' :: ds => digitsOnly ds
  | _ => false

def isFloatTail (s : List Char) : Bool :=
  match s with
  | '.' :: rest =>
    let frac := rest.takeWhile Char.isDigit
    let tail := rest.dropWhile Char.isDigit
    !frac.isEmpty && (tail.isEmpty || isExponent tail)
  | _ => isExponent s

def unsigned (s : List Char) : List Char :=
  match s with
  | '-' :: rest => rest
  | _ => s

def isIntPart (s : List Char) : Bool := s = ['0'] || (digitsOnly s && s.head? != some '0')

def natValue (s : List Char) : ℕ := Nat.ofDigitChars 10 s 0

def intValue (s : List Char) : ℤ :=
  match s with
  | '-' :: rest => -(natValue rest : ℤ)
  | _ => natValue s

def number (s : List Char) : Option Json :=
  let whole := (unsigned s).takeWhile Char.isDigit
  let tail := (unsigned s).dropWhile Char.isDigit
  if isIntPart whole then
    if tail = [] then some (.int (intValue s))
    else if isFloatTail tail then some (.float s)
    else none
  else none

def word (s : List Char) : Option Json :=
  if s = ['n', 'u', 'l', 'l'] then some .null
  else if s = ['t', 'r', 'u', 'e'] then some (.bool true)
  else if s = ['f', 'a', 'l', 's', 'e'] then some (.bool false)
  else if s = ['N', 'a', 'N'] then some .nan
  else if s = ['I', 'n', 'f', 'i', 'n', 'i', 't', 'y'] then some (.infinity false)
  else if s = ['-', 'I', 'n', 'f', 'i', 'n', 'i', 't', 'y'] then some (.infinity true)
  else none

def atom (s : List Char) : Option Json :=
  match word s with
  | some v => some v
  | none => number s

inductive Frame where
  | items (done : List Json)
  | fields (done : List (List Char × Json))
  | field (done : List (List Char × Json)) (key : List Char)

inductive Escape where
  | plain
  | slash
  | unit (left acc : ℕ)
  | high (hi : ℕ)
  | highSlash (hi : ℕ)
  | low (hi left acc : ℕ)

inductive Mode where
  | value
  | valueOrEnd
  | key
  | keyOrEnd
  | colon
  | after
  | done (v : Json)
  | atom (rev : List Char)
  | string (isKey : Bool) (rev : List Char) (esc : Escape)

structure State where
  stack : List Frame
  mode : Mode

def setField (k : List Char) (v : Json) : List (List Char × Json) → List (List Char × Json)
  | [] => [(k, v)]
  | (k', v') :: fs => if k' = k then (k, v) :: fs else (k', v') :: setField k v fs

def complete (stack : List Frame) (v : Json) : Option State :=
  match stack with
  | [] => some ⟨[], .done v⟩
  | .items done :: K => some ⟨.items (done ++ [v]) :: K, .after⟩
  | .field done k :: K => some ⟨.fields (setField k v done) :: K, .after⟩
  | .fields _ :: _ => none

def completeKey (stack : List Frame) (k : List Char) : Option State :=
  match stack with
  | .fields done :: K => some ⟨.field done k :: K, .colon⟩
  | _ => none

def startValue (K : List Frame) (c : Char) : Option State :=
  if c = '{' then some ⟨.fields [] :: K, .keyOrEnd⟩
  else if c = '[' then some ⟨.items [] :: K, .valueOrEnd⟩
  else if c = quote then some ⟨K, .string false [] .plain⟩
  else if isAtomChar c then some ⟨K, .atom [c]⟩
  else none

def startKey (K : List Frame) (c : Char) : Option State :=
  if c = quote then some ⟨K, .string true [] .plain⟩ else none

def close (K : List Frame) (c : Char) : Option State :=
  match K with
  | .items done :: K' => if c = ']' then complete K' (.arr done) else none
  | .fields done :: K' => if c = '}' then complete K' (.obj done) else none
  | _ => none

def next (s : State) (c : Char) : Option State :=
  if isBlank c then some s
  else
    match s with
    | ⟨.items done :: K, .after⟩ =>
      if c = ',' then some ⟨.items done :: K, .value⟩ else close (.items done :: K) c
    | ⟨.fields done :: K, .after⟩ =>
      if c = ',' then some ⟨.fields done :: K, .key⟩ else close (.fields done :: K) c
    | _ => none

def hexValue (c : Char) : Option ℕ :=
  if '0' ≤ c ∧ c ≤ '9' then some (c.toNat - 48)
  else if 'a' ≤ c ∧ c ≤ 'f' then some (c.toNat - 87)
  else if 'A' ≤ c ∧ c ≤ 'F' then some (c.toNat - 55)
  else none

def longEscape (c : Char) : Option Char :=
  if c = quote ∨ c = backslash ∨ c = '/' then some c
  else if c = 'b' then some (Char.ofNat 8)
  else if c = 'f' then some (Char.ofNat 12)
  else if c = 'n' then some (Char.ofNat 10)
  else if c = 'r' then some (Char.ofNat 13)
  else if c = 't' then some (Char.ofNat 9)
  else none

def isHigh (n : ℕ) : Bool := 0xd800 ≤ n && n < 0xdc00

def isLow (n : ℕ) : Bool := 0xdc00 ≤ n && n < 0xe000

def joinUnits (hi lo : ℕ) : Char := Char.ofNat (0x10000 + (hi - 0xd800) * 1024 + (lo - 0xdc00))

def escapeStep (rev : List Char) (esc : Escape) (c : Char) : Option (List Char × Escape) :=
  match esc with
  | .plain => if c.toNat < 32 then none else some (c :: rev, .plain)
  | .slash =>
    if c = 'u' then some (rev, .unit 4 0)
    else (longEscape c).map (fun d => (d :: rev, .plain))
  | .unit left acc => do
    let d ← hexValue c
    let n := acc * 16 + d
    if 1 < left then some (rev, .unit (left - 1) n)
    else if isHigh n then some (rev, .high n)
    else if isLow n then none
    else some (Char.ofNat n :: rev, .plain)
  | .high hi => if c = backslash then some (rev, .highSlash hi) else none
  | .highSlash hi => if c = 'u' then some (rev, .low hi 4 0) else none
  | .low hi left acc => do
    let d ← hexValue c
    let n := acc * 16 + d
    if 1 < left then some (rev, .low hi (left - 1) n)
    else if isLow n then some (joinUnits hi n :: rev, .plain)
    else none

def isPlain : Escape → Bool
  | .plain => true
  | _ => false

def stringStep (K : List Frame) (isKey : Bool) (rev : List Char) (esc : Escape) (c : Char) :
    Option State :=
  if isPlain esc ∧ c = quote then
    if isKey then completeKey K rev.reverse else complete K (.str rev.reverse)
  else if isPlain esc ∧ c = backslash then some ⟨K, .string isKey rev .slash⟩
  else (escapeStep rev esc c).map (fun p => ⟨K, .string isKey p.1 p.2⟩)

def step (s : State) (c : Char) : Option State :=
  match s with
  | ⟨K, .value⟩ => if isBlank c then some s else startValue K c
  | ⟨K, .valueOrEnd⟩ =>
    if isBlank c then some s else if c = ']' then close K c else startValue K c
  | ⟨K, .key⟩ => if isBlank c then some s else startKey K c
  | ⟨K, .keyOrEnd⟩ => if isBlank c then some s else if c = '}' then close K c else startKey K c
  | ⟨K, .colon⟩ =>
    if isBlank c then some s else if c = ':' then some ⟨K, .value⟩ else none
  | ⟨_, .after⟩ => next s c
  | ⟨_, .done _⟩ => next s c
  | ⟨K, .atom rev⟩ =>
    if isEnd c then do
      let v ← Json.atom rev.reverse
      let t ← complete K v
      next t c
    else if isAtomChar c then some ⟨K, .atom (c :: rev)⟩
    else none
  | ⟨K, .string isKey rev esc⟩ => stringStep K isKey rev esc c

def run (s : State) (cs : List Char) : Option State := cs.foldlM step s

def finish (s : State) : Option Json :=
  match s with
  | ⟨[], .done v⟩ => some v
  | ⟨[], .atom rev⟩ => Json.atom rev.reverse
  | _ => none

-- `none` is a text that does not decode.
def loads (cs : List Char) : Option Json := do
  let s ← run ⟨[], .value⟩ cs
  finish s

end Json
