import TraceMind.Basic
import Mathlib.Data.Int.Basic

namespace TraceMind.Selectors

inductive PathElem where
  | index (i : ℤ)
  | key (s : Str)
deriving DecidableEq, Repr

abbrev Path := List PathElem

def flush (buf : Str) (toks : List Str) : List Str := if buf = [] then toks else buf :: toks

def scan (expr : Str) : Str → Str → Bool → Except Err (List Str)
  | [], _, true => .error (.valueError ("Unclosed '[' in selector: " ++ String.ofList expr))
  | [], buf, false => .ok (flush buf [])
  | c :: cs, buf, true =>
    if c = ']' then (scan expr cs [] false).map ((buf ++ [c]) :: ·)
    else scan expr cs (buf ++ [c]) true
  | c :: cs, buf, false =>
    if c = '.' then (scan expr cs [] false).map (flush buf)
    else if c = '[' then (scan expr cs ['['] true).map (flush buf)
    else scan expr cs (buf ++ [c]) false

def parse (expr : Str) : Except Err (List Str) := scan expr expr [] false

def isPlain (c : Char) : Bool := decide (c ≠ '.' ∧ c ≠ '[')

theorem scan_run {x : Str} (hx : ∀ c ∈ x, isPlain c = true) (expr buf rest : Str) :
    scan expr (x ++ rest) buf false = scan expr rest (buf ++ x) false := by
  induction x generalizing buf with
  | nil => rw [List.nil_append, List.append_nil]
  | cons c x ih =>
    have hc : c ≠ '.' ∧ c ≠ '[' := of_decide_eq_true (hx c List.mem_cons_self)
    rw [List.cons_append, scan, if_neg hc.1, if_neg hc.2,
      ih (fun d hd => hx d (List.mem_cons_of_mem _ hd)), List.append_assoc]
    rfl

def isBracket (tk : Str) : Bool := startsWith ['['] tk && [']'].isSuffixOf tk

def inner (tk : Str) : Str := (tk.drop 1).dropLast

def digitsValue : Str → Option ℕ → Option ℕ
  | [], acc => acc
  | c :: cs, acc =>
    if c.isDigit then digitsValue cs (some (acc.getD 0 * 10 + (c.toNat - '0'.toNat)))
    else if c = '_' && acc.isSome && (cs.head?.map Char.isDigit).getD false then digitsValue cs acc
    else none

-- Python's `int` on a text, for ASCII digits.
def pyInt (s : Str) : Option ℤ :=
  match strip s with
  | '-' :: ds => (digitsValue ds none).map (fun n => -(n : ℤ))
  | '+' :: ds => (digitsValue ds none).map (fun n => (n : ℤ))
  | ds => (digitsValue ds none).map (fun n => (n : ℤ))

def isIndex : PathElem → Bool
  | .index _ => true
  | .key _ => false

def tokMatches (tk : Str) (v : PathElem) : Bool :=
  if tk = ['*'] then true
  else if tk = ['[', ']'] then isIndex v
  else if isBracket tk then
    if inner tk = [] then isIndex v
    else
      match pyInt (inner tk) with
      | none => false
      | some i => decide (v = .index i)
  else decide (v = .key tk)

def matchToks : List Str → Path → Bool
  | [], path => path.isEmpty
  | _ :: _, [] => false
  | tk :: tks, v :: path => tokMatches tk v && matchToks tks path

def selectorMatch (expr : Str) (path : Path) : Except Err Bool :=
  (parse expr).map (fun toks => matchToks toks path)

end TraceMind.Selectors
