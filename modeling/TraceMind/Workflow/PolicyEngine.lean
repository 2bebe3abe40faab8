import TraceMind.Basic
import TraceMind.Foundation.Fuelled
import TraceMind.Foundation.Json
import TraceMind.Foundation.OrderedDict

namespace TraceMind.Workflow

open Fuelled

abbrev Facts := List (Str × Json)

def isZeroText (text : Str) : Bool :=
  (text.takeWhile (fun c => c ≠ 'e' ∧ c ≠ 'E')).all (fun c => !('1' ≤ c && c ≤ '9'))

-- Python's `bool`.
def truth : Json → Bool
  | .null => false
  | .bool b => b
  | .nan => true
  | .infinity _ => true
  | .int n => decide (n ≠ 0)
  | .float text => !isZeroText text
  | .str s => decide (s ≠ [])
  | .arr items => !items.isEmpty
  | .obj fields => !fields.isEmpty

def andToken : Str := "AND".toList

def orToken : Str := "OR".toList

def notToken : Str := "NOT".toList

def isWordChar (c : Char) : Bool :=
  ('A' ≤ c && c ≤ 'Z') || ('a' ≤ c && c ≤ 'z') || ('0' ≤ c && c ≤ '9') || c = '_' || c = '.'

def flush (word : Str) (toks : List Str) : List Str := if word = [] then toks else word :: toks

-- The tokens of a text, of which the letters of `word` have been read; `none` is a character that
-- no token has.
def scan (word : Str) : Str → Option (List Str)
  | [] => some (flush word [])
  | '&' :: '&' :: cs => (scan [] cs).map (fun toks => flush word (andToken :: toks))
  | '|' :: '|' :: cs => (scan [] cs).map (fun toks => flush word (orToken :: toks))
  | c :: cs =>
    if isWordChar c then scan (word ++ [c]) cs
    else if isSpace c then (scan [] cs).map (flush word)
    else if c = '!' then (scan [] cs).map (fun toks => flush word (notToken :: toks))
    else if c = '(' ∨ c = ')' then (scan [] cs).map (fun toks => flush word ([c] :: toks))
    else none

def tokenizeCondition (condition : Str) : Option (List Str) := scan [] condition

def unvalidatedSuffix : Str := ".unvalidated".toList

def factValue (state : Facts) (tok : Str) : Bool :=
  if lower tok = "true".toList then true
  else if lower tok = "false".toList then false
  else
    match (OrderedDict.find tok state).getD .null with
    | .null =>
      if unvalidatedSuffix.isSuffixOf tok then
        let validatedKey := tok.take (tok.length - unvalidatedSuffix.length) ++ ".validated".toList
        !truth ((OrderedDict.find validatedKey state).getD .null)
      else false
    | v => truth v

abbrev Evaluated := Fuelled String (Bool × List Str)

def closing (v : Bool) : List Str → Evaluated
  | tok :: toks => if tok = [')'] then ret (v, toks) else fail "missing closing parenthesis"
  | [] => fail "missing closing parenthesis"

mutual

def evalFactor (state : Facts) : ℕ → List Str → Evaluated
  | 0, _ => out
  | _ + 1, [] => fail "unexpected end of condition"
  | n + 1, tok :: toks =>
    if tok = notToken then (evalFactor state n toks).andThen fun r => ret (!r.1, r.2)
    else if tok = ['('] then (evalExpression state n toks).andThen fun r => closing r.1 r.2
    else ret (factValue state tok, toks)

def evalTerm (state : Facts) : ℕ → List Str → Evaluated
  | 0, _ => out
  | n + 1, toks => (evalFactor state n toks).andThen fun r => evalAnd state n r.1 r.2

def evalAnd (state : Facts) : ℕ → Bool → List Str → Evaluated
  | 0, _, _ => out
  | _ + 1, v, [] => ret (v, [])
  | n + 1, v, tok :: toks =>
    if tok = andToken then
      if v then (evalFactor state n toks).andThen fun r => evalAnd state n r.1 r.2
      else evalAnd state n false toks
    else ret (v, tok :: toks)

def evalExpression (state : Facts) : ℕ → List Str → Evaluated
  | 0, _ => out
  | n + 1, toks => (evalTerm state n toks).andThen fun r => evalOr state n r.1 r.2

def evalOr (state : Facts) : ℕ → Bool → List Str → Evaluated
  | 0, _, _ => out
  | _ + 1, v, [] => ret (v, [])
  | n + 1, v, tok :: toks =>
    if tok = orToken then
      if v then evalOr state n true toks
      else (evalTerm state n toks).andThen fun r => evalOr state n r.1 r.2
    else ret (v, tok :: toks)

end

def conditionFuel (toks : List Str) : ℕ := 3 * toks.length + 4

def matchesCondition (condition : Str) (state : Facts) : Bool :=
  match tokenizeCondition (strip condition) with
  | none => false
  | some toks =>
    match evalExpression state (conditionFuel toks) toks with
    | some (.ok (v, [])) => v
    | _ => false

section conjunctions

structure Literal where
  negations : ℕ := 0
  fact : Str

def reserved : List Str := [andToken, orToken, notToken, ['('], [')']]

def Literal.tokens (l : Literal) : List Str := List.replicate l.negations notToken ++ [l.fact]

def Literal.holds (state : Facts) (l : Literal) : Bool :=
  if l.negations % 2 = 0 then factValue state l.fact else !factValue state l.fact

def tailTokens : List Literal → List Str
  | [] => []
  | l :: ls => andToken :: (l.tokens ++ tailTokens ls)

def conjunction (l : Literal) (ls : List Literal) : List Str := l.tokens ++ tailTokens ls

variable {state : Facts}

theorem Literal.holds_succ (k : ℕ) (fact : Str) :
    Literal.holds state ⟨k + 1, fact⟩ = !Literal.holds state ⟨k, fact⟩ := by
  simp only [Literal.holds]
  rcases Nat.mod_two_eq_zero_or_one k with h | h
  · rw [if_pos h, if_neg (by omega)]
  · rw [if_neg (by omega : ¬ k % 2 = 0), if_pos (by omega), Bool.not_not]

theorem evalFactor_literal {l : Literal} (hl : l.fact ∉ reserved) {n : ℕ}
    (hn : l.negations + 1 ≤ n) (rest : List Str) :
    evalFactor state n (l.tokens ++ rest) = ret (l.holds state, rest) := by
  obtain ⟨k, fact⟩ := l
  simp only [reserved, List.mem_cons, List.not_mem_nil, or_false, not_or] at hl
  induction k generalizing n with
  | zero =>
    obtain ⟨m, rfl⟩ := Nat.exists_eq_add_of_lt hn
    change evalFactor state (0 + m + 1) (fact :: rest) = _
    rw [evalFactor, if_neg hl.2.2.1, if_neg hl.2.2.2.1]
    rfl
  | succ k ih =>
    obtain ⟨m, rfl⟩ : ∃ m, n = m + 1 := ⟨n - 1, by omega⟩
    change evalFactor state (m + 1) (notToken :: (Literal.tokens ⟨k, fact⟩ ++ rest)) = _
    rw [evalFactor, if_pos rfl, ih (by dsimp only at hn ⊢; omega), ret_andThen, Literal.holds_succ]

theorem head_tokens (l : Literal) (rest : List Str) :
    ∃ tok toks, l.tokens ++ rest = tok :: toks ∧ (tok = notToken ∨ tok = l.fact) := by
  obtain ⟨k, fact⟩ := l
  cases k with
  | zero => exact ⟨fact, rest, rfl, .inr rfl⟩
  | succ k => exact ⟨notToken, Literal.tokens ⟨k, fact⟩ ++ rest, rfl, .inl rfl⟩

theorem length_tokens (l : Literal) : l.tokens.length = l.negations + 1 := by
  simp [Literal.tokens]

theorem evalAnd_tail (state : Facts) {ls : List Literal} (hls : ∀ l ∈ ls, l.fact ∉ reserved) {n : ℕ}
    (hn : 3 * (tailTokens ls).length + 1 ≤ n) (v : Bool) :
    ∃ rest, evalAnd state n v (tailTokens ls) =
        ret (v && ls.all (Literal.holds state), rest) ∧
      rest.head? ≠ some orToken ∧ ((v && ls.all (Literal.holds state)) = true → rest = []) := by
  induction ls generalizing n v with
  | nil =>
    obtain ⟨m, rfl⟩ : ∃ m, n = m + 1 := ⟨n - 1, by omega⟩
    exact ⟨[], by simp [tailTokens, evalAnd], by simp, fun _ => rfl⟩
  | cons l ls ih =>
    obtain ⟨m, rfl⟩ : ∃ m, n = m + 1 := ⟨n - 1, by omega⟩
    have hl := hls l List.mem_cons_self
    have htail : ∀ l ∈ ls, l.fact ∉ reserved := fun l' h => hls l' (List.mem_cons_of_mem _ h)
    rw [tailTokens, List.length_cons, List.length_append, length_tokens] at hn
    rw [tailTokens, evalAnd, if_pos rfl]
    cases v with
    | true =>
      rw [if_pos rfl, evalFactor_literal hl (by omega), ret_andThen, Bool.true_and, List.all_cons]
      exact ih htail (by omega) (l.holds state)
    | false =>
      rw [if_neg Bool.false_ne_true]
      obtain ⟨tok, toks, htoks, hhead⟩ := head_tokens l (tailTokens ls)
      obtain ⟨k, rfl⟩ : ∃ k, m = k + 1 := ⟨m - 1, by omega⟩
      have hne : tok ≠ andToken ∧ tok ≠ orToken := by
        simp only [reserved, List.mem_cons, List.not_mem_nil, or_false, not_or] at hl
        rcases hhead with rfl | rfl
        · decide
        · exact ⟨hl.1, hl.2.1⟩
      rw [htoks, evalAnd, if_neg hne.1]
      exact ⟨tok :: toks, by simp, by simpa using hne.2, by simp⟩

theorem matchesCondition_conjunction {condition : Str} {l : Literal} {ls : List Literal}
    (htoks : tokenizeCondition (strip condition) = some (conjunction l ls))
    (hplain : ∀ x ∈ l :: ls, x.fact ∉ reserved) :
    matchesCondition condition state = (l :: ls).all (Literal.holds state) := by
  have hlen : (conjunction l ls).length = l.negations + 1 + (tailTokens ls).length := by
    rw [conjunction, List.length_append, length_tokens]
  obtain ⟨rest, heval, hhead, hdone⟩ := evalAnd_tail state
    (fun x hx => hplain x (List.mem_cons_of_mem _ hx))
    (n := 3 * (conjunction l ls).length + 2) (by omega) (l.holds state)
  have hexpr : evalExpression state (conditionFuel (conjunction l ls)) (conjunction l ls) =
      ret ((l :: ls).all (Literal.holds state), rest) := by
    rw [conditionFuel, evalExpression, evalTerm]
    nth_rewrite 2 [conjunction]
    rw [evalFactor_literal (hplain l List.mem_cons_self) (by omega), ret_andThen, heval, ret_andThen]
    cases rest with
    | nil => rfl
    | cons tok toks =>
      rw [evalOr, if_neg (by simpa using hhead)]
      rfl
  rw [matchesCondition, htoks]
  dsimp only
  rw [hexpr]
  cases rest with
  | nil => rfl
  | cons tok toks =>
    have hfalse : (l :: ls).all (Literal.holds state) = false := by
      by_contra htrue
      rw [Bool.not_eq_false] at htrue
      exact absurd (hdone htrue) (List.cons_ne_nil _ _)
    rw [hfalse]
    rfl

end conjunctions

structure Invariant where
  kind : Option Str := none
  id : Option Str := none
  ruleId : Option Str := none
  name : Option Str := none
  condition : Option Str := none
  description : Option Str := none

inductive RequiredFor where
  | absent
  | one (capabilityId : Str)
  | many (capabilityIds : List Str)
  | other

structure GuardSpec where
  name : Option Str := none
  id : Option Str := none
  requiredFor : RequiredFor := .absent

structure PolicySpec where
  invariants : List Invariant := []
  guards : List GuardSpec := []

inductive ViolationKind where
  | invariant
  | guard
deriving DecidableEq

structure PolicyViolation where
  ruleId : Str
  kind : ViolationKind
  detail : Str
deriving DecidableEq

def firstText : List (Option Str) → Str → Str
  | [], default => default
  | some (c :: cs) :: _, _ => c :: cs
  | _ :: texts, default => firstText texts default

def Invariant.conditionText (i : Invariant) : Str := strip (i.condition.getD [])

def Invariant.broken (state : Facts) (i : Invariant) : Bool :=
  i.kind = some "never".toList && !i.conditionText.isEmpty && matchesCondition i.conditionText state

def Invariant.violation (i : Invariant) : PolicyViolation where
  ruleId := firstText [i.id, i.ruleId, i.name] "unknown".toList
  kind := .invariant
  detail := firstText [i.description] ("never ".toList ++ i.conditionText)

def checkState (policy : PolicySpec) (state : Facts) : List PolicyViolation :=
  (policy.invariants.filter (Invariant.broken state)).map Invariant.violation

def guardApplies (capabilityId : Str) : RequiredFor → Bool
  | .absent => false
  | .one id => decide (id = capabilityId)
  | .many ids => decide (capabilityId ∈ ids)
  | .other => false

abbrev Decisions := List (Str × Bool)

def decided (decisions : Decisions) (name : Str) : Bool :=
  (OrderedDict.find name decisions).getD false

def GuardSpec.ruleId (g : GuardSpec) : Str := firstText [g.name, g.id] "guard".toList

def GuardSpec.violation (capabilityId : Str) (g : GuardSpec) : PolicyViolation where
  ruleId := g.ruleId
  kind := .guard
  detail := "guard '".toList ++ g.ruleId ++ "' unsatisfied for ".toList ++ capabilityId

def evaluateGuard (policy : PolicySpec) (capabilityId : Str) (decisions : Decisions) :
    List PolicyViolation :=
  (policy.guards.filter (fun g =>
    guardApplies capabilityId g.requiredFor && !decided decisions g.ruleId)).map
      (GuardSpec.violation capabilityId)

end TraceMind.Workflow
