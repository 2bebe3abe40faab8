import TraceMind.Foundation.Fuelled
import TraceMind.Foundation.OrderedDict
import TraceMind.Queue.Envelope
import Mathlib.Data.List.Chain

namespace TraceMind.Policy.Evaluator

open Fuelled
open Queue (Error PyFloat PyText)
open Queue.TaskEnvelope (isFalse)

-- An object of a state mapping as far as a condition looks at it.
class StateValue (V : Type) extends PyValue V where
  isNone : V → Bool
  truthy_of_isNone : ∀ v, isNone v = true → truthy v = false

instance : StateValue (Option Bool) where
  truthy v := v = some true
  pyTrue := some true
  truthy_pyTrue := rfl
  isNone := Option.isNone
  truthy_of_isNone v h := by
    cases v with
    | none => rfl
    | some b => cases h

def andToken : Str := "AND".toList

def orToken : Str := "OR".toList

def notToken : Str := "NOT".toList

def isWordChar (c : Char) : Bool := c.isAlphanum || c = '_' || c = '.'

-- The alternatives of the loop; every turn takes a character, so the length bounds the turns.
def tokenizeFrom : ℕ → Str → Except Error (List Str)
  | _, [] => .ok []
  | 0, _ :: _ => .ok []
  | n + 1, c :: cs =>
    if isSpace c then tokenizeFrom n cs
    else if startsWith "&&".toList (c :: cs) then
      (tokenizeFrom n (cs.drop 1)).map (andToken :: ·)
    else if startsWith "||".toList (c :: cs) then
      (tokenizeFrom n (cs.drop 1)).map (orToken :: ·)
    else if c = '!' then (tokenizeFrom n cs).map (notToken :: ·)
    else if c = '(' ∨ c = ')' then (tokenizeFrom n cs).map ([c] :: ·)
    else if isWordChar c then
      (tokenizeFrom n (cs.dropWhile isWordChar)).map ((c :: cs.takeWhile isWordChar) :: ·)
    else .error (.valueError ("invalid character in condition: '" ++ String.singleton c ++ "'"))

def tokenizeCondition (condition : Str) : Except Error (List Str) :=
  tokenizeFrom condition.length condition

section values

variable {V : Type} [StateValue V]

abbrev State (V : Type) := OrderedDict Str V

def truthOf (v : Option V) : Bool := v.elim false PyValue.truthy

def isMissing (v : Option V) : Bool := v.elim true StateValue.isNone

def unvalidatedSuffix : Str := ".unvalidated".toList

def wordValue (state : State V) (word : Str) : Bool :=
  if lower word = "true".toList then true
  else if lower word = "false".toList then false
  else if isMissing (state.get? word) && unvalidatedSuffix.isSuffixOf word then
    !truthOf (state.get? (word.take (word.length - unvalidatedSuffix.length) ++
      ".validated".toList))
  else truthOf (state.get? word)

end values

section parser

variable {V : Type} [StateValue V] (state : State V)

abbrev Parsed := Fuelled Error (Bool × List Str)

def closing : List Str → Fuelled Error (List Str)
  | [] => fail (.valueError "missing closing parenthesis")
  | t :: ts => if t = [')'] then ret ts else fail (.valueError "missing closing parenthesis")

mutual

def parseExpression : ℕ → List Str → Parsed
  | 0, _ => out
  | n + 1, toks => (parseTerm n toks).andThen fun r => orLoop n r.1 r.2

def orLoop : ℕ → Bool → List Str → Parsed
  | 0, _, _ => out
  | _ + 1, value, [] => ret (value, [])
  | n + 1, value, t :: ts =>
    if t = orToken then
      if value then orLoop n value ts
      else (parseTerm n ts).andThen fun r => orLoop n r.1 r.2
    else ret (value, t :: ts)

def parseTerm : ℕ → List Str → Parsed
  | 0, _ => out
  | n + 1, toks => (parseFactor n toks).andThen fun r => andLoop n r.1 r.2

def andLoop : ℕ → Bool → List Str → Parsed
  | 0, _, _ => out
  | _ + 1, value, [] => ret (value, [])
  | n + 1, value, t :: ts =>
    if t = andToken then
      if value then (parseFactor n ts).andThen fun r => andLoop n r.1 r.2
      else andLoop n value ts
    else ret (value, t :: ts)

def parseFactor : ℕ → List Str → Parsed
  | 0, _ => out
  | _ + 1, [] => fail (.valueError "unexpected end of condition")
  | n + 1, t :: ts =>
    if t = notToken then (parseFactor n ts).andThen fun r => ret (!r.1, r.2)
    else if t = ['('] then
      (parseExpression n ts).andThen fun r => (closing r.2).andThen fun rest => ret (r.1, rest)
    else ret (wordValue state t, ts)

end

def parseFuel (toks : List Str) : ℕ := 4 * toks.length + 3

def finish (result : Parsed) : Bool :=
  match result with
  | some (.ok (value, [])) => value
  | _ => false

def matchesCondition (condition : Str) : Bool :=
  let normalized := strip condition
  if normalized.isEmpty then false
  else
    match tokenizeCondition normalized with
    | .error _ => false
    | .ok toks => finish (parseExpression state (parseFuel toks) toks)

end parser

section evaluator

structure PolicyViolation (V : Type) where
  ruleId : Str
  kind : Str
  detail : Str
  stateKey : Str
  value : Option V

variable (py : PyText) (float : PyFloat)

def firstText (values : List (Option Json)) (default : Str) : Str :=
  match values.findSome? (fun v => v.filter (fun v => !isFalse float v)) with
  | some v => py.str v
  | none => default

def conditionOf (invariant : List (Str × Json)) : Str :=
  strip (firstText py float [invariant.lookup "condition".toList] [])

variable {V : Type} [StateValue V] (state : State V)

def isNever : Option Json → Bool
  | some (.str t) => t = "never".toList
  | _ => false

def violationOf (invariant : List (Str × Json)) : Option (PolicyViolation V) :=
  if !isNever (invariant.lookup "type".toList) then none
  else
    let condition := conditionOf py float invariant
    if condition.isEmpty then none
    else if matchesCondition state condition then
      some
        { ruleId := firstText py float [invariant.lookup "id".toList,
            invariant.lookup "rule_id".toList, invariant.lookup "name".toList] "unknown".toList
          kind := "invariant".toList
          detail := firstText py float [invariant.lookup "description".toList]
            ("never ".toList ++ condition)
          stateKey := condition
          value := state.get? condition }
    else none

def checkState (invariants : List (List (Str × Json))) : List (PolicyViolation V) :=
  invariants.filterMap (violationOf py float state)

end evaluator

section grammar

inductive Symbol where
  | word (text : Str)
  | and
  | or
  | not
  | opening
  | closing

def Symbol.spelling : Symbol → Str
  | .word text => text
  | .and => "&&".toList
  | .or => "||".toList
  | .not => ['!']
  | .opening => ['(']
  | .closing => [')']

def Symbol.token : Symbol → Str
  | .word text => text
  | .and => andToken
  | .or => orToken
  | .not => notToken
  | .opening => ['(']
  | .closing => [')']

structure Word where
  text : Str
  nonempty : text ≠ []
  chars : ∀ c ∈ text, isWordChar c = true

mutual

inductive Factor where
  | word (w : Word)
  | not (f : Factor)
  | group (c : Condition)

inductive Term where
  | one (f : Factor)
  | and (t : Term) (f : Factor)

inductive Condition where
  | one (t : Term)
  | or (c : Condition) (t : Term)

end

mutual

def Factor.symbols : Factor → List Symbol
  | .word w => [.word w.text]
  | .not f => .not :: f.symbols
  | .group c => .opening :: c.symbols ++ [.closing]

def Term.symbols : Term → List Symbol
  | .one f => f.symbols
  | .and t f => t.symbols ++ .and :: f.symbols

def Condition.symbols : Condition → List Symbol
  | .one t => t.symbols
  | .or c t => c.symbols ++ .or :: t.symbols

end

inductive Writes : List Symbol → Str → Prop where
  | nil {space : Str} (h : ∀ c ∈ space, isSpace c = true) : Writes [] space
  | cons {space : Str} {s : Symbol} {symbols : List Symbol} {rest : Str}
      (h : ∀ c ∈ space, isSpace c = true) (hrest : Writes symbols rest) :
      Writes (s :: symbols) (space ++ s.spelling ++ rest)

variable {V : Type} [StateValue V] (state : State V)

mutual

def Factor.holds : Factor → Bool
  | .word w => wordValue state w.text
  | .not f => !f.holds
  | .group c => c.holds

def Term.holds : Term → Bool
  | .one f => f.holds
  | .and t f => t.holds && f.holds

def Condition.holds : Condition → Bool
  | .one t => t.holds
  | .or c t => c.holds || t.holds

end

mutual

def Factor.straight : Factor → Bool
  | .word _ => true
  | .not f => f.straight
  | .group c => c.straight

def Term.straight : Term → Bool
  | .one f => f.straight
  | .and t f => t.straight && t.holds state && f.straight

def Condition.straight : Condition → Bool
  | .one t => t.straight
  | .or c t => c.straight && !c.holds state && t.straight

end

mutual

def Factor.words : Factor → List Str
  | .word w => [w.text]
  | .not f => f.words
  | .group c => c.words

def Term.words : Term → List Str
  | .one f => f.words
  | .and t f => t.words ++ f.words

def Condition.words : Condition → List Str
  | .one t => t.words
  | .or c t => c.words ++ t.words

end

end grammar

section parsing

variable {V : Type} [StateValue V] {state : State V} {n : ℕ} {value : Bool} {toks rest : List Str}

def tokensOf (symbols : List Symbol) : List Str := symbols.map Symbol.token

theorem orLoop_done (h : toks.head? ≠ some orToken) :
    orLoop state (n + 1) value toks = ret (value, toks) := by
  cases toks with
  | nil => rfl
  | cons t ts =>
    rw [orLoop, if_neg]
    rintro rfl
    exact h rfl

theorem andLoop_done (h : toks.head? ≠ some andToken) :
    andLoop state (n + 1) value toks = ret (value, toks) := by
  cases toks with
  | nil => rfl
  | cons t ts =>
    rw [andLoop, if_neg]
    rintro rfl
    exact h rfl

theorem Word.ne_bracket (w : Word) {c : Char} (hc : isWordChar c = false) : w.text ≠ [c] := by
  intro h
  have hw := w.chars c (by rw [h]; exact List.mem_singleton_self c)
  rw [hc] at hw
  cases hw

theorem parseFactor_word (w : Word) (h : w.text ≠ notToken) :
    parseFactor state (n + 1) (w.text :: rest) = ret (wordValue state w.text, rest) := by
  rw [parseFactor, if_neg h, if_neg (w.ne_bracket (by decide))]

theorem parseFactor_not : parseFactor state (n + 1) (notToken :: rest) =
    (parseFactor state n rest).andThen fun r => ret (!r.1, r.2) := by
  rw [parseFactor, if_pos rfl]

theorem parseFactor_group : parseFactor state (n + 1) (['('] :: rest) =
    (parseExpression state n rest).andThen fun r =>
      (closing r.2).andThen fun rest => ret (r.1, rest) := by
  rw [parseFactor, if_neg (by decide), if_pos rfl]

theorem tokensOf_and (l l' : List Symbol) :
    tokensOf (l ++ .and :: l') ++ rest = tokensOf l ++ andToken :: (tokensOf l' ++ rest) := by
  simp [tokensOf, Symbol.token, andToken]

theorem tokensOf_or (l l' : List Symbol) :
    tokensOf (l ++ .or :: l') ++ rest = tokensOf l ++ orToken :: (tokensOf l' ++ rest) := by
  simp [tokensOf, Symbol.token, orToken]

theorem tokensOf_group (l : List Symbol) :
    tokensOf (.opening :: l ++ [.closing]) ++ rest = ['('] :: (tokensOf l ++ [')'] :: rest) := by
  simp [tokensOf, Symbol.token]

theorem tokensOf_not (l : List Symbol) :
    tokensOf (.not :: l) ++ rest = notToken :: (tokensOf l ++ rest) := by
  simp [tokensOf, Symbol.token, notToken]

mutual

theorem Factor.parsed : ∀ f : Factor, notToken ∉ f.words → f.straight state = true →
    ∀ n rest, 4 * (tokensOf f.symbols ++ rest).length + 1 ≤ n →
      parseFactor state n (tokensOf f.symbols ++ rest) = ret (f.holds state, rest)
  | .word w, hw, _, n, rest, hn => by
    cases n with
    | zero => omega
    | succ n => exact parseFactor_word w (fun h => hw (by simp [Factor.words, h]))
  | .not f, hw, hs, n, rest, hn => by
    rw [Factor.symbols, tokensOf_not] at hn ⊢
    rw [List.length_cons] at hn
    cases n with
    | zero => omega
    | succ n =>
      rw [parseFactor_not, Factor.parsed f hw hs n rest (by omega)]
      rfl
  | .group c, hw, hs, n, rest, hn => by
    rw [Factor.symbols, tokensOf_group] at hn ⊢
    rw [List.length_cons] at hn
    cases n with
    | zero => omega
    | succ n =>
      obtain ⟨m, hm, hc⟩ :=
        Condition.parsed c hw hs n ([')'] :: rest) (by simp [andToken]) (by omega)
      obtain ⟨k, rfl⟩ : ∃ k, m = k + 1 := ⟨m - 1, by omega⟩
      rw [parseFactor_group, hc, orLoop_done (by simp [orToken])]
      rfl

theorem Term.parsed : ∀ t : Term, notToken ∉ t.words → t.straight state = true →
    ∀ n rest, 4 * (tokensOf t.symbols ++ rest).length + 2 ≤ n →
      ∃ m, 4 * rest.length + 1 ≤ m ∧
        parseTerm state n (tokensOf t.symbols ++ rest) = andLoop state m (t.holds state) rest
  | .one f, hw, hs, n, rest, hn => by
    cases n with
    | zero => omega
    | succ n =>
      refine ⟨n, ?_, ?_⟩
      · rw [List.length_append] at hn
        omega
      · rw [Term.symbols] at hn ⊢
        rw [parseTerm, Factor.parsed f hw hs n rest (by omega)]
        rfl
  | .and t f, hw, hs, n, rest, hn => by
    rw [Term.words, List.mem_append, not_or] at hw
    rw [Term.straight, Bool.and_eq_true, Bool.and_eq_true] at hs
    rw [Term.symbols, tokensOf_and] at hn ⊢
    obtain ⟨m, hm, ht⟩ := Term.parsed t hw.1 hs.1.1 n _ hn
    obtain ⟨k, rfl⟩ : ∃ k, m = k + 1 := ⟨m - 1, by omega⟩
    rw [List.length_cons] at hm
    refine ⟨k, ?_, ?_⟩
    · rw [List.length_append] at hm
      omega
    · rw [ht, hs.1.2, andLoop, if_pos rfl, if_pos rfl, Factor.parsed f hw.2 hs.2 k rest (by omega),
        Term.holds, hs.1.2]
      rfl

theorem Condition.parsed : ∀ c : Condition, notToken ∉ c.words → c.straight state = true →
    ∀ n rest, rest.head? ≠ some andToken → 4 * (tokensOf c.symbols ++ rest).length + 3 ≤ n →
      ∃ m, 4 * rest.length + 1 ≤ m ∧
        parseExpression state n (tokensOf c.symbols ++ rest) = orLoop state m (c.holds state) rest
  | .one t, hw, hs, n, rest, hr, hn => by
    cases n with
    | zero => omega
    | succ n =>
      rw [Condition.symbols] at hn ⊢
      obtain ⟨m, hm, ht⟩ := Term.parsed t hw hs n rest (by omega)
      obtain ⟨k, rfl⟩ : ∃ k, m = k + 1 := ⟨m - 1, by omega⟩
      refine ⟨n, ?_, ?_⟩
      · rw [List.length_append] at hn
        omega
      · rw [parseExpression, ht, andLoop_done hr]
        rfl
  | .or c t, hw, hs, n, rest, hr, hn => by
    rw [Condition.words, List.mem_append, not_or] at hw
    rw [Condition.straight, Bool.and_eq_true, Bool.and_eq_true, Bool.not_eq_true'] at hs
    rw [Condition.symbols, tokensOf_or] at hn ⊢
    obtain ⟨m, hm, hc⟩ := Condition.parsed c hw.1 hs.1.1 n _ (by simp [orToken, andToken]) hn
    obtain ⟨k, rfl⟩ : ∃ k, m = k + 1 := ⟨m - 1, by omega⟩
    rw [List.length_cons] at hm
    obtain ⟨j, hj, ht⟩ := Term.parsed t hw.2 hs.2 k rest (by omega)
    obtain ⟨i, rfl⟩ : ∃ i, j = i + 1 := ⟨j - 1, by omega⟩
    refine ⟨k, ?_, ?_⟩
    · rw [List.length_append] at hm
      omega
    · rw [hc, hs.1.2, orLoop, if_pos rfl, if_neg Bool.false_ne_true, ht, andLoop_done hr,
        Condition.holds, hs.1.2]
      rfl

end

end parsing

section stuck

variable {V : Type} [StateValue V] {state : State V} {n : ℕ} {value : Bool} {toks rest : List Str}

def Unreserved (words : List Str) : Prop :=
  andToken ∉ words ∧ orToken ∉ words ∧ notToken ∉ words

theorem unreserved_append {l l' : List Str} :
    Unreserved (l ++ l') ↔ Unreserved l ∧ Unreserved l' := by
  simp only [Unreserved, List.mem_append, not_or]
  tauto

def Opens (toks : List Str) : Prop :=
  ∃ t ts, toks = t :: ts ∧ t ≠ andToken ∧ t ≠ orToken ∧ t ≠ [')']

theorem Opens.append (h : Opens toks) : Opens (toks ++ rest) := by
  obtain ⟨t, ts, rfl, ht⟩ := h
  exact ⟨t, ts ++ rest, rfl, ht⟩

theorem Factor.opens (f : Factor) (h : Unreserved f.words) : Opens (tokensOf f.symbols) := by
  cases f with
  | word w =>
    rw [Factor.words] at h
    refine ⟨w.text, [], rfl, fun he => h.1 ?_, fun he => h.2.1 ?_, w.ne_bracket (by decide)⟩
    · exact he ▸ List.mem_singleton_self _
    · exact he ▸ List.mem_singleton_self _
  | not f => exact ⟨notToken, tokensOf f.symbols, rfl, by decide, by decide, by decide⟩
  | group c =>
    exact ⟨['('], tokensOf (c.symbols ++ [.closing]), rfl, by decide, by decide, by decide⟩

theorem Term.opens : ∀ t : Term, Unreserved t.words → Opens (tokensOf t.symbols)
  | .one f, h => f.opens h
  | .and t f, h => by
    rw [Term.words, unreserved_append] at h
    rw [Term.symbols, tokensOf, List.map_append]
    exact (Term.opens t h.1).append

def Stuck (x : Parsed) : Prop := (∃ e, x = fail e) ∨ ∃ value toks, x = ret (value, toks) ∧ Opens toks

theorem orLoop_opens (h : Opens toks) : orLoop state (n + 1) value toks = ret (value, toks) := by
  obtain ⟨t, ts, rfl, -, ht, -⟩ := h
  exact orLoop_done (by simpa using ht)

theorem andLoop_opens (h : Opens toks) : andLoop state (n + 1) value toks = ret (value, toks) := by
  obtain ⟨t, ts, rfl, ht, -⟩ := h
  exact andLoop_done (by simpa using ht)

theorem Stuck.orLoop {x : Parsed} (h : Stuck x) :
    Stuck (x.andThen fun r => orLoop state (n + 1) r.1 r.2) := by
  obtain ⟨e, rfl⟩ | ⟨v, toks, rfl, ho⟩ := h
  · exact .inl ⟨e, rfl⟩
  · exact .inr ⟨v, toks, orLoop_opens ho, ho⟩

theorem Stuck.closing {x : Parsed} (h : Stuck x) : ∃ e, (x.andThen fun r =>
    (closing r.2).andThen fun rest => ret (r.1, rest)) = fail e := by
  obtain ⟨e, rfl⟩ | ⟨v, toks, rfl, t, ts, rfl, -, -, ht⟩ := h
  · exact ⟨e, rfl⟩
  · rw [ret_andThen, Evaluator.closing, if_neg ht]
    exact ⟨_, rfl⟩

mutual

theorem Factor.not_parsed : ∀ f : Factor, Unreserved f.words → f.straight state = false →
    ∀ n rest, 4 * (tokensOf f.symbols ++ rest).length + 1 ≤ n →
      ∃ e, parseFactor state n (tokensOf f.symbols ++ rest) = fail e
  | .word w, _, hs, _, _, _ => by cases hs
  | .not f, hw, hs, n, rest, hn => by
    rw [Factor.symbols, tokensOf_not] at hn ⊢
    rw [List.length_cons] at hn
    cases n with
    | zero => omega
    | succ n =>
      obtain ⟨e, he⟩ := Factor.not_parsed f hw hs n rest (by omega)
      rw [parseFactor_not, he]
      exact ⟨e, rfl⟩
  | .group c, hw, hs, n, rest, hn => by
    rw [Factor.symbols, tokensOf_group] at hn ⊢
    rw [List.length_cons] at hn
    cases n with
    | zero => omega
    | succ n =>
      rw [parseFactor_group]
      exact (Condition.stuck c hw hs n ([')'] :: rest) (by omega)).closing

theorem Term.stuck : ∀ t : Term, Unreserved t.words → t.straight state = false →
    ∀ n rest, 4 * (tokensOf t.symbols ++ rest).length + 2 ≤ n →
      Stuck (parseTerm state n (tokensOf t.symbols ++ rest))
  | .one f, hw, hs, n, rest, hn => by
    cases n with
    | zero => omega
    | succ n =>
      rw [Term.symbols] at hn ⊢
      obtain ⟨e, he⟩ := Factor.not_parsed f hw hs n rest (by omega)
      rw [parseTerm, he]
      exact .inl ⟨e, rfl⟩
  | .and t f, hw, hs, n, rest, hn => by
    rw [Term.words, unreserved_append] at hw
    rw [Term.symbols, tokensOf_and] at hn ⊢
    cases ht : t.straight state with
    | false => exact Term.stuck t hw.1 ht n _ hn
    | true =>
      obtain ⟨m, hm, he⟩ := Term.parsed t hw.1.2.2 ht n _ hn
      rw [List.length_cons] at hm
      obtain ⟨k, rfl⟩ : ∃ k, m = k + 2 := ⟨m - 2, by omega⟩
      rw [he, andLoop, if_pos rfl]
      cases hv : t.holds state with
      | false =>
        have ho : Opens (tokensOf f.symbols ++ rest) := (f.opens hw.2).append
        rw [if_neg Bool.false_ne_true, andLoop_opens ho]
        exact .inr ⟨_, _, rfl, ho⟩
      | true =>
        have hf : f.straight state = false := by simpa [Term.straight, ht, hv] using hs
        obtain ⟨e, he'⟩ := Factor.not_parsed f hw.2 hf (k + 1) rest (by omega)
        rw [if_pos rfl, he']
        exact .inl ⟨e, rfl⟩

theorem Condition.stuck : ∀ c : Condition, Unreserved c.words → c.straight state = false →
    ∀ n rest, 4 * (tokensOf c.symbols ++ rest).length + 3 ≤ n →
      Stuck (parseExpression state n (tokensOf c.symbols ++ rest))
  | .one t, hw, hs, n, rest, hn => by
    obtain ⟨k, rfl⟩ : ∃ k, n = k + 2 := ⟨n - 2, by omega⟩
    rw [Condition.symbols] at hn ⊢
    rw [parseExpression]
    exact (Term.stuck t hw hs (k + 1) rest (by omega)).orLoop
  | .or c t, hw, hs, n, rest, hn => by
    rw [Condition.words, unreserved_append] at hw
    rw [Condition.symbols, tokensOf_or] at hn ⊢
    cases hc : c.straight state with
    | false => exact Condition.stuck c hw.1 hc n _ hn
    | true =>
      obtain ⟨m, hm, he⟩ :=
        Condition.parsed c hw.1.2.2 hc n _ (by simp [orToken, andToken]) hn
      rw [List.length_cons] at hm
      obtain ⟨k, rfl⟩ : ∃ k, m = k + 2 := ⟨m - 2, by omega⟩
      rw [he, Evaluator.orLoop, if_pos rfl]
      cases hv : c.holds state with
      | true =>
        have ho : Opens (tokensOf t.symbols ++ rest) := (t.opens hw.2).append
        rw [if_pos rfl, orLoop_opens ho]
        exact .inr ⟨_, _, rfl, ho⟩
      | false =>
        have ht : t.straight state = false := by simpa [Condition.straight, hc, hv] using hs
        rw [if_neg Bool.false_ne_true]
        exact (Term.stuck t hw.2 ht (k + 1) rest (by omega)).orLoop

end

end stuck

section texts

variable {symbols : List Symbol} {text space : Str} {n : ℕ}

def Symbol.isWord : Symbol → Bool
  | .word _ => true
  | _ => false

def Symbol.Valid (s : Symbol) : Prop := ∀ text, s = .word text → ∃ w : Word, w.text = text

def Apart (a b : Symbol) : Prop := a.isWord = false ∨ b.isWord = false

theorem isChain_between {l l' : List Symbol} {s : Symbol} (hs : s.isWord = false)
    (h : l.IsChain Apart) (h' : l'.IsChain Apart) : (l ++ s :: l').IsChain Apart :=
  h.append (h'.cons (fun _ _ => .inl hs)) (fun _ _ y hy => .inr (by cases hy; exact hs))

mutual

theorem Factor.apart : ∀ f : Factor, f.symbols.IsChain Apart
  | .word _ => List.isChain_singleton _
  | .not f => (Factor.apart f).cons (fun _ _ => .inl rfl)
  | .group c =>
    (isChain_between rfl (Condition.apart c) List.isChain_nil).cons (fun _ _ => .inl rfl)

theorem Term.apart : ∀ t : Term, t.symbols.IsChain Apart
  | .one f => Factor.apart f
  | .and t f => isChain_between rfl (Term.apart t) (Factor.apart f)

theorem Condition.apart : ∀ c : Condition, c.symbols.IsChain Apart
  | .one t => Term.apart t
  | .or c t => isChain_between rfl (Condition.apart c) (Term.apart t)

end

mutual

theorem Factor.valid : ∀ f : Factor, ∀ s ∈ f.symbols, s.Valid
  | .word w, s, hs => by
    rw [List.mem_singleton.mp hs]
    rintro text ⟨⟩
    exact ⟨w, rfl⟩
  | .not f, s, hs => by
    rcases List.mem_cons.mp hs with rfl | hs
    · rintro text ⟨⟩
    · exact Factor.valid f s hs
  | .group c, s, hs => by
    rw [Factor.symbols, List.cons_append, List.mem_cons, List.mem_append, List.mem_singleton] at hs
    obtain rfl | hs | rfl := hs
    · rintro text ⟨⟩
    · exact Condition.valid c s hs
    · rintro text ⟨⟩

theorem Term.valid : ∀ t : Term, ∀ s ∈ t.symbols, s.Valid
  | .one f, s, hs => Factor.valid f s hs
  | .and t f, s, hs => by
    rw [Term.symbols, List.mem_append, List.mem_cons] at hs
    obtain hs | rfl | hs := hs
    · exact Term.valid t s hs
    · rintro text ⟨⟩
    · exact Factor.valid f s hs

theorem Condition.valid : ∀ c : Condition, ∀ s ∈ c.symbols, s.Valid
  | .one t, s, hs => Term.valid t s hs
  | .or c t, s, hs => by
    rw [Condition.symbols, List.mem_append, List.mem_cons] at hs
    obtain hs | rfl | hs := hs
    · exact Condition.valid c s hs
    · rintro text ⟨⟩
    · exact Term.valid t s hs

end

theorem isSpace_of_wordChar {c : Char} (h : isWordChar c = true) : isSpace c = false := by
  simp only [isWordChar, Bool.or_eq_true, decide_eq_true_eq] at h
  obtain (h | rfl) | rfl := h
  · exact isSpace_of_alphanum h
  all_goals decide

theorem tokenizeFrom_space (text : Str) (h : ∀ c ∈ space, isSpace c = true)
    (hn : space.length ≤ n) : tokenizeFrom n (space ++ text) = tokenizeFrom (n - space.length) text := by
  induction space generalizing n with
  | nil => rfl
  | cons c cs ih =>
    cases n with
    | zero => cases hn
    | succ n =>
      rw [List.cons_append, tokenizeFrom, if_pos (h c List.mem_cons_self),
        ih (fun d hd => h d (List.mem_cons_of_mem _ hd)) (Nat.le_of_succ_le_succ hn)]
      rw [List.length_cons, Nat.succ_sub_succ]

theorem Writes.head (h : Writes symbols text) (hw : ∀ s, symbols.head? = some s → s.isWord = false) :
    text.takeWhile isWordChar = [] := by
  have hspace : ∀ c, isSpace c = true → isWordChar c = false := by
    intro c hc
    rw [Bool.eq_false_iff]
    intro hword
    rw [isSpace_of_wordChar hword] at hc
    cases hc
  cases h with
  | nil h =>
    cases text with
    | nil => rfl
    | cons c cs => exact List.takeWhile_cons_of_neg (by simp [hspace c (h c List.mem_cons_self)])
  | @cons space s symbols rest h hrest =>
    cases space with
    | nil =>
      have hs := hw s rfl
      cases s with
      | word text => cases hs
      | and | or | not | opening | closing => exact List.takeWhile_cons_of_neg (by decide)
    | cons c cs => exact List.takeWhile_cons_of_neg (by simp [hspace c (h c List.mem_cons_self)])

theorem tokenizeFrom_word (w : Word) (h : text.takeWhile isWordChar = []) :
    tokenizeFrom (n + 1) (w.text ++ text) = (tokenizeFrom n text).map (w.text :: ·) := by
  obtain ⟨word, hne, hchars⟩ := w
  cases word with
  | nil => exact absurd rfl hne
  | cons c cs =>
    have hc := hchars c List.mem_cons_self
    have hcs : ∀ d ∈ cs, isWordChar d = true := fun d hd => hchars d (List.mem_cons_of_mem _ hd)
    have hother : ∀ d, isWordChar d = false → c ≠ d := by
      rintro d hd rfl
      rw [hc] at hd
      cases hd
    have hand : startsWith "&&".toList (c :: (cs ++ text)) = false := by
      simp [startsWith, List.isPrefixOf, (hother '&' (by decide)).symm]
    have hor : startsWith "||".toList (c :: (cs ++ text)) = false := by
      simp [startsWith, List.isPrefixOf, (hother '|' (by decide)).symm]
    have hbracket : ¬(c = '(' ∨ c = ')') := by
      rw [not_or]
      exact ⟨hother '(' (by decide), hother ')' (by decide)⟩
    have hdrop : text.dropWhile isWordChar = text := by
      cases text with
      | nil => rfl
      | cons d ds =>
        cases hd : isWordChar d with
        | false => exact List.dropWhile_cons_of_neg (by simp [hd])
        | true =>
          rw [List.takeWhile_cons_of_pos hd] at h
          cases h
    rw [List.cons_append, tokenizeFrom, isSpace_of_wordChar hc, if_neg Bool.false_ne_true, hand,
      if_neg Bool.false_ne_true, hor, if_neg Bool.false_ne_true, if_neg (hother '!' (by decide)),
      if_neg hbracket, if_pos hc, List.takeWhile_append_of_pos hcs, List.dropWhile_append_of_pos hcs,
      h, hdrop, List.append_nil]

theorem tokenizeFrom_symbol (s : Symbol) (hs : s.isWord = false) :
    tokenizeFrom (n + 1) (s.spelling ++ text) = (tokenizeFrom n text).map (s.token :: ·) := by
  cases s with
  | word text => cases hs
  | and | or | not | opening | closing => rfl

theorem tokenizeFrom_writes (h : Writes symbols text) (hv : ∀ s ∈ symbols, s.Valid)
    (hc : symbols.IsChain Apart) (hn : text.length ≤ n) :
    tokenizeFrom n text = .ok (tokensOf symbols) := by
  induction h generalizing n with
  | @nil space h =>
    have hs := tokenizeFrom_space [] h hn
    rw [List.append_nil] at hs
    rw [hs, tokenizeFrom]
    rfl
  | @cons space s symbols rest h hrest ih =>
    obtain ⟨hs, hvs⟩ := List.forall_mem_cons.mp hv
    rw [List.append_assoc] at hn ⊢
    rw [List.length_append] at hn
    rw [tokenizeFrom_space _ h (by omega)]
    have hlen : 1 ≤ s.spelling.length := by
      cases s with
      | word text =>
        obtain ⟨w, rfl⟩ := hs text rfl
        exact List.length_pos_of_ne_nil w.nonempty
      | and | or | not | opening | closing => decide
    rw [List.length_append] at hn
    obtain ⟨k, hk⟩ : ∃ k, n - space.length = k + 1 := ⟨n - space.length - 1, by omega⟩
    have hnext : tokenizeFrom (k + 1) (s.spelling ++ rest) =
        (tokenizeFrom k rest).map (s.token :: ·) := by
      cases hw : s.isWord with
      | false => exact tokenizeFrom_symbol s hw
      | true =>
        cases s with
        | word text =>
          obtain ⟨w, rfl⟩ := hs text rfl
          refine tokenizeFrom_word w (hrest.head (fun s' hs' => ?_))
          exact (hc.rel_head? hs').resolve_left (by simp [Symbol.isWord])
        | and | or | not | opening | closing => cases hw
    rw [hk, hnext, ih hvs hc.tail (by omega)]
    rfl

theorem Symbol.Valid.spelling {s : Symbol} (h : s.Valid) :
    s.spelling ≠ [] ∧ ∀ c ∈ s.spelling, isSpace c = false := by
  cases s with
  | word text =>
    obtain ⟨w, rfl⟩ := h text rfl
    exact ⟨w.nonempty, fun c hc => isSpace_of_wordChar (w.chars c hc)⟩
  | and | or | not | opening | closing =>
    refine ⟨by decide, fun c hc => Bool.eq_false_iff.mpr ?_⟩
    revert c
    apply List.any_eq_false.mp
    decide

theorem dropWhile_spelling {t rest : Str} (hne : t ≠ []) (h : ∀ c ∈ t, isSpace c = false) :
    (t ++ rest).dropWhile isSpace = t ++ rest := by
  cases t with
  | nil => exact absurd rfl hne
  | cons c cs => exact List.dropWhile_cons_of_neg (by simp [h c List.mem_cons_self])

theorem dropWhile_space (rest : Str) (h : ∀ c ∈ space, isSpace c = true) :
    (space ++ rest).dropWhile isSpace = rest.dropWhile isSpace := List.dropWhile_append_of_pos h

theorem Writes.dropLeft (h : Writes symbols text) (hv : ∀ s ∈ symbols, s.Valid) :
    Writes symbols (text.dropWhile isSpace) := by
  cases h with
  | nil h =>
    have hnil : text.dropWhile isSpace = [] := by
      have hdrop := dropWhile_space [] h
      rwa [List.append_nil] at hdrop
    rw [hnil]
    exact .nil (fun c hc => absurd hc List.not_mem_nil)
  | @cons space s symbols rest h hrest =>
    obtain ⟨hne, hs⟩ := (hv s List.mem_cons_self).spelling
    rw [List.append_assoc, dropWhile_space _ h, dropWhile_spelling hne hs]
    have hnone : ∀ c ∈ ([] : Str), isSpace c = true := fun c hc => absurd hc List.not_mem_nil
    exact Writes.cons hnone hrest

theorem Writes.dropRight (h : Writes symbols text) (hv : ∀ s ∈ symbols, s.Valid) :
    Writes symbols (text.reverse.dropWhile isSpace).reverse := by
  induction h with
  | @nil space h =>
    have hnil : space.reverse.dropWhile isSpace = [] := by
      have hdrop := dropWhile_space [] (fun c hc => h c (List.mem_reverse.mp hc))
      rwa [List.append_nil] at hdrop
    rw [hnil]
    exact .nil (fun c hc => absurd hc List.not_mem_nil)
  | @cons space s symbols rest h hrest ih =>
    obtain ⟨hs, hvs⟩ := List.forall_mem_cons.mp hv
    obtain ⟨hne, hchars⟩ := hs.spelling
    have hsymbol : (s.spelling.reverse ++ space.reverse).dropWhile isSpace =
        s.spelling.reverse ++ space.reverse :=
      dropWhile_spelling (by simpa using hne) (fun c hc => hchars c (List.mem_reverse.mp hc))
    rw [List.reverse_append, List.reverse_append, List.dropWhile_append]
    have hrest' := ih hvs
    split_ifs with hempty
    · rw [List.isEmpty_iff.mp hempty] at hrest'
      have hw := Writes.cons (s := s) h hrest'
      rw [hsymbol, List.reverse_append, List.reverse_reverse, List.reverse_reverse]
      simpa using hw
    · have hw := Writes.cons (s := s) h hrest'
      rw [List.reverse_append, List.reverse_append, List.reverse_reverse, List.reverse_reverse]
      exact hw

theorem Writes.strip (h : Writes symbols text) (hv : ∀ s ∈ symbols, s.Valid) :
    Writes symbols (strip text) := (h.dropLeft hv).dropRight hv

theorem Writes.ne_nil (h : Writes symbols text) (hv : ∀ s ∈ symbols, s.Valid)
    (hne : symbols ≠ []) : text ≠ [] := by
  cases h with
  | nil => exact absurd rfl hne
  | @cons space s symbols rest h hrest =>
    have hs := (hv s List.mem_cons_self).spelling.1
    simp [hs]

end texts

section conditions

variable {V : Type} [StateValue V] {state : State V} {c : Condition} {text : Str}

theorem Condition.symbols_ne_nil : ∀ c : Condition, c.symbols ≠ []
  | .or c t => by simp [Condition.symbols]
  | .one (.and t f) => by simp [Condition.symbols, Term.symbols]
  | .one (.one (.word w)) => List.cons_ne_nil _ _
  | .one (.one (.not f)) => List.cons_ne_nil _ _
  | .one (.one (.group c)) => List.cons_ne_nil _ _

theorem matches_eq (h : Writes c.symbols text) : matchesCondition state text =
    finish (parseExpression state (parseFuel (tokensOf c.symbols)) (tokensOf c.symbols)) := by
  have hw := h.strip c.valid
  have hne : (strip text).isEmpty = false := by
    simpa using hw.ne_nil c.valid c.symbols_ne_nil
  rw [matchesCondition, hne, if_neg Bool.false_ne_true, tokenizeCondition,
    tokenizeFrom_writes hw c.valid c.apart le_rfl]

theorem matches_of_straight (h : Writes c.symbols text) (hw : notToken ∉ c.words)
    (hs : c.straight state = true) : matchesCondition state text = c.holds state := by
  obtain ⟨m, hm, hc⟩ := Condition.parsed c hw hs (parseFuel (tokensOf c.symbols)) []
    (by simp) (by rw [List.append_nil, parseFuel])
  obtain ⟨k, rfl⟩ : ∃ k, m = k + 1 := ⟨m - 1, by omega⟩
  rw [List.append_nil] at hc
  rw [matches_eq h, hc, orLoop_done (by simp)]
  rfl

theorem matches_of_not_straight (h : Writes c.symbols text) (hw : Unreserved c.words)
    (hs : c.straight state = false) : matchesCondition state text = false := by
  have hstuck := Condition.stuck c hw hs (parseFuel (tokensOf c.symbols)) []
    (by rw [List.append_nil, parseFuel])
  rw [List.append_nil] at hstuck
  rw [matches_eq h]
  obtain ⟨e, he⟩ | ⟨value, toks, he, t, ts, rfl, -⟩ := hstuck
  · rw [he]
    rfl
  · rw [he]
    rfl

theorem matches_iff (h : Writes c.symbols text) (hw : Unreserved c.words) :
    matchesCondition state text = c.holds state ↔
      c.straight state = true ∨ c.holds state = false := by
  cases hs : c.straight state with
  | true => exact iff_of_true (matches_of_straight h hw.2.2 hs) (.inl rfl)
  | false =>
    rw [matches_of_not_straight h hw hs, eq_comm]
    exact (or_iff_right Bool.false_ne_true).symm

theorem violationOf_isSome (py : PyText) (float : PyFloat) {invariant : List (Str × Json)}
    (h : Writes c.symbols text)
    (hnever : isNever (invariant.lookup "type".toList) = true)
    (hcondition : invariant.lookup "condition".toList = some (.str text)) :
    (violationOf py float state invariant).isSome = matchesCondition state text := by
  have hstrip := h.strip c.valid
  have hne : text ≠ [] := h.ne_nil c.valid c.symbols_ne_nil
  have hfalse : isFalse float (.str text) = false := by
    cases text with
    | nil => exact absurd rfl hne
    | cons d ds => rfl
  have hc : conditionOf py float invariant = strip text := by
    rw [conditionOf, firstText, hcondition]
    simp [Option.filter, hfalse, py.str_str]
  have hempty : (strip text).isEmpty = false := by
    simpa using hstrip.ne_nil c.valid c.symbols_ne_nil
  have hsame : matchesCondition state (strip text) = matchesCondition state text := by
    rw [matches_eq hstrip, matches_eq h]
  simp only [violationOf, hnever, hc, hempty, hsame, Bool.not_true, Bool.false_eq_true, if_false]
  split_ifs with hm
  · rw [hm]
    rfl
  · rw [Bool.not_eq_true] at hm
    rw [hm]
    rfl

theorem condition_value_iff_straight (c : Condition) (text : Str) (h : Writes c.symbols text)
    (state : State V) :
    (notToken ∉ c.words → c.straight state = true →
      matchesCondition state text = c.holds state) ∧
    (Unreserved c.words → (matchesCondition state text = c.holds state ↔
      c.straight state = true ∨ c.holds state = false)) ∧
    ∀ (py : PyText) (float : PyFloat) (invariants : List (List (Str × Json))),
      ∀ invariant ∈ invariants, isNever (invariant.lookup "type".toList) = true →
        invariant.lookup "condition".toList = some (.str text) → Unreserved c.words →
          (((∃ v ∈ checkState py float state invariants,
              violationOf py float state invariant = some v) ↔ c.holds state = true) ↔
            c.straight state = true ∨ c.holds state = false) := by
  refine ⟨matches_of_straight h, matches_iff h, ?_⟩
  intro py float invariants invariant hmem hnever hcondition hw
  have hreported : (∃ v ∈ checkState py float state invariants,
      violationOf py float state invariant = some v) ↔ matchesCondition state text = true := by
    rw [← violationOf_isSome py float h hnever hcondition,
      Option.isSome_iff_exists]
    constructor
    · rintro ⟨v, -, hv⟩
      exact ⟨v, hv⟩
    · rintro ⟨v, hv⟩
      exact ⟨v, List.mem_filterMap.mpr ⟨invariant, hmem, hv⟩, hv⟩
  rw [hreported, ← matches_iff h hw, Bool.coe_iff_coe]

end conditions

def wordCondition (text : Str) (hne : text ≠ []) (h : ∀ c ∈ text, isWordChar c = true) : Term :=
  .one (.word ⟨text, hne, h⟩)

def shortCircuit : Condition :=
  .or (.one (wordCondition "true".toList (by decide) (List.all_eq_true.mp (by decide))))
    (wordCondition ['x'] (by decide) (List.all_eq_true.mp (by decide)))

theorem shortCircuit_writes : Writes shortCircuit.symbols "true || x".toList := by
  have hspace : ∀ c ∈ [' '], isSpace c = true := List.all_eq_true.mp (by decide)
  have hnone : ∀ c ∈ ([] : Str), isSpace c = true := by simp
  exact .cons (s := .word "true".toList) hnone
    (.cons (s := .or) hspace (.cons (s := .word ['x']) hspace (.nil hnone)))

def noEntries : State (Option Bool) := OrderedDict.empty

theorem shortCircuit_words : Unreserved shortCircuit.words :=
  ⟨by decide, by decide, by decide⟩

theorem short_circuit_fails : Writes shortCircuit.symbols "true || x".toList ∧
    shortCircuit.holds noEntries = true ∧
    matchesCondition noEntries "true || x".toList = false :=
  ⟨shortCircuit_writes, rfl, matches_of_not_straight shortCircuit_writes shortCircuit_words rfl⟩

theorem short_circuit_condition : Writes shortCircuit.symbols "true || x".toList ∧
    ¬(matchesCondition noEntries "true || x".toList = shortCircuit.holds noEntries) := by
  have hcondition := (condition_value_iff_straight shortCircuit "true || x".toList
    shortCircuit_writes noEntries).2.1
  refine ⟨shortCircuit_writes, fun he => ?_⟩
  rcases (hcondition shortCircuit_words).mp he with hs | hv
  · exact absurd hs (by decide)
  · exact absurd hv (by decide)

end TraceMind.Policy.Evaluator
