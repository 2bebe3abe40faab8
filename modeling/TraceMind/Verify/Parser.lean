import TraceMind.Verify.Ctl
import TraceMind.Foundation.Fuelled
import Mathlib.Data.List.TakeWhile

namespace TraceMind.Verify.Ctl

open Fuelled

def keywords : List Str :=
  ["EX".toList, "EF".toList, "EG".toList, "EU".toList, "AF".toList, "AG".toList, "AU".toList,
    "AND".toList, "OR".toList, "NOT".toList, "||".toList, "&&".toList, ['!'], ['('], [')']]

def isIdStart (c : Char) : Bool := c.isAlpha || c = '_'

def isIdChar (c : Char) : Bool :=
  c.isAlphanum || c = '_' || c = '-' || c = '.' || c = '[' || c = ']' || c = '*'

def splitToken : Str → Option (Str × Str)
  | [] => none
  | c :: cs =>
    match keywords.find? (fun k => startsWith k (c :: cs)) with
    | some k => some (k, (c :: cs).drop k.length)
    | none =>
      if isIdStart c then some (c :: cs.takeWhile isIdChar, cs.dropWhile isIdChar)
      else some ([c], cs)

def nextToken (s : Str) : Option (Str × Str) := splitToken (s.dropWhile isSpace)

def tokenizeAux : ℕ → Str → List Str
  | 0, _ => []
  | n + 1, s =>
    match nextToken s with
    | none => []
    | some (tok, rest) => tok :: tokenizeAux n rest

-- Every token takes a character, so the length of the text bounds the turns of the loop.
def tokenize (expr : Str) : List Str := tokenizeAux expr.length expr

abbrev Parsed (α : Type) := Fuelled Err (α × List Str)

def skip (tok : Str) : List Str → List Str
  | [] => []
  | t :: ts => if t = tok then ts else t :: ts

def takeArg : List Str → Option (List Str × List Str)
  | [] => none
  | t :: ts => if t = [')'] then some ([], ts) else (takeArg ts).map (Prod.map (t :: ·) id)

def nonEmpty (s : Str) : Option Str := if s = [] then none else some s

def namedPredicate (head : Str) (value : Option Str) : Expr :=
  if lower head = "terminal".toList then .predicate "Terminal".toList none
  else .predicate head value

def peerPredicate (agentId : Str) : Expr → Fuelled Err Expr
  | .predicate name (some value) =>
    if lower name = "has".toList ∨ lower name = "pending".toList ∨ lower name = "done".toList then
      ret (.predicate name (some (agentId ++ '.' :: value)))
    else fail (.valueError "peer() supports has/pending/done inner predicates only")
  | .predicate _ none => fail (.valueError "peer() inner predicate requires an argument")
  | _ => fail (.valueError "peer() second argument must be a predicate call")

def pop : List Str → Parsed Str
  | [] => fail (.indexError "list index out of range")
  | t :: ts => ret (t, ts)

def expect (tok : Str) (message : String) : List Str → Fuelled Err (List Str)
  | [] => fail (.valueError message)
  | t :: ts => if t = tok then ret ts else fail (.valueError message)

def argPredicate (head : Str) : List Str → Parsed Expr
  | [] => ret (namedPredicate head none, [])
  | tok :: toks =>
    if tok = ['('] then
      match takeArg toks with
      | none => fail (.valueError "missing ')' in predicate")
      | some (parts, toks) => ret (namedPredicate head (nonEmpty (strip parts.flatten)), toks)
    else ret (namedPredicate head none, tok :: toks)

def parsePredicate : ℕ → List Str → Parsed Expr
  | 0, _ => out
  | n + 1, toks =>
    (pop toks).andThen fun (head, toks) =>
    if lower head = "peer".toList then
      (expect ['('] "peer() requires '('" toks).andThen fun toks =>
      (pop toks).andThen fun (agentId, toks) =>
      (parsePredicate n (skip [','] toks)).andThen fun (inner, toks) =>
      (peerPredicate agentId inner).andThen fun e => ret (e, skip [')'] toks)
    else argPredicate head toks

def ctlOp? (tok : Str) : Option CtlOp :=
  if tok = "EX".toList then some .EX
  else if tok = "EF".toList then some .EF
  else if tok = "EG".toList then some .EG
  else if tok = "AF".toList then some .AF
  else if tok = "AG".toList then some .AG
  else none

def untilOp? (tok : Str) : Option UntilOp :=
  if tok = "EU".toList then some .EU else if tok = "AU".toList then some .AU else none

def CtlOp.text : CtlOp → String
  | .EX => "EX"
  | .EF => "EF"
  | .EG => "EG"
  | .AF => "AF"
  | .AG => "AG"

def UntilOp.text : UntilOp → String
  | .EU => "EU"
  | .AU => "AU"

mutual

def parseUnary : ℕ → List Str → Parsed Expr
  | 0, _ => out
  | _ + 1, [] => fail (.valueError "unexpected end of expression")
  | n + 1, tok :: toks =>
    if tok = ['!'] ∨ tok = "NOT".toList then
      (parseUnary n toks).andThen fun (e, toks) => ret (.not e, toks)
    else
      match ctlOp? tok with
      | some op => (parseUnary n toks).andThen fun (e, toks) => ret (.ctl op e, toks)
      | none =>
        match untilOp? tok with
        | some op =>
          let name := UntilOp.text op
          (expect ['('] (name ++ " requires '(' (use " ++ name ++ "(p, q))") toks).andThen fun toks =>
          (parseOr n toks).andThen fun (left, toks) =>
          (expect [','] (name ++ " requires two comma-separated operands: " ++ name ++ "(p, q)")
            toks).andThen fun toks =>
          (parseOr n toks).andThen fun (right, toks) =>
          (expect [')'] ("missing ')' in " ++ name ++ "(...)") toks).andThen fun toks =>
          ret (.until op left right, toks)
        | none =>
          if tok = ['('] then
            (parseOr n toks).andThen fun (node, toks) =>
            (expect [')'] "missing ')'" toks).andThen fun toks => ret (node, toks)
          else parsePredicate n (tok :: toks)

def parseAnd : ℕ → List Str → Parsed Expr
  | 0, _ => out
  | n + 1, toks => (parseUnary n toks).andThen fun (node, toks) => andLoop n node toks

def andLoop : ℕ → Expr → List Str → Parsed Expr
  | 0, _, _ => out
  | _ + 1, node, [] => ret (node, [])
  | n + 1, node, tok :: toks =>
    if tok = "&&".toList ∨ tok = "AND".toList then
      (parseUnary n toks).andThen fun (right, toks) => andLoop n (.and node right) toks
    else ret (node, tok :: toks)

def parseOr : ℕ → List Str → Parsed Expr
  | 0, _ => out
  | n + 1, toks => (parseAnd n toks).andThen fun (node, toks) => orLoop n node toks

def orLoop : ℕ → Expr → List Str → Parsed Expr
  | 0, _, _ => out
  | _ + 1, node, [] => ret (node, [])
  | n + 1, node, tok :: toks =>
    if tok = "||".toList ∨ tok = "OR".toList then
      (parseAnd n toks).andThen fun (right, toks) => orLoop n (.or node right) toks
    else ret (node, tok :: toks)

end

def parseFuel (toks : List Str) : ℕ := 3 * toks.length + 4

def unexpected (tok : Str) : Err :=
  .valueError ("unexpected token '" ++ String.ofList tok ++ "'")

def finish (x : Parsed Expr) : Except Err Expr :=
  match x with
  | none => .error (.valueError "out of fuel")
  | some (.error e) => .error e
  | some (.ok (node, [])) => .ok node
  | some (.ok (_, tok :: _)) => .error (unexpected tok)

def parseExpr (expr : Str) : Except Err Expr :=
  let toks := tokenize expr
  finish (parseOr (parseFuel toks) toks)

end TraceMind.Verify.Ctl

namespace TraceMind.Verify.Ctl

open Fuelled

theorem parsePredicate_le (n : ℕ) :
    ∀ toks, Le (parsePredicate n toks) (parsePredicate (n + 1) toks) := by
  induction n with
  | zero => exact fun _ => Or.inl rfl
  | succ n ih =>
    intro toks
    rw [parsePredicate, parsePredicate]
    refine (Le.refl _).andThen (fun (head, toks) => ?_)
    dsimp only
    split_ifs
    · exact (Le.refl _).andThen (fun _ => (Le.refl _).andThen
        (fun _ => (ih _).andThen (fun _ => Le.refl _)))
    · exact Le.refl _

theorem parse_le (n : ℕ) :
    (∀ toks, Le (parseUnary n toks) (parseUnary (n + 1) toks)) ∧
    (∀ toks, Le (parseAnd n toks) (parseAnd (n + 1) toks)) ∧
    (∀ node toks, Le (andLoop n node toks) (andLoop (n + 1) node toks)) ∧
    (∀ toks, Le (parseOr n toks) (parseOr (n + 1) toks)) ∧
    ∀ node toks, Le (orLoop n node toks) (orLoop (n + 1) node toks) := by
  induction n with
  | zero =>
    exact ⟨fun _ => Or.inl rfl, fun _ => Or.inl rfl, fun _ _ => Or.inl rfl, fun _ => Or.inl rfl,
      fun _ _ => Or.inl rfl⟩
  | succ n ih =>
    obtain ⟨hu, ha, hal, ho, hol⟩ := ih
    refine ⟨fun toks => ?_, fun toks => ?_, fun node toks => ?_, fun toks => ?_,
      fun node toks => ?_⟩
    · cases toks with
      | nil => exact Le.refl _
      | cons tok toks =>
        rw [parseUnary, parseUnary]
        split_ifs with hn hp
        · exact (hu _).andThen (fun _ => Le.refl _)
        · split
          · exact (hu _).andThen (fun _ => Le.refl _)
          · split
            · exact (Le.refl _).andThen (fun _ => (ho _).andThen (fun _ => (Le.refl _).andThen
                (fun _ => (ho _).andThen (fun _ => Le.refl _))))
            · exact (ho _).andThen (fun _ => Le.refl _)
        · split
          · exact (hu _).andThen (fun _ => Le.refl _)
          · split
            · exact (Le.refl _).andThen (fun _ => (ho _).andThen (fun _ => (Le.refl _).andThen
                (fun _ => (ho _).andThen (fun _ => Le.refl _))))
            · exact parsePredicate_le n _
    · rw [parseAnd, parseAnd]
      exact (hu _).andThen (fun _ => hal _ _)
    · cases toks with
      | nil => exact Le.refl _
      | cons tok toks =>
        rw [andLoop, andLoop]
        split_ifs
        · exact (hu _).andThen (fun _ => hal _ _)
        · exact Le.refl _
    · rw [parseOr, parseOr]
      exact (ha _).andThen (fun _ => hol _ _)
    · cases toks with
      | nil => exact Le.refl _
      | cons tok toks =>
        rw [orLoop, orLoop]
        split_ifs
        · exact (ha _).andThen (fun _ => hol _ _)
        · exact Le.refl _

def Shorter (toks : List Str) (r : Expr × List Str) : Prop := r.2.length < toks.length

theorem skip_length (tok : Str) (toks : List Str) : (skip tok toks).length ≤ toks.length := by
  cases toks with
  | nil => exact le_refl _
  | cons t ts =>
    rw [skip]
    split_ifs
    · exact Nat.le_succ _
    · exact le_refl _

theorem takeArg_length {toks parts rest : List Str} (h : takeArg toks = some (parts, rest)) :
    rest.length < toks.length := by
  induction toks generalizing parts with
  | nil => cases h
  | cons t ts ih =>
    rw [takeArg] at h
    split_ifs at h
    · cases h
      exact Nat.lt_succ_self _
    · cases ht : takeArg ts with
      | none => simp [ht] at h
      | some p =>
        simp only [ht, Option.map_some, Prod.map, id, Option.some.injEq, Prod.mk.injEq] at h
        have := ih (ht.trans (congrArg some (Prod.ext rfl h.2)))
        simp only [List.length_cons]
        omega

theorem peerPredicate_done (agentId : Str) (e : Expr) :
    Done (peerPredicate agentId e) (fun _ => True) := by
  unfold peerPredicate
  split
  · split_ifs
    · exact Or.inr ⟨_, rfl, trivial⟩
    · exact Or.inl ⟨_, rfl⟩
  · exact Or.inl ⟨_, rfl⟩
  · exact Or.inl ⟨_, rfl⟩

theorem pop_done (toks : List Str) :
    Done (pop toks) (fun r => r.2.length < toks.length) := by
  cases toks with
  | nil => exact Or.inl ⟨_, rfl⟩
  | cons t ts => exact Or.inr ⟨_, rfl, Nat.lt_succ_self _⟩

theorem expect_done (tok : Str) (message : String) (toks : List Str) :
    Done (expect tok message toks) (fun rest => rest.length < toks.length) := by
  cases toks with
  | nil => exact Or.inl ⟨_, rfl⟩
  | cons t ts =>
    rw [expect]
    split_ifs
    · exact Or.inr ⟨_, rfl, Nat.lt_succ_self _⟩
    · exact Or.inl ⟨_, rfl⟩

theorem argPredicate_done (head : Str) (toks : List Str) :
    Done (argPredicate head toks) (fun r => r.2.length ≤ toks.length) := by
  cases toks with
  | nil => exact Or.inr ⟨_, rfl, le_refl _⟩
  | cons tok toks =>
    rw [argPredicate]
    split_ifs
    · cases ht : takeArg toks with
      | none => exact Or.inl ⟨_, rfl⟩
      | some p => exact Or.inr ⟨_, rfl, Nat.le_succ_of_le (le_of_lt (takeArg_length ht))⟩
    · exact Or.inr ⟨_, rfl, le_refl _⟩

theorem parsePredicate_done (n : ℕ) :
    ∀ toks : List Str, toks.length < n → Done (parsePredicate n toks) (Shorter toks) := by
  induction n with
  | zero => exact fun toks h => absurd h (Nat.not_lt_zero _)
  | succ n ih =>
    intro toks h
    rw [parsePredicate]
    refine (pop_done toks).andThen (fun (head, ts) hts => ?_)
    dsimp only at hts ⊢
    split_ifs
    · refine (expect_done _ _ ts).andThen (fun ts1 h1 => ?_)
      refine (pop_done ts1).andThen (fun (agentId, ts2) h2 => ?_)
      have hs := skip_length [','] ts2
      dsimp only at h2 hs ⊢
      refine (ih _ (by omega)).andThen (fun (inner, ts3) h3 => ?_)
      have hs' := skip_length [')'] ts3
      refine (peerPredicate_done agentId inner).andThen (fun e _ => Or.inr ⟨_, rfl, ?_⟩)
      simp only [Shorter] at h3 ⊢
      omega
    · exact (argPredicate_done head ts).mono (fun r hr => lt_of_le_of_lt hr hts)

section unary

variable {n : ℕ} (ho : ∀ toks : List Str, 3 * toks.length + 4 ≤ n →
  Done (parseOr n toks) (Shorter toks))

include ho

theorem paren_done (toks : List Str) (h : 3 * toks.length + 4 ≤ n) (message : String)
    (tok : Str) :
    Done ((parseOr n toks).andThen fun (node, ts) =>
      (expect tok message ts).andThen fun ts => ret (node, ts)) (Shorter toks) := by
  refine (ho toks h).andThen (fun (node, ts) hts => ?_)
  refine (expect_done _ _ ts).andThen (fun ts1 h1 => Or.inr ⟨_, rfl, ?_⟩)
  exact lt_trans h1 hts

theorem until_done (op : UntilOp) (m₁ m₂ m₃ : String) (toks : List Str)
    (h : 3 * toks.length + 1 ≤ n) :
    Done ((expect ['('] m₁ toks).andThen fun ts =>
      (parseOr n ts).andThen fun (left, ts) =>
      (expect [','] m₂ ts).andThen fun ts =>
      (parseOr n ts).andThen fun (right, ts) =>
      (expect [')'] m₃ ts).andThen fun ts => ret (Expr.until op left right, ts))
      (Shorter toks) := by
  refine (expect_done _ _ toks).andThen (fun ts1 h1 => ?_)
  refine (ho ts1 (by omega)).andThen (fun (left, ts2) h2 => ?_)
  refine (expect_done _ _ ts2).andThen (fun ts3 h3 => ?_)
  simp only [Shorter] at h2
  refine (ho ts3 (by omega)).andThen (fun (right, ts4) h4 => ?_)
  refine (expect_done _ _ ts4).andThen (fun ts5 h5 => Or.inr ⟨_, rfl, ?_⟩)
  simp only [Shorter] at h4 ⊢
  omega

end unary

theorem parse_done (n : ℕ) :
    (∀ toks : List Str, 3 * toks.length + 2 ≤ n → Done (parseUnary n toks) (Shorter toks)) ∧
    (∀ toks : List Str, 3 * toks.length + 3 ≤ n → Done (parseAnd n toks) (Shorter toks)) ∧
    (∀ (node : Expr) (toks : List Str), 3 * toks.length + 1 ≤ n →
      Done (andLoop n node toks) (fun r => r.2.length ≤ toks.length)) ∧
    (∀ toks : List Str, 3 * toks.length + 4 ≤ n → Done (parseOr n toks) (Shorter toks)) ∧
    ∀ (node : Expr) (toks : List Str), 3 * toks.length + 1 ≤ n →
      Done (orLoop n node toks) (fun r => r.2.length ≤ toks.length) := by
  induction n with
  | zero =>
    refine ⟨?_, ?_, ?_, ?_, ?_⟩ <;> intros <;> omega
  | succ n ih =>
    obtain ⟨hu, ha, hal, ho, hol⟩ := ih
    refine ⟨fun toks h => ?_, fun toks h => ?_, fun node toks h => ?_, fun toks h => ?_,
      fun node toks h => ?_⟩
    · cases toks with
      | nil => exact Or.inl ⟨_, rfl⟩
      | cons tok toks =>
        simp only [List.length_cons] at h
        have hone (f : Expr → Expr) : Done ((parseUnary n toks).andThen
            fun (e, rest) => ret (f e, rest)) (Shorter (tok :: toks)) := by
          refine (hu toks (by omega)).andThen (fun r hr => Or.inr ⟨_, rfl, ?_⟩)
          simp only [Shorter, List.length_cons] at hr ⊢
          omega
        rw [parseUnary]
        split_ifs with hn hp
        · exact hone _
        · split
          · exact hone _
          · split
            · exact (until_done ho _ _ _ _ toks (by omega)).mono (fun r hr => Nat.lt_succ_of_lt hr)
            · exact (paren_done ho toks (by omega) _ _).mono (fun r hr => Nat.lt_succ_of_lt hr)
        · split
          · exact hone _
          · split
            · exact (until_done ho _ _ _ _ toks (by omega)).mono (fun r hr => Nat.lt_succ_of_lt hr)
            · exact parsePredicate_done n _ (by simp only [List.length_cons]; omega)
    · rw [parseAnd]
      refine (hu toks (by omega)).andThen (fun r hr => ?_)
      simp only [Shorter] at hr
      exact (hal r.1 r.2 (by omega)).mono (fun q hq => lt_of_le_of_lt hq hr)
    · cases toks with
      | nil => exact Or.inr ⟨_, rfl, le_refl _⟩
      | cons tok toks =>
        simp only [List.length_cons] at h
        rw [andLoop]
        split_ifs
        · refine (hu toks (by omega)).andThen (fun r hr => ?_)
          simp only [Shorter] at hr
          refine (hal _ r.2 (by omega)).mono (fun q hq => ?_)
          simp only [List.length_cons]
          omega
        · exact Or.inr ⟨_, rfl, le_refl _⟩
    · rw [parseOr]
      refine (ha toks (by omega)).andThen (fun r hr => ?_)
      simp only [Shorter] at hr
      exact (hol r.1 r.2 (by omega)).mono (fun q hq => lt_of_le_of_lt hq hr)
    · cases toks with
      | nil => exact Or.inr ⟨_, rfl, le_refl _⟩
      | cons tok toks =>
        simp only [List.length_cons] at h
        rw [orLoop]
        split_ifs
        · refine (ha toks (by omega)).andThen (fun r hr => ?_)
          simp only [Shorter] at hr
          refine (hol _ r.2 (by omega)).mono (fun q hq => ?_)
          simp only [List.length_cons]
          omega
        · exact Or.inr ⟨_, rfl, le_refl _⟩

def IsDelim (d : Char) : Prop := d = ' ' ∨ d = '(' ∨ d = ')' ∨ d = ','

theorem keyword_delim {k : Str} (hk : k ∈ keywords) {d : Char} (hd : IsDelim d) :
    d ∉ k.drop 1 := by
  have hall : keywords.all (fun k => [' ', '(', ')', ','].all (fun d => !(k.drop 1).contains d)) =
      true := by decide
  have hd' : d ∈ [' ', '(', ')', ','] := by rcases hd with rfl | rfl | rfl | rfl <;> decide
  have hk' := List.all_eq_true.mp (List.all_eq_true.mp hall k hk) d hd'
  simpa using hk'

theorem delim_not_idChar {d : Char} (hd : IsDelim d) : isIdChar d = false := by
  rcases hd with rfl | rfl | rfl | rfl <;> decide

theorem find_keyword {k : Str} (hk : k ∈ keywords) (s : Str) :
    keywords.find? (fun k' => startsWith k' (k ++ s)) = some k := by
  simp only [keywords, List.mem_cons, List.not_mem_nil, or_false] at hk
  rcases hk with rfl | rfl | rfl | rfl | rfl | rfl | rfl | rfl | rfl | rfl | rfl | rfl | rfl |
    rfl | rfl <;> rfl

def Stops (s : Str) : Prop := s = [] ∨ ∃ d r, s = d :: r ∧ IsDelim d

theorem prefix_before {k t s : Str} (h : k <+: t ++ s) (hs : Stops s)
    (hk : ∀ d, IsDelim d → d ∉ k.drop 1) (ht : t ≠ []) : k <+: t := by
  rcases hs with rfl | ⟨d, r, rfl, hd⟩
  · simpa using h
  · rcases List.prefix_or_prefix_of_prefix h (List.prefix_append t (d :: r)) with hp | ⟨u, rfl⟩
    · exact hp
    · cases u with
      | nil => simp
      | cons e u =>
        rw [List.prefix_append_right_inj, List.cons_prefix_cons] at h
        obtain ⟨c, t', rfl⟩ := List.exists_cons_of_ne_nil ht
        exact absurd (by simp [h.1]) (hk d hd)

theorem takeWhile_stops {s : Str} (hs : Stops s) :
    s.takeWhile isIdChar = [] ∧ s.dropWhile isIdChar = s := by
  rcases hs with rfl | ⟨d, r, rfl, hd⟩
  · exact ⟨rfl, rfl⟩
  · simp [delim_not_idChar hd]

theorem splitToken_some {s t r : Str} (h : splitToken s = some (t, r)) : s = t ++ r ∧ t ≠ [] := by
  cases s with
  | nil => cases h
  | cons c cs =>
    rw [splitToken] at h
    cases hf : keywords.find? (fun k => startsWith k (c :: cs)) with
    | some k =>
      rw [hf] at h
      cases h
      have hne : ∀ k ∈ keywords, k ≠ [] := by decide
      have hp := List.isPrefixOf_iff_prefix.mp (List.find?_some (p := fun k => startsWith k (c :: cs)) hf)
      exact ⟨(List.prefix_iff_eq_append.mp hp).symm, hne _ (List.mem_of_find?_eq_some hf)⟩
    | none =>
      rw [hf] at h
      dsimp only at h
      split_ifs at h
      · cases h
        exact ⟨by simp, by simp⟩
      · cases h
        exact ⟨rfl, by simp⟩

theorem token_delim {s t r : Str} (h : splitToken s = some (t, r)) {d : Char} (hd : IsDelim d) :
    d ∉ t.drop 1 := by
  cases s with
  | nil => cases h
  | cons c cs =>
    rw [splitToken] at h
    cases hf : keywords.find? (fun k => startsWith k (c :: cs)) with
    | some k =>
      rw [hf] at h
      cases h
      exact keyword_delim (List.mem_of_find?_eq_some hf) hd
    | none =>
      rw [hf] at h
      dsimp only at h
      split_ifs at h
      · cases h
        intro hm
        have := List.mem_takeWhile_imp hm
        rw [delim_not_idChar hd] at this
        cases this
      · cases h
        simp

theorem splitToken_stops {s t r : Str} (h : splitToken s = some (t, r)) {r' : Str}
    (hr : Stops r') : splitToken (t ++ r') = some (t, r') := by
  obtain ⟨hs, hne⟩ := splitToken_some h
  obtain ⟨c, t', rfl⟩ := List.exists_cons_of_ne_nil hne
  subst hs
  rw [List.cons_append, splitToken] at h ⊢
  cases hf : keywords.find? (fun k => startsWith k (c :: (t' ++ r))) with
  | some k =>
    simp only [hf, Option.some.injEq, Prod.mk.injEq] at h
    have hk := find_keyword (List.mem_of_find?_eq_some hf) r'
    rw [h.1, List.cons_append] at hk
    rw [hk]
    simp
  | none =>
    have hnone : keywords.find? (fun k => startsWith k (c :: (t' ++ r'))) = none := by
      rw [List.find?_eq_none] at hf ⊢
      intro k hk hpre
      have hpre' : k <+: (c :: t') ++ r' := List.isPrefixOf_iff_prefix.mp hpre
      have hp := prefix_before hpre' hr (fun d hd => keyword_delim hk hd) hne
      exact hf k hk (List.isPrefixOf_iff_prefix.mpr (hp.trans (List.prefix_append _ r)))
    rw [hnone]
    rw [hf] at h
    dsimp only at h ⊢
    split_ifs at h ⊢ with hid
    · simp only [Option.some.injEq, Prod.mk.injEq, List.cons.injEq, true_and] at h
      have hall : ∀ x ∈ t', isIdChar x = true := by
        intro x hx
        rw [← h.1] at hx
        exact List.mem_takeWhile_imp hx
      rw [List.takeWhile_append_of_pos hall, List.dropWhile_append_of_pos hall,
        (takeWhile_stops hr).1, (takeWhile_stops hr).2, List.append_nil]
    · simp only [Option.some.injEq, Prod.mk.injEq, List.cons.injEq, true_and] at h
      rw [← h.1]
      rfl

def IsToken (t : Str) : Prop := ∃ s r, nextToken s = some (t, r)

theorem IsToken.next {t : Str} (h : IsToken t) {r : Str} (hr : Stops r) :
    nextToken (t ++ r) = some (t, r) := by
  obtain ⟨s, r', h⟩ := h
  obtain ⟨hs, hne⟩ := splitToken_some h
  obtain ⟨c, t', rfl⟩ := List.exists_cons_of_ne_nil hne
  have hc : isSpace c = false := by
    have := List.head?_dropWhile_not isSpace s
    rw [hs] at this
    simpa using this
  rw [nextToken, List.cons_append, List.dropWhile_cons_of_neg (by simp [hc])]
  exact splitToken_stops h hr

theorem nextToken_length {s t r : Str} (h : nextToken s = some (t, r)) : r.length < s.length := by
  obtain ⟨hs, hne⟩ := splitToken_some h
  have hle := (List.dropWhile_sublist (l := s) isSpace).length_le
  rw [hs, List.length_append] at hle
  have := List.length_pos_of_ne_nil hne
  omega

theorem tokenizeAux_eq (n : ℕ) : ∀ (m : ℕ) (s : Str), s.length ≤ n → s.length ≤ m →
    tokenizeAux n s = tokenizeAux m s := by
  induction n with
  | zero =>
    intro m s hn _
    obtain rfl := List.length_eq_zero_iff.mp (Nat.le_zero.mp hn)
    cases m <;> rfl
  | succ n ih =>
    intro m s hn hm
    cases m with
    | zero =>
      obtain rfl := List.length_eq_zero_iff.mp (Nat.le_zero.mp hm)
      rfl
    | succ m =>
      rw [tokenizeAux, tokenizeAux]
      cases ht : nextToken s with
      | none => rfl
      | some p =>
        have := nextToken_length (show nextToken s = some (p.1, p.2) from ht)
        exact congrArg (p.1 :: ·) (ih m p.2 (by omega) (by omega))

theorem tokenize_of_next {s t r : Str} (h : nextToken s = some (t, r)) :
    tokenize s = t :: tokenize r := by
  have hlt := nextToken_length h
  obtain ⟨n, hn⟩ : ∃ n, s.length = n + 1 := ⟨s.length - 1, by omega⟩
  rw [tokenize, hn, tokenizeAux, h]
  exact congrArg (t :: ·) (tokenizeAux_eq n r.length r (by omega) (le_refl _))

theorem tokenize_of_none {s : Str} (h : nextToken s = none) : tokenize s = [] := by
  unfold tokenize
  cases s.length with
  | zero => rfl
  | succ n => rw [tokenizeAux, h]

theorem tokenize_congr {s s' : Str} (h : nextToken s = nextToken s') :
    tokenize s = tokenize s' := by
  cases hn : nextToken s with
  | none => rw [tokenize_of_none hn, tokenize_of_none (h ▸ hn)]
  | some p =>
    have hn' : nextToken s = some (p.1, p.2) := hn
    exact (tokenize_of_next hn').trans (tokenize_of_next (h.symm.trans hn')).symm

theorem tokenize_space (s : Str) : tokenize (' ' :: s) = tokenize s := tokenize_congr rfl

theorem IsToken.tokenize {t : Str} (h : IsToken t) {r : Str} (hr : Stops r) :
    tokenize (t ++ r) = t :: Ctl.tokenize r := tokenize_of_next (h.next hr)

theorem isToken_of_mem {s t : Str} (h : t ∈ tokenize s) : IsToken t := by
  unfold tokenize at h
  generalize s.length = n at h
  induction n generalizing s with
  | zero => cases h
  | succ n ih =>
    rw [tokenizeAux] at h
    cases hn : nextToken s with
    | none => simp [hn] at h
    | some p =>
      simp only [hn, List.mem_cons] at h
      rcases h with rfl | h
      · exact ⟨s, p.2, hn⟩
      · exact ih h

theorem isSpace_of_idChar {c : Char} (h : isIdChar c = true) : isSpace c = false := by
  simp only [isIdChar, Bool.or_eq_true, decide_eq_true_eq] at h
  rcases h with (((((h | rfl) | rfl) | rfl) | rfl) | rfl) | rfl
  · exact isSpace_of_alphanum h
  all_goals decide

theorem IsToken.noSpace {t : Str} (h : IsToken t) : ∀ c ∈ t, isSpace c = false := by
  obtain ⟨s, r, h⟩ := h
  rw [nextToken] at h
  have hhead := List.head?_dropWhile_not isSpace s
  cases hs : s.dropWhile isSpace with
  | nil => simp [hs, splitToken] at h
  | cons c cs =>
    rw [hs] at h hhead
    rw [splitToken] at h
    cases hf : keywords.find? (fun k => startsWith k (c :: cs)) with
    | some k =>
      rw [hf] at h
      cases h
      have hall : keywords.all (fun k => k.all (fun c => !isSpace c)) = true := by decide
      intro c hc
      have hk := List.all_eq_true.mp hall _ (List.mem_of_find?_eq_some hf)
      simpa using List.all_eq_true.mp hk c hc
    | none =>
      rw [hf] at h
      dsimp only at h
      split_ifs at h
      · cases h
        intro x hx
        rcases List.mem_cons.mp hx with rfl | hx
        · simpa using hhead
        · exact isSpace_of_idChar (List.mem_takeWhile_imp hx)
      · cases h
        intro x hx
        obtain rfl := List.mem_singleton.mp hx
        simpa using hhead

theorem IsToken.paren {t : Str} (h : IsToken t) (hc : ')' ∈ t) : t = [')'] := by
  obtain ⟨s, r, h⟩ := h
  obtain ⟨hs, hne⟩ := splitToken_some h
  have hd := token_delim h (show IsDelim ')' from Or.inr (Or.inr (Or.inl rfl)))
  obtain ⟨c, t', rfl⟩ := List.exists_cons_of_ne_nil hne
  simp only [List.drop_succ_cons, List.drop_zero] at hd
  obtain rfl : ')' = c := by simpa [hd] using hc
  rw [nextToken, hs] at h
  have hk : splitToken (')' :: (t' ++ r)) = some ([')'], t' ++ r) := rfl
  rw [List.cons_append, hk] at h
  simp only [Option.some.injEq, Prod.mk.injEq, List.cons.injEq, true_and] at h
  rw [← h.1]

theorem takeArg_append {toks : List Str} (h : [')'] ∉ toks) (rest : List Str) :
    takeArg (toks ++ [')'] :: rest) = some (toks, rest) := by
  induction toks with
  | nil => rfl
  | cons t ts ih =>
    rw [List.mem_cons, not_or] at h
    rw [List.cons_append, takeArg, if_neg (Ne.symm h.1), ih h.2]
    rfl

theorem tokenize_argument (rest : Str) (n : ℕ) : ∀ v : Str, v.length ≤ n → ')' ∉ v →
    (∀ c ∈ v, isSpace c = false) →
    ∃ toks, tokenize (v ++ ')' :: rest) = toks ++ [')'] :: tokenize rest ∧ toks.flatten = v ∧
      [')'] ∉ toks := by
  have hstop : Stops (')' :: rest) := Or.inr ⟨_, _, rfl, Or.inr (Or.inr (Or.inl rfl))⟩
  have hclose : tokenize (')' :: rest) = [')'] :: tokenize rest := tokenize_of_next rfl
  induction n with
  | zero =>
    intro v hv _ _
    obtain rfl := List.length_eq_zero_iff.mp (Nat.le_zero.mp hv)
    exact ⟨[], hclose, rfl, by simp⟩
  | succ n ih =>
    intro v hv hp hs
    cases v with
    | nil => exact ⟨[], hclose, rfl, by simp⟩
    | cons c cs =>
      have hnext : nextToken ((c :: cs) ++ ')' :: rest) =
          splitToken ((c :: cs) ++ ')' :: rest) := by
        rw [nextToken, List.cons_append, List.dropWhile_cons_of_neg (by simp [hs c])]
      obtain ⟨⟨t, r⟩, ht⟩ : ∃ p, splitToken ((c :: cs) ++ ')' :: rest) = some p := by
        rw [List.cons_append, splitToken]
        split
        · exact ⟨_, rfl⟩
        · split_ifs <;> exact ⟨_, rfl⟩
      obtain ⟨he, hne⟩ := splitToken_some ht
      obtain ⟨v', hv'⟩ := prefix_before (he ▸ List.prefix_append t r) hstop
        (fun d hd => token_delim ht hd) (List.cons_ne_nil c cs)
      rw [← hv'] at hp hs hv he hnext ⊢
      rw [List.append_assoc, List.append_cancel_left_eq] at he
      have hlen := List.length_pos_of_ne_nil hne
      rw [List.length_append] at hv
      obtain ⟨toks, htoks, hflat, hno⟩ := ih v' (by omega)
        (fun h => hp (List.mem_append_right _ h)) (fun x hx => hs x (List.mem_append_right _ hx))
      refine ⟨t :: toks, ?_, by rw [List.flatten_cons, hflat], ?_⟩
      · rw [tokenize_of_next (hnext.trans (hv' ▸ ht)), ← he, htoks]
        rfl
      · rw [List.mem_cons, not_or]
        refine ⟨fun h => hp ?_, hno⟩
        rw [← h]
        simp

end TraceMind.Verify.Ctl
