import TraceMind.Verify.Classify
import TraceMind.Verify.ExplorerSpec

namespace TraceMind.Verify.Ctl

open Fuelled

def DotAfterParen (w : Str) : Prop := ∀ a b, w = a ++ ')' :: b → ∃ b', b = '.' :: b'

structure GoodValue (w : Str) : Prop where
  nonempty : w ≠ []
  noSpace : ∀ c ∈ w, isSpace c = false
  paren : DotAfterParen w

def IsPlain (n : Str) : Prop :=
  n ≠ ['!'] ∧ n ≠ "NOT".toList ∧ n ≠ ['('] ∧ ctlOp? n = none ∧ untilOp? n = none

structure GoodName (n : Str) : Prop where
  token : IsToken n
  notPeer : lower n ≠ "peer".toList

def GoodPred (n : Str) (v : Option Str) : Prop := GoodName n ∧ ∀ w, v = some w → GoodValue w

def ParsedPred (n : Str) (v : Option Str) : Prop := GoodPred n v ∧ IsPlain n

def NamedTerminal (n : Str) (v : Option Str) : Prop :=
  lower n = "terminal".toList → n = "Terminal".toList ∧ v = none

def Reparsed (n : Str) (v : Option Str) : Prop := ParsedPred n v ∧ NamedTerminal n v

theorem isPlain_of_peer {n : Str}
    (h : lower n = "has".toList ∨ lower n = "pending".toList ∨ lower n = "done".toList) :
    IsPlain n := by
  have key (k : Str) (hk : lower k ≠ "has".toList ∧ lower k ≠ "pending".toList ∧
      lower k ≠ "done".toList) : n ≠ k := by
    rintro rfl
    rcases h with h | h | h
    · exact hk.1 h
    · exact hk.2.1 h
    · exact hk.2.2 h
  refine ⟨key _ (by decide), key _ (by decide), key _ (by decide), ?_, ?_⟩
  · unfold ctlOp?
    rw [if_neg (key _ (by decide)), if_neg (key _ (by decide)), if_neg (key _ (by decide)),
      if_neg (key _ (by decide)), if_neg (key _ (by decide))]
  · unfold untilOp?
    rw [if_neg (key _ (by decide)), if_neg (key _ (by decide))]

def Tokens (toks : List Str) : Prop := ∀ t ∈ toks, IsToken t

theorem skip_tokens {tok : Str} {toks : List Str} (h : Tokens toks) : Tokens (skip tok toks) := by
  cases toks with
  | nil => exact h
  | cons t ts =>
    rw [skip]
    split_ifs
    · exact fun x hx => h x (List.mem_cons_of_mem _ hx)
    · exact h

theorem pop_returns {toks : List Str} (h : Tokens toks) :
    Returns (pop toks) (fun r => IsToken r.1 ∧ Tokens r.2 ∧ toks = r.1 :: r.2) := by
  cases toks with
  | nil => exact Returns.of_fail
  | cons t ts =>
    exact Returns.of_ret ⟨h t List.mem_cons_self, fun x hx => h x (List.mem_cons_of_mem _ hx), rfl⟩

theorem expect_returns {tok : Str} {message : String} {toks : List Str} (h : Tokens toks) :
    Returns (expect tok message toks) Tokens := by
  cases toks with
  | nil => exact Returns.of_fail
  | cons t ts =>
    rw [expect]
    split_ifs
    · exact Returns.of_ret (fun x hx => h x (List.mem_cons_of_mem _ hx))
    · exact Returns.of_fail

theorem takeArg_tokens {toks parts rest : List Str} (h : Tokens toks)
    (ht : takeArg toks = some (parts, rest)) : Tokens parts ∧ [')'] ∉ parts ∧ Tokens rest := by
  induction toks generalizing parts with
  | nil => cases ht
  | cons t ts ih =>
    have hts : Tokens ts := fun x hx => h x (List.mem_cons_of_mem _ hx)
    rw [takeArg] at ht
    split_ifs at ht with hp
    · cases ht
      exact ⟨fun x hx => (List.not_mem_nil hx).elim, by simp, hts⟩
    · cases hr : takeArg ts with
      | none => simp [hr] at ht
      | some p =>
        simp only [hr, Option.map_some, Prod.map, id, Option.some.injEq, Prod.mk.injEq] at ht
        obtain ⟨h1, h2, h3⟩ := ih hts (hr.trans (congrArg some (Prod.ext rfl ht.2)))
        rw [← ht.1]
        refine ⟨fun x hx => ?_, ?_, h3⟩
        · rcases List.mem_cons.mp hx with rfl | hx
          · exact h _ List.mem_cons_self
          · exact h1 x hx
        · rw [List.mem_cons, not_or]
          exact ⟨Ne.symm hp, h2⟩

theorem goodValue_parts {parts : List Str} (h : Tokens parts) (hp : [')'] ∉ parts) :
    ∀ w, nonEmpty (strip parts.flatten) = some w → GoodValue w := by
  intro w hw
  have hns : ∀ c ∈ parts.flatten, isSpace c = false := by
    intro c hc
    obtain ⟨t, ht, hct⟩ := List.mem_flatten.mp hc
    exact (h t ht).noSpace c hct
  rw [strip_of_noSpace hns, nonEmpty] at hw
  split_ifs at hw with hne
  cases hw
  refine ⟨hne, hns, fun a b he => ?_⟩
  have hmem : ')' ∈ parts.flatten := by simp [he]
  obtain ⟨t, ht, hct⟩ := List.mem_flatten.mp hmem
  rw [(h t ht).paren hct] at ht
  exact absurd ht hp

theorem goodValue_peer {agentId w : Str} (ha : IsToken agentId) (hw : GoodValue w) :
    GoodValue (agentId ++ '.' :: w) := by
  refine ⟨by simp, ?_, fun a b he => ?_⟩
  · intro c hc
    rcases List.mem_append.mp hc with hc | hc
    · exact ha.noSpace c hc
    · rcases List.mem_cons.mp hc with rfl | hc
      · decide
      · exact hw.noSpace c hc
  · by_cases hp : ')' ∈ agentId
    · rw [ha.paren hp] at he
      cases a with
      | nil =>
        simp only [List.cons_append, List.nil_append, List.cons.injEq, true_and] at he
        exact ⟨w, he.symm⟩
      | cons x a =>
        simp only [List.cons_append, List.nil_append, List.cons.injEq] at he
        cases a with
        | nil => simp at he
        | cons y a =>
          simp only [List.cons_append, List.cons.injEq] at he
          exact hw.paren a b he.2.2
    · have hpre : ∃ u, a = agentId ++ '.' :: u := by
        rcases List.append_eq_append_iff.mp he with ⟨u, hu, hu'⟩ | ⟨u, hu, hu'⟩
        · cases u with
          | nil => simp at hu'
          | cons x u =>
            simp only [List.cons_append, List.cons.injEq] at hu'
            exact ⟨u, by rw [hu, hu'.1]⟩
        · cases u with
          | nil => simp at hu'
          | cons x u =>
            simp only [List.cons_append, List.cons.injEq] at hu'
            exact absurd (by rw [hu, hu'.1]; simp) hp
      obtain ⟨u, rfl⟩ := hpre
      rw [List.append_assoc, List.append_cancel_left_eq, List.cons_append, List.cons.injEq] at he
      exact hw.paren u b he.2

def PredResult (head : Str) (r : Expr × List Str) : Prop :=
  Tokens r.2 ∧ ∃ n v, r.1 = .predicate n v ∧ GoodPred n v ∧ NamedTerminal n v ∧
    (IsPlain head → IsPlain n)

theorem namedPredicate_result {head : Str} {v : Option Str} (h : GoodName head)
    (hv : ∀ w, v = some w → GoodValue w) {rest : List Str} (hr : Tokens rest) :
    PredResult head (namedPredicate head v, rest) := by
  refine ⟨hr, ?_⟩
  unfold namedPredicate
  dsimp only
  split_ifs with hterm
  · refine ⟨_, _, rfl, ⟨⟨⟨"Terminal".toList, [], by decide +kernel⟩, by decide⟩, by simp⟩,
      fun _ => ⟨rfl, rfl⟩, fun _ => ⟨by decide, by decide, by decide, by decide, by decide⟩⟩
  · exact ⟨head, v, rfl, ⟨h, hv⟩, fun ht => absurd ht hterm, id⟩

theorem argPredicate_returns {head : Str} {toks : List Str} (h : GoodName head)
    (ht : Tokens toks) : Returns (argPredicate head toks) (PredResult head) := by
  cases toks with
  | nil => exact Returns.of_ret (namedPredicate_result h (by simp) ht)
  | cons tok toks =>
    rw [argPredicate]
    split_ifs
    · cases ha : takeArg toks with
      | none => exact Returns.of_fail
      | some p =>
        obtain ⟨h1, h2, h3⟩ := takeArg_tokens (fun x hx => ht x (List.mem_cons_of_mem _ hx)) ha
        exact Returns.of_ret (namedPredicate_result h (goodValue_parts h1 h2) h3)
    · exact Returns.of_ret (namedPredicate_result h (by simp) ht)

theorem peerPredicate_returns {agentId n : Str} {v : Option Str} (ha : IsToken agentId)
    (h : GoodPred n v) : Returns (peerPredicate agentId (.predicate n v))
      (fun e => ∃ n v, e = .predicate n v ∧ Reparsed n v) := by
  cases v with
  | none => exact Returns.of_fail
  | some w =>
    rw [peerPredicate]
    split_ifs with hn
    · refine Returns.of_ret ⟨n, _, rfl, ⟨⟨h.1, fun w' hw' => ?_⟩, isPlain_of_peer hn⟩, fun ht => ?_⟩
      · cases hw'
        exact goodValue_peer ha (h.2 w rfl)
      · rw [ht] at hn
        exact absurd hn (by decide)
    · exact Returns.of_fail

theorem parsePredicate_returns (n : ℕ) : ∀ {head : Str} {toks : List Str}, Tokens (head :: toks) →
    Returns (parsePredicate n (head :: toks)) (PredResult head) := by
  induction n with
  | zero => exact fun _ => Returns.of_out
  | succ n ih =>
    intro head toks h
    rw [parsePredicate]
    refine (pop_returns h).andThen (fun r hr => ?_)
    obtain ⟨h1, h2, h3⟩ := hr
    cases h3
    dsimp only
    split_ifs with hp
    · refine (expect_returns h2).andThen (fun ts h3 => ?_)
      refine (pop_returns h3).andThen (fun q hq => ?_)
      obtain ⟨agentId, ts⟩ := q
      obtain ⟨ha, h4, -⟩ := hq
      have h5 : Tokens (skip [','] ts) := skip_tokens h4
      dsimp only
      cases hs : skip [','] ts with
      | nil =>
        cases n with
        | zero => exact Returns.of_out
        | succ n => exact Returns.of_fail
      | cons head' ts' =>
        rw [hs] at h5
        refine (ih h5).andThen (fun q hq => ?_)
        obtain ⟨inner, rest⟩ := q
        obtain ⟨h6, m, v, he, hg, -⟩ := hq
        dsimp only at he ⊢
        rw [he]
        refine (peerPredicate_returns ha hg).andThen (fun e hpeer => ?_)
        obtain ⟨m', v', he', hg'⟩ := hpeer
        exact Returns.of_ret ⟨skip_tokens h6, m', v', he', hg'.1.1, hg'.2, fun _ => hg'.1.2⟩
    · exact argPredicate_returns ⟨h1, hp⟩ h2

def Image (r : Expr × List Str) : Prop := Tokens r.2 ∧ r.1.All Reparsed

theorem parse_returns (n : ℕ) :
    (∀ toks, Tokens toks → Returns (parseUnary n toks) Image) ∧
    (∀ toks, Tokens toks → Returns (parseAnd n toks) Image) ∧
    (∀ node toks, node.All Reparsed → Tokens toks → Returns (andLoop n node toks) Image) ∧
    (∀ toks, Tokens toks → Returns (parseOr n toks) Image) ∧
    ∀ node toks, node.All Reparsed → Tokens toks → Returns (orLoop n node toks) Image := by
  induction n with
  | zero =>
    exact ⟨fun _ _ => Returns.of_out, fun _ _ => Returns.of_out, fun _ _ _ _ => Returns.of_out,
      fun _ _ => Returns.of_out, fun _ _ _ _ => Returns.of_out⟩
  | succ n ih =>
    obtain ⟨hu, ha, hal, ho, hol⟩ := ih
    refine ⟨fun toks h => ?_, fun toks h => ?_, fun node toks hn h => ?_, fun toks h => ?_,
      fun node toks hn h => ?_⟩
    · cases toks with
      | nil => exact Returns.of_fail
      | cons tok toks =>
        have hts : Tokens toks := fun x hx => h x (List.mem_cons_of_mem _ hx)
        rw [parseUnary]
        by_cases hnot : tok = ['!'] ∨ tok = "NOT".toList
        · rw [if_pos hnot]
          exact (hu toks hts).andThen (fun r hr => Returns.of_ret hr)
        · rw [if_neg hnot]
          cases hc : ctlOp? tok with
          | some op => exact (hu toks hts).andThen (fun r hr => Returns.of_ret hr)
          | none =>
            cases hun : untilOp? tok with
            | some op =>
              refine (expect_returns hts).andThen (fun ts h1 => ?_)
              refine (ho ts h1).andThen (fun left hl => ?_)
              refine (expect_returns hl.1).andThen (fun ts h3 => ?_)
              refine (ho ts h3).andThen (fun right hr => ?_)
              exact (expect_returns hr.1).andThen
                (fun ts h5 => Returns.of_ret ⟨h5, hl.2, hr.2⟩)
            | none =>
              dsimp only
              split_ifs with hp
              · refine (ho toks hts).andThen (fun node hn => ?_)
                exact (expect_returns hn.1).andThen (fun ts h2 => Returns.of_ret ⟨h2, hn.2⟩)
              · refine (parsePredicate_returns n h).mono (fun r hr => ?_)
                obtain ⟨h1, m, v, he, hg, hterm, hpl⟩ := hr
                refine ⟨h1, ?_⟩
                rw [he]
                exact ⟨⟨hg, hpl ⟨fun h => hnot (Or.inl h), fun h => hnot (Or.inr h), hp, hc, hun⟩⟩, hterm⟩
    · rw [parseAnd]
      exact (hu toks h).andThen (fun r hr => hal r.1 r.2 hr.2 hr.1)
    · cases toks with
      | nil => exact Returns.of_ret ⟨h, hn⟩
      | cons tok toks =>
        rw [andLoop]
        split_ifs
        · refine (hu toks (fun x hx => h x (List.mem_cons_of_mem _ hx))).andThen
            (fun r hr => hal _ r.2 ⟨hn, hr.2⟩ hr.1)
        · exact Returns.of_ret ⟨h, hn⟩
    · rw [parseOr]
      exact (ha toks h).andThen (fun r hr => hol r.1 r.2 hr.2 hr.1)
    · cases toks with
      | nil => exact Returns.of_ret ⟨h, hn⟩
      | cons tok toks =>
        rw [orLoop]
        split_ifs
        · refine (ha toks (fun x hx => h x (List.mem_cons_of_mem _ hx))).andThen
            (fun r hr => hol _ r.2 ⟨hn, hr.2⟩ hr.1)
        · exact Returns.of_ret ⟨h, hn⟩

theorem parseExpr_of_parseOr {s : Str} {n : ℕ} {x : Parsed Expr}
    (h : parseOr n (tokenize s) = x) (hx : x ≠ out) : parseExpr s = finish x := by
  have hdone := ((parse_done (parseFuel (tokenize s))).2.2.2.1 (tokenize s) (le_refl _)).ne_out
  have heq := agree (f := fun n => parseOr n (tokenize s)) (fun n => (parse_le n).2.2.2.1 _)
    hdone (h ▸ hx)
  exact congrArg finish (heq.trans h)

theorem finish_eq_ok {x : Parsed Expr} {e : Expr} (h : finish x = .ok e) : x = ret (e, []) := by
  rcases x with _ | err | ⟨node, toks⟩
  · cases h
  · cases h
  · cases toks with
    | nil =>
      cases h
      rfl
    | cons tok toks => cases h

theorem parseExpr_reparsed {s : Str} {e : Expr} (h : parseExpr s = .ok e) : e.All Reparsed := by
  have himg := (parse_returns (parseFuel (tokenize s))).2.2.2.1 (tokenize s)
    (fun t ht => isToken_of_mem ht)
  exact (himg _ (finish_eq_ok h)).2

def Unary (toks : List Str) (x : Parsed Expr) : Prop :=
  x ≠ out ∧ ∃ n, ∀ m, n ≤ m → parseUnary m toks = x

theorem Unary.of_eq {n : ℕ} {toks : List Str} {x : Parsed Expr} (h : parseUnary n toks = x)
    (hx : x ≠ out) : Unary toks x := by
  refine ⟨hx, n, fun m hm => ?_⟩
  have hle := le_of_succ (f := fun n => parseUnary n toks) (fun n => (parse_le n).1 toks) hm
  exact ((h ▸ hle).eq_of_done hx).symm

theorem ret_ne_out {α : Type} {a : α} : (ret a : Fuelled Err α) ≠ out := Option.some_ne_none _

theorem fail_ne_out {α : Type} {e : Err} : (fail e : Fuelled Err α) ≠ out := Option.some_ne_none _

def Stuck (x : Parsed Expr) : Prop :=
  (∃ err, x = fail err) ∨ ∃ e toks, x = ret (e, ['.'] :: toks)

section operators

variable {toks ts us : List Str} {l r : Expr} {x : Parsed Expr}

theorem unary_not (h : Unary toks x) :
    Unary (['!'] :: toks) (x.andThen fun (e, ts) => ret (.not e, ts)) := by
  obtain ⟨hx, n, hn⟩ := h
  refine Unary.of_eq (n := n + 1) (by rw [parseUnary, if_pos (Or.inl rfl), hn n (le_refl n)]) ?_
  rcases x with _ | e | p
  · exact absurd rfl hx
  · exact fail_ne_out
  · exact ret_ne_out

theorem unary_ctl {tok : Str} {op : CtlOp} (ho : ctlOp? tok = some op) (h : Unary toks x)
    (hn : ¬ (tok = ['!'] ∨ tok = "NOT".toList)) :
    Unary (tok :: toks) (x.andThen fun (e, ts) => ret (.ctl op e, ts)) := by
  obtain ⟨hx, n, hn'⟩ := h
  refine Unary.of_eq (n := n + 1) (by rw [parseUnary, if_neg hn, ho, hn' n (le_refl n)]) ?_
  rcases x with _ | e | p
  · exact absurd rfl hx
  · exact fail_ne_out
  · exact ret_ne_out

theorem parseUnary_paren (n : ℕ) (toks : List Str) :
    parseUnary (n + 1) (['('] :: toks) = (parseOr n toks).andThen fun (node, ts) =>
      (expect [')'] "missing ')'" ts).andThen fun ts => ret (node, ts) := by
  have h1 : ctlOp? ['('] = none := by decide
  have h2 : untilOp? ['('] = none := by decide
  rw [parseUnary, if_neg (by decide), h1, h2]
  rfl

theorem unary_paren_and (hl : Unary toks (ret (l, "&&".toList :: ts)))
    (hr : Unary ts (ret (r, [')'] :: us))) : Unary (['('] :: toks) (ret (.and l r, us)) := by
  obtain ⟨-, n, hn⟩ := hl
  obtain ⟨-, m, hm⟩ := hr
  refine Unary.of_eq (n := n + m + 5) ?_ ret_ne_out
  have h1 : parseUnary (n + m + 2) toks = _ := hn _ (by omega)
  have h2 : parseUnary (n + m + 1) ts = _ := hm _ (by omega)
  rw [parseUnary_paren, parseOr, parseAnd, h1, ret_andThen]
  dsimp only
  rw [andLoop, if_pos (Or.inl rfl), h2]
  rfl

theorem unary_paren_or (hl : Unary toks (ret (l, "||".toList :: ts)))
    (hr : Unary ts (ret (r, [')'] :: us))) : Unary (['('] :: toks) (ret (.or l r, us)) := by
  obtain ⟨-, n, hn⟩ := hl
  obtain ⟨-, m, hm⟩ := hr
  refine Unary.of_eq (n := n + m + 5) ?_ ret_ne_out
  have h1 : parseUnary (n + m + 2) toks = _ := hn _ (by omega)
  have h2 : parseUnary (n + m + 1) ts = _ := hm _ (by omega)
  have hand : andLoop (n + m + 2) l ("||".toList :: ts) = ret (l, "||".toList :: ts) := rfl
  rw [parseUnary_paren, parseOr, parseAnd, h1, ret_andThen]
  dsimp only
  rw [hand, ret_andThen]
  dsimp only
  rw [orLoop, if_pos (Or.inl rfl), parseAnd, h2]
  rfl

def Ends (x : Parsed Expr) : Prop :=
  (∃ err, x = fail err) ∨ ∃ e ts, x = ret (e, ts) ∧
    ∀ t ∈ ts.head?, t ∉ ["&&".toList, "AND".toList, "||".toList, "OR".toList]

theorem Stuck.ends (h : Stuck x) : Ends x := by
  rcases h with ⟨err, rfl⟩ | ⟨e, us, rfl⟩
  · exact Or.inl ⟨err, rfl⟩
  · exact Or.inr ⟨e, _, rfl, by simp⟩

theorem Unary.or (h : Unary toks x) (hx : Ends x) :
    ∃ n, ∀ m, n ≤ m → parseOr m toks = x := by
  obtain ⟨-, n, hn⟩ := h
  refine ⟨n + 3, fun m hm => ?_⟩
  obtain ⟨k, rfl⟩ : ∃ k, m = k + 3 := ⟨m - 3, by omega⟩
  have h1 : parseUnary (k + 1) toks = x := hn _ (by omega)
  rw [parseOr, parseAnd, h1]
  rcases hx with ⟨err, rfl⟩ | ⟨e, us, rfl, hus⟩
  · rfl
  · cases us with
    | nil => rfl
    | cons t us =>
      have ht := hus t rfl
      simp only [List.mem_cons, List.not_mem_nil, or_false, not_or] at ht
      have hand : andLoop (k + 1) e (t :: us) = ret (e, t :: us) :=
        if_neg (not_or.mpr ⟨ht.1, ht.2.1⟩)
      have hor : orLoop (k + 2) e (t :: us) = ret (e, t :: us) := if_neg (not_or.mpr ht.2.2)
      rw [ret_andThen]
      dsimp only
      rw [hand, ret_andThen]
      exact hor

theorem unary_paren_stuck_left (h : Unary toks x) (hx : Stuck x) :
    ∃ err, Unary (['('] :: toks) (fail err) := by
  obtain ⟨n, hn⟩ := h.or hx.ends
  have hparse := parseUnary_paren n toks
  rw [hn n le_rfl] at hparse
  rcases hx with ⟨err, rfl⟩ | ⟨e, us, rfl⟩
  · exact ⟨err, Unary.of_eq hparse fail_ne_out⟩
  · exact ⟨.valueError "missing ')'", Unary.of_eq hparse fail_ne_out⟩

theorem unary_paren_stuck_and (hl : Unary toks (ret (l, "&&".toList :: ts))) (h : Unary ts x)
    (hx : Stuck x) : ∃ err, Unary (['('] :: toks) (fail err) := by
  obtain ⟨-, n, hn⟩ := hl
  obtain ⟨-, m, hm⟩ := h
  have h1 : parseUnary (n + m + 2) toks = _ := hn _ (by omega)
  have h2 : parseUnary (n + m + 1) ts = x := hm _ (by omega)
  rcases hx with ⟨err, rfl⟩ | ⟨e, us, rfl⟩
  · refine ⟨err, Unary.of_eq (n := n + m + 5) ?_ fail_ne_out⟩
    rw [parseUnary_paren, parseOr, parseAnd, h1, ret_andThen]
    dsimp only
    rw [andLoop, if_pos (Or.inl rfl), h2]
    rfl
  · refine ⟨.valueError "missing ')'", Unary.of_eq (n := n + m + 5) ?_ fail_ne_out⟩
    rw [parseUnary_paren, parseOr, parseAnd, h1, ret_andThen]
    dsimp only
    rw [andLoop, if_pos (Or.inl rfl), h2]
    rfl

theorem unary_paren_stuck_or (hl : Unary toks (ret (l, "||".toList :: ts))) (h : Unary ts x)
    (hx : Stuck x) : ∃ err, Unary (['('] :: toks) (fail err) := by
  obtain ⟨-, n, hn⟩ := hl
  obtain ⟨-, m, hm⟩ := h
  have h1 : parseUnary (n + m + 2) toks = _ := hn _ (by omega)
  have h2 : parseUnary (n + m + 1) ts = x := hm _ (by omega)
  have hand : andLoop (n + m + 2) l ("||".toList :: ts) = ret (l, "||".toList :: ts) := rfl
  rcases hx with ⟨err, rfl⟩ | ⟨e, us, rfl⟩
  · refine ⟨err, Unary.of_eq (n := n + m + 5) ?_ fail_ne_out⟩
    rw [parseUnary_paren, parseOr, parseAnd, h1, ret_andThen]
    dsimp only
    rw [hand, ret_andThen]
    dsimp only
    rw [orLoop, if_pos (Or.inl rfl), parseAnd, h2]
    rfl
  · refine ⟨.valueError "missing ')'", Unary.of_eq (n := n + m + 5) ?_ fail_ne_out⟩
    rw [parseUnary_paren, parseOr, parseAnd, h1, ret_andThen]
    dsimp only
    rw [hand, ret_andThen]
    dsimp only
    rw [orLoop, if_pos (Or.inl rfl), parseAnd, h2]
    rfl

theorem parseUnary_until (op : UntilOp) (n : ℕ) (toks : List Str) : ∃ m₁ m₂,
    parseUnary (n + 1) ((UntilOp.text op).toList :: ['('] :: toks) =
      (parseOr n toks).andThen fun (l, ts) => (expect [','] m₁ ts).andThen fun ts =>
        (parseOr n ts).andThen fun (r, ts) => (expect [')'] m₂ ts).andThen fun ts =>
          ret (.until op l r, ts) := by
  cases op <;> exact ⟨_, _, rfl⟩

theorem unary_until (op : UntilOp) (hl : Unary toks (ret (l, [','] :: ts)))
    (hr : Unary ts (ret (r, [')'] :: us))) :
    Unary ((UntilOp.text op).toList :: ['('] :: toks) (ret (.until op l r, us)) := by
  obtain ⟨n, hn⟩ := hl.or (Or.inr ⟨l, _, rfl, by simp⟩)
  obtain ⟨m, hm⟩ := hr.or (Or.inr ⟨r, _, rfl, by simp⟩)
  obtain ⟨m₁, m₂, hparse⟩ := parseUnary_until op (n + m) toks
  refine Unary.of_eq (n := n + m + 1) ?_ ret_ne_out
  rw [hparse, hn _ (by omega), ret_andThen]
  dsimp only
  rw [expect, if_pos rfl, ret_andThen, hm _ (by omega)]
  rfl

theorem unary_until_stuck_left (op : UntilOp) (h : Unary toks x) (hx : Stuck x) :
    ∃ err, Unary ((UntilOp.text op).toList :: ['('] :: toks) (fail err) := by
  obtain ⟨n, hn⟩ := h.or hx.ends
  obtain ⟨m₁, m₂, hparse⟩ := parseUnary_until op n toks
  rw [hn n le_rfl] at hparse
  rcases hx with ⟨err, rfl⟩ | ⟨e, us, rfl⟩
  · exact ⟨err, Unary.of_eq hparse fail_ne_out⟩
  · exact ⟨.valueError m₁, Unary.of_eq hparse fail_ne_out⟩

theorem unary_until_stuck_right (op : UntilOp) (hl : Unary toks (ret (l, [','] :: ts)))
    (h : Unary ts x) (hx : Stuck x) :
    ∃ err, Unary ((UntilOp.text op).toList :: ['('] :: toks) (fail err) := by
  obtain ⟨n, hn⟩ := hl.or (Or.inr ⟨l, _, rfl, by simp⟩)
  obtain ⟨m, hm⟩ := h.or hx.ends
  obtain ⟨m₁, m₂, hparse⟩ := parseUnary_until op (n + m) toks
  rw [hn _ (by omega), ret_andThen] at hparse
  dsimp only at hparse
  rw [expect, if_pos rfl, ret_andThen, hm _ (by omega)] at hparse
  rcases hx with ⟨err, rfl⟩ | ⟨e, us, rfl⟩
  · exact ⟨err, Unary.of_eq hparse fail_ne_out⟩
  · exact ⟨.valueError m₂, Unary.of_eq hparse fail_ne_out⟩

theorem unary_predicate {n : Str} (hp : IsPlain n) (hn : lower n ≠ "peer".toList)
    (hx : argPredicate n toks = x) (hne : x ≠ out) : Unary (n :: toks) x := by
  refine Unary.of_eq (n := 2) ?_ hne
  obtain ⟨h1, h2, h3, h4, h5⟩ := hp
  rw [parseUnary, if_neg (not_or.mpr ⟨h1, h2⟩), h4, h5]
  dsimp only
  rw [if_neg h3, parsePredicate, pop, ret_andThen]
  dsimp only
  rw [if_neg hn, hx]

end operators

def NoParen (v : Option Str) : Prop := ∀ w, v = some w → ')' ∉ w

theorem stops_space (s : Str) : Stops (' ' :: s) := Or.inr ⟨_, _, rfl, Or.inl rfl⟩

theorem stops_open (s : Str) : Stops ('(' :: s) := Or.inr ⟨_, _, rfl, Or.inr (Or.inl rfl)⟩

theorem stops_close (s : Str) : Stops (')' :: s) := Or.inr ⟨_, _, rfl, Or.inr (Or.inr (Or.inl rfl))⟩

theorem tokenize_open (s : Str) : tokenize ('(' :: s) = ['('] :: tokenize s := tokenize_of_next rfl

theorem tokenize_close (s : Str) : tokenize (')' :: s) = [')'] :: tokenize s :=
  tokenize_of_next rfl

theorem tokenize_bang (s : Str) : tokenize ('!' :: s) = ['!'] :: tokenize s := tokenize_of_next rfl

theorem tokenize_dot (s : Str) : tokenize ('.' :: s) = ['.'] :: tokenize s := tokenize_of_next rfl

theorem tokenize_and (s : Str) : tokenize (" && ".toList ++ s) = "&&".toList :: tokenize s :=
  (tokenize_of_next rfl).trans (congrArg _ (tokenize_space s))

theorem tokenize_or (s : Str) : tokenize (" || ".toList ++ s) = "||".toList :: tokenize s :=
  (tokenize_of_next rfl).trans (congrArg _ (tokenize_space s))

theorem tokenize_comma (s : Str) : tokenize (", ".toList ++ s) = [','] :: tokenize s :=
  (tokenize_of_next rfl).trans (congrArg _ (tokenize_space s))

theorem tokenize_ctl (op : CtlOp) (s : Str) :
    tokenize ((CtlOp.text op).toList ++ ' ' :: s) = (CtlOp.text op).toList :: tokenize s := by
  cases op <;> exact (tokenize_of_next rfl).trans (congrArg _ (tokenize_space s))

theorem tokenize_until (op : UntilOp) (s : Str) :
    tokenize ((UntilOp.text op).toList ++ '(' :: s) =
      (UntilOp.text op).toList :: ['('] :: tokenize s := by
  cases op <;> exact (tokenize_of_next rfl).trans (congrArg _ (tokenize_open s))

structure Follows (rest : Str) : Prop where
  stops : Stops rest
  notOpen : (tokenize rest).head? ≠ some ['(']

theorem follows_nil : Follows [] := ⟨Or.inl rfl, by decide⟩

theorem follows_and (s : Str) : Follows (" && ".toList ++ s) :=
  ⟨stops_space _, by rw [tokenize_and, List.head?_cons]; decide⟩

theorem follows_or (s : Str) : Follows (" || ".toList ++ s) :=
  ⟨stops_space _, by rw [tokenize_or, List.head?_cons]; decide⟩

theorem follows_close (s : Str) : Follows (')' :: s) :=
  ⟨stops_close s, by rw [tokenize_close, List.head?_cons]; decide⟩

theorem follows_comma (s : Str) : Follows (", ".toList ++ s) :=
  ⟨Or.inr ⟨_, _, rfl, Or.inr (Or.inr (Or.inr rfl))⟩, by rw [tokenize_comma, List.head?_cons]; decide⟩

theorem NamedTerminal.named {n : Str} {v : Option Str} (h : NamedTerminal n v) :
    namedPredicate n v = .predicate n v := by
  rw [namedPredicate]
  split_ifs with ht
  · obtain ⟨rfl, rfl⟩ := h ht
    rfl
  · rfl

theorem argPredicate_uncalled (n : Str) {toks : List Str} (h : toks.head? ≠ some ['(']) :
    argPredicate n toks = ret (namedPredicate n none, toks) := by
  cases toks with
  | nil => rfl
  | cons t ts => exact if_neg (fun ht => h (congrArg some ht))

theorem argPredicate_bare {n : Str} (hn : NamedTerminal n none) {toks : List Str}
    (h : toks.head? ≠ some ['(']) : argPredicate n toks = ret (.predicate n none, toks) := by
  rw [argPredicate_uncalled n h, hn.named]

theorem argPredicate_value {n a : Str} (hp : ')' ∉ a) (hs : ∀ c ∈ a, isSpace c = false)
    (rest : Str) : argPredicate n (tokenize ('(' :: (a ++ ')' :: rest))) =
      ret (namedPredicate n (nonEmpty a), tokenize rest) := by
  obtain ⟨toks, ht, hflat, hno⟩ := tokenize_argument rest a.length a (le_refl _) hp hs
  rw [tokenize_open, ht, argPredicate, if_pos rfl, takeArg_append hno]
  dsimp only
  rw [hflat, strip_of_noSpace hs]

theorem unparse_predicate {n : Str} {v : Option Str} (h : Reparsed n v) (hv : NoParen v)
    {rest : Str} (hr : Follows rest) :
    Unary (tokenize (unparse (.predicate n v) ++ rest)) (ret (.predicate n v, tokenize rest)) := by
  obtain ⟨⟨⟨hn, hgood⟩, hplain⟩, hterm⟩ := h
  cases v with
  | none =>
    rw [unparse, hn.token.tokenize hr.stops]
    exact unary_predicate hplain hn.notPeer (argPredicate_bare hterm hr.notOpen) ret_ne_out
  | some w =>
    have hw := hgood w rfl
    have htext : unparse (.predicate n (some w)) ++ rest = n ++ '(' :: (w ++ ')' :: rest) := by
      simp [unparse]
    rw [htext, hn.token.tokenize (stops_open _)]
    refine unary_predicate hplain hn.notPeer ?_ ret_ne_out
    rw [argPredicate_value (hv w rfl) hw.noSpace, nonEmpty, if_neg hw.nonempty, hterm.named]

theorem unparse_predicate_stuck {n : Str} {v : Option Str} (h : Reparsed n v) (hv : ¬ NoParen v)
    (rest : Str) : ∃ x, Unary (tokenize (unparse (.predicate n v) ++ rest)) x ∧ Stuck x := by
  obtain ⟨⟨⟨hn, hgood⟩, hplain⟩, -⟩ := h
  simp only [NoParen, not_forall, not_not] at hv
  obtain ⟨w, rfl, hmem⟩ := hv
  have hw := hgood w rfl
  obtain ⟨a, b, hab, ha⟩ := List.eq_append_cons_of_mem hmem
  obtain ⟨b', rfl⟩ := hw.paren a b hab
  have htext : unparse (.predicate n (some w)) ++ rest =
      n ++ '(' :: (a ++ ')' :: '.' :: (b' ++ ')' :: rest)) := by
    simp [unparse, hab]
  rw [htext, hn.token.tokenize (stops_open _)]
  refine ⟨_, unary_predicate hplain hn.notPeer (argPredicate_value ha ?_ _) ret_ne_out, ?_⟩
  · exact fun c hc => hw.noSpace c (hab ▸ List.mem_append_left _ hc)
  · rw [tokenize_dot]
    exact Or.inr ⟨_, _, rfl⟩

theorem ctlOp_text (op : CtlOp) : ctlOp? (CtlOp.text op).toList = some op := by cases op <;> rfl

theorem notTok_ctl (op : CtlOp) :
    ¬((CtlOp.text op).toList = ['!'] ∨ (CtlOp.text op).toList = "NOT".toList) := by
  cases op <;> decide

theorem unparse_unary {e : Expr} (hp : e.All Reparsed)
    (hv : e.All (fun _ v => NoParen v)) {rest : Str} (hr : Follows rest) :
    Unary (tokenize (unparse e ++ rest)) (ret (e, tokenize rest)) := by
  induction e generalizing rest with
  | predicate n v => exact unparse_predicate hp hv hr
  | not c ih =>
    rw [unparse, List.cons_append, tokenize_bang]
    exact unary_not (ih hp hv hr)
  | and l r ihl ihr =>
    have htext : unparse (.and l r) ++ rest =
        '(' :: (unparse l ++ (" && ".toList ++ (unparse r ++ ')' :: rest))) := by
      simp [unparse]
    rw [htext, tokenize_open]
    have hl := ihl hp.1 hv.1 (follows_and (unparse r ++ ')' :: rest))
    have hr' := ihr hp.2 hv.2 (follows_close rest)
    rw [tokenize_and] at hl
    rw [tokenize_close] at hr'
    exact unary_paren_and hl hr'
  | or l r ihl ihr =>
    have htext : unparse (.or l r) ++ rest =
        '(' :: (unparse l ++ (" || ".toList ++ (unparse r ++ ')' :: rest))) := by
      simp [unparse]
    rw [htext, tokenize_open]
    have hl := ihl hp.1 hv.1 (follows_or (unparse r ++ ')' :: rest))
    have hr' := ihr hp.2 hv.2 (follows_close rest)
    rw [tokenize_or] at hl
    rw [tokenize_close] at hr'
    exact unary_paren_or hl hr'
  | ctl op c ih =>
    have htext : unparse (.ctl op c) ++ rest =
        (CtlOp.text op).toList ++ ' ' :: (unparse c ++ rest) := by
      simp [unparse]
    rw [htext, tokenize_ctl]
    exact unary_ctl (ctlOp_text op) (ih hp hv hr) (notTok_ctl op)
  | «until» op l r ihl ihr =>
    have htext : unparse (.until op l r) ++ rest = (UntilOp.text op).toList ++
        '(' :: (unparse l ++ (", ".toList ++ (unparse r ++ ')' :: rest))) := by
      simp [unparse]
    rw [htext, tokenize_until]
    have hl := ihl hp.1 hv.1 (follows_comma (unparse r ++ ')' :: rest))
    have hr' := ihr hp.2 hv.2 (follows_close rest)
    rw [tokenize_comma] at hl
    rw [tokenize_close] at hr'
    exact unary_until op hl hr'

theorem unparse_stuck {e : Expr} (hp : e.All Reparsed)
    (hv : ¬ e.All (fun _ v => NoParen v)) (rest : Str) :
    ∃ x, Unary (tokenize (unparse e ++ rest)) x ∧ Stuck x := by
  induction e generalizing rest with
  | predicate n v => exact unparse_predicate_stuck hp hv rest
  | not c ih =>
    obtain ⟨x, hx, hs⟩ := ih hp hv rest
    rw [unparse, List.cons_append, tokenize_bang]
    refine ⟨_, unary_not hx, ?_⟩
    rcases hs with ⟨err, rfl⟩ | ⟨e, toks, rfl⟩
    · exact Or.inl ⟨err, rfl⟩
    · exact Or.inr ⟨_, toks, rfl⟩
  | and l r ihl ihr =>
    have htext : unparse (.and l r) ++ rest =
        '(' :: (unparse l ++ (" && ".toList ++ (unparse r ++ ')' :: rest))) := by
      simp [unparse]
    rw [htext, tokenize_open]
    have hfail : ∃ err, Unary (['('] :: tokenize (unparse l ++ (" && ".toList ++
        (unparse r ++ ')' :: rest)))) (fail err) := by
      by_cases hvl : l.All (fun _ v => NoParen v)
      · have hl := unparse_unary hp.1 hvl (follows_and (unparse r ++ ')' :: rest))
        rw [tokenize_and] at hl
        obtain ⟨x, hx, hs⟩ := ihr hp.2 (fun hvr => hv ⟨hvl, hvr⟩) (')' :: rest)
        exact unary_paren_stuck_and hl hx hs
      · obtain ⟨x, hx, hs⟩ := ihl hp.1 hvl (" && ".toList ++ (unparse r ++ ')' :: rest))
        exact unary_paren_stuck_left hx hs
    obtain ⟨err, hf⟩ := hfail
    exact ⟨_, hf, Or.inl ⟨err, rfl⟩⟩
  | or l r ihl ihr =>
    have htext : unparse (.or l r) ++ rest =
        '(' :: (unparse l ++ (" || ".toList ++ (unparse r ++ ')' :: rest))) := by
      simp [unparse]
    rw [htext, tokenize_open]
    have hfail : ∃ err, Unary (['('] :: tokenize (unparse l ++ (" || ".toList ++
        (unparse r ++ ')' :: rest)))) (fail err) := by
      by_cases hvl : l.All (fun _ v => NoParen v)
      · have hl := unparse_unary hp.1 hvl (follows_or (unparse r ++ ')' :: rest))
        rw [tokenize_or] at hl
        obtain ⟨x, hx, hs⟩ := ihr hp.2 (fun hvr => hv ⟨hvl, hvr⟩) (')' :: rest)
        exact unary_paren_stuck_or hl hx hs
      · obtain ⟨x, hx, hs⟩ := ihl hp.1 hvl (" || ".toList ++ (unparse r ++ ')' :: rest))
        exact unary_paren_stuck_left hx hs
    obtain ⟨err, hf⟩ := hfail
    exact ⟨_, hf, Or.inl ⟨err, rfl⟩⟩
  | ctl op c ih =>
    have htext : unparse (.ctl op c) ++ rest =
        (CtlOp.text op).toList ++ ' ' :: (unparse c ++ rest) := by
      simp [unparse]
    obtain ⟨x, hx, hs⟩ := ih hp hv rest
    rw [htext, tokenize_ctl]
    refine ⟨_, unary_ctl (ctlOp_text op) hx (notTok_ctl op), ?_⟩
    rcases hs with ⟨err, rfl⟩ | ⟨e, toks, rfl⟩
    · exact Or.inl ⟨err, rfl⟩
    · exact Or.inr ⟨_, toks, rfl⟩
  | «until» op l r ihl ihr =>
    have htext : unparse (.until op l r) ++ rest = (UntilOp.text op).toList ++
        '(' :: (unparse l ++ (", ".toList ++ (unparse r ++ ')' :: rest))) := by
      simp [unparse]
    rw [htext, tokenize_until]
    have hfail : ∃ err, Unary ((UntilOp.text op).toList :: ['('] :: tokenize (unparse l ++
        (", ".toList ++ (unparse r ++ ')' :: rest)))) (fail err) := by
      by_cases hvl : l.All (fun _ v => NoParen v)
      · have hl := unparse_unary hp.1 hvl (follows_comma (unparse r ++ ')' :: rest))
        rw [tokenize_comma] at hl
        obtain ⟨x, hx, hs⟩ := ihr hp.2 (fun hvr => hv ⟨hvl, hvr⟩) (')' :: rest)
        exact unary_until_stuck_right op hl hx hs
      · obtain ⟨x, hx, hs⟩ := ihl hp.1 hvl (", ".toList ++ (unparse r ++ ')' :: rest))
        exact unary_until_stuck_left op hx hs
    obtain ⟨err, hf⟩ := hfail
    exact ⟨_, hf, Or.inl ⟨err, rfl⟩⟩

theorem parseExpr_of_unary {s : Str} {x : Parsed Expr} (h : Unary (tokenize s) x)
    (hx : Stuck x ∨ ∃ e, x = ret (e, [])) : parseExpr s = finish x := by
  have hends : Ends x := hx.elim Stuck.ends (fun ⟨e, he⟩ => Or.inr ⟨e, [], he, by simp⟩)
  obtain ⟨n, hn⟩ := h.or hends
  exact parseExpr_of_parseOr (hn n le_rfl) h.1

theorem parseExpr_unparse {e : Expr} (hp : e.All Reparsed) :
    (e.All (fun _ v => NoParen v) → parseExpr (unparse e) = .ok e) ∧
    (¬ e.All (fun _ v => NoParen v) → ∃ err, parseExpr (unparse e) = .error err) := by
  constructor
  · intro hv
    have h := unparse_unary hp hv follows_nil
    rw [List.append_nil] at h
    exact parseExpr_of_unary h (Or.inr ⟨e, rfl⟩)
  · intro hv
    obtain ⟨x, h, hs⟩ := unparse_stuck hp hv []
    rw [List.append_nil] at h
    have hparse := parseExpr_of_unary h (Or.inl hs)
    rcases hs with ⟨err, rfl⟩ | ⟨e', toks, rfl⟩
    · exact ⟨err, hparse⟩
    · exact ⟨_, hparse⟩

theorem reparse_iff {f : Str} {e : Expr} (h : parseExpr f = .ok e) :
    parseExpr (unparse e) = .ok e ↔ e.All (fun _ v => NoParen v) := by
  obtain ⟨hback, hbad⟩ := parseExpr_unparse (parseExpr_reparsed h)
  refine ⟨fun hok => ?_, hback⟩
  by_contra hv
  obtain ⟨err, herr⟩ := hbad hv
  rw [hok] at herr
  cases herr

theorem reparse_until :
    parseExpr (unparse (.until .EU (.predicate "has".toList (some ['x']))
      (.predicate "Terminal".toList none))) =
      .ok (.until .EU (.predicate "has".toList (some ['x'])) (.predicate "Terminal".toList none)) :=
  (reparse_iff (f := "EU(has( x ), terminal(now))".toList) (by decide +kernel)).mpr
    ⟨fun w hw => by cases hw; decide, fun w hw => by cases hw⟩

theorem reparse_refused :
    ¬∀ f e, parseExpr f = .ok e → parseExpr (unparse e) = .ok e := by
  intro h
  have hback := h "peer(), has(x))".toList (.predicate "has".toList (some ").x".toList))
    (by decide +kernel)
  have hbad : parseExpr (unparse (.predicate "has".toList (some ").x".toList))) ≠
      .ok (.predicate "has".toList (some ").x".toList)) := by decide +kernel
  exact hbad hback

end TraceMind.Verify.Ctl
