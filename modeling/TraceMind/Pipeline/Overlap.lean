import TraceMind.Verify.Fidelity

namespace TraceMind.Pipeline

open Selectors
open Verify
open Verify.Fidelity (TokenCovers anyMatch_iff matchToks_iff)

def IntBrackets (toks : List Str) : Prop :=
  ∀ tk ∈ toks, isBracket tk = true → tk ≠ ['[', ']'] → (pyInt (inner tk)).isSome = true

instance (toks : List Str) : Decidable (IntBrackets toks) :=
  inferInstanceAs (Decidable (∀ tk ∈ toks, isBracket tk = true → tk ≠ ['[', ']'] →
    (pyInt (inner tk)).isSome = true))

variable {V : Type} [PyValue V] {a : TraceMindAdapter V} {s t : State V} {name w step : Str}
  {spec : StepSpec} {paths : List Path} {toks trigs steps : List Str} {rule : Rule}

theorem tokenCovers_self {tk : Str} : TokenCovers tk tk ↔
    (isBracket tk = true → tk ≠ ['[', ']'] → (pyInt (inner tk)).isSome = true) := by
  rw [TokenCovers]
  by_cases hany : tk = ['[', ']']
  · subst hany
    simp [pathToken, isIndex]
  · constructor
    · rintro (rfl | ⟨h, -⟩ | ⟨h, -⟩)
      · intro hb
        cases hb
      · exact absurd h hany
      · exact fun hb _ => h hb
    · exact fun h => .inr (.inr ⟨fun hb => h hb hany, rfl⟩)

theorem matchToks_own : matchToks toks (toks.map pathToken) = decide (IntBrackets toks) := by
  rw [Bool.eq_iff_iff, matchToks_iff, List.forall₂_same, decide_eq_true_eq]
  exact forall₂_congr (fun _ _ => tokenCovers_self)

theorem ruleTriggered_of_mem {trig : Str} {b : Bool} (h : ruleTriggered trigs paths = .ok b)
    (hmem : trig ∈ trigs) (hm : anyMatch trig paths = .ok true) : b = true := by
  induction trigs with
  | nil => cases hmem
  | cons x trigs ih =>
    rw [ruleTriggered] at h
    obtain ⟨hit, hhit, h⟩ := Fallible.bind_eq_ok.mp h
    cases hit with
    | true => exact (Except.ok.inj h).symm
    | false =>
      rcases List.mem_cons.mp hmem with rfl | hmem
      · rw [hm] at hhit
        cases hhit
      · exact ih h hmem

theorem collectFrom_mem {rules : List Rule} (h : TraceMindAdapter.collectFrom paths rules = .ok steps)
    (hr : rule ∈ rules) (ht : w ∈ rule.triggers) (hm : anyMatch w paths = .ok true)
    (hs : step ∈ rule.steps) : step ∈ steps := by
  induction rules generalizing steps with
  | nil => cases hr
  | cons r rules ih =>
    rw [TraceMindAdapter.collectFrom] at h
    obtain ⟨b, hb, h⟩ := Fallible.bind_eq_ok.mp h
    obtain ⟨rest, hrest, h⟩ := Fallible.bind_eq_ok.mp h
    cases h
    rcases List.mem_cons.mp hr with rfl | hr
    · rw [ruleTriggered_of_mem hb ht hm]
      exact List.mem_append_left _ hs
    · have hstep := ih hrest hr
      cases b with
      | true => exact List.mem_append_right _ hstep
      | false => exact hstep

theorem runStep_schedules (h : a.runStep s name spec = .ok t) (hw : w ∈ spec.writes)
    (hp : parse w = .ok toks) (hint : IntBrackets toks) (hr : rule ∈ a.plan.rules)
    (ht : w ∈ rule.triggers) (hs : step ∈ rule.steps) : step ∈ t.pending := by
  rw [TraceMindAdapter.runStep] at h
  obtain ⟨paths, hpaths, h⟩ := Fallible.bind_eq_ok.mp h
  obtain ⟨triggered, htrig, h⟩ := Fallible.bind_eq_ok.mp h
  cases h
  obtain ⟨p, hmem, hwp⟩ := Fallible.mapM_image hpaths hw
  rw [selectorToPath, hp] at hwp
  obtain rfl := Except.ok.inj hwp
  have hm : anyMatch w paths = .ok true :=
    (anyMatch_iff hp).mpr ⟨_, hmem, matchToks_own.trans (decide_eq_true hint)⟩
  exact mem_foldl_appendNew.mpr (.inr (collectFrom_mem htrig hr ht hm hs))

theorem written_selector_schedules :
    (∀ w toks, parse w = .ok toks → ∃ p, selectorToPath w = .ok p ∧
      selectorMatch w p = .ok (decide (IntBrackets toks))) ∧
    ∀ (a : TraceMindAdapter V) (s : State V) (name : Str) (spec : StepSpec),
      ((∀ k ∈ spec.writes, Closed k) →
        (∀ rule ∈ a.plan.rules, ∀ trig ∈ rule.triggers, Closed trig) →
        ∃ t, a.runStep s name spec = .ok t) ∧
      ∀ t, a.runStep s name spec = .ok t → ∀ w ∈ spec.writes, ∀ toks, parse w = .ok toks →
        IntBrackets toks → ∀ rule ∈ a.plan.rules, w ∈ rule.triggers →
        ∀ step ∈ rule.steps, step ∈ t.pending := by
  refine ⟨fun w toks hp => ⟨toks.map pathToken, ?_, ?_⟩, fun a s name spec =>
    ⟨runStep_ok, fun t h w hw toks hp hint rule hr ht step hs =>
      runStep_schedules h hw hp hint hr ht hs⟩⟩
  · rw [selectorToPath, hp]
    rfl
  · rw [selectorMatch, hp, ← matchToks_own]
    rfl

theorem text_bracket_misses_itself :
    ¬∀ w toks p, parse w = .ok toks → selectorToPath w = .ok p → selectorMatch w p = .ok true := by
  intro h
  have hmiss := h "a[x]".toList [['a'], "[x]".toList] [.key ['a'], .key ['x']] (by decide) (by decide)
  exact absurd hmiss (by decide)

def firstSegment (expr : Str) : Str :=
  let s := expr.takeWhile (fun c => decide (c ≠ '.'))
  if '[' ∈ s ∧ ']' ∈ s then s.takeWhile (fun c => decide (c ≠ '[')) ++ ['[', ']'] else s

def writesOverlap (a b : Str) : Bool := decide (firstSegment a = firstSegment b)

def writeAffectsRead (writeSel readSel : Str) : Bool :=
  decide (firstSegment writeSel = firstSegment readSel)

inductive HeadName where
  | absent
  | star
  | named
deriving DecidableEq

def headText (expr : Str) : Str := expr.takeWhile isPlain

def headName (expr : Str) : HeadName :=
  if headText expr = [] then .absent else if headText expr = ['*'] then .star else .named

def attached (expr : Str) : Bool := decide ((expr.dropWhile isPlain).head? = some '[')

def SameForm (a b : Str) : Prop := headName a = headName b ∧ attached a = attached b

theorem takeWhile_dropped {p : Char → Bool} {x : Str} {c : Char} {rest : Str}
    (h : ∀ d ∈ x, p d = true) (hc : p c = false) : (x ++ c :: rest).takeWhile p = x := by
  rw [List.takeWhile_append_of_pos h, List.takeWhile_cons_of_neg (by simp [hc]), List.append_nil]

theorem plain_of_mem {e : Str} {c : Char} (h : c ∈ headText e) : c ≠ '.' ∧ c ≠ '[' :=
  of_decide_eq_true (p := c ≠ '.' ∧ c ≠ '[') (List.mem_takeWhile_imp (p := isPlain) h)

theorem mem_strip {u : Str} {c : Char} (hc : c ∈ u) (hs : isSpace c = false) : c ∈ strip u := by
  have hdrop : ∀ u : Str, c ∈ u → c ∈ u.dropWhile isSpace := by
    intro u hu
    rw [← List.takeWhile_append_dropWhile (p := isSpace) (l := u), List.mem_append] at hu
    refine hu.resolve_left (fun ht => ?_)
    rw [List.mem_takeWhile_imp ht] at hs
    cases hs
  rw [strip, List.mem_reverse]
  exact hdrop _ (List.mem_reverse.mpr (hdrop u hc))

theorem digitsValue_chars {u : Str} {acc : Option ℕ} {n : ℕ} (h : digitsValue u acc = some n)
    {c : Char} (hc : c ∈ u) : c ≠ '.' := by
  induction u generalizing acc with
  | nil => cases hc
  | cons d u ih =>
    rw [digitsValue] at h
    split_ifs at h with hd hu
    · rcases List.mem_cons.mp hc with rfl | hc
      · rintro rfl
        cases hd
      · exact ih h hc
    · rcases List.mem_cons.mp hc with rfl | hc
      · rintro rfl
        simp at hu
      · exact ih h hc

theorem pyInt_chars {u : Str} {i : ℤ} (h : pyInt u = some i) : '.' ∉ u := by
  intro hm
  have hstrip := mem_strip hm (by decide)
  have hdigits : ∀ ds, digitsValue ds none ≠ none → '.' ∉ ds := by
    intro ds hne hd
    obtain ⟨n, hn⟩ := Option.ne_none_iff_exists'.mp hne
    exact digitsValue_chars hn hd rfl
  rw [pyInt] at h
  split at h
  · next ds heq =>
    rw [heq, List.mem_cons] at hstrip
    refine hdigits ds (fun hn => ?_) (hstrip.resolve_left (by decide))
    rw [hn] at h
    cases h
  · next ds heq =>
    rw [heq, List.mem_cons] at hstrip
    refine hdigits ds (fun hn => ?_) (hstrip.resolve_left (by decide))
    rw [hn] at h
    cases h
  · refine hdigits _ (fun hn => ?_) hstrip
    rw [hn] at h
    cases h

theorem scan_bracket {expr rest buf : Str} (h : scan expr rest buf true = .ok toks) :
    ∃ q rest' toks', rest = q ++ ']' :: rest' ∧ toks = (buf ++ q ++ [']']) :: toks' := by
  induction rest generalizing buf with
  | nil => cases h
  | cons c rest ih =>
    rw [scan] at h
    split_ifs at h with hc
    · obtain ⟨toks', -, rfl⟩ := Fallible.map_eq_ok.mp h
      exact ⟨[], rest, toks', by rw [hc]; rfl, by rw [hc, List.append_nil]⟩
    · obtain ⟨q, rest', toks', rfl, rfl⟩ := ih h
      exact ⟨c :: q, rest', toks', rfl, by simp⟩

theorem parse_head {e : Str} (h : parse e = .ok toks) :
    (attached e = false ∧ (∃ toks', toks = flush (headText e) toks') ∧
      (e = headText e ∨ ∃ rest, e = headText e ++ '.' :: rest)) ∨
    (attached e = true ∧ ∃ q rest toks', e = headText e ++ '[' :: (q ++ ']' :: rest) ∧
      toks = flush (headText e) (('[' :: (q ++ [']'])) :: toks')) := by
  have hsplit : headText e ++ e.dropWhile isPlain = e := List.takeWhile_append_dropWhile
  have hscan : scan e (e.dropWhile isPlain) (headText e) false = .ok toks := by
    rw [parse] at h
    rw [← h]
    conv_rhs => arg 2; rw [← hsplit]
    exact (scan_run (fun c hc => List.mem_takeWhile_imp hc) e [] _).symm
  rw [attached]
  cases hrest : e.dropWhile isPlain with
  | nil =>
    rw [hrest] at hscan hsplit
    rw [List.append_nil] at hsplit
    exact .inl ⟨rfl, ⟨[], (Except.ok.inj hscan).symm⟩, .inl hsplit.symm⟩
  | cons c rest =>
    have hc : isPlain c = false := by
      have hhead := List.head?_dropWhile_not isPlain e
      rwa [hrest] at hhead
    rw [hrest] at hscan hsplit
    rw [scan] at hscan
    by_cases hdot : c = '.'
    · subst hdot
      rw [if_pos rfl] at hscan
      obtain ⟨toks', -, rfl⟩ := Fallible.map_eq_ok.mp hscan
      exact .inl ⟨by simp, ⟨toks', rfl⟩, .inr ⟨rest, hsplit.symm⟩⟩
    · have hopen : c = '[' := by
        by_contra hne
        rw [isPlain, decide_eq_true ⟨hdot, hne⟩] at hc
        cases hc
      subst hopen
      rw [if_neg hdot, if_pos rfl] at hscan
      obtain ⟨toks', hb, rfl⟩ := Fallible.map_eq_ok.mp hscan
      obtain ⟨q, rest', toks', rfl, rfl⟩ := scan_bracket hb
      exact .inr ⟨by simp, q, rest', toks', hsplit.symm, rfl⟩

theorem bracket_content {q : Str} {v : PathElem} (h : tokMatches ('[' :: (q ++ [']'])) v = true) :
    '.' ∉ q := by
  have hstar : '[' :: (q ++ [']']) ≠ ['*'] := by simp
  have hb : isBracket ('[' :: (q ++ [']'])) = true := by
    rw [isBracket, startsWith, Bool.and_eq_true, List.isPrefixOf_iff_prefix,
      List.isSuffixOf_iff_suffix]
    exact ⟨⟨q ++ [']'], rfl⟩, ⟨'[' :: q, rfl⟩⟩
  have hinner : inner ('[' :: (q ++ [']'])) = q := by simp [Selectors.inner]
  rw [tokMatches, if_neg hstar, if_pos hb, hinner] at h
  split_ifs at h with hany hnil
  · obtain rfl : q = [] := by simpa using hany
    exact List.not_mem_nil
  · exact hnil ▸ List.not_mem_nil
  · cases hi : pyInt q with
    | none =>
      rw [hi] at h
      cases h
    | some i => exact pyInt_chars hi

theorem matched_tok {path : Path} {tk : Str} (h : matchToks toks path = true) (ht : tk ∈ toks) :
    ∃ v, tokMatches tk v = true := by
  induction toks generalizing path with
  | nil => cases ht
  | cons x toks ih =>
    cases path with
    | nil => cases h
    | cons v path =>
      rw [matchToks, Bool.and_eq_true] at h
      rcases List.mem_cons.mp ht with rfl | ht
      · exact ⟨v, h.1⟩
      · exact ih h.2 ht

theorem firstSegment_eq {e : Str} {path : Path} (hp : parse e = .ok toks)
    (hm : matchToks toks path = true) :
    firstSegment e = headText e ++ if attached e then ['[', ']'] else [] := by
  have hdot : ∀ c ∈ headText e, decide (c ≠ '.') = true := fun c hc =>
    decide_eq_true (plain_of_mem hc).1
  have hopen : ∀ c ∈ headText e, decide (c ≠ '[') = true := fun c hc =>
    decide_eq_true (plain_of_mem hc).2
  rcases parse_head hp with ⟨hatt, -, he⟩ | ⟨hatt, q, rest, toks', he, rfl⟩
  · have hs : e.takeWhile (fun c => decide (c ≠ '.')) = headText e := by
      rcases he with he | ⟨rest, he⟩
      · rw [← he] at hdot
        rw [List.takeWhile_eq_self_iff.mpr hdot, ← he]
      · conv_lhs => rw [he]
        exact takeWhile_dropped hdot rfl
    have hnot : '[' ∉ headText e := fun hm => (plain_of_mem hm).2 rfl
    rw [firstSegment, hs, hatt, if_neg (fun h => hnot h.1)]
    simp
  · have htok : '[' :: (q ++ [']']) ∈ flush (headText e) (('[' :: (q ++ [']'])) :: toks') := by
      rw [flush]
      split_ifs <;> simp
    obtain ⟨v, hv⟩ := matched_tok hm htok
    have hq := bracket_content hv
    obtain ⟨tail, hs⟩ : ∃ tail, e.takeWhile (fun c => decide (c ≠ '.')) =
        headText e ++ '[' :: (q ++ ']' :: tail) := by
      refine ⟨rest.takeWhile (fun c => decide (c ≠ '.')), ?_⟩
      conv_lhs => rw [he]
      have hq' : ∀ c ∈ q, decide (c ≠ '.') = true := fun c hc =>
        decide_eq_true (fun h => hq (h ▸ hc))
      rw [List.takeWhile_append_of_pos hdot, List.takeWhile_cons_of_pos (by decide),
        List.takeWhile_append_of_pos hq', List.takeWhile_cons_of_pos (by decide)]
    rw [firstSegment, hs, hatt, if_pos ⟨by simp, by simp⟩, takeWhile_dropped hopen rfl]
    rfl

theorem headName_absent {e : Str} : headName e = .absent ↔ headText e = [] := by
  rw [headName]
  split_ifs with hnil hstar <;> simp_all

theorem headName_star {e : Str} : headName e = .star ↔ headText e = ['*'] := by
  rw [headName]
  split_ifs with hnil hstar <;> simp_all

theorem headName_named {e : Str} : headName e = .named ↔ headText e ≠ [] ∧ headText e ≠ ['*'] := by
  rw [headName]
  split_ifs with hnil hstar <;> simp_all

theorem matched_head {e : Str} {path : Path} (hp : parse e = .ok toks)
    (hm : matchToks toks path = true) (hn : headName e = .named) :
    path.head? = some (.key (headText e)) := by
  obtain ⟨hne, hstar⟩ := headName_named.mp hn
  have htoks : ∃ toks', toks = headText e :: toks' := by
    rcases parse_head hp with ⟨-, ⟨toks', rfl⟩, -⟩ | ⟨-, q, rest, toks', -, rfl⟩
    · exact ⟨toks', by rw [flush, if_neg hne]⟩
    · exact ⟨_, by rw [flush, if_neg hne]⟩
  obtain ⟨toks', rfl⟩ := htoks
  have hopen : '[' ∉ headText e := fun h => (plain_of_mem h).2 rfl
  have hb : isBracket (headText e) = false := by
    cases ht : headText e with
    | nil => rfl
    | cons c cs =>
      have hc : '[' ≠ c := fun h => hopen (by rw [ht, h]; exact List.mem_cons_self)
      simp [isBracket, startsWith, hc]
  have hany : headText e ≠ ['[', ']'] := fun h => hopen (by rw [h]; exact List.mem_cons_self)
  cases path with
  | nil => cases hm
  | cons v path =>
    rw [matchToks, Bool.and_eq_true, tokMatches, if_neg hstar, if_neg hany, hb,
      if_neg Bool.false_ne_true, decide_eq_true_eq] at hm
    rw [hm.1]
    rfl

theorem suffixed_inj {x y : Str} (hx : '[' ∉ x) (hy : '[' ∉ y) {b b' : Bool}
    (h : (x ++ if b then ['[', ']'] else []) = y ++ if b' then ['[', ']'] else []) :
    x = y ∧ b = b' := by
  have hsame : b = b' := by
    have hmem := congrArg (fun u => decide ('[' ∈ u)) h
    cases b <;> cases b' <;> simp [hx, hy] at hmem ⊢
  subst hsame
  exact ⟨List.append_cancel_right h, rfl⟩

theorem firstSegment_eq_iff {a b : Str} {path : Path} {ta tb : List Str} (ha : parse a = .ok ta)
    (hb : parse b = .ok tb) (hma : matchToks ta path = true) (hmb : matchToks tb path = true) :
    firstSegment a = firstSegment b ↔ SameForm a b := by
  rw [firstSegment_eq ha hma, firstSegment_eq hb hmb]
  constructor
  · intro h
    obtain ⟨htext, hatt⟩ := suffixed_inj (fun hc => (plain_of_mem hc).2 rfl)
      (fun hc => (plain_of_mem hc).2 rfl) h
    exact ⟨by rw [headName, htext, ← headName], hatt⟩
  · rintro ⟨hname, hatt⟩
    have htext : headText a = headText b := by
      cases hn : headName a with
      | absent =>
        rw [headName_absent.mp hn, headName_absent.mp (hname ▸ hn)]
      | star =>
        rw [headName_star.mp hn, headName_star.mp (hname ▸ hn)]
      | named =>
        have hha := matched_head ha hma hn
        rw [matched_head hb hmb (hname ▸ hn)] at hha
        exact (PathElem.key.inj (Option.some.inj hha)).symm
    rw [htext, hatt]

end TraceMind.Pipeline
