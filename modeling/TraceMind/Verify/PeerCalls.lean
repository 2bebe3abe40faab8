import TraceMind.Verify.Filling

namespace TraceMind.Verify.Ctl

open Fuelled

theorem span_append {u : Str} (hu : Stops u) (s : Str) :
    (s ++ u).takeWhile isIdChar = s.takeWhile isIdChar ∧
      (s ++ u).dropWhile isIdChar = s.dropWhile isIdChar ++ u := by
  induction s with
  | nil => exact takeWhile_stops hu
  | cons c s ih =>
    by_cases hc : isIdChar c = true
    · simp [hc, ih]
    · simp [hc]

theorem splitToken_append {s t r u : Str} (h : splitToken s = some (t, r)) (hu : Stops u) :
    splitToken (s ++ u) = some (t, r ++ u) := by
  cases s with
  | nil => cases h
  | cons c cs =>
    rw [List.cons_append, splitToken]
    rw [splitToken] at h
    cases hf : keywords.find? (fun k => startsWith k (c :: cs)) with
    | some k =>
      rw [hf] at h
      cases h
      have hpre := List.isPrefixOf_iff_prefix.mp
        (List.find?_some (p := fun k => startsWith k (c :: cs)) hf)
      obtain ⟨r, hr⟩ := hpre
      have hk := find_keyword (List.mem_of_find?_eq_some hf) (r ++ u)
      rw [← List.append_assoc, hr, List.cons_append] at hk
      rw [hk, ← List.cons_append, ← hr]
      simp
    | none =>
      have hnone : keywords.find? (fun k => startsWith k (c :: (cs ++ u))) = none := by
        rw [List.find?_eq_none] at hf ⊢
        intro k hk hpre
        have hpre' : k <+: (c :: cs) ++ u := List.isPrefixOf_iff_prefix.mp hpre
        have hp := prefix_before hpre' hu (fun d hd => keyword_delim hk hd) (List.cons_ne_nil c cs)
        exact hf k hk (List.isPrefixOf_iff_prefix.mpr hp)
      rw [hf] at h
      rw [hnone]
      dsimp only at h ⊢
      obtain ⟨htake, hdrop⟩ := span_append hu cs
      split_ifs at h ⊢
      · cases h
        rw [htake, hdrop]
      · cases h
        rfl

theorem nextToken_append {s t r u : Str} (h : nextToken s = some (t, r)) (hu : Stops u) :
    nextToken (s ++ u) = some (t, r ++ u) := by
  rw [nextToken, List.dropWhile_append]
  split_ifs with hs
  · rw [nextToken, List.isEmpty_iff.mp hs] at h
    cases h
  · exact splitToken_append h hu

theorem all_space {s : Str} (h : nextToken s = none) : s.dropWhile isSpace = [] := by
  rw [nextToken] at h
  cases hd : s.dropWhile isSpace with
  | nil => rfl
  | cons c cs =>
    rw [hd, splitToken] at h
    split at h
    · cases h
    · split_ifs at h

theorem nextToken_none {s : Str} (h : nextToken s = none) (u : Str) :
    nextToken (s ++ u) = nextToken u := by
  rw [nextToken, List.dropWhile_append, all_space h]
  rfl

theorem tokenize_append {u : Str} (hu : Stops u) (s : Str) :
    tokenize (s ++ u) = tokenize s ++ tokenize u := by
  generalize hn : s.length = n
  induction n using Nat.strong_induction_on generalizing s with
  | _ n ih =>
    cases hs : nextToken s with
    | none =>
      rw [tokenize_of_none hs]
      exact tokenize_congr (nextToken_none hs u)
    | some p =>
      obtain ⟨t, r⟩ := p
      have hlt := nextToken_length hs
      rw [tokenize_of_next hs, tokenize_of_next (nextToken_append hs hu),
        ih r.length (hn ▸ hlt) r rfl]
      rfl

theorem tokenize_closed (s u : Str) :
    tokenize (s ++ ')' :: u) = tokenize (s ++ [')']) ++ tokenize u := by
  rw [tokenize_append (stops_close u), tokenize_append (stops_close []), tokenize_close,
    tokenize_close, List.append_assoc]
  rfl

theorem nextToken_cons {d : Char} (hd : isSpace d = false) (s : Str) :
    ∃ t r, nextToken (d :: s) = some (d :: t, r) ∧ s = t ++ r := by
  cases h : nextToken (d :: s) with
  | none =>
    have hs := all_space h
    rw [List.dropWhile_cons_of_neg (by simp [hd])] at hs
    cases hs
  | some p =>
    obtain ⟨t, r⟩ := p
    have hs := h
    rw [nextToken, List.dropWhile_cons_of_neg (by simp [hd])] at hs
    obtain ⟨he, hne⟩ := splitToken_some hs
    obtain ⟨c, t, rfl⟩ := List.exists_cons_of_ne_nil hne
    rw [List.cons_append, List.cons.injEq] at he
    obtain ⟨rfl, rfl⟩ := he
    exact ⟨t, r, rfl, rfl⟩

def nameChar (c : Char) : Bool := c.isAlphanum || c = '_' || c = '-' || c = '.'

def IsName : Str → Prop
  | [] => False
  | c :: cs => isIdStart c = true ∧ ∀ d ∈ cs, nameChar d = true

def Whole (c : Str) : Prop := ∀ k ∈ keywords, k <+: c → k = c

theorem idChar_of_nameChar {c : Char} (h : nameChar c = true) : isIdChar c = true := by
  simp only [nameChar, isIdChar, Bool.or_eq_true] at h ⊢
  tauto

theorem nameChar_of_idStart {c : Char} (h : isIdStart c = true) : nameChar c = true := by
  simp only [nameChar, isIdStart, Char.isAlphanum, Bool.or_eq_true] at h ⊢
  tauto

theorem IsName.nameChar {c : Str} (h : IsName c) : ∀ d ∈ c, nameChar d = true := by
  cases c with
  | nil => exact h.elim
  | cons x c =>
    intro d hd
    rcases List.mem_cons.mp hd with rfl | hd
    · exact nameChar_of_idStart h.1
    · exact h.2 d hd

theorem IsName.noSpace {c : Str} (h : IsName c) : ∀ d ∈ c, isSpace d = false :=
  fun d hd => isSpace_of_idChar (idChar_of_nameChar (h.nameChar d hd))

theorem IsName.noClose {c : Str} (h : IsName c) : ')' ∉ c :=
  fun hc => absurd (h.nameChar _ hc) (by decide)

theorem IsName.token {c : Str} (h : IsName c) (hw : Whole c) : IsToken c := by
  cases c with
  | nil => exact h.elim
  | cons x c =>
    refine ⟨x :: c, [], ?_⟩
    rw [nextToken, List.dropWhile_cons_of_neg (by simp [h.noSpace x List.mem_cons_self]), splitToken]
    cases hf : keywords.find? (fun k => startsWith k (x :: c)) with
    | some k =>
      have hpre := List.isPrefixOf_iff_prefix.mp
        (List.find?_some (p := fun k => startsWith k (x :: c)) hf)
      rw [hw k (List.mem_of_find?_eq_some hf) hpre]
      simp
    | none =>
      have hall : ∀ d ∈ c, isIdChar d = true := fun d hd => idChar_of_nameChar (h.2 d hd)
      dsimp only
      rw [if_pos h.1, List.takeWhile_eq_self_iff.mpr hall, List.dropWhile_eq_nil_iff.mpr hall]

theorem IsName.tokenize {c : Str} (h : IsName c) (hw : Whole c) {r : Str} (hr : Stops r) :
    tokenize (c ++ r) = c :: Ctl.tokenize r := (h.token hw).tokenize hr

theorem tokenize_char {d : Char} (hd : isSpace d = false) (s : Str) {u : Str} (hu : Stops u) :
    ∃ t r, s = t ++ r ∧ tokenize (d :: s ++ u) = (d :: t) :: tokenize (r ++ u) := by
  obtain ⟨t, r, hnext, hs⟩ := nextToken_cons hd s
  exact ⟨t, r, hs, tokenize_of_next (nextToken_append hnext hu)⟩

theorem nextToken_keyword {k : Str} (hk : k ∈ keywords) (s : Str) :
    nextToken (k ++ s) = some (k, s) := by
  have hheads : keywords.all (fun k => k.head?.map isSpace == some false) = true := by decide
  have hhead := List.all_eq_true.mp hheads k hk
  rw [beq_iff_eq, Option.map_eq_some_iff] at hhead
  obtain ⟨c, hc, hspace⟩ := hhead
  obtain ⟨k', rfl⟩ := List.head?_eq_some_iff.mp hc
  have hfind := find_keyword hk s
  rw [List.cons_append] at hfind
  rw [nextToken, List.cons_append, List.dropWhile_cons_of_neg (by simp [hspace]), splitToken, hfind]
  simp

theorem broken_name {c : Str} (h : IsName c) (hw : ¬Whole c) {u : Str} (hu : Stops u) :
    ∃ k d t r, nameChar d = true ∧ (∀ x ∈ r, nameChar x = true) ∧
      tokenize (c ++ u) = k :: (d :: t) :: tokenize (r ++ u) := by
  unfold Whole at hw
  push Not at hw
  obtain ⟨k, hk, ⟨c', rfl⟩, hne⟩ := hw
  obtain ⟨d, s, rfl⟩ := List.exists_cons_of_ne_nil (fun hc : c' = [] => hne (by simp [hc]))
  have hchar : ∀ x ∈ d :: s, nameChar x = true := fun x hx => h.nameChar x (List.mem_append_right _ hx)
  have hd := hchar d List.mem_cons_self
  obtain ⟨t, r, rfl, htok⟩ := tokenize_char (isSpace_of_idChar (idChar_of_nameChar hd)) s hu
  refine ⟨k, d, t, r, hd, fun x hx => hchar x (by simp [hx]), ?_⟩
  rw [List.append_assoc, tokenize_of_next (nextToken_keyword hk _), htok]

def peerCall (c p k : Str) : Str :=
  "peer(".toList ++ (c ++ (", ".toList ++ (p ++ '(' :: (k ++ [')', ')']))))

def dotted (p c k : Str) : Str := p ++ '(' :: (c ++ '.' :: (k ++ [')']))

def peerPredicates : List Str := ["has".toList, "pending".toList, "done".toList]

section calls

variable {c k p : Str}

theorem head_name {d : Char} (hd : nameChar d = true) (s u : Str) :
    (tokenize (d :: s ++ u)).head? ≠ some ['('] := by
  obtain ⟨t, r, hnext, -⟩ := nextToken_cons (isSpace_of_idChar (idChar_of_nameChar hd)) (s ++ u)
  rw [List.cons_append, tokenize_of_next hnext, List.head?_cons]
  intro h
  cases h
  revert hd
  decide

theorem inner_fails {n : ℕ} {agentId t : Str} {toks ts : List Str} {inner e : Expr}
    (hopen : toks.head? ≠ some ['(']) (h : parsePredicate n (t :: toks) = ret (inner, ts)) :
    peerPredicate agentId inner ≠ ret e := by
  cases n with
  | zero => exact absurd h.symm (Option.some_ne_none _)
  | succ n =>
    by_cases hpeer : lower t = "peer".toList
    · obtain ⟨_, _, _, _, rfl, -⟩ := (peer_eq_ret hpeer).mp h
      exact absurd rfl hopen
    · rw [parsePredicate] at h
      replace h := (if_neg hpeer).symm.trans h
      rw [argPredicate_uncalled t hopen, ret_inj, Prod.mk.injEq] at h
      rw [← h.1, namedPredicate]
      split_ifs <;> exact fail_ne_ret

structure PeerName (p : Str) : Prop where
  token : IsToken p
  heads : Heads p
  inner : lower p = "has".toList ∨ lower p = "pending".toList ∨ lower p = "done".toList
  notPeer : lower p ≠ "peer".toList
  notTerminal : lower p ≠ "terminal".toList

theorem peerName_of_mem (hp : p ∈ peerPredicates) : PeerName p := by
  have heads (p : Str) (h : IsPlain p) : Heads p := ⟨not_or.mpr ⟨h.1, h.2.1⟩, h.2.2.2.1, h.2.2.2.2, h.2.2.1⟩
  simp only [peerPredicates, List.mem_cons, List.not_mem_nil, or_false] at hp
  rcases hp with rfl | rfl | rfl
  · exact ⟨⟨"has".toList, [], by decide⟩, heads _ (isPlain_of_peer (by decide)), by decide, by decide,
      by decide⟩
  · exact ⟨⟨"pending".toList, [], by decide⟩, heads _ (isPlain_of_peer (by decide)), by decide,
      by decide, by decide⟩
  · exact ⟨⟨"done".toList, [], by decide⟩, heads _ (isPlain_of_peer (by decide)), by decide, by decide,
      by decide⟩

theorem inner_reads (hp : p ∈ peerPredicates) {v : Str} (hv : v ≠ []) (hclose : ')' ∉ v)
    (hspace : ∀ d ∈ v, isSpace d = false) (n : ℕ) (u : Str) :
    parsePredicate (n + 1) (tokenize (p ++ '(' :: (v ++ ')' :: u))) =
      ret (.predicate p (some v), tokenize u) := by
  obtain ⟨htok, -, -, hpeer, hterm⟩ := peerName_of_mem hp
  rw [htok.tokenize (stops_open _), parsePredicate]
  refine (if_neg hpeer).trans ?_
  rw [argPredicate_value hclose hspace, namedPredicate, if_neg hterm, nonEmpty, if_neg hv]

theorem dotted_reads (hp : p ∈ peerPredicates) (hc : IsName c) (hk : IsName k) (u : Str) :
    Reads .unary (tokenize (dotted p c k ++ u)) (.predicate p (some (c ++ '.' :: k))) (tokenize u) := by
  have htext : dotted p c k ++ u = p ++ '(' :: ((c ++ '.' :: k) ++ ')' :: u) := by simp [dotted]
  have hread := inner_reads hp (v := c ++ '.' :: k) (by simp) (by
    simp [hc.noClose, hk.noClose]) ?_ 0 u
  · rw [htext]
    rw [(peerName_of_mem hp).token.tokenize (stops_open _)] at hread ⊢
    exact .predicate (peerName_of_mem hp).heads hread
  · intro d hd
    rcases List.mem_append.mp hd with hd | hd
    · exact hc.noSpace d hd
    · rcases List.mem_cons.mp hd with rfl | hd
      · decide
      · exact hk.noSpace d hd

theorem tokenize_call (s : Str) :
    tokenize ("peer(".toList ++ s) = "peer".toList :: ['('] :: tokenize s :=
  (tokenize_of_next rfl).trans (congrArg _ (tokenize_open s))

theorem peerCall_append (c p k u : Str) : peerCall c p k ++ u =
    "peer(".toList ++ (c ++ (", ".toList ++ (p ++ '(' :: (k ++ ')' :: ')' :: u)))) := by
  simp [peerCall]

theorem stops_comma (s : Str) : Stops (", ".toList ++ s) :=
  Or.inr ⟨_, _, rfl, Or.inr (Or.inr (Or.inr rfl))⟩

theorem heads_peer : Heads "peer".toList := ⟨by unfold isNotTok; decide, by decide, by decide, by decide⟩

theorem peerCall_reads (hp : p ∈ peerPredicates) (hc : IsName c) (hw : Whole c) (hk : IsName k)
    (u : Str) : Reads .unary (tokenize (peerCall c p k ++ u))
      (.predicate p (some (c ++ '.' :: k))) (tokenize u) := by
  have hne : k ≠ [] := fun h => by rw [h] at hk; exact hk
  rw [peerCall_append, tokenize_call, hc.tokenize hw (stops_comma _), tokenize_comma]
  refine .predicate (n := 2) heads_peer ((peer_eq_ret (by decide)).mpr
    ⟨c, _, .predicate p (some k), tokenize (')' :: u), rfl, ?_, ?_, ?_⟩)
  · rw [skip, if_pos rfl]
    exact inner_reads hp hne hk.noClose hk.noSpace 0 (')' :: u)
  · rw [peerPredicate, if_pos (peerName_of_mem hp).inner]
  · rw [tokenize_close, skip, if_pos rfl]

theorem Reads.first {toks ts : List Str} {e : Expr} (h : Reads .or toks e ts) :
    ∃ u us, Reads .unary toks u us := by
  cases h with
  | or ha _ =>
    cases ha with
    | and hu _ => exact ⟨_, _, hu⟩

theorem Reads.heads {t : Str} {toks ts : List Str} {e : Expr} (h : Reads .unary (t :: toks) e ts)
    (ht : Heads t) : ∃ n, parsePredicate n (t :: toks) = ret (e, ts) := by
  cases h with
  | not hn _ => exact absurd hn ht.noNot
  | ctl _ hop _ => exact absurd (ht.noCtl.symm.trans hop) (Option.some_ne_none _).symm
  | «until» _ _ hop _ _ => exact absurd (ht.noUntil.symm.trans hop) (Option.some_ne_none _).symm
  | paren _ => exact absurd rfl ht.noParen
  | predicate _ h => exact ⟨_, h⟩

theorem peer_unread {agentId t : Str} {toks ts : List Str} {e : Expr} (ht : t ≠ [','])
    (hopen : toks.head? ≠ some ['(']) (n : ℕ) :
    parsePredicate n ("peer".toList :: ['('] :: agentId :: t :: toks) ≠ ret (e, ts) := by
  intro h
  cases n with
  | zero => exact Option.some_ne_none _ h.symm
  | succ n =>
    obtain ⟨_, _, inner, xs, hws, hinner, he, -⟩ := (peer_eq_ret (by decide)).mp h
    cases hws
    rw [skip, if_neg ht] at hinner
    exact inner_fails hopen hinner he

theorem peerCall_fails (hc : IsName c) (hw : ¬Whole c) (e : Expr) :
    parseExpr (peerCall c p k) ≠ .ok e := by
  intro h
  obtain ⟨kw, d, t, r, hd, hr, htok⟩ := broken_name hc hw
    (stops_comma (p ++ '(' :: (k ++ ')' :: ')' :: [])))
  have hread : Reads .or (tokenize (peerCall c p k)) e [] := reads_of_finish h
  rw [← List.append_nil (peerCall c p k), peerCall_append, tokenize_call, htok] at hread
  obtain ⟨u, us, hu⟩ := hread.first
  obtain ⟨n, hpeer⟩ := hu.heads heads_peer
  refine peer_unread ?_ ?_ n hpeer
  · intro ht
    cases ht
    exact absurd hd (by decide)
  · cases r with
    | nil =>
      rw [List.nil_append, tokenize_comma, List.head?_cons]
      exact fun h => absurd h (by decide)
    | cons x r => exact head_name (hr x List.mem_cons_self) r _

end calls

def hole : Str := ['\x7b', '\x7d']

def holes : Expr → ℕ
  | .predicate name none => if name = hole then 1 else 0
  | .predicate _ (some _) => 0
  | .not e => holes e
  | .and l r => holes l + holes r
  | .or l r => holes l + holes r
  | .ctl _ e => holes e
  | .until _ l r => holes l + holes r

structure Context where
  pre : Str
  post : Str
  splits : ∀ s, tokenize (pre ++ s) = tokenize pre ++ tokenize s
  tree : Expr
  parsed : finish (parseOr (parseFuel (tokenize pre ++ hole :: tokenize post))
    (tokenize pre ++ hole :: tokenize post)) = .ok tree
  operand : holes tree = 1
  uncalled : (tokenize post).head? ≠ some ['(']

def Context.fill (K : Context) (s : Str) : Str := K.pre ++ (s ++ K.post)

def bare : Context where
  pre := []
  post := []
  splits _ := rfl
  tree := .predicate hole none
  parsed := by decide +kernel
  operand := by decide
  uncalled := by decide

def atHole (v : List Str) (e : Expr) : Filling where
  value t := if t = hole then some (v, e) else none
  marked t h := by
    split_ifs at h with ht
    · exact ⟨_, _, ht⟩
    · cases h

section fill

variable {v : List Str} {e : Expr} {t : Str} {toks ts : List Str}

theorem value_hole : (atHole v e).value hole = some (v, e) := by
  show (if hole = hole then some (v, e) else none) = _
  rw [if_pos rfl]

theorem tree_atHole (x : Expr) : (atHole v e).tree x = (atHole [] e).tree x := by
  induction x with
  | predicate name value =>
    cases value with
    | none =>
      simp only [Filling.tree, atHole]
      split_ifs <;> rfl
    | some value => rfl
  | not x ih => exact congrArg Expr.not ih
  | ctl op x ih => exact congrArg (Expr.ctl op) ih
  | and l r ihl ihr => exact congrArg₂ Expr.and ihl ihr
  | or l r ihl ihr => exact congrArg₂ Expr.or ihl ihr
  | «until» op l r ihl ihr => exact congrArg₂ (Expr.until op) ihl ihr

theorem isMark_atHole : (atHole v e).isMark t = decide (t = hole) := by
  rw [Filling.isMark, atHole]
  dsimp only
  split_ifs with ht
  · simp [ht]
  · simp [ht]

theorem leaves_atHole (x : Expr) : (atHole v e).leaves x = holes x := by
  induction x with
  | predicate name value =>
    cases value with
    | none =>
      rw [Filling.leaves, isMark_atHole, holes]
      split_ifs with hname <;> simp [hname]
    | some value => rfl
  | not e ih | ctl op e ih => exact ih
  | and l r ihl ihr | or l r ihl ihr | «until» op l r ihl ihr => exact congrArg₂ (· + ·) ihl ihr

theorem hole_notMem (s : Str) : hole ∉ tokenize s := by
  intro h
  have hnext := (isToken_of_mem h).next (r := []) (Or.inl rfl)
  revert hnext
  decide

theorem marks_tokenize (s : Str) : (atHole v e).marks (tokenize s) = 0 := by
  refine List.countP_eq_zero.mpr (fun t ht => ?_)
  rw [isMark_atHole, decide_eq_true_eq]
  rintro rfl
  exact hole_notMem s ht

theorem fits_atHole (h : ∀ l next, (atHole v e).FitsAt l hole next) (l : Level) (toks : List Str) :
    (atHole v e).Fits l toks := by
  induction toks generalizing l with
  | nil => trivial
  | cons t toks ih =>
    refine ⟨fun v' e' hv => ?_, ih _⟩
    have ht : t = hole := by
      have hm : (atHole v e).isMark t = true := by rw [Filling.isMark, hv]; rfl
      simpa [isMark_atHole] using hm
    rw [ht] at hv
    exact h _ _ v' e' hv

theorem uncalled_atHole {us : List Str} (hus : us.head? ≠ some ['(']) (hnone : hole ∉ us)
    (h : hole ∉ toks) : (atHole v e).Uncalled (toks ++ hole :: us) := by
  have hplain (us : List Str) (hnone : hole ∉ us) : (atHole v e).Uncalled us := by
    induction us with
    | nil => trivial
    | cons t us ih =>
      rw [List.mem_cons, not_or] at hnone
      exact ⟨fun hm => absurd (by simpa [isMark_atHole] using hm) (Ne.symm hnone.1), ih hnone.2⟩
  induction toks with
  | nil => exact ⟨fun _ => hus, hplain us hnone⟩
  | cons t toks ih =>
    rw [List.mem_cons, not_or] at h
    exact ⟨fun hm => absurd (by simpa [isMark_atHole] using hm) (Ne.symm h.1), ih h.2⟩

theorem run_of_reads {l : Level} (h : Reads l.mode toks e ts) :
    l.mode.run (parseFuel toks) toks = ret (e, ts) := by
  obtain ⟨n, hn⟩ := h.complete
  obtain ⟨hu, ha, -, ho, -⟩ := parse_done (parseFuel toks)
  have hdone : l.mode.run (parseFuel toks) toks ≠ out := by
    cases l with
    | unary => exact (hu toks (by unfold parseFuel; omega)).ne_out
    | and => exact (ha toks (by unfold parseFuel; omega)).ne_out
    | or => exact (ho toks le_rfl).ne_out
  exact (agree (f := fun n => l.mode.run n toks) (fun n => run_le n toks l.mode) hdone
    (hn ▸ Option.some_ne_none _)).trans hn

theorem Reads.operand (h : Reads .unary toks e ts) (hand : NoAnd ts) (hor : NoOr ts) (l : Level) :
    Reads l.mode toks e ts := by
  cases l with
  | unary => exact h
  | and => exact .and h (.andStop hand)
  | or => exact .or (.and h (.andStop hand)) (.orStop hor)

theorem fits_operand {s : Str} (h : ∀ u, Reads .unary (tokenize ((s ++ [')']) ++ u)) e (tokenize u))
    (l : Level) (next : Option Str) :
    (atHole (tokenize (s ++ [')'])) e).FitsAt l hole next := by
  intro v' e' hv
  cases hv
  obtain ⟨u, hu⟩ : ∃ u, Filling.closing next = tokenize u ∧ NoAnd (tokenize u) ∧ NoOr (tokenize u) := by
    rw [Filling.closing]
    split_ifs
    · exact ⟨[')'], rfl, by simp [NoAnd, isAndTok, tokenize_close], by simp [NoOr, isOrTok, tokenize_close]⟩
    · exact ⟨[], rfl, noAnd_nil, noOr_nil⟩
  rw [hu.1]
  have hread := h u
  rw [List.append_assoc, List.singleton_append, tokenize_closed] at hread
  exact run_of_reads (hread.operand hu.2.1 hu.2.2 l)

theorem Context.parse (K : Context) {s : Str} (hs : ∃ a, s = a ++ [')'])
    (h : ∀ u, Reads .unary (tokenize (s ++ u)) e (tokenize u)) :
    parseExpr (K.fill s) = .ok ((atHole [] e).tree K.tree) := by
  obtain ⟨a, rfl⟩ := hs
  have hcount (v : List Str) : (atHole v e).leaves K.tree + (atHole v e).marks [] =
      (atHole v e).marks (tokenize K.pre ++ hole :: tokenize K.post) +
        Mode.leaves (atHole v e) .or := by
    rw [leaves_atHole, K.operand, marks_append, marks_cons, marks_tokenize, marks_tokenize, isMark_atHole]
    rfl
  have hfill := (reads_of_finish K.parsed).fill (fun _ ht => by cases ht) (hcount _)
    (fits_atHole (fits_operand h) .or _)
    (uncalled_atHole K.uncalled (hole_notMem _) (hole_notMem _))
  rw [tokens_append, tokens_mark value_hole, tokens_of_marks (marks_tokenize _),
    tokens_of_marks (marks_tokenize _), tree_atHole] at hfill
  apply parseExpr_of_reads
  rw [Context.fill, K.splits, List.append_assoc, List.singleton_append, tokenize_closed]
  exact hfill

end fill

theorem peer_call_iff {c k p : Str} (hc : IsName c) (hk : IsName k) (hp : p ∈ peerPredicates) :
    (∀ K : Context, ∃ e, parseExpr (K.fill (peerCall c p k)) = .ok e ∧
      parseExpr (K.fill (dotted p c k)) = .ok e) ↔
    ∀ kw ∈ keywords, kw <+: c → kw = c := by
  constructor
  · intro h
    obtain ⟨e, he, -⟩ := h bare
    by_contra hw
    rw [Context.fill, show bare.pre = [] from rfl, show bare.post = [] from rfl, List.nil_append,
      List.append_nil] at he
    exact peerCall_fails hc hw e he
  · intro hw K
    refine ⟨_, K.parse ⟨"peer(".toList ++ (c ++ (", ".toList ++ (p ++ '(' :: (k ++ [')'])))), ?_⟩
      (peerCall_reads hp hc hw hk), K.parse ⟨p ++ '(' :: (c ++ '.' :: k), ?_⟩ (dotted_reads hp hc hk)⟩
    · simp [peerCall]
    · simp [dotted]

theorem peer_call_planner : (∀ K : Context, ∃ e,
    parseExpr (K.fill (peerCall "planner".toList "has".toList "plan".toList)) = .ok e ∧
    parseExpr (K.fill (dotted "has".toList "planner".toList "plan".toList)) = .ok e) ↔
    ∀ kw ∈ keywords, kw <+: "planner".toList → kw = "planner".toList :=
  peer_call_iff ⟨by decide, List.all_eq_true.mp (by decide)⟩ ⟨by decide, List.all_eq_true.mp (by decide)⟩ (by decide)

theorem orders_unread : ¬∀ c k p : Str, IsName c → IsName k → p ∈ peerPredicates →
    ∀ K : Context, ∃ e, parseExpr (K.fill (peerCall c p k)) = .ok e ∧
      parseExpr (K.fill (dotted p c k)) = .ok e := by
  intro h
  obtain ⟨e, he, -⟩ := h "ORders".toList "paid".toList "has".toList ⟨by decide, List.all_eq_true.mp (by decide)⟩
    ⟨by decide, List.all_eq_true.mp (by decide)⟩ (by decide) bare
  have hbad : (parseExpr (bare.fill (peerCall "ORders".toList "has".toList "paid".toList))).toOption =
      none := by decide +kernel
  rw [he] at hbad
  cases hbad

end TraceMind.Verify.Ctl
