import TraceMind.Verify.Parser

-- What the functions of the parser read, as a relation.
namespace TraceMind.Verify.Ctl

open Fuelled

def isNotTok (t : Str) : Prop := t = ['!'] ∨ t = "NOT".toList

def isAndTok (t : Str) : Prop := t = "&&".toList ∨ t = "AND".toList

def isOrTok (t : Str) : Prop := t = "||".toList ∨ t = "OR".toList

instance (t : Str) : Decidable (isNotTok t) := inferInstanceAs (Decidable (_ ∨ _))

instance (t : Str) : Decidable (isAndTok t) := inferInstanceAs (Decidable (_ ∨ _))

instance (t : Str) : Decidable (isOrTok t) := inferInstanceAs (Decidable (_ ∨ _))

structure Heads (t : Str) : Prop where
  noNot : ¬isNotTok t
  noCtl : ctlOp? t = none
  noUntil : untilOp? t = none
  noParen : t ≠ ['(']

inductive Mode where
  | unary
  | and
  | andLoop (node : Expr)
  | or
  | orLoop (node : Expr)

def Mode.run (n : ℕ) (toks : List Str) : Mode → Parsed Expr
  | .unary => parseUnary n toks
  | .and => parseAnd n toks
  | .andLoop node => Ctl.andLoop n node toks
  | .or => parseOr n toks
  | .orLoop node => Ctl.orLoop n node toks

def NoAnd (ts : List Str) : Prop := ∀ t ∈ ts.head?, ¬isAndTok t

def NoOr (ts : List Str) : Prop := ∀ t ∈ ts.head?, ¬isOrTok t

inductive Reads : Mode → List Str → Expr → List Str → Prop
  | not {t : Str} {toks ts : List Str} {e : Expr} (ht : isNotTok t) (h : Reads .unary toks e ts) :
      Reads .unary (t :: toks) (.not e) ts
  | ctl {t : Str} {op : CtlOp} {toks ts : List Str} {e : Expr} (ht : ¬isNotTok t)
      (hop : ctlOp? t = some op) (h : Reads .unary toks e ts) :
      Reads .unary (t :: toks) (.ctl op e) ts
  | until {t : Str} {op : UntilOp} {toks us ts : List Str} {l r : Expr} (ht : ¬isNotTok t)
      (hctl : ctlOp? t = none) (hop : untilOp? t = some op) (hl : Reads .or toks l ([','] :: us))
      (hr : Reads .or us r ([')'] :: ts)) :
      Reads .unary (t :: ['('] :: toks) (.until op l r) ts
  | paren {toks ts : List Str} {e : Expr} (h : Reads .or toks e ([')'] :: ts)) :
      Reads .unary (['('] :: toks) e ts
  | predicate {n : ℕ} {t : Str} {toks ts : List Str} {e : Expr} (ht : Heads t)
      (h : parsePredicate n (t :: toks) = ret (e, ts)) : Reads .unary (t :: toks) e ts
  | and {toks us ts : List Str} {u e : Expr} (hu : Reads .unary toks u us)
      (h : Reads (.andLoop u) us e ts) : Reads .and toks e ts
  | andStop {ts : List Str} {node : Expr} (h : NoAnd ts) : Reads (.andLoop node) ts node ts
  | andStep {t : Str} {toks us ts : List Str} {node u e : Expr} (ht : isAndTok t)
      (hu : Reads .unary toks u us) (h : Reads (.andLoop (.and node u)) us e ts) :
      Reads (.andLoop node) (t :: toks) e ts
  | or {toks us ts : List Str} {a e : Expr} (ha : Reads .and toks a us)
      (h : Reads (.orLoop a) us e ts) : Reads .or toks e ts
  | orStop {ts : List Str} {node : Expr} (h : NoOr ts) : Reads (.orLoop node) ts node ts
  | orStep {t : Str} {toks us ts : List Str} {node a e : Expr} (ht : isOrTok t)
      (ha : Reads .and toks a us) (h : Reads (.orLoop (.or node a)) us e ts) :
      Reads (.orLoop node) (t :: toks) e ts

section sound

variable {n : ℕ} {toks ts : List Str} {e : Expr}

theorem expect_eq_ret {tok : Str} {message : String} :
    expect tok message toks = ret ts ↔ toks = tok :: ts := by
  cases toks with
  | nil => exact iff_of_false (fun h => by cases h) (fun h => by cases h)
  | cons t us =>
    rw [expect]
    split_ifs with ht
    · rw [ret_inj, ht, List.cons.injEq]
      exact (and_iff_right rfl).symm
    · exact iff_of_false fail_ne_ret (fun h => ht (List.cons.inj h).1)

theorem noAnd_cons {t : Str} : NoAnd (t :: ts) ↔ ¬isAndTok t := by simp [NoAnd]

theorem noOr_cons {t : Str} : NoOr (t :: ts) ↔ ¬isOrTok t := by simp [NoOr]

theorem noAnd_nil : NoAnd [] := by simp [NoAnd]

theorem noOr_nil : NoOr [] := by simp [NoOr]

theorem parseUnary_cons (n : ℕ) (t : Str) (toks : List Str) :
    (isNotTok t ∧ parseUnary (n + 1) (t :: toks) =
      (parseUnary n toks).andThen fun r => ret (.not r.1, r.2)) ∨
    (∃ op, ¬isNotTok t ∧ ctlOp? t = some op ∧ parseUnary (n + 1) (t :: toks) =
      (parseUnary n toks).andThen fun r => ret (.ctl op r.1, r.2)) ∨
    (∃ op m₁ m₂ m₃, ¬isNotTok t ∧ ctlOp? t = none ∧ untilOp? t = some op ∧
      parseUnary (n + 1) (t :: toks) = (expect ['('] m₁ toks).andThen fun toks =>
        (parseOr n toks).andThen fun l => (expect [','] m₂ l.2).andThen fun toks =>
        (parseOr n toks).andThen fun r => (expect [')'] m₃ r.2).andThen fun toks =>
        ret (.until op l.1 r.1, toks)) ∨
    (∃ m, t = ['('] ∧ parseUnary (n + 1) (t :: toks) = (parseOr n toks).andThen fun r =>
      (expect [')'] m r.2).andThen fun toks => ret (r.1, toks)) ∨
    (Heads t ∧ parseUnary (n + 1) (t :: toks) = parsePredicate n (t :: toks)) := by
  rw [parseUnary]
  by_cases hnot : isNotTok t
  · exact Or.inl ⟨hnot, if_pos hnot⟩
  refine Or.inr ?_
  rw [if_neg (show ¬(t = ['!'] ∨ t = "NOT".toList) from hnot)]
  cases hctl : ctlOp? t with
  | some op => exact Or.inl ⟨op, hnot, rfl, rfl⟩
  | none =>
    refine Or.inr ?_
    cases huntil : untilOp? t with
    | some op => exact Or.inl ⟨op, _, _, _, hnot, rfl, rfl, rfl⟩
    | none =>
      refine Or.inr ?_
      by_cases hp : t = ['(']
      · exact Or.inl ⟨_, hp, if_pos hp⟩
      · exact Or.inr ⟨⟨hnot, hctl, huntil, hp⟩, if_neg hp⟩

theorem unary_sound (hu : ∀ toks e ts, parseUnary n toks = ret (e, ts) → Reads .unary toks e ts)
    (ho : ∀ toks e ts, parseOr n toks = ret (e, ts) → Reads .or toks e ts)
    (h : parseUnary (n + 1) toks = ret (e, ts)) : Reads .unary toks e ts := by
  cases toks with
  | nil => exact absurd h fail_ne_ret
  | cons t toks =>
    rcases parseUnary_cons n t toks with ⟨ht, heq⟩ | ⟨op, ht, hop, heq⟩ |
      ⟨op, m₁, m₂, m₃, ht, hctl, hop, heq⟩ | ⟨m, rfl, heq⟩ | ⟨ht, heq⟩
    · rw [heq] at h
      obtain ⟨r, hr, hret⟩ := andThen_eq_ret.mp h
      cases hret
      exact .not ht (hu _ _ _ hr)
    · rw [heq] at h
      obtain ⟨r, hr, hret⟩ := andThen_eq_ret.mp h
      cases hret
      exact .ctl ht hop (hu _ _ _ hr)
    · rw [heq] at h
      obtain ⟨us, hopen, h⟩ := andThen_eq_ret.mp h
      obtain ⟨l, hl, h⟩ := andThen_eq_ret.mp h
      obtain ⟨vs, hcomma, h⟩ := andThen_eq_ret.mp h
      obtain ⟨r, hr, h⟩ := andThen_eq_ret.mp h
      obtain ⟨ws, hclose, hret⟩ := andThen_eq_ret.mp h
      cases hret
      rw [expect_eq_ret] at hopen hcomma hclose
      subst hopen
      have hl' : parseOr n us = ret (l.1, [','] :: vs) :=
        hl.trans (congrArg ret (Prod.ext rfl hcomma))
      have hr' : parseOr n vs = ret (r.1, [')'] :: ts) :=
        hr.trans (congrArg ret (Prod.ext rfl hclose))
      exact .until ht hctl hop (ho _ _ _ hl') (ho _ _ _ hr')
    · rw [heq] at h
      obtain ⟨r, hr, h⟩ := andThen_eq_ret.mp h
      obtain ⟨ws, hclose, hret⟩ := andThen_eq_ret.mp h
      cases hret
      rw [expect_eq_ret] at hclose
      exact .paren (ho _ _ _ (hr.trans (congrArg ret (Prod.ext rfl hclose))))
    · rw [heq] at h
      exact .predicate ht h

theorem parse_sound (n : ℕ) :
    (∀ toks e ts, parseUnary n toks = ret (e, ts) → Reads .unary toks e ts) ∧
    (∀ toks e ts, parseAnd n toks = ret (e, ts) → Reads .and toks e ts) ∧
    (∀ node toks e ts, andLoop n node toks = ret (e, ts) → Reads (.andLoop node) toks e ts) ∧
    (∀ toks e ts, parseOr n toks = ret (e, ts) → Reads .or toks e ts) ∧
    ∀ node toks e ts, orLoop n node toks = ret (e, ts) → Reads (.orLoop node) toks e ts := by
  induction n with
  | zero =>
    refine ⟨?_, ?_, ?_, ?_, ?_⟩ <;> intros <;> contradiction
  | succ n ih =>
    obtain ⟨hu, ha, hal, ho, hol⟩ := ih
    refine ⟨fun toks e ts => unary_sound hu ho, fun toks e ts h => ?_, fun node toks e ts h => ?_,
      fun toks e ts h => ?_, fun node toks e ts h => ?_⟩
    · obtain ⟨r, hr, h⟩ := andThen_eq_ret.mp h
      exact .and (hu _ _ _ hr) (hal _ _ _ _ h)
    · cases toks with
      | nil =>
        cases h
        exact .andStop noAnd_nil
      | cons t toks =>
        rw [andLoop] at h
        split_ifs at h with ht
        · obtain ⟨r, hr, h⟩ := andThen_eq_ret.mp h
          exact .andStep ht (hu _ _ _ hr) (hal _ _ _ _ h)
        · cases h
          exact .andStop (noAnd_cons.mpr ht)
    · obtain ⟨r, hr, h⟩ := andThen_eq_ret.mp h
      exact .or (ha _ _ _ hr) (hol _ _ _ _ h)
    · cases toks with
      | nil =>
        cases h
        exact .orStop noOr_nil
      | cons t toks =>
        rw [orLoop] at h
        split_ifs at h with ht
        · obtain ⟨r, hr, h⟩ := andThen_eq_ret.mp h
          exact .orStep ht (ha _ _ _ hr) (hol _ _ _ _ h)
        · cases h
          exact .orStop (noOr_cons.mpr ht)

end sound

section complete

variable {m n : ℕ} {toks ts : List Str} {e : Expr} {mode : Mode}

theorem run_le (n : ℕ) (toks : List Str) (mode : Mode) :
    Le (mode.run n toks) (mode.run (n + 1) toks) := by
  obtain ⟨hu, ha, hal, ho, hol⟩ := parse_le n
  cases mode with
  | unary => exact hu toks
  | and => exact ha toks
  | andLoop node => exact hal node toks
  | or => exact ho toks
  | orLoop node => exact hol node toks

theorem run_mono (h : mode.run m toks = ret (e, ts)) (hmn : m ≤ n) :
    mode.run n toks = ret (e, ts) := by
  have hle := le_of_succ (f := fun n => mode.run n toks) (fun n => run_le n toks mode) hmn
  exact ((h ▸ hle).eq_of_done (Option.some_ne_none _)).symm

theorem Reads.complete (h : Reads mode toks e ts) : ∃ n, mode.run n toks = ret (e, ts) := by
  induction h with
  | @not t toks ts e ht _ ih =>
    obtain ⟨n, hn⟩ := ih
    refine ⟨n + 1, ?_⟩
    show parseUnary (n + 1) (t :: toks) = _
    rw [parseUnary, if_pos (show t = ['!'] ∨ t = "NOT".toList from ht),
      show parseUnary n toks = _ from hn]
    rfl
  | @ctl t op toks ts e ht hop _ ih =>
    obtain ⟨n, hn⟩ := ih
    refine ⟨n + 1, ?_⟩
    show parseUnary (n + 1) (t :: toks) = _
    rw [parseUnary, if_neg (show ¬(t = ['!'] ∨ t = "NOT".toList) from ht), hop,
      show parseUnary n toks = _ from hn]
    rfl
  | @«until» t op toks us ts l r ht hctl hop _ _ ihl ihr =>
    obtain ⟨n, hn⟩ := ihl
    obtain ⟨k, hk⟩ := ihr
    have hl := run_mono hn (Nat.le_max_left n k)
    have hr := run_mono hk (Nat.le_max_right n k)
    refine ⟨max n k + 1, ?_⟩
    show parseUnary (max n k + 1) (t :: ['('] :: toks) = _
    rw [parseUnary, if_neg (show ¬(t = ['!'] ∨ t = "NOT".toList) from ht), hctl, hop]
    show (parseOr (max n k) toks).andThen _ = _
    rw [show parseOr (max n k) toks = _ from hl]
    show (parseOr (max n k) us).andThen _ = _
    rw [show parseOr (max n k) us = _ from hr]
    rfl
  | @paren toks ts e _ ih =>
    obtain ⟨n, hn⟩ := ih
    refine ⟨n + 1, ?_⟩
    show parseUnary (n + 1) (['('] :: toks) = _
    rcases parseUnary_cons n ['('] toks with ⟨ht, -⟩ | ⟨op, -, hop, -⟩ | ⟨op, _, _, _, -, -, hop, -⟩ |
      ⟨m, -, heq⟩ | ⟨ht, -⟩
    · exact absurd ht (by decide)
    · cases hop
    · cases hop
    · rw [heq, show parseOr n toks = _ from hn]
      rfl
    · exact absurd rfl ht.noParen
  | @predicate n t toks ts e ht hp =>
    refine ⟨n + 1, ?_⟩
    show parseUnary (n + 1) (t :: toks) = _
    rcases parseUnary_cons n t toks with ⟨h, -⟩ | ⟨op, -, hop, -⟩ | ⟨op, _, _, _, -, -, hop, -⟩ |
      ⟨m, h, -⟩ | ⟨-, heq⟩
    · exact absurd h ht.noNot
    · rw [ht.noCtl] at hop
      cases hop
    · rw [ht.noUntil] at hop
      cases hop
    · exact absurd h ht.noParen
    · rw [heq, hp]
  | @and toks us ts u e _ _ ihu ih =>
    obtain ⟨n, hn⟩ := ihu
    obtain ⟨k, hk⟩ := ih
    have hu := run_mono hn (Nat.le_max_left n k)
    have hl := run_mono hk (Nat.le_max_right n k)
    refine ⟨max n k + 1, ?_⟩
    show (parseUnary (max n k) toks).andThen _ = _
    rw [show parseUnary (max n k) toks = _ from hu]
    exact hl
  | @andStop ts node h =>
    refine ⟨1, ?_⟩
    cases ts with
    | nil => rfl
    | cons t ts => exact if_neg (noAnd_cons.mp h)
  | @andStep t toks us ts node u e ht _ _ ihu ih =>
    obtain ⟨n, hn⟩ := ihu
    obtain ⟨k, hk⟩ := ih
    have hu := run_mono hn (Nat.le_max_left n k)
    have hl := run_mono hk (Nat.le_max_right n k)
    refine ⟨max n k + 1, ?_⟩
    show andLoop (max n k + 1) node (t :: toks) = _
    rw [andLoop, if_pos (show t = "&&".toList ∨ t = "AND".toList from ht),
      show parseUnary (max n k) toks = _ from hu]
    exact hl
  | @or toks us ts a e _ _ iha ih =>
    obtain ⟨n, hn⟩ := iha
    obtain ⟨k, hk⟩ := ih
    have ha := run_mono hn (Nat.le_max_left n k)
    have hl := run_mono hk (Nat.le_max_right n k)
    refine ⟨max n k + 1, ?_⟩
    show (parseAnd (max n k) toks).andThen _ = _
    rw [show parseAnd (max n k) toks = _ from ha]
    exact hl
  | @orStop ts node h =>
    refine ⟨1, ?_⟩
    cases ts with
    | nil => rfl
    | cons t ts => exact if_neg (noOr_cons.mp h)
  | @orStep t toks us ts node a e ht _ _ iha ih =>
    obtain ⟨n, hn⟩ := iha
    obtain ⟨k, hk⟩ := ih
    have ha := run_mono hn (Nat.le_max_left n k)
    have hl := run_mono hk (Nat.le_max_right n k)
    refine ⟨max n k + 1, ?_⟩
    show orLoop (max n k + 1) node (t :: toks) = _
    rw [orLoop, if_pos (show t = "||".toList ∨ t = "OR".toList from ht),
      show parseAnd (max n k) toks = _ from ha]
    exact hl

theorem Reads.sound (h : mode.run n toks = ret (e, ts)) : Reads mode toks e ts := by
  obtain ⟨hu, ha, hal, ho, hol⟩ := parse_sound n
  cases mode with
  | unary => exact hu _ _ _ h
  | and => exact ha _ _ _ h
  | andLoop node => exact hal _ _ _ _ h
  | or => exact ho _ _ _ h
  | orLoop node => exact hol _ _ _ _ h

end complete

section rest

variable {n : ℕ} {toks ts us : List Str} {e p : Expr} {mode : Mode}

def Like (us ts : List Str) : Prop :=
  (us.head? = some ['('] → ts.head? = some ['(']) ∧ (us.head? = some [')'] → ts.head? = some [')'])

theorem Like.cons (t : Str) (us ts : List Str) : Like (t :: us) (t :: ts) := ⟨id, id⟩

theorem Like.append (h : Like us ts) (pre : List Str) : Like (pre ++ us) (pre ++ ts) := by
  cases pre with
  | nil => exact h
  | cons t pre => exact Like.cons t _ _

theorem takeArg_spec {parts rest : List Str} (h : takeArg toks = some (parts, rest)) :
    toks = parts ++ [')'] :: rest ∧ [')'] ∉ parts := by
  induction toks generalizing parts with
  | nil => cases h
  | cons t ts ih =>
    rw [takeArg] at h
    split_ifs at h with ht
    · cases h
      exact ⟨by rw [ht]; rfl, List.not_mem_nil⟩
    · obtain ⟨⟨parts', rest'⟩, hrest, heq⟩ := Option.map_eq_some_iff.mp h
      cases heq
      obtain ⟨happ, hnot⟩ := ih hrest
      exact ⟨by rw [happ]; rfl, fun hm => (List.mem_cons.mp hm).elim (fun he => ht he.symm) hnot⟩

theorem skip_cases (tok : Str) (toks : List Str) :
    (toks = tok :: skip tok toks) ∨ (toks.head? ≠ some tok ∧ skip tok toks = toks) := by
  cases toks with
  | nil => exact Or.inr ⟨by simp, rfl⟩
  | cons t ts =>
    rw [skip]
    split_ifs with ht
    · exact Or.inl (by rw [ht])
    · exact Or.inr ⟨by simpa using ht, rfl⟩

theorem skip_of_ne {tok : Str} (h : toks.head? ≠ some tok) : skip tok toks = toks := by
  rcases skip_cases tok toks with heq | ⟨-, heq⟩
  · rw [heq] at h
    exact absurd rfl h
  · exact heq

theorem namedPredicate_name {head name : Str} {v : Option Str}
    (h : namedPredicate head v = .predicate name none) : name = head ∨ name = "Terminal".toList := by
  rw [namedPredicate] at h
  split_ifs at h
  · cases h
    exact Or.inr rfl
  · cases h
    exact Or.inl rfl

structure Segment (n : ℕ) (pre : List Str) (p : Expr) (ts : List Str) : Prop where
  nonempty : pre ≠ []
  predicate : ∃ name v, p = .predicate name v
  name : ∀ name, p = .predicate name none → pre.head? = some name ∨ name = "Terminal".toList
  replace : ∀ us, Like us ts → parsePredicate n (pre ++ us) = ret (p, us)

theorem namedPredicate_predicate (head : Str) (v : Option Str) :
    ∃ name w, namedPredicate head v = .predicate name w := by
  rw [namedPredicate]
  split_ifs
  · exact ⟨_, _, rfl⟩
  · exact ⟨_, _, rfl⟩

theorem argPredicate_segment {head : Str} (hpeer : lower head ≠ "peer".toList)
    (h : argPredicate head toks = ret (p, ts)) :
    ∃ pre, head :: toks = pre ++ ts ∧ Segment (n + 1) pre p ts := by
  have hread : ∀ us, parsePredicate (n + 1) (head :: us) = argPredicate head us := fun us => by
    rw [parsePredicate]
    exact if_neg hpeer
  have hbare : ∀ us : List Str, us.head? ≠ some ['('] →
      argPredicate head us = ret (namedPredicate head none, us) := by
    intro us hus
    cases us with
    | nil => rfl
    | cons u us => exact if_neg (fun hu => hus (congrArg some hu))
  by_cases hopen : toks.head? = some ['(']
  · cases toks with
    | nil => cases hopen
    | cons t rest =>
      cases hopen
      rw [argPredicate, if_pos rfl] at h
      cases harg : takeArg rest with
      | none =>
        rw [harg] at h
        exact absurd h fail_ne_ret
      | some r =>
        obtain ⟨parts, after⟩ := r
        rw [harg] at h
        cases h
        obtain ⟨happ, hnot⟩ := takeArg_spec harg
        refine ⟨head :: ['('] :: (parts ++ [[')']]), by rw [happ]; simp, by simp,
          namedPredicate_predicate _ _, ?_, ?_⟩
        · intro name hname
          exact (namedPredicate_name hname).imp_left (fun hn => by rw [hn]; rfl)
        · intro us _
          show parsePredicate (n + 1) (head :: (['('] :: (parts ++ [[')']] ++ us))) = _
          rw [hread, argPredicate, if_pos rfl, List.append_assoc,
            show [[')']] ++ us = [')'] :: us from rfl, takeArg_append hnot]
  · rw [hbare toks hopen] at h
    cases h
    refine ⟨[head], rfl, by simp, namedPredicate_predicate _ _, ?_, ?_⟩
    · intro name hname
      exact (namedPredicate_name hname).imp_left (fun hn => by rw [hn]; rfl)
    · intro us hus
      show parsePredicate (n + 1) (head :: us) = _
      rw [hread, hbare us (fun hu => hopen (hus.1 hu))]

theorem peerPredicate_value {agentId : Str} (h : peerPredicate agentId p = ret e) :
    ∃ name value, e = .predicate name (some value) := by
  cases p with
  | predicate name v =>
    cases v with
    | none => exact absurd h fail_ne_ret
    | some v =>
      rw [peerPredicate] at h
      split_ifs at h
      · cases h
        exact ⟨_, _, rfl⟩
      · exact absurd h fail_ne_ret
  | not _ | and _ _ | or _ _ | ctl _ _ | «until» _ _ _ => exact absurd h fail_ne_ret

theorem pop_eq_ret {t : Str} : pop toks = ret (t, ts) ↔ toks = t :: ts := by
  cases toks with
  | nil => exact iff_of_false fail_ne_ret (fun h => by cases h)
  | cons u us => rw [pop, ret_inj, Prod.mk.injEq, List.cons.injEq]

theorem peer_eq_ret {head : Str} (hpeer : lower head = "peer".toList) :
    parsePredicate (n + 1) (head :: toks) = ret (p, ts) ↔ ∃ agentId ws inner xs,
      toks = ['('] :: agentId :: ws ∧ parsePredicate n (skip [','] ws) = ret (inner, xs) ∧
        peerPredicate agentId inner = ret p ∧ ts = skip [')'] xs := by
  rw [parsePredicate]
  simp only [pop, ret_andThen]
  rw [if_pos hpeer]
  constructor
  · intro h
    obtain ⟨us, hopen, h⟩ := andThen_eq_ret.mp h
    obtain ⟨⟨agentId, ws⟩, hpop, h⟩ := andThen_eq_ret.mp h
    obtain ⟨⟨inner, xs⟩, hinner, h⟩ := andThen_eq_ret.mp h
    obtain ⟨e, he, h⟩ := andThen_eq_ret.mp h
    cases h
    rw [expect_eq_ret] at hopen
    rw [hopen, pop_eq_ret.mp hpop]
    exact ⟨agentId, ws, inner, xs, rfl, hinner, he, rfl⟩
  · rintro ⟨agentId, ws, inner, xs, rfl, hinner, he, rfl⟩
    show (parsePredicate n (skip [','] ws)).andThen _ = _
    rw [hinner]
    show (peerPredicate agentId inner).andThen _ = _
    rw [he]
    rfl

theorem peer_segment {head agentId : Str} {ws xs : List Str} {inner : Expr}
    (hpeer : lower head = "peer".toList) (hws : ∃ pre, skip [','] ws = pre ++ xs ∧ Segment n pre inner xs)
    (he : peerPredicate agentId inner = ret p) :
    ∃ pre, head :: ['('] :: agentId :: ws = pre ++ skip [')'] xs ∧
      Segment (n + 1) pre p (skip [')'] xs) := by
  obtain ⟨pre, hpre, hseg⟩ := hws
  obtain ⟨name, value, hvalue⟩ := peerPredicate_value he
  have hname : ∀ name, p ≠ .predicate name none := by
    intro name hp
    rw [hp] at hvalue
    cases hvalue
  obtain ⟨mid, hmid, hskip⟩ : ∃ mid, ws = mid ++ pre ++ xs ∧
      ∀ us, skip [','] (mid ++ pre ++ us) = pre ++ us := by
    rcases skip_cases [','] ws with heq | ⟨hne, heq⟩
    · refine ⟨[[',']], by rw [heq, hpre]; rfl, fun us => ?_⟩
      show skip [','] ([','] :: (pre ++ us)) = _
      rw [skip, if_pos rfl]
    · rw [heq] at hpre
      refine ⟨[], hpre, fun us => skip_of_ne ?_⟩
      obtain ⟨t, pre', rfl⟩ := List.exists_cons_of_ne_nil hseg.nonempty
      rw [hpre] at hne
      exact hne
  have hread : ∀ us vs, Like us xs → vs = skip [')'] us →
      parsePredicate (n + 1) (head :: ['('] :: agentId :: (mid ++ pre ++ us)) = ret (p, vs) := by
    intro us vs hlike hvs
    refine (peer_eq_ret hpeer).mpr ⟨agentId, mid ++ pre ++ us, inner, us, rfl, ?_, he, hvs⟩
    rw [hskip]
    exact hseg.replace us hlike
  rcases skip_cases [')'] xs with heq | ⟨hne, heq⟩
  · refine ⟨head :: ['('] :: agentId :: (mid ++ pre ++ [[')']]), ?_, by simp, ⟨name, _, hvalue⟩,
      fun name hp => absurd hp (hname name), fun us _ => ?_⟩
    · rw [hmid]
      simpa using heq
    · have h := hread ([')'] :: us) us ?_ (by rw [skip, if_pos rfl])
      · simpa using h
      · rw [heq]
        exact Like.cons _ _ _
  · rw [heq]
    refine ⟨head :: ['('] :: agentId :: (mid ++ pre), by rw [hmid]; rfl, by simp, ⟨name, _, hvalue⟩,
      fun name hp => absurd hp (hname name), fun us hlike => ?_⟩
    exact hread us us hlike (skip_of_ne (fun hu => hne (hlike.2 hu))).symm

theorem parsePredicate_segment (h : parsePredicate n toks = ret (p, ts)) :
    ∃ pre, toks = pre ++ ts ∧ Segment n pre p ts := by
  induction n generalizing toks p ts with
  | zero => exact absurd h.symm (Option.some_ne_none _)
  | succ n ih =>
    cases toks with
    | nil => exact absurd h fail_ne_ret
    | cons head rest =>
      by_cases hpeer : lower head = "peer".toList
      · obtain ⟨agentId, ws, inner, xs, rfl, hinner, he, rfl⟩ := (peer_eq_ret hpeer).mp h
        exact peer_segment hpeer (ih hinner) he
      · rw [parsePredicate] at h
        exact argPredicate_segment hpeer ((if_neg hpeer).symm.trans h)

def Mode.Stops (toks ts : List Str) : Mode → Prop
  | .unary => True
  | .and | .andLoop _ => NoAnd ts
  | .or => NoAnd ts ∧ NoOr ts
  | .orLoop _ => (NoAnd toks → NoAnd ts) ∧ NoOr ts

theorem Reads.stops (h : Reads mode toks e ts) : mode.Stops toks ts := by
  induction h with
  | not _ _ _ | ctl _ _ _ _ | «until» _ _ _ _ _ _ _ | paren _ _ | predicate _ _ => trivial
  | and _ _ _ ih => exact ih
  | andStop h => exact h
  | andStep _ _ _ _ ih => exact ih
  | or _ _ iha ih => exact ⟨ih.1 iha, ih.2⟩
  | orStop h => exact ⟨id, h⟩
  | orStep _ _ _ iha ih => exact ⟨fun _ => ih.1 iha, ih.2⟩

def Mode.Replaces (pre : List Str) (e : Expr) (ts : List Str) : Mode → Prop
  | .unary => ∀ us, Like us ts → Reads .unary (pre ++ us) e us
  | .and => ∀ us f vs, Like us ts → Reads (.andLoop e) us f vs → Reads .and (pre ++ us) f vs
  | .andLoop node => ∀ us f vs, Like us ts → Reads (.andLoop e) us f vs →
      Reads (.andLoop node) (pre ++ us) f vs
  | .or => ∀ us f vs, Like us ts → NoAnd us → Reads (.orLoop e) us f vs →
      Reads .or (pre ++ us) f vs
  | .orLoop node => ∀ us f vs, Like us ts → NoAnd us → Reads (.orLoop e) us f vs →
      Reads (.orLoop node) (pre ++ us) f vs

theorem noAnd_append {pre us ts : List Str} (h : NoAnd (pre ++ ts)) (hus : NoAnd us) :
    NoAnd (pre ++ us) := by
  cases pre with
  | nil => exact hus
  | cons t pre => exact noAnd_cons.mpr (noAnd_cons.mp h)

theorem Reads.replace (h : Reads mode toks e ts) :
    ∃ pre, toks = pre ++ ts ∧ mode.Replaces pre e ts := by
  induction h with
  | @not t toks ts e ht _ ih =>
    obtain ⟨pre, rfl, hpre⟩ := ih
    exact ⟨t :: pre, rfl, fun us hlike => .not ht (hpre us hlike)⟩
  | @ctl t op toks ts e ht hop _ ih =>
    obtain ⟨pre, rfl, hpre⟩ := ih
    exact ⟨t :: pre, rfl, fun us hlike => .ctl ht hop (hpre us hlike)⟩
  | @«until» t op toks vs ts l r ht hctl hop _ _ ihl ihr =>
    obtain ⟨pre, rfl, hpre⟩ := ihl
    obtain ⟨mid, rfl, hmid⟩ := ihr
    refine ⟨t :: ['('] :: (pre ++ [','] :: (mid ++ [[')']])), by simp, fun us _ => ?_⟩
    have hr : Reads .or (mid ++ [')'] :: us) r ([')'] :: us) :=
      hmid _ _ _ (Like.cons _ _ _) (noAnd_cons.mpr (by decide))
        (.orStop (noOr_cons.mpr (by decide)))
    have hl : Reads .or (pre ++ [','] :: (mid ++ [')'] :: us)) l ([','] :: (mid ++ [')'] :: us)) :=
      hpre _ _ _ (Like.cons _ _ _) (noAnd_cons.mpr (by decide))
        (.orStop (noOr_cons.mpr (by decide)))
    simpa using Reads.until ht hctl hop hl hr
  | @paren toks ts e _ ih =>
    obtain ⟨pre, rfl, hpre⟩ := ih
    refine ⟨['('] :: (pre ++ [[')']]), by simp, fun us _ => ?_⟩
    have he : Reads .or (pre ++ [')'] :: us) e ([')'] :: us) :=
      hpre _ _ _ (Like.cons _ _ _) (noAnd_cons.mpr (by decide))
        (.orStop (noOr_cons.mpr (by decide)))
    simpa using Reads.paren he
  | @predicate n t toks ts e ht hp =>
    obtain ⟨pre, happ, hseg⟩ := parsePredicate_segment hp
    refine ⟨pre, happ, fun us hlike => ?_⟩
    obtain ⟨t', pre', rfl⟩ := List.exists_cons_of_ne_nil hseg.nonempty
    cases (List.cons.inj happ).1
    exact .predicate ht (hseg.replace us hlike)
  | @and toks xs ts u e _ _ ihu ih =>
    obtain ⟨pre, rfl, hpre⟩ := ihu
    obtain ⟨mid, rfl, hmid⟩ := ih
    refine ⟨pre ++ mid, (List.append_assoc ..).symm, fun us f vs hlike hf => ?_⟩
    rw [List.append_assoc]
    exact .and (hpre _ (hlike.append mid)) (hmid us f vs hlike hf)
  | @andStop ts node h => exact ⟨[], rfl, fun us f vs _ hf => hf⟩
  | @andStep t toks xs ts node u e ht _ _ ihu ih =>
    obtain ⟨pre, rfl, hpre⟩ := ihu
    obtain ⟨mid, rfl, hmid⟩ := ih
    refine ⟨t :: (pre ++ mid), by simp, fun us f vs hlike hf => ?_⟩
    rw [List.cons_append, List.append_assoc]
    exact .andStep ht (hpre _ (hlike.append mid)) (hmid us f vs hlike hf)
  | @or toks xs ts a e ha _ iha ih =>
    have hstop := ha.stops
    obtain ⟨pre, rfl, hpre⟩ := iha
    obtain ⟨mid, rfl, hmid⟩ := ih
    refine ⟨pre ++ mid, (List.append_assoc ..).symm, fun us f vs hlike hno hf => ?_⟩
    rw [List.append_assoc]
    exact .or (hpre _ _ _ (hlike.append mid) (.andStop (noAnd_append hstop hno)))
      (hmid us f vs hlike hno hf)
  | @orStop ts node h => exact ⟨[], rfl, fun us f vs _ _ hf => hf⟩
  | @orStep t toks xs ts node a e ht ha _ iha ih =>
    have hstop := ha.stops
    obtain ⟨pre, rfl, hpre⟩ := iha
    obtain ⟨mid, rfl, hmid⟩ := ih
    refine ⟨t :: (pre ++ mid), by simp, fun us f vs hlike hno hf => ?_⟩
    rw [List.cons_append, List.append_assoc]
    exact .orStep ht (hpre _ _ _ (hlike.append mid) (.andStop (noAnd_append hstop hno)))
      (hmid us f vs hlike hno hf)

end rest

end TraceMind.Verify.Ctl
