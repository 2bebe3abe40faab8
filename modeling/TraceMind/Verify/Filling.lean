import TraceMind.Verify.Grammar
import TraceMind.Verify.RoundTrip

-- Expressions with places that are filled later: by a tree in the tree, by tokens in the tokens.
namespace TraceMind.Verify.Ctl

open Fuelled

inductive Level where
  | unary
  | and
  | or

namespace Level

def mode : Level → Mode
  | .unary => .unary
  | .and => .and
  | .or => .or

def meet : Level → Level → Level
  | .or, l => l
  | .and, .unary => .unary
  | .and, _ => .and
  | .unary, _ => .unary

def afterTok (t : Str) : Level :=
  if isNotTok t ∨ (ctlOp? t).isSome ∨ isAndTok t then .unary
  else if isOrTok t then .and
  else .or

def beforeTok (next : Option Str) : Level :=
  match next with
  | some t => if isAndTok t then .and else .or
  | none => .or

end Level

structure Filling where
  value : Str → Option (List Str × Expr)
  marked : ∀ t, (value t).isSome = true → ∃ c cs, t = '\x7b' :: c :: cs

namespace Filling

variable (F : Filling)

def isMark (t : Str) : Bool := (F.value t).isSome

def tokens (toks : List Str) : List Str :=
  toks.flatMap (fun t => ((F.value t).map Prod.fst).getD [t])

def tree : Expr → Expr
  | .predicate name none => ((F.value name).map Prod.snd).getD (.predicate name none)
  | .predicate name (some v) => .predicate name (some v)
  | .not e => .not (tree e)
  | .and l r => .and (tree l) (tree r)
  | .or l r => .or (tree l) (tree r)
  | .ctl op e => .ctl op (tree e)
  | .until op l r => .until op (tree l) (tree r)

def marks (toks : List Str) : ℕ := toks.countP F.isMark

def leaves : Expr → ℕ
  | .predicate name none => (F.isMark name).toNat
  | .predicate _ (some _) => 0
  | .not e => leaves e
  | .and l r => leaves l + leaves r
  | .or l r => leaves l + leaves r
  | .ctl _ e => leaves e
  | .until _ l r => leaves l + leaves r

def closing (next : Option Str) : List Str := if next = some [')'] then [[')']] else []

def FitsAt (l : Level) (t : Str) (next : Option Str) : Prop :=
  ∀ v e, F.value t = some (v, e) →
    l.mode.run (parseFuel (v ++ closing next)) (v ++ closing next) = ret (e, closing next)

def Fits : Level → List Str → Prop
  | _, [] => True
  | l, t :: ts => F.FitsAt (l.meet (Level.beforeTok ts.head?)) t ts.head? ∧
      Fits (Level.afterTok t) ts

def Uncalled : List Str → Prop
  | [] => True
  | t :: ts => (F.isMark t = true → ts.head? ≠ some ['(']) ∧ Uncalled ts

def Plain (ts : List Str) : Prop := ∀ t ∈ ts.head?, F.isMark t = false

end Filling

section marks

variable {F : Filling} {t : Str} {toks ts : List Str}

theorem mark_plain (h : t.head? ≠ some '\x7b') : F.isMark t = false := by
  cases hm : F.isMark t with
  | false => rfl
  | true =>
    obtain ⟨c, cs, rfl⟩ := F.marked t hm
    exact absurd rfl h

theorem mark_heads (h : F.isMark t = true) :
    Heads t ∧ lower t ≠ "peer".toList ∧ lower t ≠ "terminal".toList := by
  obtain ⟨c, cs, rfl⟩ := F.marked t h
  refine ⟨⟨?_, ?_, ?_, ?_⟩, ?_, ?_⟩
  · rintro (h | h) <;> cases h
  · rfl
  · rfl
  · intro h
    cases h
  · intro h
    cases h
  · intro h
    cases h

theorem tokens_cons_plain (h : F.isMark t = false) : F.tokens (t :: ts) = t :: F.tokens ts := by
  have hnone : F.value t = none := by simpa [Filling.isMark] using h
  rw [Filling.tokens, List.flatMap_cons, hnone]
  rfl

theorem tokens_append (xs ys : List Str) : F.tokens (xs ++ ys) = F.tokens xs ++ F.tokens ys :=
  List.flatMap_append

theorem tokens_of_marks {xs : List Str} (h : F.marks xs = 0) : F.tokens xs = xs := by
  induction xs with
  | nil => rfl
  | cons x xs ih =>
    have hx : F.isMark x = false := by
      have := List.countP_eq_zero.mp h x List.mem_cons_self
      simpa using this
    rw [tokens_cons_plain hx, ih (List.countP_eq_zero.mpr (fun y hy =>
      List.countP_eq_zero.mp h y (List.mem_cons_of_mem _ hy)))]

theorem tokens_head (h : F.Plain ts) : (F.tokens ts).head? = ts.head? := by
  cases ts with
  | nil => rfl
  | cons t ts => rw [tokens_cons_plain (h t rfl), List.head?_cons, List.head?_cons]

theorem marks_append (xs ys : List Str) : F.marks (xs ++ ys) = F.marks xs + F.marks ys :=
  List.countP_append

theorem marks_cons (t : Str) (ts : List Str) : F.marks (t :: ts) = F.marks ts + (F.isMark t).toNat := by
  rw [Filling.marks, List.countP_cons]
  cases F.isMark t <;> rfl

theorem tree_of_leaves {e : Expr} (h : F.leaves e = 0) : F.tree e = e := by
  induction e with
  | predicate name v =>
    cases v with
    | none =>
      rw [Filling.leaves, Filling.isMark] at h
      rw [Filling.tree]
      cases hv : F.value name with
      | none => rfl
      | some w =>
        rw [hv] at h
        cases h
    | some v => rfl
  | not e ih => rw [Filling.tree, ih h]
  | and l r ihl ihr =>
    rw [Filling.leaves, Nat.add_eq_zero_iff] at h
    rw [Filling.tree, ihl h.1, ihr h.2]
  | or l r ihl ihr =>
    rw [Filling.leaves, Nat.add_eq_zero_iff] at h
    rw [Filling.tree, ihl h.1, ihr h.2]
  | ctl op e ih => rw [Filling.tree, ih h]
  | «until» op l r ihl ihr =>
    rw [Filling.leaves, Nat.add_eq_zero_iff] at h
    rw [Filling.tree, ihl h.1, ihr h.2]

theorem fits_suffix {l : Level} (pre : List Str) (h : F.Fits l (pre ++ ts)) :
    ∃ l', F.Fits l' ts := by
  induction pre generalizing l with
  | nil => exact ⟨l, h⟩
  | cons t pre ih => exact ih h.2

theorem fits_plain (h : F.Plain ts) {l : Level} (hfits : F.Fits l ts) (l' : Level) :
    F.Fits l' ts := by
  cases ts with
  | nil => trivial
  | cons t ts =>
    refine ⟨fun v e hv => ?_, hfits.2⟩
    have ht : F.isMark t = false := h t rfl
    rw [Filling.isMark, hv] at ht
    cases ht

theorem uncalled_suffix (pre : List Str) (h : F.Uncalled (pre ++ ts)) : F.Uncalled ts := by
  induction pre with
  | nil => exact h
  | cons t pre ih => exact ih h.2

end marks

section reading

variable {F : Filling} {t : Str} {toks us ts : List Str} {u e : Expr} {mode : Mode}

def Mode.leaves (F : Filling) : Mode → ℕ
  | .andLoop node | .orLoop node => F.leaves node
  | _ => 0

def Mode.filled (F : Filling) : Mode → Mode
  | .andLoop node => .andLoop (F.tree node)
  | .orLoop node => .orLoop (F.tree node)
  | m => m

def Mode.Fits (F : Filling) (toks : List Str) : Mode → Prop
  | .unary => F.Fits .unary toks
  | .and => F.Fits .and toks
  | .or => F.Fits .or toks
  | _ => ∃ l, F.Fits l toks

theorem predicate_leaves {n : ℕ} {pre : List Str} {p : Expr} (h : Segment n pre p ts) :
    F.leaves p ≤ F.marks pre := by
  obtain ⟨name, v, rfl⟩ := h.predicate
  cases v with
  | some v => exact Nat.zero_le _
  | none =>
    rcases h.name name rfl with hhead | rfl
    · obtain ⟨t, pre', rfl⟩ := List.exists_cons_of_ne_nil h.nonempty
      cases hhead
      rw [marks_cons]
      exact Nat.le_add_left _ _
    · have hplain : F.isMark "Terminal".toList = false := mark_plain (by decide)
      rw [Filling.leaves, hplain]
      exact Nat.zero_le _

theorem Reads.leaves_le (h : Reads mode toks e ts) :
    F.leaves e + F.marks ts ≤ F.marks toks + mode.leaves F := by
  induction h with
  | not _ _ ih | ctl _ _ _ ih =>
    rw [marks_cons]
    simp only [Mode.leaves, Filling.leaves] at ih ⊢
    omega
  | «until» _ _ _ _ _ ihl ihr =>
    simp only [marks_cons, Mode.leaves, Filling.leaves] at ihl ihr ⊢
    omega
  | paren _ ih =>
    simp only [marks_cons, Mode.leaves] at ih ⊢
    omega
  | predicate _ hp =>
    obtain ⟨pre, happ, hseg⟩ := parsePredicate_segment hp
    have hle := predicate_leaves (F := F) hseg
    rw [happ, marks_append]
    exact Nat.add_le_add_right hle _
  | and _ _ ihu ih | or _ _ ihu ih =>
    simp only [Mode.leaves] at ihu ih ⊢
    omega
  | andStop _ | orStop _ =>
    simp only [Mode.leaves]
    omega
  | andStep _ _ _ ihu ih | orStep _ _ _ ihu ih =>
    simp only [marks_cons, Mode.leaves, Filling.leaves] at ihu ih ⊢
    omega

theorem mark_read {n : ℕ} (hm : F.isMark t = true) (hopen : toks.head? ≠ some ['('])
    (h : parsePredicate n (t :: toks) = ret (e, ts)) : e = .predicate t none ∧ ts = toks := by
  obtain ⟨-, hpeer, hterminal⟩ := mark_heads hm
  cases n with
  | zero => exact absurd h.symm (Option.some_ne_none _)
  | succ n =>
    rw [parsePredicate] at h
    replace h := (if_neg hpeer).symm.trans h
    rw [argPredicate_uncalled t hopen, namedPredicate, if_neg hterminal, ret_inj, Prod.mk.injEq] at h
    exact ⟨h.1.symm, h.2.symm⟩

theorem Reads.mark (h : Reads .unary (t :: toks) u us) (hm : F.isMark t = true)
    (hopen : toks.head? ≠ some ['(']) : u = .predicate t none ∧ us = toks := by
  have hheads := (mark_heads hm).1
  cases h with
  | not ht _ => exact absurd ht hheads.noNot
  | ctl _ hop _ =>
    rw [hheads.noCtl] at hop
    cases hop
  | «until» _ _ hop _ _ =>
    rw [hheads.noUntil] at hop
    cases hop
  | paren _ => exact absurd rfl hheads.noParen
  | predicate _ hp => exact mark_read hm hopen hp

theorem closing_like (hplain : F.Plain ts) (hopen : ts.head? ≠ some ['(']) :
    Like (F.tokens ts) (Filling.closing ts.head?) := by
  rw [Like, tokens_head hplain]
  refine ⟨fun h => absurd h hopen, fun h => ?_⟩
  rw [h, Filling.closing, if_pos rfl]
  rfl

theorem fitsAt_replace {l : Level} {v : List Str} {next : Option Str}
    (hv : F.value t = some (v, e)) (h : F.FitsAt l t next) :
    l.mode.Replaces v e (Filling.closing next) := by
  obtain ⟨pre, happ, hpre⟩ := (Reads.sound (h v e hv)).replace
  rw [List.append_cancel_right happ]
  exact hpre

theorem plain_of_loop (h : Reads mode us e ts) (hloop : mode ≠ .unary ∧ mode ≠ .and ∧ mode ≠ .or)
    (hplain : F.Plain ts) : F.Plain us := by
  cases h with
  | andStop _ | orStop _ => exact hplain
  | andStep ht _ _ | orStep ht _ _ =>
    intro t' ht'
    cases ht'
    exact mark_plain (by rcases ht with rfl | rfl <;> decide)
  | not _ _ | ctl _ _ _ | «until» _ _ _ _ _ | paren _ | predicate _ _ => exact absurd rfl hloop.1
  | and _ _ => exact absurd rfl hloop.2.1
  | or _ _ => exact absurd rfl hloop.2.2

theorem notTok_plain (h : isNotTok t) : F.isMark t = false :=
  mark_plain (by rcases h with rfl | rfl <;> decide)

theorem andTok_plain (h : isAndTok t) : F.isMark t = false :=
  mark_plain (by rcases h with rfl | rfl <;> decide)

theorem orTok_plain (h : isOrTok t) : F.isMark t = false :=
  mark_plain (by rcases h with rfl | rfl <;> decide)

theorem noAnd_tokens (hplain : F.Plain ts) (h : NoAnd ts) : NoAnd (F.tokens ts) := by
  rw [NoAnd, tokens_head hplain]
  exact h

theorem noOr_tokens (hplain : F.Plain ts) (h : NoOr ts) : NoOr (F.tokens ts) := by
  rw [NoOr, tokens_head hplain]
  exact h

theorem ctl_plain {op : CtlOp} (h : ctlOp? t = some op) : F.isMark t = false := by
  cases hm : F.isMark t with
  | false => rfl
  | true =>
    rw [(mark_heads hm).1.noCtl] at h
    cases h

theorem until_plain {op : UntilOp} (h : untilOp? t = some op) : F.isMark t = false := by
  cases hm : F.isMark t with
  | false => rfl
  | true =>
    rw [(mark_heads hm).1.noUntil] at h
    cases h

theorem tokens_mark {v : List Str} (hv : F.value t = some (v, e)) (ts : List Str) :
    F.tokens (t :: ts) = v ++ F.tokens ts := by
  rw [Filling.tokens, List.flatMap_cons, hv]
  rfl

theorem tree_mark {v : List Str} (hv : F.value t = some (v, e)) : F.tree (.predicate t none) = e := by
  rw [Filling.tree, hv]
  rfl

theorem afterTok_unary (h : isNotTok t ∨ (ctlOp? t).isSome = true ∨ isAndTok t) :
    Level.afterTok t = .unary := if_pos h

theorem afterTok_or (h : isOrTok t) : Level.afterTok t = .and := by
  rcases h with rfl | rfl <;> rfl

theorem fill_mark_unary {v : List Str} (hv : F.value t = some (v, e)) (hplain : F.Plain ts)
    (hfits : F.Fits .unary (t :: ts)) (hopen : ts.head? ≠ some ['(']) :
    Reads .unary (F.tokens (t :: ts)) e (F.tokens ts) := by
  rw [tokens_mark hv]
  have hlevel : Level.meet .unary (Level.beforeTok ts.head?) = .unary := rfl
  have h := hfits.1
  rw [hlevel] at h
  exact fitsAt_replace hv h _ (closing_like hplain hopen)

theorem meet_and (next : Option Str) : Level.meet .and (Level.beforeTok next) = .and := by
  cases next with
  | none => rfl
  | some t =>
    rw [Level.beforeTok]
    split_ifs <;> rfl

theorem fill_mark_and {v : List Str} {f : Expr} {vs : List Str} (hv : F.value t = some (v, e))
    (hplain : F.Plain ts) (hfits : F.Fits .and (t :: ts)) (hopen : ts.head? ≠ some ['('])
    (h : Reads (.andLoop e) (F.tokens ts) f vs) : Reads .and (F.tokens (t :: ts)) f vs := by
  rw [tokens_mark hv]
  have hat := hfits.1
  rw [meet_and] at hat
  exact fitsAt_replace hv hat _ _ _ (closing_like hplain hopen) h

theorem meet_or (h : NoAnd ts) : Level.meet .or (Level.beforeTok ts.head?) = .or := by
  cases ts with
  | nil => rfl
  | cons t ts => exact if_neg (noAnd_cons.mp h)

theorem fill_mark_or {v : List Str} {f : Expr} {vs : List Str} (hv : F.value t = some (v, e))
    (hplain : F.Plain ts) (hfits : F.Fits .or (t :: ts)) (hopen : ts.head? ≠ some ['('])
    (hno : NoAnd ts) (h : Reads (.orLoop e) (F.tokens ts) f vs) :
    Reads .or (F.tokens (t :: ts)) f vs := by
  rw [tokens_mark hv]
  have hat := hfits.1
  rw [meet_or hno] at hat
  exact fitsAt_replace hv hat _ _ _ (closing_like hplain hopen) (noAnd_tokens hplain hno) h

theorem fill_predicate {n : ℕ} (ht : Heads t) (hm : F.isMark t = false)
    (h : parsePredicate n (t :: toks) = ret (e, ts)) (hplain : F.Plain ts)
    (hcount : F.leaves e + F.marks ts = F.marks (t :: toks)) :
    Reads .unary (F.tokens (t :: toks)) (F.tree e) (F.tokens ts) := by
  obtain ⟨pre, happ, hseg⟩ := parsePredicate_segment h
  obtain ⟨t', pre', rfl⟩ := List.exists_cons_of_ne_nil hseg.nonempty
  cases (List.cons.inj happ).1
  have hleaves : F.leaves e = 0 := by
    obtain ⟨name, v, rfl⟩ := hseg.predicate
    cases v with
    | some v => rfl
    | none =>
      rcases hseg.name name rfl with hhead | rfl
      · cases hhead
        rw [Filling.leaves, hm]
        rfl
      · rw [Filling.leaves, mark_plain (by decide)]
        rfl
  have hmarks : F.marks (t :: pre') = 0 := by
    rw [happ, marks_append, hleaves] at hcount
    omega
  rw [tree_of_leaves hleaves, happ, tokens_append, tokens_of_marks hmarks]
  refine .predicate ht (hseg.replace _ ?_)
  rw [Like, tokens_head hplain]
  exact ⟨id, id⟩

theorem fits_after {l l' : Level} (h : F.Fits l (t :: ts)) (hl : Level.afterTok t = l') :
    F.Fits l' ts := hl ▸ h.2

theorem plain_cons {x : Str} (h : F.isMark x = false) (xs : List Str) : F.Plain (x :: xs) := by
  intro y hy
  cases hy
  exact h

theorem exists_value (h : F.isMark t = true) : ∃ v e, F.value t = some (v, e) := by
  obtain ⟨⟨v, e⟩, hv⟩ := Option.isSome_iff_exists.mp h
  exact ⟨v, e, hv⟩

theorem Reads.fill (h : Reads mode toks e ts) (hplain : F.Plain ts)
    (hcount : F.leaves e + F.marks ts = F.marks toks + mode.leaves F)
    (hfits : mode.Fits F toks) (hcalled : F.Uncalled toks) :
    Reads (mode.filled F) (F.tokens toks) (F.tree e) (F.tokens ts) := by
  have hclose : F.isMark [')'] = false := mark_plain (by decide)
  have hcomma : F.isMark [','] = false := mark_plain (by decide)
  have hopen : F.isMark ['('] = false := mark_plain (by decide)
  induction h with
  | @not t toks ts e ht _ ih =>
    have hm : F.isMark t = false := notTok_plain ht
    rw [marks_cons, hm] at hcount
    rw [tokens_cons_plain hm]
    exact .not ht (ih hplain hcount (fits_after hfits (afterTok_unary (Or.inl ht))) hcalled.2)
  | @ctl t op toks ts e ht hop _ ih =>
    have hm : F.isMark t = false := ctl_plain hop
    rw [marks_cons, hm] at hcount
    rw [tokens_cons_plain hm]
    have hafter : Level.afterTok t = .unary := afterTok_unary (Or.inr (Or.inl (by rw [hop]; rfl)))
    exact .ctl ht hop (ih hplain hcount (fits_after hfits hafter) hcalled.2)
  | @«until» t op toks us ts l r ht hctl hop hl hr ihl ihr =>
    have hm : F.isMark t = false := until_plain hop
    have hle := hl.leaves_le (F := F)
    have hre := hr.leaves_le (F := F)
    simp only [marks_cons, hm, hclose, hcomma, hopen, Bool.toNat_false, Mode.leaves,
      Filling.leaves] at hcount hle hre
    rw [tokens_cons_plain hm, tokens_cons_plain hopen]
    obtain ⟨pre, rfl, -⟩ := hl.replace
    have hfl : F.Fits .or (pre ++ [','] :: us) := hfits.2.2
    obtain ⟨_, hfr⟩ := fits_suffix pre hfl
    have hcr := uncalled_suffix pre hcalled.2.2
    have hcl : F.leaves l + F.marks ([','] :: us) =
        F.marks (pre ++ [','] :: us) + Mode.leaves F .or := by
      simp only [marks_cons, hcomma, Bool.toNat_false, Mode.leaves]
      omega
    have hcr' : F.leaves r + F.marks ([')'] :: ts) = F.marks us + Mode.leaves F .or := by
      simp only [marks_cons, hclose, Bool.toNat_false, Mode.leaves]
      omega
    have hreadl := ihl (plain_cons hcomma us) hcl hfl hcalled.2.2
    have hreadr := ihr (plain_cons hclose ts) hcr' hfr.2 hcr.2
    rw [tokens_cons_plain hcomma] at hreadl
    rw [tokens_cons_plain hclose] at hreadr
    exact .until ht hctl hop hreadl hreadr
  | @paren toks ts e _ ih =>
    rw [marks_cons, hopen] at hcount
    rw [tokens_cons_plain hopen]
    have hread := ih (plain_cons hclose ts) (by rw [marks_cons, hclose]; exact hcount) hfits.2
      hcalled.2
    rw [tokens_cons_plain hclose] at hread
    exact .paren hread
  | @predicate n t toks ts e ht hp =>
    cases hm : F.isMark t with
    | false => exact fill_predicate ht hm hp hplain hcount
    | true =>
      obtain ⟨v, x, hv⟩ := exists_value hm
      have hcall := hcalled.1 hm
      obtain ⟨rfl, rfl⟩ := mark_read hm hcall hp
      rw [tree_mark hv]
      exact fill_mark_unary hv hplain hfits hcall
  | @and toks us ts u e hu h ihu ih =>
    have hle := hu.leaves_le (F := F)
    have hre := h.leaves_le (F := F)
    simp only [Mode.leaves] at hcount hle hre
    have hpu : F.Plain us := plain_of_loop h (by simp) hplain
    obtain ⟨pre, happ, -⟩ := hu.replace
    have hloop : Reads (.andLoop (F.tree u)) (F.tokens us) (F.tree e) (F.tokens ts) := by
      refine ih hplain (by simp only [Mode.leaves]; omega) ?_
        (uncalled_suffix pre (happ ▸ hcalled))
      exact fits_suffix pre (happ ▸ hfits)
    cases toks with
    | nil => cases hu
    | cons t rest =>
      cases hm : F.isMark t with
      | false =>
        exact .and (ihu hpu (by simp only [Mode.leaves]; omega)
          (fits_plain (plain_cons hm rest) hfits .unary) hcalled) hloop
      | true =>
        obtain ⟨v, x, hv⟩ := exists_value hm
        have hcall := hcalled.1 hm
        obtain ⟨rfl, rfl⟩ := hu.mark hm hcall
        rw [tree_mark hv] at hloop
        exact fill_mark_and hv hpu hfits hcall hloop
  | andStop h => exact .andStop (noAnd_tokens hplain h)
  | @andStep t toks us ts node u e ht hu h ihu ih =>
    have hm : F.isMark t = false := andTok_plain ht
    have hle := hu.leaves_le (F := F)
    have hre := h.leaves_le (F := F)
    simp only [Mode.leaves, Filling.leaves, marks_cons, hm, Bool.toNat_false] at hcount hle hre
    obtain ⟨_, hfits⟩ := hfits
    have hfu : F.Fits .unary toks := fits_after hfits (afterTok_unary (Or.inr (Or.inr ht)))
    obtain ⟨pre, happ, -⟩ := hu.replace
    rw [tokens_cons_plain hm]
    refine .andStep ht (ihu (plain_of_loop h (by simp) hplain) ?_ hfu hcalled.2)
      (ih hplain ?_ (fits_suffix pre (happ ▸ hfu)) (uncalled_suffix pre (happ ▸ hcalled.2)))
    · simp only [Mode.leaves]
      omega
    · simp only [Mode.leaves, Filling.leaves]
      omega
  | @or toks us ts a e ha h iha ih =>
    have hle := ha.leaves_le (F := F)
    have hre := h.leaves_le (F := F)
    simp only [Mode.leaves] at hcount hle hre
    have hpu : F.Plain us := plain_of_loop h (by simp) hplain
    obtain ⟨pre, happ, -⟩ := ha.replace
    have hloop : Reads (.orLoop (F.tree a)) (F.tokens us) (F.tree e) (F.tokens ts) := by
      refine ih hplain (by simp only [Mode.leaves]; omega) ?_
        (uncalled_suffix pre (happ ▸ hcalled))
      exact fits_suffix pre (happ ▸ hfits)
    cases toks with
    | nil =>
      cases ha with
      | and hu _ => cases hu
    | cons t rest =>
      cases hm : F.isMark t with
      | false =>
        exact .or (iha hpu (by simp only [Mode.leaves]; omega)
          (fits_plain (plain_cons hm rest) hfits .and) hcalled) hloop
      | true =>
        obtain ⟨v, x, hv⟩ := exists_value hm
        have hcall := hcalled.1 hm
        by_cases hno : NoAnd rest
        · cases ha with
          | and hu hand =>
            obtain ⟨rfl, rfl⟩ := hu.mark hm hcall
            cases hand with
            | andStop _ =>
              rw [tree_mark hv] at hloop
              exact fill_mark_or hv hpu hfits hcall hno hloop
            | andStep ht _ _ => exact absurd ht (noAnd_cons.mp hno)
        · refine .or (iha hpu (by simp only [Mode.leaves]; omega) ?_ hcalled) hloop
          have hnext : Level.beforeTok rest.head? = .and := by
            cases rest with
            | nil => exact absurd noAnd_nil hno
            | cons x xs =>
              rw [noAnd_cons, not_not] at hno
              exact if_pos hno
          refine ⟨?_, hfits.2⟩
          rw [hnext]
          have hat := hfits.1
          rw [hnext] at hat
          exact hat
  | orStop h => exact .orStop (noOr_tokens hplain h)
  | @orStep t toks us ts node a e ht ha h iha ih =>
    have hm : F.isMark t = false := orTok_plain ht
    have hle := ha.leaves_le (F := F)
    have hre := h.leaves_le (F := F)
    simp only [Mode.leaves, Filling.leaves, marks_cons, hm, Bool.toNat_false] at hcount hle hre
    obtain ⟨_, hfits⟩ := hfits
    have hfa : F.Fits .and toks := fits_after hfits (afterTok_or ht)
    obtain ⟨pre, happ, -⟩ := ha.replace
    rw [tokens_cons_plain hm]
    refine .orStep ht (iha (plain_of_loop h (by simp) hplain) ?_ hfa hcalled.2)
      (ih hplain ?_ (fits_suffix pre (happ ▸ hfa)) (uncalled_suffix pre (happ ▸ hcalled.2)))
    · simp only [Mode.leaves]
      omega
    · simp only [Mode.leaves, Filling.leaves]
      omega

end reading

theorem reads_of_finish {toks : List Str} {e : Expr}
    (h : finish (parseOr (parseFuel toks) toks) = .ok e) : Reads .or toks e [] :=
  Reads.sound (show Mode.or.run (parseFuel toks) toks = _ from finish_eq_ok h)

theorem parseExpr_of_reads {s : Str} {e : Expr} (h : Reads .or (tokenize s) e []) :
    parseExpr s = .ok e := by
  obtain ⟨n, hn⟩ := h.complete
  exact parseExpr_of_parseOr hn (Option.some_ne_none _)

end TraceMind.Verify.Ctl
