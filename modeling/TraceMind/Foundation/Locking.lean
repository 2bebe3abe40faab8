import Mathlib.Logic.Function.Basic
import Mathlib.Logic.Relation
import Mathlib.Tactic.SplitIfs

namespace Locking

-- What a thread does next: it acquires or releases a lock, and with it runs the code up to
-- its next acquisition or release, which gives the point where that one stands.
inductive Instruction (σ π L : Type) where
  | halt
  | acquire (lock : L) (body : σ → σ × π)
  | release (lock : L) (body : σ → σ × π)

structure Program (κ σ π L : Type) where
  entry : κ → π
  code : π → Instruction σ π L

structure State (ι σ π L : Type) where
  data : σ
  point : ι → π
  holder : L → Option ι

inductive Event (ι κ : Type) where
  | start (thread : ι) (call : κ)
  | advance (thread : ι)

variable {ι κ σ π L : Type}

def State.idle (data : σ) (point : π) : State ι σ π L := ⟨data, fun _ => point, fun _ => none⟩

section steps

variable [DecidableEq ι] [DecidableEq L]

def State.move (s : State ι σ π L) (i : ι) (body : σ → σ × π) (lock : L) (holder : Option ι) :
    State ι σ π L where
  data := (body s.data).1
  point := Function.update s.point i (body s.data).2
  holder := Function.update s.holder lock holder

def perform (P : Program κ σ π L) (e : Event ι κ) (s : State ι σ π L) :
    Option (State ι σ π L) :=
  match e with
  | .start i c =>
    match P.code (s.point i) with
    | .halt => some { s with point := Function.update s.point i (P.entry c) }
    | _ => none
  | .advance i =>
    match P.code (s.point i) with
    | .halt => none
    | .acquire l body => if s.holder l = none then some (s.move i body l (some i)) else none
    | .release l body => some (s.move i body l none)

inductive Performed (P : Program κ σ π L) (s : State ι σ π L) :
    Event ι κ → State ι σ π L → Prop where
  | start {i : ι} {c : κ} : P.code (s.point i) = .halt →
      Performed P s (.start i c) { s with point := Function.update s.point i (P.entry c) }
  | acquire {i : ι} {l : L} {body : σ → σ × π} : P.code (s.point i) = .acquire l body →
      s.holder l = none → Performed P s (.advance i) (s.move i body l (some i))
  | release {i : ι} {l : L} {body : σ → σ × π} : P.code (s.point i) = .release l body →
      Performed P s (.advance i) (s.move i body l none)

theorem performed_iff {P : Program κ σ π L} {e : Event ι κ} {s s' : State ι σ π L} :
    perform P e s = some s' ↔ Performed P s e s' := by
  constructor
  · intro h
    cases e with
    | start i c =>
      rw [perform] at h
      split at h
      · rename_i hc
        cases h
        exact .start hc
      · cases h
    | advance i =>
      rw [perform] at h
      split at h
      · cases h
      · rename_i l body hc
        split_ifs at h with hfree
        cases h
        exact .acquire hc hfree
      · rename_i l body hc
        cases h
        exact .release hc
  · intro h
    cases h with
    | start hc => simp only [perform, hc]
    | acquire hc hfree => simp only [perform, hc, if_pos hfree]
    | release hc => simp only [perform, hc]

def Step (P : Program κ σ π L) (allowed : Event ι κ → State ι σ π L → Prop)
    (s s' : State ι σ π L) : Prop :=
  ∃ e, allowed e s ∧ perform P e s = some s'

def Reaches (P : Program κ σ π L) (allowed : Event ι κ → State ι σ π L → Prop) :
    State ι σ π L → State ι σ π L → Prop :=
  Relation.ReflTransGen (Step P allowed)

theorem Reaches.induct {P : Program κ σ π L} {allowed : Event ι κ → State ι σ π L → Prop}
    {s s' : State ι σ π L} {I : State ι σ π L → Prop} (hI : I s)
    (hstep : ∀ s e s', I s → allowed e s → Performed P s e s' → I s')
    (h : Reaches P allowed s s') : I s' := by
  induction h with
  | refl => exact hI
  | tail _ ht ih =>
    obtain ⟨e, ha, he⟩ := ht
    exact hstep _ e _ ih ha (performed_iff.mp he)

def performAll (P : Program κ σ π L) (es : List (Event ι κ)) (s : State ι σ π L) :
    Option (State ι σ π L) :=
  es.foldlM (fun s e => perform P e s) s

theorem reaches_of_performAll {P : Program κ σ π L} {es : List (Event ι κ)}
    {s s' : State ι σ π L} (h : performAll P es s = some s') :
    Reaches P (fun _ _ => True) s s' := by
  induction es generalizing s with
  | nil =>
    cases h
    exact .refl
  | cons e es ih =>
    obtain ⟨s₁, h₁, h₂⟩ := Option.bind_eq_some_iff.mp h
    exact .head ⟨e, trivial, h₁⟩ (ih h₂)

end steps

section waiting

variable {P : Program κ σ π L} {s : State ι σ π L} {i j : ι} {l : L}

def Waits (P : Program κ σ π L) (s : State ι σ π L) (i : ι) (l : L) : Prop :=
  ∃ body, P.code (s.point i) = .acquire l body

def BlockedBy (P : Program κ σ π L) (s : State ι σ π L) (i j : ι) : Prop :=
  ∃ l, Waits P s i l ∧ s.holder l = some j

def CircularWait (P : Program κ σ π L) (s : State ι σ π L) : Prop :=
  ∃ i, Relation.TransGen (BlockedBy P s) i i

theorem CircularWait.blocked (h : CircularWait P s) :
    ∃ i j, (∃ l, s.holder l = some i) ∧ BlockedBy P s i j ∧ ∃ k, BlockedBy P s j k := by
  obtain ⟨i, h⟩ := h
  obtain ⟨c, -, l, -, hi⟩ := Relation.TransGen.tail'_iff.mp h
  obtain ⟨j, hij, hji⟩ := Relation.TransGen.head'_iff.mp h
  refine ⟨i, j, ⟨l, hi⟩, hij, ?_⟩
  rcases Relation.ReflTransGen.cases_head hji with rfl | ⟨k, hjk, -⟩
  · exact ⟨j, hij⟩
  · exact ⟨k, hjk⟩

theorem CircularWait.pair (hij : BlockedBy P s i j) (hji : BlockedBy P s j i) :
    CircularWait P s := ⟨i, .tail (.single hij) hji⟩

end waiting

section annotations

structure Annotation (P : Program κ σ π L) where
  held : π → L → Prop
  halt : ∀ p l, P.code p = .halt → ¬held p l
  entry : ∀ c l, ¬held (P.entry c) l
  acquire : ∀ p l body d l', P.code p = .acquire l body →
    (held (body d).2 l' ↔ l' = l ∨ held p l')
  release : ∀ p l body d l', P.code p = .release l body →
    (held (body d).2 l' ↔ l' ≠ l ∧ held p l')
  releases : ∀ p l body, P.code p = .release l body → held p l

variable {P : Program κ σ π L}

def Annotation.Holds (a : Annotation P) (s : State ι σ π L) : Prop :=
  ∀ l i, s.holder l = some i ↔ a.held (s.point i) l

theorem Annotation.holds_idle (a : Annotation P) (data : σ) {p : π} (h : P.code p = .halt) :
    a.Holds (State.idle data p : State ι σ π L) :=
  fun l _ => iff_of_false nofun (a.halt p l h)

variable [DecidableEq ι] [DecidableEq L]

theorem Annotation.Holds.performed {a : Annotation P} {s s' : State ι σ π L} {e : Event ι κ}
    (h : a.Holds s) (hp : Performed P s e s') : a.Holds s' := by
  intro l' j
  cases hp with
  | @start i c hc =>
    by_cases hj : j = i
    · subst hj
      simp only [Function.update_self]
      exact iff_of_false (fun hh => a.halt _ l' hc ((h l' j).mp hh)) (a.entry c l')
    · simp only [Function.update_of_ne hj]
      exact h l' j
  | @acquire i l body hc hfree =>
    by_cases hj : j = i
    · subst hj
      simp only [State.move, Function.update_self]
      rw [a.acquire _ _ _ _ _ hc]
      by_cases hl : l' = l
      · simp [hl]
      · simp [hl, h l' j]
    · simp only [State.move, Function.update_of_ne hj]
      by_cases hl : l' = l
      · subst hl
        rw [Function.update_self]
        refine iff_of_false (fun hh => hj (Option.some.inj hh).symm) (fun hh => ?_)
        rw [(h l' j).mpr hh] at hfree
        cases hfree
      · rw [Function.update_of_ne hl]
        exact h l' j
  | @release i l body hc =>
    by_cases hj : j = i
    · subst hj
      simp only [State.move, Function.update_self]
      rw [a.release _ _ _ _ _ hc]
      by_cases hl : l' = l
      · simp [hl]
      · simp [hl, h l' j]
    · simp only [State.move, Function.update_of_ne hj]
      by_cases hl : l' = l
      · subst hl
        rw [Function.update_self]
        refine iff_of_false nofun (fun hh => hj ?_)
        have hi := (h l' i).mpr (a.releases _ _ _ hc)
        rw [(h l' j).mpr hh] at hi
        exact Option.some.inj hi
      · rw [Function.update_of_ne hl]
        exact h l' j

theorem Annotation.Holds.reaches {a : Annotation P} {s s' : State ι σ π L}
    {allowed : Event ι κ → State ι σ π L → Prop} (h : a.Holds s)
    (hr : Reaches P allowed s s') : a.Holds s' :=
  hr.induct h (fun _ _ _ h _ hp => h.performed hp)

end annotations

end Locking
