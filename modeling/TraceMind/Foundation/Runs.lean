import Mathlib.Data.List.Basic
import Mathlib.Data.List.Induction

-- Runs of a system whose step on an event may be impossible.
namespace Runs

variable {ε σ : Type} (step : ε → σ → Option σ)

def after : List ε → σ → Option σ
  | [], s => some s
  | e :: es, s => (step e s).bind (after es)

def Throughout (p : ε → σ → Prop) (es : List ε) (s : σ) : Prop :=
  ∀ before e rest, es = before ++ e :: rest → ∀ t, after step before s = some t → p e t

def Always (p : σ → Prop) (es : List ε) (s : σ) : Prop :=
  ∀ before rest, es = before ++ rest → ∀ t, after step before s = some t → p t

variable {step} {es fs : List ε} {e : ε} {s t u : σ} {p : ε → σ → Prop}

theorem after_append : after step (es ++ fs) s = (after step es s).bind (after step fs) := by
  induction es generalizing s with
  | nil => rfl
  | cons e es ih =>
    simp only [List.cons_append, after]
    cases step e s with
    | none => rfl
    | some t => exact ih

theorem after_snoc : after step (es ++ [e]) s = (after step es s).bind (step e) := by
  rw [after_append]
  congr 1
  funext t
  simp only [after]
  cases step e t <;> rfl

theorem after_snoc_eq (hs : after step es s = some t) (he : step e t = some u) :
    after step (es ++ [e]) s = some u := by
  rw [after_snoc, hs, Option.bind_some, he]

theorem of_after_snoc (h : after step (es ++ [e]) s = some u) :
    ∃ t, after step es s = some t ∧ step e t = some u := by
  rw [after_snoc] at h
  exact Option.bind_eq_some_iff.mp h

theorem of_after_append (h : after step (es ++ fs) s = some u) :
    ∃ t, after step es s = some t ∧ after step fs t = some u := by
  rw [after_append] at h
  exact Option.bind_eq_some_iff.mp h

theorem Throughout.of_append (h : Throughout step p (es ++ fs) s) : Throughout step p es s := by
  intro before e rest he t ht
  exact h before e (rest ++ fs) (by rw [he, List.append_assoc, List.cons_append]) t ht

theorem Throughout.last (h : Throughout step p (es ++ [e]) s) (ht : after step es s = some t) :
    p e t :=
  h es e [] rfl t ht

theorem Throughout.snoc (h : Throughout step p es s)
    (he : ∀ t, after step es s = some t → p e t) : Throughout step p (es ++ [e]) s := by
  intro before f rest hsplit t ht
  rcases List.eq_nil_or_concat rest with rfl | ⟨rest, g, rfl⟩
  · obtain ⟨rfl, hf⟩ := List.append_inj' hsplit rfl
    obtain rfl : e = f := by simpa using hf
    exact he t ht
  · have hes : es = before ++ f :: rest := by
      rw [List.concat_eq_append, ← List.cons_append, ← List.append_assoc] at hsplit
      exact (List.append_inj' hsplit rfl).1
    exact h before f rest hes t ht

theorem throughout_nil : Throughout step p [] s := by
  intro before e rest h
  simp at h

theorem Throughout.cons (he : p e s) (h : ∀ t, step e s = some t → Throughout step p es t) :
    Throughout step p (e :: es) s := by
  intro before f rest hsplit t ht
  cases before with
  | nil =>
    obtain ⟨rfl, rfl⟩ := List.cons.inj hsplit
    obtain rfl := Option.some.inj ht
    exact he
  | cons g before =>
    obtain ⟨rfl, hes⟩ := List.cons.inj hsplit
    obtain ⟨u, hu, hafter⟩ := Option.bind_eq_some_iff.mp ht
    exact h u hu before f rest hes t hafter

theorem Throughout.induct {I : List ε → σ → Prop} (hrun : Throughout step p es s)
    (hfirst : I [] s)
    (hstep : ∀ es e t u, after step es s = some t → p e t → I es t → step e t = some u →
      I (es ++ [e]) u)
    (h : after step es s = some t) : I es t := by
  induction es using List.reverseRecOn generalizing t with
  | nil =>
    obtain rfl := Option.some.inj h
    exact hfirst
  | append_singleton es e ih =>
    obtain ⟨u, hu, he⟩ := of_after_snoc h
    exact hstep es e u t hu (hrun.last hu) (ih hrun.of_append hu) he

theorem Throughout.always {p : ε → σ → Prop} {q : σ → Prop} (hrun : Throughout step p es s)
    (h : ∀ before t, Throughout step p before s → after step before s = some t → q t) :
    Always step q es s := by
  rintro before rest rfl t ht
  exact h before t hrun.of_append ht

theorem Always.next {q : σ → Prop} (h : Always step q es s) (before rest : List ε)
    (hsplit : es = before ++ e :: rest) (ht : after step before s = some t)
    (hu : step e t = some u) : q u :=
  h (before ++ [e]) rest (by rw [hsplit, List.append_assoc, List.singleton_append]) u
    (after_snoc_eq ht hu)

theorem throughout_true : Throughout step (fun _ _ => True) es s := fun _ _ _ _ _ _ => trivial

theorem after_induct {I : List ε → σ → Prop} (hfirst : I [] s)
    (hstep : ∀ es e t u, after step es s = some t → I es t → step e t = some u → I (es ++ [e]) u)
    (h : after step es s = some t) : I es t :=
  Throughout.induct throughout_true hfirst (fun es e t u ht _ hI he => hstep es e t u ht hI he) h

theorem after_invariant {I : σ → Prop} (hstep : ∀ e t u, I t → step e t = some u → I u)
    (h : after step es s = some t) (hs : I s) : I t :=
  after_induct (I := fun _ t => I t) hs (fun _ e t u _ ht he => hstep e t u ht he) h

end Runs
