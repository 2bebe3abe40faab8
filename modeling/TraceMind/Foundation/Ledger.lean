import Mathlib.Order.Basic
import TraceMind.Foundation.Runs

-- A keyed book whose entries are entered and settled by the events of a run.
namespace Runs

variable {ε σ κ ν : Type} {step : ε → σ → Option σ} {es : List ε} {s t u : σ} {e : ε}
  {k : κ} {v : ν}

structure Ledger (step : ε → σ → Option σ) (κ ν : Type) where
  book : σ → κ → Option ν
  enters : ε → σ → κ → ν → Prop
  settles : ε → σ → κ → Prop

namespace Ledger

def Stands (l : Ledger step κ ν) (es : List ε) (s : σ) (k : κ) (v : ν) : Prop :=
  ∃ before e rest t u, es = before ++ e :: rest ∧ after step before s = some t ∧
    l.enters e t k v ∧ step e t = some u ∧ Throughout step (fun e t => ¬l.settles e t k) rest u

def Ascending [LT κ] (l : Ledger step κ ν) (es : List ε) (s : σ) : Prop :=
  ∀ before e mid e' rest, es = before ++ e :: (mid ++ e' :: rest) → ∀ t u k k' v v',
    after step before s = some t → after step (before ++ e :: mid) s = some u →
      l.enters e t k v → l.enters e' u k' v' → k < k'

def Records (l : Ledger step κ ν) (e : ε) (s t : σ) : Prop :=
  ∀ k v, l.book t k = some v ↔ l.enters e s k v ∨ (l.book s k = some v ∧ ¬l.settles e s k)

def Upheld (l : Ledger step κ ν) (inv : σ → Prop) (may : ε → σ → Prop) : Prop :=
  ∀ e s, inv s → may e s → ∃ t, step e s = some t ∧ inv t ∧ l.Records e s t

variable {l : Ledger step κ ν} {inv : σ → Prop} {may : ε → σ → Prop}

theorem stands_snoc (ht : after step es s = some t) (hu : step e t = some u) :
    l.Stands (es ++ [e]) s k v ↔ l.enters e t k v ∨ (l.Stands es s k v ∧ ¬l.settles e t k) := by
  constructor
  · rintro ⟨before, e', rest, t', u', hes, ht', hin, hu', hrest⟩
    rcases List.eq_nil_or_concat rest with rfl | ⟨rest, e'', rfl⟩
    · obtain ⟨rfl, he⟩ := List.append_inj' hes rfl
      obtain rfl : e = e' := by simpa using he
      cases ht.symm.trans ht'
      exact Or.inl hin
    · rw [List.concat_eq_append, ← List.cons_append, ← List.append_assoc] at hes
      obtain ⟨rfl, he⟩ := List.append_inj' hes rfl
      obtain rfl : e = e'' := by simpa using he
      rw [List.concat_eq_append] at hrest
      refine Or.inr ⟨⟨before, e', rest, t', u', rfl, ht', hin, hu', hrest.of_append⟩, ?_⟩
      obtain ⟨w, hw, hafter⟩ := of_after_append ht
      cases ht'.symm.trans hw
      simp only [after, hu', Option.bind_some] at hafter
      exact hrest.last hafter
  · rintro (hin | ⟨⟨before, e', rest, t', u', rfl, ht', hin, hu', hrest⟩, hset⟩)
    · exact ⟨es, e, [], t, u, rfl, ht, hin, hu, throughout_nil⟩
    · refine ⟨before, e', rest ++ [e], t', u', by simp, ht', hin, hu', hrest.snoc ?_⟩
      intro w hw
      have hafter : after step (before ++ e' :: rest) s = some w := by
        rw [after_append, ht', Option.bind_some, after, hu', Option.bind_some, hw]
      cases ht.symm.trans hafter
      exact hset

theorem Upheld.run (hl : l.Upheld inv may) (hs : inv s) (h : Throughout step may es s) :
    ∃ t, after step es s = some t ∧ inv t := by
  induction es using List.reverseRecOn with
  | nil => exact ⟨s, rfl, hs⟩
  | append_singleton es e ih =>
    obtain ⟨t, ht, hinv⟩ := ih h.of_append
    obtain ⟨u, hu, hinv, -⟩ := hl e t hinv (h.last ht)
    exact ⟨u, after_snoc_eq ht hu, hinv⟩

theorem Upheld.book_iff_stands (hl : l.Upheld inv may) (hs : inv s)
    (hnone : ∀ k, l.book s k = none) (h : Throughout step may es s)
    (ht : after step es s = some t) (k : κ) (v : ν) :
    l.book t k = some v ↔ l.Stands es s k v := by
  induction es using List.reverseRecOn generalizing t k v with
  | nil =>
    cases ht
    refine iff_of_false (by simp [hnone]) ?_
    rintro ⟨before, e, rest, t, u, he, -⟩
    simp at he
  | append_singleton es e ih =>
    obtain ⟨u, hu, hinv⟩ := hl.run hs h.of_append
    obtain ⟨w, hw, -, hrec⟩ := hl e u hinv (h.last hu)
    cases (after_snoc_eq hu hw).symm.trans ht
    rw [hrec, ih h.of_append hu, stands_snoc hu hw]

theorem Upheld.ascending [Preorder κ] (next : σ → κ) (hl : l.Upheld inv may)
    (hnext : ∀ e s t, inv s → step e s = some t →
      next s ≤ next t ∧ ∀ k v, l.enters e s k v → next s ≤ k ∧ k < next t)
    (hs : inv s) (h : Throughout step may es s) : l.Ascending es s := by
  rintro before e mid e' rest rfl t u k k' v v' ht hu hin hin'
  have hrun : ∀ mid, Throughout step may (before ++ e :: mid) s → ∀ u,
      after step (before ++ e :: mid) s = some u → inv u ∧ k < next u := by
    intro mid
    induction mid using List.reverseRecOn with
    | nil =>
      intro h u hu
      obtain ⟨t', ht', hinv⟩ := hl.run hs h.of_append
      cases ht.symm.trans ht'
      obtain ⟨w, hw, hinvw, -⟩ := hl e t hinv (h.last ht)
      cases (after_snoc_eq ht hw).symm.trans hu
      exact ⟨hinvw, ((hnext e t _ hinv hw).2 k v hin).2⟩
    | append_singleton mid f ih =>
      intro h u hu
      rw [← List.cons_append, ← List.append_assoc] at h hu
      obtain ⟨t', ht', hf⟩ := of_after_snoc hu
      obtain ⟨hinv, hlt⟩ := ih h.of_append t' ht'
      obtain ⟨w, hw, hinvw, -⟩ := hl f t' hinv (h.last ht')
      cases hf.symm.trans hw
      exact ⟨hinvw, hlt.trans_le (hnext f t' u hinv hf).1⟩
  rw [← List.cons_append, ← List.append_assoc] at h
  obtain ⟨hinv, hlt⟩ := hrun mid h.of_append u hu
  obtain ⟨w, hw, -⟩ := hl e' u hinv (h _ e' rest rfl u hu)
  exact hlt.trans_le ((hnext e' u w hinv hw).2 k' v' hin').1

end Ledger

end Runs
