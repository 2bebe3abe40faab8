import Mathlib.Data.Set.Basic

abbrev LeaseTable (κ τ T : Type) := κ → Option (Option (τ × T))

namespace LeaseTable

variable {κ τ T : Type}

def expire [LinearOrder T] (now : T) (t : LeaseTable κ τ T) : LeaseTable κ τ T :=
  fun o => (t o).map (fun l => l.filter (fun p => decide (now < p.2)))

section tables

variable [DecidableEq κ]

def closeWith [DecidableEq τ] (l : Option (Option (τ × T))) (o : κ) (k : τ) (t : LeaseTable κ τ T) :
    LeaseTable κ τ T :=
  match t o with
  | some (some p) => if p.1 = k then Function.update t o l else t
  | _ => t

def settle [DecidableEq τ] (o : κ) (k : τ) (t : LeaseTable κ τ T) : LeaseTable κ τ T := closeWith none o k t

def release [DecidableEq τ] (o : κ) (k : τ) (t : LeaseTable κ τ T) : LeaseTable κ τ T :=
  closeWith (some none) o k t

inductive Grants (t : LeaseTable κ τ T) : List (κ × τ × T) → LeaseTable κ τ T → Prop where
  | nil : Grants t [] t
  | grant {gs : List (κ × τ × T)} {t' : LeaseTable κ τ T} {o : κ} {p : τ × T} :
      Grants t gs t' → t' o = some none →
      Grants t (gs ++ [(o, p)]) (Function.update t' o (some (some p)))

section grants

variable {t t' : LeaseTable κ τ T} {gs : List (κ × τ × T)}

theorem Grants.granted (h : Grants t gs t') : ∀ g ∈ gs, t' g.1 = some (some g.2) := by
  induction h with
  | nil => simp
  | @grant gs t' o p h ho ih =>
    intro g hg
    rcases List.mem_append.mp hg with hg | hg
    · have hne : g.1 ≠ o := by
        intro he
        rw [← he, ih g hg] at ho
        cases ho
      rw [Function.update_of_ne hne]
      exact ih g hg
    · obtain rfl := List.mem_singleton.mp hg
      exact Function.update_self ..

theorem Grants.frame (h : Grants t gs t') {o : κ} (ho : o ∉ gs.map Prod.fst) : t' o = t o := by
  induction h with
  | nil => rfl
  | @grant gs t' o' p h _ ih =>
    rw [List.map_append, List.mem_append, not_or] at ho
    have hne : o ≠ o' := by simpa using ho.2
    rw [Function.update_of_ne hne]
    exact ih ho.1

theorem Grants.free (h : Grants t gs t') : ∀ g ∈ gs, t g.1 = some none := by
  induction h with
  | nil => simp
  | @grant gs t' o p h ho ih =>
    intro g hg
    rcases List.mem_append.mp hg with hg | hg
    · exact ih g hg
    · obtain rfl := List.mem_singleton.mp hg
      by_cases hm : o ∈ gs.map Prod.fst
      · obtain ⟨g, hmem, rfl⟩ := List.mem_map.mp hm
        exact ih g hmem
      · rw [← h.frame hm]
        exact ho

theorem Grants.nodup (h : Grants t gs t') : (gs.map Prod.fst).Nodup := by
  induction h with
  | nil => simp
  | @grant gs t' o p h ho ih =>
    have hm : o ∉ gs.map Prod.fst := by
      intro hm
      obtain ⟨g, hg, rfl⟩ := List.mem_map.mp hm
      rw [h.granted g hg] at ho
      cases ho
    rw [List.map_append]
    exact List.nodup_append.mpr ⟨ih, by simp, fun a ha b hb => by
      obtain rfl := List.mem_singleton.mp hb
      exact fun he => hm (he ▸ ha)⟩

end grants

section closing

variable [DecidableEq τ] {t : LeaseTable κ τ T} {o o' : κ} {k k' : τ} {l : Option (Option (τ × T))}

theorem closeWith_of_ne (h : o ≠ o') : closeWith l o' k t o = t o := by
  rcases ht : t o' with _ | _ | p
  · simp [closeWith, ht]
  · simp [closeWith, ht]
  · by_cases hp : p.1 = k
    · simp [closeWith, ht, hp, Function.update_of_ne h]
    · simp [closeWith, ht, hp]

theorem closeWith_self {d : T} (h : t o = some (some (k, d))) : closeWith l o k t o = l := by
  simp [closeWith, h]

theorem closeWith_token {p : τ × T} (h : t o = some (some p)) (hk : p.1 ≠ k) :
    closeWith l o k t = t := by
  simp [closeWith, h, hk]

theorem closeWith_gone (h : t o = none) : closeWith l o k t = t := by
  simp [closeWith, h]

theorem closeWith_free (h : t o = some none) : closeWith l o k t = t := by
  simp [closeWith, h]

theorem closeWith_kept {token : Option τ} {d : T} (h : t o = some (token.map (fun k => (k, d))))
    (hk : token ≠ some k) : closeWith l o k t = t := by
  cases token with
  | none => exact closeWith_free h
  | some k' => exact closeWith_token h (fun he => hk (congrArg some he))

theorem closeWith_update {token : Option τ} {d : T} (h : t o = some (token.map (fun k => (k, d))))
    (hk : token = some k) : closeWith l o k t = Function.update t o l := by
  simp [closeWith, h, hk]

end closing

end tables

inductive Event (κ τ T : Type) where
  | put (o : κ)
  | settle (o : κ) (k : τ)
  | release (o : κ) (k : τ)
  | lease (now : T) (granted : List (κ × τ × T))
  | other

structure State (κ τ T : Type) where
  issued : Set κ
  table : LeaseTable κ τ T
  live_issued : ∀ o, table o ≠ none → o ∈ issued

section expiry

variable [LinearOrder T] {t : LeaseTable κ τ T} {o : κ} {k : τ} {d now : T}

theorem expire_leased (h : t o = some (some (k, d))) (hd : now < d) :
    t.expire now o = some (some (k, d)) := by
  simp [expire, h, Option.filter, hd]

theorem expire_gone (h : t o = none) : t.expire now o = none := by
  simp [expire, h]

theorem expire_kept {token : Option τ} (h : t o = some (token.map (fun k => (k, d))))
    (hd : ¬(token ≠ none ∧ d ≤ now)) : t.expire now o = t o := by
  cases token with
  | none => simp [expire, h]
  | some k =>
    have hnow : now < d := not_le.mp fun hle => hd ⟨Option.some_ne_none k, hle⟩
    simp [expire, h, Option.filter, hnow]

theorem expire_freed {token : Option τ} (h : t o = some (token.map (fun k => (k, d))))
    (hd : token ≠ none ∧ d ≤ now) : t.expire now o = some none := by
  obtain ⟨k, rfl⟩ := Option.ne_none_iff_exists'.mp hd.1
  simp [expire, h, Option.filter, not_lt.mpr hd.2]

theorem expire_expire (t : LeaseTable κ τ T) (now : T) :
    (t.expire now).expire now = t.expire now := by
  funext o
  simp only [expire, Option.map_map]
  congr 1
  funext l
  cases l with
  | none => rfl
  | some p => by_cases hp : now < p.2 <;> simp [Option.filter, hp]

theorem expire_update [DecidableEq κ] (t : LeaseTable κ τ T) (now : T) (k : κ) :
    expire now (Function.update t k (t.expire now k)) = t.expire now := by
  funext o
  by_cases ho : o = k
  · subst ho
    have hk := congrFun (expire_expire t now) o
    simpa [expire] using hk
  · simp [expire, ho]

theorem foldl_expire [DecidableEq κ] {σ : Type} {table : σ → LeaseTable κ τ T} {f : σ → κ → σ}
    {P : σ → Prop}
    (hf : ∀ s k, P s → P (f s k) ∧
      table (f s k) = Function.update (table s) k ((table s).expire now k))
    (ks : List κ) {s : σ} (hs : P s) (hks : ∀ o ∉ ks, table s o = none) :
    P (ks.foldl f s) ∧ table (ks.foldl f s) = (table s).expire now := by
  suffices h : ∀ s, P s → P (ks.foldl f s) ∧ table (ks.foldl f s) =
      fun o => if o ∈ ks then (table s).expire now o else table s o by
    obtain ⟨hp, ht⟩ := h s hs
    refine ⟨hp, ht.trans (funext fun o => ?_)⟩
    split_ifs with ho
    · rfl
    · rw [expire_gone (hks o ho), hks o ho]
  clear hs hks
  induction ks with
  | nil => exact fun s hs => ⟨hs, by simp⟩
  | cons k ks ih =>
    intro s hs
    obtain ⟨h1, ht⟩ := hf s k hs
    obtain ⟨h2, ht'⟩ := ih (f s k) h1
    rw [List.foldl_cons]
    refine ⟨h2, ht'.trans (funext fun o => ?_)⟩
    rw [ht, expire_update]
    by_cases ho : o = k
    · subst ho
      simp
    · simp [ho]

end expiry

def leaseBefore [LinearOrder T] (d : T) : Event κ τ T → Prop
  | .lease now _ => now < d
  | _ => True

section moves

variable [DecidableEq κ] [DecidableEq τ] [LinearOrder T]

def Moves (s : State κ τ T) (e : Event κ τ T) (t' : LeaseTable κ τ T) : Prop :=
  match e with
  | .put o => o ∉ s.issued ∧ t' = Function.update s.table o (some none)
  | .settle o k => t' = s.table.settle o k
  | .release o k => t' = s.table.release o k
  | .lease now gs => Grants (s.table.expire now) gs t'
  | .other => t' = s.table

def Step (s : State κ τ T) (e : Event κ τ T) (s' : State κ τ T) : Prop :=
  s.issued ⊆ s'.issued ∧ Moves s e s'.table

inductive Run : State κ τ T → List (Event κ τ T) → State κ τ T → Prop where
  | nil (s : State κ τ T) : Run s [] s
  | cons {s s₁ s₂ : State κ τ T} {e : Event κ τ T} {es : List (Event κ τ T)} :
      Step s e s₁ → Run s₁ es s₂ → Run s (e :: es) s₂

section steps

variable {s s' s'' : State κ τ T} {e : Event κ τ T} {es : List (Event κ τ T)} {o : κ} {k : τ}
  {d : T}

theorem step_leased (hs : Step s e s') (h : s.table o = some (some (k, d)))
    (hd : leaseBefore d e) :
    s'.table o = some (some (k, d)) ∨ (e = .settle o k ∧ s'.table o = none) ∨
      e = .release o k := by
  obtain ⟨-, hm⟩ := hs
  cases e with
  | put o' =>
    obtain ⟨hfresh, heq⟩ := hm
    have hne : o ≠ o' := by
      rintro rfl
      exact hfresh (s.live_issued o (by simp [h]))
    rw [heq, Function.update_of_ne hne]
    exact Or.inl h
  | settle o' k' =>
    rw [show s'.table = s.table.settle o' k' from hm]
    by_cases ho : o = o'
    · subst ho
      by_cases hk : k = k'
      · subst hk
        exact Or.inr (Or.inl ⟨rfl, closeWith_self h⟩)
      · rw [settle, closeWith_token h hk]
        exact Or.inl h
    · rw [settle, closeWith_of_ne ho]
      exact Or.inl h
  | release o' k' =>
    rw [show s'.table = s.table.release o' k' from hm]
    by_cases ho : o = o'
    · subst ho
      by_cases hk : k = k'
      · subst hk
        exact Or.inr (Or.inr rfl)
      · rw [release, closeWith_token h hk]
        exact Or.inl h
    · rw [release, closeWith_of_ne ho]
      exact Or.inl h
  | lease now gs =>
    have hg : Grants (s.table.expire now) gs s'.table := hm
    have hl := expire_leased h hd
    have hnot : o ∉ gs.map Prod.fst := by
      intro hmem
      obtain ⟨g, hgm, rfl⟩ := List.mem_map.mp hmem
      rw [hg.free g hgm] at hl
      cases hl
    rw [hg.frame hnot]
    exact Or.inl hl
  | other =>
    rw [show s'.table = s.table from hm]
    exact Or.inl h

theorem step_gone (hs : Step s e s') (hi : o ∈ s.issued) (h : s.table o = none) :
    s'.table o = none := by
  obtain ⟨-, hm⟩ := hs
  cases e with
  | put o' =>
    obtain ⟨hfresh, heq⟩ := hm
    have hne : o ≠ o' := by
      rintro rfl
      exact hfresh hi
    rw [heq, Function.update_of_ne hne]
    exact h
  | settle o' k' =>
    rw [show s'.table = s.table.settle o' k' from hm]
    by_cases ho : o = o'
    · subst ho
      rw [settle, closeWith_gone h]
      exact h
    · rw [settle, closeWith_of_ne ho]
      exact h
  | release o' k' =>
    rw [show s'.table = s.table.release o' k' from hm]
    by_cases ho : o = o'
    · subst ho
      rw [release, closeWith_gone h]
      exact h
    · rw [release, closeWith_of_ne ho]
      exact h
  | lease now gs =>
    have hg : Grants (s.table.expire now) gs s'.table := hm
    have hl : s.table.expire now o = none := expire_gone h
    have hnot : o ∉ gs.map Prod.fst := by
      intro hmem
      obtain ⟨g, hgm, rfl⟩ := List.mem_map.mp hmem
      rw [hg.free g hgm] at hl
      cases hl
    rw [hg.frame hnot]
    exact hl
  | other =>
    rw [show s'.table = s.table from hm]
    exact h

end steps

section runs

variable {s s' s'' : State κ τ T} {es : List (Event κ τ T)} {o : κ} {k : τ} {d : T}

theorem run_gone (hr : Run s es s') (hi : o ∈ s.issued) (h : s.table o = none) :
    s'.table o = none := by
  induction hr with
  | nil => exact h
  | cons hs _ ih => exact ih (hs.1 hi) (step_gone hs hi h)

theorem run_leased (hr : Run s es s') (h : s.table o = some (some (k, d)))
    (hd : ∀ e ∈ es, leaseBefore d e) :
    s'.table o = some (some (k, d)) ∨ (.settle o k ∈ es ∧ s'.table o = none) ∨
      .release o k ∈ es := by
  induction hr with
  | nil => exact Or.inl h
  | @cons s s₁ s₂ e es hs hr ih =>
    have hi : o ∈ s.issued := s.live_issued o (by simp [h])
    rcases step_leased hs h (hd e List.mem_cons_self) with h1 | ⟨rfl, h1⟩ | rfl
    · rcases ih h1 (fun e' he' => hd e' (List.mem_cons_of_mem _ he')) with h2 | ⟨h2, h3⟩ | h2
      · exact Or.inl h2
      · exact Or.inr (Or.inl ⟨List.mem_cons_of_mem _ h2, h3⟩)
      · exact Or.inr (Or.inr (List.mem_cons_of_mem _ h2))
    · exact Or.inr (Or.inl ⟨List.mem_cons_self, run_gone hr (hs.1 hi) h1⟩)
    · exact Or.inr (Or.inr List.mem_cons_self)

theorem run_exclusive (hr : Run s es s') (h : s.table o = some (some (k, d)))
    (hd : ∀ e ∈ es, leaseBefore d e) {now : T} {gs : List (κ × τ × T)}
    (hs : Step s' (.lease now gs) s'') (hnow : now < d) (ho : o ∈ gs.map Prod.fst) :
    .release o k ∈ es := by
  have hfree : s'.table.expire now o = some none := by
    obtain ⟨g, hg, rfl⟩ := List.mem_map.mp ho
    exact Grants.free hs.2 g hg
  rcases run_leased hr h hd with h1 | ⟨-, h1⟩ | h1
  · rw [expire_leased h1 hnow] at hfree
    cases hfree
  · rw [expire_gone h1] at hfree
    cases hfree
  · exact h1

end runs

end moves

end LeaseTable
