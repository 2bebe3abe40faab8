import Mathlib.Data.Set.Basic
import Mathlib.Tactic.Tauto

namespace Branching

variable {σ τ : Type}

-- The positions of a maximal path form an initial segment of ℕ: all of ℕ for an infinite
-- path, and a finite segment only when the last state has no successor.
structure MaxPath (R : σ → σ → Prop) (s : σ) where
  seq : ℕ → σ
  dom : Set ℕ
  head : seq 0 = s
  zero_mem : 0 ∈ dom
  pred_mem : ∀ i, i + 1 ∈ dom → i ∈ dom
  step : ∀ i, i + 1 ∈ dom → R (seq i) (seq (i + 1))
  stuck : ∀ i, i ∈ dom → i + 1 ∉ dom → ∀ t, ¬ R (seq i) t

namespace MaxPath

variable {R : σ → σ → Prop} {s t : σ}

theorem mem_of_le (π : MaxPath R s) {i j : ℕ} (hij : i ≤ j) (hj : j ∈ π.dom) : i ∈ π.dom := by
  induction j with
  | zero => rwa [Nat.le_zero.mp hij]
  | succ j ih =>
    rcases Nat.lt_or_ge j i with h | h
    · rwa [le_antisymm hij h]
    · exact ih h (π.pred_mem j hj)

def cons (h : R s t) (π : MaxPath R t) : MaxPath R s where
  seq := fun i => match i with | 0 => s | i + 1 => π.seq i
  dom := {i | match i with | 0 => True | i + 1 => i ∈ π.dom}
  head := rfl
  zero_mem := trivial
  pred_mem := by
    intro i hi
    cases i with
    | zero => trivial
    | succ i => exact π.pred_mem i hi
  step := by
    intro i hi
    cases i with
    | zero =>
      change R s (π.seq 0)
      rw [π.head]
      exact h
    | succ i => exact π.step i hi
  stuck := by
    intro i hi hn u hu
    cases i with
    | zero => exact hn π.zero_mem
    | succ i => exact π.stuck i hi hn u hu

def tail (π : MaxPath R s) (h : 1 ∈ π.dom) : MaxPath R (π.seq 1) where
  seq := fun i => π.seq (i + 1)
  dom := {i | i + 1 ∈ π.dom}
  head := rfl
  zero_mem := h
  pred_mem := fun i hi => π.pred_mem (i + 1) hi
  step := fun i hi => π.step (i + 1) hi
  stuck := fun i hi hn => π.stuck (i + 1) hi hn

theorem first_step (π : MaxPath R s) (h : 1 ∈ π.dom) : R s (π.seq 1) := by
  have hs := π.step 0 h
  rwa [π.head] at hs

theorem one_mem_of_succ (π : MaxPath R s) (h : R s t) : 1 ∈ π.dom := by
  by_contra hn
  refine π.stuck 0 π.zero_mem hn t ?_
  rw [π.head]
  exact h

end MaxPath

section existence

variable (R : σ → σ → Prop)

open Classical in
noncomputable def follow (keep : σ → Prop) (s : σ) : ℕ → σ
  | 0 => s
  | i + 1 =>
    if h : ∃ t, R (follow keep s i) t ∧ keep t then h.choose else follow keep s i

theorem exists_maxPath_within (keep : σ → Prop)
    (hstep : ∀ s, keep s → (∀ t, ¬ R s t) ∨ ∃ t, R s t ∧ keep t) (s : σ) (hs : keep s) :
    ∃ π : MaxPath R s, ∀ i ∈ π.dom, keep (π.seq i) := by
  let live (i : ℕ) : Prop := ∃ t, R (follow R keep s i) t ∧ keep t
  have hnext (i : ℕ) (h : live i) :
      R (follow R keep s i) (follow R keep s (i + 1)) ∧ keep (follow R keep s (i + 1)) := by
    have e : follow R keep s (i + 1) = h.choose := by
      rw [follow]
      exact dif_pos h
    rw [e]
    exact h.choose_spec
  have hkeep (i : ℕ) (h : ∀ j < i, live j) : keep (follow R keep s i) := by
    cases i with
    | zero => exact hs
    | succ i => exact (hnext i (h i (Nat.lt_succ_self i))).2
  refine ⟨{ seq := follow R keep s
            dom := {i | ∀ j < i, live j}
            head := rfl
            zero_mem := fun j hj => absurd hj (Nat.not_lt_zero j)
            pred_mem := fun i hi j hj => hi j (Nat.lt_succ_of_lt hj)
            step := fun i hi => (hnext i (hi i (Nat.lt_succ_self i))).1
            stuck := ?_ }, fun i hi => hkeep i hi⟩
  intro i hi hn
  rcases hstep _ (hkeep i hi) with h | h
  · exact h
  · refine absurd (fun j hj => ?_) hn
    rcases Nat.lt_succ_iff_lt_or_eq.mp hj with hj | rfl
    · exact hi j hj
    · exact h

theorem exists_maxPath (s : σ) : Nonempty (MaxPath R s) := by
  obtain ⟨π, -⟩ := exists_maxPath_within R (fun _ => True) (by
    intro s _
    by_cases h : ∃ t, R s t
    · obtain ⟨t, ht⟩ := h
      exact Or.inr ⟨t, ht, trivial⟩
    · exact Or.inl (fun t ht => h ⟨t, ht⟩)) s trivial
  exact ⟨π⟩

end existence

section operators

variable (R : σ → σ → Prop)

def EX (p : σ → Prop) (s : σ) : Prop := ∃ π : MaxPath R s, 1 ∈ π.dom ∧ p (π.seq 1)
def EF (p : σ → Prop) (s : σ) : Prop := ∃ π : MaxPath R s, ∃ i ∈ π.dom, p (π.seq i)
def AF (p : σ → Prop) (s : σ) : Prop := ∀ π : MaxPath R s, ∃ i ∈ π.dom, p (π.seq i)
def EG (p : σ → Prop) (s : σ) : Prop := ∃ π : MaxPath R s, ∀ i ∈ π.dom, p (π.seq i)
def AG (p : σ → Prop) (s : σ) : Prop := ∀ π : MaxPath R s, ∀ i ∈ π.dom, p (π.seq i)
def EU (p q : σ → Prop) (s : σ) : Prop :=
  ∃ π : MaxPath R s, ∃ i ∈ π.dom, q (π.seq i) ∧ ∀ j < i, p (π.seq j)
def AU (p q : σ → Prop) (s : σ) : Prop :=
  ∀ π : MaxPath R s, ∃ i ∈ π.dom, q (π.seq i) ∧ ∀ j < i, p (π.seq j)

inductive Can (p q : σ → Prop) : σ → Prop
  | now {s : σ} : q s → Can p q s
  | next {s t : σ} : p s → R s t → Can p q t → Can p q s

inductive Must (p q : σ → Prop) : σ → Prop
  | now {s : σ} : q s → Must p q s
  | next {s : σ} : p s → (∃ t, R s t) → (∀ t, R s t → Must p q t) → Must p q s

variable {R} {p q : σ → Prop} {s : σ}

theorem EX_iff : EX R p s ↔ ∃ t, R s t ∧ p t := by
  constructor
  · rintro ⟨π, h, hp⟩
    exact ⟨π.seq 1, π.first_step h, hp⟩
  · rintro ⟨t, ht, hp⟩
    obtain ⟨π⟩ := exists_maxPath R t
    refine ⟨π.cons ht, π.zero_mem, ?_⟩
    change p (π.seq 0)
    rwa [π.head]

theorem EU_iff_can : EU R p q s ↔ Can R p q s := by
  constructor
  · rintro ⟨π, i, hi, hq, hp⟩
    induction i generalizing s with
    | zero =>
      rw [π.head] at hq
      exact Can.now hq
    | succ i ih =>
      have h1 : 1 ∈ π.dom := π.mem_of_le (Nat.succ_le_succ (Nat.zero_le i)) hi
      have hs := hp 0 (Nat.succ_pos i)
      rw [π.head] at hs
      exact Can.next hs (π.first_step h1)
        (ih (π.tail h1) hi hq (fun j hj => hp (j + 1) (Nat.succ_lt_succ hj)))
  · intro h
    induction h with
    | @now s hq =>
      obtain ⟨π⟩ := exists_maxPath R s
      exact ⟨π, 0, π.zero_mem, by rwa [π.head], fun j hj => absurd hj (Nat.not_lt_zero j)⟩
    | @next s t hp hst _ ih =>
      obtain ⟨π, i, hi, hq, hpi⟩ := ih
      refine ⟨π.cons hst, i + 1, hi, hq, fun j hj => ?_⟩
      cases j with
      | zero => exact hp
      | succ j => exact hpi j (Nat.lt_of_succ_lt_succ hj)

theorem AU_of_must (h : Must R p q s) : AU R p q s := by
  induction h with
  | now hq =>
    intro π
    exact ⟨0, π.zero_mem, by rwa [π.head], fun j hj => absurd hj (Nat.not_lt_zero j)⟩
  | next hp hex _ ih =>
    intro π
    obtain ⟨t, ht⟩ := hex
    have h1 := π.one_mem_of_succ ht
    obtain ⟨i, hi, hq, hpi⟩ := ih _ (π.first_step h1) (π.tail h1)
    refine ⟨i + 1, hi, hq, fun j hj => ?_⟩
    cases j with
    | zero => rwa [π.head]
    | succ j => exact hpi j (Nat.lt_of_succ_lt_succ hj)

theorem AU_step (h : AU R p q s) (hq : ¬ q s) {t : σ} (ht : R s t) : p s ∧ AU R p q t := by
  have split (π : MaxPath R t) :
      p s ∧ ∃ i ∈ π.dom, q (π.seq i) ∧ ∀ j < i, p (π.seq j) := by
    obtain ⟨i, hi, hqi, hpi⟩ := h (π.cons ht)
    cases i with
    | zero => exact absurd hqi hq
    | succ i =>
      exact ⟨hpi 0 (Nat.succ_pos i), i, hi, hqi, fun j hj => hpi (j + 1) (Nat.succ_lt_succ hj)⟩
  obtain ⟨π⟩ := exists_maxPath R t
  exact ⟨(split π).1, fun π => (split π).2⟩

theorem AU_iff_must : AU R p q s ↔ Must R p q s := by
  refine ⟨fun h => ?_, AU_of_must⟩
  by_contra hm
  have hstep (s : σ) (hs : AU R p q s ∧ ¬ Must R p q s) :
      (∀ t, ¬ R s t) ∨ ∃ t, R s t ∧ (AU R p q t ∧ ¬ Must R p q t) := by
    have hq : ¬ q s := fun hq => hs.2 (Must.now hq)
    by_cases hex : ∃ t, R s t
    · obtain ⟨t, ht⟩ := hex
      have hp : p s := (AU_step hs.1 hq ht).1
      by_contra hnone
      push Not at hnone
      refine hs.2 (Must.next hp ⟨t, ht⟩ (fun u hu => ?_))
      exact hnone.2 u hu (AU_step hs.1 hq hu).2
    · exact Or.inl (fun t ht => hex ⟨t, ht⟩)
  obtain ⟨π, hπ⟩ := exists_maxPath_within R _ hstep s ⟨h, hm⟩
  obtain ⟨i, hi, hq, -⟩ := h π
  exact (hπ i hi).2 (Must.now hq)

theorem EF_iff_EU : EF R p s ↔ EU R (fun _ => True) p s := by
  simp [EF, EU]

theorem AF_iff_AU : AF R p s ↔ AU R (fun _ => True) p s := by
  simp [AF, AU]

theorem EG_iff_not_AF : EG R p s ↔ ¬ AF R (fun t => ¬ p t) s := by
  simp [EG, AF]

theorem AG_iff_not_EF : AG R p s ↔ ¬ EF R (fun t => ¬ p t) s := by
  simp [AG, EF]

theorem can_iff_reach :
    Can R (fun _ => True) p s ↔ ∃ t, Relation.ReflTransGen R s t ∧ p t := by
  constructor
  · intro h
    induction h with
    | now hq => exact ⟨_, .refl, hq⟩
    | next _ hst _ ih =>
      obtain ⟨u, hu, hq⟩ := ih
      exact ⟨u, .head hst hu, hq⟩
  · rintro ⟨t, ht, hp⟩
    induction ht using Relation.ReflTransGen.head_induction_on with
    | refl => exact Can.now hp
    | head hst _ ih => exact Can.next trivial hst ih

theorem EF_iff_reach : EF R p s ↔ ∃ t, Relation.ReflTransGen R s t ∧ p t := by
  rw [EF_iff_EU, EU_iff_can, can_iff_reach]

theorem AG_iff_reach : AG R p s ↔ ∀ t, Relation.ReflTransGen R s t → p t := by
  rw [AG_iff_not_EF, EF_iff_reach]
  push Not
  rfl

end operators

section bisimulation

structure Bisim (R : σ → σ → Prop) (S : τ → τ → Prop) (Z : σ → τ → Prop) : Prop where
  forth : ∀ {a b a'}, Z a b → R a a' → ∃ b', S b b' ∧ Z a' b'
  back : ∀ {a b b'}, Z a b → S b b' → ∃ a', R a a' ∧ Z a' b'

variable {R : σ → σ → Prop} {S : τ → τ → Prop} {Z : σ → τ → Prop}

theorem Bisim.symm (hZ : Bisim R S Z) : Bisim S R (fun b a => Z a b) :=
  ⟨fun h hs => hZ.back h hs, fun h hr => hZ.forth h hr⟩

theorem Bisim.reach (hZ : Bisim R S Z) {a a' : σ} {b : τ} (h : Z a b)
    (hr : Relation.ReflTransGen R a a') : ∃ b', Relation.ReflTransGen S b b' ∧ Z a' b' := by
  induction hr with
  | refl => exact ⟨b, .refl, h⟩
  | tail _ hstep ih =>
    obtain ⟨b', hb, hz⟩ := ih
    obtain ⟨b'', hs, hz'⟩ := hZ.forth hz hstep
    exact ⟨b'', hb.tail hs, hz'⟩

def Agree (Z : σ → τ → Prop) (p : σ → Prop) (p' : τ → Prop) : Prop :=
  ∀ a b, Z a b → (p a ↔ p' b)

theorem Agree.symm {p : σ → Prop} {p' : τ → Prop} (h : Agree Z p p') :
    Agree (fun b a => Z a b) p' p :=
  fun b a hz => (h a b hz).symm

theorem Agree.not {p : σ → Prop} {p' : τ → Prop} (h : Agree Z p p') :
    Agree Z (fun a => ¬ p a) (fun b => ¬ p' b) :=
  fun a b hz => not_congr (h a b hz)

variable {p q : σ → Prop} {p' q' : τ → Prop}

theorem Bisim.can_forth (hZ : Bisim R S Z) (hp : Agree Z p p') (hq : Agree Z q q')
    {a : σ} (h : Can R p q a) : ∀ b, Z a b → Can S p' q' b := by
  induction h with
  | now hqa => exact fun b hz => Can.now ((hq _ b hz).mp hqa)
  | next hpa hr _ ih =>
    intro b hz
    obtain ⟨b', hs, hz'⟩ := hZ.forth hz hr
    exact Can.next ((hp _ b hz).mp hpa) hs (ih b' hz')

theorem Bisim.must_forth (hZ : Bisim R S Z) (hp : Agree Z p p') (hq : Agree Z q q')
    {a : σ} (h : Must R p q a) : ∀ b, Z a b → Must S p' q' b := by
  induction h with
  | now hqa => exact fun b hz => Must.now ((hq _ b hz).mp hqa)
  | next hpa hex _ ih =>
    intro b hz
    obtain ⟨t, ht⟩ := hex
    obtain ⟨b', hs, -⟩ := hZ.forth hz ht
    refine Must.next ((hp _ b hz).mp hpa) ⟨b', hs⟩ (fun c hc => ?_)
    obtain ⟨a', ha, hz'⟩ := hZ.back hz hc
    exact ih a' ha c hz'

theorem Bisim.EX_agree (hZ : Bisim R S Z) (hp : Agree Z p p') : Agree Z (EX R p) (EX S p') := by
  intro a b hz
  rw [EX_iff, EX_iff]
  constructor
  · rintro ⟨t, ht, hpt⟩
    obtain ⟨b', hs, hz'⟩ := hZ.forth hz ht
    exact ⟨b', hs, (hp t b' hz').mp hpt⟩
  · rintro ⟨t, ht, hpt⟩
    obtain ⟨a', hr, hz'⟩ := hZ.back hz ht
    exact ⟨a', hr, (hp a' t hz').mpr hpt⟩

theorem Bisim.EU_agree (hZ : Bisim R S Z) (hp : Agree Z p p') (hq : Agree Z q q') :
    Agree Z (EU R p q) (EU S p' q') := by
  intro a b hz
  rw [EU_iff_can, EU_iff_can]
  exact ⟨fun h => hZ.can_forth hp hq h b hz, fun h => hZ.symm.can_forth hp.symm hq.symm h a hz⟩

theorem Bisim.AU_agree (hZ : Bisim R S Z) (hp : Agree Z p p') (hq : Agree Z q q') :
    Agree Z (AU R p q) (AU S p' q') := by
  intro a b hz
  rw [AU_iff_must, AU_iff_must]
  exact ⟨fun h => hZ.must_forth hp hq h b hz, fun h => hZ.symm.must_forth hp.symm hq.symm h a hz⟩

theorem Bisim.EF_agree (hZ : Bisim R S Z) (hp : Agree Z p p') : Agree Z (EF R p) (EF S p') := by
  intro a b hz
  rw [EF_iff_EU, EF_iff_EU]
  exact hZ.EU_agree (fun _ _ _ => Iff.rfl) hp a b hz

theorem Bisim.AF_agree (hZ : Bisim R S Z) (hp : Agree Z p p') : Agree Z (AF R p) (AF S p') := by
  intro a b hz
  rw [AF_iff_AU, AF_iff_AU]
  exact hZ.AU_agree (fun _ _ _ => Iff.rfl) hp a b hz

theorem Bisim.EG_agree (hZ : Bisim R S Z) (hp : Agree Z p p') : Agree Z (EG R p) (EG S p') := by
  intro a b hz
  rw [EG_iff_not_AF, EG_iff_not_AF]
  exact not_congr (hZ.AF_agree hp.not a b hz)

theorem Bisim.AG_agree (hZ : Bisim R S Z) (hp : Agree Z p p') : Agree Z (AG R p) (AG S p') := by
  intro a b hz
  rw [AG_iff_not_EF, AG_iff_not_EF]
  exact not_congr (hZ.EF_agree hp.not a b hz)

end bisimulation

section extension

-- On `D`, `S` has the steps of `R`, and no others where `R` has one.
structure Extends (R S : σ → σ → Prop) (D : σ → Prop) : Prop where
  closed : ∀ {s t}, D s → R s t → D t
  sub : ∀ {s t}, D s → R s t → S s t
  same : ∀ {s t u}, D s → R s t → S s u → R s u

variable {R S : σ → σ → Prop} {D p q p' q' : σ → Prop} {s : σ}

theorem Extends.can (hE : Extends R S D) (hp : ∀ t, D t → p t → p' t)
    (hq : ∀ t, D t → q t → q' t) (hs : D s) (h : Can R p q s) : Can S p' q' s := by
  induction h with
  | now hqs => exact Can.now (hq _ hs hqs)
  | next hps hr _ ih => exact Can.next (hp _ hs hps) (hE.sub hs hr) (ih (hE.closed hs hr))

theorem Extends.must (hE : Extends R S D) (hp : ∀ t, D t → p t → p' t)
    (hq : ∀ t, D t → q t → q' t) (hs : D s) (h : Must R p q s) : Must S p' q' s := by
  induction h with
  | now hqs => exact Must.now (hq _ hs hqs)
  | next hps hex _ ih =>
    obtain ⟨t, ht⟩ := hex
    refine Must.next (hp _ hs hps) ⟨t, hE.sub hs ht⟩ (fun u hu => ?_)
    have hru := hE.same hs ht hu
    exact ih u hru (hE.closed hs hru)

theorem Extends.EU (hE : Extends R S D) (hp : ∀ t, D t → p t → p' t)
    (hq : ∀ t, D t → q t → q' t) (hs : D s) (h : EU R p q s) : EU S p' q' s :=
  EU_iff_can.mpr (hE.can hp hq hs (EU_iff_can.mp h))

theorem Extends.AU (hE : Extends R S D) (hp : ∀ t, D t → p t → p' t)
    (hq : ∀ t, D t → q t → q' t) (hs : D s) (h : AU R p q s) : AU S p' q' s :=
  AU_iff_must.mpr (hE.must hp hq hs (AU_iff_must.mp h))

end extension

end Branching
