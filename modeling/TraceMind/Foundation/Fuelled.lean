import Mathlib.Data.Nat.Basic

-- A computation cut off after some number of steps: `none` says that it was cut off.
def Fuelled (ε α : Type) := Option (Except ε α)

namespace Fuelled

variable {ε α β : Type}

def out : Fuelled ε α := none

def fail (e : ε) : Fuelled ε α := some (.error e)

def ret (a : α) : Fuelled ε α := some (.ok a)

def andThen (x : Fuelled ε α) (f : α → Fuelled ε β) : Fuelled ε β :=
  match x with
  | none => none
  | some (.error e) => fail e
  | some (.ok a) => f a

@[simp] theorem ret_andThen (a : α) (f : α → Fuelled ε β) :
    (ret a : Fuelled ε α).andThen f = f a := rfl

theorem andThen_eq_ret {x : Fuelled ε α} {f : α → Fuelled ε β} {b : β} :
    x.andThen f = ret b ↔ ∃ a, x = ret a ∧ f a = ret b := by
  rcases x with _ | e | a
  · exact iff_of_false (Option.some_ne_none _).symm (fun h => Option.some_ne_none _ h.choose_spec.1.symm)
  · exact iff_of_false (fun h => by cases h) (fun h => by cases h.choose_spec.1)
  · constructor
    · exact fun h => ⟨a, rfl, h⟩
    · rintro ⟨_, ⟨⟩, h⟩
      exact h

theorem andThen_ne_out {x : Fuelled ε α} {f : α → Fuelled ε β} (hx : x ≠ out)
    (hf : ∀ a, f a ≠ out) : x.andThen f ≠ out := by
  rcases x with _ | e | a
  · exact absurd rfl hx
  · exact Option.some_ne_none _
  · exact hf a

theorem andThen_ne_fail {x : Fuelled ε α} {f : α → Fuelled ε β} {e : ε} (hx : x ≠ fail e)
    (hf : ∀ a, f a ≠ fail e) : x.andThen f ≠ fail e := by
  rcases x with _ | e' | a
  · exact fun h => by cases h
  · intro h
    cases h
    exact hx rfl
  · exact hf a

theorem ret_inj {a b : α} : (ret a : Fuelled ε α) = ret b ↔ a = b :=
  ⟨fun h => by cases h; rfl, fun h => h ▸ rfl⟩

theorem fail_ne_ret {e : ε} {a : α} : (fail e : Fuelled ε α) ≠ ret a := fun h => by cases h

def Le (x y : Fuelled ε α) : Prop := x = out ∨ x = y

theorem Le.refl (x : Fuelled ε α) : Le x x := Or.inr rfl

theorem Le.trans {x y z : Fuelled ε α} (hxy : Le x y) (hyz : Le y z) : Le x z := by
  rcases hxy with rfl | rfl
  · exact Or.inl rfl
  · exact hyz

theorem Le.andThen {x y : Fuelled ε α} {f g : α → Fuelled ε β} (hxy : Le x y)
    (hfg : ∀ a, Le (f a) (g a)) : Le (x.andThen f) (y.andThen g) := by
  rcases hxy with rfl | rfl
  · exact Or.inl rfl
  · match x with
    | none => exact Or.inl rfl
    | some (.error e) => exact Le.refl _
    | some (.ok a) => exact hfg a

theorem Le.eq_of_done {x y : Fuelled ε α} (h : Le x y) (hx : x ≠ out) : x = y :=
  h.resolve_left hx

theorem le_of_succ {f : ℕ → Fuelled ε α} (hf : ∀ n, Le (f n) (f (n + 1))) {m n : ℕ}
    (h : m ≤ n) : Le (f m) (f n) := by
  induction h with
  | refl => exact Le.refl _
  | step _ ih => exact ih.trans (hf _)

theorem agree {f : ℕ → Fuelled ε α} (hf : ∀ n, Le (f n) (f (n + 1))) {m n : ℕ}
    (hm : f m ≠ out) (hn : f n ≠ out) : f m = f n := by
  rcases le_total m n with h | h
  · exact (le_of_succ hf h).eq_of_done hm
  · exact ((le_of_succ hf h).eq_of_done hn).symm

def Done (x : Fuelled ε α) (p : α → Prop) : Prop :=
  (∃ e, x = fail e) ∨ ∃ a, x = ret a ∧ p a

theorem Done.ne_out {x : Fuelled ε α} {p : α → Prop} (h : Done x p) : x ≠ out := by
  rcases h with ⟨e, rfl⟩ | ⟨a, rfl, -⟩ <;> exact Option.some_ne_none _

theorem Done.andThen {x : Fuelled ε α} {f : α → Fuelled ε β} {p : α → Prop} {q : β → Prop}
    (hx : Done x p) (hf : ∀ a, p a → Done (f a) q) : Done (x.andThen f) q := by
  rcases hx with ⟨e, rfl⟩ | ⟨a, rfl, ha⟩
  · exact Or.inl ⟨e, rfl⟩
  · exact hf a ha

theorem Done.mono {x : Fuelled ε α} {p q : α → Prop} (hx : Done x p) (h : ∀ a, p a → q a) :
    Done x q := by
  rcases hx with ⟨e, rfl⟩ | ⟨a, rfl, ha⟩
  · exact Or.inl ⟨e, rfl⟩
  · exact Or.inr ⟨a, rfl, h a ha⟩

def Returns (x : Fuelled ε α) (p : α → Prop) : Prop := ∀ a, x = ret a → p a

theorem Returns.of_out {p : α → Prop} : Returns (out : Fuelled ε α) p :=
  fun _ h => absurd h.symm (Option.some_ne_none _)

theorem Returns.of_fail {e : ε} {p : α → Prop} : Returns (fail e) p :=
  fun _ h => by cases h

theorem Returns.of_ret {a : α} {p : α → Prop} (h : p a) : Returns (ret a : Fuelled ε α) p :=
  fun _ hb => by
    cases hb
    exact h

theorem Returns.andThen {x : Fuelled ε α} {f : α → Fuelled ε β} {p : α → Prop} {q : β → Prop}
    (hx : Returns x p) (hf : ∀ a, p a → Returns (f a) q) : Returns (x.andThen f) q := by
  match x with
  | none => exact Returns.of_out
  | some (.error e) => exact Returns.of_fail
  | some (.ok a) => exact hf a (hx a rfl)

theorem Returns.mono {x : Fuelled ε α} {p q : α → Prop} (hx : Returns x p)
    (h : ∀ a, p a → q a) : Returns x q := fun a ha => h a (hx a ha)

end Fuelled
