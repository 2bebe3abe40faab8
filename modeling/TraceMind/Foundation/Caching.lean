import Mathlib.Order.Basic
import Mathlib.Data.Nat.Basic
import Mathlib.Data.List.Nodup

-- Executions are numbered in the order in which they begin. What they give is kept under keys, and
-- a reader who comes when `n` of them have begun wants nothing that is older.
namespace Freshness

variable {κ : Type}

structure Sound (n : ℕ) (marks held : κ → ℕ → Prop) : Prop where
  known : ∀ k m, marks k m → m ≤ n
  begun : ∀ k e, held k e → e < n
  fresh : ∀ k m e, marks k m → held k e → m ≤ e

variable {n : ℕ} {marks marks' held held' : κ → ℕ → Prop}

theorem Sound.none : Sound n (fun (_ : κ) _ => False) (fun _ _ => False) :=
  ⟨fun _ _ h => h.elim, fun _ _ h => h.elim, fun _ _ _ h => h.elim⟩

theorem Sound.arrive (h : Sound n marks held) {k : κ} (hfree : ∀ e, ¬held k e)
    (hmarks : ∀ j m, marks' j m → marks j m ∨ j = k ∧ m = n) : Sound n marks' held := by
  refine ⟨fun j m hm => ?_, h.begun, fun j m e hm he => ?_⟩
  · rcases hmarks j m hm with hm | ⟨-, rfl⟩
    · exact h.known j m hm
    · exact le_refl m
  · rcases hmarks j m hm with hm | ⟨rfl, -⟩
    · exact h.fresh j m e hm he
    · exact absurd he (hfree e)

theorem Sound.begin (h : Sound n marks held) (held' : κ → ℕ → Prop)
    (hheld : ∀ k e, held' k e → held k e ∨ e = n) : Sound (n + 1) marks held' := by
  refine ⟨fun k m hm => Nat.le_succ_of_le (h.known k m hm), fun k e he => ?_,
    fun k m e hm he => ?_⟩
  · rcases hheld k e he with he | rfl
    · exact Nat.lt_succ_of_lt (h.begun k e he)
    · exact Nat.lt_succ_self e
  · rcases hheld k e he with he | rfl
    · exact h.fresh k m e hm he
    · exact h.known k m hm

theorem Sound.mono (h : Sound n marks held) (hmarks : ∀ k m, marks' k m → marks k m)
    (hheld : ∀ k e, held' k e → held k e) : Sound n marks' held' :=
  ⟨fun k m hm => h.known k m (hmarks k m hm), fun k e he => h.begun k e (hheld k e he),
    fun k m e hm he => h.fresh k m e (hmarks k m hm) (hheld k e he)⟩

theorem getElem?_of_isPrefix {α : Type} {xs ys : List α} (h : xs <+: ys) {i : ℕ} {x : α}
    (hx : xs[i]? = some x) : ys[i]? = some x := by
  obtain ⟨zs, rfl⟩ := h
  exact List.getElem?_append_left (List.getElem?_eq_some_iff.mp hx).1 ▸ hx

end Freshness

-- A cache in front of a source, and the source's replies so far with what they were asked for.
structure ReadThrough (ρ κ τ α : Type) where
  store : κ → Option τ
  replies : List (ρ × α)

namespace ReadThrough

variable {ρ κ τ α : Type}

def empty : ReadThrough ρ κ τ α := ⟨fun _ => none, []⟩

-- The cache holds the replies of the source and nothing else, one under each key.
structure Sound (key : ρ → κ) (encode : α → τ) (c : ReadThrough ρ κ τ α) : Prop where
  stored : ∀ k t, c.store k = some t → ∃ e ∈ c.replies, key e.1 = k ∧ encode e.2 = t
  kept : ∀ e ∈ c.replies, c.store (key e.1) = some (encode e.2)
  single : (c.replies.map (fun e => key e.1)).Nodup

section reading

variable {key : ρ → κ} {encode : α → τ} {c : ReadThrough ρ κ τ α} {r : ρ} {t : τ}

theorem sound_empty : Sound key encode (empty : ReadThrough ρ κ τ α) where
  stored k t h := by cases h
  kept e h := by cases h
  single := List.nodup_nil

theorem Sound.fresh (h : Sound key encode c) (hnone : c.store (key r) = none) :
    ∀ e ∈ c.replies, key e.1 ≠ key r := by
  intro e he hkey
  have hkept := h.kept e he
  rw [hkey, hnone] at hkept
  cases hkept

theorem Sound.eq_of_key (h : Sound key encode c) {e f : ρ × α} (he : e ∈ c.replies)
    (hf : f ∈ c.replies) (hkey : key e.1 = key f.1) : e = f :=
  List.inj_on_of_nodup_map h.single he hf hkey

theorem Sound.hit (h : Sound key encode c) (ht : c.store (key r) = some t) :
    (∃ a, (r, a) ∈ c.replies ∧ encode a = t) ↔ ∀ e ∈ c.replies, key e.1 = key r → e.1 = r := by
  obtain ⟨e, he, hkey, henc⟩ := h.stored _ t ht
  constructor
  · rintro ⟨a, ha, -⟩ f hf hfkey
    rw [h.eq_of_key hf ha hfkey]
  · intro hsame
    obtain rfl := hsame e he hkey
    exact ⟨e.2, he, henc⟩

end reading

section writing

variable [DecidableEq κ]

def keep (key : ρ → κ) (encode : α → τ) (r : ρ) (a : α) (c : ReadThrough ρ κ τ α) :
    ReadThrough ρ κ τ α :=
  ⟨Function.update c.store (key r) (some (encode a)), c.replies ++ [(r, a)]⟩

variable {key : ρ → κ} {encode : α → τ} {c : ReadThrough ρ κ τ α} {r : ρ} {a : α} {k : κ}

theorem keep_store_self : (c.keep key encode r a).store (key r) = some (encode a) :=
  Function.update_self ..

theorem keep_store_of_ne (h : k ≠ key r) : (c.keep key encode r a).store k = c.store k :=
  Function.update_of_ne h ..

theorem mem_keep {e : ρ × α} :
    e ∈ (c.keep key encode r a).replies ↔ e ∈ c.replies ∨ e = (r, a) := by
  rw [keep, List.mem_append, List.mem_singleton]

theorem Sound.keep (h : Sound key encode c) (hnone : c.store (key r) = none) (a : α) :
    Sound key encode (c.keep key encode r a) where
  stored k t hk := by
    by_cases hkey : k = key r
    · subst hkey
      rw [keep_store_self] at hk
      exact ⟨(r, a), mem_keep.mpr (.inr rfl), rfl, Option.some.inj hk⟩
    · rw [keep_store_of_ne hkey] at hk
      obtain ⟨e, he, hboth⟩ := h.stored k t hk
      exact ⟨e, mem_keep.mpr (.inl he), hboth⟩
  kept e he := by
    rcases mem_keep.mp he with he | rfl
    · rw [keep_store_of_ne (h.fresh hnone e he)]
      exact h.kept e he
    · exact keep_store_self
  single := by
    rw [ReadThrough.keep, List.map_append, List.nodup_append]
    refine ⟨h.single, List.nodup_singleton _, fun k hk l hl => ?_⟩
    obtain ⟨e, he, rfl⟩ := List.mem_map.mp hk
    rw [List.mem_singleton.mp hl]
    exact h.fresh hnone e he

end writing

end ReadThrough
