import Mathlib.Data.List.Infix

-- A number as bytes of seven bits each, the lowest first; all but the last have their high bit set.
namespace Varint

def encode (n : ℕ) : List UInt8 :=
  if n < 128 then [n.toUInt8] else (n % 128 + 128).toUInt8 :: encode (n / 128)
termination_by n
decreasing_by omega

def decode : List UInt8 → Option (ℕ × List UInt8)
  | [] => none
  | b :: bs =>
    if b.toNat < 128 then some (b.toNat, bs)
    else (decode bs).map (fun x => (b.toNat - 128 + 128 * x.1, x.2))

variable {n : ℕ} {bs rest more : List UInt8}

theorem toNat_toUInt8 (h : n < 256) : n.toUInt8.toNat = n := by
  rw [Nat.toUInt8, UInt8.toNat_ofNat']
  exact Nat.mod_eq_of_lt h

theorem decode_encode (n : ℕ) (rest : List UInt8) : decode (encode n ++ rest) = some (n, rest) := by
  induction n using Nat.strongRecOn with
  | ind n ih =>
    rw [encode]
    split_ifs with hsmall
    · have hbyte := toNat_toUInt8 (Nat.lt_trans hsmall (by decide : 128 < 256))
      rw [List.singleton_append, decode, hbyte, if_pos hsmall]
    · have hbyte : (n % 128 + 128).toUInt8.toNat = n % 128 + 128 := toNat_toUInt8 (by omega)
      rw [List.cons_append, decode, hbyte, if_neg (by omega), ih (n / 128) (by omega),
        Option.map_some]
      congr 2
      omega

theorem decode_split (h : decode bs = some (n, rest)) :
    ∃ p, bs = p ++ rest ∧ p ≠ [] ∧ ∀ more, decode (p ++ more) = some (n, more) := by
  induction bs generalizing n with
  | nil => cases h
  | cons b bs ih =>
    rw [decode] at h
    split_ifs at h with hb
    · cases h
      exact ⟨[b], rfl, List.cons_ne_nil _ _, fun more => by
        rw [List.singleton_append, decode, if_pos hb]⟩
    · obtain ⟨⟨m, r⟩, hm, heq⟩ := Option.map_eq_some_iff.mp h
      cases heq
      obtain ⟨p, rfl, -, hp⟩ := ih hm
      exact ⟨b :: p, rfl, List.cons_ne_nil _ _, fun more => by
        rw [List.cons_append, decode, if_neg hb, hp, Option.map_some]⟩

theorem decode_append (h : decode bs = some (n, rest)) (more : List UInt8) :
    decode (bs ++ more) = some (n, rest ++ more) := by
  obtain ⟨p, rfl, -, hp⟩ := decode_split h
  rw [List.append_assoc, hp]

end Varint

-- Data that begins with frames, one after the other, each of which holds a body.
namespace Framing

variable {α β : Type} (Frame : List α → β → Prop)

inductive Begins : List α → List β → List α → Prop where
  | nil (rest : List α) : Begins rest [] rest
  | cons {f data rest : List α} {b : β} {bs : List β} :
      Frame f b → Begins data bs rest → Begins (f ++ data) (b :: bs) rest

structure Longest (data : List α) (bs : List β) (rest : List α) : Prop where
  begins : Begins Frame data bs rest
  shortest : ∀ bs' rest', Begins Frame data bs' rest' → rest.length ≤ rest'.length

structure Delimited : Prop where
  ne_nil : ∀ f b, Frame f b → f ≠ []
  unique : ∀ f f' b b' r r', Frame f b → Frame f' b' → f ++ r = f' ++ r' → f = f' ∧ b = b'

def Unframed (data : List α) : Prop := ∀ f b r, Frame f b → data ≠ f ++ r

variable {Frame} {f data rest : List α} {b : β} {bs : List β}

theorem longest_unframed (h : Unframed Frame data) : Longest Frame data [] data := by
  refine ⟨.nil data, fun bs' rest' h' => ?_⟩
  cases h' with
  | nil => exact le_refl _
  | cons hf _ => exact absurd rfl (h _ _ _ hf)

theorem Longest.of_unframed (h : Longest Frame data bs rest) (hdata : Unframed Frame data) :
    bs = [] ∧ rest = data := by
  cases h.begins with
  | nil => exact ⟨rfl, rfl⟩
  | cons hf _ => exact absurd rfl (hdata _ _ _ hf)

section delimited

variable (hd : Delimited Frame) (hf : Frame f b)
include hd hf

theorem Begins.of_frame {bs' : List β} (h : Begins Frame (f ++ data) bs' rest) :
    bs' = [] ∧ rest = f ++ data ∨ ∃ bs, bs' = b :: bs ∧ Begins Frame data bs rest := by
  generalize heq : f ++ data = whole at h
  cases h with
  | nil => exact Or.inl ⟨rfl, rfl⟩
  | cons hf' h =>
    obtain ⟨rfl, rfl⟩ := hd.unique _ _ _ _ _ _ hf hf' heq
    obtain rfl := List.append_cancel_left heq
    exact Or.inr ⟨_, rfl, h⟩

theorem Longest.cons (h : Longest Frame data bs rest) :
    Longest Frame (f ++ data) (b :: bs) rest := by
  refine ⟨.cons hf h.begins, fun bs' rest' h' => ?_⟩
  rcases h'.of_frame hd hf with ⟨-, rfl⟩ | ⟨bs'', -, h''⟩
  · have hle := h.shortest [] data (.nil data)
    rw [List.length_append]
    omega
  · exact h.shortest bs'' rest' h''

theorem Longest.of_cons (h : Longest Frame (f ++ data) bs rest) :
    ∃ bs', bs = b :: bs' ∧ Longest Frame data bs' rest := by
  rcases h.begins.of_frame hd hf with ⟨-, rfl⟩ | ⟨bs', rfl, h'⟩
  · have hle := h.shortest [b] data (.cons hf (.nil data))
    have hpos := List.length_pos_of_ne_nil (hd.ne_nil f b hf)
    rw [List.length_append] at hle
    omega
  · exact ⟨bs', rfl, h', fun bs'' rest'' h'' => h.shortest _ _ (.cons hf h'')⟩

end delimited

end Framing
