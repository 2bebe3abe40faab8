import TraceMind.Basic
import Mathlib.Logic.Equiv.List
import Mathlib.Data.List.DropRight
import TraceMind.Foundation.JsonSpec
import TraceMind.Foundation.OrderedDict

namespace TraceMind.Artifacts

def carriageReturn : Char := Char.ofNat 13

def newline : Char := Char.ofNat 10

def replaceCrlf : Str → Str
  | [] => []
  | [c] => [c]
  | c :: d :: cs =>
    if c = carriageReturn ∧ d = newline then newline :: replaceCrlf cs
    else c :: replaceCrlf (d :: cs)

def replaceCr (s : Str) : Str := s.map (fun c => if c = carriageReturn then newline else c)

def normalizeString (s : Str) : Str := strip (replaceCr (replaceCrlf s))

def textLe : Str → Str → Bool
  | [], _ => true
  | _ :: _, [] => false
  | a :: as, b :: bs =>
    if a.toNat < b.toNat then true else if b.toNat < a.toNat then false else textLe as bs

def insertField {α : Type} (f : Str × α) : List (Str × α) → List (Str × α)
  | [] => [f]
  | g :: gs => if textLe f.1 g.1 then f :: g :: gs else g :: insertField f gs

def sortFields {α : Type} : List (Str × α) → List (Str × α)
  | [] => []
  | f :: fs => insertField f (sortFields fs)

def sortTexts (ts : List Str) : List Str := (sortFields (ts.map (fun t => (t, ())))).map Prod.fst

mutual

def normalizeValue : Json → Json
  | .str s => .str (normalizeString s)
  | .arr vs => .arr (normalizeItems vs)
  | .obj fs => .obj (sortFields (normalizeFields fs))
  | v => v

def normalizeItems : List Json → List Json
  | [] => []
  | v :: vs => normalizeValue v :: normalizeItems vs

def normalizeFields : List (Str × Json) → List (Str × Json)
  | [] => []
  | (k, v) :: fs => (k, normalizeValue v) :: normalizeFields fs

end

def canonicalStyle : Json.Style := ⟨true, false⟩

def normalizeBody (v : Json) : Str := canonicalStyle.render (normalizeValue v)

structure Sha256 where
  hexdigest : Str → Str
  nonempty : ∀ s, hexdigest s ≠ []
  plain : ∀ s, ∀ c ∈ hexdigest s, isSpace c = false

def bodyHash (sha : Sha256) (v : Json) : Str := sha.hexdigest (normalizeBody v)

section table

def tableDigest (known : List (Str × Str)) (s : Str) : Str :=
  (known.lookup s).getD (List.replicate (Encodable.encode (s.map Char.toNat) + 65) 'x')

def isDigest (d : Str) : Bool := d.length == 64 && d.all (fun c => !isSpace c)

variable {known : List (Str × Str)}

theorem tableDigest_cases (known : List (Str × Str)) (s : Str) :
    (∃ d, (s, d) ∈ known ∧ tableDigest known s = d) ∨
      tableDigest known s = List.replicate (Encodable.encode (s.map Char.toNat) + 65) 'x' := by
  rw [tableDigest]
  cases h : known.lookup s with
  | none => exact Or.inr rfl
  | some d =>
    obtain ⟨l, k, hl⟩ := List.lookup_eq_some_iff.mp h
    exact Or.inl ⟨d, by rw [hl.1]; simp, rfl⟩

theorem isDigest_spec {d : Str} (h : isDigest d = true) :
    d.length = 64 ∧ ∀ c ∈ d, isSpace c = false := by
  rw [isDigest, Bool.and_eq_true, List.all_eq_true] at h
  exact ⟨by simpa using h.1, fun c hc => by simpa using h.2 c hc⟩

def Sha256.ofTable (known : List (Str × Str)) (h : known.all (fun e => isDigest e.2) = true) :
    Sha256 where
  hexdigest := tableDigest known
  nonempty s := by
    rcases tableDigest_cases known s with ⟨d, hd, he⟩ | he
    · have hlen := (isDigest_spec (List.all_eq_true.mp h _ hd)).1
      rw [he]
      rintro rfl
      cases hlen
    · rw [he]
      exact fun hn => by simp at hn
  plain s := by
    rcases tableDigest_cases known s with ⟨d, hd, he⟩ | he
    · rw [he]
      exact (isDigest_spec (List.all_eq_true.mp h _ hd)).2
    · rw [he]
      intro c hc
      rw [List.eq_of_mem_replicate hc]
      decide

theorem encode_text_injective :
    Function.Injective (fun s : Str => Encodable.encode (s.map Char.toNat)) := by
  intro s t h
  have hmap := Encodable.encode_injective h
  exact List.map_injective_iff.mpr (fun c d => Char.toNat_inj.mp) hmap

theorem tableDigest_injective (h : known.all (fun e => isDigest e.2) = true)
    (hd : (known.map Prod.snd).Nodup) : Function.Injective (tableDigest known) := by
  have hlong : ∀ s t d, (s, d) ∈ known →
      d ≠ List.replicate (Encodable.encode (List.map Char.toNat t) + 65) 'x' := by
    rintro s t d hm rfl
    have hlen := (isDigest_spec (List.all_eq_true.mp h _ hm)).1
    rw [List.length_replicate] at hlen
    omega
  intro s t hst
  rcases tableDigest_cases known s with ⟨d, hm, he⟩ | he <;>
    rcases tableDigest_cases known t with ⟨d', hm', he'⟩ | he'
  · rw [he, he'] at hst
    exact congrArg Prod.fst (List.inj_on_of_nodup_map hd hm hm' hst)
  · exact absurd (he.symm.trans (hst.trans he')) (hlong s t d hm)
  · exact absurd (he'.symm.trans (hst.symm.trans he)) (hlong t s d' hm')
  · rw [he, he'] at hst
    have hlen := congrArg List.length hst
    rw [List.length_replicate, List.length_replicate] at hlen
    exact encode_text_injective (Nat.add_right_cancel hlen)

theorem noDigests : ([] : List (Str × Str)).all (fun e => isDigest e.2) = true := rfl

theorem ofTable_nil_injective : Function.Injective (Sha256.ofTable [] rfl).hexdigest := by
  change Function.Injective (tableDigest [])
  apply tableDigest_injective
  · rfl
  · exact List.nodup_nil

end table

theorem textLe_total (s t : Str) : textLe s t = true ∨ textLe t s = true := by
  induction s generalizing t with
  | nil => exact Or.inl rfl
  | cons c cs ih =>
    cases t with
    | nil => exact Or.inr rfl
    | cons d ds =>
      simp only [textLe]
      rcases Nat.lt_trichotomy c.toNat d.toNat with h | h | h
      · simp [h]
      · simpa [h] using ih ds
      · simp [h]

theorem textLe_antisymm {s t : Str} (hst : textLe s t = true) (hts : textLe t s = true) :
    s = t := by
  induction s generalizing t with
  | nil =>
    cases t with
    | nil => rfl
    | cons d ds => cases hts
  | cons c cs ih =>
    cases t with
    | nil => cases hst
    | cons d ds =>
      simp only [textLe] at hst hts
      rcases Nat.lt_trichotomy c.toNat d.toNat with h | h | h
      · simp [h, h.not_gt] at hts
      · simp only [h, lt_irrefl, if_false] at hst hts
        rw [Char.toNat_inj.mp h, ih hst hts]
      · simp [h, h.not_gt] at hst

theorem textLe_trans {s t u : Str} (hst : textLe s t = true) (htu : textLe t u = true) :
    textLe s u = true := by
  induction s generalizing t u with
  | nil => rfl
  | cons c cs ih =>
    cases t with
    | nil => cases hst
    | cons d ds =>
      cases u with
      | nil => cases htu
      | cons e es =>
        simp only [textLe] at hst htu ⊢
        rcases Nat.lt_trichotomy c.toNat d.toNat with hcd | hcd | hcd
        · rcases Nat.lt_trichotomy d.toNat e.toNat with hde | hde | hde
          · simp [hcd.trans hde]
          · simp [hde ▸ hcd]
          · simp [hde, hde.not_gt] at htu
        · rw [hcd] at hst ⊢
          simp only [lt_irrefl, if_false] at hst
          rcases Nat.lt_trichotomy d.toNat e.toNat with hde | hde | hde
          · simp [hde]
          · simp only [hde, lt_irrefl, if_false] at htu ⊢
            exact ih hst htu
          · simp [hde, hde.not_gt] at htu
        · simp [hcd, hcd.not_gt] at hst

section sorting

variable {α : Type}

theorem insertField_perm (f : Str × α) (fs : List (Str × α)) :
    List.Perm (insertField f fs) (f :: fs) := by
  induction fs with
  | nil => exact List.Perm.refl _
  | cons g gs ih =>
    rw [insertField]
    split_ifs
    · exact List.Perm.refl _
    · exact (ih.cons g).trans (List.Perm.swap ..)

theorem sortFields_perm (fs : List (Str × α)) : List.Perm (sortFields fs) fs := by
  induction fs with
  | nil => exact List.Perm.refl _
  | cons f fs ih => exact (insertField_perm f _).trans (ih.cons f)

theorem insertField_sorted (f : Str × α) {fs : List (Str × α)}
    (h : fs.Pairwise (fun a b => textLe a.1 b.1 = true)) :
    (insertField f fs).Pairwise (fun a b => textLe a.1 b.1 = true) := by
  induction fs with
  | nil => exact List.pairwise_singleton _ f
  | cons g gs ih =>
    obtain ⟨hg, hgs⟩ := List.pairwise_cons.mp h
    rw [insertField]
    split_ifs with hfg
    · refine List.pairwise_cons.mpr ⟨fun x hx => ?_, h⟩
      rcases List.mem_cons.mp hx with rfl | hx
      · exact hfg
      · exact textLe_trans hfg (hg x hx)
    · refine List.pairwise_cons.mpr ⟨fun x hx => ?_, ih hgs⟩
      rcases List.mem_cons.mp ((insertField_perm f gs).subset hx) with rfl | hx
      · exact (textLe_total g.1 x.1).resolve_right hfg
      · exact hg x hx

theorem sortFields_sorted (fs : List (Str × α)) :
    (sortFields fs).Pairwise (fun a b => textLe a.1 b.1 = true) := by
  induction fs with
  | nil => exact List.Pairwise.nil
  | cons f fs ih => exact insertField_sorted f ih

theorem sortFields_eq_iff {fs gs : List (Str × α)} (h : (fs.map Prod.fst).Nodup) :
    sortFields fs = sortFields gs ↔ List.Perm fs gs := by
  constructor
  · intro he
    exact (sortFields_perm fs).symm.trans (he ▸ sortFields_perm gs)
  · intro hp
    have hsorted : List.Perm (sortFields fs) (sortFields gs) :=
      (sortFields_perm fs).trans (hp.trans (sortFields_perm gs).symm)
    refine List.Perm.eq_of_pairwise ?_ (sortFields_sorted fs) (sortFields_sorted gs) hsorted
    intro a b ha hb hab hba
    exact List.inj_on_of_nodup_map h ((sortFields_perm fs).subset ha)
      (hp.symm.subset ((sortFields_perm gs).subset hb)) (textLe_antisymm hab hba)

theorem find_sortFields {fs : List (Str × α)} (h : (fs.map Prod.fst).Nodup) (k : Str) :
    OrderedDict.find k (sortFields fs) = OrderedDict.find k fs := by
  have hp := sortFields_perm fs
  have hs : ((sortFields fs).map Prod.fst).Nodup := ((hp.map Prod.fst).nodup_iff).mpr h
  refine Option.ext fun v => ?_
  rw [OrderedDict.find_eq_some hs, OrderedDict.find_eq_some h, hp.mem_iff]

theorem sortTexts_perm (ts : List Str) : List.Perm (sortTexts ts) ts := by
  have hp := (sortFields_perm (ts.map (fun t => (t, ())))).map Prod.fst
  rw [List.map_map] at hp
  have hids : ts.map (Prod.fst ∘ fun t => (t, ())) = ts := List.map_id ts
  rw [hids] at hp
  exact hp

theorem sortFields_wf {fs : List (Str × Json)} (hkeys : (fs.map Prod.fst).Nodup)
    (h : Json.wfFields fs = true) : Json.wf (.obj (sortFields fs)) = true := by
  have hp := sortFields_perm fs
  exact Json.wf_obj ((hp.map Prod.fst).nodup_iff.mpr hkeys)
    fun f hf => Json.wfFields_iff.mp h f (hp.subset hf)

end sorting

theorem replaceCrlf_plain {s : Str} (h : carriageReturn ∉ s) : replaceCrlf s = s := by
  induction s using replaceCrlf.induct with
  | case1 => rfl
  | case2 c => rfl
  | case3 c d cs hcd ih => exact absurd (hcd.1 ▸ List.mem_cons_self) h
  | case4 c d cs hcd ih =>
    rw [replaceCrlf, if_neg hcd, ih (fun hm => h (List.mem_cons_of_mem _ hm))]

theorem replaceCr_plain {s : Str} (h : carriageReturn ∉ s) : replaceCr s = s := by
  induction s with
  | nil => rfl
  | cons c cs ih =>
    have hc : c ≠ carriageReturn := fun he => h (he ▸ List.mem_cons_self)
    have hcs := ih (fun hm => h (List.mem_cons_of_mem _ hm))
    rw [replaceCr] at hcs ⊢
    rw [List.map_cons, if_neg hc, hcs]

theorem dropWhile_of_prefix {s t : Str} {p : Char → Bool} (h : t <+: s.dropWhile p) :
    t.dropWhile p = t := by
  cases t with
  | nil => rfl
  | cons c cs =>
    obtain ⟨rest, hrest⟩ := h
    have hc : p c = false := by
      have hhead := List.head?_dropWhile_not p s
      rw [← hrest] at hhead
      simpa using hhead
    rw [List.dropWhile_cons_of_neg (by simp [hc])]

theorem strip_strip (s : Str) : strip (strip s) = strip s := by
  have hpre : strip s <+: s.dropWhile isSpace := List.rdropWhile_prefix isSpace (s.dropWhile isSpace)
  rw [strip, dropWhile_of_prefix hpre, strip, List.reverse_reverse, List.dropWhile_idempotent]

theorem normalizeString_plain {s : Str} (h : ∀ c ∈ s, isSpace c = false) :
    normalizeString s = s := by
  have hcr : carriageReturn ∉ s := fun hm => absurd (h _ hm) (by decide)
  rw [normalizeString, replaceCrlf_plain hcr, replaceCr_plain hcr, strip_of_noSpace h]

end TraceMind.Artifacts
