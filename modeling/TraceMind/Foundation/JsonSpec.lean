import TraceMind.Foundation.Json
import Mathlib.Data.List.TakeWhile

namespace Json

theorem run_nil (s : State) : run s [] = some s := rfl

theorem run_cons (s : State) (c : Char) (cs : List Char) :
    run s (c :: cs) = (step s c).bind (fun t => run t cs) := rfl

theorem run_append (s : State) (cs ds : List Char) :
    run s (cs ++ ds) = (run s cs).bind (fun t => run t ds) :=
  List.foldlM_append

section strings

variable {K : List Frame} {isKey : Bool} {rev : List Char}

theorem step_escape {esc : Escape} (h : isPlain esc = false) (c : Char) :
    step ⟨K, .string isKey rev esc⟩ c =
      (escapeStep rev esc c).map (fun p => ⟨K, .string isKey p.1 p.2⟩) := by
  change stringStep K isKey rev esc c = _
  rw [stringStep, h]
  rfl

theorem step_plain {c : Char} (hq : c ≠ quote) (hb : c ≠ backslash) (hc : 32 ≤ c.toNat) :
    step ⟨K, .string isKey rev .plain⟩ c = some ⟨K, .string isKey (c :: rev) .plain⟩ := by
  change stringStep K isKey rev .plain c = _
  rw [stringStep, if_neg (fun h => hq h.2), if_neg (fun h => hb h.2), escapeStep,
    if_neg (by omega)]
  rfl

theorem toNat_eq {c : Char} {n : ℕ} (h : c.toNat = n) : c = Char.ofNat n := by
  rw [← h, Char.ofNat_toNat]

theorem longEscape_of_short {c l : Char} (h : shortEscape c = some l) :
    l ≠ 'u' ∧ longEscape l = some c := by
  unfold shortEscape at h
  split_ifs at h with h1 h2 h3 h4 h5 h6 h7
  · cases h
    subst h1
    exact ⟨by decide, rfl⟩
  · cases h
    subst h2
    exact ⟨by decide, rfl⟩
  · cases h
    exact ⟨by decide, congrArg some (toNat_eq h3).symm⟩
  · cases h
    exact ⟨by decide, congrArg some (toNat_eq h4).symm⟩
  · cases h
    exact ⟨by decide, congrArg some (toNat_eq h5).symm⟩
  · cases h
    exact ⟨by decide, congrArg some (toNat_eq h6).symm⟩
  · cases h
    exact ⟨by decide, congrArg some (toNat_eq h7).symm⟩

theorem not_special_of_short {c : Char} (h : shortEscape c = none) :
    c ≠ quote ∧ c ≠ backslash := by
  unfold shortEscape at h
  split_ifs at h with h1 h2
  exact ⟨h1, h2⟩

theorem hexValue_digitChar : ∀ d < 16, hexValue (Nat.digitChar d) = some d := by decide

theorem escapeStep_unit {left acc d : ℕ} (hd : d < 16) (hl : 1 < left) :
    escapeStep rev (.unit left acc) (Nat.digitChar d) =
      some (rev, .unit (left - 1) (acc * 16 + d)) := by
  rw [escapeStep, hexValue_digitChar d hd]
  exact if_pos hl

theorem escapeStep_low {hi left acc d : ℕ} (hd : d < 16) (hl : 1 < left) :
    escapeStep rev (.low hi left acc) (Nat.digitChar d) =
      some (rev, .low hi (left - 1) (acc * 16 + d)) := by
  rw [escapeStep, hexValue_digitChar d hd]
  exact if_pos hl

theorem escapeStep_unit_last {acc d : ℕ} (hd : d < 16) :
    escapeStep rev (.unit 1 acc) (Nat.digitChar d) =
      if isHigh (acc * 16 + d) then some (rev, .high (acc * 16 + d))
      else if isLow (acc * 16 + d) then none
      else some (Char.ofNat (acc * 16 + d) :: rev, .plain) := by
  simp [escapeStep, hexValue_digitChar d hd]

theorem escapeStep_low_last {hi acc d : ℕ} (hd : d < 16) :
    escapeStep rev (.low hi 1 acc) (Nat.digitChar d) =
      if isLow (acc * 16 + d) then some (joinUnits hi (acc * 16 + d) :: rev, .plain)
      else none := by
  simp [escapeStep, hexValue_digitChar d hd]

theorem hex4_value {n : ℕ} (h : n < 0x10000) :
    (((0 * 16 + n / 4096 % 16) * 16 + n / 256 % 16) * 16 + n / 16 % 16) * 16 + n % 16 = n := by
  omega

theorem run_hex4 {n : ℕ} (h : n < 0x10000) {t : List Char × Escape}
    (ht : (if isHigh n then some (rev, .high n) else if isLow n then none
      else some (Char.ofNat n :: rev, Escape.plain)) = some t) :
    run ⟨K, .string isKey rev (.unit 4 0)⟩ (hex4 n) = some ⟨K, .string isKey t.1 t.2⟩ := by
  have hmod (m : ℕ) : m % 16 < 16 := Nat.mod_lt _ (by omega)
  have hlast : escapeStep rev (.unit 1 (((0 * 16 + n / 4096 % 16) * 16 + n / 256 % 16) * 16 +
      n / 16 % 16)) (Nat.digitChar (n % 16)) = some t := by
    rw [escapeStep_unit_last (hmod _), hex4_value h, ht]
  rw [hex4, List.map_cons, List.map_cons, List.map_cons, List.map_cons, List.map_nil, run_cons,
    step_escape rfl, escapeStep_unit (hmod _) (by omega), Option.map_some, Option.bind_some,
    run_cons, step_escape rfl, escapeStep_unit (hmod _) (by omega), Option.map_some,
    Option.bind_some, run_cons, step_escape rfl, escapeStep_unit (hmod _) (by omega),
    Option.map_some, Option.bind_some, run_cons, step_escape rfl, hlast, Option.map_some,
    Option.bind_some, run_nil]

theorem run_low {hi n : ℕ} (h : n < 0x10000) (hlow : isLow n = true) :
    run ⟨K, .string isKey rev (.low hi 4 0)⟩ (hex4 n) =
      some ⟨K, .string isKey (joinUnits hi n :: rev) .plain⟩ := by
  have hmod (m : ℕ) : m % 16 < 16 := Nat.mod_lt _ (by omega)
  have hlast : escapeStep rev (.low hi 1 (((0 * 16 + n / 4096 % 16) * 16 + n / 256 % 16) * 16 +
      n / 16 % 16)) (Nat.digitChar (n % 16)) = some (joinUnits hi n :: rev, .plain) := by
    rw [escapeStep_low_last (hmod _), hex4_value h, if_pos hlow]
  rw [hex4, List.map_cons, List.map_cons, List.map_cons, List.map_cons, List.map_nil, run_cons,
    step_escape rfl, escapeStep_low (hmod _) (by omega), Option.map_some, Option.bind_some,
    run_cons, step_escape rfl, escapeStep_low (hmod _) (by omega), Option.map_some,
    Option.bind_some, run_cons, step_escape rfl, escapeStep_low (hmod _) (by omega),
    Option.map_some, Option.bind_some, run_cons, step_escape rfl, hlast, Option.map_some,
    Option.bind_some, run_nil]

theorem run_escapeUnit (n : ℕ) : run ⟨K, .string isKey rev .plain⟩ (escapeUnit n) =
    run ⟨K, .string isKey rev (.unit 4 0)⟩ (hex4 n) := rfl

theorem run_high (hi lo : ℕ) : run ⟨K, .string isKey rev (.high hi)⟩ (escapeUnit lo) =
    run ⟨K, .string isKey rev (.low hi 4 0)⟩ (hex4 lo) := rfl

theorem toNat_range (c : Char) : c.toNat < 0xd800 ∨ 0xdfff < c.toNat ∧ c.toNat < 0x110000 := by
  have h : Nat.isValidChar c.toNat := c.valid
  unfold Nat.isValidChar at h
  exact h

theorem run_escapeChar (c : Char) : run ⟨K, .string isKey rev .plain⟩ (escapeChar c) =
    some ⟨K, .string isKey (c :: rev) .plain⟩ := by
  unfold escapeChar
  cases hs : shortEscape c with
  | some l =>
    obtain ⟨hu, hl⟩ := longEscape_of_short hs
    change run ⟨K, .string isKey rev .slash⟩ [l] = _
    rw [run_cons, step_escape rfl, escapeStep, if_neg hu, hl]
    rfl
  | none =>
    obtain ⟨hq, hb⟩ := not_special_of_short hs
    have hrange := toNat_range c
    dsimp only
    split_ifs with h1 h2
    · rw [run_cons, step_plain hq hb h1.1]
      rfl
    · have hlow : ¬ isLow c.toNat = true := by
        simp only [isLow, Bool.and_eq_true, decide_eq_true_eq]
        omega
      have hhigh : ¬ isHigh c.toNat = true := by
        simp only [isHigh, Bool.and_eq_true, decide_eq_true_eq]
        omega
      rw [run_escapeUnit, run_hex4 (by omega) (by rw [if_neg hhigh, if_neg hlow]),
        Char.ofNat_toNat]
    · have hhigh : isHigh (0xd800 + (c.toNat - 0x10000) / 1024) = true := by
        simp only [isHigh, Bool.and_eq_true, decide_eq_true_eq]
        omega
      have hlow : isLow (0xdc00 + (c.toNat - 0x10000) % 1024) = true := by
        simp only [isLow, Bool.and_eq_true, decide_eq_true_eq]
        omega
      have hjoin : joinUnits (0xd800 + (c.toNat - 0x10000) / 1024)
          (0xdc00 + (c.toNat - 0x10000) % 1024) = c := by
        refine (toNat_eq ?_).symm
        omega
      rw [run_append, run_escapeUnit, run_hex4 (by omega) (by rw [if_pos hhigh]),
        Option.bind_some, run_high, run_low (by omega) hlow, hjoin]

theorem run_rawChar (c : Char) : run ⟨K, .string isKey rev .plain⟩ (rawChar c) =
    some ⟨K, .string isKey (c :: rev) .plain⟩ := by
  unfold rawChar
  cases hs : shortEscape c with
  | some l =>
    have hescape : run ⟨K, .string isKey rev .plain⟩ (escapeChar c) =
        some ⟨K, .string isKey (c :: rev) .plain⟩ := run_escapeChar c
    rw [escapeChar, hs] at hescape
    exact hescape
  | none =>
    obtain ⟨hq, hb⟩ := not_special_of_short hs
    dsimp only
    split_ifs with hc
    · have hescape : run ⟨K, .string isKey rev .plain⟩ (escapeChar c) =
          some ⟨K, .string isKey (c :: rev) .plain⟩ := run_escapeChar c
      rw [escapeChar, hs] at hescape
      dsimp only at hescape
      rw [if_neg (by omega), if_pos (by omega)] at hescape
      exact hescape
    · rw [run_cons, step_plain hq hb (by omega)]
      rfl

theorem run_escape (st : Style) (s : List Char) :
    run ⟨K, .string isKey rev .plain⟩ (s.flatMap st.char) =
      some ⟨K, .string isKey (s.reverse ++ rev) .plain⟩ := by
  induction s generalizing rev with
  | nil => rfl
  | cons c s ih =>
    have hchar : run ⟨K, .string isKey rev .plain⟩ (st.char c) =
        some ⟨K, .string isKey (c :: rev) .plain⟩ := by
      unfold Style.char
      split_ifs
      · exact run_rawChar c
      · exact run_escapeChar c
    rw [List.flatMap_cons, run_append, hchar]
    change run _ _ = _
    rw [ih]
    simp

end strings

theorem isAtomChar_of_isDigit {c : Char} (h : c.isDigit = true) : isAtomChar c = true := by
  have hne {d : Char} (hd : d.isDigit = false) : c ≠ d := by
    rintro rfl
    rw [h] at hd
    cases hd
  have hnat {n : ℕ} (hn : (Char.ofNat n).isDigit = false) : c.toNat ≠ n :=
    fun he => hne hn (toNat_eq he)
  simp only [isAtomChar, isEnd, isBlank, Bool.and_eq_true, Bool.not_eq_true', Bool.or_eq_false_iff,
    decide_eq_false_iff_not, bne_iff_ne]
  exact ⟨⟨⟨⟨⟨⟨⟨⟨⟨⟨hne (by decide), hnat (by decide)⟩, hnat (by decide)⟩, hnat (by decide)⟩,
    hne (by decide)⟩, hne (by decide)⟩, hne (by decide)⟩, hne (by decide)⟩, hne (by decide)⟩,
    hne (by decide)⟩, hne (by decide)⟩

theorem toDigits_isDigit (n : ℕ) : ∀ c ∈ Nat.toDigits 10 n, c.isDigit = true :=
  fun _ hc => Nat.isDigit_of_mem_toDigits (by decide) (by decide) hc

theorem digitChar_ne_zero : ∀ d < 10, d ≠ 0 → Nat.digitChar d ≠ '0' := by decide

theorem head_toDigits {n : ℕ} (h : n ≠ 0) : (Nat.toDigits 10 n).head? ≠ some '0' := by
  induction n using Nat.strong_induction_on with
  | _ n ih =>
    rw [Nat.toDigits_eq_if (by decide)]
    split_ifs with hlt
    · simpa using digitChar_ne_zero n hlt h
    · have hdiv := ih (n / 10) (by omega) (by omega)
      rw [List.head?_append]
      cases hd : (Nat.toDigits 10 (n / 10)).head? with
      | none => exact absurd (List.head?_eq_none_iff.mp hd) Nat.toDigits_ne_nil
      | some c => simpa [hd] using hdiv

theorem isIntPart_toDigits (n : ℕ) : isIntPart (Nat.toDigits 10 n) = true := by
  unfold isIntPart
  by_cases h : n = 0
  · subst h
    rfl
  · have hall : (Nat.toDigits 10 n).all Char.isDigit = true :=
      List.all_eq_true.mpr (toDigits_isDigit n)
    have hne : (Nat.toDigits 10 n).isEmpty = false :=
      Bool.eq_false_iff.mpr (fun he => Nat.toDigits_ne_nil (List.isEmpty_iff.mp he))
    have hhead : ((Nat.toDigits 10 n).head? != some '0') = true := bne_iff_ne.mpr (head_toDigits h)
    rw [digitsOnly, hall, hne, hhead]
    simp

theorem word_letter {s : List Char} {v : Json} (h : word s = some v) :
    s.any (fun c => !c.isDigit && c != '-') = true := by
  unfold word at h
  split_ifs at h <;> subst s <;> decide

theorem word_none {s : List Char} (h : ∀ c ∈ s, c.isDigit = true ∨ c = '-') : word s = none := by
  cases hw : word s with
  | none => rfl
  | some v =>
    obtain ⟨c, hc, hl⟩ := List.any_eq_true.mp (word_letter hw)
    rw [Bool.and_eq_true, Bool.not_eq_true', bne_iff_ne] at hl
    rcases h c hc with hd | hm
    · rw [hl.1] at hd
      cases hd
    · exact absurd hm hl.2

theorem unsigned_digits {s : List Char} (h : ∀ c ∈ s, c.isDigit = true) : unsigned s = s := by
  unfold unsigned
  split
  · exact absurd (h _ List.mem_cons_self) (by decide)
  · rfl

theorem number_int {s : List Char} (h : ∀ c ∈ unsigned s, c.isDigit = true)
    (hp : isIntPart (unsigned s) = true) : number s = some (.int (intValue s)) := by
  have htake : (unsigned s).takeWhile Char.isDigit = unsigned s :=
    List.takeWhile_eq_self_iff.mpr h
  have hdrop : (unsigned s).dropWhile Char.isDigit = [] := List.dropWhile_eq_nil_iff.mpr h
  unfold number
  rw [htake, hdrop, if_pos hp, if_pos rfl]

theorem atom_intText (n : ℤ) : atom (intText n) = some (.int n) := by
  cases n with
  | ofNat k =>
    have hd := toDigits_isDigit k
    have hu := unsigned_digits hd
    have hv : intValue (Nat.toDigits 10 k) = k := by
      unfold intValue
      split
      · rename_i heq
        exact absurd (hd _ (heq ▸ List.mem_cons_self)) (by decide)
      · exact congrArg Nat.cast Nat.ofDigitChars_ten_toDigits
    have hw := word_none (fun c hc => Or.inl (hd c hc))
    change atom (Nat.toDigits 10 k) = _
    rw [atom, hw, number_int (hu.symm ▸ hd) (hu.symm ▸ isIntPart_toDigits k), hv]
    rfl
  | negSucc k =>
    have hd := toDigits_isDigit (k + 1)
    have hw : word ('-' :: Nat.toDigits 10 (k + 1)) = none := by
      refine word_none (fun c hc => ?_)
      rcases List.mem_cons.mp hc with rfl | hc
      · exact Or.inr rfl
      · exact Or.inl (hd c hc)
    have hn : number ('-' :: Nat.toDigits 10 (k + 1)) = _ :=
      number_int hd (isIntPart_toDigits (k + 1))
    change atom ('-' :: Nat.toDigits 10 (k + 1)) = _
    rw [atom, hw, hn]
    change some (Json.int (-(natValue (Nat.toDigits 10 (k + 1)) : ℤ))) = _
    rw [natValue, Nat.ofDigitChars_ten_toDigits]
    rfl

theorem intText_atomChars (n : ℤ) : ∀ c ∈ intText n, isAtomChar c = true := by
  intro c hc
  cases n with
  | ofNat k => exact isAtomChar_of_isDigit (toDigits_isDigit k c hc)
  | negSucc k =>
    rcases List.mem_cons.mp hc with rfl | hc
    · decide
    · exact isAtomChar_of_isDigit (toDigits_isDigit (k + 1) c hc)

theorem intText_ne_nil (n : ℤ) : intText n ≠ [] := by
  cases n with
  | ofNat k => exact Nat.toDigits_ne_nil
  | negSucc k => exact List.cons_ne_nil _ _

def isFloatText (t : List Char) : Bool :=
  match number t with
  | some (.float _) => true
  | _ => false

mutual

def wf : Json → Bool
  | .float t => isFloatText t && t.all isAtomChar
  | .arr vs => wfItems vs
  | .obj fs => decide (fs.map Prod.fst).Nodup && wfFields fs
  | _ => true

def wfItems : List Json → Bool
  | [] => true
  | v :: vs => wf v && wfItems vs

def wfFields : List (List Char × Json) → Bool
  | [] => true
  | (_, v) :: fs => wf v && wfFields fs

end

mutual

def readable : Json → Bool
  | .float t => isFloatText t && t.all isAtomChar
  | .arr vs => readableItems vs
  | .obj fs => readableFields fs
  | _ => true

def readableItems : List Json → Bool
  | [] => true
  | v :: vs => readable v && readableItems vs

def readableFields : List (List Char × Json) → Bool
  | [] => true
  | (_, v) :: fs => readable v && readableFields fs

end

mutual

def merge : Json → Json
  | .arr vs => .arr (mergeItems vs)
  | .obj fs => .obj (mergeFields [] fs)
  | v => v

def mergeItems : List Json → List Json
  | [] => []
  | v :: vs => merge v :: mergeItems vs

def mergeFields (done : List (List Char × Json)) :
    List (List Char × Json) → List (List Char × Json)
  | [] => done
  | (k, v) :: fs => mergeFields (setField k (merge v) done) fs

end

theorem setField_of_not_mem {k : List Char} {v : Json} {fs : List (List Char × Json)}
    (h : k ∉ fs.map Prod.fst) : setField k v fs = fs ++ [(k, v)] := by
  induction fs with
  | nil => rfl
  | cons f fs ih =>
    rw [List.map_cons, List.mem_cons, not_or] at h
    rw [setField, if_neg (Ne.symm h.1), ih h.2]
    rfl

mutual

theorem readable_of_wf : ∀ {v : Json}, wf v = true → readable v = true
  | .float _, h => h
  | .arr _, h => readableItems_of_wf h
  | .obj _, h => readableFields_of_wf (Bool.and_eq_true_iff.mp h).2
  | .null, _ => rfl
  | .bool _, _ => rfl
  | .nan, _ => rfl
  | .infinity _, _ => rfl
  | .int _, _ => rfl
  | .str _, _ => rfl

theorem readableItems_of_wf : ∀ {vs : List Json}, wfItems vs = true → readableItems vs = true
  | [], _ => rfl
  | _ :: _, h =>
    have hvs := Bool.and_eq_true_iff.mp h
    Bool.and_eq_true_iff.mpr ⟨readable_of_wf hvs.1, readableItems_of_wf hvs.2⟩

theorem readableFields_of_wf : ∀ {fs : List (List Char × Json)}, wfFields fs = true →
    readableFields fs = true
  | [], _ => rfl
  | _ :: _, h =>
    have hfs := Bool.and_eq_true_iff.mp h
    Bool.and_eq_true_iff.mpr ⟨readable_of_wf hfs.1, readableFields_of_wf hfs.2⟩

end

mutual

theorem merge_of_wf : ∀ {v : Json}, wf v = true → merge v = v
  | .arr _, h => congrArg Json.arr (mergeItems_of_wf h)
  | .obj _, h => congrArg Json.obj (mergeFields_of_wf (Bool.and_eq_true_iff.mp h).2
      (of_decide_eq_true (Bool.and_eq_true_iff.mp h).1))
  | .float _, _ => rfl
  | .null, _ => rfl
  | .bool _, _ => rfl
  | .nan, _ => rfl
  | .infinity _, _ => rfl
  | .int _, _ => rfl
  | .str _, _ => rfl

theorem mergeItems_of_wf : ∀ {vs : List Json}, wfItems vs = true → mergeItems vs = vs
  | [], _ => rfl
  | _ :: _, h => by
    obtain ⟨hv, hvs⟩ := Bool.and_eq_true_iff.mp h
    rw [mergeItems, merge_of_wf hv, mergeItems_of_wf hvs]

theorem mergeFields_of_wf : ∀ {fs done : List (List Char × Json)}, wfFields fs = true →
    ((done ++ fs).map Prod.fst).Nodup → mergeFields done fs = done ++ fs
  | [], _, _, _ => (List.append_nil _).symm
  | (k, v) :: fs, done, h, hnd => by
    obtain ⟨hv, hfs⟩ := Bool.and_eq_true_iff.mp h
    have hk : k ∉ done.map Prod.fst := by
      simp only [List.map_append, List.map_cons, List.nodup_append, List.mem_cons] at hnd
      exact fun hm => hnd.2.2 k hm k (Or.inl rfl) rfl
    have happ : done ++ (k, v) :: fs = (done ++ [(k, v)]) ++ fs := by simp
    rw [mergeFields, merge_of_wf hv, setField_of_not_mem hk, happ]
    exact mergeFields_of_wf hfs (happ ▸ hnd)

end

theorem wfFields_iff {fs : List (List Char × Json)} :
    wfFields fs = true ↔ ∀ f ∈ fs, wf f.2 = true := by
  induction fs with
  | nil => exact iff_of_true rfl (fun f hf => absurd hf List.not_mem_nil)
  | cons f fs ih =>
    obtain ⟨k, v⟩ := f
    rw [wfFields, Bool.and_eq_true, ih, List.forall_mem_cons]

theorem wfItems_iff {vs : List Json} : wfItems vs = true ↔ ∀ v ∈ vs, wf v = true := by
  induction vs with
  | nil => exact iff_of_true rfl (fun v hv => absurd hv List.not_mem_nil)
  | cons v vs ih => rw [wfItems, Bool.and_eq_true, ih, List.forall_mem_cons]

theorem wf_obj {fs : List (List Char × Json)} (hkeys : (fs.map Prod.fst).Nodup)
    (h : ∀ f ∈ fs, wf f.2 = true) : wf (.obj fs) = true :=
  Bool.and_eq_true_iff.mpr ⟨decide_eq_true hkeys, wfFields_iff.mpr h⟩

theorem wfFields_filter (p : List Char × Json → Bool) {fs : List (List Char × Json)}
    (h : wfFields fs = true) : wfFields (fs.filter p) = true := by
  induction fs with
  | nil => rfl
  | cons f fs ih =>
    obtain ⟨k, v⟩ := f
    rw [wfFields, Bool.and_eq_true] at h
    rw [List.filter_cons]
    split_ifs
    · rw [wfFields, Bool.and_eq_true]
      exact ⟨h.1, ih h.2⟩
    · exact ih h.2

theorem atom_float {t : List Char} (h : isFloatText t = true) :
    atom t = some (.float t) ∧ t ≠ [] := by
  have hnum : number t = some (.float t) := by
    unfold isFloatText at h
    unfold number at h ⊢
    dsimp only at h ⊢
    split_ifs at h ⊢
    rfl
  refine ⟨?_, fun hnil => ?_⟩
  · have hw : word t = none := by
      unfold word
      split_ifs <;> first | rfl | (subst t; cases h)
    rw [atom, hw, hnum]
  · subst hnil
    cases h

def settle (s : State) : Option State :=
  match s.mode with
  | .atom rev => (atom rev.reverse).bind (complete s.stack)
  | _ => some s

def Settles (s : State) : Prop :=
  match s.mode with
  | .atom _ => True
  | .after => True
  | .done _ => True
  | _ => False

theorem step_settles {s : State} (h : Settles s) {c : Char} (hc : isEnd c = true) :
    step s c = (settle s).bind (fun t => next t c) := by
  obtain ⟨K, m⟩ := s
  cases m with
  | atom rev =>
    change (if isEnd c = true then _ else _) = _
    rw [if_pos hc]
    change (atom rev.reverse).bind _ = ((atom rev.reverse).bind _).bind _
    rw [Option.bind_assoc]
    rfl
  | after => rfl
  | done v => rfl
  | value => exact h.elim
  | valueOrEnd => exact h.elim
  | key => exact h.elim
  | keyOrEnd => exact h.elim
  | colon => exact h.elim
  | string b r e => exact h.elim

def Reads (K : List Frame) (cs : List Char) (v : Json) : Prop :=
  ∃ s, run ⟨K, .value⟩ cs = some s ∧ Settles s ∧ settle s = complete K v

theorem complete_settles {K : List Frame} {v : Json} {s : State} (h : complete K v = some s) :
    Settles s ∧ settle s = some s := by
  unfold complete at h
  split at h <;> cases h <;> exact ⟨trivial, rfl⟩

theorem Reads.run_end {K : List Frame} {cs : List Char} {v : Json} (h : Reads K cs v) {c : Char}
    (hc : isEnd c = true) (ds : List Char) :
    run ⟨K, .value⟩ (cs ++ c :: ds) = (complete K v).bind (fun t => run t (c :: ds)) := by
  obtain ⟨s, hs, hset, hv⟩ := h
  rw [run_append, hs, Option.bind_some, run_cons, step_settles hset hc, hv]
  cases hk : complete K v with
  | none => rfl
  | some t =>
    obtain ⟨ht, hts⟩ := complete_settles hk
    rw [Option.bind_some, Option.bind_some, run_cons, step_settles ht hc, hts]
    rfl

theorem Reads.of_run {K : List Frame} {cs : List Char} {v : Json} {s : State}
    (h : run ⟨K, .value⟩ cs = complete K v) (hs : complete K v = some s) : Reads K cs v := by
  obtain ⟨hset, hs'⟩ := complete_settles hs
  exact ⟨s, h.trans hs, hset, hs'.trans hs.symm⟩

theorem run_atom {K : List Frame} (cs : List Char) (hc : ∀ c ∈ cs, isAtomChar c = true) :
    ∀ rev, run ⟨K, .atom rev⟩ cs = some ⟨K, .atom (cs.reverse ++ rev)⟩ := by
  induction cs with
  | nil => exact fun _ => rfl
  | cons c cs ih =>
    intro rev
    have hat := hc c List.mem_cons_self
    have hend : isEnd c = false := by
      simp only [isAtomChar, Bool.and_eq_true, Bool.not_eq_true'] at hat
      exact hat.1.1.1.1
    have hstep : step ⟨K, .atom rev⟩ c = some ⟨K, .atom (c :: rev)⟩ := by
      change (if isEnd c = true then _ else if isAtomChar c = true then _ else _) = _
      rw [hend, hat]
      rfl
    rw [run_cons, hstep, Option.bind_some, ih (fun d hd => hc d (List.mem_cons_of_mem _ hd))]
    simp

theorem atomChar_facts {c : Char} (h : isAtomChar c = true) :
    isBlank c = false ∧ c ≠ ']' ∧ c ≠ '{' ∧ c ≠ '[' ∧ c ≠ quote := by
  simp only [isAtomChar, isEnd, Bool.and_eq_true, Bool.not_eq_true', Bool.or_eq_false_iff,
    decide_eq_false_iff_not, bne_iff_ne] at h
  exact ⟨h.1.1.1.1.1.1.1, h.1.1.1.1.1.2, h.1.1.2, h.1.1.1.2, h.2⟩

theorem reads_atom {K : List Frame} {cs : List Char} {v : Json} (hne : cs ≠ [])
    (hc : ∀ c ∈ cs, isAtomChar c = true) (hv : atom cs = some v) : Reads K cs v := by
  cases cs with
  | nil => exact absurd rfl hne
  | cons c cs =>
    have hat := hc c List.mem_cons_self
    obtain ⟨hb, -, ho, ha, hq⟩ := atomChar_facts hat
    have hstep : step ⟨K, .value⟩ c = some ⟨K, .atom [c]⟩ := by
      change (if isBlank c = true then _ else startValue K c) = _
      rw [hb, startValue, if_neg ho, if_neg ha, if_neg hq, if_pos hat]
      rfl
    refine ⟨⟨K, .atom ((c :: cs).reverse)⟩, ?_, trivial, ?_⟩
    · rw [run_cons, hstep, Option.bind_some, run_atom cs
        (fun d hd => hc d (List.mem_cons_of_mem _ hd))]
      simp
    · change (atom (c :: cs).reverse.reverse).bind _ = _
      rw [List.reverse_reverse, hv]
      rfl

section reading

variable (st : Style) {K : List Frame}

theorem run_string (s : List Char) :
    run ⟨K, .value⟩ (st.string s) = complete K (.str s) := by
  rw [Style.string, run_cons]
  change run ⟨K, .string false [] .plain⟩ _ = _
  rw [run_append, run_escape, Option.bind_some, run_cons, List.append_nil]
  change (complete K (.str s.reverse.reverse)).bind (fun t => run t []) = _
  rw [List.reverse_reverse]
  cases complete K (.str s) with
  | none => rfl
  | some t => rfl

theorem run_gap_value (cs : List Char) : run ⟨K, .value⟩ (st.gap ++ cs) = run ⟨K, .value⟩ cs := by
  unfold Style.gap
  split_ifs <;> rfl

theorem run_gap_key (cs : List Char) : run ⟨K, .key⟩ (st.gap ++ cs) = run ⟨K, .key⟩ cs := by
  unfold Style.gap
  split_ifs <;> rfl

theorem run_key {fs : List (List Char × Json)} (k ds : List Char) :
    run ⟨.fields fs :: K, .key⟩ (st.string k ++ ds) = run ⟨.field fs k :: K, .colon⟩ ds := by
  rw [Style.string, List.cons_append, run_cons]
  change run ⟨.fields fs :: K, .string true [] .plain⟩ _ = _
  rw [List.append_assoc, run_append, run_escape, Option.bind_some, List.singleton_append, run_cons,
    List.append_nil]
  change run ⟨.field fs k.reverse.reverse :: K, .colon⟩ ds = _
  rw [List.reverse_reverse]

def Open : List Frame → Prop
  | .fields _ :: _ => False
  | _ => True

theorem Open.complete {K : List Frame} (h : Open K) (v : Json) : ∃ s, complete K v = some s := by
  unfold Json.complete
  split
  · exact ⟨_, rfl⟩
  · exact ⟨_, rfl⟩
  · exact ⟨_, rfl⟩
  · exact h.elim

theorem render_head {v : Json} (h : readable v = true) :
    ∃ c cs, st.render v = c :: cs ∧ isBlank c = false ∧ c ≠ ']' := by
  cases v with
  | null => exact ⟨_, _, rfl, by decide, by decide⟩
  | bool b => cases b <;> exact ⟨_, _, rfl, by decide, by decide⟩
  | nan => exact ⟨_, _, rfl, by decide, by decide⟩
  | infinity b => cases b <;> exact ⟨_, _, rfl, by decide, by decide⟩
  | int n =>
    obtain ⟨c, cs, hcs⟩ := List.exists_cons_of_ne_nil (intText_ne_nil n)
    obtain ⟨hb, hc, -⟩ := atomChar_facts (intText_atomChars n c (hcs ▸ List.mem_cons_self))
    exact ⟨c, cs, hcs, hb, hc⟩
  | float t =>
    obtain ⟨hf, ha⟩ := Bool.and_eq_true_iff.mp h
    obtain ⟨c, cs, rfl⟩ := List.exists_cons_of_ne_nil (atom_float hf).2
    obtain ⟨hb, hc, -⟩ := atomChar_facts (List.all_eq_true.mp ha c List.mem_cons_self)
    exact ⟨c, cs, rfl, hb, hc⟩
  | str s => exact ⟨_, _, rfl, by decide, by decide⟩
  | arr vs => cases vs <;> exact ⟨_, _, rfl, by decide, by decide⟩
  | obj fs =>
    cases fs with
    | nil => exact ⟨_, _, rfl, by decide, by decide⟩
    | cons f fs => exact ⟨_, _, rfl, by decide, by decide⟩

theorem run_valueOrEnd {v : Json} (h : readable v = true) (ds : List Char) :
    run ⟨K, .valueOrEnd⟩ (st.render v ++ ds) = run ⟨K, .value⟩ (st.render v ++ ds) := by
  obtain ⟨c, cs, hcs, hb, hc⟩ := render_head st h
  have hstep : step ⟨K, .valueOrEnd⟩ c = step ⟨K, .value⟩ c := by
    change (if isBlank c = true then _ else if c = ']' then _ else startValue K c) =
      if isBlank c = true then _ else startValue K c
    rw [hb, if_neg hc]
    rfl
  rw [hcs, List.cons_append, run_cons, run_cons, hstep]

end reading

mutual

theorem reads_merge (st : Style) : ∀ (v : Json), readable v = true → ∀ K, Open K →
    Reads K (st.render v) (merge v)
  | .null, _, K, _ => by
    change Reads K ['n', 'u', 'l', 'l'] .null
    exact reads_atom (by decide) (List.all_eq_true.mp (by decide)) rfl
  | .bool true, _, K, _ => by
    change Reads K ['t', 'r', 'u', 'e'] (.bool true)
    exact reads_atom (by decide) (List.all_eq_true.mp (by decide)) rfl
  | .bool false, _, K, _ => by
    change Reads K ['f', 'a', 'l', 's', 'e'] (.bool false)
    exact reads_atom (by decide) (List.all_eq_true.mp (by decide)) rfl
  | .nan, _, K, _ => by
    change Reads K ['N', 'a', 'N'] .nan
    exact reads_atom (by decide) (List.all_eq_true.mp (by decide)) rfl
  | .infinity true, _, K, _ => by
    change Reads K ['-', 'I', 'n', 'f', 'i', 'n', 'i', 't', 'y'] (.infinity true)
    exact reads_atom (by decide) (List.all_eq_true.mp (by decide)) rfl
  | .infinity false, _, K, _ => by
    change Reads K ['I', 'n', 'f', 'i', 'n', 'i', 't', 'y'] (.infinity false)
    exact reads_atom (by decide) (List.all_eq_true.mp (by decide)) rfl
  | .int n, _, _, _ => reads_atom (intText_ne_nil n) (intText_atomChars n) (atom_intText n)
  | .float t, h, _, _ => by
    obtain ⟨hf, ha⟩ := Bool.and_eq_true_iff.mp h
    obtain ⟨hv, hne⟩ := atom_float hf
    exact reads_atom hne (List.all_eq_true.mp ha) hv
  | .str s, _, K, hK => by
    obtain ⟨t, ht⟩ := hK.complete (.str s)
    exact Reads.of_run (run_string st s) ht
  | .arr [], _, K, hK => by
    obtain ⟨t, ht⟩ := hK.complete (.arr [])
    refine Reads.of_run ?_ ht
    change (complete K (.arr [])).bind (fun t => run t []) = complete K (.arr [])
    rw [ht]
    rfl
  | .arr (v :: vs), h, K, hK => by
    obtain ⟨hv, hvs⟩ := Bool.and_eq_true_iff.mp h
    obtain ⟨t, ht⟩ := hK.complete (merge (.arr (v :: vs)))
    refine Reads.of_run ?_ ht
    change run ⟨.items [] :: K, .valueOrEnd⟩ (st.render v ++ st.renderItems vs) = _
    rw [run_valueOrEnd st hv]
    exact run_items st vs hvs [] (reads_merge st v hv _ trivial)
  | .obj [], _, K, hK => by
    obtain ⟨t, ht⟩ := hK.complete (.obj [])
    refine Reads.of_run ?_ ht
    change (complete K (.obj [])).bind (fun t => run t []) = complete K (.obj [])
    rw [ht]
    rfl
  | .obj ((k, v) :: fs), h, K, hK => by
    obtain ⟨hv, hfs⟩ := Bool.and_eq_true_iff.mp h
    obtain ⟨t, ht⟩ := hK.complete (merge (.obj ((k, v) :: fs)))
    refine Reads.of_run ?_ ht
    change run ⟨.fields [] :: K, .key⟩ (st.string k ++ ':' ::
      (st.gap ++ (st.render v ++ st.renderFields fs))) = _
    rw [run_key]
    exact run_fields st fs hfs [] k (reads_merge st v hv _ trivial)

theorem run_items (st : Style) : ∀ (vs : List Json), readableItems vs = true →
    ∀ done {v w : Json} {K : List Frame}, Reads (.items done :: K) (st.render v) w →
    run ⟨.items done :: K, .value⟩ (st.render v ++ st.renderItems vs) =
      complete K (.arr (done ++ w :: mergeItems vs))
  | [], _, done, v, w, K, hv => by
    rw [Style.renderItems, hv.run_end (by decide)]
    change (complete K (.arr (done ++ [w]))).bind (fun t => run t []) =
      complete K (.arr (done ++ [w]))
    cases complete K (.arr (done ++ [w])) <;> rfl
  | x :: xs, h, done, v, w, K, hv => by
    obtain ⟨hx, hxs⟩ := Bool.and_eq_true_iff.mp h
    rw [Style.renderItems, hv.run_end (by decide)]
    change run ⟨.items (done ++ [w]) :: K, .value⟩ (st.gap ++ (st.render x ++ st.renderItems xs)) = _
    rw [run_gap_value, run_items st xs hxs (done ++ [w]) (reads_merge st x hx _ trivial),
      List.append_assoc]
    rfl

theorem run_fields (st : Style) : ∀ (fs : List (List Char × Json)), readableFields fs = true →
    ∀ done k {v w : Json} {K : List Frame}, Reads (.field done k :: K) (st.render v) w →
    run ⟨.field done k :: K, .colon⟩ (':' :: (st.gap ++ (st.render v ++ st.renderFields fs))) =
      complete K (.obj (mergeFields (setField k w done) fs))
  | [], _, done, k, v, w, K, hv => by
    change run ⟨.field done k :: K, .value⟩ (st.gap ++ (st.render v ++ st.renderFields [])) = _
    rw [run_gap_value, Style.renderFields, hv.run_end (by decide)]
    change (complete K (.obj (setField k w done))).bind (fun t => run t []) =
      complete K (.obj (setField k w done))
    cases complete K (.obj (setField k w done)) <;> rfl
  | (k', x) :: fs, h, done, k, v, w, K, hv => by
    obtain ⟨hx, hfs⟩ := Bool.and_eq_true_iff.mp h
    change run ⟨.field done k :: K, .value⟩
      (st.gap ++ (st.render v ++ st.renderFields ((k', x) :: fs))) = _
    rw [run_gap_value, Style.renderFields, hv.run_end (by decide)]
    change run ⟨.fields (setField k w done) :: K, .key⟩ (st.gap ++ (st.string k' ++ ':' ::
      (st.gap ++ (st.render x ++ st.renderFields fs)))) = _
    rw [run_gap_key, run_key]
    exact run_fields st fs hfs _ k' (reads_merge st x hx _ trivial)

end

theorem reads_render (st : Style) {v : Json} (h : wf v = true) {K : List Frame} (hK : Open K) :
    Reads K (st.render v) v := by
  have hreads := reads_merge st v (readable_of_wf h) K hK
  rwa [merge_of_wf h] at hreads

theorem loads_of_reads {cs : List Char} {v : Json} (h : Reads [] cs v) : loads cs = some v := by
  obtain ⟨s, hs, hset, hv⟩ := h
  rw [loads, hs]
  change finish s = some v
  obtain ⟨K, m⟩ := s
  cases m with
  | atom rev =>
    change (atom rev.reverse).bind (complete K) = some ⟨[], .done v⟩ at hv
    obtain ⟨w, hw, hc⟩ := Option.bind_eq_some_iff.mp hv
    cases K with
    | nil =>
      cases hc
      exact hw
    | cons f K => cases f <;> cases hc
  | after => cases hv
  | done w =>
    cases hv
    rfl
  | value => exact hset.elim
  | valueOrEnd => exact hset.elim
  | key => exact hset.elim
  | keyOrEnd => exact hset.elim
  | colon => exact hset.elim
  | string b r e => exact hset.elim

theorem loads_merge (st : Style) {v : Json} (h : readable v = true) :
    loads (st.render v) = some (merge v) := loads_of_reads (reads_merge st v h [] trivial)

theorem loads_render (st : Style) {v : Json} (h : wf v = true) : loads (st.render v) = some v :=
  loads_of_reads (reads_render st h trivial)

theorem render_injective (st : Style) {v w : Json} (hv : wf v = true) (hw : wf w = true)
    (h : st.render v = st.render w) : v = w := by
  have hload := loads_render st hv
  rw [h, loads_render st hw] at hload
  exact (Option.some.inj hload).symm

mutual

theorem dumps_eq : ∀ v : Json, dumps v = Style.compact.render v
  | .null => rfl
  | .bool true => rfl
  | .bool false => rfl
  | .nan => rfl
  | .infinity true => rfl
  | .infinity false => rfl
  | .int _ => rfl
  | .float _ => rfl
  | .str _ => rfl
  | .arr [] => rfl
  | .arr (v :: vs) => by
    rw [dumps, Style.render, dumps_eq v, dumpItems_eq vs]
  | .obj [] => rfl
  | .obj ((k, v) :: fs) => by
    rw [dumps, Style.render, dumps_eq v, dumpFields_eq fs]
    rfl

theorem dumpItems_eq : ∀ vs : List Json, dumpItems vs = Style.compact.renderItems vs
  | [] => rfl
  | v :: vs => by
    rw [dumpItems, Style.renderItems, dumps_eq v, dumpItems_eq vs]
    rfl

theorem dumpFields_eq : ∀ fs : List (List Char × Json),
    dumpFields fs = Style.compact.renderFields fs
  | [] => rfl
  | (k, v) :: fs => by
    rw [dumpFields, Style.renderFields, dumps_eq v, dumpFields_eq fs]
    rfl

end

theorem loads_dumps {v : Json} (h : wf v = true) : loads (dumps v) = some v := by
  rw [dumps_eq]
  exact loads_render Style.compact h

def OneLine (c : Char) : Prop := c.toNat ≠ 10 ∧ c.toNat ≠ 13

instance (c : Char) : Decidable (OneLine c) := inferInstanceAs (Decidable (_ ∧ _))

theorem escapeChar_oneLine (c : Char) : ∀ d ∈ escapeChar c, OneLine d := by
  have hhex : ∀ n < 16, OneLine (Nat.digitChar n) := by decide
  have hunit (n : ℕ) : ∀ d ∈ escapeUnit n, OneLine d := by
    intro d hd
    have hmod (m : ℕ) := hhex (m % 16) (Nat.mod_lt _ (by omega))
    simp only [escapeUnit, hex4, List.map_cons, List.map_nil, List.mem_cons, List.not_mem_nil,
      or_false] at hd
    rcases hd with rfl | rfl | rfl | rfl | rfl | rfl
    · decide
    · decide
    · exact hmod _
    · exact hmod _
    · exact hmod _
    · exact hmod _
  intro d hd
  unfold escapeChar at hd
  cases hs : shortEscape c with
  | some l =>
    rw [hs] at hd
    have hl : OneLine l := by
      unfold shortEscape at hs
      split_ifs at hs <;> cases hs <;> decide
    simp only [List.mem_cons, List.not_mem_nil, or_false] at hd
    rcases hd with rfl | rfl
    · decide
    · exact hl
  | none =>
    rw [hs] at hd
    dsimp only at hd
    split_ifs at hd with h1 h2
    · rw [List.mem_singleton.mp hd]
      exact ⟨by omega, by omega⟩
    · exact hunit _ d hd
    · rcases List.mem_append.mp hd with hd | hd
      · exact hunit _ d hd
      · exact hunit _ d hd

theorem rawChar_oneLine (c : Char) : ∀ d ∈ rawChar c, OneLine d := by
  intro d hd
  have hescape : d ∈ escapeChar c ∨ 32 ≤ c.toNat ∧ d = c := by
    unfold rawChar at hd
    unfold escapeChar
    cases hs : shortEscape c with
    | some l =>
      rw [hs] at hd
      exact .inl hd
    | none =>
      rw [hs] at hd
      dsimp only at hd ⊢
      split_ifs at hd with hc
      · rw [if_neg (by omega), if_pos (by omega)]
        exact .inl hd
      · exact .inr ⟨by omega, List.mem_singleton.mp hd⟩
  rcases hescape with hd | ⟨hc, rfl⟩
  · exact escapeChar_oneLine c d hd
  · exact ⟨by omega, by omega⟩

theorem string_oneLine (st : Style) (s : List Char) : ∀ d ∈ st.string s, OneLine d := by
  intro d hd
  simp only [Style.string, List.mem_cons, List.mem_append, List.mem_flatMap, List.not_mem_nil,
    or_false] at hd
  rcases hd with rfl | ⟨c, -, hd⟩ | rfl
  · decide
  · rw [Style.char] at hd
    split_ifs at hd
    · exact rawChar_oneLine c d hd
    · exact escapeChar_oneLine c d hd
  · decide

theorem gap_oneLine (st : Style) : ∀ d ∈ st.gap, OneLine d := by
  intro d hd
  rw [Style.gap] at hd
  split_ifs at hd
  · rw [List.mem_singleton.mp hd]
    decide
  · cases hd

theorem atomChar_oneLine {c : Char} (h : isAtomChar c = true) : OneLine c := by
  constructor
  · intro hc
    rw [toNat_eq hc] at h
    cases h
  · intro hc
    rw [toNat_eq hc] at h
    cases h

theorem oneLine_of_all {cs : List Char} (h : cs.all (fun d => OneLine d) = true) :
    ∀ d ∈ cs, OneLine d := fun d hd => of_decide_eq_true (List.all_eq_true.mp h d hd)

theorem field_oneLine {st : Style} {k cs ds : List Char} (hc : ∀ d ∈ cs, OneLine d)
    (hd : ∀ d ∈ ds, OneLine d) :
    ∀ d ∈ st.string k ++ ':' :: (st.gap ++ (cs ++ ds)), OneLine d := by
  intro d h
  simp only [List.mem_append, List.mem_cons] at h
  rcases h with h | rfl | h | h | h
  · exact string_oneLine st k d h
  · decide
  · exact gap_oneLine st d h
  · exact hc d h
  · exact hd d h

mutual

theorem render_oneLine (st : Style) : ∀ (v : Json), readable v = true →
    ∀ d ∈ st.render v, OneLine d
  | .null, _ => oneLine_of_all rfl
  | .bool true, _ => oneLine_of_all rfl
  | .bool false, _ => oneLine_of_all rfl
  | .nan, _ => oneLine_of_all rfl
  | .infinity true, _ => oneLine_of_all rfl
  | .infinity false, _ => oneLine_of_all rfl
  | .int n, _ => fun d hd => atomChar_oneLine (intText_atomChars n d hd)
  | .float _, h => fun d hd =>
    atomChar_oneLine (List.all_eq_true.mp (Bool.and_eq_true_iff.mp h).2 d hd)
  | .str s, _ => string_oneLine st s
  | .arr [], _ => oneLine_of_all rfl
  | .arr (v :: vs), h => fun d hd => by
    obtain ⟨hv, hvs⟩ := Bool.and_eq_true_iff.mp h
    rcases List.mem_cons.mp hd with rfl | hd
    · decide
    · exact (List.mem_append.mp hd).elim (render_oneLine st v hv d)
        (renderItems_oneLine st vs hvs d)
  | .obj [], _ => oneLine_of_all rfl
  | .obj ((k, v) :: fs), h => fun d hd => by
    obtain ⟨hv, hfs⟩ := Bool.and_eq_true_iff.mp h
    rcases List.mem_cons.mp hd with rfl | hd
    · decide
    · exact field_oneLine (render_oneLine st v hv) (renderFields_oneLine st fs hfs) d hd

theorem renderItems_oneLine (st : Style) : ∀ (vs : List Json), readableItems vs = true →
    ∀ d ∈ st.renderItems vs, OneLine d
  | [], _ => oneLine_of_all rfl
  | v :: vs, h => fun d hd => by
    obtain ⟨hv, hvs⟩ := Bool.and_eq_true_iff.mp h
    rcases List.mem_cons.mp hd with rfl | hd
    · decide
    · rcases List.mem_append.mp hd with hd | hd
      · exact gap_oneLine st d hd
      · exact (List.mem_append.mp hd).elim (render_oneLine st v hv d)
          (renderItems_oneLine st vs hvs d)

theorem renderFields_oneLine (st : Style) : ∀ (fs : List (List Char × Json)),
    readableFields fs = true → ∀ d ∈ st.renderFields fs, OneLine d
  | [], _ => oneLine_of_all rfl
  | (k, v) :: fs, h => fun d hd => by
    obtain ⟨hv, hfs⟩ := Bool.and_eq_true_iff.mp h
    rcases List.mem_cons.mp hd with rfl | hd
    · decide
    · rcases List.mem_append.mp hd with hd | hd
      · exact gap_oneLine st d hd
      · exact field_oneLine (render_oneLine st v hv) (renderFields_oneLine st fs hfs) d hd

end

theorem dumps_oneLine (v : Json) (h : readable v = true) : ∀ d ∈ dumps v, OneLine d := by
  rw [dumps_eq]
  exact render_oneLine Style.compact v h

theorem dumps_noNewline (v : Json) (h : wf v = true) : ∀ d ∈ dumps v, d.toNat ≠ 10 :=
  fun d hd => (dumps_oneLine v (readable_of_wf h) d hd).1

section torn

def Guarded (s : State) : Prop := s.stack ≠ [] ∨ ∃ v, s.mode = .done v

theorem complete_guarded {K : List Frame} {v : Json} {s : State} (h : complete K v = some s) :
    Guarded s := by
  unfold complete at h
  split at h <;> cases h
  · exact Or.inr ⟨v, rfl⟩
  · exact Or.inl (List.cons_ne_nil _ _)
  · exact Or.inl (List.cons_ne_nil _ _)

theorem close_guarded {K : List Frame} {c : Char} {s : State} (h : close K c = some s) :
    Guarded s := by
  unfold close at h
  split at h
  · split_ifs at h
    exact complete_guarded h
  · split_ifs at h
    exact complete_guarded h
  · cases h

theorem next_guarded {s t : State} {c : Char} (hs : Guarded s) (h : next s c = some t) :
    Guarded t := by
  unfold next at h
  by_cases hb : isBlank c = true
  · rw [if_pos hb] at h
    cases h
    exact hs
  · rw [if_neg hb] at h
    split at h
    · split_ifs at h
      · cases h
        exact Or.inl (List.cons_ne_nil _ _)
      · exact close_guarded h
    · split_ifs at h
      · cases h
        exact Or.inl (List.cons_ne_nil _ _)
      · exact close_guarded h
    · cases h

theorem startValue_guarded {K : List Frame} {c : Char} {s : State} (hK : K ≠ [])
    (h : startValue K c = some s) : Guarded s := by
  unfold startValue at h
  split_ifs at h <;> cases h
  · exact Or.inl (List.cons_ne_nil _ _)
  · exact Or.inl (List.cons_ne_nil _ _)
  · exact Or.inl hK
  · exact Or.inl hK

theorem startKey_guarded {K : List Frame} {c : Char} {s : State} (hK : K ≠ [])
    (h : startKey K c = some s) : Guarded s := by
  unfold startKey at h
  split_ifs at h
  cases h
  exact Or.inl hK

theorem stringStep_guarded {K : List Frame} {b : Bool} {r : List Char} {e : Escape} {c : Char}
    {s : State} (hK : K ≠ []) (h : stringStep K b r e c = some s) : Guarded s := by
  unfold stringStep at h
  split_ifs at h
  · unfold completeKey at h
    split at h <;> cases h
    exact Or.inl (List.cons_ne_nil _ _)
  · exact complete_guarded h
  · cases h
    exact Or.inl hK
  · obtain ⟨q, -, rfl⟩ := Option.map_eq_some_iff.mp h
    exact Or.inl hK

theorem step_guarded {s t : State} {c : Char} (hs : Guarded s) (h : step s c = some t) :
    Guarded t := by
  obtain ⟨K, m⟩ := s
  have hK (hm : ∀ v, m ≠ .done v) : K ≠ [] := by
    rcases hs with hs | ⟨v, hv⟩
    · exact hs
    · exact absurd hv (hm v)
  cases m with
  | value =>
    simp only [step] at h
    split_ifs at h
    · cases h
      exact hs
    · exact startValue_guarded (hK nofun) h
  | valueOrEnd =>
    simp only [step] at h
    split_ifs at h
    · cases h
      exact hs
    · exact close_guarded h
    · exact startValue_guarded (hK nofun) h
  | key =>
    simp only [step] at h
    split_ifs at h
    · cases h
      exact hs
    · exact startKey_guarded (hK nofun) h
  | keyOrEnd =>
    simp only [step] at h
    split_ifs at h
    · cases h
      exact hs
    · exact close_guarded h
    · exact startKey_guarded (hK nofun) h
  | colon =>
    simp only [step] at h
    split_ifs at h
    · cases h
      exact hs
    · cases h
      exact Or.inl (hK nofun)
  | after => exact next_guarded hs h
  | done v => exact next_guarded hs h
  | atom r =>
    simp only [step] at h
    split_ifs at h
    · obtain ⟨v, -, h⟩ := Option.bind_eq_some_iff.mp h
      obtain ⟨u, hu, h⟩ := Option.bind_eq_some_iff.mp h
      exact next_guarded (complete_guarded hu) h
    · cases h
      exact Or.inl (hK nofun)
  | string b r e => exact stringStep_guarded (hK nofun) h

theorem run_guarded {cs : List Char} : ∀ {s t : State}, Guarded s → run s cs = some t →
    Guarded t := by
  induction cs with
  | nil =>
    intro s t hs h
    cases h
    exact hs
  | cons c cs ih =>
    intro s t hs h
    rw [run_cons, Option.bind_eq_some_iff] at h
    obtain ⟨u, hu, h⟩ := h
    exact ih (step_guarded hs hu) h

theorem run_done {v : Json} {cs : List Char} {t : State}
    (h : run ⟨[], .done v⟩ cs = some t) : ∀ c ∈ cs, isBlank c = true := by
  induction cs with
  | nil => exact fun _ hc => absurd hc (by simp)
  | cons c cs ih =>
    rw [run_cons, Option.bind_eq_some_iff] at h
    obtain ⟨u, hu, h⟩ := h
    change next ⟨[], .done v⟩ c = some u at hu
    unfold next at hu
    split_ifs at hu with hb
    cases hu
    intro d hd
    rcases List.mem_cons.mp hd with rfl | hd
    · exact hb
    · exact ih h d hd

theorem dumpFields_last (fs : List (List Char × Json)) : ∃ ys, dumpFields fs = ys ++ ['}'] := by
  induction fs with
  | nil => exact ⟨[], rfl⟩
  | cons f fs ih =>
    obtain ⟨k, v⟩ := f
    obtain ⟨ys, hys⟩ := ih
    exact ⟨',' :: (dumpString k ++ ':' :: (dumps v ++ ys)), by simp [dumpFields, hys]⟩

theorem dumps_obj (fs : List (List Char × Json)) :
    ∃ ys, dumps (.obj fs) = '{' :: (ys ++ ['}']) := by
  cases fs with
  | nil => exact ⟨[], rfl⟩
  | cons f fs =>
    obtain ⟨k, v⟩ := f
    obtain ⟨ys, hys⟩ := dumpFields_last fs
    exact ⟨dumpString k ++ ':' :: (dumps v ++ ys), by simp [dumps, hys]⟩

theorem run_obj {fs : List (List Char × Json)} (h : wf (.obj fs) = true) (K : List Frame) :
    run ⟨K, .value⟩ (dumps (.obj fs)) = complete K (.obj fs) := by
  cases fs with
  | nil =>
    change (complete K (.obj [])).bind (fun t => run t []) = _
    cases complete K (.obj []) <;> rfl
  | cons f fs =>
    obtain ⟨k, v⟩ := f
    obtain ⟨hv, hfs⟩ := Bool.and_eq_true_iff.mp (readable_of_wf h)
    rw [dumps_eq]
    change run ⟨.fields [] :: K, .key⟩ (Style.compact.string k ++ ':' :: (Style.compact.gap ++
      (Style.compact.render v ++ Style.compact.renderFields fs))) = _
    rw [run_key, ← merge_of_wf h]
    exact run_fields _ fs hfs [] k (reads_merge _ v hv _ trivial)

theorem loads_line {fs : List (List Char × Json)} (h : wf (.obj fs) = true) :
    loads (dumps (.obj fs) ++ [Char.ofNat 10]) = some (.obj fs) := by
  rw [loads, run_append, run_obj h []]
  rfl

variable {fs : List (List Char × Json)} {p q : List Char}

theorem run_part (h : wf (.obj fs) = true) (hpq : dumps (.obj fs) = p ++ q) (hp : p ≠ []) :
    ∃ s, run ⟨[], .value⟩ p = some s ∧ Guarded s ∧
      run s q = some ⟨[], .done (.obj fs)⟩ := by
  have hrun := run_obj h []
  rw [hpq, run_append] at hrun
  obtain ⟨s, hs, hq⟩ := Option.bind_eq_some_iff.mp hrun
  refine ⟨s, hs, ?_, hq⟩
  obtain ⟨ys, hys⟩ := dumps_obj fs
  rw [hpq] at hys
  cases p with
  | nil => exact absurd rfl hp
  | cons c p =>
    obtain ⟨rfl, -⟩ := List.cons.inj hys
    change run ⟨[.fields []], .keyOrEnd⟩ p = some s at hs
    exact run_guarded (Or.inl (List.cons_ne_nil _ _)) hs

theorem loads_part (h : wf (.obj fs) = true) (hpq : dumps (.obj fs) = p ++ q) (hp : p ≠ [])
    (hq : q ≠ []) : loads p = none := by
  obtain ⟨s, hs, hg, hrest⟩ := run_part h hpq hp
  have hfin : finish s = none := by
    obtain ⟨K, m⟩ := s
    cases K with
    | cons f K => cases m <;> rfl
    | nil =>
      rcases hg with hg | ⟨v, rfl⟩
      · exact absurd rfl hg
      · obtain ⟨ys, hys⟩ := dumps_obj fs
        obtain ⟨zs, c, rfl⟩ := List.eq_nil_or_concat q |>.resolve_left hq
        have hc : c = '}' := by
          have hlast := congrArg List.getLast? (hpq.symm.trans hys)
          rw [List.concat_eq_append, ← List.append_assoc, List.getLast?_concat, ← List.cons_append,
            List.getLast?_concat] at hlast
          exact Option.some.inj hlast
        have hb := run_done hrest c (by simp)
        rw [hc] at hb
        cases hb
  rw [loads, hs]
  exact hfin

theorem complete_next {K : List Frame} (hK : K ≠ []) {v : Json} {s : State}
    (h : complete K v = some s) : next s 'o' = none ∧ s.stack ≠ [] ∧ s.mode = .after := by
  unfold complete at h
  split at h <;> cases h
  · exact absurd rfl hK
  · exact ⟨rfl, List.cons_ne_nil _ _, rfl⟩
  · exact ⟨rfl, List.cons_ne_nil _ _, rfl⟩

theorem next_brace (s : State) : next s '{' = none := by
  obtain ⟨K, m⟩ := s
  cases K with
  | nil => cases m <;> rfl
  | cons f K => cases f <;> cases m <;> rfl

theorem run_brace {K : List Frame} {v : Json} (cs : List Char) :
    run ⟨K, .done v⟩ ('{' :: cs) = none := by
  rw [run_cons]
  change (next ⟨K, .done v⟩ '{').bind _ = none
  rw [next_brace]
  rfl

theorem loads_glued {fs' : List (List Char × Json)} {ds : List Char} (h : wf (.obj fs) = true)
    (hpq : dumps (.obj fs) = p ++ q) (hp : p ≠ []) (h' : wf (.obj fs') = true)
    (hds : dumps (.obj fs') = '{' :: quote :: 'o' :: ds) :
    loads (p ++ (dumps (.obj fs') ++ [Char.ofNat 10])) = none := by
  obtain ⟨s, hs, hg, -⟩ := run_part h hpq hp
  have hnone : (run s (dumps (.obj fs') ++ [Char.ofNat 10])).bind finish = none := by
    obtain ⟨K, m⟩ := s
    rcases hg with hK | ⟨v, rfl⟩
    · have hvalue : (run ⟨K, .value⟩ (dumps (.obj fs') ++ [Char.ofNat 10])).bind finish =
          none := by
        rw [run_append, run_obj h']
        cases hc : complete K (.obj fs') with
        | none => rfl
        | some t =>
          obtain ⟨-, ht, hm⟩ := complete_next hK hc
          obtain ⟨K', m'⟩ := t
          cases hm
          cases K' with
          | nil => exact absurd rfl ht
          | cons f K' => rfl
      cases m with
      | value => exact hvalue
      | valueOrEnd =>
        rw [hds] at hvalue ⊢
        exact hvalue
      | key =>
        rw [hds]
        rfl
      | keyOrEnd =>
        rw [hds]
        rfl
      | colon =>
        rw [hds]
        rfl
      | done v =>
        rw [hds, List.cons_append, run_brace]
        rfl
      | atom r =>
        rw [hds]
        rfl
      | after =>
        rw [hds]
        cases K with
        | nil => rfl
        | cons f K => cases f <;> rfl
      | string b r e =>
        rw [hds]
        cases e with
        | slash => rfl
        | unit left acc => rfl
        | high hi => rfl
        | highSlash hi => rfl
        | low hi left acc => rfl
        | plain =>
          change (run ⟨K, .string b ('{' :: r) .plain⟩ (quote :: 'o' :: _)).bind finish = none
          cases b with
          | true =>
            change (((completeKey K _).bind (fun t => run t _)).bind finish) = none
            cases K with
            | nil => rfl
            | cons f K => cases f <;> rfl
          | false =>
            change (((complete K _).bind (fun t => run t _)).bind finish) = none
            cases hc : complete K (.str ('{' :: r).reverse) with
            | none => rfl
            | some t =>
              obtain ⟨hn, -, hm⟩ := complete_next hK hc
              have hstep : step t 'o' = none := by
                obtain ⟨K', m'⟩ := t
                cases hm
                exact hn
              change (run t ('o' :: _)).bind finish = none
              rw [run_cons, hstep]
              rfl
    · rw [hds, List.cons_append, run_brace]
      rfl
  rw [loads, run_append, hs]
  exact hnone

end torn

end Json
