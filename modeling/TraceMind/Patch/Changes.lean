import TraceMind.Patch.Store
import TraceMind.Dsl.CompilerSpec

namespace TraceMind.Patch

open Dsl (setItem find_setItem)
open Python

def encodeChar (c : Char) : Str :=
  if c = '~' then ['~', '0'] else if c = '/' then ['~', '1'] else [c]

def encodeSegment (s : Str) : Str := s.flatMap encodeChar

def encodePointer (segments : List Str) : Str := segments.flatMap (fun s => '/' :: encodeSegment s)

def tildesOf (s : Str) : Str := s.flatMap (fun c => if c = '~' then ['~', '0'] else [c])

theorem replacePair_ne {c d r x : Char} (h : x ≠ c) (s : Str) :
    replacePair c d r (x :: s) = x :: replacePair c d r s := by
  cases s with
  | nil => rfl
  | cons y cs => rw [replacePair, if_neg (fun hx => h hx.1)]

theorem replacePair_pair (c d r : Char) (s : Str) :
    replacePair c d r (c :: d :: s) = r :: replacePair c d r s := by
  rw [replacePair, if_pos ⟨rfl, rfl⟩]

theorem replacePair_next {c d r y : Char} (h : y ≠ d) (s : Str) :
    replacePair c d r (c :: y :: s) = c :: replacePair c d r (y :: s) := by
  rw [replacePair, if_neg (fun hy => h hy.2)]

theorem replace_slashes (s : Str) : replacePair '~' '1' '/' (encodeSegment s) = tildesOf s := by
  induction s with
  | nil => rfl
  | cons c s ih =>
    rw [encodeSegment, tildesOf, List.flatMap_cons, List.flatMap_cons, encodeChar]
    rw [encodeSegment, tildesOf] at ih
    split_ifs with h h'
    · exact (replacePair_next (by decide) _).trans
        (congrArg _ ((replacePair_ne (by decide) _).trans (congrArg _ ih)))
    · rw [h']
      exact (replacePair_pair _ _ _ _).trans (congrArg _ ih)
    · exact (replacePair_ne h _).trans (congrArg _ ih)

theorem replace_tildes (s : Str) : replacePair '~' '0' '~' (tildesOf s) = s := by
  induction s with
  | nil => rfl
  | cons c s ih =>
    rw [tildesOf, List.flatMap_cons]
    split_ifs with h
    · rw [h]
      exact (replacePair_pair _ _ _ _).trans (congrArg _ ih)
    · exact (replacePair_ne h _).trans (congrArg _ ih)

theorem decodeSegment_encode (s : Str) : decodeSegment (encodeSegment s) = s := by
  rw [decodeSegment, replace_slashes, replace_tildes]

theorem encodeSegment_no_slash (s : Str) : '/' ∉ encodeSegment s := by
  rw [encodeSegment, List.mem_flatMap]
  rintro ⟨c, -, hc⟩
  rw [encodeChar] at hc
  split_ifs at hc with h h' <;> simp at hc
  exact h' hc.symm

theorem splitOn_encode (segments : List Str) : ∀ {a : Str}, '/' ∉ a →
    (a ++ encodePointer segments).splitOn '/' = a :: segments.map encodeSegment := by
  induction segments with
  | nil =>
    intro a ha
    rw [encodePointer, List.flatMap_nil, List.append_nil, List.splitOn_eq_singleton ha]
    rfl
  | cons s rest ih =>
    intro a ha
    rw [encodePointer, List.flatMap_cons, List.cons_append,
      List.splitOn_append_cons_self_of_not_mem ha]
    exact congrArg _ (ih (encodeSegment_no_slash s))

theorem makePointerSegments_cons {s : Str} (hs : s ≠ []) (rest : List Str) :
    makePointerSegments (encodePointer (s :: rest)) = s :: rest := by
  obtain ⟨c, cs, hc⟩ := List.exists_cons_of_ne_nil
    (fun h => hs (by rw [← decodeSegment_encode s, h]; rfl) : encodeSegment s ≠ [])
  have hslash : c ≠ '/' := by
    rintro rfl
    exact encodeSegment_no_slash s (hc ▸ List.mem_cons_self)
  have hdrop : (encodePointer (s :: rest)).dropWhile (fun c => c = '/') =
      encodeSegment s ++ encodePointer rest := by
    rw [encodePointer, List.flatMap_cons, hc]
    simp [hslash, encodePointer]
  rw [makePointerSegments, hdrop, splitOn_encode rest (encodeSegment_no_slash s)]
  simp [List.map_map, Function.comp_def, decodeSegment_encode]

theorem makePointerSegments_nil {rest : List Str} (h : rest ≠ []) :
    makePointerSegments (encodePointer ([] :: rest)) = makePointerSegments (encodePointer rest) := by
  obtain ⟨s, rest, rfl⟩ := List.exists_cons_of_ne_nil h
  rfl

theorem makePointerSegments_length (segments : List Str) (h : segments ≠ []) :
    (makePointerSegments (encodePointer segments)).length ≤ segments.length := by
  induction segments with
  | nil => exact absurd rfl h
  | cons s rest ih =>
    by_cases hs : s = []
    · subst hs
      by_cases hr : rest = []
      · subst hr
        decide
      · rw [makePointerSegments_nil hr]
        exact Nat.le_succ_of_le (ih hr)
    · rw [makePointerSegments_cons hs]

theorem segments_round_trip {s : Str} {rest : List Str} :
    makePointerSegments (encodePointer (s :: rest)) = s :: rest ↔ (s ≠ [] ∨ rest = []) := by
  constructor
  · intro h
    by_contra hno
    obtain ⟨hs, hr⟩ := not_or.mp hno
    obtain rfl := not_not.mp hs
    rw [makePointerSegments_nil hr] at h
    have hlen := makePointerSegments_length rest hr
    rw [h, List.length_cons] at hlen
    omega
  · rintro (hs | rfl)
    · exact makePointerSegments_cons hs rest
    · by_cases hs : s = []
      · subst hs
        rfl
      · exact makePointerSegments_cons hs []

section places

inductive Place where
  | key (k : Str)
  | index (n : ℕ)

def child : Json → Place → Option Json
  | .obj fs, .key k => OrderedDict.find k fs
  | .arr vs, .index n => vs[n]?
  | _, _ => none

def valueAt : Json → List Place → Option Json
  | v, [] => some v
  | v, p :: ps => (child v p).bind (fun u => valueAt u ps)

def Alike : Json → Json → Prop
  | .obj _, .obj _ => True
  | .arr _, .arr _ => True
  | u, v => u = v

def Keeps (loc : List Place) (v v' : Json) : Prop :=
  ∀ q, ¬loc <+: q →
    (valueAt v q = none ∧
      (valueAt v' q = none ∨ q <+: loc ∧ ∃ fs, valueAt v' q = some (.obj fs))) ∨
    ∃ u u', valueAt v q = some u ∧ valueAt v' q = some u' ∧ Alike u u'

theorem Alike.refl (u : Json) : Alike u u := by
  cases u <;> trivial

variable {p : Place} {loc : List Place} {v v' u u' : Json}

theorem keeps_elsewhere {k : Place} {q : List Place} (h : child v' k = child v k) :
    (valueAt v (k :: q) = none ∧ (valueAt v' (k :: q) = none ∨
      k :: q <+: loc ∧ ∃ fs, valueAt v' (k :: q) = some (.obj fs))) ∨
    ∃ u u', valueAt v (k :: q) = some u ∧ valueAt v' (k :: q) = some u' ∧ Alike u u' := by
  have he : valueAt v' (k :: q) = valueAt v (k :: q) := by rw [valueAt, valueAt, h]
  rw [he]
  cases hv : valueAt v (k :: q) with
  | none => exact Or.inl ⟨rfl, Or.inl rfl⟩
  | some u => exact Or.inr ⟨u, u, rfl, rfl, .refl u⟩

theorem keeps_child (halike : Alike v v') (h : ∀ k ≠ p, child v' k = child v k) :
    Keeps [p] v v' := by
  intro q hq
  cases q with
  | nil => exact Or.inr ⟨v, v', rfl, rfl, halike⟩
  | cons k q =>
    by_cases hk : k = p
    · exact absurd ⟨q, by rw [hk]; rfl⟩ hq
    · exact keeps_elsewhere (h k hk)

theorem keeps_below (halike : Alike v v') (h : ∀ k ≠ p, child v' k = child v k)
    (hu : child v p = some u ∨ child v p = none ∧ u = .obj []) (hu' : child v' p = some u')
    (hkeeps : Keeps loc u u') : Keeps (p :: loc) v v' := by
  intro q hq
  cases q with
  | nil => exact Or.inr ⟨v, v', rfl, rfl, halike⟩
  | cons k q =>
    by_cases hk : k = p
    · subst hk
      have hbelow := hkeeps q (fun hp => hq (List.cons_prefix_cons.mpr ⟨rfl, hp⟩))
      rw [valueAt, valueAt, hu', Option.bind_some]
      rw [List.cons_prefix_cons, and_iff_right rfl]
      rcases hu with hu | ⟨hnone, rfl⟩
      · rw [hu, Option.bind_some]
        exact hbelow
      · rw [hnone, Option.bind_none]
        left
        refine ⟨rfl, ?_⟩
        cases q with
        | nil =>
          obtain ⟨hn, -⟩ | ⟨w, w', hw, hw', ha⟩ := hbelow
          · cases hn
          · cases hw
            cases w' with
            | obj fs => exact Or.inr ⟨List.nil_prefix, fs, hw'⟩
            | _ => cases ha
        | cons k' q =>
          obtain ⟨-, hn⟩ | ⟨w, w', hw, -⟩ := hbelow
          · exact hn
          · cases k' <;> cases hw
    · exact keeps_elsewhere (h k hk)

theorem child_setItem (fs : List (Str × Json)) (s : Str) (x : Json) :
    child (.obj (setItem s x fs)) (.key s) = some x ∧
      ∀ k ≠ .key s, child (.obj (setItem s x fs)) k = child (.obj fs) k := by
  constructor
  · rw [child, find_setItem, if_pos rfl]
  · intro k hk
    cases k with
    | key j => rw [child, child, find_setItem, if_neg (fun he => hk (congrArg Place.key he))]
    | index n => rfl

theorem child_set {vs : List Json} {i : ℕ} (hi : i < vs.length) (x : Json) :
    child (.arr (vs.set i x)) (.index i) = some x ∧
      ∀ k ≠ .index i, child (.arr (vs.set i x)) k = child (.arr vs) k := by
  constructor
  · exact List.getElem?_set_self hi
  · intro k hk
    cases k with
    | key j => rfl
    | index n => exact List.getElem?_set_ne (fun he => hk (congrArg Place.index he.symm))

theorem child_append (vs : List Json) (x : Json) :
    child (.arr (vs ++ [x])) (.index vs.length) = some x ∧
      ∀ k ≠ .index vs.length, child (.arr (vs ++ [x])) k = child (.arr vs) k := by
  constructor
  · exact List.getElem?_concat_length
  · intro k hk
    cases k with
    | key j => rfl
    | index n =>
      have hn : n ≠ vs.length := fun he => hk (congrArg Place.index he)
      rcases Nat.lt_or_gt_of_ne hn with hlt | hgt
      · exact List.getElem?_append_left hlt
      · rw [child, child, List.getElem?_eq_none (by rw [List.length_append]; exact hgt),
          List.getElem?_eq_none (Nat.le_of_lt hgt)]

end places

section changes

def locate : Json → List Str → Option (List Place)
  | _, [] => some []
  | .arr vs, [segment] =>
    if segment = ['-'] then some [.index vs.length]
    else (Queue.intOfText segment).bind fun i =>
      if i = vs.length then some [.index vs.length]
      else (position vs.length i).map fun k => [.index k]
  | .arr vs, segment :: rest =>
    (Queue.intOfText segment).bind fun i => (position vs.length i).bind fun k =>
      (locate (vs.getD k .null) rest).map fun loc => .index k :: loc
  | .obj fs, segment :: rest =>
    (locate ((OrderedDict.find segment fs).getD (.obj [])) rest).map fun loc => .key segment :: loc
  | _, _ :: _ => none

def lookup (v : Json) (segments : List Str) : Option Json :=
  (locate v segments).bind fun loc => valueAt v loc

variable {change : List (Str × Json)} {segments rest : List Str} {segment : Str} {v v' : Json}
  {vs : List Json} {fs : List (Str × Json)}

theorem locate_obj : locate (.obj fs) (segment :: rest) =
    (locate ((OrderedDict.find segment fs).getD (.obj [])) rest).map fun loc =>
      .key segment :: loc := by
  cases rest <;> rfl

theorem locate_arr {next : Str} : locate (.arr vs) (segment :: next :: rest) =
    (Queue.intOfText segment).bind fun i => (position vs.length i).bind fun k =>
      (locate (vs.getD k .null) (next :: rest)).map fun loc => .index k :: loc := rfl

theorem changeAt_obj {next : Str} : changeAt change (segment :: next :: rest) (.obj fs) =
    changeAt change (next :: rest) ((OrderedDict.find segment fs).getD (.obj [])) >>= fun u =>
      .ok (.obj (setItem segment u fs)) := rfl

theorem listIndex_ok {s message : Str} {i : ℤ} (h : listIndex s message = .ok i) :
    Queue.intOfText s = some i := by
  rw [listIndex] at h
  cases hi : Queue.intOfText s with
  | none =>
    rw [hi] at h
    cases h
  | some j =>
    rw [hi] at h
    cases h
    rfl

theorem changeAt_arr {next : Str} :
    changeAt change (segment :: next :: rest) (.arr vs) = .ok v' ↔
      ∃ i k u, Queue.intOfText segment = some i ∧ position vs.length i = some k ∧
        changeAt change (next :: rest) (vs.getD k .null) = .ok u ∧ v' = .arr (vs.set k u) := by
  constructor
  · intro h
    obtain ⟨i, hi, h⟩ := Fallible.bind_eq_ok.mp h
    cases hk : position vs.length i with
    | none =>
      rw [hk] at h
      cases h
    | some k =>
      rw [hk] at h
      obtain ⟨u, hu, h⟩ := Fallible.bind_eq_ok.mp h
      cases h
      exact ⟨i, k, u, listIndex_ok hi, hk, hu, rfl⟩
  · rintro ⟨i, k, u, hi, hk, hu, rfl⟩
    refine Fallible.bind_eq_ok.mpr ⟨i, by rw [listIndex, hi], ?_⟩
    rw [hk]
    exact Fallible.bind_eq_ok.mpr ⟨u, hu, rfl⟩

theorem position_lt {n k : ℕ} {i : ℤ} (h : position n i = some k) : k < n := by
  rw [position] at h
  split_ifs at h <;> cases h <;> omega

theorem valueAt_single {p : Place} {x : Json} (h : child v p = some x) :
    valueAt v [p] = some x := by
  rw [valueAt, h]
  rfl

theorem changeItem_spec (hr : removes change = false) (h : changeItem change segment vs = .ok v') :
    (v' = .arr (vs ++ [newValue change]) ∧ (segment = ['-'] ∨
        Queue.intOfText segment = some (vs.length : ℤ) ∧ segment ≠ ['-'])) ∨
      ∃ i k, segment ≠ ['-'] ∧ Queue.intOfText segment = some i ∧ i ≠ vs.length ∧
        position vs.length i = some k ∧ v' = .arr (vs.set k (newValue change)) := by
  rw [changeItem] at h
  by_cases hdash : segment = ['-']
  · rw [if_pos hdash] at h
    obtain ⟨i, hi, h⟩ := Fallible.bind_eq_ok.mp h
    cases hi
    beta_reduce at h
    rw [hr, if_neg Bool.false_ne_true, if_pos rfl] at h
    cases h
    exact Or.inl ⟨rfl, Or.inl hdash⟩
  · rw [if_neg hdash] at h
    obtain ⟨i, hi, h⟩ := Fallible.bind_eq_ok.mp h
    beta_reduce at h
    rw [hr, if_neg Bool.false_ne_true] at h
    by_cases hend : i = vs.length
    · rw [if_pos hend] at h
      cases h
      exact Or.inl ⟨rfl, Or.inr ⟨(listIndex_ok hi).trans (congrArg some hend), hdash⟩⟩
    · rw [if_neg hend] at h
      cases hk : position vs.length i with
      | none =>
        rw [hk] at h
        cases h
      | some k =>
        rw [hk] at h
        cases h
        exact Or.inr ⟨i, k, hdash, listIndex_ok hi, hend, hk, rfl⟩

theorem changeAt_spec (hr : removes change = false) : ∀ {segments : List Str} {v v' : Json},
    segments ≠ [] → changeAt change segments v = .ok v' →
      ∃ loc, locate v segments = some loc ∧ valueAt v' loc = some (newValue change) ∧
        Keeps loc v v' ∧ (segments.getLast? ≠ some ['-'] → locate v' segments = some loc) := by
  intro segments
  induction segments with
  | nil => exact fun hne _ => absurd rfl hne
  | cons segment rest ih =>
    intro v v' _ h
    cases v with
    | obj fs =>
      cases rest with
      | nil =>
        have hv' : v' = .obj (setItem segment (newValue change) fs) := by
          rw [changeAt, changeField, hr] at h
          exact (Except.ok.inj h).symm
        subst hv'
        obtain ⟨hin, hout⟩ := child_setItem fs segment (newValue change)
        exact ⟨[.key segment], rfl, valueAt_single hin, keeps_child trivial hout, fun _ => rfl⟩
      | cons next rest =>
        rw [changeAt_obj] at h
        obtain ⟨u', hu', h⟩ := Fallible.bind_eq_ok.mp h
        cases h
        obtain ⟨loc, hloc, hvalue, hkeeps, hagain⟩ := ih (List.cons_ne_nil _ _) hu'
        obtain ⟨hin, hout⟩ := child_setItem fs segment u'
        refine ⟨.key segment :: loc, ?_, ?_, ?_, fun hlast => ?_⟩
        · rw [locate_obj, hloc]
          rfl
        · rw [valueAt, hin]
          exact hvalue
        · refine keeps_below trivial hout ?_ hin hkeeps
          cases hf : OrderedDict.find segment fs with
          | none => exact Or.inr ⟨hf, rfl⟩
          | some u => exact Or.inl hf
        · rw [locate_obj, find_setItem, if_pos rfl, Option.getD_some, hagain hlast]
          rfl
    | arr vs =>
      cases rest with
      | nil =>
        rw [changeAt] at h
        rcases changeItem_spec hr h with ⟨rfl, hend⟩ | ⟨i, k, hdash, hi, hne, hk, rfl⟩
        · obtain ⟨hin, hout⟩ := child_append vs (newValue change)
          refine ⟨[.index vs.length], ?_, valueAt_single hin, keeps_child trivial hout, ?_⟩
          · rcases hend with hdash | ⟨hi, hdash⟩
            · rw [locate, if_pos hdash]
            · rw [locate, if_neg hdash, hi, Option.bind_some, if_pos rfl]
          · intro hlast
            obtain ⟨hi, hdash⟩ := hend.resolve_left (fun he => hlast (congrArg some he))
            have hpos : position (vs ++ [newValue change]).length vs.length = some vs.length := by
              rw [position, List.length_append]
              simp
            have hne : (vs.length : ℤ) ≠ ((vs ++ [newValue change]).length : ℕ) := by
              rw [List.length_append, List.length_singleton]
              omega
            rw [locate, if_neg hdash, hi, Option.bind_some, if_neg hne, hpos]
            rfl
        · obtain ⟨hin, hout⟩ := child_set (position_lt hk) (newValue change)
          refine ⟨[.index k], ?_, valueAt_single hin, keeps_child trivial hout, fun _ => ?_⟩
          · rw [locate, if_neg hdash, hi, Option.bind_some, if_neg hne, hk]
            rfl
          · rw [locate, if_neg hdash, hi, Option.bind_some, List.length_set, if_neg hne, hk]
            rfl
      | cons next rest =>
        obtain ⟨i, k, u', hi, hk, hu', rfl⟩ := changeAt_arr.mp h
        have hlt := position_lt hk
        obtain ⟨loc, hloc, hvalue, hkeeps, hagain⟩ := ih (List.cons_ne_nil _ _) hu'
        obtain ⟨hin, hout⟩ := child_set hlt u'
        have hget : vs[k]? = some (vs.getD k .null) := by
          rw [List.getD_eq_getElem?_getD, List.getElem?_eq_getElem hlt, Option.getD_some]
        refine ⟨.index k :: loc, ?_, ?_, ?_, fun hlast => ?_⟩
        · rw [locate_arr, hi, Option.bind_some, hk, Option.bind_some, hloc]
          rfl
        · rw [valueAt, hin]
          exact hvalue
        · exact keeps_below trivial hout (Or.inl hget) hin hkeeps
        · have hset : (vs.set k u').getD k .null = u' := by
            rw [List.getD_eq_getElem?_getD, List.getElem?_set_self hlt]
            rfl
          rw [locate_arr, hi, Option.bind_some, List.length_set, hk, Option.bind_some, hset,
            hagain hlast]
          rfl
    | _ => cases rest <;> cases h

def HasParent : List Str → Json → Prop
  | [], _ => True
  | [_], .obj _ => True
  | [segment], .arr _ => segment = ['-'] ∨ (Queue.intOfText segment).isSome = true
  | segment :: rest, .obj fs => ∃ u, OrderedDict.find segment fs = some u ∧ HasParent rest u
  | segment :: rest, .arr vs =>
    ∃ i k, Queue.intOfText segment = some i ∧ position vs.length i = some k ∧
      HasParent rest (vs.getD k .null)
  | _ :: _, _ => False

theorem setItem_self {u : Json} (h : OrderedDict.find segment fs = some u) :
    setItem segment u fs = fs := by
  induction fs with
  | nil => cases h
  | cons e es ih =>
    rw [OrderedDict.find] at h
    rw [setItem]
    split_ifs at h ⊢ with hk
    · cases h
      rw [← hk]
    · rw [ih h]

theorem filter_of_find_none (h : OrderedDict.find segment fs = none) :
    fs.filter (fun f => f.1 ≠ segment) = fs := by
  induction fs with
  | nil => rfl
  | cons e es ih =>
    rw [OrderedDict.find] at h
    split_ifs at h with hk
    rw [List.filter_cons_of_pos (by simpa using hk), ih h]

theorem changeItem_absent (hr : removes change = true) (habsent : lookup (.arr vs) [segment] = none) :
    changeItem change segment vs = .ok (.arr vs) ↔ HasParent [segment] (.arr vs) := by
  rw [changeItem, HasParent]
  by_cases hdash : segment = ['-']
  · rw [if_pos hdash]
    refine iff_of_true ?_ (Or.inl hdash)
    refine Fallible.bind_eq_ok.mpr ⟨_, rfl, ?_⟩
    beta_reduce
    rw [if_pos hr, if_neg (by omega)]
  · rw [if_neg hdash, or_iff_right hdash, listIndex]
    cases hi : Queue.intOfText segment with
    | none => exact iff_of_false (fun h => by cases h) (fun h => by cases h)
    | some i =>
      refine iff_of_true ?_ rfl
      refine Fallible.bind_eq_ok.mpr ⟨i, rfl, ?_⟩
      beta_reduce
      rw [if_pos hr, if_neg]
      rintro ⟨hpos, hlt⟩
      have hk : position vs.length i = some i.toNat := by
        rw [position, if_pos hpos, if_pos (by omega)]
      rw [lookup, locate, if_neg hdash, hi, Option.bind_some, if_neg (by omega), hk] at habsent
      have hget : vs[i.toNat]? = none := by
        simpa [valueAt, child, Option.bind_eq_none_iff] using habsent
      rw [List.getElem?_eq_none_iff] at hget
      omega

theorem lookup_obj {u : Json} (hu : OrderedDict.find segment fs = some u) :
    lookup (.obj fs) (segment :: rest) = lookup u rest := by
  rw [lookup, lookup, locate_obj, hu, Option.getD_some]
  cases locate u rest with
  | none => rfl
  | some loc =>
    change (child (.obj fs) (.key segment)).bind (fun u => valueAt u loc) = valueAt u loc
    rw [child, hu]
    rfl

theorem lookup_arr {next : Str} {i : ℤ} {k : ℕ} (hi : Queue.intOfText segment = some i)
    (hk : position vs.length i = some k) :
    lookup (.arr vs) (segment :: next :: rest) = lookup (vs.getD k .null) (next :: rest) := by
  rw [lookup, lookup, locate_arr, hi, Option.bind_some, hk, Option.bind_some]
  cases locate (vs.getD k .null) (next :: rest) with
  | none => rfl
  | some loc =>
    change (child (.arr vs) (.index k)).bind (fun u => valueAt u loc) = valueAt _ loc
    rw [child, List.getElem?_eq_getElem (position_lt hk), Option.bind_some,
      List.getD_eq_getElem?_getD, List.getElem?_eq_getElem (position_lt hk), Option.getD_some]

theorem set_getD {k : ℕ} {u : Json} (hk : k < vs.length) : vs.set k u = vs ↔ u = vs.getD k .null := by
  rw [List.getD_eq_getElem?_getD, List.getElem?_eq_getElem hk, Option.getD_some]
  constructor
  · intro h
    have hget := List.getElem?_set_self (a := u) hk
    rw [h, List.getElem?_eq_getElem hk] at hget
    exact (Option.some.inj hget).symm
  · rintro rfl
    exact List.set_getElem_self hk

theorem remove_absent_iff (hr : removes change = true) : ∀ {segments : List Str} {v : Json},
    segments ≠ [] → lookup v segments = none →
      (changeAt change segments v = .ok v ↔ HasParent segments v) := by
  intro segments
  induction segments with
  | nil => exact fun hne _ => absurd rfl hne
  | cons segment rest ih =>
    intro v _ habsent
    cases v with
    | obj fs =>
      cases rest with
      | nil =>
        have hnone : OrderedDict.find segment fs = none := by
          cases hf : OrderedDict.find segment fs with
          | none => rfl
          | some u =>
            rw [lookup_obj hf] at habsent
            cases habsent
        refine iff_of_true ?_ trivial
        rw [changeAt, changeField, if_pos hr, filter_of_find_none hnone]
      | cons next rest =>
        rw [changeAt_obj, Fallible.bind_eq_ok]
        constructor
        · rintro ⟨u, hu, he⟩
          have hset : setItem segment u fs = fs := Json.obj.inj (Except.ok.inj he)
          have hfind : OrderedDict.find segment fs = some u := by
            rw [← hset, find_setItem, if_pos rfl]
          rw [hfind, Option.getD_some] at hu
          rw [lookup_obj hfind] at habsent
          exact ⟨u, hfind, (ih (List.cons_ne_nil _ _) habsent).mp hu⟩
        · rintro ⟨u, hfind, hparent⟩
          rw [lookup_obj hfind] at habsent
          refine ⟨u, ?_, by rw [setItem_self hfind]⟩
          rw [hfind]
          exact (ih (List.cons_ne_nil _ _) habsent).mpr hparent
    | arr vs =>
      cases rest with
      | nil => exact changeItem_absent hr habsent
      | cons next rest =>
        rw [changeAt_arr]
        constructor
        · rintro ⟨i, k, u, hi, hk, hu, he⟩
          rw [lookup_arr hi hk] at habsent
          have hset := (set_getD (position_lt hk)).mp (Json.arr.inj he).symm
          rw [hset] at hu
          exact ⟨i, k, hi, hk, (ih (List.cons_ne_nil _ _) habsent).mp hu⟩
        · rintro ⟨i, k, hi, hk, hparent⟩
          rw [lookup_arr hi hk] at habsent
          refine ⟨i, k, _, hi, hk, (ih (List.cons_ne_nil _ _) habsent).mpr hparent, ?_⟩
          rw [(set_getD (position_lt hk)).mpr rfl]
    | _ =>
      refine iff_of_false (fun h => ?_) (fun h => ?_)
      · cases rest <;> cases h
      · cases rest <;> exact h

variable {doc doc' : Doc}

theorem pointerOf_ne (h : pointerOf change = .ok segments) : segments ≠ [] := by
  rw [pointerOf] at h
  split at h
  · cases h
  · cases h
    rw [makePointerSegments, Ne, List.map_eq_nil_iff]
    exact List.splitOn_ne_nil _ _
  · cases h

theorem applySingleChange_ok (hp : pointerOf change = .ok segments) :
    applySingleChange doc change = .ok doc' ↔ ∃ fs gs, toJsonFields doc = some fs ∧
      changeAt change segments (.obj fs) = .ok (.obj gs) ∧ doc' = ofJsonFields gs := by
  rw [applySingleChange]
  cases hfs : toJsonFields doc with
  | none => exact iff_of_false (fun h => by cases h) (fun h => by cases h.choose_spec.choose_spec.1)
  | some fs =>
    dsimp only
    rw [Fallible.bind_eq_ok, hp]
    constructor
    · rintro ⟨_, hs, h⟩
      cases hs
      obtain ⟨v, hv, h⟩ := Fallible.bind_eq_ok.mp h
      cases v with
      | obj gs =>
        cases h
        exact ⟨fs, gs, rfl, hv, rfl⟩
      | _ => cases h
    · rintro ⟨_, gs, he, hv, rfl⟩
      cases he
      exact ⟨segments, rfl, Fallible.bind_eq_ok.mpr ⟨.obj gs, hv, rfl⟩⟩

theorem remove_unchanged_iff (hfs : toJsonFields doc = some fs) (hp : pointerOf change = .ok segments)
    (hr : removes change = true) (habsent : lookup (.obj fs) segments = none) :
    applySingleChange doc change = .ok doc ↔ HasParent segments (.obj fs) := by
  rw [applySingleChange_ok hp, ← remove_absent_iff hr (pointerOf_ne hp) habsent]
  constructor
  · rintro ⟨_, gs, he, hv, rfl⟩
    rw [toJsonFields_ofJson] at he hfs
    cases he
    cases hfs
    exact hv
  · exact fun hv => ⟨fs, fs, hfs, hv, (ofJsonFields_toJson hfs).symm⟩

def WritesAt (change : List (Str × Json)) (segments : List Str) (v v' : Json) : Prop :=
  ∃ loc, locate v segments = some loc ∧ valueAt v' loc = some (newValue change) ∧
    Keeps loc v v' ∧ (segments.getLast? ≠ some ['-'] → lookup v' segments = some (newValue change))

theorem change_writes (hp : pointerOf change = .ok segments) (hr : removes change = false)
    (h : applySingleChange doc change = .ok doc') : ∃ fs gs, toJsonFields doc = some fs ∧
      toJsonFields doc' = some gs ∧ WritesAt change segments (.obj fs) (.obj gs) := by
  obtain ⟨fs, gs, hfs, hv, rfl⟩ := (applySingleChange_ok hp).mp h
  obtain ⟨loc, hloc, hvalue, hkeeps, hagain⟩ := changeAt_spec hr (pointerOf_ne hp) hv
  refine ⟨fs, gs, hfs, toJsonFields_ofJson gs, loc, hloc, hvalue, hkeeps, fun hlast => ?_⟩
  rw [lookup, hagain hlast]
  exact hvalue

theorem pointer_changes_iff (s : Str) (names segments : List Str) (doc doc' : Doc)
    (fs change : List (Str × Json)) :
    (makePointerSegments (encodePointer (s :: names)) = s :: names ↔ (s ≠ [] ∨ names = [])) ∧
    (toJsonFields doc = some fs → pointerOf change = .ok segments → removes change = true →
      lookup (.obj fs) segments = none →
        (applySingleChange doc change = .ok doc ↔ HasParent segments (.obj fs))) ∧
    (pointerOf change = .ok segments → removes change = false →
      applySingleChange doc change = .ok doc' → ∃ fs gs, toJsonFields doc = some fs ∧
        toJsonFields doc' = some gs ∧ WritesAt change segments (.obj fs) (.obj gs)) :=
  ⟨segments_round_trip, remove_unchanged_iff, change_writes⟩

def removeNested : List (Str × Json) :=
  [("op".toList, .str "remove".toList), ("path".toList, .str "/a/b".toList)]

theorem remove_creates_parent :
    pointerOf removeNested = .ok [['a'], ['b']] ∧ removes removeNested = true ∧
      lookup (.obj []) [['a'], ['b']] = none ∧
      applySingleChange [] removeNested = .ok [(['a'], .dict [])] ∧
      encodePointer [[], ['a']] = "//a".toList ∧
      makePointerSegments (encodePointer [[], ['a']]) = [['a']] := by
  refine ⟨rfl, rfl, rfl, rfl, rfl, ?_⟩
  exact (makePointerSegments_nil (List.cons_ne_nil _ _)).trans
    (makePointerSegments_cons (List.cons_ne_nil _ _) [])

theorem remove_absent_unchanged :
    applySingleChange [(['a'], .dict [])] removeNested = .ok [(['a'], .dict [])] :=
  ((pointer_changes_iff [] [] [['a'], ['b']] [(['a'], .dict [])] [] _ removeNested).2.1
    rfl rfl rfl rfl).mpr ⟨.obj [], rfl, trivial⟩

end changes

end TraceMind.Patch
