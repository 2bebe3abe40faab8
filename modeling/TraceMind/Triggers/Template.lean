import TraceMind.Foundation.OrderedDict
import TraceMind.Queue.Envelope

namespace TraceMind.Triggers

open Queue (PyText)

section replace

def replaceFrom (old new : Str) : ℕ → Str → Str
  | _, [] => []
  | n + 1, _ :: cs => replaceFrom old new n cs
  | 0, c :: cs =>
    if old.isPrefixOf (c :: cs) then new ++ replaceFrom old new (old.length - 1) cs
    else c :: replaceFrom old new 0 cs

def replaceAll (old new text : Str) : Str := replaceFrom old new 0 text

variable {old new : Str}

theorem replaceFrom_drop (n : ℕ) (text : Str) :
    replaceFrom old new n text = replaceFrom old new 0 (text.drop n) := by
  induction text generalizing n with
  | nil => cases n <;> rfl
  | cons c cs ih =>
    cases n with
    | zero => rfl
    | succ n => exact ih n

theorem replaceAll_occurrence (hold : old ≠ []) (text : Str) :
    replaceAll old new (old ++ text) = new ++ replaceAll old new text := by
  obtain ⟨c, cs, rfl⟩ := List.exists_cons_of_ne_nil hold
  rw [replaceAll, List.cons_append, replaceFrom, if_pos, replaceFrom_drop]
  · simp [replaceAll]
  · simp

theorem replaceAll_skip {first text : Str}
    (h : ∀ x z, first = x ++ z → z ≠ [] → ¬ old <+: z ++ text) :
    replaceAll old new (first ++ text) = first ++ replaceAll old new text := by
  induction first with
  | nil => rfl
  | cons c cs ih =>
    have hnot : ¬ old.isPrefixOf (c :: (cs ++ text)) = true := by
      intro hp
      exact h [] (c :: cs) rfl (by simp) (List.isPrefixOf_iff_prefix.mp hp)
    rw [List.cons_append, replaceAll, replaceFrom, if_neg hnot]
    exact congrArg (c :: ·) (ih (fun x z hx => h (c :: x) z (by rw [hx, List.cons_append])))

end replace

structure Hole where
  key : Str
  spaced : Bool
deriving DecidableEq

def Hole.inner (h : Hole) : Str := if h.spaced then ' ' :: (h.key ++ [' ']) else h.key

def Hole.placeholder (h : Hole) : Str := '{' :: '{' :: (h.inner ++ ['}', '}'])

def holesOf (keys : List Str) : List Hole := keys.flatMap (fun key => [⟨key, true⟩, ⟨key, false⟩])

def substitutePlaceholders (value : Str → Str) (keys : List Str) (template : Str) : Str :=
  (holesOf keys).foldl (fun result h => replaceAll h.placeholder (value h.key) result) template

mutual

def renderValue (f : Str → Str) : Json → Json
  | .str s => .str (f s)
  | .arr items => .arr (renderItems f items)
  | .obj fields => .obj (renderTemplate f fields)
  | v => v

def renderItems (f : Str → Str) : List Json → List Json
  | [] => []
  | v :: vs => renderValue f v :: renderItems f vs

def renderTemplate (f : Str → Str) : List (Str × Json) → List (Str × Json)
  | [] => []
  | (k, v) :: fields => (k, renderValue f v) :: renderTemplate f fields

end

inductive Piece where
  | lit (c : Char)
  | hole (h : Hole)

def piecesFrom (holes : List Hole) : ℕ → Str → List Piece
  | _, [] => []
  | n + 1, _ :: cs => piecesFrom holes n cs
  | 0, c :: cs =>
    match holes.find? (fun h => h.placeholder.isPrefixOf (c :: cs)) with
    | some h => .hole h :: piecesFrom holes (h.placeholder.length - 1) cs
    | none => .lit c :: piecesFrom holes 0 cs

def pieces (holes : List Hole) (template : Str) : List Piece := piecesFrom holes 0 template

def Piece.render (value : Str → Str) (done : List Hole) : Piece → Str
  | .lit c => [c]
  | .hole h => if h ∈ done then value h.key else h.placeholder

def render (value : Str → Str) (done : List Hole) (ps : List Piece) : Str :=
  ps.flatMap (Piece.render value done)

def simultaneous (value : Str → Str) (keys : List Str) (template : Str) : Str :=
  render value (holesOf keys) (pieces (holesOf keys) template)

def Own (value : Str → Str) (done : List Hole) (h : Hole) (ps : List Piece) : Prop :=
  ∀ x y, render value done ps = x ++ (h.placeholder ++ y) →
    ∃ before after, ps = before ++ .hole h :: after ∧ render value done before = x

def Undisturbed (value : Str → Str) (keys : List Str) (template : Str) : Prop :=
  ∀ done h rest, holesOf keys = done ++ h :: rest →
    Own value done h (pieces (holesOf keys) template)

section sequential

variable {value : Str → Str} {done holes : List Hole} {h : Hole} {p : Piece} {ps : List Piece}

theorem placeholder_ne : h.placeholder ≠ [] := by
  simp [Hole.placeholder]

theorem render_cons : render value done (p :: ps) = p.render value done ++ render value done ps :=
  List.flatMap_cons

theorem Own.tail (hown : Own value done h (p :: ps)) (hnot : h ∉ done) : Own value done h ps := by
  intro x y hxy
  obtain ⟨before, after, hps, hx⟩ := hown (p.render value done ++ x) y (by
    rw [render_cons, hxy, List.append_assoc])
  cases before with
  | nil =>
    obtain ⟨rfl, -⟩ := List.cons.inj hps
    have hempty : (Piece.hole h).render value done = [] := by
      have hnil : (Piece.hole h).render value done ++ x = [] := hx.symm
      exact (List.append_eq_nil_iff.mp hnil).1
    rw [Piece.render, if_neg hnot] at hempty
    exact absurd hempty placeholder_ne
  | cons q before =>
    obtain ⟨rfl, hrest⟩ := List.cons.inj hps
    rw [render_cons] at hx
    exact ⟨before, after, hrest, List.append_cancel_left hx⟩

theorem Own.skip (hown : Own value done h (p :: ps)) (hp : p ≠ .hole h) {x z : Str}
    (hxz : p.render value done = x ++ z) (hz : z ≠ []) :
    ¬ h.placeholder <+: z ++ render value done ps := by
  rintro ⟨y, hy⟩
  obtain ⟨before, after, hps, hx⟩ := hown x y (by
    rw [render_cons, hxz, List.append_assoc, ← hy])
  cases before with
  | nil => exact hp (List.cons.inj hps).1
  | cons q before =>
    obtain ⟨rfl, -⟩ := List.cons.inj hps
    rw [render_cons, hxz] at hx
    have hlen := congrArg List.length hx
    simp only [List.length_append] at hlen
    have hpos := List.length_pos_iff.mpr hz
    omega

theorem replaceAll_render (hown : Own value done h ps) (hnot : h ∉ done) :
    replaceAll h.placeholder (value h.key) (render value done ps) =
      render value (done ++ [h]) ps := by
  induction ps with
  | nil => rfl
  | cons p ps ih =>
    have ih := ih (hown.tail hnot)
    rw [render_cons, render_cons, ← ih]
    by_cases hp : p = .hole h
    · subst hp
      rw [Piece.render, Piece.render, if_neg hnot, if_pos (by simp)]
      exact replaceAll_occurrence placeholder_ne _
    · have hsame : p.render value (done ++ [h]) = p.render value done := by
        cases p with
        | lit c => rfl
        | hole g =>
          have hne : g ≠ h := fun he => hp (congrArg Piece.hole he)
          simp [Piece.render, hne]
      rw [hsame]
      exact replaceAll_skip (fun x z hxz hz => hown.skip hp hxz hz)

theorem render_piecesFrom (n : ℕ) (text : Str) :
    render value [] (piecesFrom holes n text) = text.drop n := by
  induction text generalizing n with
  | nil => cases n <;> rfl
  | cons c cs ih =>
    cases n with
    | succ n => exact ih n
    | zero =>
      rw [piecesFrom]
      cases hfind : holes.find? (fun h => h.placeholder.isPrefixOf (c :: cs)) with
      | none =>
        dsimp only
        rw [render_cons, ih]
        rfl
      | some h =>
        have hprefix := List.find?_some hfind
        obtain ⟨rest, hrest⟩ := List.isPrefixOf_iff_prefix.mp hprefix
        dsimp only
        rw [render_cons, ih, Piece.render, if_neg List.not_mem_nil, List.drop_zero, ← hrest]
        have hcs : cs = (h.placeholder ++ rest).drop 1 := by rw [hrest]; rfl
        have hlen : 1 + (h.placeholder.length - 1) = h.placeholder.length := by
          have hpos := List.length_pos_iff.mpr (placeholder_ne (h := h))
          omega
        rw [hcs, List.drop_drop, hlen, List.drop_left]

theorem render_pieces (text : Str) : render value [] (pieces holes text) = text :=
  render_piecesFrom 0 text

theorem foldl_render (holes : List Hole) {done : List Hole} {ps : List Piece}
    (hnodup : (done ++ holes).Nodup)
    (hown : ∀ before h after, holes = before ++ h :: after → Own value (done ++ before) h ps) :
    holes.foldl (fun result h => replaceAll h.placeholder (value h.key) result)
      (render value done ps) = render value (done ++ holes) ps := by
  induction holes generalizing done with
  | nil => rw [List.append_nil]; rfl
  | cons h holes ih =>
    have hnot : h ∉ done := by
      intro hmem
      exact (List.nodup_append.mp hnodup).2.2 h hmem h List.mem_cons_self rfl
    have hfirst := hown [] h holes rfl
    rw [List.append_nil] at hfirst
    have hassoc : done ++ h :: holes = done ++ [h] ++ holes := by
      rw [List.append_assoc, List.singleton_append]
    rw [List.foldl_cons, replaceAll_render hfirst hnot, hassoc]
    refine ih (by rw [← hassoc]; exact hnodup) (fun before g after he => ?_)
    rw [List.append_assoc]
    exact hown (h :: before) g after (by rw [he, List.cons_append])

theorem holesOf_nodup {keys : List Str} (h : keys.Nodup) : (holesOf keys).Nodup := by
  induction keys with
  | nil => exact List.nodup_nil
  | cons key keys ih =>
    obtain ⟨hkey, hkeys⟩ := List.nodup_cons.mp h
    have hnot : ∀ spaced, (⟨key, spaced⟩ : Hole) ∉ holesOf keys := by
      intro spaced hmem
      obtain ⟨k, hk, hin⟩ := List.mem_flatMap.mp hmem
      have hkey' : key = k := by
        rcases List.mem_cons.mp hin with he | hin
        · exact congrArg Hole.key he
        · exact congrArg Hole.key (List.mem_singleton.mp hin)
      exact hkey (hkey' ▸ hk)
    rw [holesOf, List.flatMap_cons]
    show (⟨key, true⟩ :: ⟨key, false⟩ :: holesOf keys : List Hole).Nodup
    rw [List.nodup_cons, List.nodup_cons]
    refine ⟨?_, hnot false, ih hkeys⟩
    rw [List.mem_cons, not_or]
    exact ⟨by simp, hnot true⟩

theorem substitutePlaceholders_eq {keys : List Str} {template : Str} (hkeys : keys.Nodup)
    (h : Undisturbed value keys template) :
    substitutePlaceholders value keys template = simultaneous value keys template := by
  have hfold : (holesOf keys).foldl (fun result h => replaceAll h.placeholder (value h.key) result)
      (render value [] (pieces (holesOf keys) template)) = _ :=
    foldl_render (holesOf keys) (by simpa using holesOf_nodup hkeys) h
  rw [render_pieces] at hfold
  exact hfold

end sequential

section order

def plainKey (key : Str) : Prop := ∀ c ∈ key, c ≠ '}' ∧ c ≠ ' '

variable {g h : Hole} {holes holes' : List Hole} {text : Str}

theorem takeWhile_inner (hkey : plainKey h.key) (rest : Str) :
    (h.inner ++ '}' :: rest).takeWhile (· ≠ '}') = h.inner := by
  have hinner : ∀ c ∈ h.inner, c ≠ '}' := by
    intro c hc
    rw [Hole.inner] at hc
    split_ifs at hc
    · simp only [List.mem_cons, List.mem_append, List.not_mem_nil, or_false] at hc
      rcases hc with rfl | hc | rfl
      · decide
      · exact (hkey c hc).1
      · decide
    · exact (hkey c hc).1
  rw [List.takeWhile_append_of_pos (by simpa using hinner), List.takeWhile_cons_of_neg (by simp),
    List.append_nil]

theorem inner_inj (hg : plainKey g.key) (hh : plainKey h.key) (hinner : g.inner = h.inner) :
    g = h := by
  obtain ⟨k, spaced⟩ := g
  obtain ⟨k', spaced'⟩ := h
  have hnot : ∀ {key : Str}, plainKey key → ∀ rest, ' ' :: rest ≠ key := by
    rintro key hkey rest rfl
    exact (hkey ' ' List.mem_cons_self).2 rfl
  cases spaced with
  | true =>
    cases spaced' with
    | true =>
      have hk : k ++ [' '] = k' ++ [' '] := (List.cons.inj hinner).2
      rw [List.append_cancel_right hk]
    | false => exact absurd hinner (hnot hh _)
  | false =>
    cases spaced' with
    | true => exact absurd hinner.symm (hnot hg _)
    | false => exact congrArg (Hole.mk · false) hinner

theorem placeholder_unique (hg : plainKey g.key) (hh : plainKey h.key)
    (hgt : g.placeholder <+: text) (hht : h.placeholder <+: text) : g = h := by
  obtain ⟨r, hr⟩ := hgt
  obtain ⟨q, hq⟩ := hht
  rw [← hr, Hole.placeholder, Hole.placeholder] at hq
  simp only [List.cons_append, List.cons.injEq, true_and, List.append_assoc, List.nil_append] at hq
  apply inner_inj hg hh
  rw [← takeWhile_inner hg ('}' :: r), ← takeWhile_inner hh ('}' :: q), hq]

theorem find?_one {p : Hole → Bool}
    (hone : ∀ g ∈ holes, ∀ h ∈ holes, p g = true → p h = true → g = h) :
    holes.find? p = some h ↔ h ∈ holes ∧ p h = true := by
  constructor
  · intro hfind
    exact ⟨List.mem_of_find?_eq_some hfind, List.find?_some hfind⟩
  · rintro ⟨hmem, hp⟩
    obtain ⟨g, hg⟩ := Option.isSome_iff_exists.mp (List.find?_isSome.mpr ⟨h, hmem, hp⟩)
    rw [hg, hone g (List.mem_of_find?_eq_some hg) h hmem (List.find?_some hg) hp]

theorem find?_perm {p : Hole → Bool} (hperm : holes.Perm holes')
    (hone : ∀ g ∈ holes, ∀ h ∈ holes, p g = true → p h = true → g = h) :
    holes.find? p = holes'.find? p := by
  apply Option.ext
  intro h
  have hone' : ∀ g ∈ holes', ∀ h ∈ holes', p g = true → p h = true → g = h :=
    fun g hg h hh => hone g (hperm.mem_iff.mpr hg) h (hperm.mem_iff.mpr hh)
  rw [find?_one hone, find?_one hone', hperm.mem_iff]

theorem piecesFrom_perm (hperm : holes.Perm holes') (hplain : ∀ h ∈ holes, plainKey h.key)
    (n : ℕ) (text : Str) : piecesFrom holes n text = piecesFrom holes' n text := by
  induction text generalizing n with
  | nil => cases n <;> rfl
  | cons c cs ih =>
    cases n with
    | succ n => exact ih n
    | zero =>
      have hfind : holes.find? (fun h => h.placeholder.isPrefixOf (c :: cs)) =
          holes'.find? (fun h => h.placeholder.isPrefixOf (c :: cs)) := by
        refine find?_perm hperm (fun g hg h hh hgt hht => ?_)
        exact placeholder_unique (hplain g hg) (hplain h hh)
          (List.isPrefixOf_iff_prefix.mp hgt) (List.isPrefixOf_iff_prefix.mp hht)
      rw [piecesFrom, piecesFrom, hfind]
      cases holes'.find? (fun h => h.placeholder.isPrefixOf (c :: cs)) with
      | none => exact congrArg (Piece.lit c :: ·) (ih 0)
      | some h => exact congrArg (Piece.hole h :: ·) (ih _)

theorem render_perm {value : Str → Str} (hperm : holes.Perm holes') (ps : List Piece) :
    render value holes ps = render value holes' ps := by
  induction ps with
  | nil => rfl
  | cons p ps ih =>
    rw [render_cons, render_cons, ih]
    cases p with
    | lit c => rfl
    | hole h => simp only [Piece.render, hperm.mem_iff]

theorem simultaneous_perm {value : Str → Str} {keys keys' : List Str} (hperm : keys.Perm keys')
    (hplain : ∀ k ∈ keys, plainKey k) (text : Str) :
    simultaneous value keys text = simultaneous value keys' text := by
  have hholes : (holesOf keys).Perm (holesOf keys') := hperm.flatMap_right _
  have hkeys : ∀ h ∈ holesOf keys, plainKey h.key := by
    intro h hh
    obtain ⟨k, hk, hin⟩ := List.mem_flatMap.mp hh
    have hkey : h.key = k := by
      rcases List.mem_cons.mp hin with rfl | hin
      · rfl
      · rw [List.mem_singleton.mp hin]
    rw [hkey]
    exact hplain k hk
  rw [simultaneous, simultaneous, pieces, pieces, piecesFrom_perm hholes hkeys, render_perm hholes]

end order

section events

theorem plainKey_of_all {keys : List Str}
    (h : keys.all (fun k => k.all (fun c => c ≠ '}' ∧ c ≠ ' ')) = true) :
    ∀ k ∈ keys, plainKey k := by
  intro k hk c hc
  exact of_decide_eq_true (List.all_eq_true.mp (List.all_eq_true.mp h k hk) c hc)

structure EventContext where
  entries : OrderedDict Str Json
  plain : ∀ k ∈ entries.entries.map Prod.fst, plainKey k

namespace EventContext

def keys (ctx : EventContext) : List Str := ctx.entries.entries.map Prod.fst

def text (py : PyText) (ctx : EventContext) (key : Str) : Str :=
  ((ctx.entries.get? key).map py.str).getD []

end EventContext

def renderEvent (py : PyText) (ctx : EventContext) (template : List (Str × Json)) :
    List (Str × Json) :=
  renderTemplate (substitutePlaceholders (ctx.text py) ctx.keys) template

mutual

def valueTexts : Json → List Str
  | .str s => [s]
  | .arr items => itemTexts items
  | .obj fields => templateTexts fields
  | _ => []

def itemTexts : List Json → List Str
  | [] => []
  | v :: vs => valueTexts v ++ itemTexts vs

def templateTexts : List (Str × Json) → List Str
  | [] => []
  | (_, v) :: fields => valueTexts v ++ templateTexts fields

end

variable {f g : Str → Str}

mutual

theorem renderValue_congr : ∀ v : Json, (∀ t ∈ valueTexts v, f t = g t) →
    renderValue f v = renderValue g v
  | .null, _ | .bool _, _ | .nan, _ | .infinity _, _ | .int _, _ | .float _, _ => rfl
  | .str s, h => congrArg Json.str (h s List.mem_cons_self)
  | .arr items, h => congrArg Json.arr (renderItems_congr items h)
  | .obj fields, h => congrArg Json.obj (renderTemplate_congr fields h)

theorem renderItems_congr : ∀ vs : List Json, (∀ t ∈ itemTexts vs, f t = g t) →
    renderItems f vs = renderItems g vs
  | [], _ => rfl
  | v :: vs, h => by
    rw [renderItems, renderItems,
      renderValue_congr v (fun t ht => h t (List.mem_append_left _ ht)),
      renderItems_congr vs (fun t ht => h t (List.mem_append_right _ ht))]

theorem renderTemplate_congr : ∀ fields : List (Str × Json),
    (∀ t ∈ templateTexts fields, f t = g t) → renderTemplate f fields = renderTemplate g fields
  | [], _ => rfl
  | (k, v) :: fields, h => by
    rw [renderTemplate, renderTemplate,
      renderValue_congr v (fun t ht => h t (List.mem_append_left _ ht)),
      renderTemplate_congr fields (fun t ht => h t (List.mem_append_right _ ht))]

end

variable {py : PyText} {ctx ctx' : EventContext} {template : List (Str × Json)}

theorem text_perm (hperm : ctx'.entries.entries.Perm ctx.entries.entries) :
    ctx'.text py = ctx.text py := by
  funext key
  have hget : ctx'.entries.get? key = ctx.entries.get? key := by
    apply Option.ext
    intro v
    rw [OrderedDict.get?_eq_some, OrderedDict.get?_eq_some, hperm.mem_iff]
  rw [EventContext.text, EventContext.text, hget]

def pathTemplate : List (Str × Json) := [("p".toList, .str "\x7b\x7b path \x7d\x7d".toList)]

def requestContext : EventContext where
  entries := ⟨[("path".toList, .str "\x7b\x7bbody_text\x7d\x7d".toList),
    ("body_text".toList, .str "secret".toList)], by decide⟩
  plain := plainKey_of_all (by decide +kernel)

def idContext : EventContext where
  entries := ⟨[("id".toList, .str "7".toList)], by decide⟩
  plain := plainKey_of_all (by decide +kernel)

theorem idContext_undisturbed :
    Undisturbed (idContext.text Queue.plainPy) idContext.keys "\x7b\x7bid\x7d\x7d".toList := by
  intro done h rest hsplit x y hxy
  have hlen := congrArg List.length hxy
  rw [List.length_append, List.length_append] at hlen
  rcases done with _ | ⟨d, _ | ⟨d', done⟩⟩
  · obtain ⟨rfl, -⟩ := List.cons.inj hsplit
    have hshort : 6 = x.length + (8 + y.length) := hlen
    omega
  · obtain ⟨rfl, hrest⟩ := List.cons.inj hsplit
    obtain ⟨rfl, -⟩ := List.cons.inj hrest
    have hexact : 6 = x.length + (6 + y.length) := hlen
    obtain rfl : x = [] := List.length_eq_zero_iff.mp (by omega)
    exact ⟨[], [], rfl, rfl⟩
  · have hfewer := congrArg List.length hsplit
    simp only [List.length_append, List.length_cons] at hfewer
    have htwo : (holesOf idContext.keys).length = 2 := rfl
    omega

end events

end TraceMind.Triggers
