import TraceMind.Verify.Joint
import TraceMind.Verify.Classify
import TraceMind.Verify.ExplorerSpec
import Mathlib.Data.List.Pairwise

namespace TraceMind.Verify

variable {V : Type}

def Apart (a b : Str) : Prop :=
  ¬ (a ++ ['.']) <+: (b ++ ['.']) ∧ ¬ (b ++ ['.']) <+: (a ++ ['.'])

instance : Std.Symm Apart := ⟨fun _ _ h => ⟨h.2, h.1⟩⟩

instance (a b : Str) : Decidable (Apart a b) := inferInstanceAs (Decidable (_ ∧ _))

def PrefixFree (ids : List Str) : Prop := ids.Pairwise Apart

instance (ids : List Str) : Decidable (PrefixFree ids) :=
  inferInstanceAs (Decidable (List.Pairwise Apart ids))

theorem PrefixFree.eq_of_prefix {ids : List Str} (h : PrefixFree ids) {a b : Str} (ha : a ∈ ids)
    (hb : b ∈ ids) (hp : (a ++ ['.']) <+: (b ++ ['.'])) : a = b := by
  by_contra hne
  exact (List.Pairwise.forall h ha hb hne).1 hp

theorem PrefixFree.nodup {ids : List Str} (h : PrefixFree ids) : ids.Nodup :=
  List.Pairwise.imp (fun {a b} hab (he : a = b) => hab.1 (he ▸ List.prefix_refl _)) h

theorem qualify_eq (cid s : Str) : qualify cid s = (cid ++ ['.']) ++ s := by simp [qualify]

theorem qualify_starts (cid s : Str) : (cid ++ ['.']) <+: qualify cid s := by
  rw [qualify_eq]
  exact List.prefix_append _ _

theorem qualify_injective (cid : Str) : Function.Injective (qualify cid) := by
  intro s t h
  rw [qualify_eq, qualify_eq] at h
  exact List.append_cancel_left h

theorem PrefixFree.qualify_inj {ids : List Str} (h : PrefixFree ids) {a b : Str} (ha : a ∈ ids)
    (hb : b ∈ ids) {s t : Str} (he : qualify a s = qualify b t) : a = b ∧ s = t := by
  have hab : a = b := by
    rcases List.prefix_or_prefix_of_prefix (qualify_starts a s) (he ▸ qualify_starts b t) with
      hp | hp
    · exact h.eq_of_prefix ha hb hp
    · exact (h.eq_of_prefix hb ha hp).symm
  subst hab
  exact ⟨rfl, qualify_injective a he⟩

theorem refersTo_qualify (cid s : Str) : refersTo (qualify cid s) cid = true := by
  rw [refersTo, Bool.or_eq_true]
  exact Or.inr (List.isPrefixOf_iff_prefix.mpr (qualify_starts cid s))

theorem PrefixFree.refersTo_unique {ids : List Str} (h : PrefixFree ids) {v a b : Str}
    (ha : a ∈ ids) (hb : b ∈ ids) (hva : refersTo v a = true) (hvb : refersTo v b = true) :
    a = b := by
  -- Either way the id with its dot begins the value with a dot.
  have hdot {c : Str} (hc : refersTo v c = true) : (c ++ ['.']) <+: (v ++ ['.']) := by
    rw [refersTo, Bool.or_eq_true, decide_eq_true_eq] at hc
    rcases hc with rfl | hc
    · exact List.prefix_refl _
    · exact (List.isPrefixOf_iff_prefix.mp hc).trans (List.prefix_append _ _)
  rcases List.prefix_or_prefix_of_prefix (hdot hva) (hdot hvb) with hp | hp
  · exact h.eq_of_prefix ha hb hp
  · exact (h.eq_of_prefix hb ha hp).symm

theorem predicateComponent_fold {v c : Str} {ids : List Str}
    (hu : ∀ a ∈ ids, refersTo v a = true → a = c) (best : Option Str)
    (hb : best = none ∨ best = some c) :
    ids.foldl (fun best cid => if refersTo v cid then longer best cid else best) best =
      if best = some c ∨ ∃ a ∈ ids, refersTo v a = true then some c else none := by
  induction ids generalizing best with
  | nil => rcases hb with rfl | rfl <;> simp
  | cons a ids ih =>
    have hu' : ∀ a ∈ ids, refersTo v a = true → a = c :=
      fun x hx => hu x (List.mem_cons_of_mem _ hx)
    rw [List.foldl_cons]
    by_cases ha : refersTo v a = true
    · obtain rfl := hu a List.mem_cons_self ha
      have hl : longer best a = some a := by rcases hb with rfl | rfl <;> simp [longer]
      rw [if_pos ha, hl, ih hu' _ (Or.inr rfl), if_pos (Or.inl rfl),
        if_pos (Or.inr ⟨a, List.mem_cons_self, ha⟩)]
    · rw [if_neg ha, ih hu' _ hb]
      simp [ha]

theorem PrefixFree.predicateComponent {ids : List Str} (h : PrefixFree ids) {v c : Str}
    (hc : c ∈ ids) (hv : refersTo v c = true) : predicateComponent v ids = some c := by
  unfold Verify.predicateComponent
  rw [predicateComponent_fold (fun a ha hva => h.refersTo_unique ha hc hva hv) none (Or.inl rfl)]
  exact if_pos (Or.inr ⟨c, hc, hv⟩)

section gather

variable {ids : List Str} {y z : List (State V)}

theorem mem_gather {α β : Type} {items : State V → List α} {rename : Str → α → β}
    {named : List (Str × State V)} {b : β} : b ∈ gather items rename named ↔
      ∃ p ∈ named, ∃ a ∈ items p.2, b = rename p.1 a := by
  simp only [gather, List.mem_flatMap, List.mem_map, eq_comm]

theorem gather_injective (h : PrefixFree ids) (items : State V → List Str)
    (hy : y.length = ids.length) (hz : z.length = ids.length)
    (he : gather items qualify (ids.zip y) = gather items qualify (ids.zip z)) :
    y.map items = z.map items := by
  induction ids generalizing y z with
  | nil =>
    rw [List.length_eq_zero_iff.mp hy, List.length_eq_zero_iff.mp hz]
  | cons c ids ih =>
    obtain ⟨s, y, rfl⟩ := List.exists_of_length_succ y hy
    obtain ⟨t, z, rfl⟩ := List.exists_of_length_succ z hz
    have hc : PrefixFree ids := h.of_cons
    -- The entries of the first component are those with its prefix.
    let mine : Str → Bool := fun x => startsWith (c ++ ['.']) x
    have hmine (u : State V) : ((items u).map (qualify c)).filter mine =
        (items u).map (qualify c) := by
      rw [List.filter_eq_self]
      intro x hx
      obtain ⟨k, -, rfl⟩ := List.mem_map.mp hx
      exact List.isPrefixOf_iff_prefix.mpr (qualify_starts c k)
    have hother (w : List (State V)) :
        (gather items qualify (ids.zip w)).filter mine = [] := by
      rw [List.filter_eq_nil_iff]
      intro x hx hm
      obtain ⟨⟨d, u⟩, hp, k, -, rfl⟩ := mem_gather.mp hx
      have hd : d ∈ ids := (List.of_mem_zip hp).1
      have hcd : c = d := h.refersTo_unique (v := qualify d k) List.mem_cons_self
        (List.mem_cons_of_mem _ hd) (by rw [refersTo, Bool.or_eq_true]; exact Or.inr hm)
        (refersTo_qualify d k)
      exact (List.nodup_cons.mp h.nodup).1 (hcd ▸ hd)
    have hsplit (u : State V) (w : List (State V)) :
        gather items qualify ((c :: ids).zip (u :: w)) =
          (items u).map (qualify c) ++ gather items qualify (ids.zip w) := rfl
    rw [hsplit, hsplit] at he
    have hf := congrArg (List.filter mine) he
    rw [List.filter_append, List.filter_append, hmine, hmine, hother, hother, List.append_nil,
      List.append_nil] at hf
    rw [hf, List.append_cancel_left_eq] at he
    rw [List.map_cons, List.map_cons, ih hc (by simpa using hy) (by simpa using hz) he,
      (qualify_injective c).list_map hf]

theorem project_keys_nodup (h : PrefixFree ids) (hy : y.length = ids.length) :
    ((gather (fun s => s.store.entries) (fun cid e => (qualify cid e.1, e.2)) (ids.zip y)).map
      Prod.fst).Nodup := by
  induction ids generalizing y with
  | nil => simp [gather]
  | cons c ids ih =>
    obtain ⟨s, y, rfl⟩ := List.exists_of_length_succ y hy
    have hc : PrefixFree ids := h.of_cons
    have hsplit : (gather (fun s => s.store.entries) (fun cid e => (qualify cid e.1, e.2))
        ((c :: ids).zip (s :: y))).map Prod.fst = s.store.keys.map (qualify c) ++
          (gather (fun s => s.store.entries) (fun cid e => (qualify cid e.1, e.2))
            (ids.zip y)).map Prod.fst := by
      simp [gather, SortedMap.keys]
    rw [hsplit, List.nodup_append]
    refine ⟨s.store.keys_nodup.map (qualify_injective c), ih hc (by simpa using hy), ?_⟩
    intro a ha b hb hab
    obtain ⟨k, -, rfl⟩ := List.mem_map.mp ha
    obtain ⟨e, he, rfl⟩ := List.mem_map.mp hb
    obtain ⟨⟨d, u⟩, hp, f, -, rfl⟩ := mem_gather.mp he
    have hd : d ∈ ids := (List.of_mem_zip hp).1
    have hcd := (h.qualify_inj List.mem_cons_self (List.mem_cons_of_mem _ hd) hab).1
    exact (List.nodup_cons.mp h.nodup).1 (hcd ▸ hd)

theorem get?_project (h : PrefixFree ids) (hy : y.length = ids.length) {x : Str} {v : V} :
    (project y ids).store.get? x = some v ↔
      ∃ p ∈ ids.zip y, ∃ k, x = qualify p.1 k ∧ p.2.store.get? k = some v := by
  change (SortedMap.ofList _).get? x = some v ↔ _
  rw [SortedMap.get?_ofList (project_keys_nodup h hy), mem_gather]
  constructor
  · rintro ⟨p, hp, ⟨k, w⟩, he, hx⟩
    obtain ⟨rfl, rfl⟩ := Prod.mk.inj hx
    exact ⟨p, hp, k, rfl, SortedMap.get?_eq_some_iff.mpr he⟩
  · rintro ⟨p, hp, k, rfl, he⟩
    exact ⟨p, hp, (k, v), SortedMap.get?_eq_some_iff.mp he, rfl⟩

theorem mem_zip_iff {α β : Type} {xs : List α} {ys : List β} {p : α × β} :
    p ∈ xs.zip ys ↔ ∃ i : ℕ, xs[i]? = some p.1 ∧ ys[i]? = some p.2 := by
  simp only [List.mem_iff_getElem?, List.getElem?_zip_eq_some]

theorem mem_zip_unique (h : ids.Nodup) {p q : Str × State V} (hp : p ∈ ids.zip y)
    (hq : q ∈ ids.zip y) (he : p.1 = q.1) : p = q := by
  obtain ⟨i, hi, rfl⟩ := List.getElem_of_mem hp
  obtain ⟨j, hj, rfl⟩ := List.getElem_of_mem hq
  simp only [List.getElem_zip] at he
  have hij : i = j := (List.Nodup.getElem_inj_iff h).mp he
  subst hij
  rfl

theorem get?_project_qualify (h : PrefixFree ids) (hy : y.length = ids.length)
    {p : Str × State V} (hp : p ∈ ids.zip y) (k : Str) :
    (project y ids).store.get? (qualify p.1 k) = p.2.store.get? k := by
  apply Option.ext
  intro v
  rw [get?_project h hy]
  constructor
  · rintro ⟨q, hq, j, he, hv⟩
    obtain ⟨hcid, rfl⟩ := h.qualify_inj (List.of_mem_zip hp).1 (List.of_mem_zip hq).1 he
    rw [mem_zip_unique h.nodup hp hq hcid]
    exact hv
  · intro hv
    exact ⟨p, hp, k, rfl, hv⟩

theorem gather_congr {α β : Type} {items : State V → List α} {rename : Str → α → β}
    (he : y.map items = z.map items) :
    gather items rename (ids.zip y) = gather items rename (ids.zip z) := by
  induction ids generalizing y z with
  | nil => rfl
  | cons c ids ih =>
    cases y with
    | nil =>
      cases z with
      | nil => rfl
      | cons t z => cases he
    | cons s y =>
      cases z with
      | nil => cases he
      | cons t z =>
        rw [List.map_cons, List.map_cons, List.cons.injEq] at he
        have hrest := ih he.2
        simp only [gather, List.zip_cons_cons, List.flatMap_cons] at hrest ⊢
        rw [he.1, hrest]

theorem project_store_injective (h : PrefixFree ids) (hy : y.length = ids.length)
    (hz : z.length = ids.length) (he : (project y ids).store = (project z ids).store) :
    y.map State.store = z.map State.store := by
  refine List.ext_getElem (by simp [hy, hz]) (fun i hi hi' => ?_)
  rw [List.length_map] at hi hi'
  rw [List.getElem_map, List.getElem_map]
  refine SortedMap.ext (fun k => ?_)
  have hidx : i < ids.length := hy ▸ hi
  have hp : (ids[i], y[i]) ∈ ids.zip y :=
    mem_zip_iff.mpr ⟨i, List.getElem?_eq_getElem hidx, List.getElem?_eq_getElem hi⟩
  have hq : (ids[i], z[i]) ∈ ids.zip z :=
    mem_zip_iff.mpr ⟨i, List.getElem?_eq_getElem hidx, List.getElem?_eq_getElem hi'⟩
  have h1 := get?_project_qualify h hy hp k
  have h2 := get?_project_qualify h hz hq k
  rw [← h1, ← h2, he]

theorem stableHash_project_iff (h : PrefixFree ids) (hy : y.length = ids.length)
    (hz : z.length = ids.length) (mode : HashMode) :
    (project y ids).stableHash mode = (project z ids).stableHash mode ↔
      y.map (State.stableHash mode) = z.map (State.stableHash mode) := by
  cases mode with
  | full =>
    constructor
    · intro he
      have hp := State.stableHash_full_injective he
      have hst := project_store_injective h hy hz (congrArg State.store hp)
      have hpe := gather_injective h State.pending hy hz (congrArg State.pending hp)
      have hdo := gather_injective h State.done hy hz (congrArg State.done hp)
      have hev := gather_injective h State.events hy hz (congrArg State.events hp)
      refine List.ext_getElem (by simp [hy, hz]) (fun i hi hi' => ?_)
      rw [List.length_map] at hi hi'
      have at_i {α : Type} {f : State V → α} (hf : y.map f = z.map f) : f y[i] = f z[i] := by
        have := List.getElem_of_eq hf (by simpa using hi)
        simpa using this
      rw [List.getElem_map, List.getElem_map]
      simp only [State.stableHash, at_i hst, at_i hpe, at_i hdo, at_i hev]
    · intro he
      have hyz : y = z := List.map_injective_iff.mpr
        (fun s t hst => State.stableHash_full_injective hst) he
      rw [hyz]
  | store =>
    rw [State.stableHash_store_eq]
    constructor
    · intro he
      have hst := project_store_injective h hy hz he
      have hmap (w : List (State V)) : w.map (State.stableHash .store) =
          (w.map State.store).map (fun st => ⟨st, none⟩) := by
        rw [List.map_map]
        rfl
      rw [hmap, hmap, hst]
    · intro he
      have hmap (w : List (State V)) : w.map (fun s => s.store.entries) =
          (w.map (State.stableHash .store)).map (fun hash => hash.store.entries) := by
        rw [List.map_map]
        rfl
      change SortedMap.ofList _ = SortedMap.ofList _
      exact congrArg SortedMap.ofList (gather_congr (by rw [hmap, hmap, he]))

end gather

section facts

open Ctl

variable {ids : List Str} {y : List (State V)} {n : Str} {enabled enabled' : State V → List Str}

theorem evalPredicate_some (hn : lower n ≠ "terminal".toList) (v : Str) (s : State V) :
    evalPredicate enabled n (some v) s = true ↔
      (lower n = "has".toList ∧ s.store.contains v = true) ∨
      (lower n = "pending".toList ∧ v ∈ s.pending) ∨ (lower n = "done".toList ∧ v ∈ s.done) := by
  have h1 : ¬ "has".toList = "pending".toList := by decide
  have h2 : ¬ "has".toList = "done".toList := by decide
  have h3 : ¬ "pending".toList = "done".toList := by decide
  unfold evalPredicate
  rw [if_neg hn]
  dsimp only
  split_ifs with ha hb hc
  · simp only [ha, h1, h2, true_and, false_and, or_false]
  · simp only [hb, Ne.symm h1, h3, true_and, false_and, or_false, false_or, decide_eq_true_eq]
  · simp only [hc, Ne.symm h2, Ne.symm h3, true_and, false_and, false_or, decide_eq_true_eq]
  · simp only [ha, hb, hc, false_and, or_false]

theorem evalPredicate_project (h : PrefixFree ids) (hy : y.length = ids.length)
    (hn : lower n ≠ "terminal".toList) (enabled enabled' : State V → List Str) (v : Str) :
    evalPredicate enabled n (some v) (project y ids) = true ↔
      ∃ p ∈ ids.zip y, ∃ k, v = qualify p.1 k ∧ evalPredicate enabled' n (some k) p.2 = true := by
  simp only [evalPredicate_some hn]
  have hstore : (project y ids).store.contains v = true ↔
      ∃ p ∈ ids.zip y, ∃ k, v = qualify p.1 k ∧ p.2.store.contains k = true := by
    simp only [SortedMap.contains, Option.isSome_iff_exists, get?_project h hy]
    constructor
    · rintro ⟨w, p, hp, k, he, hk⟩
      exact ⟨p, hp, k, he, w, hk⟩
    · rintro ⟨p, hp, k, he, w, hk⟩
      exact ⟨w, p, hp, k, he, hk⟩
  have hpending : v ∈ (project y ids).pending ↔
      ∃ p ∈ ids.zip y, ∃ k, v = qualify p.1 k ∧ k ∈ p.2.pending := by
    refine mem_gather.trans ?_
    constructor <;> rintro ⟨p, hp, k, h1, h2⟩ <;> exact ⟨p, hp, k, h2, h1⟩
  have hdone : v ∈ (project y ids).done ↔
      ∃ p ∈ ids.zip y, ∃ k, v = qualify p.1 k ∧ k ∈ p.2.done := by
    refine mem_gather.trans ?_
    constructor <;> rintro ⟨p, hp, k, h1, h2⟩ <;> exact ⟨p, hp, k, h2, h1⟩
  rw [hstore, hpending, hdone]
  constructor
  · rintro (⟨hn, p, hp, k, he, hk⟩ | ⟨hn, p, hp, k, he, hk⟩ | ⟨hn, p, hp, k, he, hk⟩)
    · exact ⟨p, hp, k, he, Or.inl ⟨hn, hk⟩⟩
    · exact ⟨p, hp, k, he, Or.inr (Or.inl ⟨hn, hk⟩)⟩
    · exact ⟨p, hp, k, he, Or.inr (Or.inr ⟨hn, hk⟩)⟩
  · rintro ⟨p, hp, k, he, ⟨hn, hk⟩ | ⟨hn, hk⟩ | ⟨hn, hk⟩⟩
    · exact Or.inl ⟨hn, p, hp, k, he, hk⟩
    · exact Or.inr (Or.inl ⟨hn, p, hp, k, he, hk⟩)
    · exact Or.inr (Or.inr ⟨hn, p, hp, k, he, hk⟩)

theorem prefixFree_singleton (cid : Str) : PrefixFree [cid] := List.pairwise_singleton _ _

theorem evalPredicate_local (h : PrefixFree ids) (hy : y.length = ids.length)
    {p : Str × State V} (hp : p ∈ ids.zip y) (hn : lower n ≠ "terminal".toList)
    {v : Option Str} (hv : ∀ w cid, v = some w → predicateComponent w ids = some cid → cid = p.1) :
    evalPredicate enabled n v (project y ids) =
      evalPredicate enabled' n v (project [p.2] [p.1]) := by
  cases v with
  | none =>
    unfold evalPredicate
    rw [if_neg hn, if_neg hn]
  | some w =>
    rw [Bool.eq_iff_iff, evalPredicate_project h hy hn enabled enabled',
      evalPredicate_project (prefixFree_singleton p.1) rfl hn enabled' enabled']
    constructor
    · rintro ⟨q, hq, k, rfl, hk⟩
      have hc := h.predicateComponent (List.of_mem_zip hq).1 (refersTo_qualify q.1 k)
      obtain rfl := mem_zip_unique h.nodup hq hp (hv _ _ rfl hc)
      exact ⟨q, by simp, k, rfl, hk⟩
    · rintro ⟨q, hq, k, rfl, hk⟩
      obtain rfl : q = p := by simpa using hq
      exact ⟨q, hp, k, rfl, hk⟩

end facts

end TraceMind.Verify
