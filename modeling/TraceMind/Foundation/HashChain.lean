import Mathlib.Data.List.Infix
import Mathlib.Data.List.Nodup

-- A journal whose entries each commit to their content and to the digest before it.
namespace HashChain

variable {κ δ : Type}

def Valid (commit : κ → δ → δ) : δ → List (κ × δ) → Prop
  | _, [] => True
  | prev, e :: es => e.2 = commit e.1 prev ∧ Valid commit e.2 es

def digests (start : δ) (es : List (κ × δ)) : List δ := start :: es.map Prod.snd

-- Different contents or different predecessors have different digests, and none is the first one.
structure Binding (commit : κ → δ → δ) (start : δ) : Prop where
  inj : ∀ {c c' p p'}, commit c p = commit c' p' → c = c' ∧ p = p'
  ne_start : ∀ c p, commit c p ≠ start

section valid

variable {commit : κ → δ → δ} {start : δ} {es fs : List (κ × δ)}

theorem valid_iff : Valid commit start es ↔ ∀ (i : ℕ) (e : κ × δ), es[i]? = some e →
    ∃ p, (digests start es)[i]? = some p ∧ e.2 = commit e.1 p := by
  induction es generalizing start with
  | nil => simp [Valid]
  | cons f es ih =>
    rw [Valid, ih]
    constructor
    · rintro ⟨hhead, htail⟩ i e he
      cases i with
      | zero =>
        cases he
        exact ⟨start, rfl, hhead⟩
      | succ i =>
        obtain ⟨p, hp, heq⟩ := htail i e he
        exact ⟨p, hp, heq⟩
    · intro h
      constructor
      · obtain ⟨p, hp, heq⟩ := h 0 f rfl
        cases hp
        exact heq
      · intro i e he
        obtain ⟨p, hp, heq⟩ := h (i + 1) e he
        exact ⟨p, hp, heq⟩

theorem Valid.snoc (h : Valid commit start es) {c : κ} {d : δ}
    (hd : ∀ p, (digests start es).getLast? = some p → d = commit c p) :
    Valid commit start (es ++ [(c, d)]) := by
  induction es generalizing start with
  | nil => exact ⟨hd start rfl, trivial⟩
  | cons e es ih =>
    refine ⟨h.1, ih h.2 (fun p hp => hd p ?_)⟩
    rw [digests, List.map_cons, List.getLast?_cons_cons]
    exact hp

theorem Valid.prefix (h : Valid commit start es) (hp : fs <+: es) : Valid commit start fs := by
  induction fs generalizing start es with
  | nil => trivial
  | cons f fs ih =>
    obtain ⟨rest, rfl⟩ := hp
    exact ⟨h.1, ih h.2 (List.prefix_append ..)⟩

theorem Valid.index_unique (hb : Binding commit start) (h : Valid commit start es) :
    ∀ (i j : ℕ) (d : δ), (digests start es)[i]? = some d → (digests start es)[j]? = some d → i = j := by
  have hstep : ∀ (k : ℕ) (d : δ), (digests start es)[k + 1]? = some d →
      ∃ c p, (digests start es)[k]? = some p ∧ d = commit c p := by
    intro k d hk
    rw [digests, List.getElem?_cons_succ, List.getElem?_map] at hk
    obtain ⟨e, he, rfl⟩ := Option.map_eq_some_iff.mp hk
    obtain ⟨p, hp, heq⟩ := valid_iff.mp h k e he
    exact ⟨e.1, p, hp, heq⟩
  intro i
  induction i with
  | zero =>
    intro j d hi hj
    cases j with
    | zero => rfl
    | succ j =>
      obtain ⟨c, p, -, rfl⟩ := hstep j d hj
      cases hi
      exact absurd rfl (hb.ne_start c p)
  | succ i ih =>
    intro j d hi hj
    obtain ⟨c, p, hp, rfl⟩ := hstep i d hi
    cases j with
    | zero =>
      cases hj
      exact absurd rfl (hb.ne_start c p)
    | succ j =>
      obtain ⟨c', p', hp', heq⟩ := hstep j _ hj
      obtain ⟨-, rfl⟩ := hb.inj heq
      rw [ih j p hp hp']

theorem Valid.nodup (hb : Binding commit start) (h : Valid commit start es) :
    (es.map Prod.snd).Nodup := by
  rw [List.nodup_iff_getElem?_ne_getElem?]
  intro i j hij hj heq
  have hd : (es.map Prod.snd)[j]? = some (es.map Prod.snd)[j] := List.getElem?_eq_getElem hj
  have hidx := h.index_unique hb (i + 1) (j + 1) _ (heq.trans hd) hd
  omega

theorem Valid.same_place (hb : Binding commit start) (h : Valid commit start es)
    (hf : Valid commit start fs) (hmem : ∀ f ∈ fs, f.2 ∈ es.map Prod.snd) :
    ∀ (i : ℕ) (f : κ × δ), fs[i]? = some f → es[i]? = some f := by
  intro i
  induction i with
  | zero =>
    intro f hi
    obtain ⟨p, hp, heq⟩ := valid_iff.mp hf 0 f hi
    cases hp
    obtain ⟨e, he, hef⟩ := List.mem_map.mp (hmem f (List.mem_of_getElem? hi))
    obtain ⟨k, hk⟩ := List.mem_iff_getElem?.mp he
    obtain ⟨q, hq, hcommit⟩ := valid_iff.mp h k e hk
    obtain ⟨hc, rfl⟩ := hb.inj (hcommit.symm.trans (hef.trans heq))
    obtain rfl := h.index_unique hb k 0 _ hq rfl
    rw [hk, Prod.ext hc hef]
  | succ i ih =>
    intro f hi
    obtain ⟨p, hp, heq⟩ := valid_iff.mp hf (i + 1) f hi
    obtain ⟨e, he, hef⟩ := List.mem_map.mp (hmem f (List.mem_of_getElem? hi))
    obtain ⟨k, hk⟩ := List.mem_iff_getElem?.mp he
    obtain ⟨q, hq, hcommit⟩ := valid_iff.mp h k e hk
    obtain ⟨hc, rfl⟩ := hb.inj (hcommit.symm.trans (hef.trans heq))
    have hprev : (digests start es)[i + 1]? = some q := by
      rw [digests, List.getElem?_cons_succ, List.getElem?_map] at hp ⊢
      obtain ⟨g, hg, rfl⟩ := Option.map_eq_some_iff.mp hp
      rw [ih g hg]
      rfl
    obtain rfl := h.index_unique hb k (i + 1) q hq hprev
    rw [hk, Prod.ext hc hef]

theorem Valid.iff_prefix (hb : Binding commit start) (h : Valid commit start es)
    (hmem : ∀ f ∈ fs, f.2 ∈ es.map Prod.snd) : Valid commit start fs ↔ fs <+: es := by
  refine ⟨fun hf => ?_, h.prefix⟩
  refine List.prefix_iff_getElem?.mpr (fun i hi => ?_)
  exact h.same_place hb hf hmem i _ (List.getElem?_eq_getElem hi)

end valid

section writing

variable {commit : κ → δ → δ} {start : δ} {es fs : List (κ × δ)}

def journal (commit : κ → δ → δ) : δ → List κ → List (κ × δ)
  | _, [] => []
  | p, c :: cs => (c, commit c p) :: journal commit (commit c p) cs

theorem journal_valid (cs : List κ) : Valid commit start (journal commit start cs) := by
  induction cs generalizing start with
  | nil => trivial
  | cons c cs ih => exact ⟨rfl, ih⟩

theorem journal_contents (cs : List κ) : (journal commit start cs).map Prod.fst = cs := by
  induction cs generalizing start with
  | nil => rfl
  | cons c cs ih => rw [journal, List.map_cons, ih]

theorem Valid.eq_of_digests (hb : Binding commit start) (h : Valid commit start es)
    (hf : Valid commit start fs) (hd : fs.map Prod.snd = es.map Prod.snd) : fs = es := by
  have hmem : ∀ f ∈ fs, f.2 ∈ es.map Prod.snd := fun f hm => hd ▸ List.mem_map_of_mem hm
  have hprefix := (h.iff_prefix hb hmem).mp hf
  exact hprefix.eq_of_length (by simpa using congrArg List.length hd)

theorem journal_digests_iff (hb : Binding commit start) {cs ds : List κ} :
    (journal commit start cs).map Prod.snd = (journal commit start ds).map Prod.snd ↔ cs = ds := by
  constructor
  · intro h
    have heq := (journal_valid ds).eq_of_digests hb (journal_valid cs) h
    have hcs := congrArg (List.map Prod.fst) heq
    rwa [journal_contents, journal_contents] at hcs
  · rintro rfl
    rfl

end writing

end HashChain
