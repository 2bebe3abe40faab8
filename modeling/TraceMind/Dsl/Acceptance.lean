import TraceMind.Dsl.Following

namespace TraceMind.Dsl

section source

variable (eval : LiteralEval)

def succeeds {α : Type} : Compiled α → Bool
  | .ok _ => true
  | .error _ => false

mutual

def wellFormed : WdlStep → Bool
  | .call _ _ args _ => succeeds (renderNamed args)
  | .when condition steps location =>
    succeeds (parseCondition eval condition location) && !steps.isEmpty && wellFormedAll steps

def wellFormedAll : List WdlStep → Bool
  | [] => true
  | s :: ss => wellFormed s && wellFormedAll ss

end

inductive Item where
  | call (id : Str)
  | when
deriving DecidableEq

mutual

def itemsOf : WdlStep → List Item
  | .call id _ _ _ => [.call id]
  | .when _ steps _ => .when :: itemsAll steps

def itemsAll : List WdlStep → List Item
  | [] => []
  | s :: ss => itemsOf s ++ itemsAll ss

end

def Item.callId : Item → Option Str
  | .call id => some id
  | .when => none

def callIds (is : List Item) : List Str := is.filterMap Item.callId

def whenCount (is : List Item) : ℕ := is.countP (fun i => i = .when)

def whenName (n : ℕ) : Str := candidate "when".toList n

def freeNames (is : List Item) (n : ℕ) : ℕ :=
  (List.range n).countP (fun j => whenName j ∉ callIds is)

def NoClash (is : List Item) : Prop :=
  ∀ pre k post, is = pre ++ .call (whenName k) :: post → whenCount pre ≤ freeNames pre k

end source

section allocate

def allocate : List Item → List Str × ℕ → Option (List Str × ℕ)
  | [], st => some st
  | .call id :: is, (ids, n) => if id ∈ ids then none else allocate is (ids ++ [id], n)
  | .when :: is, (ids, n) =>
    let m := firstFree ids "when".toList ids.length n
    allocate is (ids ++ [whenName m], m + 1)

theorem allocate_append (is js : List Item) (st : List Str × ℕ) :
    allocate (is ++ js) st = (allocate is st).bind (allocate js) := by
  induction is generalizing st with
  | nil => rfl
  | cons i is ih =>
    obtain ⟨ids, n⟩ := st
    cases i with
    | call id =>
      rw [List.cons_append, allocate, allocate]
      split_ifs
      · rfl
      · exact ih _
    | when =>
      rw [List.cons_append, allocate, allocate]
      exact ih _

variable {is : List Item} {ids : List Str} {n : ℕ}

structure Allocated (is : List Item) (ids : List Str) (n : ℕ) : Prop where
  mem : ∀ s, s ∈ ids ↔ s ∈ callIds is ∨ ∃ a < n, s = whenName a
  count : freeNames is n = whenCount is

theorem whenName_inj {a b : ℕ} : whenName a = whenName b ↔ a = b :=
  ⟨fun h => candidate_injective _ h, congrArg _⟩

theorem callIds_snoc_call (is : List Item) (id : Str) :
    callIds (is ++ [.call id]) = callIds is ++ [id] := by
  rw [callIds, List.filterMap_append]
  rfl

theorem callIds_snoc_when (is : List Item) : callIds (is ++ [.when]) = callIds is := by
  rw [callIds, List.filterMap_append]
  exact List.append_nil _

theorem whenCount_snoc (is : List Item) (i : Item) :
    whenCount (is ++ [i]) = whenCount is + if i = .when then 1 else 0 := by
  rw [whenCount, List.countP_append]
  cases i <;> rfl

theorem freeNames_succ (is : List Item) (n : ℕ) :
    freeNames is (n + 1) = freeNames is n + if whenName n ∉ callIds is then 1 else 0 := by
  rw [freeNames, List.range_succ, List.countP_append]
  by_cases h : whenName n ∈ callIds is <;> simp [freeNames, h]

theorem freeNames_mono (is : List Item) {m n : ℕ} (h : m ≤ n) :
    freeNames is m ≤ freeNames is n := by
  induction h with
  | refl => exact le_refl _
  | step _ ih =>
    rw [Nat.succ_eq_add_one, freeNames_succ]
    omega

theorem freeNames_skip (is : List Item) {m n : ℕ} (h : m ≤ n)
    (hall : ∀ j, m ≤ j → j < n → whenName j ∈ callIds is) : freeNames is n = freeNames is m := by
  induction h with
  | refl => rfl
  | @step n hle ih =>
    rw [Nat.succ_eq_add_one, freeNames_succ, ih (fun j h1 h2 => hall j h1 (by omega)),
      if_neg (not_not.mpr (hall n hle (by omega))), Nat.add_zero]

theorem freeNames_snoc_call (is : List Item) {id : Str} {n : ℕ}
    (h : ∀ a < n, id ≠ whenName a) : freeNames (is ++ [.call id]) n = freeNames is n := by
  refine List.countP_congr (fun j hj => ?_)
  have hne := h j (List.mem_range.mp hj)
  simp [callIds_snoc_call, Ne.symm hne]

theorem Allocated.call (h : Allocated is ids n) {id : Str} (hid : id ∉ ids) :
    Allocated (is ++ [.call id]) (ids ++ [id]) n := by
  have hne : ∀ a < n, id ≠ whenName a := fun a ha he => hid ((h.mem id).mpr (Or.inr ⟨a, ha, he⟩))
  refine ⟨fun s => ?_, ?_⟩
  · rw [List.mem_append, h.mem, callIds_snoc_call, List.mem_append, List.mem_singleton]
    exact or_right_comm
  · rw [freeNames_snoc_call is hne, h.count, whenCount_snoc]
    rfl

theorem Allocated.when (h : Allocated is ids n) :
    Allocated (is ++ [.when]) (ids ++ [whenName (firstFree ids "when".toList ids.length n)])
      (firstFree ids "when".toList ids.length n + 1) := by
  have hfree := firstFree_fresh ids "when".toList n
  obtain ⟨hle, hall, -⟩ := firstFree_spec ids "when".toList ids.length n
  generalize firstFree ids "when".toList ids.length n = m at hfree hle hall ⊢
  have hskip : ∀ j, n ≤ j → j < m → whenName j ∈ callIds is := by
    intro j hj hjm
    rcases (h.mem _).mp (hall j hj hjm) with hc | ⟨a, ha, he⟩
    · exact hc
    · rw [whenName_inj.mp he] at hj
      omega
  have hnew : whenName m ∉ callIds is := fun hc => hfree ((h.mem _).mpr (Or.inl hc))
  refine ⟨fun s => ?_, ?_⟩
  · rw [List.mem_append, h.mem, callIds_snoc_when, List.mem_singleton]
    constructor
    · rintro ((hs | ⟨a, ha, rfl⟩) | rfl)
      · exact Or.inl hs
      · exact Or.inr ⟨a, by omega, rfl⟩
      · exact Or.inr ⟨m, by omega, rfl⟩
    · rintro (hs | ⟨a, ha, rfl⟩)
      · exact Or.inl (Or.inl hs)
      · by_cases han : a < n
        · exact Or.inl (Or.inr ⟨a, han, rfl⟩)
        · by_cases ham : a = m
          · exact Or.inr (by rw [ham])
          · exact Or.inl (Or.inl (hskip a (by omega) (by omega)))
  · have hsame : freeNames (is ++ [.when]) (m + 1) = freeNames is (m + 1) := by
      rw [freeNames, callIds_snoc_when]
      rfl
    rw [hsame, freeNames_succ, if_pos hnew, freeNames_skip is hle hskip, h.count, whenCount_snoc]
    rfl

theorem Allocated.clash_iff (h : Allocated is ids n) {id : Str} (hnew : id ∉ callIds is) :
    id ∈ ids ↔ ∃ k, id = whenName k ∧ freeNames is k < whenCount is := by
  rw [h.mem]
  constructor
  · rintro (hc | ⟨k, hk, rfl⟩)
    · exact absurd hc hnew
    · refine ⟨k, rfl, ?_⟩
      have hsucc := freeNames_succ is k
      rw [if_pos hnew] at hsucc
      have hmono := freeNames_mono is (show k + 1 ≤ n from hk)
      rw [h.count] at hmono
      omega
  · rintro ⟨k, rfl, hlt⟩
    refine Or.inr ⟨k, ?_, rfl⟩
    by_contra hge
    have hmono := freeNames_mono is (show n ≤ k by omega)
    rw [h.count] at hmono
    omega

theorem allocate_allocated : ∀ {st : List Str × ℕ}, allocate is ([], 0) = some st →
    Allocated is st.1 st.2 := by
  induction is using List.reverseRecOn with
  | nil =>
    intro st h
    cases h
    exact ⟨fun s => by simp [callIds], rfl⟩
  | append_singleton is i ih =>
    intro st h
    rw [allocate_append] at h
    obtain ⟨⟨ids, n⟩, hst, h⟩ := Option.bind_eq_some_iff.mp h
    have hall := ih hst
    cases i with
    | call id =>
      rw [allocate] at h
      split_ifs at h with hid
      cases h
      exact hall.call hid
    | when =>
      cases h
      exact hall.when

theorem noClash_snoc {i : Item} :
    NoClash (is ++ [i]) ↔ NoClash is ∧ ∀ k, i = .call (whenName k) →
      whenCount is ≤ freeNames is k := by
  constructor
  · intro h
    refine ⟨fun pre k post hsplit => h pre k (post ++ [i]) (by rw [hsplit]; simp), ?_⟩
    rintro k rfl
    exact h is k [] rfl
  · rintro ⟨hold, hnew⟩ pre k post hsplit
    rcases List.eq_nil_or_concat post with rfl | ⟨post', x, rfl⟩
    · obtain ⟨rfl, hi⟩ := List.append_inj' hsplit rfl
      exact hnew k (List.cons.inj hi).1
    · rw [List.concat_eq_append, ← List.cons_append, ← List.append_assoc] at hsplit
      obtain ⟨rfl, -⟩ := List.append_inj' hsplit rfl
      exact hold pre k post' rfl

theorem allocate_isSome_iff (is : List Item) :
    (allocate is ([], 0)).isSome = true ↔ (callIds is).Nodup ∧ NoClash is := by
  induction is using List.reverseRecOn with
  | nil =>
    refine ⟨fun _ => ⟨List.nodup_nil, fun pre k post h => ?_⟩, fun _ => rfl⟩
    exact absurd h (by simp)
  | append_singleton is i ih =>
    rw [allocate_append, noClash_snoc]
    cases hst : allocate is ([], 0) with
    | none =>
      rw [hst] at ih
      have hno : ¬((callIds is).Nodup ∧ NoClash is) := fun h => by cases ih.mpr h
      constructor
      · intro h
        cases h
      · rintro ⟨hnodup, hclash, -⟩
        rw [callIds, List.filterMap_append] at hnodup
        exact absurd ⟨(List.nodup_append.mp hnodup).1, hclash⟩ hno
    | some st =>
      obtain ⟨ids, n⟩ := st
      rw [hst] at ih
      obtain ⟨hnodup, hclash⟩ := ih.mp rfl
      have hall := allocate_allocated hst
      rw [Option.bind_some]
      cases i with
      | when =>
        rw [callIds_snoc_when]
        exact ⟨fun _ => ⟨hnodup, hclash, fun k hk => by cases hk⟩, fun _ => rfl⟩
      | call id =>
        have hstep : (allocate [.call id] (ids, n)).isSome = true ↔ id ∉ ids := by
          rw [allocate]
          split_ifs with hid <;> simp [allocate, hid]
        rw [hstep, callIds_snoc_call, List.nodup_append]
        constructor
        · intro hid
          have hnew : id ∉ callIds is := fun hc => hid ((hall.mem id).mpr (Or.inl hc))
          refine ⟨⟨hnodup, List.nodup_singleton _, fun a ha b hb hab => ?_⟩, hclash, fun k hk => ?_⟩
          · exact hnew (List.mem_singleton.mp hb ▸ hab ▸ ha)
          · by_contra hlt
            exact hid ((hall.clash_iff hnew).mpr ⟨k, Item.call.inj hk, by omega⟩)
        · rintro ⟨⟨-, -, hdisj⟩, -, hk⟩ hid
          have hnew : id ∉ callIds is := fun hc => hdisj id hc id List.mem_cons_self rfl
          obtain ⟨k, hkid, hlt⟩ := (hall.clash_iff hnew).mp hid
          have hle := hk k (congrArg Item.call hkid)
          omega

end allocate

section accept

variable {eval : LiteralEval}

def names (b : Builder) : List Str × ℕ := (b.ids, b.counter)

theorem linkSegments_frame (exits : List ExitEdge) (t : Str) (b : Builder) :
    names (b.linkSegments exits t) = names b := by
  induction exits generalizing b with
  | nil => rfl
  | cons x exits ih =>
    exact (ih (b.addEdge x.src t x.label)).trans
      (Prod.ext (addEdge_ids ..) (noteLabel_counter ..))

theorem closeWhen_frame (switchId : Str) (c : Condition) (nested : SequenceGraph) (b : Builder) :
    names (closeWhen switchId c nested b).2 = names b := by
  rw [closeWhen]
  simp only
  induction c.caseValues generalizing b with
  | nil => rfl
  | cons v vs ih =>
    refine (ih (addCase switchId nested.entry b v)).trans ?_
    rw [addCase_eq]
    rfl

theorem succeeds_iff {α : Type} {x : Compiled α} : succeeds x = true ↔ ∃ a, x = .ok a := by
  cases x with
  | error e =>
    constructor
    · intro h
      cases h
    · rintro ⟨a, h⟩
      cases h
  | ok a => exact ⟨fun _ => ⟨a, rfl⟩, fun _ => rfl⟩

theorem addStep_names {b : Builder} {s : FlowStep} {b' : Builder} (h : b.addStep s = .ok b') :
    names b' = (b.ids ++ [s.id], b.counter) := by
  obtain ⟨-, rfl⟩ := addStep_ok h
  exact Prod.ext List.map_append rfl

theorem compileCall_ok_iff {id target : Str} {args : List Named} {location : SourceSpan}
    {b : Builder} {st : List Str × ℕ} :
    (∃ r, compileCall id target args location b = .ok r ∧ names r.2 = st) ↔
      succeeds (renderNamed args) = true ∧ allocate [.call id] (names b) = some st := by
  rw [compileCall, names, allocate, succeeds_iff]
  by_cases hid : id ∈ b.ids
  · rw [if_pos hid, if_pos hid]
    simp
  · rw [if_neg hid, if_neg hid]
    constructor
    · rintro ⟨r, h, rfl⟩
      obtain ⟨rendered, hrendered, h⟩ := Fallible.bind_eq_ok.mp h
      obtain ⟨b', hadd, h⟩ := Fallible.bind_eq_ok.mp h
      cases h
      exact ⟨⟨rendered, hrendered⟩, congrArg some (addStep_names hadd).symm⟩
    · rintro ⟨⟨rendered, hrendered⟩, hst⟩
      have hadd := addStep_fresh (s := ⟨id, .call target rendered, location⟩) hid
      refine ⟨_, Fallible.bind_eq_ok.mpr ⟨rendered, hrendered,
        Fallible.bind_eq_ok.mpr ⟨_, hadd, rfl⟩⟩, ?_⟩
      exact (addStep_names hadd).trans (Option.some.inj hst)

theorem compileLoop_entry (ss : List WdlStep) : ∀ {entry : Option Str} {exits : List ExitEdge}
    {b : Builder} {r : Option Str × List ExitEdge × Builder},
    compileLoop eval ss entry exits b = .ok r →
    (r.1.isSome = true ↔ entry.isSome = true ∨ ss ≠ []) := by
  induction ss with
  | nil =>
    intro entry exits b r h
    rw [compileLoop] at h
    cases h
    simp
  | cons s ss ih =>
    intro entry exits b r h
    rw [compileLoop] at h
    obtain ⟨q, -, h⟩ := Fallible.bind_eq_ok.mp h
    have hsome : (entry.orElse (fun _ => some q.1.entry)).isSome = true := by cases entry <;> rfl
    exact ⟨fun _ => Or.inr (List.cons_ne_nil _ _), fun _ => (ih h).mpr (Or.inl hsome)⟩

mutual

theorem compileStep_ok_iff : ∀ (s : WdlStep) {b : Builder} {st : List Str × ℕ},
    (∃ r, compileStep eval s b = .ok r ∧ names r.2 = st) ↔
      wellFormed eval s = true ∧ allocate (itemsOf s) (names b) = some st
  | .call id target args location, b, st => by
    rw [compileStep, wellFormed, itemsOf]
    exact compileCall_ok_iff
  | .when condition steps location, b, st => by
    rw [compileStep, wellFormed, itemsOf, names, allocate, Bool.and_eq_true, Bool.and_eq_true,
      succeeds_iff]
    constructor
    · rintro ⟨r, h, rfl⟩
      obtain ⟨c, hc, h⟩ := Fallible.bind_eq_ok.mp h
      obtain ⟨b₁, hadd, h⟩ := Fallible.bind_eq_ok.mp h
      obtain ⟨q, hq, h⟩ := Fallible.bind_eq_ok.mp h
      obtain ⟨nested, hn, h⟩ := Fallible.bind_eq_ok.mp h
      cases h
      obtain ⟨hwf, hall⟩ := compileLoop_ok_iff steps none [] |>.mp ⟨q, hq, rfl⟩
      have hne : steps ≠ [] := by
        have hsome : q.1.isSome = true := by rw [(sequenceGraph_ok hn).1]; rfl
        exact ((compileLoop_entry steps hq).mp hsome).resolve_left (by simp)
      rw [addStep_names hadd] at hall
      rw [closeWhen_frame]
      exact ⟨⟨⟨⟨c, hc⟩, by simpa using hne⟩, hwf⟩, hall⟩
    · rintro ⟨⟨⟨⟨c, hc⟩, hne⟩, hwf⟩, hall⟩
      have hfresh := firstFree_fresh b.ids "when".toList b.counter
      have hadd := addStep_fresh (b := (b.uniqueStepId "when".toList).2)
        (s := ⟨(b.uniqueStepId "when".toList).1, .switch c.keyFrom, location⟩) hfresh
      have hnames := addStep_names hadd
      obtain ⟨q, hq, rfl⟩ := compileLoop_ok_iff steps none [] |>.mpr ⟨hwf, hnames ▸ hall⟩
      obtain ⟨e, he⟩ := Option.isSome_iff_exists.mp
        ((compileLoop_entry steps hq).mpr (Or.inr (by simpa using hne)))
      have hg : sequenceGraph q.1 q.2.1 = .ok ⟨e, q.2.1⟩ := by rw [he]; rfl
      exact ⟨_, Fallible.bind_eq_ok.mpr ⟨c, hc, Fallible.bind_eq_ok.mpr ⟨_, hadd,
        Fallible.bind_eq_ok.mpr ⟨q, hq, Fallible.bind_eq_ok.mpr ⟨_, hg, rfl⟩⟩⟩⟩, closeWhen_frame ..⟩

theorem compileLoop_ok_iff : ∀ (ss : List WdlStep) (entry : Option Str) (exits : List ExitEdge)
    {b : Builder} {st : List Str × ℕ},
    (∃ r, compileLoop eval ss entry exits b = .ok r ∧ names r.2.2 = st) ↔
      wellFormedAll eval ss = true ∧ allocate (itemsAll ss) (names b) = some st
  | [], entry, exits, b, st => by
    rw [compileLoop, wellFormedAll, itemsAll, allocate]
    simp
  | s :: ss, entry, exits, b, st => by
    rw [compileLoop, wellFormedAll, itemsAll, allocate_append, Bool.and_eq_true,
      Option.bind_eq_some_iff]
    simp only [link_unless_empty]
    constructor
    · rintro ⟨r, h, hst⟩
      obtain ⟨q, hq, h⟩ := Fallible.bind_eq_ok.mp h
      obtain ⟨hwf, hstep⟩ := compileStep_ok_iff s |>.mp ⟨q, hq, rfl⟩
      obtain ⟨hwfs, hrest⟩ := compileLoop_ok_iff ss _ _ |>.mp ⟨r, h, hst⟩
      rw [linkSegments_frame] at hrest
      exact ⟨⟨hwf, hwfs⟩, _, hstep, hrest⟩
    · rintro ⟨⟨hwf, hwfs⟩, mid, hstep, hrest⟩
      obtain ⟨q, hq, rfl⟩ := compileStep_ok_iff s |>.mpr ⟨hwf, hstep⟩
      rw [← linkSegments_frame exits q.1.entry q.2] at hrest
      obtain ⟨r, hr, hst⟩ := compileLoop_ok_iff ss _ _ |>.mpr ⟨hwfs, hrest⟩
      exact ⟨r, Fallible.bind_eq_ok.mpr ⟨q, hq, hr⟩, hst⟩

end

theorem compileSequence_ok_iff {ss : List WdlStep} {b : Builder} :
    (∃ r, compileSequence eval ss b = .ok r) ↔
      ss ≠ [] ∧ wellFormedAll eval ss = true ∧ (allocate (itemsAll ss) (names b)).isSome = true := by
  constructor
  · rintro ⟨r, h⟩
    obtain ⟨q, hq, h⟩ := Fallible.bind_eq_ok.mp h
    obtain ⟨g, hg, -⟩ := Fallible.bind_eq_ok.mp h
    obtain ⟨hwf, hall⟩ := compileLoop_ok_iff ss none [] |>.mp ⟨q, hq, rfl⟩
    have hsome : q.1.isSome = true := by rw [(sequenceGraph_ok hg).1]; rfl
    refine ⟨((compileLoop_entry ss hq).mp hsome).resolve_left (by simp), hwf, ?_⟩
    rw [hall]
    rfl
  · rintro ⟨hne, hwf, hsome⟩
    obtain ⟨st, hst⟩ := Option.isSome_iff_exists.mp hsome
    obtain ⟨q, hq, -⟩ := compileLoop_ok_iff ss none [] |>.mpr ⟨hwf, hst⟩
    obtain ⟨e, he⟩ := Option.isSome_iff_exists.mp ((compileLoop_entry ss hq).mpr (Or.inr hne))
    have hg : sequenceGraph q.1 q.2.1 = .ok ⟨e, q.2.1⟩ := by rw [he]; rfl
    exact ⟨_, Fallible.bind_eq_ok.mpr ⟨q, hq, Fallible.bind_eq_ok.mpr ⟨_, hg, rfl⟩⟩⟩

theorem addOutputsStep_ok_iff {w : WdlWorkflow} {b : Builder} :
    (∃ r, addOutputsStep w b = .ok r) ↔ succeeds (renderNamed w.outputs) = true := by
  rw [succeeds_iff]
  constructor
  · rintro ⟨r, h⟩
    obtain ⟨rendered, hr, -⟩ := Fallible.bind_eq_ok.mp h
    exact ⟨rendered, hr⟩
  · rintro ⟨rendered, hr⟩
    have hfresh := firstFree_fresh b.ids "emit".toList b.counter
    exact ⟨_, Fallible.bind_eq_ok.mpr ⟨rendered, hr,
      Fallible.bind_eq_ok.mpr ⟨_, addStep_fresh hfresh, rfl⟩⟩⟩

theorem addFinishStep_ok (w : WdlWorkflow) (b : Builder) : ∃ r, addFinishStep w b = .ok r := by
  have hfresh := firstFree_fresh b.ids "finish".toList b.counter
  exact ⟨_, Fallible.bind_eq_ok.mpr ⟨_, addStep_fresh hfresh, rfl⟩⟩

theorem compileWorkflow_ok_iff (eval : LiteralEval) (w : WdlWorkflow) :
    (∃ f, compileWorkflow eval w = .ok f) ↔
      w.steps ≠ [] ∧ wellFormedAll eval w.steps = true ∧
        succeeds (renderNamed w.outputs) = true ∧
        (callIds (itemsAll w.steps)).Nodup ∧ NoClash (itemsAll w.steps) := by
  rw [← allocate_isSome_iff, compileWorkflow]
  constructor
  · rintro ⟨f, h⟩
    split_ifs at h
    obtain ⟨main, hmain, h⟩ := Fallible.bind_eq_ok.mp h
    obtain ⟨outputs, houtputs, -⟩ := Fallible.bind_eq_ok.mp h
    obtain ⟨hne, hwf, hall⟩ := compileSequence_ok_iff.mp ⟨main, hmain⟩
    exact ⟨hne, hwf, addOutputsStep_ok_iff.mp ⟨outputs, houtputs⟩, hall⟩
  · rintro ⟨hne, hwf, hrender, hall⟩
    rw [if_neg (fun he => hne (List.isEmpty_iff.mp he))]
    obtain ⟨main, hmain⟩ := compileSequence_ok_iff (b := {}) |>.mpr ⟨hne, hwf, hall⟩
    obtain ⟨outputs, houtputs⟩ := addOutputsStep_ok_iff (b := main.2) |>.mpr hrender
    obtain ⟨fin, hfin⟩ := addFinishStep_ok w (outputs.2.linkSegments main.1.exits outputs.1)
    exact ⟨_, Fallible.bind_eq_ok.mpr ⟨main, hmain, Fallible.bind_eq_ok.mpr ⟨outputs, houtputs,
      Fallible.bind_eq_ok.mpr ⟨fin, hfin, rfl⟩⟩⟩⟩

theorem compileWorkflow_correct (eval : LiteralEval) (w : WdlWorkflow) :
    ((∃ f, compileWorkflow eval w = .ok f) ↔
      w.steps ≠ [] ∧ wellFormedAll eval w.steps = true ∧
        succeeds (renderNamed w.outputs) = true ∧
        (callIds (itemsAll w.steps)).Nodup ∧ NoClash (itemsAll w.steps)) ∧
    ∀ f, compileWorkflow eval w = .ok f →
      (∀ σ, f.visited σ = some (callsOfAll eval σ w.steps) ↔ straysAny eval σ w.steps = false) ∧
      (∀ s ∈ f.steps, Relation.ReflTransGen f.Edge f.entry s.id) ∧
      ∀ a, ¬Relation.TransGen f.Edge a a :=
  ⟨compileWorkflow_ok_iff eval w, fun _ h => compiled_flow_spec h⟩

end accept

def demoEval : LiteralEval := fun text =>
  if text = "'_DEFAULT'".toList then .ok (.text defaultCase)
  else .error "malformed node or string".toList

def demoCall (id : Str) : WdlStep := .call id "op".toList [] {}

def demoWhen (body : List WdlStep) : WdlStep := .when "$input.x == '_DEFAULT'".toList body {}

def demoFlow (steps : List WdlStep) : WdlWorkflow := ⟨"1".toList, "demo".toList, steps, [], {}⟩

def visitedBy (w : WdlWorkflow) (σ : Str → Str) : Option (List Str) :=
  (compileWorkflow demoEval w).toOption.bind (fun f => f.visited σ)

theorem compile_misses :
    (visitedBy (demoFlow [demoWhen [demoCall "a".toList]]) (fun _ => "other".toList) =
        some ["a".toList] ∧
      callsOfAll demoEval (fun _ => "other".toList) [demoWhen [demoCall "a".toList]] = []) ∧
    (callIds (itemsAll [demoWhen [demoCall "a".toList], demoCall "when_0".toList])).Nodup ∧
    wellFormedAll demoEval [demoWhen [demoCall "a".toList], demoCall "when_0".toList] = true ∧
    succeeds (compileWorkflow demoEval
      (demoFlow [demoWhen [demoCall "a".toList], demoCall "when_0".toList])) = false := by
  refine ⟨⟨?_, ?_⟩, ?_, ?_, ?_⟩ <;> decide +kernel

end TraceMind.Dsl
