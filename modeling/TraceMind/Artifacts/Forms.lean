import TraceMind.Artifacts.Hash

namespace TraceMind.Artifacts

section sets

def sortKeyForSetLikeItem : Json → ℕ × Str
  | .arr vs => (1, canonicalStyle.render (.arr vs))
  | .obj fs => (1, canonicalStyle.render (.obj fs))
  | v => (0, canonicalStyle.render v)

def keyLe (a b : ℕ × Str) : Bool := a.1 < b.1 || (a.1 == b.1 && textLe a.2 b.2)

def dedupe (seen : List (ℕ × Str)) : List Json → List ((ℕ × Str) × Json)
  | [] => []
  | item :: rest =>
    let key := sortKeyForSetLikeItem item
    if key ∈ seen then dedupe seen rest else (key, item) :: dedupe (key :: seen) rest

def canonicalizeSetLikeList (items : List Json) : List Json :=
  ((dedupe [] items).mergeSort (fun a b => keyLe a.1 b.1)).map Prod.snd

theorem keyLe_total (a b : ℕ × Str) : (keyLe a b || keyLe b a) = true := by
  obtain ⟨m, s⟩ := a
  obtain ⟨n, t⟩ := b
  rcases Nat.lt_trichotomy m n with h | h | h
  · simp [keyLe, h]
  · subst h
    simpa [keyLe] using textLe_total s t
  · simp [keyLe, h]

theorem keyLe_trans (a b c : ℕ × Str) (hab : keyLe a b = true) (hbc : keyLe b c = true) :
    keyLe a c = true := by
  obtain ⟨m, s⟩ := a
  obtain ⟨n, t⟩ := b
  obtain ⟨l, u⟩ := c
  simp only [keyLe, Bool.or_eq_true, decide_eq_true_eq, Bool.and_eq_true, beq_iff_eq] at hab hbc ⊢
  rcases hab with hab | ⟨rfl, hst⟩
  · rcases hbc with hbc | ⟨rfl, -⟩
    · exact Or.inl (hab.trans hbc)
    · exact Or.inl hab
  · rcases hbc with hbc | ⟨rfl, htu⟩
    · exact Or.inl hbc
    · exact Or.inr ⟨rfl, textLe_trans hst htu⟩

theorem keyLe_antisymm {a b : ℕ × Str} (hab : keyLe a b = true) (hba : keyLe b a = true) :
    a = b := by
  obtain ⟨m, s⟩ := a
  obtain ⟨n, t⟩ := b
  simp only [keyLe, Bool.or_eq_true, decide_eq_true_eq, Bool.and_eq_true, beq_iff_eq] at hab hba
  rcases hab with hab | ⟨rfl, hst⟩
  · rcases hba with hba | ⟨rfl, -⟩
    · exact absurd hab hba.not_gt
    · exact absurd hab (lt_irrefl _)
  · rcases hba with hba | ⟨-, hts⟩
    · exact absurd hba (lt_irrefl _)
    · rw [textLe_antisymm hst hts]

theorem sortKey_text (v : Json) : (sortKeyForSetLikeItem v).2 = canonicalStyle.render v := by
  cases v <;> rfl

theorem sortKey_injective {v w : Json} (hv : Json.wf v = true) (hw : Json.wf w = true)
    (h : sortKeyForSetLikeItem v = sortKeyForSetLikeItem w) : v = w := by
  have htext := congrArg Prod.snd h
  rw [sortKey_text, sortKey_text] at htext
  exact Json.render_injective canonicalStyle hv hw htext

variable {seen : List (ℕ × Str)} {vs ws : List Json}

theorem dedupe_keys : ∀ e ∈ dedupe seen vs, e.1 = sortKeyForSetLikeItem e.2 ∧ e.1 ∉ seen ∧
    e.2 ∈ vs := by
  induction vs generalizing seen with
  | nil => exact List.forall_mem_nil _
  | cons v vs ih =>
    unfold dedupe
    dsimp only
    split_ifs with hs
    · exact fun e he => ⟨(ih e he).1, (ih e he).2.1, List.mem_cons_of_mem _ (ih e he).2.2⟩
    · refine List.forall_mem_cons.mpr ⟨⟨rfl, hs, List.mem_cons_self⟩, fun e he => ?_⟩
      obtain ⟨hk, hn, hm⟩ := ih e he
      exact ⟨hk, fun h => hn (List.mem_cons_of_mem _ h), List.mem_cons_of_mem _ hm⟩

theorem dedupe_covers : ∀ v ∈ vs, sortKeyForSetLikeItem v ∈ seen ∨
    ∃ e ∈ dedupe seen vs, e.1 = sortKeyForSetLikeItem v := by
  induction vs generalizing seen with
  | nil => exact List.forall_mem_nil _
  | cons v vs ih =>
    unfold dedupe
    dsimp only
    split_ifs with hs
    · exact List.forall_mem_cons.mpr ⟨Or.inl hs, ih⟩
    · refine List.forall_mem_cons.mpr ⟨Or.inr ⟨_, List.mem_cons_self, rfl⟩, fun w hw => ?_⟩
      rcases ih w hw with h | ⟨e, he, hk⟩
      · rcases List.mem_cons.mp h with h | h
        · exact Or.inr ⟨_, List.mem_cons_self, h.symm⟩
        · exact Or.inl h
      · exact Or.inr ⟨e, List.mem_cons_of_mem _ he, hk⟩

theorem dedupe_nodup : ((dedupe seen vs).map Prod.fst).Nodup := by
  induction vs generalizing seen with
  | nil => exact List.nodup_nil
  | cons v vs ih =>
    unfold dedupe
    dsimp only
    split_ifs with hs
    · exact ih
    · refine List.nodup_cons.mpr ⟨fun hm => ?_, ih⟩
      obtain ⟨e, he, hk⟩ := List.mem_map.mp hm
      exact (dedupe_keys e he).2.1 (hk ▸ List.mem_cons_self)

theorem mem_dedupe (h : Json.wfItems vs = true) (e : (ℕ × Str) × Json) :
    e ∈ dedupe [] vs ↔ e.1 = sortKeyForSetLikeItem e.2 ∧ e.2 ∈ vs := by
  have hwf := Json.wfItems_iff.mp h
  constructor
  · intro he
    exact ⟨(dedupe_keys e he).1, (dedupe_keys e he).2.2⟩
  · rintro ⟨hkey, hm⟩
    have hcovers : _ ∨ ∃ d ∈ dedupe [] vs, d.1 = _ := dedupe_covers e.2 hm
    rcases hcovers with hs | ⟨d, hd, hk⟩
    · cases hs
    · obtain ⟨hdkey, -, hdm⟩ := dedupe_keys d hd
      have hval : d.2 = e.2 := sortKey_injective (hwf d.2 hdm) (hwf e.2 hm) (hdkey.symm.trans hk)
      have heq : d = e := Prod.ext (hk.trans hkey.symm) hval
      exact heq ▸ hd

theorem mem_setLike (h : Json.wfItems vs = true) (v : Json) :
    v ∈ canonicalizeSetLikeList vs ↔ v ∈ vs := by
  rw [canonicalizeSetLikeList, ((List.mergeSort_perm _ _).map Prod.snd).mem_iff, List.mem_map]
  constructor
  · rintro ⟨e, he, rfl⟩
    exact ((mem_dedupe h e).mp he).2
  · intro hv
    exact ⟨(sortKeyForSetLikeItem v, v), (mem_dedupe h _).mpr ⟨rfl, hv⟩, rfl⟩

theorem setLike_eq_iff (hv : Json.wfItems vs = true) (hw : Json.wfItems ws = true) :
    canonicalizeSetLikeList vs = canonicalizeSetLikeList ws ↔ ∀ v, v ∈ vs ↔ v ∈ ws := by
  constructor
  · intro h v
    rw [← mem_setLike hv, h, mem_setLike hw]
  · intro h
    have hperm : List.Perm (dedupe [] vs) (dedupe [] ws) := by
      refine (List.perm_ext_iff_of_nodup (List.Nodup.of_map _ dedupe_nodup)
        (List.Nodup.of_map _ dedupe_nodup)).mpr fun e => ?_
      rw [mem_dedupe hv, mem_dedupe hw, h]
    have hsort : List.Perm ((dedupe [] vs).mergeSort (fun a b => keyLe a.1 b.1))
        ((dedupe [] ws).mergeSort (fun a b => keyLe a.1 b.1)) :=
      (List.mergeSort_perm _ _).trans (hperm.trans (List.mergeSort_perm _ _).symm)
    have hsorted : ∀ us : List Json, ((dedupe [] us).mergeSort
        (fun a b => keyLe a.1 b.1)).Pairwise (fun a b => keyLe a.1 b.1 = true) := fun us =>
      List.pairwise_mergeSort (fun a b c => keyLe_trans a.1 b.1 c.1)
        (fun a b => keyLe_total a.1 b.1) _
    rw [canonicalizeSetLikeList, canonicalizeSetLikeList]
    refine congrArg _ (List.Perm.eq_of_pairwise ?_ (hsorted vs) (hsorted ws) hsort)
    intro a b ha hb hab hba
    exact List.inj_on_of_nodup_map dedupe_nodup ((List.mergeSort_perm _ _).subset ha)
      (hperm.symm.subset ((List.mergeSort_perm _ _).subset hb)) (keyLe_antisymm hab hba)

end sets

structure Form where
  text : Str → Str
  sets : List Str → Bool

def keyOrder : Form := ⟨id, fun _ => false⟩

def star : Str := ['*']

section forms

variable (F : Form)

mutual

def form (path : List Str) : Json → Json
  | .str s => .str (F.text s)
  | .arr vs =>
    .arr (if F.sets path then canonicalizeSetLikeList (formItems (path ++ [star]) vs)
      else formItems (path ++ [star]) vs)
  | .obj fs => .obj (sortFields (formFields path fs))
  | v => v

def formItems (path : List Str) : List Json → List Json
  | [] => []
  | v :: vs => form path v :: formItems path vs

def formFields (path : List Str) : List (Str × Json) → List (Str × Json)
  | [] => []
  | (k, v) :: fs => (k, form (path ++ [k]) v) :: formFields path fs

end

mutual

def Alike (path : List Str) : Json → Json → Prop
  | .str s, .str t => F.text s = F.text t
  | .arr vs, .arr ws =>
    if F.sets path then
      EachIn (path ++ [star]) vs ws ∧ ∀ w ∈ ws, SomeIn (path ++ [star]) vs w
    else ItemsAlike (path ++ [star]) vs ws
  | .obj fs, .obj gs => fs.length = gs.length ∧ FieldsIn path fs gs
  | v, w => v = w

def EachIn (path : List Str) : List Json → List Json → Prop
  | [], _ => True
  | v :: vs, ws => (∃ w ∈ ws, Alike path v w) ∧ EachIn path vs ws

def SomeIn (path : List Str) : List Json → Json → Prop
  | [], _ => False
  | v :: vs, w => Alike path v w ∨ SomeIn path vs w

def ItemsAlike (path : List Str) : List Json → List Json → Prop
  | [], [] => True
  | v :: vs, w :: ws => Alike path v w ∧ ItemsAlike path vs ws
  | _, _ => False

def FieldsIn (path : List Str) : List (Str × Json) → List (Str × Json) → Prop
  | [], _ => True
  | (k, v) :: fs, gs => (∃ w, (k, w) ∈ gs ∧ Alike (path ++ [k]) v w) ∧ FieldsIn path fs gs

end

theorem formItems_eq (path : List Str) (vs : List Json) :
    formItems F path vs = vs.map (form F path) := by
  induction vs with
  | nil => rfl
  | cons v vs ih => rw [formItems, ih, List.map_cons]

theorem formFields_eq (path : List Str) (fs : List (Str × Json)) :
    formFields F path fs = fs.map (fun f => (f.1, form F (path ++ [f.1]) f.2)) := by
  induction fs with
  | nil => rfl
  | cons f fs ih =>
    obtain ⟨k, v⟩ := f
    rw [formFields, ih, List.map_cons]

theorem formFields_keys (path : List Str) (fs : List (Str × Json)) :
    (formFields F path fs).map Prod.fst = fs.map Prod.fst := by
  rw [formFields_eq, List.map_map]
  rfl

mutual

theorem form_wf : ∀ (path : List Str) {v : Json}, Json.wf v = true →
    Json.wf (form F path v) = true
  | _, .null, h | _, .bool _, h | _, .nan, h | _, .infinity _, h | _, .int _, h => h
  | _, .float _, h => h
  | _, .str _, _ => rfl
  | path, .arr vs, h => by
    have hitems : Json.wfItems (formItems F (path ++ [star]) vs) = true := formItems_wf _ h
    change Json.wfItems (if _ then _ else _) = true
    split_ifs
    · exact Json.wfItems_iff.mpr fun v hv =>
        Json.wfItems_iff.mp hitems v ((mem_setLike hitems v).mp hv)
    · exact hitems
  | path, .obj fs, h => by
    obtain ⟨hnd, hfs⟩ := Bool.and_eq_true_iff.mp h
    refine sortFields_wf ?_ (formFields_wf path hfs)
    rw [formFields_keys]
    exact of_decide_eq_true hnd

theorem formItems_wf : ∀ (path : List Str) {vs : List Json}, Json.wfItems vs = true →
    Json.wfItems (formItems F path vs) = true
  | _, [], _ => rfl
  | path, v :: vs, h => by
    obtain ⟨hv, hvs⟩ := Bool.and_eq_true_iff.mp h
    exact Bool.and_eq_true_iff.mpr ⟨form_wf path hv, formItems_wf path hvs⟩

theorem formFields_wf : ∀ (path : List Str) {fs : List (Str × Json)}, Json.wfFields fs = true →
    Json.wfFields (formFields F path fs) = true
  | _, [], _ => rfl
  | path, (k, v) :: fs, h => by
    obtain ⟨hv, hfs⟩ := Bool.and_eq_true_iff.mp h
    exact Bool.and_eq_true_iff.mpr ⟨form_wf _ hv, formFields_wf path hfs⟩

end

end forms

section alike

variable {F : Form} {path : List Str}

theorem eachIn_iff {vs ws : List Json} :
    EachIn F path vs ws ↔ ∀ v ∈ vs, ∃ w ∈ ws, Alike F path v w := by
  induction vs with
  | nil => simp [EachIn]
  | cons v vs ih => rw [EachIn, ih, List.forall_mem_cons]

theorem someIn_iff {vs : List Json} {w : Json} :
    SomeIn F path vs w ↔ ∃ v ∈ vs, Alike F path v w := by
  induction vs with
  | nil => simp [SomeIn]
  | cons v vs ih => simp [SomeIn, ih]

theorem fieldsIn_iff {fs gs : List (Str × Json)} : FieldsIn F path fs gs ↔
    ∀ f ∈ fs, ∃ w, (f.1, w) ∈ gs ∧ Alike F (path ++ [f.1]) f.2 w := by
  induction fs with
  | nil => simp [FieldsIn]
  | cons f fs ih =>
    obtain ⟨k, v⟩ := f
    rw [FieldsIn, ih, List.forall_mem_cons]

def Decides (F : Form) (path : List Str) (v : Json) : Prop :=
  ∀ w, Json.wf w = true → (form F path v = form F path w ↔ Alike F path v w)

theorem itemsAlike_iff {vs ws : List Json} (h : ∀ v ∈ vs, Decides F path v)
    (hw : Json.wfItems ws = true) :
    formItems F path vs = formItems F path ws ↔ ItemsAlike F path vs ws := by
  induction vs generalizing ws with
  | nil => cases ws <;> simp [formItems, ItemsAlike]
  | cons v vs ih =>
    cases ws with
    | nil => simp [formItems, ItemsAlike]
    | cons w ws =>
      obtain ⟨hv, hvs⟩ := List.forall_mem_cons.mp h
      obtain ⟨hw, hws⟩ := Bool.and_eq_true_iff.mp hw
      rw [formItems, formItems, List.cons.injEq, ItemsAlike, hv w hw, ih hvs hws]

theorem setsAlike_iff {vs ws : List Json} (h : ∀ v ∈ vs, Decides F path v)
    (hv : Json.wfItems vs = true) (hw : Json.wfItems ws = true) :
    canonicalizeSetLikeList (formItems F path vs) = canonicalizeSetLikeList (formItems F path ws) ↔
      EachIn F path vs ws ∧ ∀ w ∈ ws, SomeIn F path vs w := by
  have hws := Json.wfItems_iff.mp hw
  rw [setLike_eq_iff (formItems_wf F path hv) (formItems_wf F path hw), formItems_eq, formItems_eq,
    eachIn_iff]
  simp only [someIn_iff]
  constructor
  · intro hmem
    constructor
    · intro v hv
      obtain ⟨w, hw, he⟩ := List.mem_map.mp ((hmem _).mp (List.mem_map_of_mem hv))
      exact ⟨w, hw, (h v hv w (hws w hw)).mp he.symm⟩
    · intro w hw
      obtain ⟨v, hv, he⟩ := List.mem_map.mp ((hmem _).mpr (List.mem_map_of_mem hw))
      exact ⟨v, hv, (h v hv w (hws w hw)).mp he⟩
  · rintro ⟨heach, hsome⟩ x
    constructor
    · intro hx
      obtain ⟨v, hv, rfl⟩ := List.mem_map.mp hx
      obtain ⟨w, hw, hvw⟩ := heach v hv
      exact List.mem_map.mpr ⟨w, hw, ((h v hv w (hws w hw)).mpr hvw).symm⟩
    · intro hx
      obtain ⟨w, hw, rfl⟩ := List.mem_map.mp hx
      obtain ⟨v, hv, hvw⟩ := hsome w hw
      exact List.mem_map.mpr ⟨v, hv, (h v hv w (hws w hw)).mpr hvw⟩

theorem fieldsAlike_iff {fs gs : List (Str × Json)}
    (h : ∀ f ∈ fs, Decides F (path ++ [f.1]) f.2) (hf : Json.wf (.obj fs) = true)
    (hg : Json.wf (.obj gs) = true) :
    sortFields (formFields F path fs) = sortFields (formFields F path gs) ↔
      fs.length = gs.length ∧ FieldsIn F path fs gs := by
  have hgs := Json.wfFields_iff.mp (Bool.and_eq_true_iff.mp hg).2
  have hnd : ((formFields F path fs).map Prod.fst).Nodup := by
    rw [formFields_keys]
    exact of_decide_eq_true (Bool.and_eq_true_iff.mp hf).1
  rw [sortFields_eq_iff hnd, fieldsIn_iff]
  constructor
  · intro hp
    have hlen := hp.length_eq
    rw [formFields_eq, formFields_eq, List.length_map, List.length_map] at hlen
    refine ⟨hlen, fun f hf => ?_⟩
    have hm : (f.1, form F (path ++ [f.1]) f.2) ∈ formFields F path gs := by
      apply hp.subset
      rw [formFields_eq]
      exact List.mem_map.mpr ⟨f, hf, rfl⟩
    rw [formFields_eq] at hm
    obtain ⟨⟨k, w⟩, hw, he⟩ := List.mem_map.mp hm
    obtain ⟨hk, he⟩ := Prod.mk.inj he
    dsimp only at hk he
    subst hk
    exact ⟨w, hw, (h f hf w (hgs _ hw)).mp he.symm⟩
  · rintro ⟨hlen, hin⟩
    have hsub : formFields F path fs ⊆ formFields F path gs := by
      intro x hx
      rw [formFields_eq] at hx ⊢
      obtain ⟨f, hf, rfl⟩ := List.mem_map.mp hx
      obtain ⟨w, hw, hvw⟩ := hin f hf
      exact List.mem_map.mpr ⟨(f.1, w), hw, Prod.ext rfl ((h f hf w (hgs _ hw)).mpr hvw).symm⟩
    refine (List.subperm_of_subset (List.Nodup.of_map _ hnd) hsub).perm_of_length_le ?_
    rw [formFields_eq, formFields_eq, List.length_map, List.length_map, hlen]

mutual

theorem form_eq_iff (F : Form) : ∀ (v : Json) (path : List Str), Json.wf v = true →
    Decides F path v
  | .null, _, _ => fun w _ => by cases w <;> simp [form, Alike]
  | .bool _, _, _ => fun w _ => by cases w <;> simp [form, Alike]
  | .nan, _, _ => fun w _ => by cases w <;> simp [form, Alike]
  | .infinity _, _, _ => fun w _ => by cases w <;> simp [form, Alike]
  | .int _, _, _ => fun w _ => by cases w <;> simp [form, Alike]
  | .float _, _, _ => fun w _ => by cases w <;> simp [form, Alike]
  | .str _, _, _ => fun w _ => by cases w <;> simp [form, Alike]
  | .arr vs, path, hv => fun w hw => by
    have hitems := formItems_decides F vs (path ++ [star]) hv
    cases w with
    | arr ws =>
      rw [form, form, Json.arr.injEq, Alike]
      split_ifs
      · exact setsAlike_iff hitems hv hw
      · exact itemsAlike_iff hitems hw
    | _ => simp [form, Alike]
  | .obj fs, path, hv => fun w hw => by
    have hfields := formFields_decides F fs path (Bool.and_eq_true_iff.mp hv).2
    cases w with
    | obj gs =>
      rw [form, form, Json.obj.injEq, Alike]
      exact fieldsAlike_iff hfields hv hw
    | _ => simp [form, Alike]

theorem formItems_decides (F : Form) : ∀ (vs : List Json) (path : List Str),
    Json.wfItems vs = true → ∀ v ∈ vs, Decides F path v
  | [], _, _ => List.forall_mem_nil _
  | v :: vs, path, h =>
    have hvs := Bool.and_eq_true_iff.mp h
    List.forall_mem_cons.mpr
      ⟨form_eq_iff F v path hvs.1, formItems_decides F vs path hvs.2⟩

theorem formFields_decides (F : Form) : ∀ (fs : List (Str × Json)) (path : List Str),
    Json.wfFields fs = true → ∀ f ∈ fs, Decides F (path ++ [f.1]) f.2
  | [], _, _ => List.forall_mem_nil _
  | (k, v) :: fs, path, h =>
    have hfs := Bool.and_eq_true_iff.mp h
    List.forall_mem_cons.mpr
      ⟨form_eq_iff F v (path ++ [k]) hfs.1, formFields_decides F fs path hfs.2⟩

end

end alike

section absorb

structure Absorbs (F G : Form) : Prop where
  text : ∀ s, F.text (G.text s) = F.text s
  sets : ∀ path, G.sets path = true → F.sets path = true

variable {F G : Form} {path : List Str}

theorem formItems_absorb {vs : List Json}
    (h : ∀ v ∈ vs, form F path (form G path v) = form F path v) :
    formItems F path (formItems G path vs) = formItems F path vs := by
  rw [formItems_eq, formItems_eq, formItems_eq, List.map_map]
  exact List.map_congr_left h

theorem setLike_absorb {vs : List Json}
    (h : ∀ v ∈ vs, form F path (form G path v) = form F path v) (hv : Json.wfItems vs = true) :
    canonicalizeSetLikeList (formItems F path (canonicalizeSetLikeList (formItems G path vs))) =
      canonicalizeSetLikeList (formItems F path vs) := by
  have hitems := formItems_wf G path hv
  have hlist : Json.wfItems (canonicalizeSetLikeList (formItems G path vs)) = true :=
    Json.wfItems_iff.mpr fun v hv =>
      Json.wfItems_iff.mp hitems v ((mem_setLike hitems v).mp hv)
  rw [setLike_eq_iff (formItems_wf F path hlist) (formItems_wf F path hv)]
  intro x
  rw [← formItems_absorb h, formItems_eq F, formItems_eq F, List.mem_map, List.mem_map]
  simp only [mem_setLike hitems]

theorem form_absorb_items {vs : List Json} (hFG : Absorbs F G)
    (h : ∀ v ∈ vs, form F (path ++ [star]) (form G (path ++ [star]) v) =
      form F (path ++ [star]) v) (hv : Json.wfItems vs = true) :
    form F path (form G path (.arr vs)) = form F path (.arr vs) := by
  rw [form, form, form]
  by_cases hG : G.sets path = true
  · rw [if_pos hG, if_pos (hFG.sets path hG), if_pos (hFG.sets path hG), setLike_absorb h hv]
  · rw [if_neg hG, formItems_absorb h]

theorem form_absorb_fields {fs : List (Str × Json)}
    (h : ∀ f ∈ fs, form F (path ++ [f.1]) (form G (path ++ [f.1]) f.2) =
      form F (path ++ [f.1]) f.2) (hf : (fs.map Prod.fst).Nodup) :
    form F path (form G path (.obj fs)) = form F path (.obj fs) := by
  have hp : List.Perm (formFields F path fs)
      (formFields F path (sortFields (formFields G path fs))) := by
    have hboth : formFields F path (formFields G path fs) = formFields F path fs := by
      rw [formFields_eq, formFields_eq, formFields_eq, List.map_map]
      exact List.map_congr_left fun f hf => Prod.ext rfl (h f hf)
    have hsort := (sortFields_perm (formFields G path fs)).map
      (fun f => (f.1, form F (path ++ [f.1]) f.2))
    rw [← formFields_eq, ← formFields_eq, hboth] at hsort
    exact hsort.symm
  have hnd : ((formFields F path fs).map Prod.fst).Nodup := by
    rw [formFields_keys]
    exact hf
  rw [form, form, form, ← (sortFields_eq_iff hnd).mpr hp]

mutual

theorem form_absorb (hFG : Absorbs F G) : ∀ (v : Json) (path : List Str), Json.wf v = true →
    form F path (form G path v) = form F path v
  | .null, _, _ | .bool _, _, _ | .nan, _, _ | .infinity _, _, _ => rfl
  | .int _, _, _ | .float _, _, _ => rfl
  | .str s, _, _ => congrArg Json.str (hFG.text s)
  | .arr vs, path, h => form_absorb_items hFG (formItems_absorbs hFG vs (path ++ [star]) h) h
  | .obj fs, path, h => by
    obtain ⟨hnd, hfs⟩ := Bool.and_eq_true_iff.mp h
    exact form_absorb_fields (formFields_absorbs hFG fs path hfs) (of_decide_eq_true hnd)

theorem formItems_absorbs (hFG : Absorbs F G) : ∀ (vs : List Json) (path : List Str),
    Json.wfItems vs = true → ∀ v ∈ vs, form F path (form G path v) = form F path v
  | [], _, _ => List.forall_mem_nil _
  | v :: vs, path, h =>
    have hvs := Bool.and_eq_true_iff.mp h
    List.forall_mem_cons.mpr
      ⟨form_absorb hFG v path hvs.1, formItems_absorbs hFG vs path hvs.2⟩

theorem formFields_absorbs (hFG : Absorbs F G) : ∀ (fs : List (Str × Json)) (path : List Str),
    Json.wfFields fs = true → ∀ f ∈ fs, form F (path ++ [f.1]) (form G (path ++ [f.1]) f.2) =
      form F (path ++ [f.1]) f.2
  | [], _, _ => List.forall_mem_nil _
  | (k, v) :: fs, path, h =>
    have hfs := Bool.and_eq_true_iff.mp h
    List.forall_mem_cons.mpr
      ⟨form_absorb hFG v (path ++ [k]) hfs.1, formFields_absorbs hFG fs path hfs.2⟩

end

end absorb

end TraceMind.Artifacts
