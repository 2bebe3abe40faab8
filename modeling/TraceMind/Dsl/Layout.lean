import TraceMind.Dsl.CompilerFlow

namespace TraceMind.Dsl

inductive Block where
  | call (id target : Str)
  | when (id label : Str) (c : Condition) (body : List Block)

inductive Shape where
  | call (target : Str)
  | switch (keyFrom : Str)
  | emit
  | finish
deriving DecidableEq

def StepKind.shape : StepKind → Shape
  | .call target _ => .call target
  | .switch keyFrom => .switch keyFrom
  | .emit _ => .emit
  | .finish => .finish

def FlowStep.tag (s : FlowStep) : Str × Shape := (s.id, s.kind.shape)

def Block.id : Block → Str
  | .call id _ => id
  | .when id _ _ _ => id

def entryOf : List Block → Str → Str
  | [], t => t
  | b :: _, _ => b.id

def links (exits : List ExitEdge) (t : Str) : List FlowEdge :=
  exits.map (fun e => ⟨e.src, t, e.label⟩)

mutual

def tagsOf : Block → List (Str × Shape)
  | .call id target => [(id, .call target)]
  | .when id _ c body => (id, .switch c.keyFrom) :: tagsAll body

def tagsAll : List Block → List (Str × Shape)
  | [] => []
  | b :: bs => tagsOf b ++ tagsAll bs

end

mutual

def exitsOf : Block → List ExitEdge
  | .call id _ => [⟨id, none⟩]
  | .when id _ _ body => exitsAll [] body ++ [⟨id, some defaultCase⟩]

def exitsAll : List ExitEdge → List Block → List ExitEdge
  | exits, [] => exits
  | _, b :: bs => exitsAll (exitsOf b) bs

end

def caseEdges (id : Str) (c : Condition) (entry : Str) : List FlowEdge :=
  c.caseValues.map (fun v => ⟨id, entry, some v⟩)

mutual

def edgesOf : Block → List FlowEdge
  | .call _ _ => []
  | .when id _ c body => edgesAll [] body ++ caseEdges id c (entryOf body [])

def edgesAll : List ExitEdge → List Block → List FlowEdge
  | _, [] => []
  | exits, b :: bs => edgesOf b ++ links exits b.id ++ edgesAll (exitsOf b) bs

end

mutual

def ownedOf : Block → Str → List FlowEdge
  | .call id _, t => [⟨id, t, none⟩]
  | .when id _ c body, t =>
    caseEdges id c (entryOf body []) ++ [⟨id, t, some defaultCase⟩] ++ ownedAll body t

def ownedAll : List Block → Str → List FlowEdge
  | [], _ => []
  | b :: bs, t => ownedOf b (entryOf bs t) ++ ownedAll bs t

end

def namesOf (b : Block) : List Str := (tagsOf b).map Prod.fst

def namesAll (bs : List Block) : List Str := (tagsAll bs).map Prod.fst

@[simp] theorem namesOf_call (id target : Str) : namesOf (.call id target) = [id] := rfl

@[simp] theorem namesOf_when (id label : Str) (c : Condition) (body : List Block) :
    namesOf (.when id label c body) = id :: namesAll body := rfl

@[simp] theorem namesAll_nil : namesAll [] = [] := rfl

@[simp] theorem namesAll_cons (b : Block) (bs : List Block) :
    namesAll (b :: bs) = namesOf b ++ namesAll bs := by
  rw [namesAll, tagsAll, List.map_append]
  rfl

theorem id_mem_namesOf (b : Block) : b.id ∈ namesOf b := by
  cases b <;> exact List.mem_cons_self

mutual

theorem exitsOf_src : ∀ (b : Block), ∀ e ∈ exitsOf b, e.src ∈ namesOf b
  | .call id target => by simp [exitsOf]
  | .when id label c body => by
    intro e he
    rw [exitsOf] at he
    rw [namesOf_when, List.mem_cons]
    rcases List.mem_append.mp he with he | he
    · rcases exitsAll_src [] body e he with h | h
      · cases h
      · exact Or.inr h
    · rw [List.mem_singleton.mp he]
      exact Or.inl rfl

theorem exitsAll_src : ∀ (exits : List ExitEdge) (bs : List Block), ∀ e ∈ exitsAll exits bs,
    e ∈ exits ∨ e.src ∈ namesAll bs
  | exits, [] => fun e he => Or.inl he
  | exits, b :: bs => by
    intro e he
    rw [exitsAll] at he
    rw [namesAll_cons, List.mem_append]
    rcases exitsAll_src (exitsOf b) bs e he with h | h
    · exact Or.inr (Or.inl (exitsOf_src b e h))
    · exact Or.inr (Or.inr h)

end

mutual

theorem edgesOf_src : ∀ (b : Block), ∀ e ∈ edgesOf b, e.src ∈ namesOf b
  | .call id target => by simp [edgesOf]
  | .when id label c body => by
    intro e he
    rw [edgesOf] at he
    rw [namesOf_when, List.mem_cons]
    rcases List.mem_append.mp he with he | he
    · rcases edgesAll_src [] body e he with ⟨x, hx, -⟩ | h
      · cases hx
      · exact Or.inr h
    · obtain ⟨v, -, rfl⟩ := List.mem_map.mp he
      exact Or.inl rfl

theorem edgesAll_src : ∀ (exits : List ExitEdge) (bs : List Block), ∀ e ∈ edgesAll exits bs,
    (∃ x ∈ exits, x.src = e.src) ∨ e.src ∈ namesAll bs
  | exits, [] => fun e he => by cases he
  | exits, b :: bs => by
    intro e he
    rw [edgesAll, List.append_assoc] at he
    rw [namesAll_cons, List.mem_append]
    rcases List.mem_append.mp he with he | he
    · exact Or.inr (Or.inl (edgesOf_src b e he))
    · rcases List.mem_append.mp he with he | he
      · obtain ⟨x, hx, rfl⟩ := List.mem_map.mp he
        exact Or.inl ⟨x, hx, rfl⟩
      · rcases edgesAll_src (exitsOf b) bs e he with ⟨x, hx, hxe⟩ | h
        · exact Or.inr (Or.inl (hxe ▸ exitsOf_src b x hx))
        · exact Or.inr (Or.inr h)

end

mutual

theorem ownedOf_src : ∀ (b : Block) (t : Str), ∀ e ∈ ownedOf b t, e.src ∈ namesOf b
  | .call id target, t => by simp [ownedOf]
  | .when id label c body, t => by
    intro e he
    rw [ownedOf] at he
    rw [namesOf_when, List.mem_cons]
    rcases List.mem_append.mp he with he | he
    · rcases List.mem_append.mp he with he | he
      · obtain ⟨v, -, rfl⟩ := List.mem_map.mp he
        exact Or.inl rfl
      · rw [List.mem_singleton.mp he]
        exact Or.inl rfl
    · exact Or.inr (ownedAll_src body t e he)

theorem ownedAll_src : ∀ (bs : List Block) (t : Str), ∀ e ∈ ownedAll bs t, e.src ∈ namesAll bs
  | [], t => fun e he => by cases he
  | b :: bs, t => by
    intro e he
    rw [ownedAll] at he
    rw [namesAll_cons, List.mem_append]
    rcases List.mem_append.mp he with he | he
    · exact Or.inl (ownedOf_src b _ e he)
    · exact Or.inr (ownedAll_src bs t e he)

end

section outgoing

def SameOut (es fs : List FlowEdge) : Prop :=
  ∀ id, es.filter (fun e => e.src = id) = fs.filter (fun e => e.src = id)

variable {es fs gs hs : List FlowEdge}

theorem SameOut.refl (es : List FlowEdge) : SameOut es es := fun _ => rfl

theorem SameOut.trans (h : SameOut es fs) (h' : SameOut fs gs) : SameOut es gs :=
  fun id => (h id).trans (h' id)

theorem SameOut.append (h : SameOut es fs) (h' : SameOut gs hs) :
    SameOut (es ++ gs) (fs ++ hs) := by
  intro id
  rw [List.filter_append, List.filter_append, h id, h' id]

theorem SameOut.comm (h : ∀ e ∈ es, ∀ f ∈ fs, e.src ≠ f.src) : SameOut (es ++ fs) (fs ++ es) := by
  intro id
  rw [List.filter_append, List.filter_append]
  by_cases hes : es.filter (fun e => e.src = id) = []
  · rw [hes, List.nil_append, List.append_nil]
  · obtain ⟨e, he⟩ := List.exists_mem_of_ne_nil _ hes
    obtain ⟨hmem, hid⟩ := List.mem_filter.mp he
    have hfs : fs.filter (fun f => f.src = id) = [] := by
      refine List.filter_eq_nil_iff.mpr (fun f hf hfid => h e hmem f hf ?_)
      rw [of_decide_eq_true hid, of_decide_eq_true hfid]
    rw [hfs, List.append_nil, List.nil_append]

theorem links_append (xs ys : List ExitEdge) (t : Str) :
    links (xs ++ ys) t = links xs t ++ links ys t := List.map_append

mutual

theorem edgesOf_sameOut : ∀ (b : Block) (t : Str), (namesOf b).Nodup →
    SameOut (edgesOf b ++ links (exitsOf b) t) (ownedOf b t)
  | .call id target, t => fun _ => SameOut.refl _
  | .when id label c body, t => by
    intro hd
    rw [namesOf_when, List.nodup_cons] at hd
    have hbody := edgesAll_sameOut [] body t hd.2 (fun x hx => by cases hx)
    rw [edgesOf, exitsOf, ownedOf, links_append, ← List.append_assoc, List.append_assoc (edgesAll [] body)]
    -- The cases and the exits of the body leave from different steps.
    have hswap : SameOut (caseEdges id c (entryOf body []) ++ links (exitsAll [] body) t)
        (links (exitsAll [] body) t ++ caseEdges id c (entryOf body [])) := by
      refine SameOut.comm (fun e he f hf hne => ?_)
      obtain ⟨v, -, rfl⟩ := List.mem_map.mp he
      obtain ⟨x, hx, rfl⟩ := List.mem_map.mp hf
      rcases exitsAll_src [] body x hx with h | h
      · cases h
      · exact hd.1 (show id ∈ namesAll body from (show id = x.src from hne) ▸ h)
    have hfull : SameOut (edgesAll [] body ++ (caseEdges id c (entryOf body []) ++
        links (exitsAll [] body) t) ++ links [⟨id, some defaultCase⟩] t)
        (ownedAll body t ++ (caseEdges id c (entryOf body []) ++ [⟨id, t, some defaultCase⟩])) := by
      refine SameOut.trans ((SameOut.append (SameOut.refl _) hswap).append (SameOut.refl _)) ?_
      rw [← List.append_assoc, List.append_assoc]
      exact SameOut.append hbody (SameOut.refl _)
    refine hfull.trans (SameOut.comm (fun e he f hf hne => hd.1 ?_))
    have hf' : f.src = id := by
      rcases List.mem_append.mp hf with hf | hf
      · obtain ⟨v, -, rfl⟩ := List.mem_map.mp hf
        rfl
      · rw [List.mem_singleton.mp hf]
    rw [← hf', ← hne]
    exact ownedAll_src body t e he

theorem edgesAll_sameOut : ∀ (exits : List ExitEdge) (bs : List Block) (t : Str),
    (namesAll bs).Nodup → (∀ x ∈ exits, x.src ∉ namesAll bs) →
    SameOut (edgesAll exits bs ++ links (exitsAll exits bs) t)
      (links exits (entryOf bs t) ++ ownedAll bs t)
  | exits, [], t => fun _ _ => by
    rw [edgesAll, exitsAll, ownedAll, List.append_nil]
    exact SameOut.refl _
  | exits, b :: bs, t => by
    intro hd hout
    rw [namesAll_cons] at hd hout
    obtain ⟨hb, hbs, hdisj⟩ := List.nodup_append.mp hd
    have hfirst := edgesOf_sameOut b (entryOf bs t) hb
    have hrest := edgesAll_sameOut (exitsOf b) bs t hbs
      (fun x hx hm => hdisj _ (exitsOf_src b x hx) _ hm rfl)
    have hswap : SameOut (edgesOf b ++ links exits b.id) (links exits b.id ++ edgesOf b) := by
      refine SameOut.comm (fun e he f hf hne => ?_)
      obtain ⟨x, hx, rfl⟩ := List.mem_map.mp hf
      exact hout x hx (List.mem_append_left _
        ((show e.src = x.src from hne) ▸ edgesOf_src b e he))
    rw [edgesAll, exitsAll, ownedAll, List.append_assoc]
    refine (SameOut.append hswap hrest).trans ?_
    rw [← List.append_assoc, List.append_assoc (links exits b.id), ← List.append_assoc _ _ (ownedAll bs t)]
    exact (SameOut.append (SameOut.refl _) hfirst).append (SameOut.refl _)

end

theorem SameOut.mem_iff (h : SameOut es fs) {e : FlowEdge} : e ∈ es ↔ e ∈ fs := by
  have hself : ∀ l : List FlowEdge, e ∈ l ↔ e ∈ l.filter (fun f => f.src = e.src) := by
    intro l
    simp [List.mem_filter]
  rw [hself es, hself fs, h e.src]

end outgoing

section wired

mutual

def Wired (out : Str → List FlowEdge) : Block → Str → Prop
  | .call id _, t => out id = [⟨id, t, none⟩]
  | .when id _ c body, t =>
    out id = caseEdges id c (entryOf body []) ++ [⟨id, t, some defaultCase⟩] ∧ WiredAll out body t

def WiredAll (out : Str → List FlowEdge) : List Block → Str → Prop
  | [], _ => True
  | b :: bs, t => Wired out b (entryOf bs t) ∧ WiredAll out bs t

end

variable {out : Str → List FlowEdge}

theorem filter_src_nil {es : List FlowEdge} {id : Str} (h : ∀ e ∈ es, e.src ≠ id) :
    es.filter (fun e => e.src = id) = [] :=
  List.filter_eq_nil_iff.mpr (fun e he hid => h e he (of_decide_eq_true hid))

theorem filter_src_self {es : List FlowEdge} {id : Str} (h : ∀ e ∈ es, e.src = id) :
    es.filter (fun e => e.src = id) = es :=
  List.filter_eq_self.mpr (fun e he => decide_eq_true (h e he))

theorem switch_src {id t entry : Str} {c : Condition} :
    ∀ e ∈ caseEdges id c entry ++ [⟨id, t, some defaultCase⟩], e.src = id := by
  intro e he
  rcases List.mem_append.mp he with he | he
  · obtain ⟨v, -, rfl⟩ := List.mem_map.mp he
    rfl
  · rw [List.mem_singleton.mp he]

mutual

theorem wired_owned : ∀ (b : Block) (t : Str), (namesOf b).Nodup →
    (∀ id ∈ namesOf b, out id = (ownedOf b t).filter (fun e => e.src = id)) → Wired out b t
  | .call id target, t => by
    intro _ h
    rw [Wired, h id List.mem_cons_self, ownedOf]
    exact filter_src_self (fun e he => by rw [List.mem_singleton.mp he])
  | .when id label c body, t => by
    intro hd h
    rw [namesOf_when, List.nodup_cons] at hd
    rw [namesOf_when] at h
    refine ⟨?_, wiredAll_owned body t hd.2 (fun j hj => ?_)⟩
    · have hbody : ∀ e ∈ ownedAll body t, e.src ≠ id :=
        fun e he hid => hd.1 (hid ▸ ownedAll_src body t e he)
      rw [h id List.mem_cons_self, ownedOf, List.filter_append, filter_src_self switch_src,
        filter_src_nil hbody, List.append_nil]
    · have hswitch : ∀ e ∈ caseEdges id c (entryOf body []) ++ [⟨id, t, some defaultCase⟩],
          e.src ≠ j := by
        intro e he hej
        rw [switch_src e he] at hej
        exact hd.1 (hej ▸ hj)
      rw [h j (List.mem_cons_of_mem _ hj), ownedOf, List.filter_append, filter_src_nil hswitch,
        List.nil_append]

theorem wiredAll_owned : ∀ (bs : List Block) (t : Str), (namesAll bs).Nodup →
    (∀ id ∈ namesAll bs, out id = (ownedAll bs t).filter (fun e => e.src = id)) → WiredAll out bs t
  | [], t => fun _ _ => trivial
  | b :: bs, t => by
    intro hd h
    rw [namesAll_cons] at hd h
    obtain ⟨hb, hbs, hdisj⟩ := List.nodup_append.mp hd
    refine ⟨wired_owned b _ hb (fun j hj => ?_), wiredAll_owned bs t hbs (fun j hj => ?_)⟩
    · have hrest : ∀ e ∈ ownedAll bs t, e.src ≠ j :=
        fun e he hej => hdisj j hj j (hej ▸ ownedAll_src bs t e he) rfl
      rw [h j (List.mem_append_left _ hj), ownedAll, List.filter_append, filter_src_nil hrest,
        List.append_nil]
    · have hfirst : ∀ e ∈ ownedOf b (entryOf bs t), e.src ≠ j :=
        fun e he hej => hdisj j (hej ▸ ownedOf_src b _ e he) j hj rfl
      rw [h j (List.mem_append_right _ hj), ownedAll, List.filter_append, filter_src_nil hfirst,
        List.nil_append]

end

end wired

mutual

def Block.Full : Block → Prop
  | .call _ _ => True
  | .when _ _ c body => c.caseValues ≠ [] ∧ body ≠ [] ∧ FullAll body

def FullAll : List Block → Prop
  | [] => True
  | b :: bs => b.Full ∧ FullAll bs

end

theorem entryOf_eq {bs : List Block} (h : bs ≠ []) (t t' : Str) : entryOf bs t = entryOf bs t' := by
  cases bs with
  | nil => exact absurd rfl h
  | cons b bs => rfl

theorem entryOf_mem {bs : List Block} (h : bs ≠ []) (t : Str) : entryOf bs t ∈ namesAll bs := by
  cases bs with
  | nil => exact absurd rfl h
  | cons b bs =>
    rw [namesAll_cons]
    exact List.mem_append_left _ (id_mem_namesOf b)

theorem entryOf_mem_append (bs : List Block) (t : Str) : entryOf bs t ∈ namesAll bs ++ [t] := by
  cases bs with
  | nil => exact List.mem_cons_self
  | cons b bs => exact List.mem_append_left _ (entryOf_mem (by simp) t)

mutual

theorem ownedOf_forward : ∀ (b : Block) (t : Str), b.Full → ∀ e ∈ ownedOf b t,
    [e.src, e.dst].Sublist (namesOf b ++ [t])
  | .call id target, t => by
    intro _ e he
    rw [ownedOf] at he
    rw [List.mem_singleton.mp he]
    exact List.Sublist.refl _
  | .when id label c body, t => by
    intro hfull e he
    rw [ownedOf] at he
    rw [namesOf_when, List.cons_append]
    rcases List.mem_append.mp he with he | he
    · rcases List.mem_append.mp he with he | he
      · obtain ⟨v, -, rfl⟩ := List.mem_map.mp he
        exact (List.singleton_sublist.mpr
          (List.mem_append_left _ (entryOf_mem hfull.2.1 []))).cons_cons id
      · rw [List.mem_singleton.mp he]
        exact (List.singleton_sublist.mpr (List.mem_append_right _ List.mem_cons_self)).cons_cons id
    · exact (ownedAll_forward body t hfull.2.2 e he).cons id

theorem ownedAll_forward : ∀ (bs : List Block) (t : Str), FullAll bs → ∀ e ∈ ownedAll bs t,
    [e.src, e.dst].Sublist (namesAll bs ++ [t])
  | [], t => fun _ e he => by cases he
  | b :: bs, t => by
    intro hfull e he
    rw [ownedAll] at he
    rw [namesAll_cons, List.append_assoc]
    rcases List.mem_append.mp he with he | he
    · exact (ownedOf_forward b _ hfull.1 e he).trans
        ((List.Sublist.refl _).append (List.singleton_sublist.mpr (entryOf_mem_append bs t)))
    · exact (ownedAll_forward bs t hfull.2 e he).trans (List.sublist_append_right ..)

end

theorem idxOf_lt_of_sublist {a b : Str} {l : List Str} (hd : l.Nodup) (h : [a, b].Sublist l) :
    l.idxOf a < l.idxOf b := by
  induction l with
  | nil => cases h
  | cons x l ih =>
    obtain ⟨hx, hd'⟩ := List.nodup_cons.mp hd
    cases h with
    | cons _ h =>
      have ha : x ≠ a := fun he => hx (he ▸ h.subset List.mem_cons_self)
      have hb : x ≠ b := fun he => hx (he ▸ h.subset (by simp))
      rw [List.idxOf_cons_ne _ ha, List.idxOf_cons_ne _ hb]
      exact Nat.succ_lt_succ (ih hd' h)
    | cons_cons _ h =>
      have hb : b ∈ l := h.subset List.mem_cons_self
      have hne : a ≠ b := fun he => hx (he ▸ hb)
      rw [List.idxOf_cons_self, List.idxOf_cons_ne _ hne]
      exact Nat.succ_pos _

end TraceMind.Dsl
