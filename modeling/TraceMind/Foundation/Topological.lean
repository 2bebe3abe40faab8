import TraceMind.Foundation.Layers

-- One node at a time, first in first out, and the closed walks that a depth-first search meets.
namespace LayeredGraph

variable {α : Type} [LinearOrder α] (g : LayeredGraph α)

local instance lawful : LawfulBEq α := inferInstance

def pushEdge (s : (α → ℤ) × List α) (v : α) : (α → ℤ) × List α :=
  (Function.update s.1 v (s.1 v - 1), if s.1 v - 1 = 0 then s.2 ++ [v] else s.2)

def serve : ℕ → (α → ℤ) → List α → List α → Option (List α)
  | _, _, [], order => some order
  | 0, _, _ :: _, _ => none
  | n + 1, degree, cur :: queue, order =>
    let s := (g.succ cur).foldl pushEdge (degree, queue)
    serve n s.1 s.2 (order ++ [cur])

def Forward (R : α → α → Prop) (order : List α) : Prop :=
  ∀ pre v post, order = pre ++ v :: post → ∀ u, R u v → u ∈ pre

def edgesOutside (order : List α) : List α := (g.nodes.filter (· ∉ order)).flatMap g.succ

structure Served (degree : α → ℤ) (queue order : List α) : Prop where
  nodup : (order ++ queue).Nodup
  known : ∀ v ∈ order ++ queue, v ∈ g.nodes
  left : ∀ v, degree v = (g.edgesOutside order).count v
  ready : ∀ v ∈ g.nodes, (v ∈ order ++ queue ↔ degree v = 0)
  forward : Forward g.Edge order

variable {g} {u v w cur : α} {degree : α → ℤ} {queue order : List α}

theorem pushEdges_degree (ts : List α) (d : α → ℤ) (q : List α) :
    (ts.foldl pushEdge (d, q)).1 v = d v - ts.count v := by
  induction ts generalizing d q with
  | nil => simp
  | cons t ts ih =>
    rw [List.foldl_cons, pushEdge, ih]
    dsimp only
    obtain rfl | hv := eq_or_ne v t
    · rw [Function.update_self, List.count_cons_self]
      omega
    · rw [Function.update_of_ne hv, List.count_cons_of_ne hv.symm]

theorem pushEdges_ready (ts : List α) (d : α → ℤ) (q : List α) :
    ∃ new, (ts.foldl pushEdge (d, q)).2 = q ++ new ∧ new.Nodup ∧
      ∀ v, v ∈ new ↔ 1 ≤ d v ∧ d v ≤ ts.count v := by
  induction ts generalizing d q with
  | nil =>
    refine ⟨[], by simp, List.nodup_nil, fun v => ?_⟩
    rw [List.count_nil]
    exact ⟨fun h => absurd h List.not_mem_nil, fun h => by omega⟩
  | cons t ts ih =>
    rw [List.foldl_cons, pushEdge]
    dsimp only
    obtain ⟨new, hnew, hnd, hmem⟩ := ih (Function.update d t (d t - 1))
      (if d t - 1 = 0 then q ++ [t] else q)
    rw [hnew]
    have hother : ∀ v, v ≠ t → (v ∈ new ↔ 1 ≤ d v ∧ d v ≤ (t :: ts).count v) := by
      intro v hv
      rw [hmem, Function.update_of_ne hv, List.count_cons_of_ne hv.symm]
    have hself : t ∈ new ↔ 1 ≤ d t - 1 ∧ d t - 1 ≤ ts.count t := by
      rw [hmem, Function.update_self]
    split_ifs with hd
    · refine ⟨t :: new, by simp, List.nodup_cons.mpr ⟨fun h => ?_, hnd⟩, fun v => ?_⟩
      · have := (hself.mp h).1
        omega
      · obtain rfl | hv := eq_or_ne v t
        · rw [List.count_cons_self]
          exact iff_of_true List.mem_cons_self (by omega)
        · rw [List.mem_cons, or_iff_right hv, hother v hv]
    · refine ⟨new, rfl, hnd, fun v => ?_⟩
      obtain rfl | hv := eq_or_ne v t
      · rw [hself, List.count_cons_self]
        omega
      · exact hother v hv

omit [LinearOrder α] in
theorem Forward.reaches {R : α → α → Prop} (h : Forward R order) {pre post : List α}
    (ho : order = pre ++ v :: post) (hr : Relation.TransGen R u v) : u ∈ pre := by
  induction hr generalizing pre post with
  | single hR => exact h pre _ post ho _ hR
  | tail _ hR ih =>
    obtain ⟨pre', post', rfl⟩ := List.append_of_mem (h pre _ post ho _ hR)
    rw [List.append_assoc] at ho
    exact List.mem_append_left _ (ih ho)

omit [LinearOrder α] in
theorem Forward.acyclic {R : α → α → Prop} (h : Forward R order) (hnd : order.Nodup)
    (hall : ∀ u v, R u v → v ∈ order) : ¬Cyclic R := by
  rintro ⟨v, hv⟩
  obtain ⟨u, -, hR⟩ := Relation.TransGen.tail'_iff.mp hv
  obtain ⟨pre, post, rfl⟩ := List.append_of_mem (hall u v hR)
  have hmem := h.reaches rfl hv
  exact (List.nodup_append.mp hnd).2.2 v hmem v List.mem_cons_self rfl

omit [LinearOrder α] in
theorem Forward.snoc {R : α → α → Prop} (h : Forward R order) (hcur : ∀ u, R u cur → u ∈ order) :
    Forward R (order ++ [cur]) := by
  intro pre v post ho u hu
  rcases List.eq_nil_or_concat post with rfl | ⟨post, z, rfl⟩
  · obtain ⟨rfl, hv⟩ := List.append_inj' ho rfl
    obtain rfl : cur = v := by simpa using hv
    exact hcur u hu
  · rw [List.concat_eq_append, ← List.cons_append, ← List.append_assoc] at ho
    exact h pre v post (List.append_inj' ho rfl).1 u hu

theorem edgesOutside_snoc (hcur : cur ∈ g.nodes) (hnew : cur ∉ order) :
    (g.edgesOutside order).count v =
      (g.succ cur).count v + (g.edgesOutside (order ++ [cur])).count v := by
  have hp := nodes_without hcur hnew (order ++ [cur]) (by simp)
  rw [edgesOutside, (hp.flatMap_right g.succ).count_eq, List.flatMap_cons, List.count_append,
    edgesOutside]

theorem Served.no_edge (h : g.Served degree queue order) (hv : v ∈ g.nodes)
    (hq : v ∈ order ++ queue) (hu : g.Edge u v) : u ∈ order := by
  by_contra hnot
  have hzero := (h.ready v hv).mp hq
  rw [h.left, Int.natCast_eq_zero, List.count_eq_zero] at hzero
  exact hzero (List.mem_flatMap.mpr ⟨u, List.mem_filter.mpr ⟨g.source u v hu, by simpa using hnot⟩, hu⟩)

theorem Served.step (h : g.Served degree (cur :: queue) order) :
    g.Served ((g.succ cur).foldl pushEdge (degree, queue)).1
      ((g.succ cur).foldl pushEdge (degree, queue)).2 (order ++ [cur]) := by
  have hmem : cur ∈ order ++ cur :: queue := by simp
  have hcur := h.known cur hmem
  have hnew : cur ∉ order := fun hin =>
    (List.nodup_append.mp h.nodup).2.2 cur hin cur List.mem_cons_self rfl
  obtain ⟨new, hqueue, hnd, hready⟩ := pushEdges_ready (g.succ cur) degree queue
  have hcount : ∀ v, degree v =
      (g.succ cur).count v + (g.edgesOutside (order ++ [cur])).count v := by
    intro v
    rw [h.left, edgesOutside_snoc hcur hnew]
    exact Int.natCast_add _ _
  have hold : ∀ v, v ∈ order ++ [cur] ++ queue ↔ v ∈ order ++ cur :: queue := by simp
  have hpos : ∀ v ∈ new, v ∈ g.nodes ∧ degree v ≠ 0 := by
    intro v hv
    obtain ⟨h1, h2⟩ := (hready v).mp hv
    have hsucc : v ∈ g.succ cur := List.count_pos_iff.mp (by omega)
    exact ⟨g.target cur v hsucc, by omega⟩
  rw [hqueue]
  refine ⟨?_, ?_, fun v => ?_, fun v hv => ?_, ?_⟩
  · rw [← List.append_assoc, List.nodup_append]
    refine ⟨?_, hnd, ?_⟩
    · rw [List.append_assoc]
      exact h.nodup
    · rintro a ha b hb rfl
      exact (hpos a hb).2 ((h.ready a (hpos a hb).1).mp ((hold a).mp ha))
  · intro v hv
    rw [← List.append_assoc, List.mem_append] at hv
    exact hv.elim (fun hv => h.known v ((hold v).mp hv)) (fun hv => (hpos v hv).1)
  · rw [pushEdges_degree, hcount]
    omega
  · rw [pushEdges_degree, ← List.append_assoc, List.mem_append, hold, h.ready v hv, hready]
    have := hcount v
    omega
  · exact h.forward.snoc (fun u hu => h.no_edge hcur hmem hu)

variable (g) in
def starts : List α := g.nodes.filter (fun v => g.indegree v = 0)

theorem served_start : g.Served g.indegree g.starts [] := by
  have hall : g.edgesOutside [] = g.nodes.flatMap g.succ := by simp [edgesOutside]
  refine ⟨g.nodup.filter _, fun v hv => List.mem_of_mem_filter hv, fun v => ?_, fun v hv => ?_, ?_⟩
  · rw [indegree_eq, hall]
  · simp [starts, hv]
  · intro pre v post ho
    simp at ho

theorem serve_spec (fuel : ℕ) (h : g.Served degree queue order)
    (hfuel : g.nodes.length ≤ order.length + fuel) :
    ∃ order' degree', g.serve fuel degree queue order = some order' ∧
      g.Served degree' [] order' := by
  induction fuel generalizing degree queue order with
  | zero =>
    cases queue with
    | nil => exact ⟨order, degree, rfl, h⟩
    | cons cur queue =>
      have hlen := (h.nodup.subperm h.known).length_le
      rw [List.length_append, List.length_cons] at hlen
      omega
  | succ fuel ih =>
    cases queue with
    | nil => exact ⟨order, degree, rfl, h⟩
    | cons cur queue =>
      rw [serve]
      refine ih h.step ?_
      rw [List.length_append, List.length_singleton]
      omega

theorem Served.complete (h : g.Served degree [] order) :
    order.length = g.nodes.length ↔ ¬Cyclic g.Edge := by
  have hnd : order.Nodup := List.append_nil order ▸ h.nodup
  have hsub : order ⊆ g.nodes := fun v hv => h.known v (List.mem_append_left _ hv)
  constructor
  · intro hlen
    have hp : order.Perm g.nodes := (hnd.subperm hsub).perm_of_length_le hlen.ge
    exact h.forward.acyclic hnd (fun u v hu => hp.mem_iff.mpr (g.target u v hu))
  · intro hacyc
    have hall : g.nodes ⊆ order := by
      intro v hv
      by_contra hnot
      obtain ⟨w, hw, hout, hfirst⟩ := exists_first hacyc (P := (· ∉ order)) hv hnot
      have hzero : degree w = 0 := by
        rw [h.left, Int.natCast_eq_zero, List.count_eq_zero]
        intro hmem
        obtain ⟨u, hu, hedge⟩ := List.mem_flatMap.mp hmem
        exact hfirst u hedge (by simpa using (List.mem_filter.mp hu).2)
      have hin := (h.ready w hw).mpr hzero
      rw [List.append_nil] at hin
      exact hout hin
    exact ((hnd.subperm hsub).antisymm (g.nodup.subperm hall)).length_eq

variable (g) in
theorem serve_isSome : (g.serve g.nodes.length g.indegree g.starts []).isSome = true := by
  obtain ⟨order, degree, hrun, -⟩ := serve_spec g.nodes.length (served_start (g := g)) (by simp)
  rw [hrun]
  rfl

variable (g) in
def served : List α := (g.serve g.nodes.length g.indegree g.starts []).get g.serve_isSome

theorem served_spec : ∃ degree, g.Served degree [] g.served := by
  obtain ⟨order, degree, hrun, hs⟩ := serve_spec g.nodes.length (served_start (g := g)) (by simp)
  rw [served, Option.get_of_eq_some _ hrun]
  exact ⟨degree, hs⟩

theorem served_length : g.served.length = g.nodes.length ↔ ¬Cyclic g.Edge := by
  obtain ⟨degree, hs⟩ := served_spec (g := g)
  exact hs.complete

theorem served_perm (hacyc : ¬Cyclic g.Edge) : g.served.Perm g.nodes := by
  obtain ⟨degree, hs⟩ := served_spec (g := g)
  exact ((List.append_nil g.served ▸ hs.nodup).subperm
    (fun v hv => hs.known v (List.mem_append_left _ hv))).perm_of_length_le
      (served_length.mpr hacyc).ge

theorem served_forward : Forward g.Edge g.served := by
  obtain ⟨degree, hs⟩ := served_spec (g := g)
  exact hs.forward

structure Search (α : Type) where
  seen : List α
  cycles : List (List α)

def onTarget (stack : List α) (visit : α → Search α → Option (Search α)) (s : Search α) (v : α) :
    Option (Search α) :=
  if v ∉ s.seen then visit v s
  else if v ∈ stack then
    some { s with cycles := s.cycles ++ [stack.drop (stack.idxOf v) ++ [v]] }
  else some s

variable (g) in
def visitCycles : ℕ → List α → α → Search α → Option (Search α)
  | 0, _, _, _ => none
  | n + 1, stack, u, s =>
    (g.succ u).foldlM (onTarget (stack ++ [u]) (visitCycles n (stack ++ [u])))
      { s with seen := u :: s.seen }

variable (g) in
def visitNodes (roots : List α) (s : Search α) : Option (Search α) :=
  roots.foldlM (onTarget [] (g.visitCycles g.nodes.length [])) s

def ClosedWalk (R : α → α → Prop) (c : List α) : Prop :=
  2 ≤ c.length ∧ c.head? = c.getLast? ∧ c.IsChain R

variable (g) in
def Settled (stack seen : List α) : Prop :=
  ∀ w ∈ seen, w ∉ stack → (∀ x ∈ g.succ w, x ∈ seen ∧ x ∉ stack) ∧ ¬Relation.TransGen g.Edge w w

variable (g) in
structure Grows (stack : List α) (s t : Search α) : Prop where
  seen : s.seen ⊆ t.seen
  cycles : s.cycles ⊆ t.cycles
  closed : (∀ c ∈ s.cycles, ClosedWalk g.Edge c) → ∀ c ∈ t.cycles, ClosedWalk g.Edge c
  settled : t.cycles = [] → g.Settled stack s.seen → g.Settled stack t.seen

variable {stack seen : List α} {s t r : Search α}

omit [LinearOrder α] in
theorem Grows.refl : g.Grows stack s s :=
  ⟨List.Subset.refl _, List.Subset.refl _, fun h => h, fun _ h => h⟩

omit [LinearOrder α] in
theorem Grows.none_before (h : g.Grows stack s t) (ht : t.cycles = []) : s.cycles = [] :=
  List.subset_nil.mp (ht ▸ h.cycles)

omit [LinearOrder α] in
theorem Grows.trans (h : g.Grows stack s t) (h' : g.Grows stack t r) : g.Grows stack s r :=
  ⟨List.Subset.trans h.seen h'.seen, List.Subset.trans h.cycles h'.cycles,
    fun hs => h'.closed (h.closed hs),
    fun hr hs => h'.settled hr (h.settled (h'.none_before hr) hs)⟩

omit [LinearOrder α] in
theorem Settled.reaches (h : g.Settled stack seen) (hw : w ∈ seen) (hout : w ∉ stack)
    (hr : Relation.ReflTransGen g.Edge w v) : v ∈ seen ∧ v ∉ stack := by
  induction hr with
  | refl => exact ⟨hw, hout⟩
  | tail _ he ih => exact (h _ ih.1 ih.2).1 _ he

theorem closedWalk_of_stack (hchain : stack.IsChain g.Edge) (hlast : stack.getLast? = some u)
    (hu : g.Edge u v) (hv : v ∈ stack) :
    ClosedWalk g.Edge (stack.drop (stack.idxOf v) ++ [v]) := by
  have hlt := List.idxOf_lt_length_of_mem hv
  have hhead : (stack.drop (stack.idxOf v)).head? = some v := by
    rw [List.head?_drop, List.getElem?_idxOf hv]
  have hend : (stack.drop (stack.idxOf v)).getLast? = some u := by
    rw [List.getLast?_drop, if_neg (by omega), hlast]
  refine ⟨?_, ?_, List.isChain_append.mpr ⟨hchain.drop _, .singleton v, ?_⟩⟩
  · rw [List.length_append, List.length_drop, List.length_singleton]
    omega
  · rw [List.head?_append, hhead, List.getLast?_append]
    rfl
  · intro x hx y hy
    rw [hend] at hx
    cases hx
    cases hy
    exact hu

variable (g) in
def unseen (s : Search α) : ℕ := (g.nodes.filter (· ∉ s.seen)).length

theorem unseen_le (h : s.seen ⊆ t.seen) : g.unseen t ≤ g.unseen s := by
  refine (List.monotone_filter_right g.nodes (fun v hv => ?_)).length_le
  rw [decide_eq_true_eq] at hv ⊢
  exact fun hs => hv (h hs)

theorem unseen_cons (hu : u ∈ g.nodes) (hnew : u ∉ s.seen) :
    g.unseen { s with seen := u :: s.seen } + 1 = g.unseen s := by
  have hp := nodes_without hu hnew (u :: s.seen) (by simp [or_comm])
  rw [unseen, unseen, hp.length_eq, List.length_cons]

variable (g) in
def Visits (n : ℕ) : Prop :=
  ∀ stack u s, u ∈ g.nodes → u ∉ s.seen → stack ⊆ s.seen → (stack ++ [u]).IsChain g.Edge →
    g.unseen s ≤ n → ∃ t, g.visitCycles n stack u s = some t ∧ g.Grows stack s t ∧ u ∈ t.seen

theorem onTarget_spec {n : ℕ} (hvisit : g.Visits n) (hstack : stack ⊆ s.seen)
    (hn : g.unseen s ≤ n) (hv : v ∈ g.nodes) (hnext : (stack ++ [v]).IsChain g.Edge) :
    ∃ t, onTarget stack (g.visitCycles n stack) s v = some t ∧ g.Grows stack s t ∧
      (t.cycles = [] → v ∈ t.seen ∧ v ∉ stack) := by
  rw [onTarget]
  split_ifs with hnew hin
  · refine ⟨_, rfl, ⟨List.Subset.refl _, List.subset_append_left .., ?_, ?_⟩, ?_⟩
    · intro hs c hc
      rcases List.mem_append.mp hc with hc | hc
      · exact hs c hc
      · rw [List.mem_singleton.mp hc]
        obtain ⟨hchain, -, hlast⟩ := List.isChain_append.mp hnext
        cases hu : stack.getLast? with
        | none =>
          rw [List.getLast?_eq_none_iff.mp hu] at hin
          cases hin
        | some u => exact closedWalk_of_stack hchain hu (hlast u hu v rfl) hin
    · intro h
      simp at h
    · intro h
      simp at h
  · exact ⟨s, rfl, .refl, fun _ => ⟨hnew, hin⟩⟩
  · obtain ⟨t, ht, hg, hmem⟩ := hvisit stack v s hv hnew hstack hnext hn
    exact ⟨t, ht, hg, fun _ => ⟨hmem, fun h => hnew (hstack h)⟩⟩

theorem onTargets_spec {n : ℕ} (hvisit : g.Visits n) {ts : List α}
    (hts : ∀ v ∈ ts, v ∈ g.nodes ∧ (stack ++ [v]).IsChain g.Edge) (hstack : stack ⊆ s.seen)
    (hn : g.unseen s ≤ n) :
    ∃ t, ts.foldlM (onTarget stack (g.visitCycles n stack)) s = some t ∧ g.Grows stack s t ∧
      (t.cycles = [] → ∀ v ∈ ts, v ∈ t.seen ∧ v ∉ stack) := by
  induction ts generalizing s with
  | nil => exact ⟨s, rfl, .refl, fun _ v hv => absurd hv List.not_mem_nil⟩
  | cons x ts ih =>
    obtain ⟨hx, hnext⟩ := hts x List.mem_cons_self
    obtain ⟨t, ht, hg, hdone⟩ := onTarget_spec hvisit hstack hn hx hnext
    obtain ⟨r, hr, hg', hrest⟩ := ih (fun v hv => hts v (List.mem_cons_of_mem x hv))
      (List.Subset.trans hstack hg.seen) ((unseen_le hg.seen).trans hn)
    refine ⟨r, ?_, hg.trans hg', fun hnone v hv => ?_⟩
    · rw [List.foldlM_cons, ht]
      exact hr
    · rcases List.mem_cons.mp hv with rfl | hv
      · obtain ⟨hseen, hout⟩ := hdone (hg'.none_before hnone)
        exact ⟨hg'.seen hseen, hout⟩
      · exact hrest hnone v hv

omit [LinearOrder α] in
theorem Grows.finish (hnew : u ∉ s.seen)
    (hg : g.Grows (stack ++ [u]) { s with seen := u :: s.seen } t)
    (hall : t.cycles = [] → ∀ v ∈ g.succ u, v ∈ t.seen ∧ v ∉ stack ++ [u]) :
    g.Grows stack s t := by
  refine ⟨fun v hv => hg.seen (List.mem_cons_of_mem u hv), hg.cycles, hg.closed, fun hnone hs => ?_⟩
  have hstart : g.Settled (stack ++ [u]) (u :: s.seen) := by
    intro w hw hout
    rw [List.mem_append, List.mem_singleton, not_or] at hout
    have hold := (List.mem_cons.mp hw).resolve_left hout.2
    obtain ⟨hsucc, hacyc⟩ := hs w hold hout.1
    refine ⟨fun x hx => ⟨List.mem_cons_of_mem u (hsucc x hx).1, fun hin => ?_⟩, hacyc⟩
    rcases List.mem_append.mp hin with hin | hin
    · exact (hsucc x hx).2 hin
    · exact hnew (List.mem_singleton.mp hin ▸ (hsucc x hx).1)
  have hafter := hg.settled hnone hstart
  intro w hw hout
  obtain rfl | hne := eq_or_ne w u
  · refine ⟨fun x hx => ?_, fun hcycle => ?_⟩
    · obtain ⟨hx, hnot⟩ := hall hnone x hx
      exact ⟨hx, fun h => hnot (List.mem_append_left _ h)⟩
    · obtain ⟨x, hx, hback⟩ := Relation.TransGen.head'_iff.mp hcycle
      obtain ⟨hseen, hnot⟩ := hall hnone x hx
      exact (hafter.reaches hseen hnot hback).2 (List.mem_append_right _ List.mem_cons_self)
  · obtain ⟨hsucc, hacyc⟩ := hafter w hw (by simp [hout, hne])
    exact ⟨fun x hx => ⟨(hsucc x hx).1, fun h => (hsucc x hx).2 (List.mem_append_left _ h)⟩, hacyc⟩

theorem visits (n : ℕ) : g.Visits n := by
  induction n with
  | zero =>
    intro stack u s hu hnew _ _ hn
    have := unseen_cons hu hnew
    omega
  | succ n ih =>
    intro stack u s hu hnew hstack hchain hn
    have hcount := unseen_cons hu hnew
    have hts : ∀ v ∈ g.succ u, v ∈ g.nodes ∧ (stack ++ [u] ++ [v]).IsChain g.Edge := by
      intro v hv
      refine ⟨g.target u v hv, List.isChain_append.mpr ⟨hchain, .singleton v, fun x hx y hy => ?_⟩⟩
      rw [List.getLast?_append] at hx
      cases hx
      cases hy
      exact hv
    have hsub : stack ++ [u] ⊆ u :: s.seen := by
      intro v hv
      rw [List.mem_append, List.mem_singleton] at hv
      exact hv.elim (fun hv => List.mem_cons_of_mem u (hstack hv)) (fun hv => hv ▸ List.mem_cons_self)
    obtain ⟨t, ht, hg, hall⟩ := onTargets_spec (s := { s with seen := u :: s.seen }) ih hts hsub
      (by omega)
    exact ⟨t, ht, hg.finish hnew hall, hg.seen List.mem_cons_self⟩

theorem visitNodes_spec {roots : List α} (hroots : ∀ v ∈ roots, v ∈ g.nodes) :
    ∃ t, g.visitNodes roots ⟨[], []⟩ = some t ∧ (∀ c ∈ t.cycles, ClosedWalk g.Edge c) ∧
      (t.cycles = [] → ∀ v ∈ roots, ¬Relation.TransGen g.Edge v v) := by
  have hts : ∀ v ∈ roots, v ∈ g.nodes ∧ ([] ++ [v]).IsChain g.Edge :=
    fun v hv => ⟨hroots v hv, .singleton v⟩
  obtain ⟨t, ht, hg, hall⟩ := onTargets_spec (s := ⟨[], []⟩) (visits g.nodes.length) hts
    (List.nil_subset _) (List.length_filter_le _ _)
  refine ⟨t, ht, hg.closed (fun c hc => absurd hc List.not_mem_nil), fun hnone v hv => ?_⟩
  exact (hg.settled hnone (fun w hw => absurd hw List.not_mem_nil) v (hall hnone v hv).1
    List.not_mem_nil).2

end LayeredGraph
