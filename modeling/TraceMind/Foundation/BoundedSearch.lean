import Mathlib.Data.Finset.Basic

namespace BoundedSearch

inductive Walk {σ : Type} (R : σ → σ → Prop) (a : σ) : ℕ → σ → Prop
  | refl : Walk R a 0 a
  | tail {n : ℕ} {b c : σ} : Walk R a n b → R b c → Walk R a (n + 1) c

theorem Walk.reach {σ : Type} {R : σ → σ → Prop} {n : ℕ} {a b : σ} (h : Walk R a n b) :
    Relation.ReflTransGen R a b := by
  induction h with
  | refl => exact .refl
  | tail _ hbc ih => exact ih.tail hbc

theorem Walk.exists_of_reach {σ : Type} {R : σ → σ → Prop} {a b : σ}
    (h : Relation.ReflTransGen R a b) : ∃ n, Walk R a n b := by
  induction h with
  | refl => exact ⟨0, .refl⟩
  | tail _ hbc ih =>
    obtain ⟨n, hn⟩ := ih
    exact ⟨n + 1, hn.tail hbc⟩

structure Space (μ X L κ E : Type) where
  succ : μ → X → Except E (List (L × X) × μ)
  dead : μ → X → Bool
  key : X → κ
  bound : ℕ

structure Search (X L κ : Type) where
  states : List X
  edges : List (ℕ × List ℕ)
  predecessors : List (ℕ × (ℕ × L))
  deadlocks : List ℕ
  seen : List (κ × ℕ)
  depths : List (ℕ × ℕ)
  queue : List (ℕ × X)

section loop

variable {μ X L κ E : Type} [DecidableEq κ]

def addEdge (sid nid : ℕ) : List (ℕ × List ℕ) → List (ℕ × List ℕ)
  | [] => [(sid, [nid])]
  | (j, js) :: es => if j = sid then (j, js ++ [nid]) :: es else (j, js) :: addEdge sid nid es

def setDefault {α : Type} (k : ℕ) (v : α) (d : List (ℕ × α)) : List (ℕ × α) :=
  if (d.lookup k).isSome then d else d ++ [(k, v)]

def enqueue (P : Space μ X L κ E) (depth : ℕ) (s : Search X L κ) (nxt : X) : Search X L κ × ℕ :=
  match s.seen.lookup (P.key nxt) with
  | some nid => (s, nid)
  | none =>
    let nid := s.states.length
    ({ s with
        states := s.states ++ [nxt]
        seen := s.seen ++ [(P.key nxt, nid)]
        depths := s.depths ++ [(nid, depth + 1)]
        queue := s.queue ++ [(nid, nxt)] }, nid)

def visit (P : Space μ X L κ E) (sid depth : ℕ) (s : Search X L κ) (e : L × X) : Search X L κ :=
  let (s, nid) := enqueue P depth s e.2
  { s with
    edges := addEdge sid nid s.edges
    predecessors := setDefault nid (sid, e.1) s.predecessors }

def noteDeadlock (P : Space μ X L κ E) (m : μ) (sid : ℕ) (st : X) (succ : List (L × X))
    (s : Search X L κ) : Search X L κ :=
  if succ.isEmpty && P.dead m st then { s with deadlocks := s.deadlocks ++ [sid] } else s

def step (P : Space μ X L κ E) (c : μ × Search X L κ) : Except E (μ × Search X L κ) :=
  match c.2.queue with
  | [] => .ok c
  | (sid, st) :: q =>
    let s := { c.2 with queue := q }
    let depth := (s.depths.lookup sid).getD 0
    if P.bound ≤ depth then .ok (c.1, noteDeadlock P c.1 sid st [] s)
    else
      match P.succ c.1 st with
      | .error e => .error e
      | .ok (succ, m) =>
        .ok (m, succ.foldl (visit P sid depth) (noteDeadlock P m sid st succ s))

def steps (P : Space μ X L κ E) : ℕ → μ × Search X L κ → Except E (μ × Search X L κ)
  | 0, c => .ok c
  | n + 1, c => step P c >>= steps P n

def levels (P : Space μ X L κ E) : ℕ → μ × Search X L κ → Except E (μ × Search X L κ)
  | 0, c => .ok c
  | n + 1, c => steps P c.2.queue.length c >>= levels P n

def start (P : Space μ X L κ E) (root : X) : Search X L κ where
  states := [root]
  edges := []
  predecessors := []
  deadlocks := []
  seen := [(P.key root, 0)]
  depths := [(0, 0)]
  queue := [(0, root)]

def search (P : Space μ X L κ E) (m : μ) (root : X) : Except E (μ × Search X L κ) :=
  levels P (P.bound + 1) (m, start P root)

end loop

section tables

theorem lookup_of_mem {κ β : Type} [BEq κ] [LawfulBEq κ] {d : List (κ × β)}
    (hd : (d.map Prod.fst).Nodup) {k : κ} {v : β} (h : (k, v) ∈ d) : d.lookup k = some v := by
  induction d with
  | nil => simp at h
  | cons a d ih =>
    obtain ⟨j, w⟩ := a
    obtain ⟨ha, hd'⟩ := List.nodup_cons.mp hd
    rcases List.mem_cons.mp h with he | hm
    · obtain ⟨rfl, rfl⟩ := Prod.mk.inj he
      exact List.lookup_cons_self
    · have hne : k ≠ j := by
        rintro rfl
        exact ha (List.mem_map.mpr ⟨_, hm, rfl⟩)
      rw [List.lookup_cons, beq_eq_false_iff_ne.mpr hne]
      exact ih hd' hm

variable {α κ β : Type} [DecidableEq κ]

theorem lookup_zipIdx_some {f : α → κ} {xs : List α} {n : ℕ} {k : κ} {j : ℕ}
    (h : ((xs.zipIdx n).map (fun e => (f e.1, e.2))).lookup k = some j) :
    n ≤ j ∧ ∃ a, xs[j - n]? = some a ∧ f a = k := by
  induction xs generalizing n with
  | nil => simp at h
  | cons x xs ih =>
    simp only [List.zipIdx_cons, List.map_cons, List.lookup_cons] at h
    split at h
    · rename_i hk
      have hj : n = j := by simpa using h
      subst hj
      exact ⟨le_refl _, x, by simp, (beq_iff_eq.mp hk).symm⟩
    · obtain ⟨hn, a, ha, hk⟩ := ih h
      refine ⟨by omega, a, ?_, hk⟩
      have e : j - n = (j - (n + 1)) + 1 := by omega
      rw [e, List.getElem?_cons_succ, ha]

theorem lookup_zipIdx_none {f : α → κ} {xs : List α} {n : ℕ} {k : κ}
    (h : ((xs.zipIdx n).map (fun e => (f e.1, e.2))).lookup k = none) : k ∉ xs.map f := by
  induction xs generalizing n with
  | nil => simp
  | cons x xs ih =>
    simp only [List.zipIdx_cons, List.map_cons, List.lookup_cons] at h
    split at h
    · simp at h
    · rename_i hk
      simp only [List.map_cons, List.mem_cons, not_or]
      exact ⟨by simpa using hk, ih h⟩

theorem lookup_index {g : α → β} {xs : List α} {n j : ℕ} {a : α} (h : xs[j]? = some a) :
    ((xs.zipIdx n).map (fun e => (e.2, g e.1))).lookup (n + j) = some (g a) := by
  induction xs generalizing n j with
  | nil => simp at h
  | cons x xs ih =>
    simp only [List.zipIdx_cons, List.map_cons, List.lookup_cons]
    cases j with
    | zero =>
      have hx : x = a := by simpa using h
      simp [hx]
    | succ j =>
      have hne : (n + (j + 1) == n) = false := by simp
      rw [hne]
      have e : n + (j + 1) = n + 1 + j := by omega
      rw [e]
      exact ih (by simpa using h)

theorem lookup_none_of_not_mem {d : List (ℕ × β)} {k : ℕ} (h : k ∉ d.map Prod.fst) :
    d.lookup k = none := by
  rw [List.lookup_eq_none_iff]
  rintro ⟨j, v⟩ hm
  have hne : k ≠ j := by
    rintro rfl
    exact h (List.mem_map.mpr ⟨_, hm, rfl⟩)
  simpa using hne

theorem addEdge_new {sid nid : ℕ} {es : List (ℕ × List ℕ)} (h : sid ∉ es.map Prod.fst) :
    addEdge sid nid es = es ++ [(sid, [nid])] := by
  induction es with
  | nil => rfl
  | cons a es ih =>
    simp only [List.map_cons, List.mem_cons, not_or] at h
    simp only [addEdge, if_neg (Ne.symm h.1), ih h.2, List.cons_append]

theorem addEdge_last {sid nid : ℕ} {js : List ℕ} {es : List (ℕ × List ℕ)}
    (h : sid ∉ es.map Prod.fst) :
    addEdge sid nid (es ++ [(sid, js)]) = es ++ [(sid, js ++ [nid])] := by
  induction es with
  | nil => simp [addEdge]
  | cons a es ih =>
    simp only [List.map_cons, List.mem_cons, not_or] at h
    simp only [List.cons_append, addEdge, if_neg (Ne.symm h.1), ih h.2]

end tables

section spec

variable {μ X L κ E Y : Type}

def Next (next : Y → Except E (List (L × Y))) (y z : Y) : Prop :=
  ∃ ys, next y = .ok ys ∧ z ∈ ys.map Prod.snd

def Determined (key : Y → κ) (next : Y → Except E (List (L × Y))) (y0 : Y) : Prop :=
  ∀ y z, Relation.ReflTransGen (Next next) y0 y → Relation.ReflTransGen (Next next) y0 z →
    key y = key z → ∀ ys, next y = .ok ys →
    ∃ zs, next z = .ok zs ∧ ∀ y' ∈ ys.map Prod.snd, ∃ z' ∈ zs.map Prod.snd, key z' = key y'

-- `rep` shows a hidden state to the searcher; `knows` says that the memory can find it again.
structure Lawful (P : Space μ X L κ E) (next : Y → Except E (List (L × Y))) (rep : Y → X)
    (knows : μ → Y → Prop) : Prop where
  error : ∀ {m y e}, knows m y → next y = .error e → P.succ m (rep y) = .error e
  ok : ∀ {m y ys}, knows m y → next y = .ok ys →
    ∃ m', P.succ m (rep y) = .ok (ys.map (Prod.map id rep), m') ∧
      (∀ z, knows m z → knows m' z) ∧ ∀ e ∈ ys, knows m' e.2

structure Tables (P : Space μ X L κ E) (rep : Y → X) (s : Search X L κ)
    (nodes : List (Y × ℕ)) (i : ℕ) : Prop where
  states : s.states = nodes.map (fun n => rep n.1)
  seen : s.seen = nodes.zipIdx.map (fun e => (P.key (rep e.1.1), e.2))
  depths : s.depths = nodes.zipIdx.map (fun e => (e.2, e.1.2))
  queue : s.queue = (nodes.zipIdx.drop i).map (fun e => (e.2, rep e.1.1))

def Distinct (P : Space μ X L κ E) (rep : Y → X) (nodes : List (Y × ℕ)) : Prop :=
  (nodes.map (fun n => P.key (rep n.1))).Nodup

def Edge (edges : List (ℕ × List ℕ)) (i j : ℕ) : Prop :=
  ∃ js, edges.lookup i = some js ∧ j ∈ js

def Hits (P : Space μ X L κ E) (rep : Y → X) (nodes : List (Y × ℕ)) (e : L × Y) (k : ℕ) : Prop :=
  ∃ n, nodes[k]? = some n ∧ P.key (rep n.1) = P.key (rep e.2)

def entry (sid : ℕ) (js : List ℕ) : List (ℕ × List ℕ) := if js = [] then [] else [(sid, js)]

variable {P : Space μ X L κ E} {next : Y → Except E (List (L × Y))} {rep : Y → X}
  {knows : μ → Y → Prop}

theorem Hits.mono {nodes new : List (Y × ℕ)} {e : L × Y} {k : ℕ} (h : Hits P rep nodes e k) :
    Hits P rep (nodes ++ new) e k := by
  obtain ⟨n, hn, hk⟩ := h
  exact ⟨n, List.getElem?_append_left (List.getElem?_eq_some_iff.mp hn).1 ▸ hn, hk⟩

theorem entry_lookup (sid : ℕ) (js : List ℕ) : ((entry sid js).lookup sid).getD [] = js := by
  by_cases hj : js = []
  · simp [entry, hj]
  · simp [entry, hj]

theorem entry_keys {sid j : ℕ} {js : List ℕ} (h : j ∈ (entry sid js).map Prod.fst) : j = sid := by
  by_cases hj : js = []
  · simp [entry, hj] at h
  · simpa [entry, hj] using h

theorem entry_keys_nodup (sid : ℕ) (js : List ℕ) : ((entry sid js).map Prod.fst).Nodup := by
  by_cases hj : js = []
  · simp [entry, hj]
  · simp [entry, hj]

theorem addEdge_entry {sid nid : ℕ} {js : List ℕ} {base : List (ℕ × List ℕ)}
    (h : sid ∉ base.map Prod.fst) :
    addEdge sid nid (base ++ entry sid js) = base ++ entry sid (js ++ [nid]) := by
  by_cases hj : js = []
  · simp [hj, entry, addEdge_new h]
  · simp [hj, entry, addEdge_last h]

theorem visit_tables {s : Search X L κ} {sid : ℕ} {l : L} {nodes : List (Y × ℕ)} {i nid : ℕ}
    (ht : Tables P rep s nodes i) :
    Tables P rep { s with
      edges := addEdge sid nid s.edges
      predecessors := setDefault nid (sid, l) s.predecessors } nodes i :=
  ⟨ht.states, ht.seen, ht.depths, ht.queue⟩

section visiting

variable [DecidableEq κ]

theorem enqueue_spec {s : Search X L κ} {nodes : List (Y × ℕ)} {i : ℕ}
    (ht : Tables P rep s nodes i) (hi : i ≤ nodes.length) (hd : Distinct P rep nodes)
    (d : ℕ) (e : L × Y) :
    ∃ new, (∀ n ∈ new, n = (e.2, d + 1)) ∧
      Tables P rep (enqueue P d s (rep e.2)).1 (nodes ++ new) i ∧
      Distinct P rep (nodes ++ new) ∧
      Hits P rep (nodes ++ new) e (enqueue P d s (rep e.2)).2 ∧
      (enqueue P d s (rep e.2)).1.edges = s.edges := by
  unfold enqueue
  cases hl : s.seen.lookup (P.key (rep e.2)) with
  | some k =>
    rw [ht.seen] at hl
    obtain ⟨-, n, hn, hk⟩ := lookup_zipIdx_some (f := fun n : Y × ℕ => P.key (rep n.1)) hl
    exact ⟨[], by simp, by simpa using ht, by simpa using hd,
      ⟨n, by simpa using hn, hk⟩, rfl⟩
  | none =>
    rw [ht.seen] at hl
    have hfresh := lookup_zipIdx_none (f := fun n : Y × ℕ => P.key (rep n.1)) hl
    have hlen : s.states.length = nodes.length := by simp [ht.states]
    refine ⟨[(e.2, d + 1)], by simp, ⟨?_, ?_, ?_, ?_⟩, ?_, ⟨(e.2, d + 1), by simp [hlen], rfl⟩, rfl⟩
    · simp [ht.states]
    · simp [ht.seen, hlen, List.zipIdx_append]
    · simp [ht.depths, hlen, List.zipIdx_append]
    · have hz : i ≤ nodes.zipIdx.length := by simpa using hi
      simp [ht.queue, hlen, List.zipIdx_append, List.drop_append_of_le_length hz]
    · rw [Distinct, List.map_append]
      refine List.Nodup.append hd (by simp) ?_
      intro a ha hb
      have hb' : a = P.key (rep e.2) := by simpa using hb
      exact hfresh (hb' ▸ ha)

theorem visitAll_spec {base : List (ℕ × List ℕ)} {sid d i : ℕ} (hb : sid ∉ base.map Prod.fst)
    (ys : List (L × Y)) {s : Search X L κ} {nodes : List (Y × ℕ)} {js : List ℕ}
    (ht : Tables P rep s nodes i) (hi : i ≤ nodes.length) (hd : Distinct P rep nodes)
    (he : s.edges = base ++ entry sid js) :
    ∃ new ks, (∀ n ∈ new, n.2 = d + 1 ∧ ∃ e ∈ ys, n.1 = e.2) ∧
      Tables P rep ((ys.map (Prod.map id rep)).foldl (visit P sid d) s) (nodes ++ new) i ∧
      Distinct P rep (nodes ++ new) ∧
      List.Forall₂ (Hits P rep (nodes ++ new)) ys ks ∧
      ((ys.map (Prod.map id rep)).foldl (visit P sid d) s).edges =
        base ++ entry sid (js ++ ks) := by
  induction ys generalizing s nodes js with
  | nil => exact ⟨[], [], by simp, by simpa using ht, by simpa using hd, .nil, by simpa using he⟩
  | cons e ys ih =>
    obtain ⟨new, hnew, ht1, hd1, hh1, he1⟩ := enqueue_spec ht hi hd d e
    have he2 : addEdge sid (enqueue P d s (rep e.2)).2 (enqueue P d s (rep e.2)).1.edges =
        base ++ entry sid (js ++ [(enqueue P d s (rep e.2)).2]) := by
      rw [he1, he, addEdge_entry hb]
    have hi1 : i ≤ (nodes ++ new).length := by
      rw [List.length_append]
      omega
    obtain ⟨new', ks, hnew', ht3, hd3, hh3, he3⟩ :=
      ih (visit_tables (l := e.1) ht1) hi1 hd1 he2
    refine ⟨new ++ new', (enqueue P d s (rep e.2)).2 :: ks, ?_, ?_, ?_, ?_, ?_⟩
    · intro n hn
      rcases List.mem_append.mp hn with hn | hn
      · rw [hnew n hn]
        exact ⟨rfl, e, List.mem_cons_self, rfl⟩
      · obtain ⟨h2, e', he', h1⟩ := hnew' n hn
        exact ⟨h2, e', List.mem_cons_of_mem _ he', h1⟩
    · rw [← List.append_assoc]
      exact ht3
    · rw [← List.append_assoc]
      exact hd3
    · rw [← List.append_assoc]
      exact .cons hh1.mono hh3
    · rw [← List.append_cons] at he3
      exact he3

end visiting

def Wired (P : Space μ X L κ E) (next : Y → Except E (List (L × Y))) (rep : Y → X)
    (nodes : List (Y × ℕ)) (edges : List (ℕ × List ℕ)) (j : ℕ) (n : Y × ℕ) : Prop :=
  (P.bound ≤ n.2 → edges.lookup j = none) ∧
  (n.2 < P.bound → ∃ ys, next n.1 = .ok ys ∧
    List.Forall₂ (fun e k => Hits P rep nodes e k ∧ ∀ x, nodes[k]? = some x → x.2 ≤ n.2 + 1) ys
      ((edges.lookup j).getD []))

-- Node `i` is the next one to be served, the current level is `r`, and `c` nodes of that
-- level still wait; whatever comes after them in the queue is one level deeper.
structure Inv (P : Space μ X L κ E) (next : Y → Except E (List (L × Y))) (rep : Y → X)
    (knows : μ → Y → Prop) (y0 : Y) (x : μ × Search X L κ) (nodes : List (Y × ℕ))
    (i r c : ℕ) : Prop where
  tables : Tables P rep x.2 nodes i
  count : i + c ≤ nodes.length
  distinct : Distinct P rep nodes
  root : nodes[0]? = some (y0, 0)
  known : ∀ n ∈ nodes, knows x.1 n.1
  walk : ∀ n ∈ nodes, Walk (Next next) y0 n.2 n.1
  bounded : ∀ n ∈ nodes, n.2 ≤ P.bound
  served : ∀ j n, nodes[j]? = some n → j < i + c → n.2 ≤ r
  level : ∀ j n, nodes[j]? = some n → i ≤ j → j < i + c → n.2 = r
  deeper : ∀ j n, nodes[j]? = some n → i + c ≤ j → n.2 = r + 1
  keys_nodup : (x.2.edges.map Prod.fst).Nodup
  keys_lt : ∀ j ∈ x.2.edges.map Prod.fst, j < i
  edges : ∀ j n, j < i → nodes[j]? = some n → Wired P next rep nodes x.2.edges j n

theorem noteDeadlock_tables (m : μ) (sid : ℕ) (st : X) (succ : List (L × X)) {s : Search X L κ}
    {nodes : List (Y × ℕ)} {i : ℕ} (ht : Tables P rep s nodes i) :
    Tables P rep (noteDeadlock P m sid st succ s) nodes i := by
  unfold noteDeadlock
  split
  · exact ⟨ht.states, ht.seen, ht.depths, ht.queue⟩
  · exact ht

theorem noteDeadlock_edges {m : μ} {s : Search X L κ} {sid : ℕ} {st : X} {succ : List (L × X)} :
    (noteDeadlock P m sid st succ s).edges = s.edges := by
  unfold noteDeadlock
  split <;> rfl

theorem start_inv (P : Space μ X L κ E) (next : Y → Except E (List (L × Y))) {m : μ} {y0 : Y}
    (hk : knows m y0) : Inv P next rep knows y0 (m, start P (rep y0)) [(y0, 0)] 0 0 1 := by
  have hj (j : ℕ) (n : Y × ℕ) (h : [(y0, 0)][j]? = some n) : j = 0 ∧ n = (y0, 0) := by
    cases j with
    | zero => exact ⟨rfl, by simpa using h.symm⟩
    | succ j => simp at h
  exact
    { tables := ⟨by simp [start], by simp [start], by simp [start], by simp [start]⟩
      count := by simp
      distinct := by simp [Distinct]
      root := rfl
      known := by simpa using hk
      walk := by simpa using (Walk.refl : Walk (Next next) y0 0 y0)
      bounded := by simp
      served := fun j n h _ => by simp [(hj j n h).2]
      level := fun j n h _ _ => by simp [(hj j n h).2]
      deeper := fun j n h hlt => by
        have := (hj j n h).1
        omega
      keys_nodup := by simp [start]
      keys_lt := by simp [start]
      edges := fun j n h => absurd h (Nat.not_lt_zero j) }

theorem Wired.mono {nodes new : List (Y × ℕ)} {edges more : List (ℕ × List ℕ)} {j : ℕ}
    {n : Y × ℕ} (h : Wired P next rep nodes edges j n) (hj : j ∉ more.map Prod.fst) :
    Wired P next rep (nodes ++ new) (edges ++ more) j n := by
  have hl : (edges ++ more).lookup j = edges.lookup j := by
    rw [List.lookup_append, lookup_none_of_not_mem hj, Option.or_none]
  refine ⟨fun hb => by rw [hl]; exact h.1 hb, fun hb => ?_⟩
  obtain ⟨ys, hy, hf⟩ := h.2 hb
  refine ⟨ys, hy, ?_⟩
  rw [hl]
  refine hf.imp (fun e k hek => ⟨hek.1.mono, fun x hx => ?_⟩)
  obtain ⟨n', hn', -⟩ := hek.1
  have hlt := (List.getElem?_eq_some_iff.mp hn').1
  rw [List.getElem?_append_left hlt] at hx
  exact hek.2 x hx

section served

variable {y0 y : Y} {x : μ × Search X L κ} {nodes : List (Y × ℕ)} {i r c : ℕ}

theorem Inv.queue_head (h : Inv P next rep knows y0 x nodes i r (c + 1)) :
    ∃ y, nodes[i]? = some (y, r) ∧
      x.2.queue = (i, rep y) :: ((nodes.zipIdx.drop (i + 1)).map (fun e => (e.2, rep e.1.1))) ∧
      (x.2.depths.lookup i).getD 0 = r := by
  have hc := h.count
  have hi : i < nodes.length := by omega
  obtain ⟨⟨y, d⟩, hn⟩ : ∃ n, nodes[i]? = some n := ⟨_, List.getElem?_eq_getElem hi⟩
  have hd : d = r := h.level i (y, d) hn (le_refl i) (by omega)
  subst hd
  refine ⟨y, hn, ?_, ?_⟩
  · have hz : nodes.zipIdx[i]? = some ((y, d), i) := by simp [List.getElem?_zipIdx, hn]
    obtain ⟨hlt, he⟩ := List.getElem?_eq_some_iff.mp hz
    rw [h.tables.queue, List.drop_eq_getElem_cons hlt, he]
    rfl
  · have hl := lookup_index (g := fun n : Y × ℕ => n.2) (n := 0) hn
    rw [Nat.zero_add] at hl
    rw [h.tables.depths, hl]
    rfl

theorem Inv.fresh_key (h : Inv P next rep knows y0 x nodes i r c) :
    i ∉ x.2.edges.map Prod.fst :=
  fun hm => lt_irrefl i (h.keys_lt i hm)

theorem Inv.step_frontier (h : Inv P next rep knows y0 x nodes i r (c + 1))
    (hn : nodes[i]? = some (y, r)) {s : Search X L κ} (ht : Tables P rep s nodes (i + 1))
    (he : s.edges = x.2.edges) (hb : P.bound ≤ r) :
    Inv P next rep knows y0 (x.1, s) nodes (i + 1) r c :=
  { tables := ht
    count := by
      have := h.count
      omega
    distinct := h.distinct
    root := h.root
    known := h.known
    walk := h.walk
    bounded := h.bounded
    served := fun j n hj hlt => h.served j n hj (by omega)
    level := fun j n hj hle hlt => h.level j n hj (by omega) (by omega)
    deeper := fun j n hj hle => h.deeper j n hj (by omega)
    keys_nodup := by
      rw [he]
      exact h.keys_nodup
    keys_lt := fun j hj => by
      rw [he] at hj
      exact Nat.lt_succ_of_lt (h.keys_lt j hj)
    edges := fun j n hj hjn => by
      rw [he]
      rcases Nat.lt_succ_iff_lt_or_eq.mp hj with hj | rfl
      · exact h.edges j n hj hjn
      · rw [hn] at hjn
        obtain rfl := Option.some.inj hjn
        exact ⟨fun _ => lookup_none_of_not_mem h.fresh_key, fun hlt => absurd hlt (not_lt.mpr hb)⟩ }

theorem Inv.step_expand (h : Inv P next rep knows y0 x nodes i r (c + 1))
    (hn : nodes[i]? = some (y, r)) {m : μ} {s : Search X L κ} {ys : List (L × Y)}
    {new : List (Y × ℕ)} {ks : List ℕ} (hb : r < P.bound) (hy : next y = .ok ys)
    (hm : ∀ z, knows x.1 z → knows m z) (hm' : ∀ e ∈ ys, knows m e.2)
    (hnew : ∀ n ∈ new, n.2 = r + 1 ∧ ∃ e ∈ ys, n.1 = e.2)
    (ht : Tables P rep s (nodes ++ new) (i + 1)) (hd : Distinct P rep (nodes ++ new))
    (hf : List.Forall₂ (Hits P rep (nodes ++ new)) ys ks)
    (he : s.edges = x.2.edges ++ entry i ks) :
    Inv P next rep knows y0 (m, s) (nodes ++ new) (i + 1) r c := by
  have hc := h.count
  have hwalk : Walk (Next next) y0 r y := h.walk (y, r) (List.mem_of_getElem? hn)
  have hsplit (j : ℕ) (n : Y × ℕ) (hj : (nodes ++ new)[j]? = some n) :
      nodes[j]? = some n ∨ (nodes.length ≤ j ∧ n ∈ new) := by
    rcases Nat.lt_or_ge j nodes.length with hlt | hge
    · rw [List.getElem?_append_left hlt] at hj
      exact Or.inl hj
    · rw [List.getElem?_append_right hge] at hj
      exact Or.inr ⟨hge, List.mem_of_getElem? hj⟩
  have hle (j : ℕ) (n : Y × ℕ) (hj : (nodes ++ new)[j]? = some n) : n.2 ≤ r + 1 := by
    rcases hsplit j n hj with hj | ⟨-, hj⟩
    · rcases Nat.lt_or_ge j (i + (c + 1)) with hlt | hge
      · exact Nat.le_succ_of_le (h.served j n hj hlt)
      · exact le_of_eq (h.deeper j n hj hge)
    · exact le_of_eq (hnew n hj).1
  exact
    { tables := ht
      count := by
        rw [List.length_append]
        omega
      distinct := hd
      root := by
        rw [List.getElem?_append_left (by omega)]
        exact h.root
      known := fun n hn => by
        rcases List.mem_append.mp hn with hn | hn
        · exact hm _ (h.known n hn)
        · obtain ⟨-, e, he, hne⟩ := hnew n hn
          rw [hne]
          exact hm' e he
      walk := fun n hn => by
        rcases List.mem_append.mp hn with hn | hn
        · exact h.walk n hn
        · obtain ⟨h2, e, he, h1⟩ := hnew n hn
          rw [h1, h2]
          exact hwalk.tail ⟨ys, hy, List.mem_map_of_mem he⟩
      bounded := fun n hn => by
        rcases List.mem_append.mp hn with hn | hn
        · exact h.bounded n hn
        · rw [(hnew n hn).1]
          exact hb
      served := fun j n hj hlt => by
        rcases hsplit j n hj with hj | ⟨hge, -⟩
        · exact h.served j n hj (by omega)
        · omega
      level := fun j n hj hij hlt => by
        rcases hsplit j n hj with hj | ⟨hge, -⟩
        · exact h.level j n hj (by omega) (by omega)
        · omega
      deeper := fun j n hj hij => by
        rcases hsplit j n hj with hj | ⟨-, hj⟩
        · exact h.deeper j n hj (by omega)
        · exact (hnew n hj).1
      keys_nodup := by
        rw [he, List.map_append]
        refine List.Nodup.append h.keys_nodup (entry_keys_nodup i ks) (fun j hj hj' => ?_)
        rw [entry_keys hj'] at hj
        exact h.fresh_key hj
      keys_lt := fun j hj => by
        rw [he, List.map_append] at hj
        rcases List.mem_append.mp hj with hj | hj
        · exact Nat.lt_succ_of_lt (h.keys_lt j hj)
        · rw [entry_keys hj]
          exact Nat.lt_succ_self i
      edges := fun j n hj hjn => by
        rw [he]
        rcases Nat.lt_succ_iff_lt_or_eq.mp hj with hlt | rfl
        · rw [List.getElem?_append_left (by omega)] at hjn
          exact (h.edges j n hlt hjn).mono (fun hm => (Nat.ne_of_lt hlt) (entry_keys hm))
        · rw [List.getElem?_append_left (by omega), hn] at hjn
          obtain rfl := Option.some.inj hjn
          refine ⟨fun hge => absurd hb (not_lt.mpr hge), fun _ => ⟨ys, hy, ?_⟩⟩
          have hl : ((x.2.edges ++ entry j ks).lookup j).getD [] = ks := by
            rw [List.lookup_append, lookup_none_of_not_mem h.fresh_key, Option.none_or,
              entry_lookup]
          rw [hl]
          exact hf.imp (fun e k hek => ⟨hek, fun x hx => hle k x hx⟩) }

variable [DecidableEq κ]

theorem Inv.step_spec (hlaw : Lawful P next rep knows)
    (h : Inv P next rep knows y0 x nodes i r (c + 1)) :
    (∃ y e, Walk (Next next) y0 r y ∧ r < P.bound ∧ next y = .error e ∧ step P x = .error e) ∨
    ∃ x' nodes', step P x = .ok x' ∧ Inv P next rep knows y0 x' nodes' (i + 1) r c := by
  obtain ⟨y, hn, hq, hdepth⟩ := h.queue_head
  have hmem := List.mem_of_getElem? hn
  let s : Search X L κ := { x.2 with
    queue := (nodes.zipIdx.drop (i + 1)).map (fun e => (e.2, rep e.1.1)) }
  have hs : Tables P rep s nodes (i + 1) :=
    ⟨h.tables.states, h.tables.seen, h.tables.depths, rfl⟩
  unfold step
  rw [hq]
  simp only [hdepth]
  by_cases hb : P.bound ≤ r
  · refine Or.inr ⟨(x.1, noteDeadlock P x.1 i (rep y) [] s), nodes, if_pos hb, ?_⟩
    exact h.step_frontier hn (noteDeadlock_tables x.1 i (rep y) [] hs) noteDeadlock_edges hb
  · rw [if_neg hb]
    cases hy : next y with
    | error e =>
      rw [hlaw.error (h.known _ hmem) hy]
      exact Or.inl ⟨y, e, h.walk _ hmem, not_le.mp hb, hy, rfl⟩
    | ok ys =>
      obtain ⟨m, hsucc, hm, hm'⟩ := hlaw.ok (h.known _ hmem) hy
      rw [hsucc]
      have hi : i + 1 ≤ nodes.length := by
        have := h.count
        omega
      have hedges : (noteDeadlock P m i (rep y) (ys.map (Prod.map id rep)) s).edges =
          x.2.edges ++ entry i [] := by
        rw [noteDeadlock_edges]
        simp [entry, s]
      obtain ⟨new, ks, hnew, ht, hd, hf, he⟩ := visitAll_spec (d := r) h.fresh_key ys
        (noteDeadlock_tables m i (rep y) _ hs) hi h.distinct hedges
      exact Or.inr ⟨_, nodes ++ new, rfl,
        h.step_expand hn (not_le.mp hb) hy hm hm' hnew ht hd hf he⟩

end served

section run

variable {y0 : Y}

theorem Inv.next_level {x : μ × Search X L κ} {nodes : List (Y × ℕ)} {i r : ℕ}
    (h : Inv P next rep knows y0 x nodes i r 0) :
    Inv P next rep knows y0 x nodes i (r + 1) (nodes.length - i) := by
  have hc := h.count
  exact
    { h with
      count := by omega
      served := fun j n hj _ => by
        rcases Nat.lt_or_ge j i with hlt | hge
        · exact Nat.le_succ_of_le (h.served j n hj hlt)
        · exact le_of_eq (h.deeper j n hj hge)
      level := fun j n hj hle _ => h.deeper j n hj hle
      deeper := fun j n hj hle => by
        have := (List.getElem?_eq_some_iff.mp hj).1
        omega }

theorem Inv.queue_length {x : μ × Search X L κ} {nodes : List (Y × ℕ)} {i r c : ℕ}
    (h : Inv P next rep knows y0 x nodes i r c) : x.2.queue.length = nodes.length - i := by
  simp [h.tables.queue]

structure Explored (P : Space μ X L κ E) (next : Y → Except E (List (L × Y))) (rep : Y → X)
    (knows : μ → Y → Prop) (y0 : Y) (x : μ × Search X L κ) (nodes : List (Y × ℕ)) : Prop where
  states : x.2.states = nodes.map (fun n => rep n.1)
  queue : x.2.queue = []
  distinct : Distinct P rep nodes
  root : nodes[0]? = some (y0, 0)
  known : ∀ n ∈ nodes, knows x.1 n.1
  walk : ∀ n ∈ nodes, Walk (Next next) y0 n.2 n.1
  bounded : ∀ n ∈ nodes, n.2 ≤ P.bound
  keys_nodup : (x.2.edges.map Prod.fst).Nodup
  keys_lt : ∀ j ∈ x.2.edges.map Prod.fst, j < nodes.length
  edges : ∀ j n, nodes[j]? = some n → Wired P next rep nodes x.2.edges j n

section iterate

variable [DecidableEq κ]

theorem Inv.steps_spec (hlaw : Lawful P next rep knows) {c : ℕ} :
    ∀ {x : μ × Search X L κ} {nodes : List (Y × ℕ)} {i r : ℕ},
    Inv P next rep knows y0 x nodes i r c →
    (∃ y k e, Walk (Next next) y0 k y ∧ k < P.bound ∧ next y = .error e ∧
      steps P c x = .error e) ∨
    ∃ x' nodes', steps P c x = .ok x' ∧ Inv P next rep knows y0 x' nodes' (i + c) r 0 := by
  induction c with
  | zero => exact fun {x nodes i r} h => Or.inr ⟨x, nodes, rfl, h⟩
  | succ c ih =>
    intro x nodes i r h
    rcases h.step_spec hlaw with ⟨y, e, hw, hb, hy, hs⟩ | ⟨x', nodes', hs, h'⟩
    · exact Or.inl ⟨y, r, e, hw, hb, hy, by rw [steps, hs]; rfl⟩
    · have hbind : steps P (c + 1) x = steps P c x' := by
        rw [steps, hs]
        rfl
      rw [hbind]
      have e : i + (c + 1) = i + 1 + c := by omega
      rw [e]
      exact ih h'

theorem Inv.levels_spec (hlaw : Lawful P next rep knows) (n : ℕ) :
    ∀ {x : μ × Search X L κ} {nodes : List (Y × ℕ)} {i r : ℕ},
    Inv P next rep knows y0 x nodes i r (nodes.length - i) →
    (∃ y k e, Walk (Next next) y0 k y ∧ k < P.bound ∧ next y = .error e ∧
      levels P n x = .error e) ∨
    ∃ x' nodes' i', levels P n x = .ok x' ∧
      Inv P next rep knows y0 x' nodes' i' (r + n) (nodes'.length - i') := by
  induction n with
  | zero => exact fun {x nodes i r} h => Or.inr ⟨x, nodes, i, rfl, h⟩
  | succ n ih =>
    intro x nodes i r h
    have hlen := h.queue_length
    rcases h.steps_spec hlaw with ⟨y, k, e, hw, hb, hy, hs⟩ | ⟨x', nodes', hs, h'⟩
    · exact Or.inl ⟨y, k, e, hw, hb, hy, by rw [levels, hlen, hs]; rfl⟩
    · have hbind : levels P (n + 1) x = levels P n x' := by
        rw [levels, hlen, hs]
        rfl
      rw [hbind]
      have e : r + (n + 1) = r + 1 + n := by omega
      rw [e]
      exact ih h'.next_level

omit [DecidableEq κ] in
theorem Inv.explored {x : μ × Search X L κ} {nodes : List (Y × ℕ)} {i r : ℕ}
    (h : Inv P next rep knows y0 x nodes i r (nodes.length - i)) (hr : P.bound < r) :
    Explored P next rep knows y0 x nodes := by
  have hi : nodes.length ≤ i := by
    by_contra hlt
    have hn := List.getElem?_eq_getElem (not_le.mp hlt)
    have hd := h.level i _ hn (le_refl i) (by omega)
    have hb := h.bounded _ (List.mem_of_getElem? hn)
    omega
  exact
    { states := h.tables.states
      queue := List.length_eq_zero_iff.mp (by rw [h.queue_length]; omega)
      distinct := h.distinct
      root := h.root
      known := h.known
      walk := h.walk
      bounded := h.bounded
      keys_nodup := h.keys_nodup
      keys_lt := fun j hj => by
        have := h.keys_lt j hj
        have := h.count
        omega
      edges := fun j n hj => h.edges j n (by
        have := (List.getElem?_eq_some_iff.mp hj).1
        omega) hj }

theorem search_spec (hlaw : Lawful P next rep knows) {m : μ} (hk : knows m y0) :
    (∃ y k e, Walk (Next next) y0 k y ∧ k < P.bound ∧ next y = .error e ∧
      search P m (rep y0) = .error e) ∨
    ∃ x nodes, search P m (rep y0) = .ok x ∧ Explored P next rep knows y0 x nodes := by
  rcases (start_inv P next hk).levels_spec hlaw (P.bound + 1) with
    ⟨y, k, e, hw, hb, hy, hs⟩ | ⟨x, nodes, i, hs, h⟩
  · exact Or.inl ⟨y, k, e, hw, hb, hy, hs⟩
  · exact Or.inr ⟨x, nodes, hs, h.explored (by omega)⟩

theorem search_depths {m : μ} (hlaw : Lawful P next rep knows) (hk : knows m y0)
    {x : μ × Search X L κ} (hs : search P m (rep y0) = .ok x) :
    ∃ nodes, Explored P next rep knows y0 x nodes ∧
      x.2.depths = nodes.zipIdx.map (fun e => (e.2, e.1.2)) := by
  rcases (start_inv P next hk).levels_spec hlaw (P.bound + 1) with
    ⟨y, k, e, -, -, -, he⟩ | ⟨x', nodes, i, hx, h⟩
  · rw [search, he] at hs
    cases hs
  · rw [search, hx] at hs
    cases hs
    exact ⟨nodes, h.explored (by omega), h.tables.depths⟩

theorem search_ok {m : μ} (hlaw : Lawful P next rep knows) (hk : knows m y0)
    {x : μ × Search X L κ} (hs : search P m (rep y0) = .ok x) :
    ∃ nodes, Explored P next rep knows y0 x nodes := by
  rcases search_spec hlaw hk with ⟨y, k, e, -, -, -, he⟩ | ⟨x', nodes, hx, hex⟩
  · rw [hs] at he
    cases he
  · rw [hs] at hx
    cases hx
    exact ⟨nodes, hex⟩

end iterate

section graph

variable {x : μ × Search X L κ} {nodes : List (Y × ℕ)}

theorem Explored.not_edge (h : Explored P next rep knows y0 x nodes) {i j : ℕ} {n : Y × ℕ}
    (hn : nodes[i]? = some n) (hb : P.bound ≤ n.2) : ¬ Edge x.2.edges i j := by
  rintro ⟨js, hl, -⟩
  rw [(h.edges i n hn).1 hb] at hl
  cases hl

theorem Explored.edge_hits (h : Explored P next rep knows y0 x nodes) {i j : ℕ} {n : Y × ℕ}
    (hn : nodes[i]? = some n) (he : Edge x.2.edges i j) :
    n.2 < P.bound ∧ ∃ z n', Next next n.1 z ∧ nodes[j]? = some n' ∧
      P.key (rep n'.1) = P.key (rep z) := by
  have hb : n.2 < P.bound := not_le.mp (fun hb => h.not_edge hn hb he)
  obtain ⟨js, hl, hj⟩ := he
  obtain ⟨ys, hy, hf⟩ := (h.edges i n hn).2 hb
  rw [hl] at hf
  obtain ⟨k, hk, rfl⟩ := List.getElem_of_mem hj
  have hlen : k < ys.length := by
    rw [hf.length_eq]
    exact hk
  obtain ⟨⟨n', hn', hkey⟩, -⟩ := hf.get hlen hk
  exact ⟨hb, _, n', ⟨ys, hy, List.mem_map_of_mem (List.getElem_mem hlen)⟩, hn', hkey⟩

theorem Explored.hits_edge (h : Explored P next rep knows y0 x nodes) {i : ℕ} {n : Y × ℕ} {z : Y}
    (hn : nodes[i]? = some n) (hb : n.2 < P.bound) (hz : Next next n.1 z) :
    ∃ j n', Edge x.2.edges i j ∧ nodes[j]? = some n' ∧ P.key (rep n'.1) = P.key (rep z) ∧
      n'.2 ≤ n.2 + 1 := by
  obtain ⟨ys, hy, hf⟩ := (h.edges i n hn).2 hb
  obtain ⟨ys', hy', hmem⟩ := hz
  rw [hy] at hy'
  cases hy'
  obtain ⟨e, he, rfl⟩ := List.mem_map.mp hmem
  obtain ⟨k, hk, rfl⟩ := List.getElem_of_mem he
  cases hl : x.2.edges.lookup i with
  | none =>
    rw [hl] at hf
    have := hf.length_eq
    simp only [Option.getD_none, List.length_nil] at this
    omega
  | some js =>
    rw [hl] at hf
    have hk' : k < js.length := by
      have := hf.length_eq
      simp only [Option.getD_some] at this
      omega
    obtain ⟨⟨n', hn', hkey⟩, hle⟩ := hf.get hk hk'
    exact ⟨js[k], n', ⟨js, hl, List.getElem_mem hk'⟩, hn', hkey, hle n' hn'⟩

theorem Explored.index_unique (h : Explored P next rep knows y0 x nodes) {i j : ℕ}
    {n n' : Y × ℕ} (hi : nodes[i]? = some n) (hj : nodes[j]? = some n') (he : n.1 = n'.1) :
    i = j := by
  obtain ⟨hi', rfl⟩ := List.getElem?_eq_some_iff.mp hi
  obtain ⟨hj', rfl⟩ := List.getElem?_eq_some_iff.mp hj
  have hd := List.nodup_iff_injective_get.mp h.distinct
  have := @hd ⟨i, by simpa using hi'⟩ ⟨j, by simpa using hj'⟩ (by simp [he])
  exact congrArg Fin.val this

theorem determined_of_injective {key : Y → κ}
    (hinj : ∀ y z, Relation.ReflTransGen (Next next) y0 y →
      Relation.ReflTransGen (Next next) y0 z → key y = key z → y = z) :
    Determined key next y0 := by
  intro y z hry hrz hk ys hy
  obtain rfl := hinj y z hry hrz hk
  exact ⟨ys, hy, fun y' hy' => ⟨y', hy', rfl⟩⟩

variable (hdet : Determined (fun y => P.key (rep y)) next y0)

include hdet

theorem Explored.of_walk (h : Explored P next rep knows y0 x nodes) {k : ℕ} {y : Y}
    (hw : Walk (Next next) y0 k y) (hk : k ≤ P.bound) :
    ∃ i n, nodes[i]? = some n ∧ P.key (rep n.1) = P.key (rep y) ∧ n.2 ≤ k ∧
      Relation.ReflTransGen (Edge x.2.edges) 0 i := by
  induction hw with
  | refl => exact ⟨0, (y0, 0), h.root, rfl, le_refl 0, .refl⟩
  | @tail k b c hb hbc ih =>
    obtain ⟨i, n, hn, hkey, hle, hreach⟩ := ih (by omega)
    obtain ⟨ys, hy, hc⟩ := hbc
    have hnr := (h.walk n (List.mem_of_getElem? hn)).reach
    obtain ⟨zs, hz, hmatch⟩ := hdet b n.1 hb.reach hnr hkey.symm ys hy
    obtain ⟨z, hzm, hzc⟩ := hmatch c hc
    obtain ⟨j, n', he, hn', hkey', hle'⟩ := h.hits_edge hn (by omega) ⟨zs, hz, hzm⟩
    exact ⟨j, n', hn', hkey'.trans hzc, by omega, hreach.tail he⟩

theorem Explored.ok_of_walk (h : Explored P next rep knows y0 x nodes) {k : ℕ} {y : Y}
    (hw : Walk (Next next) y0 k y) (hk : k < P.bound) : ∃ ys, next y = .ok ys := by
  obtain ⟨i, n, hn, hkey, hle, -⟩ := h.of_walk hdet hw (le_of_lt hk)
  obtain ⟨ys, hy, -⟩ := (h.edges i n hn).2 (by omega)
  have hnr := (h.walk n (List.mem_of_getElem? hn)).reach
  obtain ⟨zs, hz, -⟩ := hdet n.1 y hnr hw.reach hkey ys hy
  exact ⟨zs, hz⟩

theorem Explored.forall_reach (h : Explored P next rep knows y0 x nodes) (p : Y → Prop)
    (hp : ∀ y z, P.key (rep y) = P.key (rep z) → p y → p z) :
    (∀ i n, Relation.ReflTransGen (Edge x.2.edges) 0 i → nodes[i]? = some n → p n.1) ↔
      ∀ k y, Walk (Next next) y0 k y → k ≤ P.bound → p y := by
  constructor
  · intro hall k y hw hk
    obtain ⟨i, n, hn, hkey, -, hr⟩ := h.of_walk hdet hw hk
    exact hp n.1 y hkey (hall i n hr hn)
  · intro hall i n _ hn
    have hmem := List.mem_of_getElem? hn
    exact hall n.2 n.1 (h.walk n hmem) (h.bounded n hmem)

end graph

end run

end spec

section rooted

variable {μ X L κ E : Type}

theorem edge_addEdge {es : List (ℕ × List ℕ)} {sid nid i j : ℕ} (h : Edge es i j) :
    Edge (addEdge sid nid es) i j := by
  induction es with
  | nil =>
    obtain ⟨js, hl, -⟩ := h
    cases hl
  | cons e es ih =>
    obtain ⟨k, ks⟩ := e
    obtain ⟨js, hl, hj⟩ := h
    rw [List.lookup_cons] at hl
    rw [addEdge]
    by_cases hik : i = k
    · subst hik
      rw [beq_self_eq_true] at hl
      cases hl
      split_ifs
      · exact ⟨ks ++ [nid], List.lookup_cons_self, List.mem_append_left _ hj⟩
      · exact ⟨ks, List.lookup_cons_self, hj⟩
    · rw [beq_false_of_ne hik] at hl
      split_ifs
      · exact ⟨js, by rw [List.lookup_cons, beq_false_of_ne hik]; exact hl, hj⟩
      · obtain ⟨js', hl', hj'⟩ := ih ⟨js, hl, hj⟩
        exact ⟨js', by rw [List.lookup_cons, beq_false_of_ne hik]; exact hl', hj'⟩

theorem edge_added (es : List (ℕ × List ℕ)) (sid nid : ℕ) : Edge (addEdge sid nid es) sid nid := by
  induction es with
  | nil => exact ⟨[nid], List.lookup_cons_self, List.mem_singleton_self nid⟩
  | cons e es ih =>
    obtain ⟨k, ks⟩ := e
    rw [addEdge]
    split_ifs with hk
    · subst hk
      exact ⟨ks ++ [nid], List.lookup_cons_self, List.mem_append_right _ (List.mem_singleton_self nid)⟩
    · obtain ⟨js, hl, hj⟩ := ih
      exact ⟨js, by rw [List.lookup_cons, beq_false_of_ne (Ne.symm hk)]; exact hl, hj⟩

structure Rooted (s : Search X L κ) : Prop where
  reached : ∀ j, j < s.states.length → Relation.ReflTransGen (Edge s.edges) 0 j
  seen : ∀ e ∈ s.seen, e.2 < s.states.length
  queue : ∀ e ∈ s.queue, e.1 < s.states.length

variable {P : Space μ X L κ E} {s : Search X L κ} {sid depth : ℕ}

theorem noteDeadlock_rooted (P : Space μ X L κ E) (m : μ) (sid : ℕ) (st : X)
    (succ : List (L × X)) (h : Rooted s) :
    Rooted (noteDeadlock P m sid st succ s) ∧
      (noteDeadlock P m sid st succ s).states = s.states := by
  rw [noteDeadlock]
  split_ifs
  · exact ⟨⟨h.reached, h.seen, h.queue⟩, rfl⟩
  · exact ⟨h, rfl⟩

variable [DecidableEq κ]

theorem Rooted.visit (P : Space μ X L κ E) (depth : ℕ) (h : Rooted s) (hsid : sid < s.states.length) (e : L × X) :
    Rooted (visit P sid depth s e) ∧
      s.states.length ≤ (BoundedSearch.visit P sid depth s e).states.length := by
  have hmono : ∀ nid j, Relation.ReflTransGen (Edge s.edges) 0 j →
      Relation.ReflTransGen (Edge (addEdge sid nid s.edges)) 0 j :=
    fun nid j hj => Relation.ReflTransGen.mono (r := Edge s.edges) (fun _ _ => edge_addEdge) 0 j hj
  cases hl : s.seen.lookup (P.key e.2) with
  | some nid =>
    have hvisit : BoundedSearch.visit P sid depth s e = { s with
        edges := addEdge sid nid s.edges
        predecessors := setDefault nid (sid, e.1) s.predecessors } := by
      simp only [BoundedSearch.visit, enqueue, hl]
    rw [hvisit]
    exact ⟨⟨fun j hj => hmono nid j (h.reached j hj), h.seen, h.queue⟩, le_refl _⟩
  | none =>
    have hvisit : BoundedSearch.visit P sid depth s e = { s with
        states := s.states ++ [e.2]
        seen := s.seen ++ [(P.key e.2, s.states.length)]
        depths := s.depths ++ [(s.states.length, depth + 1)]
        queue := s.queue ++ [(s.states.length, e.2)]
        edges := addEdge sid s.states.length s.edges
        predecessors := setDefault s.states.length (sid, e.1) s.predecessors } := by
      simp only [BoundedSearch.visit, enqueue, hl]
    rw [hvisit]
    have hlen : (s.states ++ [e.2]).length = s.states.length + 1 := List.length_append
    refine ⟨⟨fun j hj => ?_, fun x hx => ?_, fun x hx => ?_⟩, ?_⟩
    · dsimp only at hj ⊢
      rw [hlen, Nat.lt_succ_iff_lt_or_eq] at hj
      rcases hj with hj | rfl
      · exact hmono _ j (h.reached j hj)
      · exact (hmono _ sid (h.reached sid hsid)).tail (edge_added s.edges sid _)
    · dsimp only at hx ⊢
      rw [hlen]
      rcases List.mem_append.mp hx with hx | hx
      · exact Nat.lt_succ_of_lt (h.seen x hx)
      · rw [List.mem_singleton.mp hx]
        exact Nat.lt_succ_self _
    · dsimp only at hx ⊢
      rw [hlen]
      rcases List.mem_append.mp hx with hx | hx
      · exact Nat.lt_succ_of_lt (h.queue x hx)
      · rw [List.mem_singleton.mp hx]
        exact Nat.lt_succ_self _
    · dsimp only
      rw [hlen]
      exact Nat.le_succ _

theorem Rooted.visitAll (h : Rooted s) (hsid : sid < s.states.length) (es : List (L × X)) :
    Rooted (es.foldl (BoundedSearch.visit P sid depth) s) := by
  induction es generalizing s with
  | nil => exact h
  | cons e es ih =>
    obtain ⟨h', hle⟩ := h.visit P depth hsid e
    exact ih h' (lt_of_lt_of_le hsid hle)

theorem Rooted.step {m : μ} {y : μ × Search X L κ} (h : Rooted s)
    (hs : BoundedSearch.step P (m, s) = .ok y) : Rooted y.2 := by
  rw [BoundedSearch.step] at hs
  cases hq : s.queue with
  | nil =>
    rw [hq] at hs
    cases hs
    exact h
  | cons e q =>
    obtain ⟨sid, st⟩ := e
    rw [hq] at hs
    dsimp only at hs
    have hsid : sid < s.states.length := h.queue (sid, st) (hq ▸ List.mem_cons_self)
    have hpop : Rooted { s with queue := q } :=
      ⟨h.reached, h.seen, fun e he => h.queue e (hq ▸ List.mem_cons_of_mem _ he)⟩
    split_ifs at hs
    · cases hs
      exact (noteDeadlock_rooted P m sid st [] hpop).1
    · cases hsucc : P.succ m st with
      | error e =>
        rw [hsucc] at hs
        cases hs
      | ok r =>
        rw [hsucc] at hs
        cases hs
        obtain ⟨hnote, hstates⟩ := noteDeadlock_rooted P r.2 sid st r.1 hpop
        exact hnote.visitAll (by rw [hstates]; exact hsid) r.1

theorem Rooted.steps {n : ℕ} {x y : μ × Search X L κ} (h : Rooted x.2)
    (hs : BoundedSearch.steps P n x = .ok y) : Rooted y.2 := by
  induction n generalizing x with
  | zero =>
    cases hs
    exact h
  | succ n ih =>
    rw [BoundedSearch.steps] at hs
    cases hstep : BoundedSearch.step P x with
    | error e =>
      rw [hstep] at hs
      cases hs
    | ok z =>
      rw [hstep] at hs
      exact ih (h.step hstep) hs

theorem Rooted.levels {n : ℕ} {x y : μ × Search X L κ} (h : Rooted x.2)
    (hs : BoundedSearch.levels P n x = .ok y) : Rooted y.2 := by
  induction n generalizing x with
  | zero =>
    cases hs
    exact h
  | succ n ih =>
    rw [BoundedSearch.levels] at hs
    cases hstep : BoundedSearch.steps P x.2.queue.length x with
    | error e =>
      rw [hstep] at hs
      cases hs
    | ok z =>
      rw [hstep] at hs
      exact ih (h.steps hstep) hs

theorem search_rooted {m : μ} {root : X} {y : μ × Search X L κ} (hs : search P m root = .ok y) :
    Rooted y.2 := by
  have hstart : Rooted (start P root) := by
    refine ⟨fun j hj => ?_, fun e he => ?_, fun e he => ?_⟩
    · obtain rfl : j = 0 := Nat.lt_one_iff.mp hj
      exact .refl
    · rw [List.mem_singleton.mp he]
      exact Nat.zero_lt_one
    · rw [List.mem_singleton.mp he]
      exact Nat.zero_lt_one
  exact Rooted.levels (x := (m, start P root)) hstart hs

end rooted

end BoundedSearch
