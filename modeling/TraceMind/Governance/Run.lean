import TraceMind.Governance.Manager
import Mathlib.Data.List.Induction

namespace TraceMind.Governance

structure Live where
  id : ℕ
  decision : GovernanceDecision
  activated : Bool := false
  admitted : List (BreakerKey × ℕ) := []

structure System where
  manager : GovernanceManager
  now : ℚ
  live : List Live := []
  next : ℕ := 0
  activations : List (LimitKey × ℚ) := []
  episodes : BreakerKey → ℕ := fun _ => 0

inductive Event where
  | check (now : ℚ) (request : RequestDescriptor)
  | activate (id : ℕ) (now : ℚ)
  | finalize (id : ℕ) (now : ℚ) (report : Report)
  | cancel (id : ℕ)

namespace GovernanceManager

def breakerState (key : BreakerKey) (m : GovernanceManager) : BreakerState :=
  match m.breakerStates key with
  | none => .closed
  | some b => b.state

end GovernanceManager

namespace System

def find (id : ℕ) (s : System) : Option Live := s.live.find? (fun l => l.id = id)

def others (id : ℕ) (s : System) : List Live := s.live.filter (fun l => l.id ≠ id)

def episodesAfter (m : GovernanceManager) (s : System) (key : BreakerKey) : ℕ :=
  if s.manager.breakerState key ≠ .halfOpen ∧ m.breakerState key = .halfOpen then
    s.episodes key + 1
  else s.episodes key

def admittedIn (m : GovernanceManager) (d : GovernanceDecision) (s : System) :
    List (BreakerKey × ℕ) :=
  (d.breakerReservations.filter (fun k => m.breakerState k = .halfOpen)).map
    (fun k => (k, s.episodesAfter m k))

def checked (now : ℚ) (request : RequestDescriptor) (s : System) : System :=
  let c := s.manager.check now request
  let l : Live := { id := s.next, decision := c.1, admitted := s.admittedIn c.2 c.1 }
  { s with
    manager := c.2, now, next := s.next + 1, episodes := s.episodesAfter c.2
    live := if c.1.allowed then l :: s.live else s.live }

def activated (l : Live) (now : ℚ) (s : System) : System :=
  { s with
    manager := s.manager.activate now l.decision, now
    live := { l with activated := true } :: s.others l.id
    activations := s.activations ++ l.decision.limitReservations.map (fun k => (k, now)) }

def finalized (l : Live) (now : ℚ) (report : Report) (s : System) : System :=
  { s with
    manager := s.manager.finalize now l.decision report, now, live := s.others l.id }

def cancelled (l : Live) (s : System) : System :=
  { s with manager := s.manager.cancel l.decision, live := s.others l.id }

def perform (e : Event) (s : System) : System :=
  match e with
  | .check now request => s.checked now request
  | .activate id now =>
    match s.find id with
    | none => s
    | some l => s.activated l now
  | .finalize id now report =>
    match s.find id with
    | none => s
    | some l => s.finalized l now report
  | .cancel id =>
    match s.find id with
    | none => s
    | some l => s.cancelled l

def start (cfg : GovernanceConfig) (now : ℚ) : System := { manager := { config := cfg }, now }

def Reaches (allowed : Event → System → Prop) : System → System → Prop :=
  Relation.ReflTransGen (fun s s' => ∃ e, allowed e s ∧ s' = s.perform e)

theorem reaches_foldl {allowed : Event → System → Prop} {s : System} (es : List Event)
    (h : ∀ t, ∀ e ∈ es, allowed e t) :
    Reaches allowed s (es.foldl (fun t e => t.perform e) s) := by
  induction es using List.reverseRecOn with
  | nil => exact .refl
  | append_singleton es e ih =>
    rw [List.foldl_append]
    exact (ih (fun t x hx => h t x (List.mem_append_left _ hx))).tail ⟨e, h _ e (by simp), rfl⟩

structure Numbered (s : System) : Prop where
  nodup : (s.live.map Live.id).Nodup
  below : ∀ l ∈ s.live, l.id < s.next

variable {s : System} {l : Live}

theorem find_some {id : ℕ} (h : s.find id = some l) : l ∈ s.live ∧ l.id = id :=
  ⟨List.mem_of_find?_eq_some h, by simpa using List.find?_some h⟩

theorem Numbered.perm_others (h : s.Numbered) (hl : l ∈ s.live) :
    List.Perm s.live (l :: s.others l.id) := by
  have hnodup : s.live.Nodup := List.Nodup.of_map _ h.nodup
  have hcons : (l :: s.others l.id).Nodup :=
    List.nodup_cons.mpr ⟨by simp [others], hnodup.filter _⟩
  refine (List.perm_ext_iff_of_nodup hnodup hcons).mpr (fun x => ?_)
  rw [others, List.mem_cons, List.mem_filter, decide_eq_true_eq]
  constructor
  · intro hx
    by_cases he : x.id = l.id
    · exact Or.inl (List.inj_on_of_nodup_map h.nodup hx hl he)
    · exact Or.inr ⟨hx, he⟩
  · rintro (rfl | ⟨hx, -⟩)
    · exact hl
    · exact hx

theorem mem_others {id : ℕ} {x : Live} (h : x ∈ s.others id) : x ∈ s.live ∧ x.id ≠ id := by
  obtain ⟨hx, hne⟩ := List.mem_filter.mp h
  exact ⟨hx, of_decide_eq_true hne⟩

theorem Numbered.others (h : s.Numbered) (id : ℕ) :
    ((s.others id).map Live.id).Nodup ∧ ∀ l ∈ s.others id, l.id < s.next :=
  ⟨h.nodup.sublist ((List.filter_sublist ..).map Live.id),
    fun _ hl => h.below _ (mem_others hl).1⟩

theorem Numbered.activated (h : s.Numbered) (hl : l ∈ s.live) (now : ℚ) :
    (s.activated l now).Numbered := by
  have ho := h.others l.id
  refine ⟨?_, fun x hx => ?_⟩
  · rw [System.activated, List.map_cons, List.nodup_cons]
    refine ⟨fun hm => ?_, ho.1⟩
    obtain ⟨x, hx, he⟩ := List.mem_map.mp hm
    exact (mem_others hx).2 he
  · rcases List.mem_cons.mp hx with rfl | hx
    · exact h.below l hl
    · exact ho.2 x hx

theorem Numbered.perform (h : s.Numbered) (e : Event) : (s.perform e).Numbered := by
  cases e with
  | check now request =>
    simp only [System.perform, checked]
    constructor
    · dsimp only
      split_ifs
      · rw [List.map_cons, List.nodup_cons]
        refine ⟨fun hm => ?_, h.nodup⟩
        obtain ⟨l, hl, he⟩ := List.mem_map.mp hm
        exact (he ▸ h.below l hl).false
      · exact h.nodup
    · intro l hl
      dsimp only at hl ⊢
      split_ifs at hl
      · rcases List.mem_cons.mp hl with rfl | hl
        · exact Nat.lt_succ_self _
        · exact (h.below l hl).trans (Nat.lt_succ_self _)
      · exact (h.below l hl).trans (Nat.lt_succ_self _)
  | activate id now =>
    simp only [System.perform]
    split
    · exact h
    · rename_i l hfind
      exact h.activated (find_some hfind).1 now
  | finalize id now report =>
    simp only [System.perform]
    split
    · exact h
    · rename_i l hfind
      exact ⟨(h.others l.id).1, (h.others l.id).2⟩
  | cancel id =>
    simp only [System.perform]
    split
    · exact h
    · rename_i l hfind
      exact ⟨(h.others l.id).1, (h.others l.id).2⟩

end System

end TraceMind.Governance
