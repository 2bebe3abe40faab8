import Mathlib.Data.List.Count
import Mathlib.Data.List.Perm.Basic
import TraceMind.Foundation.OrderedDict

-- A table that counts for each lock how often it is held shared and how often exclusively.
namespace LockTable

variable {κ : Type} [DecidableEq κ]

inductive Mode where
  | exclusive
  | shared
deriving DecidableEq

structure Request (κ : Type) where
  name : κ
  mode : Mode
deriving DecidableEq

structure Slot where
  shared : ℕ
  exclusive : ℕ

def Slot.of (slot : Slot) : Mode → ℕ
  | .exclusive => slot.exclusive
  | .shared => slot.shared

def Slot.update (f : ℕ → ℕ) (slot : Slot) : Mode → Slot
  | .exclusive => { slot with exclusive := f slot.exclusive }
  | .shared => { slot with shared := f slot.shared }

abbrev Table (κ : Type) := OrderedDict κ Slot

def canAcquire (table : Table κ) (req : Request κ) : Bool :=
  match table.get? req.name with
  | none => true
  | some slot =>
    match req.mode with
    | .exclusive => slot.shared == 0 && slot.exclusive == 0
    | .shared => slot.exclusive == 0

def acquire (table : Table κ) (req : Request κ) : Table κ :=
  table.assign req.name (((table.get? req.name).getD ⟨0, 0⟩).update (· + 1) req.mode)

def releaseOne (table : Table κ) (req : Request κ) : Table κ :=
  match table.get? req.name with
  | none => table
  | some slot =>
    let slot := slot.update (· - 1) req.mode
    if slot.shared = 0 ∧ slot.exclusive = 0 then table.erase req.name
    else table.assign req.name slot

def release (table : Table κ) (reqs : List (Request κ)) : Table κ := reqs.foldl releaseOne table

def count (table : Table κ) (req : Request κ) : ℕ :=
  ((table.get? req.name).map (·.of req.mode)).getD 0

def Tracks (table : Table κ) (held : List (Request κ)) : Prop :=
  ∀ req, count table req = held.count req

def Exclusive (held : List (Request κ)) : Prop :=
  ∀ name, ⟨name, .exclusive⟩ ∈ held → held.countP (fun req => req.name = name) = 1

theorem Slot.of_update (slot : Slot) (f : ℕ → ℕ) (m m' : Mode) :
    (slot.update f m).of m' = if m' = m then f (slot.of m') else slot.of m' := by
  cases m <;> cases m' <;> rfl

section table

variable {table : Table κ} {held rest : List (Request κ)} {req r : Request κ}

theorem count_acquire : count (acquire table req) r = count table r + if r = req then 1 else 0 := by
  obtain ⟨name, mode⟩ := r
  rw [count, acquire, OrderedDict.get?_assign]
  by_cases hn : name = req.name
  · subst hn
    rw [if_pos rfl, Option.map_some, Option.getD_some, Slot.of_update, count]
    have hslot : ((table.get? req.name).getD ⟨0, 0⟩).of mode =
        ((table.get? req.name).map (·.of mode)).getD 0 := by
      cases table.get? req.name with
      | none => cases mode <;> rfl
      | some slot => rfl
    rw [hslot]
    by_cases hm : mode = req.mode
    · subst hm
      rw [if_pos rfl, if_pos rfl]
    · rw [if_neg hm, if_neg (fun h => hm (congrArg Request.mode h)), Nat.add_zero]
  · rw [if_neg hn, if_neg (fun h => hn (congrArg Request.name h)), Nat.add_zero, count]

theorem count_releaseOne :
    count (releaseOne table req) r = count table r - if r = req then 1 else 0 := by
  obtain ⟨name, mode⟩ := r
  unfold releaseOne
  cases hs : table.get? req.name with
  | none =>
    by_cases hr : (⟨name, mode⟩ : Request κ) = req
    · subst hr
      simp only [count, hs, Option.map_none, Option.getD_none, Nat.zero_sub]
    · simp only [if_neg hr, Nat.sub_zero]
  | some slot =>
    dsimp only
    have hget : ((if (slot.update (· - 1) req.mode).shared = 0 ∧
        (slot.update (· - 1) req.mode).exclusive = 0 then table.erase req.name
        else table.assign req.name (slot.update (· - 1) req.mode)).get? name).map (·.of mode) =
        if name = req.name then
          (if (slot.update (· - 1) req.mode).shared = 0 ∧
            (slot.update (· - 1) req.mode).exclusive = 0 then none
          else some ((slot.update (· - 1) req.mode).of mode))
        else (table.get? name).map (·.of mode) := by
      split_ifs with hz hn hn
      · rw [OrderedDict.get?_erase, if_pos hn, Option.map_none]
      · rw [OrderedDict.get?_erase, if_neg hn]
      · rw [OrderedDict.get?_assign, if_pos hn, Option.map_some]
      · rw [OrderedDict.get?_assign, if_neg hn]
    have hzero : (slot.update (· - 1) req.mode).shared = 0 ∧
        (slot.update (· - 1) req.mode).exclusive = 0 →
        (slot.update (· - 1) req.mode).of mode = 0 := by
      rintro ⟨hshared, hexclusive⟩
      cases mode with
      | exclusive => exact hexclusive
      | shared => exact hshared
    rw [count]
    dsimp only
    rw [hget]
    by_cases hn : name = req.name
    · subst hn
      have hcount : count table ⟨req.name, mode⟩ = slot.of mode := by
        rw [count]
        dsimp only
        rw [hs]
        rfl
      rw [if_pos rfl, hcount]
      have hof := slot.of_update (· - 1) req.mode mode
      by_cases hm : mode = req.mode
      · subst hm
        rw [if_pos rfl] at hof ⊢
        rw [← hof]
        split_ifs with hz
        · exact (hzero hz).symm
        · rfl
      · rw [if_neg hm] at hof
        rw [if_neg (fun h => hm (congrArg Request.mode h)), Nat.sub_zero, ← hof]
        split_ifs with hz
        · exact (hzero hz).symm
        · rfl
    · rw [if_neg hn, if_neg (fun h => hn (congrArg Request.name h)), Nat.sub_zero, count]

theorem count_cons (req r : Request κ) (held : List (Request κ)) :
    (req :: held).count r = held.count r + if r = req then 1 else 0 := by
  rw [List.count_cons]
  simp only [beq_iff_eq, eq_comm (a := req)]

theorem Tracks.perm (h : Tracks table held) (hp : held.Perm rest) : Tracks table rest := by
  intro req
  rw [h req, hp.count_eq]

theorem Tracks.empty : Tracks (OrderedDict.empty : Table κ) [] := fun _ => rfl

theorem Tracks.acquire (h : Tracks table held) (req : Request κ) :
    Tracks (acquire table req) (req :: held) := by
  intro r
  rw [count_acquire, h r, count_cons]

theorem Tracks.release {reqs : List (Request κ)} (h : Tracks table (reqs ++ rest)) :
    Tracks (release table reqs) rest := by
  induction reqs generalizing table with
  | nil => exact h
  | cons req reqs ih =>
    refine ih (fun r => ?_)
    rw [count_releaseOne, h r, List.cons_append, count_cons, Nat.add_sub_cancel]

theorem count_name (held : List (Request κ)) (name : κ) :
    held.countP (fun req => req.name = name) =
      held.count ⟨name, .shared⟩ + held.count ⟨name, .exclusive⟩ := by
  induction held with
  | nil => rfl
  | cons req held ih =>
    obtain ⟨n, m⟩ := req
    rw [List.countP_cons, List.count_cons, List.count_cons, ih]
    by_cases hn : n = name
    · subst hn
      cases m <;> simp <;> omega
    · simp [hn]

theorem canAcquire_exclusive (h : Tracks table held) {name : κ} :
    canAcquire table ⟨name, .exclusive⟩ = true ↔ held.countP (fun req => req.name = name) = 0 := by
  have hs := h ⟨name, .shared⟩
  have he := h ⟨name, .exclusive⟩
  rw [count_name, ← hs, ← he]
  unfold canAcquire count
  cases table.get? name with
  | none => simp
  | some slot => simp [Slot.of]

theorem canAcquire_shared (h : Tracks table held) {name : κ} :
    canAcquire table ⟨name, .shared⟩ = true ↔ ⟨name, .exclusive⟩ ∉ held := by
  rw [← List.count_eq_zero, ← h ⟨name, .exclusive⟩]
  unfold canAcquire count
  cases table.get? name with
  | none => simp
  | some slot => simp [Slot.of]

theorem canAcquire_eq_false (h : Tracks table held) :
    canAcquire table req = false ↔
      ∃ r ∈ held, r.name = req.name ∧ (r.mode = .exclusive ∨ req.mode = .exclusive) := by
  obtain ⟨name, mode⟩ := req
  rw [← Bool.not_eq_true]
  cases mode with
  | exclusive =>
    rw [canAcquire_exclusive h, ← ne_eq, ← Nat.pos_iff_ne_zero, List.countP_pos_iff]
    simp
  | shared =>
    rw [canAcquire_shared h, not_not]
    constructor
    · intro hm
      exact ⟨_, hm, rfl, Or.inl rfl⟩
    · rintro ⟨⟨n, m⟩, hm, rfl, hx | hx⟩
      · cases hx
        exact hm
      · cases hx

theorem Exclusive.perm (h : Exclusive held) (hp : held.Perm rest) : Exclusive rest := by
  intro name hm
  rw [← hp.countP_eq]
  exact h name (hp.mem_iff.mpr hm)

theorem Exclusive.sublist (h : Exclusive held) (hs : rest.Sublist held) : Exclusive rest := by
  intro name hm
  have hle : rest.countP (fun req => req.name = name) ≤ held.countP (fun req => req.name = name) :=
    hs.countP_le
  have hpos : 0 < rest.countP (fun req => req.name = name) :=
    List.countP_pos_iff.mpr ⟨_, hm, by simp⟩
  rw [h name (hs.subset hm)] at hle
  omega

theorem Exclusive.acquire (h : Exclusive held) (ht : Tracks table held)
    (hc : canAcquire table req = true) : Exclusive (req :: held) := by
  obtain ⟨n, m⟩ := req
  intro name hm
  rw [List.countP_cons]
  cases m with
  | exclusive =>
    have hzero := (canAcquire_exclusive ht).mp hc
    by_cases hn : n = name
    · subst hn
      rw [hzero]
      simp
    · rcases List.mem_cons.mp hm with he | hmem
      · exact absurd (congrArg Request.name he).symm hn
      · simp [hn, h name hmem]
  | shared =>
    have hnot := (canAcquire_shared ht).mp hc
    rcases List.mem_cons.mp hm with he | hmem
    · cases he
    · have hn : n ≠ name := by
        rintro rfl
        exact hnot hmem
      simp [hn, h name hmem]

end table

end LockTable
