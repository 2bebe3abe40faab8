import TraceMind.Governance.Hitl
import TraceMind.Foundation.Runs

namespace TraceMind.Governance

def ApprovalRecord.elapsed (r : ApprovalRecord) (now : ℚ) : Bool :=
  decide (0 < r.ttlMs) && decide (r.createdAt + r.ttlMs / 1000 ≤ now)

def ApprovalRecord.live (r : ApprovalRecord) (now : ℚ) : Bool :=
  decide (r.status = .pending) && !r.elapsed now

theorem ApprovalRecord.expired_pending {r : ApprovalRecord} {now : ℚ} (h : r.status = .pending) :
    r.expired now = r.elapsed now := by
  simp only [expired, h, decide_true, Bool.true_and, elapsed]

theorem ApprovalRecord.live_pending {r : ApprovalRecord} {now : ℚ} (h : r.status = .pending) :
    r.live now = !r.expired now := by
  simp only [live, h, decide_true, Bool.true_and, expired_pending h]

inductive HitlCall where
  | submit (a : Submission) (id : Str)
  | decide (id decision actor : Str) (note : Option Str)
  | get (id : Str)
  | pending

structure HitlEvent where
  call : HitlCall
  now : ℚ
  log : List StoreEntry := []
  offset : ℕ := 0

namespace HitlManager

def answered (cfg : HitlConfig) (e : HitlEvent) (m : HitlManager) : HitlManager :=
  match e.call with
  | .submit a id => (m.submit cfg e.log a id e.now).2
  | .decide id decision actor note => (m.decide e.log id decision actor note e.now).2
  | .get id => (m.get e.log id e.now).2
  | .pending => (m.listPending e.log e.now).2

def settle (offset : ℕ) (m : HitlManager) : HitlManager :=
  match m.phase with
  | .idle => m
  | _ => { m with storeOffset := offset, phase := .idle }

def perform (cfg : HitlConfig) (e : HitlEvent) (m : HitlManager) : Option HitlManager :=
  some ((m.answered cfg e).settle e.offset)

def liveAt (m : HitlManager) (now : ℚ) : ℕ := m.pending.entries.countP (fun e => e.2.live now)

def expiredAt (m : HitlManager) (now : ℚ) : ℕ :=
  m.pending.entries.countP (fun e => e.2.expired now)

def ListsLive (m : HitlManager) : Prop :=
  ∀ log now, ∀ r ∈ (m.listPending log now).1, r.status = .pending ∧ r.elapsed now = false

def queueFull : HitlError := .runtimeError "approval queue is full".toList

def CountsLive (cfg : HitlConfig) (e : HitlEvent) (m : HitlManager) : Prop :=
  ∀ a id, e.call = .submit a id → (m.submit cfg e.log a id e.now).1 = .error queueFull →
    cfg.queueSize ≤ (m.syncStore e.log).liveAt e.now

def Timely (cfg : HitlConfig) (e : HitlEvent) (m : HitlManager) : Prop :=
  let m' := m.syncStore e.log
  match e.call with
  | .submit _ _ => cfg.enabled = true → cfg.queueLimit ≠ 0 → cfg.queueLimit ≤ m'.pending.size →
      m'.expiredAt e.now ≤ m'.pending.size - cfg.queueLimit
  | .decide id decision _ _ => ∀ r d, m'.pending.get? id = some r →
      normalizeDecision decision = .ok d → r.expired e.now = false
  | .get id => ∀ r, m'.pending.get? id = some r → r.expired e.now = false
  | .pending => True

end HitlManager

section listing

variable {κ ν : Type} [DecidableEq κ]

theorem get?_foldl_erase (es : List (κ × ν)) (d : OrderedDict κ ν) (k : κ) :
    (es.foldl (fun d e => d.erase e.1) d).get? k =
      if k ∈ es.map Prod.fst then none else d.get? k := by
  induction es generalizing d with
  | nil => rfl
  | cons e es ih =>
    rw [List.foldl_cons, ih, OrderedDict.get?_erase, List.map_cons]
    by_cases hk : k = e.1
    · rw [if_pos hk, if_pos (List.mem_cons.mpr (Or.inl hk)), ite_self]
    · simp only [List.mem_cons, hk, false_or, if_false]

namespace HitlManager

variable {m : HitlManager} {log : List StoreEntry} {now : ℚ} {id : Str} {r : ApprovalRecord}

theorem get?_listPending (m : HitlManager) (log : List StoreEntry) (now : ℚ) (id : Str)
    (r : ApprovalRecord) : (m.listPending log now).2.pending.get? id = some r ↔
      (m.syncStore log).pending.get? id = some r ∧ r.expired now = false := by
  unfold listPending
  dsimp only
  rw [get?_foldl_erase]
  constructor
  · intro h
    split_ifs at h with hmem
    refine ⟨h, Bool.eq_false_iff.mpr (fun hexp => hmem ?_)⟩
    exact List.mem_map.mpr ⟨(id, r), List.mem_filter.mpr ⟨OrderedDict.get?_eq_some.mp h, hexp⟩, rfl⟩
  · rintro ⟨h, hexp⟩
    rw [if_neg, h]
    intro hmem
    obtain ⟨⟨id', r'⟩, hr', rfl⟩ := List.mem_map.mp hmem
    obtain ⟨hentry, hexp'⟩ := List.mem_filter.mp hr'
    rw [OrderedDict.get?_eq_some.mpr hentry] at h
    obtain rfl := Option.some.inj h
    exact absurd (hexp'.symm.trans hexp) (by decide)

theorem mem_listPending : r ∈ (m.listPending log now).1 ↔
    ∃ id, (m.syncStore log).pending.get? id = some r ∧ r.expired now = false := by
  have hlist : (m.listPending log now).1 =
      (m.listPending log now).2.pending.entries.map Prod.snd := rfl
  rw [hlist, List.mem_map]
  constructor
  · rintro ⟨⟨id, r'⟩, hmem, rfl⟩
    exact ⟨id, (get?_listPending ..).mp (OrderedDict.get?_eq_some.mpr hmem)⟩
  · rintro ⟨id, h⟩
    exact ⟨(id, r), OrderedDict.get?_eq_some.mp ((get?_listPending ..).mpr h), rfl⟩

end HitlManager

end listing

section undecided

def Undecided (p : PendingMap) : Prop := ∀ id r, p.get? id = some r → r.status = .pending

variable {p : PendingMap} {id : Str} {r : ApprovalRecord}

theorem Undecided.store (h : Undecided p) (hr : r.status = .pending) :
    Undecided (p.store id r) := by
  intro j r' hj
  rw [OrderedDict.get?_store] at hj
  split_ifs at hj
  · obtain rfl := Option.some.inj hj
    exact hr
  · exact h j r' hj

theorem Undecided.erase (h : Undecided p) : Undecided (p.erase id) := by
  intro j r' hj
  rw [OrderedDict.get?_erase] at hj
  split_ifs at hj
  exact h j r' hj

theorem Undecided.apply (h : Undecided p) (initial : Bool) (e : StoreEntry) :
    Undecided (applyStoreEntry initial p e) := by
  cases e with
  | pending =>
    rw [applyStoreEntry]
    split
    · exact h.store rfl
    · exact h
  | decision => exact h.erase

theorem Undecided.foldl (h : Undecided p) (initial : Bool) (log : List StoreEntry) :
    Undecided (log.foldl (applyStoreEntry initial) p) := by
  induction log generalizing p with
  | nil => exact h
  | cons e log ih => exact ih (h.apply initial e)

namespace HitlManager

variable {cfg : HitlConfig} {e : HitlEvent} {m m' : HitlManager} {log : List StoreEntry} {now : ℚ}

theorem undecided_start (log : List StoreEntry) : Undecided (start log).pending :=
  Undecided.foldl (fun _ _ hr => by cases hr) true log

theorem undecided_sync (h : Undecided m.pending) (log : List StoreEntry) :
    Undecided (m.syncStore log).pending :=
  h.foldl false _

theorem undecided_submit (h : Undecided m.pending) (cfg : HitlConfig) (log : List StoreEntry)
    (a : Submission) (id : Str) (now : ℚ) : Undecided (m.submit cfg log a id now).2.pending := by
  have hsync := undecided_sync h log
  have hstore : Undecided ((m.syncStore log).pending.store id (a.record cfg id now)) :=
    hsync.store rfl
  unfold submit
  dsimp only
  split_ifs
  · exact h
  · exact hsync
  · split
    · exact hstore
    · exact hstore

theorem undecided_decide (h : Undecided m.pending) {decision actor : Str} {note : Option Str}
    (htimely : ∀ r d, (m.syncStore log).pending.get? id = some r →
      normalizeDecision decision = .ok d → r.expired now = false) :
    Undecided (m.decide log id decision actor note now).2.pending := by
  have hsync := undecided_sync h log
  unfold HitlManager.decide
  dsimp only
  split
  · exact hsync
  · rename_i r hr
    split
    · exact hsync
    · split
      · exact hsync
      · rename_i d hd
        rw [htimely r d hr hd]
        exact hsync.erase

theorem undecided_get (h : Undecided m.pending)
    (htimely : ∀ r, (m.syncStore log).pending.get? id = some r → r.expired now = false) :
    Undecided (m.get log id now).2.pending := by
  have hsync := undecided_sync h log
  unfold HitlManager.get
  dsimp only
  split
  · exact hsync
  · rename_i r hr
    rw [htimely r hr]
    exact hsync

theorem undecided_listPending (h : Undecided m.pending) :
    Undecided (m.listPending log now).2.pending := by
  intro id r hr
  exact undecided_sync h log id r ((get?_listPending ..).mp hr).1

theorem pending_settle (offset : ℕ) (m : HitlManager) : (m.settle offset).pending = m.pending := by
  unfold settle
  split <;> rfl

theorem undecided_perform (h : Undecided m.pending) (htimely : Timely cfg e m)
    (hstep : m.perform cfg e = some m') : Undecided m'.pending := by
  obtain rfl := Option.some.inj hstep
  rw [pending_settle]
  unfold Timely at htimely
  unfold answered
  split
  · exact undecided_submit h _ _ _ _ _
  · rename_i hcall
    simp only [hcall] at htimely
    exact undecided_decide h htimely
  · rename_i hcall
    simp only [hcall] at htimely
    exact undecided_get h htimely
  · exact undecided_listPending h

theorem listsLive_iff : ListsLive m ↔ Undecided m.pending := by
  constructor
  · intro h id r hr
    by_contra hne
    have hexp : r.expired 0 = false := by simp [ApprovalRecord.expired, hne]
    exact hne (h [] 0 r (mem_listPending.mpr ⟨id, by simpa [syncStore] using hr, hexp⟩)).1
  · intro h log now r hr
    obtain ⟨id, hget, hexp⟩ := mem_listPending.mp hr
    have hopen := undecided_sync h log id r hget
    exact ⟨hopen, (ApprovalRecord.expired_pending hopen) ▸ hexp⟩

theorem undecided_mem (h : Undecided p) {x : Str × ApprovalRecord} (hx : x ∈ p.entries) :
    x.2.status = .pending :=
  h x.1 x.2 (OrderedDict.get?_eq_some.mpr hx)

theorem liveAt_add_expiredAt (h : Undecided m.pending) (now : ℚ) :
    m.liveAt now + m.expiredAt now = m.pending.size := by
  have hlive : m.liveAt now = m.pending.entries.countP (fun e => !e.2.expired now) :=
    List.countP_congr (fun x hx => by rw [ApprovalRecord.live_pending (undecided_mem h hx)])
  have hsplit := List.length_eq_countP_add_countP (fun x : Str × ApprovalRecord => x.2.expired now)
    (l := m.pending.entries)
  rw [hlive, expiredAt, OrderedDict.size, hsplit, Nat.add_comm]
  simp only [Bool.not_eq_true, Bool.decide_eq_false]

theorem submit_full (cfg : HitlConfig) (log : List StoreEntry) (a : Submission) (id : Str) (now : ℚ)
    (m : HitlManager) : (m.submit cfg log a id now).1 = .error queueFull ↔
      cfg.enabled = true ∧ cfg.queueLimit ≠ 0 ∧ cfg.queueLimit ≤ (m.syncStore log).pending.size := by
  unfold submit
  dsimp only
  split_ifs with henabled hfull
  · have hdistinct : "HITL approvals are disabled".toList ≠ "approval queue is full".toList := by
      decide
    have hoff : cfg.enabled ≠ true := by simpa using henabled
    simp only [queueFull, Except.error.injEq, HitlError.runtimeError.injEq, hdistinct, hoff,
      Bool.false_eq_true, false_and]
  · have hon : cfg.enabled = true := by simpa using henabled
    simp only [queueFull, hon, hfull, and_self, ne_eq, not_false_eq_true]
  · have hopen : ¬(cfg.queueLimit ≠ 0 ∧ cfg.queueLimit ≤ (m.syncStore log).pending.size) := hfull
    split
    · simp [queueFull, hopen]
    · simp [queueFull, hopen]

theorem countsLive_iff (h : Undecided m.pending) {a : Submission} {id : Str}
    (hcall : e.call = .submit a id) : CountsLive cfg e m ↔ Timely cfg e m := by
  have hsum := liveAt_add_expiredAt (undecided_sync h e.log) e.now
  have hcount : cfg.queueSize ≤ ((m.syncStore e.log).liveAt e.now : ℤ) ↔
      cfg.queueLimit ≤ (m.syncStore e.log).liveAt e.now := Int.toNat_le.symm
  unfold CountsLive Timely
  simp only [hcall, HitlCall.submit.injEq, hcount, submit_full]
  constructor
  · intro hlive henabled hlimit hfull
    have hle := hlive a id ⟨rfl, rfl⟩ ⟨henabled, hlimit, hfull⟩
    omega
  · rintro htimely _ _ - ⟨henabled, hlimit, hfull⟩
    have hle := htimely henabled hlimit hfull
    omega

theorem timely_of_undecided (hsubmit : CountsLive cfg e m) (h : Undecided m.pending)
    (hnext : ∀ m', m.perform cfg e = some m' → Undecided m'.pending) : Timely cfg e m := by
  have hafter := hnext _ rfl
  rw [pending_settle] at hafter
  cases hcall : e.call with
  | submit a id => exact (countsLive_iff h hcall).mp hsubmit
  | decide id decision actor note =>
    simp only [Timely, answered, hcall] at hafter ⊢
    intro r d hr hd
    by_contra hexp
    rw [Bool.not_eq_false] at hexp
    have hopen := undecided_sync h e.log id r hr
    have hmark : (m.decide e.log id decision actor note e.now).2.pending.get? id =
        some (decided r .timeout (orElse actor "system".toList) note e.now) := by
      simp [HitlManager.decide, hr, hopen, hd, hexp, OrderedDict.get?_modify]
    cases hafter id _ hmark
  | get id =>
    simp only [Timely, answered, hcall] at hafter ⊢
    intro r hr
    by_contra hexp
    rw [Bool.not_eq_false] at hexp
    have hmark : (m.get e.log id e.now).2.pending.get? id = some (markExpired e.now r) := by
      simp [HitlManager.get, hr, hexp, OrderedDict.get?_modify]
    cases hafter id _ hmark
  | pending => simp only [Timely, hcall]

theorem undecided_after {es : List HitlEvent}
    (htimely : Runs.Throughout (perform cfg) (Timely cfg) es (start log))
    (hafter : Runs.after (perform cfg) es (start log) = some m) : Undecided m.pending :=
  htimely.induct (I := fun _ m => Undecided m.pending) (undecided_start log)
    (fun _ _ _ _ _ he h hstep => undecided_perform h he hstep) hafter

theorem approvals_open_iff_timely (cfg : HitlConfig) (log : List StoreEntry)
    (es : List HitlEvent) :
    Runs.Always (perform cfg) ListsLive es (start log) ∧
        Runs.Throughout (perform cfg) (CountsLive cfg) es (start log) ↔
      Runs.Throughout (perform cfg) (Timely cfg) es (start log) := by
  constructor
  · rintro ⟨hlists, hcounts⟩ before e rest hsplit t ht
    have hopen := listsLive_iff.mp (hlists before (e :: rest) hsplit t ht)
    refine timely_of_undecided (hcounts before e rest hsplit t ht) hopen (fun u hu => ?_)
    exact listsLive_iff.mp (hlists.next before rest hsplit ht hu)
  · intro htimely
    refine ⟨htimely.always (fun before t hbefore ht => ?_), fun before e rest hsplit t ht => ?_⟩
    · exact listsLive_iff.mpr (undecided_after hbefore ht)
    · subst hsplit
      intro a id hcall
      exact (countsLive_iff (undecided_after htimely.of_append ht) hcall).mpr
        (htimely before e rest rfl t ht) a id hcall

def oneSecond : HitlConfig := { enabled := true, queueSize := 1, defaultTtlMs := 1000 }

def request : Submission :=
  { flow := ['f'], step := ['s'], reason := [], requestedBy := [], ttlMs := none,
    default := "deny".toList, actors := [], payload := [] }

def requested (id : Str) (now : ℚ) : HitlEvent := { call := .submit request id, now := now }

def waiting : HitlManager := ((start []).answered oneSecond (requested ['a'] 0)).settle 0

def asked : HitlManager := (waiting.answered oneSecond { call := .get ['a'], now := 2 }).settle 0

theorem asked_listed : ((asked.listPending [] 2).1.map ApprovalRecord.status) =
    [.decided .timeout] := by
  decide +kernel

theorem expired_approval_stays :
    (Runs.after (perform oneSecond) [requested ['a'] 0, { call := .get ['a'], now := 2 }]
        (start []) = some asked ∧ ¬ListsLive asked) ∧
      Runs.after (perform oneSecond) [requested ['a'] 0] (start []) = some waiting ∧
        ¬CountsLive oneSecond (requested ['b'] 2) waiting := by
  refine ⟨⟨rfl, fun h => ?_⟩, rfl, fun h => ?_⟩
  · have hmem : ApprovalStatus.decided .timeout ∈
        (asked.listPending [] 2).1.map ApprovalRecord.status := by
      rw [asked_listed]
      exact List.mem_singleton_self _
    obtain ⟨r, hr, hstatus⟩ := List.mem_map.mp hmem
    exact absurd ((h [] 2 r hr).1.symm.trans hstatus) (by decide)
  · have hlive := h request ['b'] rfl ((submit_full ..).mpr (by decide +kernel))
    exact absurd hlive (by decide +kernel)

end HitlManager

end undecided

end TraceMind.Governance
