import TraceMind.Governance.Hitl
import Mathlib.Data.List.Induction

namespace TraceMind.Governance

open Python

section legal

def StoreEntry.opens : StoreEntry → Option Str
  | .pending id _ _ _ _ _ _ _ _ _ => some id
  | .decision _ _ _ _ _ => none

def StoreEntry.decides : StoreEntry → Option Str
  | .pending _ _ _ _ _ _ _ _ _ _ => none
  | .decision id _ _ _ _ => some id

def openedIds (log : List StoreEntry) : List Str := log.filterMap StoreEntry.opens

def decisions (id : Str) (log : List StoreEntry) : List StoreEntry :=
  log.filter (fun e => e.decides = some id)

structure Legal (log : List StoreEntry) : Prop where
  nodup : (openedIds log).Nodup
  known : ∀ pre e post id, log = pre ++ e :: post → e.decides = some id →
    ((replayStore pre).get? id).isSome = true

variable {log : List StoreEntry} {e : StoreEntry} {id : Str}

theorem replayStore_snoc (log : List StoreEntry) (e : StoreEntry) :
    replayStore (log ++ [e]) = applyStoreEntry true (replayStore log) e := by
  rw [replayStore, List.foldl_append]
  rfl

theorem openedIds_snoc (log : List StoreEntry) (e : StoreEntry) :
    openedIds (log ++ [e]) = openedIds log ++ e.opens.toList := by
  rw [openedIds, List.filterMap_append]
  cases e <;> rfl

theorem applyStoreEntry_get? (p : PendingMap) (e : StoreEntry) (id : Str) :
    ((applyStoreEntry true p e).get? id).isSome = true ↔
      e.opens = some id ∨ (e.decides ≠ some id ∧ (p.get? id).isSome = true) := by
  cases e with
  | pending x =>
    rw [applyStoreEntry, Bool.true_or, if_pos rfl, OrderedDict.get?_store]
    by_cases hx : id = x
    · simp [StoreEntry.opens, hx]
    · simp [StoreEntry.opens, StoreEntry.decides, hx, Ne.symm hx]
  | decision x =>
    rw [applyStoreEntry, OrderedDict.get?_erase]
    by_cases hx : id = x
    · simp [StoreEntry.opens, StoreEntry.decides, hx]
    · simp [StoreEntry.opens, StoreEntry.decides, hx, Ne.symm hx]

theorem replayStore_opened (h : ((replayStore log).get? id).isSome = true) :
    id ∈ openedIds log := by
  induction log using List.reverseRecOn with
  | nil => cases h
  | append_singleton log e ih =>
    rw [replayStore_snoc, applyStoreEntry_get?] at h
    rw [openedIds_snoc, List.mem_append, Option.mem_toList]
    rcases h with h | ⟨-, h⟩
    · exact Or.inr h
    · exact Or.inl (ih h)

theorem Legal.init (h : Legal (log ++ [e])) : Legal log := by
  refine ⟨?_, fun pre x post id hsplit hx => h.known pre x (post ++ [e]) id ?_ hx⟩
  · have hd := h.nodup
    rw [openedIds_snoc] at hd
    exact (List.nodup_append.mp hd).1
  · rw [hsplit, List.append_assoc]
    rfl

theorem Legal.snoc (h : Legal log) (hopen : ∀ id, e.opens = some id → id ∉ openedIds log)
    (hknown : ∀ id, e.decides = some id → ((replayStore log).get? id).isSome = true) :
    Legal (log ++ [e]) := by
  refine ⟨?_, fun pre x post id hsplit hx => ?_⟩
  · rw [openedIds_snoc, List.nodup_append]
    refine ⟨h.nodup, by cases e.opens <;> simp, fun a ha b hb hab => ?_⟩
    exact hopen b (Option.mem_toList.mp hb) (hab ▸ ha)
  · rcases List.eq_nil_or_concat post with rfl | ⟨post', y, rfl⟩
    · obtain ⟨rfl, hxe⟩ := List.append_inj' hsplit rfl
      obtain rfl := (List.cons.inj hxe).1
      exact hknown id hx
    · rw [List.concat_eq_append, ← List.cons_append, ← List.append_assoc] at hsplit
      obtain ⟨hlog, -⟩ := List.append_inj' hsplit rfl
      exact h.known pre x post' id hlog hx

theorem Legal.closed (h : Legal log) (hdec : decisions id log ≠ []) :
    (replayStore log).get? id = none := by
  induction log using List.reverseRecOn with
  | nil => exact absurd rfl hdec
  | append_singleton log e ih =>
    rw [← Option.not_isSome_iff_eq_none, replayStore_snoc, applyStoreEntry_get?, not_or, not_and]
    have hold : decisions id log ≠ [] → (replayStore log).get? id = none ∧ id ∈ openedIds log := by
      intro hne
      obtain ⟨x, hx⟩ := List.exists_mem_of_ne_nil _ hne
      obtain ⟨hmem, hdecides⟩ := List.mem_filter.mp hx
      obtain ⟨pre, post, hsplit⟩ := List.append_of_mem hmem
      have hopened := replayStore_opened
        (h.init.known pre x post id hsplit (of_decide_eq_true hdecides))
      refine ⟨ih h.init hne, ?_⟩
      rw [hsplit, openedIds, List.filterMap_append]
      exact List.mem_append_left _ hopened
    refine ⟨fun hopens => ?_, fun hnot hsome => ?_⟩
    · have hne : decisions id log ≠ [] := by
        intro hnil
        rw [decisions, List.filter_append, show log.filter _ = [] from hnil] at hdec
        cases e with
        | pending x => exact hdec rfl
        | decision x => cases hopens
      have hd := h.nodup
      rw [openedIds_snoc] at hd
      exact (List.nodup_append.mp hd).2.2 _ (hold hne).2 id (Option.mem_toList.mpr hopens) rfl
    · have hne : decisions id log ≠ [] := by
        intro hnil
        rw [decisions, List.filter_append, show log.filter _ = [] from hnil] at hdec
        simp [hnot] at hdec
      rw [(hold hne).1] at hsome
      cases hsome

theorem Legal.decided_once (h : Legal log) (id : Str) : (decisions id log).length ≤ 1 := by
  induction log using List.reverseRecOn with
  | nil => exact Nat.zero_le 1
  | append_singleton log e ih =>
    rw [decisions, List.filter_append, List.length_append]
    by_cases he : e.decides = some id
    · have hnone : decisions id log = [] := by
        by_contra hne
        have hsome := h.known log e [] id rfl he
        rw [h.init.closed hne] at hsome
        cases hsome
      rw [show log.filter _ = [] from hnone]
      simp [he]
    · simp only [he, decide_false, List.filter_singleton, cond_false, List.length_nil, Nat.add_zero]
      exact ih h.init

theorem follow_replay (rest : List StoreEntry) : ∀ {pre : List StoreEntry},
    (openedIds (pre ++ rest)).Nodup →
    rest.foldl (applyStoreEntry false) (replayStore pre) = replayStore (pre ++ rest) := by
  induction rest with
  | nil =>
    intro pre _
    rw [List.append_nil]
    rfl
  | cons e rest ih =>
    intro pre hd
    rw [List.append_cons] at hd ⊢
    have hfirst : applyStoreEntry false (replayStore pre) e =
        applyStoreEntry true (replayStore pre) e := by
      cases e with
      | decision x => rfl
      | pending x =>
        have hnew : ((replayStore pre).get? x).isNone = true := by
          by_contra hsome
          rw [Option.isNone_iff_eq_none, ← Option.not_isSome_iff_eq_none, not_not] at hsome
          rw [openedIds, List.filterMap_append, List.filterMap_append] at hd
          exact (List.nodup_append.mp (List.nodup_append.mp hd).1).2.2 x
            (replayStore_opened hsome) x (by simp [StoreEntry.opens]) rfl
        rw [applyStoreEntry, applyStoreEntry, hnew]
        rfl
    rw [List.foldl_cons, hfirst, ← replayStore_snoc]
    exact ih hd

theorem Legal.follow (h : Legal log) (k : ℕ) :
    (log.drop k).foldl (applyStoreEntry false) (replayStore (log.take k)) = replayStore log := by
  have hsplit := List.take_append_drop k log
  rw [follow_replay (log.drop k) (by rw [hsplit]; exact h.nodup), hsplit]

end legal

section coherent

def Tracks (log : List StoreEntry) (m : HitlManager) : Prop :=
  match m.phase with
  | .idle => m.storeOffset ≤ log.length ∧ m.pending = replayStore (log.take m.storeOffset)
  | .appending e => m.storeOffset ≤ log.length ∧
      m.pending = applyStoreEntry true (replayStore (log.take m.storeOffset)) e ∧
      ∀ id, e.decides = some id →
        ((replayStore (log.take m.storeOffset)).get? id).isSome = true
  | .appended => m.storeOffset < log.length ∧
      m.pending = replayStore (log.take (m.storeOffset + 1))

structure Coherent (s : SharedHitl) : Prop where
  legal : Legal s.log
  tracks : ∀ i, Tracks s.log (s.managers i)
  issued : ∀ id ∈ openedIds s.log, id ∈ s.issued
  flight : ∀ i e id, (s.managers i).phase = .appending e → e.opens = some id →
    id ∈ s.issued ∧ id ∉ openedIds s.log
  apart : ∀ i j e e' id, (s.managers i).phase = .appending e → (s.managers j).phase = .appending e' →
    e.opens = some id → e'.opens = some id → i = j

def NoExpiry (s : SharedHitl) (i : ℕ) (now : ℚ) : Prop :=
  ∀ e ∈ ((s.managers i).syncStore s.log).pending.entries, e.2.expired now = false

def Admissible (s : SharedHitl) : HitlAction → Prop
  | .start _ => True
  | .submit _ _ id _ => id ∉ s.issued
  | .decide i _ _ _ _ now => NoExpiry s i now
  | .get i _ now => NoExpiry s i now
  | .pending i now => NoExpiry s i now
  | .append _ => True
  | .measure _ => True

instance (s : SharedHitl) (i : ℕ) (now : ℚ) : Decidable (NoExpiry s i now) :=
  inferInstanceAs (Decidable (∀ e ∈ _, _))

instance (s : SharedHitl) : ∀ a, Decidable (Admissible s a)
  | .start _ => isTrue trivial
  | .submit _ _ id _ => inferInstanceAs (Decidable (id ∉ s.issued))
  | .decide i _ _ _ _ now => inferInstanceAs (Decidable (NoExpiry s i now))
  | .get i _ now => inferInstanceAs (Decidable (NoExpiry s i now))
  | .pending i now => inferInstanceAs (Decidable (NoExpiry s i now))
  | .append _ => isTrue trivial
  | .measure _ => isTrue trivial

def Phase.isAppending : Phase → Bool
  | .appending _ => true
  | _ => false

def Phase.isAppended : Phase → Bool
  | .appended => true
  | _ => false

def Undisturbed (s : SharedHitl) : HitlAction → Prop
  | .submit _ a _ _ => (toJsonFields a.payload).isSome = true
  | .append i => (s.managers i).phase.isAppending = true →
      s.log.length = (s.managers i).storeOffset
  | .measure i => (s.managers i).phase.isAppended = true →
      s.log.length = (s.managers i).storeOffset + 1
  | _ => True

instance (s : SharedHitl) : ∀ a, Decidable (Undisturbed s a)
  | .start _ => isTrue trivial
  | .submit _ a _ _ => inferInstanceAs (Decidable ((toJsonFields a.payload).isSome = true))
  | .decide _ _ _ _ _ _ => isTrue trivial
  | .get _ _ _ => isTrue trivial
  | .pending _ _ => isTrue trivial
  | .append i => inferInstanceAs (Decidable (_ = true → _ = (s.managers i).storeOffset))
  | .measure i => inferInstanceAs (Decidable (_ = true → _ = (s.managers i).storeOffset + 1))

variable {s : SharedHitl} {i : ℕ} {m : HitlManager}

theorem tracks_idle {log : List StoreEntry} (hp : m.phase = .idle) :
    Tracks log m ↔ m.storeOffset ≤ log.length ∧
      m.pending = replayStore (log.take m.storeOffset) := by
  rw [Tracks, hp]

theorem tracks_appending {log : List StoreEntry} {e : StoreEntry} (hp : m.phase = .appending e) :
    Tracks log m ↔ m.storeOffset ≤ log.length ∧
      m.pending = applyStoreEntry true (replayStore (log.take m.storeOffset)) e ∧
      ∀ id, e.decides = some id →
        ((replayStore (log.take m.storeOffset)).get? id).isSome = true := by
  rw [Tracks, hp]

theorem tracks_appended {log : List StoreEntry} (hp : m.phase = .appended) :
    Tracks log m ↔ m.storeOffset < log.length ∧
      m.pending = replayStore (log.take (m.storeOffset + 1)) := by
  rw [Tracks, hp]

theorem Tracks.snoc {log : List StoreEntry} (h : Tracks log m) (e : StoreEntry) :
    Tracks (log ++ [e]) m := by
  have hlen : (log ++ [e]).length = log.length + 1 := List.length_append
  cases hp : m.phase with
  | idle =>
    rw [tracks_idle hp] at h ⊢
    rw [List.take_append_of_le_length h.1]
    exact ⟨by omega, h.2⟩
  | appending x =>
    rw [tracks_appending hp] at h ⊢
    rw [List.take_append_of_le_length h.1]
    exact ⟨by omega, h.2⟩
  | appended =>
    rw [tracks_appended hp] at h ⊢
    rw [List.take_append_of_le_length (Nat.succ_le_of_lt h.1)]
    exact ⟨by omega, h.2⟩

theorem Coherent.sync (h : Coherent s) (hp : (s.managers i).phase = .idle) :
    ((s.managers i).syncStore s.log).pending = replayStore s.log := by
  have ht := (tracks_idle hp).mp (h.tracks i)
  rw [HitlManager.syncStore, ht.2]
  exact h.legal.follow _

theorem put_self : (s.put i m).managers i = m := Function.update_self ..

theorem put_ne {j : ℕ} (hj : j ≠ i) : (s.put i m).managers j = s.managers j :=
  Function.update_of_ne hj _ _

theorem Coherent.put (h : Coherent s) (ht : Tracks s.log m)
    (hopen : ∀ e, m.phase = .appending e → e.opens = none) : Coherent (s.put i m) := by
  refine ⟨h.legal, fun j => ?_, h.issued, fun j e id hp he => ?_, fun j k e e' id hj hk he he' => ?_⟩
  · by_cases hj : j = i
    · rw [hj, put_self]
      exact ht
    · rw [put_ne hj]
      exact h.tracks j
  · by_cases hj : j = i
    · rw [hj, put_self] at hp
      rw [hopen e hp] at he
      cases he
    · rw [put_ne hj] at hp
      exact h.flight j e id hp he
  · by_cases hji : j = i
    · rw [hji, put_self] at hj
      rw [hopen e hj] at he
      cases he
    · by_cases hki : k = i
      · rw [hki, put_self] at hk
        rw [hopen e' hk] at he'
        cases he'
      · rw [put_ne hji] at hj
        rw [put_ne hki] at hk
        exact h.apart j k e e' id hj hk he he'

theorem Coherent.issue (h : Coherent s) (id : Str) :
    Coherent { s with issued := id :: s.issued } :=
  ⟨h.legal, h.tracks, fun x hx => List.mem_cons_of_mem _ (h.issued x hx),
    fun j e x hp he => ⟨List.mem_cons_of_mem _ (h.flight j e x hp he).1, (h.flight j e x hp he).2⟩,
    h.apart⟩

theorem Coherent.launch (h : Coherent s) {e : StoreEntry} {id : Str} (ht : Tracks s.log m)
    (hp : m.phase = .appending e) (he : e.opens = some id) (hnew : id ∉ s.issued) :
    Coherent { s.put i m with issued := id :: s.issued } := by
  have hid : ∀ x e', m.phase = .appending e' → e'.opens = some x → x = id := by
    intro x e' hp' he'
    rw [hp] at hp'
    cases hp'
    exact Option.some.inj (he'.symm.trans he)
  refine ⟨h.legal, fun j => ?_, fun x hx => List.mem_cons_of_mem _ (h.issued x hx),
    fun j e' x hj hx => ?_, fun j k e' e'' x hj hk hx hx' => ?_⟩
  · show Tracks s.log ((s.put i m).managers j)
    by_cases hji : j = i
    · rw [hji, put_self]
      exact ht
    · rw [put_ne hji]
      exact h.tracks j
  · change ((s.put i m).managers j).phase = _ at hj
    by_cases hji : j = i
    · rw [hji, put_self] at hj
      rw [hid x e' hj hx]
      exact ⟨List.mem_cons_self, fun hm => hnew (h.issued id hm)⟩
    · rw [put_ne hji] at hj
      exact ⟨List.mem_cons_of_mem _ (h.flight j e' x hj hx).1, (h.flight j e' x hj hx).2⟩
  · change ((s.put i m).managers j).phase = _ at hj
    change ((s.put i m).managers k).phase = _ at hk
    by_cases hji : j = i
    · by_cases hki : k = i
      · rw [hji, hki]
      · rw [hji, put_self] at hj
        rw [put_ne hki] at hk
        exact absurd (hid x e' hj hx ▸ (h.flight k e'' x hk hx').1) hnew
    · rw [put_ne hji] at hj
      by_cases hki : k = i
      · rw [hki, put_self] at hk
        exact absurd (hid x e'' hk hx' ▸ (h.flight j e' x hj hx).1) hnew
      · rw [put_ne hki] at hk
        exact h.apart j k e' e'' x hj hk hx hx'

theorem Coherent.sync_tracks (h : Coherent s) (hp : (s.managers i).phase = .idle) :
    Tracks s.log ((s.managers i).syncStore s.log) := by
  rw [tracks_idle (show ((s.managers i).syncStore s.log).phase = .idle from hp)]
  refine ⟨le_refl _, (h.sync hp).trans ?_⟩
  rw [show ((s.managers i).syncStore s.log).storeOffset = s.log.length from rfl, List.take_length]

theorem Coherent.put_sync (h : Coherent s) (hp : (s.managers i).phase = .idle) :
    Coherent (s.put i ((s.managers i).syncStore s.log)) := by
  refine h.put (h.sync_tracks hp) (fun e he => ?_)
  rw [show ((s.managers i).syncStore s.log).phase = .idle from hp] at he
  cases he

theorem put_same (s : SharedHitl) (i : ℕ) : s.put i (s.managers i) = s := by
  rw [SharedHitl.put, Function.update_eq_self]

theorem call_idle (f : HitlManager → HitlManager) (hp : (s.managers i).phase = .idle) :
    s.call i f = s.put i (f (s.managers i)) := by
  rw [SharedHitl.call, hp]

theorem call_busy (f : HitlManager → HitlManager) (hp : (s.managers i).phase ≠ .idle) :
    s.call i f = s := by
  rw [SharedHitl.call]
  split
  · rename_i h
    exact absurd h hp
  · rfl

theorem record_entry (a : Submission) (cfg : HitlConfig) (id : Str) (now : ℚ) (p : PendingMap)
    {payload : List (Str × Json)} (hpay : toJsonFields a.payload = some payload) :
    applyStoreEntry true p ((a.record cfg id now).entry payload) =
      p.store id (a.record cfg id now) := by
  have hdefault : (if (a.record cfg id now).defaultDecision = .approve then ApprovalDecision.approve
      else .deny) = (a.record cfg id now).defaultDecision := by
    rw [Submission.record]
    dsimp only
    by_cases hd : lower a.default = "approve".toList
    · rw [if_pos hd]
      rfl
    · rw [if_neg hd]
      rfl
  have hactors : (a.record cfg id now).actors.filter (fun s => !s.isEmpty) =
      (a.record cfg id now).actors := by
    rw [Submission.record]
    simp [List.filter_filter]
  rw [ApprovalRecord.entry, applyStoreEntry, Bool.true_or, if_pos rfl, hdefault, hactors,
    ofJsonFields_toJson hpay]
  rfl

end coherent

section steps

variable {s : SharedHitl} {cfg : ℕ → HitlConfig}

theorem submit_cases (c : HitlConfig) (log : List StoreEntry) (a : Submission) (id : Str) (now : ℚ)
    (m : HitlManager) {payload : List (Str × Json)}
    (hpay : toJsonFields a.payload = some payload) :
    (m.submit c log a id now).2 = m ∨ (m.submit c log a id now).2 = m.syncStore log ∨
      (m.submit c log a id now).2 =
        { m.syncStore log with
          pending := (m.syncStore log).pending.store id (a.record c id now)
          phase := .appending ((a.record c id now).entry payload) } := by
  by_cases he : c.enabled = true
  · by_cases hfull : c.queueLimit ≠ 0 ∧ c.queueLimit ≤ (m.syncStore log).pending.size
    · have hm : (m.submit c log a id now).2 = m.syncStore log := by
        simp only [HitlManager.submit, he, Bool.not_true, Bool.false_eq_true, if_false,
          if_pos hfull]
      exact Or.inr (Or.inl hm)
    · refine Or.inr (Or.inr ?_)
      simp only [HitlManager.submit, he, Bool.not_true, Bool.false_eq_true, if_false,
        if_neg hfull, hpay]
  · have hm : (m.submit c log a id now).2 = m := by
      simp only [HitlManager.submit, he, Bool.not_false, if_true]
    exact Or.inl hm

theorem decide_cases (log : List StoreEntry) (id decision actor : Str) (note : Option Str) (now : ℚ)
    (m : HitlManager)
    (hexp : ∀ r, (m.syncStore log).pending.get? id = some r → r.expired now = false) :
    (m.decide log id decision actor note now).2 = m.syncStore log ∨
      ∃ d actor', ((m.syncStore log).pending.get? id).isSome = true ∧
        (m.decide log id decision actor note now).2 =
          { m.syncStore log with
            pending := (m.syncStore log).pending.erase id
            phase := .appending (.decision id d actor' note now) } := by
  cases hr : (m.syncStore log).pending.get? id with
  | none =>
    refine Or.inl ?_
    simp only [HitlManager.decide, hr]
  | some r =>
    by_cases hst : r.status = .pending
    · cases hd : normalizeDecision decision with
      | error e =>
        refine Or.inl ?_
        simp only [HitlManager.decide, hr, hst, ne_eq, not_true_eq_false, if_false, hd]
      | ok d =>
        refine Or.inr ⟨d, HitlManager.orElse actor "unknown".toList, rfl, ?_⟩
        simp only [HitlManager.decide, hr, hst, ne_eq, not_true_eq_false, if_false, hd,
          hexp r hr, Bool.false_eq_true]
    · refine Or.inl ?_
      simp only [HitlManager.decide, hr, ne_eq, hst, not_false_eq_true, if_true]

theorem submit_coherent (h : Coherent s) (i : ℕ) (a : Submission) {id : Str} (now : ℚ)
    (hnew : id ∉ s.issued) (hpay : (toJsonFields a.payload).isSome = true) :
    Coherent (SharedHitl.step cfg (.submit i a id now) s) := by
  rw [SharedHitl.step]
  by_cases hp : (s.managers i).phase = .idle
  · rw [call_idle _ hp]
    obtain ⟨payload, hpayload⟩ := Option.isSome_iff_exists.mp hpay
    rcases submit_cases (cfg i) s.log a id now (s.managers i) hpayload with hm | hm | hm
    · rw [hm, put_same]
      exact h.issue id
    · rw [hm]
      exact (h.put_sync hp).issue id
    · rw [hm]
      refine h.launch ?_ rfl rfl hnew
      rw [tracks_appending rfl]
      refine ⟨le_refl _, ?_, fun x hx => by cases hx⟩
      show ((s.managers i).syncStore s.log).pending.store id (a.record (cfg i) id now) =
        applyStoreEntry true (replayStore (s.log.take s.log.length)) _
      rw [h.sync hp, List.take_length, record_entry a (cfg i) id now _ hpayload]
  · rw [call_busy _ hp]
    exact h.issue id

theorem decide_coherent (h : Coherent s) (i : ℕ) (id decision actor : Str) (note : Option Str)
    {now : ℚ} (hexp : NoExpiry s i now) :
    Coherent (SharedHitl.step cfg (.decide i id decision actor note now) s) := by
  rw [SharedHitl.step]
  by_cases hp : (s.managers i).phase = .idle
  · rw [call_idle _ hp]
    rcases decide_cases s.log id decision actor note now (s.managers i)
        (fun r hr => hexp (id, r) (OrderedDict.get?_eq_some.mp hr)) with hm | ⟨d, actor', hr, hm⟩
    · rw [hm]
      exact h.put_sync hp
    · rw [hm]
      refine h.put ?_ (fun e he => ?_)
      · rw [tracks_appending rfl]
        refine ⟨le_refl _, ?_, fun x hx => ?_⟩
        · show ((s.managers i).syncStore s.log).pending.erase id =
            (replayStore (s.log.take s.log.length)).erase id
          rw [h.sync hp, List.take_length]
        · cases hx
          show ((replayStore (s.log.take s.log.length)).get? id).isSome = true
          rw [List.take_length, ← h.sync hp]
          exact hr
      · cases he
        rfl
  · rw [call_busy _ hp]
    exact h

theorem get_coherent (h : Coherent s) (i : ℕ) (id : Str) {now : ℚ} (hexp : NoExpiry s i now) :
    Coherent (SharedHitl.step cfg (.get i id now) s) := by
  rw [SharedHitl.step]
  by_cases hp : (s.managers i).phase = .idle
  · rw [call_idle _ hp, HitlManager.get]
    cases hr : ((s.managers i).syncStore s.log).pending.get? id with
    | none => exact h.put_sync hp
    | some r =>
      have hlive : r.expired now = false := hexp (id, r) (OrderedDict.get?_eq_some.mp hr)
      simp only [hlive, Bool.false_eq_true, if_false]
      exact h.put_sync hp
  · rw [call_busy _ hp]
    exact h

theorem pending_coherent (h : Coherent s) (i : ℕ) {now : ℚ} (hexp : NoExpiry s i now) :
    Coherent (SharedHitl.step cfg (.pending i now) s) := by
  rw [SharedHitl.step]
  by_cases hp : (s.managers i).phase = .idle
  · have hnone : ((s.managers i).syncStore s.log).pending.entries.filter
        (fun e => e.2.expired now) = [] :=
      List.filter_eq_nil_iff.mpr (fun e he => by rw [hexp e he]; exact Bool.false_ne_true)
    have hsame : ((s.managers i).listPending s.log now).2 = (s.managers i).syncStore s.log := by
      rw [HitlManager.listPending]
      dsimp only
      rw [hnone]
      rfl
    rw [call_idle _ hp, hsame]
    exact h.put_sync hp
  · rw [call_busy _ hp]
    exact h

theorem append_coherent (h : Coherent s) (i : ℕ)
    (hlen : (s.managers i).phase.isAppending = true →
      s.log.length = (s.managers i).storeOffset) :
    Coherent (SharedHitl.step cfg (.append i) s) := by
  rw [SharedHitl.step]
  cases hp : (s.managers i).phase with
  | idle => exact h
  | appended => exact h
  | appending e =>
    have hoff := hlen (by rw [hp]; rfl)
    obtain ⟨-, hpending, hknown⟩ := (tracks_appending hp).mp (h.tracks i)
    rw [← hoff, List.take_length] at hpending hknown
    have hne : ∀ (j : ℕ) (e' : StoreEntry) (x : Str), j ≠ i →
        (s.managers j).phase = .appending e' → e'.opens = some x → e.opens ≠ some x :=
      fun j e' x hj hpj hx hex => hj (h.apart j i e' e x hpj hp hx hex)
    refine ⟨h.legal.snoc (fun x hx => (h.flight i e x hp hx).2) hknown, fun j => ?_,
      fun x hx => ?_, fun j e' x hj hx => ?_, fun j k e' e'' x hj hk hx hx' => ?_⟩
    · show Tracks (s.log ++ [e]) ((s.put i { s.managers i with phase := .appended }).managers j)
      by_cases hji : j = i
      · rw [hji, put_self, tracks_appended rfl]
        show (s.managers i).storeOffset < (s.log ++ [e]).length ∧
          (s.managers i).pending = replayStore ((s.log ++ [e]).take ((s.managers i).storeOffset + 1))
        have hall : (s.managers i).storeOffset + 1 = (s.log ++ [e]).length := by
          rw [List.length_append, ← hoff]
          rfl
        rw [hall, List.take_length, replayStore_snoc]
        exact ⟨by omega, hpending⟩
      · rw [put_ne hji]
        exact (h.tracks j).snoc e
    · change x ∈ openedIds (s.log ++ [e]) at hx
      rw [openedIds_snoc, List.mem_append, Option.mem_toList] at hx
      rcases hx with hx | hx
      · exact h.issued x hx
      · exact (h.flight i e x hp hx).1
    · change ((s.put i { s.managers i with phase := .appended }).managers j).phase = _ at hj
      by_cases hji : j = i
      · rw [hji, put_self] at hj
        cases hj
      · rw [put_ne hji] at hj
        obtain ⟨hissued, hnot⟩ := h.flight j e' x hj hx
        refine ⟨hissued, ?_⟩
        show x ∉ openedIds (s.log ++ [e])
        rw [openedIds_snoc, List.mem_append, Option.mem_toList, not_or]
        exact ⟨hnot, hne j e' x hji hj hx⟩
    · change ((s.put i { s.managers i with phase := .appended }).managers j).phase = _ at hj
      change ((s.put i { s.managers i with phase := .appended }).managers k).phase = _ at hk
      by_cases hji : j = i
      · rw [hji, put_self] at hj
        cases hj
      · by_cases hki : k = i
        · rw [hki, put_self] at hk
          cases hk
        · rw [put_ne hji] at hj
          rw [put_ne hki] at hk
          exact h.apart j k e' e'' x hj hk hx hx'

theorem measure_coherent (h : Coherent s) (i : ℕ)
    (hlen : (s.managers i).phase.isAppended = true →
      s.log.length = (s.managers i).storeOffset + 1) :
    Coherent (SharedHitl.step cfg (.measure i) s) := by
  rw [SharedHitl.step]
  cases hp : (s.managers i).phase with
  | idle => exact h
  | appending e => exact h
  | appended =>
    refine h.put ?_ (fun e he => by cases he)
    have ht := (tracks_appended hp).mp (h.tracks i)
    rw [tracks_idle rfl]
    refine ⟨le_refl _, ht.2.trans ?_⟩
    rw [← hlen (by rw [hp]; rfl)]

theorem step_coherent (h : Coherent s) {a : HitlAction} (had : Admissible s a)
    (hun : Undisturbed s a) : Coherent (SharedHitl.step cfg a s) := by
  cases a with
  | start i =>
    refine h.put ?_ (fun e he => by cases he)
    rw [tracks_idle rfl]
    refine ⟨le_refl _, ?_⟩
    rw [HitlManager.start, List.take_length]
  | submit i a id now => exact submit_coherent h i a now had hun
  | decide i id decision actor note now => exact decide_coherent h i id decision actor note had
  | get i id now => exact get_coherent h i id had
  | pending i now => exact pending_coherent h i had
  | append i => exact append_coherent h i hun
  | measure i => exact measure_coherent h i hun

def Orderly (cfg : ℕ → HitlConfig) : List HitlAction → SharedHitl → Prop
  | [], _ => True
  | a :: as, s => Admissible s a ∧ Undisturbed s a ∧ Orderly cfg as (SharedHitl.step cfg a s)

instance (cfg : ℕ → HitlConfig) : ∀ actions s, Decidable (Orderly cfg actions s)
  | [], _ => isTrue trivial
  | a :: as, s =>
    have := instDecidableOrderly cfg as (SharedHitl.step cfg a s)
    inferInstanceAs (Decidable (Admissible s a ∧ Undisturbed s a ∧ Orderly cfg as _))

theorem run_coherent (actions : List HitlAction) : ∀ {s : SharedHitl}, Coherent s →
    Orderly cfg actions s → Coherent (SharedHitl.run cfg actions s) := by
  induction actions with
  | nil => exact fun h _ => h
  | cons a actions ih =>
    rintro s h ⟨had, hun, hrest⟩
    exact ih (step_coherent h had hun) hrest

theorem coherent_empty : Coherent {} where
  legal := ⟨List.nodup_nil, fun pre e post id h => by simp at h⟩
  tracks _ := ⟨le_refl _, rfl⟩
  issued _ h := by cases h
  flight _ _ _ h := by cases h
  apart _ _ _ _ _ h := by cases h

theorem shared_log_agreement (cfg : ℕ → HitlConfig) (actions : List HitlAction)
    (h : Orderly cfg actions {}) :
    (∀ i, ((SharedHitl.run cfg actions {}).managers i).phase = .idle →
      (((SharedHitl.run cfg actions {}).managers i).syncStore
        (SharedHitl.run cfg actions {}).log).pending =
          replayStore (SharedHitl.run cfg actions {}).log) ∧
    ∀ id, (decisions id (SharedHitl.run cfg actions {}).log).length ≤ 1 := by
  have hrun := run_coherent actions coherent_empty h
  exact ⟨fun i hi => hrun.sync hi, fun id => hrun.legal.decided_once id⟩

end steps

def demoHitl (_ : ℕ) : HitlConfig := ⟨true, 0, 0⟩

def demoRequest : Submission := ⟨[], [], [], [], none, "deny".toList, [], []⟩

def demoTurns : List HitlAction :=
  [.submit 0 demoRequest "a".toList 0, .append 0, .measure 0,
    .decide 1 "a".toList "approve".toList [] none 0, .append 1, .measure 1]

theorem shared_log_agreement_demo :
    Orderly demoHitl demoTurns {} ∧
      (((SharedHitl.run demoHitl demoTurns {}).managers 0).syncStore
        (SharedHitl.run demoHitl demoTurns {}).log).pending =
          replayStore (SharedHitl.run demoHitl demoTurns {}).log ∧
      (decisions "a".toList (SharedHitl.run demoHitl demoTurns {}).log).length ≤ 1 := by
  have h : Orderly demoHitl demoTurns {} := by decide +kernel
  have hall := shared_log_agreement demoHitl demoTurns h
  exact ⟨h, hall.1 0 rfl, hall.2 _⟩

def demoSkip : List HitlAction :=
  [.submit 0 demoRequest "a".toList 0, .submit 1 demoRequest "b".toList 0, .append 1, .measure 1,
    .append 0, .measure 0]

def demoTwice : List HitlAction :=
  [.submit 0 demoRequest "a".toList 0, .append 0, .measure 0,
    .decide 0 "a".toList "approve".toList [] none 0, .decide 1 "a".toList "deny".toList [] none 0,
    .append 0, .measure 0, .append 1, .measure 1]

theorem shared_log_disagreement :
    ((((SharedHitl.run demoHitl demoSkip {}).managers 0).syncStore
        (SharedHitl.run demoHitl demoSkip {}).log).pending.size = 1 ∧
      (replayStore (SharedHitl.run demoHitl demoSkip {}).log).size = 2) ∧
    (decisions "a".toList (SharedHitl.run demoHitl demoTwice {}).log).length = 2 := by
  decide +kernel

end TraceMind.Governance
