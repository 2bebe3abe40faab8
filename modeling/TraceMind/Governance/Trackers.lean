import TraceMind.Foundation.Counting
import TraceMind.Governance.Base
import Mathlib.Algebra.Order.Ring.Rat
import Mathlib.Algebra.BigOperators.Group.List.Basic

namespace TraceMind.Governance

structure RollingWindow where
  window : ℚ
  entries : List (ℚ × ℚ) := []
  total : ℚ := 0

namespace RollingWindow

def new (windowSec : ℚ) : RollingWindow := { window := max windowSec 0 }

def pruneEntries (cutoff : ℚ) : List (ℚ × ℚ) → ℚ → List (ℚ × ℚ) × ℚ
  | [], total => ([], total)
  | e :: es, total =>
    if e.1 ≤ cutoff then pruneEntries cutoff es (total - e.2) else (e :: es, total)

def prune (currentTs : ℚ) (w : RollingWindow) : RollingWindow :=
  let p := pruneEntries (currentTs - w.window) w.entries w.total
  { w with entries := p.1, total := p.2 }

def observe (value timestamp : ℚ) (w : RollingWindow) : RollingWindow :=
  if w.window ≤ 0 then w
  else
    let w := w.prune timestamp
    { w with entries := w.entries ++ [(timestamp, value)], total := w.total + value }

def totalAt (timestamp : ℚ) (w : RollingWindow) : ℚ × RollingWindow :=
  if w.window ≤ 0 then (0, w)
  else
    let w := w.prune timestamp
    (w.total, w)

def reset (w : RollingWindow) : RollingWindow := { w with entries := [], total := 0 }

section sums

theorem pruneEntries_fst (cutoff : ℚ) (es : List (ℚ × ℚ)) (total : ℚ) :
    (pruneEntries cutoff es total).1 = es.dropWhile (fun e => decide (e.1 ≤ cutoff)) := by
  induction es generalizing total with
  | nil => rfl
  | cons e es ih =>
    rw [pruneEntries, List.dropWhile_cons]
    split_ifs with h hd hd
    · exact ih _
    · exact absurd (decide_eq_true h) hd
    · exact absurd (of_decide_eq_true hd) h
    · rfl

theorem pruneEntries_snd (cutoff : ℚ) (es : List (ℚ × ℚ)) :
    (pruneEntries cutoff es (es.map Prod.snd).sum).2 =
      ((pruneEntries cutoff es (es.map Prod.snd).sum).1.map Prod.snd).sum := by
  induction es with
  | nil => rfl
  | cons e es ih =>
    have htail : (List.map Prod.snd (e :: es)).sum - e.2 = (es.map Prod.snd).sum := by
      rw [List.map_cons, List.sum_cons, add_sub_cancel_left]
    rw [pruneEntries]
    split_ifs
    · rw [htail]
      exact ih
    · rfl

theorem dropWhile_eq_filter {cutoff : ℚ} {es : List (ℚ × ℚ)}
    (h : (es.map Prod.fst).Pairwise (· ≤ ·)) :
    es.dropWhile (fun e => decide (e.1 ≤ cutoff)) = es.filter (fun e => decide (cutoff < e.1)) := by
  induction es with
  | nil => rfl
  | cons e es ih =>
    rw [List.map_cons, List.pairwise_cons] at h
    rw [List.dropWhile_cons, List.filter_cons]
    split_ifs with hle hlt hlt
    · simp at hle hlt
      exact absurd hlt (not_lt.mpr hle)
    · exact ih h.2
    · refine congrArg _ (List.filter_eq_self.mpr (fun x hx => ?_)).symm
      rw [decide_eq_true_eq] at hlt
      exact decide_eq_true (lt_of_lt_of_le hlt (h.1 _ (List.mem_map_of_mem hx)))
    · simp at hle hlt
      exact absurd hle (not_lt.mpr hlt)

def after (cut : ℚ) (log : List (ℚ × ℚ)) : List (ℚ × ℚ) := log.filter (fun e => decide (cut < e.1))

def sumOf (log : List (ℚ × ℚ)) : ℚ := (log.map Prod.snd).sum

structure Sums (log : List (ℚ × ℚ)) (now : ℚ) (w : RollingWindow) : Prop where
  sorted : (log.map Prod.fst).Pairwise (· ≤ ·)
  past : ∀ x ∈ log.map Prod.fst, x ≤ now
  entries : ∃ cut ≤ now - w.window, w.entries = after cut log ∧ w.total = sumOf (after cut log)

variable {log : List (ℚ × ℚ)} {now now' cut : ℚ} {w : RollingWindow}

theorem sorted_after (h : (log.map Prod.fst).Pairwise (· ≤ ·)) :
    ((after cut log).map Prod.fst).Pairwise (· ≤ ·) :=
  h.sublist (List.filter_sublist.map _)

theorem after_after (hcut : cut ≤ now) : after now (after cut log) = after now log := by
  rw [after, after, List.filter_filter]
  refine List.filter_congr (fun e _ => ?_)
  rw [Bool.and_eq_left_iff_imp]
  simp only [decide_eq_true_eq]
  exact fun he => lt_of_le_of_lt hcut he

theorem pruneEntries_sumOf (h : (log.map Prod.fst).Pairwise (· ≤ ·)) :
    pruneEntries cut log (sumOf log) = (after cut log, sumOf (after cut log)) := by
  have hfst : (pruneEntries cut log (sumOf log)).1 = after cut log := by
    rw [pruneEntries_fst, dropWhile_eq_filter h, after]
  have hsnd := pruneEntries_snd cut log
  rw [← sumOf, hfst] at hsnd
  exact Prod.ext hfst hsnd

theorem sums_new (windowSec now : ℚ) : Sums [] now (new windowSec) :=
  ⟨List.Pairwise.nil, by simp, now - (new windowSec).window, le_refl _, rfl, rfl⟩

theorem Sums.later (h : Sums log now w) (hnow : now ≤ now') : Sums log now' w := by
  obtain ⟨cut, hcut, he⟩ := h.entries
  exact ⟨h.sorted, fun x hx => (h.past x hx).trans hnow, cut,
    hcut.trans (sub_le_sub_right hnow _), he⟩

theorem Sums.prune_eq (h : Sums log now w) :
    w.prune now = { w with
      entries := after (now - w.window) log, total := sumOf (after (now - w.window) log) } := by
  obtain ⟨cut, hcut, hentries, htotal⟩ := h.entries
  rw [prune, hentries, htotal, pruneEntries_sumOf (sorted_after h.sorted), after_after hcut]

theorem Sums.prune (h : Sums log now w) : Sums log now (w.prune now) := by
  rw [h.prune_eq]
  exact ⟨h.sorted, h.past, now - w.window, le_refl _, rfl, rfl⟩

theorem Sums.observe (h : Sums log now w) (hw : 0 < w.window) (value : ℚ) :
    Sums (log ++ [(now, value)]) now (w.observe value now) := by
  have hsnoc : after (now - w.window) (log ++ [(now, value)]) =
      after (now - w.window) log ++ [(now, value)] := by
    have hnew : after (now - w.window) [(now, value)] = [(now, value)] :=
      List.filter_cons_of_pos (decide_eq_true (sub_lt_self now hw))
    rw [after, List.filter_append, ← after, ← after, hnew]
  rw [RollingWindow.observe, if_neg (not_le.mpr hw), h.prune_eq]
  refine ⟨?_, ?_, now - w.window, le_refl _, hsnoc.symm, ?_⟩
  · rw [List.map_append, List.pairwise_append]
    refine ⟨h.sorted, List.pairwise_singleton .., fun x hx y hy => ?_⟩
    rw [List.mem_singleton.mp hy]
    exact h.past x hx
  · intro x hx
    rw [List.map_append, List.mem_append] at hx
    exact hx.elim (h.past x) (fun hx => (List.mem_singleton.mp hx).le)
  · rw [hsnoc]
    simp [sumOf]

inductive Call where
  | observe (value timestamp : ℚ)
  | total (timestamp : ℚ)
  | reset

def Call.timestamp : Call → Option ℚ
  | .observe _ timestamp => some timestamp
  | .total timestamp => some timestamp
  | .reset => none

def call (w : RollingWindow) : Call → RollingWindow
  | .observe value timestamp => w.observe value timestamp
  | .total timestamp => (w.totalAt timestamp).2
  | .reset => w.reset

def observed (log : List (ℚ × ℚ)) : Call → List (ℚ × ℚ)
  | .observe value timestamp => log ++ [(timestamp, value)]
  | .total _ => log
  | .reset => []

theorem window_call (w : RollingWindow) (c : Call) : (w.call c).window = w.window := by
  cases c with
  | observe value timestamp =>
    simp only [call, RollingWindow.observe]
    split_ifs <;> rfl
  | total timestamp =>
    simp only [call, totalAt]
    split_ifs <;> rfl
  | reset => rfl

theorem window_calls (calls : List Call) (w : RollingWindow) :
    (calls.foldl call w).window = w.window := by
  induction calls generalizing w with
  | nil => rfl
  | cons c calls ih => exact (ih _).trans (window_call w c)

theorem Sums.call (h : Sums log now w) (hw : 0 < w.window) (c : Call)
    (hnow : ∀ t ∈ c.timestamp, now ≤ t) :
    Sums (observed log c) (c.timestamp.getD now) (w.call c) := by
  cases c with
  | observe value timestamp => exact (h.later (hnow _ rfl)).observe hw value
  | total timestamp =>
    rw [RollingWindow.call, totalAt, if_neg (not_le.mpr hw)]
    exact (h.later (hnow _ rfl)).prune
  | reset => exact ⟨List.Pairwise.nil, by simp [observed], now - w.window, le_refl _, rfl, rfl⟩

theorem Sums.calls {calls : List Call} (h : Sums log now w) (hw : 0 < w.window)
    (hnow : ∀ t ∈ calls.filterMap Call.timestamp, now ≤ t)
    (hsorted : (calls.filterMap Call.timestamp).Pairwise (· ≤ ·)) {next : ℚ}
    (hnext : now ≤ next) (hall : ∀ t ∈ calls.filterMap Call.timestamp, t ≤ next) :
    Sums (calls.foldl observed log) next (calls.foldl RollingWindow.call w) := by
  induction calls generalizing log now w with
  | nil => exact h.later hnext
  | cons c calls ih =>
    have hc := h.call hw c
    rw [← window_call w c] at hw
    cases htime : c.timestamp with
    | none =>
      rw [List.filterMap_cons_none htime] at hnow hsorted hall
      rw [htime] at hc
      exact ih (hc (by simp)) hw hnow hsorted hnext hall
    | some t =>
      rw [List.filterMap_cons_some htime] at hnow hsorted hall
      rw [List.pairwise_cons] at hsorted
      rw [htime] at hc
      have hlater : now ≤ t := hnow t (List.mem_cons_self ..)
      exact ih (hc (by simpa using hlater)) hw hsorted.1 hsorted.2 (hall t (List.mem_cons_self ..))
        (fun x hx => hall x (List.mem_cons_of_mem _ hx))

theorem total_eq_sum {windowSec : ℚ} (hwindow : 0 < windowSec) (before rest : List Call) (t : ℚ)
    (hsorted : ((before ++ .total t :: rest).filterMap Call.timestamp).Pairwise (· ≤ ·)) :
    ((before.foldl call (new windowSec)).totalAt t).1 =
      (((before.foldl observed []).filter
        (fun e => decide (t - windowSec < e.1) && decide (e.1 ≤ t))).map Prod.snd).sum := by
  rw [List.filterMap_append, List.pairwise_append] at hsorted
  obtain ⟨hbefore, -, hle⟩ := hsorted
  have hw : (before.foldl call (new windowSec)).window = windowSec := by
    rw [window_calls, new, max_eq_left hwindow.le]
  have hs : Sums (before.foldl observed []) t (before.foldl call (new windowSec)) := by
    refine (sums_new windowSec ((before.filterMap Call.timestamp).headD t)).calls ?_ ?_ hbefore ?_ ?_
    · rwa [new, max_eq_left hwindow.le]
    · intro x hx
      cases hts : before.filterMap Call.timestamp with
      | nil => simp [hts] at hx
      | cons y ys =>
        rw [hts, List.pairwise_cons] at hbefore
        rw [hts] at hx
        exact (List.mem_cons.mp hx).elim (fun h => h.ge) (hbefore.1 x)
    · cases hts : before.filterMap Call.timestamp with
      | nil => exact le_refl t
      | cons y ys => exact hle y (by simp [hts]) t (by simp [Call.timestamp])
    · exact fun x hx => hle x hx t (by simp [Call.timestamp])
  rw [totalAt, if_neg (not_le.mpr (by rwa [hw])), hs.prune_eq, hw, sumOf, after]
  refine congrArg (fun log => (List.map Prod.snd log).sum) (List.filter_congr (fun e he => ?_))
  rw [decide_eq_true (hs.past e.1 (List.mem_map_of_mem he)), Bool.and_true]

theorem total_of_last_second :
    ((([.observe 2 0, .observe 3 1] : List Call).foldl call (new 1)).totalAt 1).1 = 3 :=
  (total_eq_sum one_pos [.observe 2 0, .observe 3 1] [.reset] 1 (by decide)).trans
    (by simp [observed])

end sums

section counting

def counted (xs : List ℚ) : List (ℚ × ℚ) := xs.map (fun x => (x, 1))

theorem sum_counted (xs : List ℚ) : ((counted xs).map Prod.snd).sum = xs.length := by
  induction xs with
  | nil => rfl
  | cons x xs ih =>
    simp only [counted, List.map_cons, List.sum_cons, List.length_cons] at ih ⊢
    rw [ih, Nat.cast_add_one, add_comm]

theorem fst_counted (xs : List ℚ) : (counted xs).map Prod.fst = xs := by
  rw [counted, List.map_map]
  exact List.map_id xs

theorem after_counted (cut : ℚ) (xs : List ℚ) :
    after cut (counted xs) = counted (xs.filter (fun x => decide (cut < x))) := by
  rw [after, counted, List.filter_map]
  rfl

structure Tracks (log : List ℚ) (now : ℚ) (w : RollingWindow) : Prop where
  sorted : log.Pairwise (· ≤ ·)
  past : ∀ x ∈ log, x ≤ now
  entries : ∃ cut ≤ now - w.window,
    w.entries = counted (log.filter (fun x => decide (cut < x))) ∧
      w.total = (log.filter (fun x => decide (cut < x))).length

variable {log : List ℚ} {now now' : ℚ} {w : RollingWindow}

theorem tracks_new (windowSec now : ℚ) : Tracks [] now (new windowSec) :=
  ⟨List.Pairwise.nil, nofun, now - (new windowSec).window, le_refl _, rfl, rfl⟩

theorem Tracks.later (h : Tracks log now w) (hnow : now ≤ now') : Tracks log now' w := by
  obtain ⟨cut, hcut, he⟩ := h.entries
  exact ⟨h.sorted, fun x hx => (h.past x hx).trans hnow, cut,
    hcut.trans (sub_le_sub_right hnow _), he⟩

theorem Tracks.sums (h : Tracks log now w) : Sums (counted log) now w := by
  obtain ⟨cut, hcut, hentries, htotal⟩ := h.entries
  refine ⟨(fst_counted log).symm ▸ h.sorted, (fst_counted log).symm ▸ h.past, cut, hcut, ?_, ?_⟩
  · rw [hentries, after_counted]
  · rw [htotal, after_counted, sumOf, sum_counted]

theorem Tracks.prune_eq (h : Tracks log now w) :
    w.prune now = { w with
      entries := counted (log.filter (fun x => decide (now - w.window < x))),
      total := (log.filter (fun x => decide (now - w.window < x))).length } := by
  rw [h.sums.prune_eq, after_counted, sumOf, sum_counted]

theorem Tracks.prune (h : Tracks log now w) : Tracks log now (w.prune now) := by
  rw [h.prune_eq]
  exact ⟨h.sorted, h.past, now - w.window, le_refl _, rfl, rfl⟩

theorem Tracks.total_prune (h : Tracks log now w) :
    (w.prune now).total = SlidingWindow.countIn w.window now log := by
  rw [h.prune_eq, ← SlidingWindow.length_filter_eq_countIn h.past]

theorem Tracks.observe (h : Tracks log now w) (hw : 0 < w.window) :
    Tracks (log ++ [now]) now (w.observe 1 now) := by
  have hnew : [now].filter (fun x => decide (now - w.window < x)) = [now] :=
    List.filter_cons_of_pos (decide_eq_true (sub_lt_self now hw))
  refine ⟨?_, ?_, now - w.window, ?_, ?_⟩
  · rw [List.pairwise_append]
    refine ⟨h.sorted, List.pairwise_singleton .., fun x hx y hy => ?_⟩
    rw [List.mem_singleton.mp hy]
    exact h.past x hx
  · intro x hx
    rcases List.mem_append.mp hx with hx | hx
    · exact h.past x hx
    · exact (List.mem_singleton.mp hx).le
  · rw [RollingWindow.observe, if_neg (not_le.mpr hw)]
    exact le_refl _
  · rw [RollingWindow.observe, if_neg (not_le.mpr hw), h.prune_eq, List.filter_append,
      hnew]
    simp [counted]

end counting

end RollingWindow

end TraceMind.Governance

namespace TraceMind.Governance

structure RateTracker where
  settings : LimitSettings
  qps : RollingWindow := RollingWindow.new 1
  pending : ℕ := 0
  active : ℕ := 0

namespace RateTracker

def peek (now : ℚ) (t : RateTracker) : RateTracker := { t with qps := (t.qps.totalAt now).2 }

def peeked (now : ℚ) (t : RateTracker) : RateTracker :=
  if t.settings.qps.isSome then t.peek now else t

def exceedsQps (now : ℚ) (t : RateTracker) : Bool :=
  match t.settings.qps with
  | none => false
  | some q => decide (q ≤ (t.qps.totalAt now).1 + t.pending)

def exceedsConcurrency (t : RateTracker) : Bool :=
  match t.settings.concurrency with
  | none => false
  | some c => decide (c ≤ (t.active : ℤ) + t.pending)

def checkAndReserve (now : ℚ) (t : RateTracker) : Bool × RateTracker :=
  if t.settings.enabled then
    let t' := t.peeked now
    if t.exceedsQps now then (false, t')
    else if t'.exceedsConcurrency then (false, t')
    else (true, { t' with pending := t'.pending + 1 })
  else (true, t)

def activate (now : ℚ) (t : RateTracker) : RateTracker :=
  if t.settings.enabled then
    { t with
      pending := t.pending - 1
      active := if t.settings.concurrency.isSome then t.active + 1 else t.active
      qps := if t.settings.qps.isSome then t.qps.observe 1 now else t.qps }
  else t

def release (t : RateTracker) : RateTracker :=
  if t.settings.enabled && t.settings.concurrency.isSome then { t with active := t.active - 1 }
  else t

def cancelPending (t : RateTracker) : RateTracker :=
  if t.settings.enabled then { t with pending := t.pending - 1 } else t

end RateTracker

inductive BudgetKind where
  | tokens
  | cost
deriving DecidableEq

structure BudgetTracker where
  settings : LimitSettings
  tokens : RollingWindow := RollingWindow.new 60
  cost : RollingWindow := RollingWindow.new 3600

namespace BudgetTracker

def exhausted (limit : Option ℚ) (total : ℚ) : Bool :=
  match limit with
  | none => false
  | some l => decide (l ≤ total)

def canAccept (now : ℚ) (t : BudgetTracker) : Option BudgetKind × BudgetTracker :=
  if t.settings.enabled then
    let tokens := if t.settings.tokensPerMin.isSome then (t.tokens.totalAt now).2 else t.tokens
    let t' := { t with tokens }
    if exhausted t.settings.tokensPerMin (t.tokens.totalAt now).1 then (some .tokens, t')
    else
      let cost := if t.settings.costPerHour.isSome then (t.cost.totalAt now).2 else t.cost
      let t'' := { t' with cost }
      if exhausted t.settings.costPerHour (t.cost.totalAt now).1 then (some .cost, t'')
      else (none, t'')
  else (none, t)

def recordUsage (limit used : Option ℚ) (now : ℚ) (w : RollingWindow) : RollingWindow :=
  match limit, used with
  | some _, some value => if 0 < max 0 value then w.observe (max 0 value) now else w
  | _, _ => w

def record (tokens cost : Option ℚ) (now : ℚ) (t : BudgetTracker) : BudgetTracker :=
  if t.settings.enabled then
    { t with
      tokens := recordUsage t.settings.tokensPerMin tokens now t.tokens
      cost := recordUsage t.settings.costPerHour cost now t.cost }
  else t

def snapshot (now : ℚ) (t : BudgetTracker) : BudgetTracker :=
  { t with
    tokens := if t.settings.tokensPerMin.isSome then (t.tokens.totalAt now).2 else t.tokens
    cost := if t.settings.costPerHour.isSome then (t.cost.totalAt now).2 else t.cost }

end BudgetTracker

inductive BreakerState where
  | closed
  | opened
  | halfOpen
deriving DecidableEq

structure CircuitBreaker where
  settings : BreakerSettings
  failures : RollingWindow := RollingWindow.new settings.windowSec
  timeouts : RollingWindow := RollingWindow.new settings.windowSec
  state : BreakerState := .closed
  openedAt : Option ℚ := none
  halfOpenInflight : ℕ := 0

namespace CircuitBreaker

def trip (now : ℚ) (b : CircuitBreaker) : CircuitBreaker :=
  { b with state := .opened, openedAt := some now, halfOpenInflight := 0 }

def transitionToHalfOpen (b : CircuitBreaker) : CircuitBreaker :=
  { b with state := .halfOpen, halfOpenInflight := 0 }

def reset (b : CircuitBreaker) : CircuitBreaker :=
  { b with
    state := .closed, openedAt := none, halfOpenInflight := 0,
    failures := b.failures.reset, timeouts := b.timeouts.reset }

def shouldTrip (now : ℚ) (b : CircuitBreaker) : Bool × CircuitBreaker :=
  let failThreshold := max 0 b.settings.failureThreshold
  let timeoutThreshold := max 0 b.settings.timeoutThreshold
  let failures := if failThreshold ≠ 0 then (b.failures.totalAt now).2 else b.failures
  let b' := { b with failures }
  if failThreshold ≠ 0 ∧ (failThreshold : ℚ) ≤ (b.failures.totalAt now).1 then (true, b')
  else
    let timeouts := if timeoutThreshold ≠ 0 then (b.timeouts.totalAt now).2 else b.timeouts
    let b'' := { b' with timeouts }
    (decide (timeoutThreshold ≠ 0 ∧ (timeoutThreshold : ℚ) ≤ (b.timeouts.totalAt now).1), b'')

def maxCalls (s : BreakerSettings) : ℤ := max 1 s.halfOpenMaxCalls

def tryHalfOpen (b : CircuitBreaker) : Bool × CircuitBreaker :=
  if maxCalls b.settings ≤ (b.halfOpenInflight : ℤ) then (false, b)
  else (true, { b with halfOpenInflight := b.halfOpenInflight + 1 })

def tryClosed (now : ℚ) (b : CircuitBreaker) : Bool × CircuitBreaker :=
  let s := b.shouldTrip now
  if s.1 then (false, s.2.trip now) else (true, s.2)

def canExecute (now : ℚ) (b : CircuitBreaker) : Bool × CircuitBreaker :=
  if b.settings.enabled then
    match b.state with
    | .opened =>
      match b.openedAt with
      | none => (false, { b with openedAt := some now })
      | some openedAt =>
        if b.settings.cooldownSec ≤ now - openedAt then b.transitionToHalfOpen.tryHalfOpen
        else (false, b)
    | .halfOpen => b.tryHalfOpen
    | .closed => b.tryClosed now
  else (true, b)

def recordSuccess (now : ℚ) (b : CircuitBreaker) : CircuitBreaker :=
  if b.settings.enabled then
    match b.state with
    | .halfOpen | .opened => b.reset
    | .closed =>
      { b with failures := (b.failures.totalAt now).2, timeouts := (b.timeouts.totalAt now).2 }
  else b

def observeFailure (now : ℚ) (timeout : Bool) (b : CircuitBreaker) : CircuitBreaker :=
  if timeout then { b with timeouts := b.timeouts.observe 1 now }
  else { b with failures := b.failures.observe 1 now }

def recordFailure (now : ℚ) (timeout : Bool) (b : CircuitBreaker) : CircuitBreaker :=
  if b.settings.enabled then
    let b := b.observeFailure now timeout
    match b.state with
    | .halfOpen => b.trip now
    | .closed =>
      let s := b.shouldTrip now
      if s.1 then s.2.trip now else s.2
    | .opened => b
  else b

def releaseHalfOpenSlot (b : CircuitBreaker) : CircuitBreaker :=
  { b with halfOpenInflight := b.halfOpenInflight - 1 }

end CircuitBreaker

end TraceMind.Governance
