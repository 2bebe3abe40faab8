import TraceMind.Foundation.Ledger
import TraceMind.Queue.Backlog
import TraceMind.Queue.Torn

namespace TraceMind.Queue

namespace Backlog

variable {σ : Type} {w : WorkQueue σ} {b : Backlog w} {clock : Clock} {c : Clock × Call}
  {s s' : σ} {o : ℤ} {k : Str} {r : Response}

def Enters (c : Clock × Call) (r : Response) (o : ℤ) (t : Task) : Prop :=
  c.2 = .put t ∧ r = .offset o

def Settles (b : Backlog w) (c : Clock × Call) (s : σ) (o : ℤ) : Prop :=
  ∃ k, b.holder s o = some k ∧ (c.2 = .ack o k ∨ c.2 = .nack o k false)

def Records (b : Backlog w) (c : Clock × Call) (s : σ) (r : Response) (s' : σ) : Prop :=
  ∀ o t, b.task s' o = some t ↔ Enters c r o t ∨ (b.task s o = some t ∧ ¬b.Settles c s o)

theorem records_same (ht : b.task s' = b.task s) (he : ∀ o t, ¬Enters c r o t)
    (hc : ∀ o, ¬b.Settles c s o) : b.Records c s r s' := by
  intro o t
  simp [he, ht, hc]

theorem records_settled (hc : c.2 = .ack o k ∨ c.2 = .nack o k false)
    (ht : b.task s' = if b.holder s o = some k then Function.update (b.task s) o none
      else b.task s) : b.Records c s r s' := by
  have he : ∀ o t, ¬Enters c r o t := by
    rcases hc with hc | hc
    · simp [Enters, hc]
    · simp [Enters, hc]
  have hset : ∀ o', b.Settles c s o' ↔ o' = o ∧ b.holder s o = some k := by
    intro o'
    unfold Settles
    rcases hc with hc | hc
    · rw [hc]
      simp
      grind
    · rw [hc]
      simp
      grind
  intro o' t
  rw [ht, hset]
  split_ifs with hk
  · by_cases ho : o' = o
    · simp [he, ho, hk]
    · simp [he, ho]
  · simp [he, hk]

theorem records_put {t : Task} (hs : b.Valid s) (ho : b.next s ≤ o)
    (ht : b.task s' = Function.update (b.task s) o (some t)) :
    b.Records (clock, .put t) s (.offset o) s' := by
  have hfree : b.task s o = none := b.below hs ho
  have hset : ∀ o', ¬b.Settles (clock, .put t) s o' := by
    simp [Settles]
  intro o' t'
  rw [ht, Function.update_apply]
  by_cases ho' : o' = o
  · subst ho'
    simp [Enters, hfree]
  · simp [Enters, ho', Ne.symm ho', hset]

theorem records_call (hs : b.Valid s)
    (hput : ∀ clock t, b.Records (clock, .put t) s (w.call clock (.put t) s).1
      (w.call clock (.put t) s).2)
    (hlater : ∀ o a, b.task (w.reschedule o a s) = b.task s) (c : Clock × Call) :
    b.Records c s (w.call c.1 c.2 s).1 (w.call c.1 c.2 s).2 := by
  obtain ⟨clock, call⟩ := c
  cases call with
  | put t => exact hput clock t
  | lease count ms =>
    exact records_same (b.lease clock.monotonic count ms hs).2.2.1 (by simp [Enters])
      (by simp [Settles])
  | ack o k => exact records_settled (Or.inl rfl) (b.ack o k hs).2.2
  | nack o k requeue =>
    obtain ⟨-, -, ht⟩ := b.nack clock.monotonic o k requeue hs
    cases requeue with
    | true =>
      simp only [Bool.true_eq_false, false_and, if_false] at ht
      exact records_same ht (by simp [Enters]) (by simp [Settles])
    | false =>
      simp only [true_and] at ht
      exact records_settled (Or.inr rfl) ht
  | reschedule o a => exact records_same (hlater o a) (by simp [Enters]) (by simp [Settles])

end Backlog

namespace Opened

variable {cfg : Config} {clock : Clock} {n m : Opened}

theorem records_call (float : PyFloat) (h : n.Consistent) (c : Clock × Call) :
    (backlog float).Records c n ((workQueue float).call c.1 c.2 n).1
      ((workQueue float).call c.1 c.2 n).2 := by
  apply Backlog.records_call (b := backlog float) h
  · intro clock t
    obtain ⟨s, hc⟩ := h.active.current?
    cases t with
    | json doc =>
      have ht := h.put_contents float clock doc
      simp only [WorkQueue.call, workQueue, put_json float clock doc hc] at ht ⊢
      exact Backlog.records_put (b := backlog float) h le_rfl ht
    | other a =>
      simp only [WorkQueue.call, workQueue, put_other float clock a hc]
      exact Backlog.records_same rfl (by simp [Backlog.Enters]) (by simp [Backlog.Settles])
  · intro o a
    obtain ⟨⟨-, hs⟩, -⟩ := FileWorkQueue.reschedule_spec h.leases o a
    exact hs.contents

def SixDigits (n : Opened) : Prop := ∀ k ∈ n.disk.logs.keys, k < 10 ^ 6

theorem Durable.restarted (h : Durable n) (hseq : n.SixDigits)
    (hinit : init cfg clock n.disk = .ok m) : Durable m := by
  have hd := h.synced.sound
  obtain ⟨p, hload, hp⟩ := loadSegments_spec cfg.float clock hd (loaded_nil cfg hd)
    (fun f hf => listedFiles_get? hf) (listedFiles_nodup n.disk)
  have hm : activated n.disk p = m := by
    rw [init_of_loaded clock hd hload hp, Except.ok.injEq] at hinit
    exact hinit
  obtain ⟨m', hinit', hr⟩ := reopened cfg clock hd
  cases hinit.symm.trans hinit'
  obtain ⟨j, s, hj, hs⟩ := h.consistent.active
  cases hj.symm.trans h.newest
  obtain ⟨log, hlog, -⟩ := h.synced.log _ s hs
  have hsix : n.disk.metaSeq < 10 ^ 6 := by
    apply hseq
    rw [SortedMap.mem_keys_iff, SortedMap.contains, hlog]
    rfl
  have hlast := listedFiles_last hd hlog hsix
  refine ⟨hr.consistent, hr.synced, fun k => ?_, fun k log hk => ?_, ?_⟩
  · rw [hr.logAt]
    exact h.ended k
  · rw [← hm, activated, hlast] at hk ⊢
    have hk' : n.disk.logs.get? k = some log := by
      rw [← hp.disk.logs]
      exact hk
    refine (hp.bySeq k).mpr (mem_listedFiles.mpr ⟨hseq k ?_, log, hk'⟩)
    rw [SortedMap.mem_keys_iff, SortedMap.contains, hk']
    rfl
  · obtain ⟨hcur, hmeta⟩ := hr.newest _ hlast
    rw [hcur, hmeta]

inductive Act where
  | call (c : Clock × Call)
  | restart (cfg : Config) (clock : Clock)

def serve : Act → Config × Opened → Option (Config × Opened)
  | .call c, p => some (p.1, ((workQueue p.1.float).call c.1 c.2 p.2).2)
  | .restart cfg clock, p => (init cfg clock p.2.disk).toOption.map (fun m => (cfg, m))

def Restartable : Act → Config × Opened → Prop
  | .call _, _ => True
  | .restart _ _, p => p.2.SixDigits

def Enters : Act → Config × Opened → ℤ → Task → Prop
  | .call c, p, o, t => Backlog.Enters c ((workQueue p.1.float).call c.1 c.2 p.2).1 o t
  | .restart _ _, _, _, _ => False

def Settles : Act → Config × Opened → ℤ → Prop
  | .call c, p, o => (backlog p.1.float).Settles c p.2 o
  | .restart _ _, _, _ => False

def ledger : Runs.Ledger serve ℤ Task where
  book p := p.2.queue.contents
  enters := Enters
  settles := Settles

theorem ledger_upheld : ledger.Upheld (fun p => Durable p.2) Restartable := by
  rintro a ⟨cfg, n⟩ h hmay
  cases a with
  | call c => exact ⟨_, rfl, h.call cfg.float c, records_call cfg.float h.consistent c⟩
  | restart cfg' clock =>
    obtain ⟨m, hinit, -, htasks⟩ := Durable.reopen h hmay cfg' clock
    refine ⟨(cfg', m), by simp [serve, hinit, Except.toOption], Durable.restarted h hmay hinit,
      fun o t => ?_⟩
    simp only [ledger, FileWorkQueue.contents_get?, htasks, Enters, Settles]
    simp

theorem enters_ge {c : Clock × Call} (float : PyFloat) (h : n.Consistent) {o : ℤ} {t : Task}
    (he : Backlog.Enters c ((workQueue float).call c.1 c.2 n).1 o t) : n.disk.offset ≤ o := by
  obtain ⟨clock, call⟩ := c
  obtain ⟨rfl, hr⟩ := he
  have hput := (h.put float clock t).2.2
  simp only [WorkQueue.call, workQueue] at hr
  rcases hp : n.put float clock t with ⟨r, n'⟩
  rw [hp] at hr hput
  rcases hput with ⟨rfl, -⟩ | ⟨⟨err, rfl⟩, -⟩
  · cases hr
    exact le_rfl
  · cases hr

theorem ledger_numbered {a : Act} {p p' : Config × Opened} (h : Durable p.2)
    (hp : serve a p = some p') :
    (p.2.disk.offset : ℤ) ≤ p'.2.disk.offset ∧
      ∀ o t, ledger.enters a p o t → (p.2.disk.offset : ℤ) ≤ o ∧ o < p'.2.disk.offset := by
  obtain ⟨cfg, n⟩ := p
  cases a with
  | call c =>
    cases hp
    obtain ⟨hle, hlt⟩ := call_offset_le h.consistent cfg.float c
    exact ⟨Int.ofNat_le.mpr hle, fun o t he => ⟨enters_ge cfg.float h.consistent he, hlt o he.2⟩⟩
  | restart cfg' clock =>
    obtain ⟨m, hinit, hr⟩ := reopened cfg' clock h.synced.sound
    simp only [serve, hinit, Except.toOption, Option.map_some, Option.some.injEq] at hp
    subst hp
    exact ⟨Int.ofNat_le.mpr hr.offset.ge, fun o t he => he.elim⟩

theorem directory_lifetime {cfg : Config} {clock : Clock} {n : Opened} {acts : List Act}
    (hn : init cfg clock {} = .ok n) (h : Runs.Throughout serve Restartable acts (cfg, n)) :
    ∃ p, Runs.after serve acts (cfg, n) = some p ∧
      (∀ o t, p.2.queue.contents o = some t ↔ ledger.Stands acts (cfg, n) o t) ∧
      ledger.Ascending acts (cfg, n) := by
  rw [init_empty] at hn
  cases hn
  have hd := durable_empty cfg
  obtain ⟨p, hp, -⟩ := ledger_upheld.run hd h
  refine ⟨p, hp, fun o t => ledger_upheld.book_iff_stands hd (fun _ => rfl) h hp o t, ?_⟩
  exact ledger_upheld.ascending (fun p => (p.2.disk.offset : ℤ))
    (fun a p p' hp hstep => ledger_numbered hp hstep) hd h

def restartedOnce : List Act :=
  [.call (clockAt 0, .put plainTask), .call (clockAt 0, .put plainTask),
    .call (clockAt 1, .lease 1 1000), .call (clockAt 1, .ack 0 (leaseToken 1)),
    .restart plainConfig (clockAt 2), .call (clockAt 3, .put plainTask)]

theorem restarted_lifetime :
    ∃ n p, init plainConfig (clockAt 0) {} = .ok n ∧
      Runs.after serve restartedOnce (plainConfig, n) = some p ∧
      ledger.Ascending restartedOnce (plainConfig, n) := by
  have hn := init_empty plainConfig (clockAt 0)
  have h : Runs.Throughout serve Restartable restartedOnce
      (plainConfig, rotateSegment ⟨emptyQueue plainConfig, {}⟩) := by
    refine .cons trivial fun p₁ h₁ => .cons trivial fun p₂ h₂ => .cons trivial fun p₃ h₃ =>
      .cons trivial fun p₄ h₄ => .cons ?_ fun p₅ h₅ => .cons trivial fun p₆ h₆ =>
        Runs.throughout_nil
    cases h₁
    cases h₂
    cases h₃
    cases h₄
    unfold Restartable SixDigits
    decide +kernel
  obtain ⟨p, hp, -, hlt⟩ := directory_lifetime hn h
  exact ⟨_, p, hn, hp, hlt⟩

end Opened

end TraceMind.Queue
