import TraceMind.Intent.Session
import Mathlib.Algebra.Order.Group.Int

namespace TraceMind.Intent

open Artifacts

section accepted

variable {Source : Type} {sha : Sha256} {w : World Source} {s s' : Session}

theorem pass_iff {p : Prop} [Decidable p] {m : Str} {r : Option Str} {u : Unit} :
    (if p then (.ok () : Attempt Unit) else refuse m r) = .ok u ↔ p := by
  by_cases h : p <;> simp [h, refuse]

theorem stop_iff {p : Prop} [Decidable p] {m : Str} {r : Option Str} {u : Unit} :
    (if p then refuse m r else (.ok () : Attempt Unit)) = .ok u ↔ ¬p := by
  by_cases h : p <;> simp [h, refuse]

theorem requireTarget_ok {target : DesignStep} :
    requireTarget s = .ok target ↔ s.currentStep.next = some target := by
  rw [requireTarget]
  cases s.currentStep.next <;> simp [refuse]

theorem requireGate_ok {target : DesignStep} {facts : GateFacts} {u : Unit} :
    requireGate target facts = .ok u ↔
      ∀ g, entryGateFor target = some g → facts.satisfies g = true := by
  rw [requireGate]
  cases entryGateFor target with
  | none => simp
  | some g =>
    rw [pass_iff]
    constructor
    · rintro h _ ⟨⟩
      exact h
    · exact fun h => h g rfl

theorem closing_ok {target : DesignStep} {signOff : Option SignOff}
    {c : Option SignOff × SessionStatus} (h : closing s target signOff = .ok c) :
    (target = .sealed ∧ c.2 = .sealed ∧ c.1.isSome ∧
      c.1 = signOff.orElse (fun _ => s.signOff)) ∨
    (target ≠ .sealed ∧ c.2 = s.status ∧ c.1 = s.signOff) := by
  rw [closing] at h
  split_ifs at h with ht
  · cases ho : signOff.orElse (fun _ => s.signOff) with
    | none =>
      rw [ho] at h
      cases h
    | some so =>
      rw [ho] at h
      cases h
      exact Or.inl ⟨ht, rfl, rfl, rfl⟩
  · cases h
    exact Or.inr ⟨ht, rfl, rfl⟩

structure Enters (sha : Sha256) (s : Session) (facts : GateFacts) (role : Str)
    (signOff : Option SignOff) (s' : Session) : Prop where
  working : s.status = .working
  next : s.currentStep.next = some s'.currentStep
  human : s'.currentStep.humanOnly = true → role = Intent.human
  gate : ∀ g, entryGateFor s'.currentStep = some g → facts.satisfies g = true
  closing : (s'.currentStep = .sealed ∧ s'.status = .sealed ∧ s'.signOff.isSome ∧
      s'.signOff = signOff.orElse (fun _ => s.signOff)) ∨
    (s'.currentStep ≠ .sealed ∧ s'.status = s.status ∧ s'.signOff = s.signOff)
  clarifications : s'.clarifications = s.clarifications
  turns : ∃ note, s'.turns =
    appendTurn sha s.turns role (stepEntryAction s'.currentStep) none note none

theorem advance_enters {facts : GateFacts} {role : Str} {signOff : Option SignOff}
    {note : Option Str} (h : advance sha s facts role signOff note = .ok s') :
    Enters sha s facts role signOff s' := by
  obtain ⟨-, -, h⟩ := Fallible.bind_eq_ok.mp h
  obtain ⟨_, hworking, h⟩ := Fallible.bind_eq_ok.mp h
  obtain ⟨target, hnext, h⟩ := Fallible.bind_eq_ok.mp h
  obtain ⟨_, hhuman, h⟩ := Fallible.bind_eq_ok.mp h
  obtain ⟨_, hgate, h⟩ := Fallible.bind_eq_ok.mp h
  obtain ⟨c, hc, h⟩ := Fallible.bind_eq_ok.mp h
  cases h
  have hrole := stop_iff.mp hhuman
  exact ⟨pass_iff.mp hworking, requireTarget_ok.mp hnext,
    fun ht => by by_contra hr; exact hrole ⟨ht, hr⟩,
    requireGate_ok.mp hgate, closing_ok hc, rfl, ⟨note, rfl⟩⟩

inductive Accepted (sha : Sha256) (w : World Source) (s : Session) : Op Source → Session → Prop where
  | advance (facts : GateFacts) (role : Str) (signOff : Option SignOff) (note : Option Str)
      (s' : Session) (h : Enters sha s facts role signOff s') :
      Accepted sha w s (.advance facts role signOff note) s'
  | revert (target : DesignStep) (role reason : Str) (working : s.status = .working)
      (earlier : target.index < s.currentStep.index) :
      Accepted sha w s (.revert target role reason)
        { s with
          currentStep := target
          turns := appendTurn sha s.turns role .note none (some ("revert: ".toList ++ reason)) none }
  | clarify (a : ClarifyArgs) (working : s.status = .working) :
      Accepted sha w s (.clarify a)
        { s with
          clarifications := s.clarifications ++ [newClarification sha s a]
          turns := appendTurn sha s.turns a.role .clarify a.warningRef
            (some (newClarification sha s a).clarId) none }
  | embedCompleteness (source : Source) (report : CompletenessReport)
      (working : s.status = .working) :
      Accepted sha w s (.embedCompleteness source) { s with completeness := some report }
  | sealSession (a : SealArgs Source) (j : Judged) (s' : Session) (signer : strip a.signer ≠ [])
      (judged : w.judge a.source .seal = .ok j)
      (closed : allDimsClosed (j.report w.resolvers .seal a.dispositions) = true)
      (passed : (sealGate a (j.report w.resolvers .seal a.dispositions)).passed = true)
      (h : Enters sha s (sealFacts s a) human
        (some (signOffOf sha s a (j.report w.resolvers .seal a.dispositions))) s') :
      Accepted sha w s (.sealSession a) s'

theorem revert_accepted {target : DesignStep} {role reason : Str}
    (h : revert sha s target role reason = .ok s') :
    Accepted sha w s (.revert target role reason) s' := by
  obtain ⟨_, -, h⟩ := Fallible.bind_eq_ok.mp h
  obtain ⟨_, hworking, h⟩ := Fallible.bind_eq_ok.mp h
  obtain ⟨_, -, h⟩ := Fallible.bind_eq_ok.mp h
  split_ifs at h with hlt
  · cases h
  · cases h
    exact .revert target role reason (pass_iff.mp hworking) (by omega)

theorem clarify_accepted {a : ClarifyArgs} (h : clarify sha s a = .ok s') :
    Accepted sha w s (.clarify a) s' := by
  obtain ⟨_, -, h⟩ := Fallible.bind_eq_ok.mp h
  obtain ⟨_, hworking, h⟩ := Fallible.bind_eq_ok.mp h
  obtain ⟨_, -, h⟩ := Fallible.bind_eq_ok.mp h
  obtain ⟨_, -, h⟩ := Fallible.bind_eq_ok.mp h
  cases h
  exact .clarify a (pass_iff.mp hworking)

theorem embedCompleteness_accepted {source : Source}
    (h : embedCompleteness w s source = .ok s') :
    Accepted sha w s (.embedCompleteness source) s' := by
  obtain ⟨_, hworking, h⟩ := Fallible.bind_eq_ok.mp h
  obtain ⟨report, -, h⟩ := Fallible.bind_eq_ok.mp h
  cases h
  exact .embedCompleteness source report (pass_iff.mp hworking)

theorem sealSession_accepted {a : SealArgs Source} (h : sealSession sha w s a = .ok s') :
    Accepted sha w s (.sealSession a) s' := by
  obtain ⟨_, -, h⟩ := Fallible.bind_eq_ok.mp h
  obtain ⟨_, hsigner, h⟩ := Fallible.bind_eq_ok.mp h
  obtain ⟨_, -, h⟩ := Fallible.bind_eq_ok.mp h
  obtain ⟨report, hreport, h⟩ := Fallible.bind_eq_ok.mp h
  obtain ⟨_, hclosure, h⟩ := Fallible.bind_eq_ok.mp h
  obtain ⟨j, hj, rfl⟩ := Fallible.map_eq_ok.mp hreport
  obtain ⟨hclosed, hpassed⟩ := pass_iff.mp hclosure
  exact .sealSession a j s' (fun he => stop_iff.mp hsigner (by rw [he]; rfl)) hj hclosed hpassed
    (advance_enters h)

theorem apply_accepted {op : Op Source} (h : apply sha w s op = .ok s') :
    Accepted sha w s op s' := by
  cases op with
  | advance facts role signOff note => exact .advance facts role signOff note s' (advance_enters h)
  | revert target role reason => exact revert_accepted h
  | clarify a => exact clarify_accepted h
  | embedCompleteness source => exact embedCompleteness_accepted h
  | sealSession a => exact sealSession_accepted h

theorem Accepted.working {op : Op Source} (h : Accepted sha w s op s') : s.status = .working := by
  cases h with
  | advance _ _ _ _ _ h => exact h.working
  | revert _ _ _ hw _ => exact hw
  | clarify _ hw => exact hw
  | embedCompleteness _ _ hw => exact hw
  | sealSession _ _ _ _ _ _ _ h => exact h.working

theorem apply_sealed (sha : Sha256) (w : World Source) (op : Op Source) (h : s.status = .sealed) :
    ∃ r, apply sha w s op = .error r := by
  cases ha : apply sha w s op with
  | error r => exact ⟨r, rfl⟩
  | ok s' =>
    have hw := (apply_accepted ha).working
    rw [h] at hw
    cases hw

end accepted

section calls

variable {Source : Type} {sha : Sha256} {s : Session} {c : Call Source}
  {es : List (World Source × Op Source)} {e : World Source × Op Source}

theorem run_snoc : run sha s (es ++ [e]) = (call sha (run sha s es) e).after := by
  induction es generalizing s with
  | nil => rfl
  | cons f es ih => exact ih

theorem calls_snoc : calls sha s (es ++ [e]) = calls sha s es ++ [call sha (run sha s es) e] := by
  induction es generalizing s with
  | nil => rfl
  | cons f es ih =>
    rw [List.cons_append, calls, ih]
    rfl

theorem mem_calls (h : c ∈ calls sha s es) : ∃ (pre : List (World Source × Op Source)) (e : World Source × Op Source),
      c = call sha (run sha s pre) e := by
  induction es using List.reverseRecOn with
  | nil => cases h
  | append_singleton es e ih =>
    rw [calls_snoc] at h
    rcases List.mem_append.mp h with h | h
    · exact ih h
    · exact ⟨es, e, List.mem_singleton.mp h⟩

theorem call_cases (sha : Sha256) (s : Session) (e : World Source × Op Source) :
    (call sha s e).after = s ∨ Accepted sha e.1 s e.2 (call sha s e).after := by
  rw [call]
  cases h : apply sha e.1 s e.2 with
  | error r => exact Or.inl rfl
  | ok s' => exact Or.inr (apply_accepted h)

end calls

section turns

variable {sha : Sha256} {ts : List Turn}

theorem foldl_max_spec (ts : List Turn) (m : ℤ) :
    (ts.foldl (fun m u => max m u.seq) m = m ∨
      ∃ u ∈ ts, ts.foldl (fun m u => max m u.seq) m = u.seq) ∧
    m ≤ ts.foldl (fun m u => max m u.seq) m ∧
    ∀ v ∈ ts, v.seq ≤ ts.foldl (fun m u => max m u.seq) m := by
  induction ts generalizing m with
  | nil => exact ⟨Or.inl rfl, le_refl m, fun v hv => by cases hv⟩
  | cons t ts ih =>
    obtain ⟨hattained, hle, hall⟩ := ih (max m t.seq)
    rw [List.foldl_cons]
    refine ⟨?_, le_trans (le_max_left ..) hle, ?_⟩
    · rcases hattained with h | ⟨u, hu, h⟩
      · rcases max_choice m t.seq with hm | hm
        · exact Or.inl (h.trans hm)
        · exact Or.inr ⟨t, List.mem_cons_self, h.trans hm⟩
      · exact Or.inr ⟨u, List.mem_cons_of_mem _ hu, h⟩
    · intro v hv
      rcases List.mem_cons.mp hv with rfl | hv
      · exact le_trans (le_max_right ..) hle
      · exact hall v hv

def Follows (ts : List Turn) (n : ℤ) : Prop :=
  (ts = [] ∧ n = 0) ∨ ∃ u ∈ ts, n = u.seq + 1 ∧ ∀ v ∈ ts, v.seq ≤ u.seq

theorem follows_nextSeq (ts : List Turn) : Follows ts (nextSeq ts) := by
  cases ts with
  | nil => exact Or.inl ⟨rfl, rfl⟩
  | cons t ts =>
    obtain ⟨hattained, hle, hall⟩ := foldl_max_spec ts t.seq
    rcases hattained with h | ⟨u, hu, h⟩
    · refine Or.inr ⟨t, List.mem_cons_self, by rw [nextSeq, h], fun v hv => ?_⟩
      rcases List.mem_cons.mp hv with rfl | hv
      · exact le_refl _
      · exact le_of_le_of_eq (hall v hv) h
    · refine Or.inr ⟨u, List.mem_cons_of_mem _ hu, by rw [nextSeq, h], fun v hv => ?_⟩
      rcases List.mem_cons.mp hv with rfl | hv
      · exact le_of_le_of_eq hle h
      · exact le_of_le_of_eq (hall v hv) h

end turns

section history

variable {Source : Type} {sha : Sha256} {w : World Source} {s s' : Session} {op : Op Source}
  {c : Call Source} {d : DesignStep}

def Op.facts (s : Session) : Op Source → GateFacts
  | .advance facts _ _ _ => facts
  | .sealSession a => sealFacts s a
  | _ => {}

def Op.role : Op Source → Option Str
  | .advance _ role _ _ => some role
  | .revert _ role _ => some role
  | .clarify a => some a.role
  | .embedCompleteness _ => none
  | .sealSession _ => some human

def Op.IsRevert : Op Source → Prop
  | .revert _ _ _ => True
  | _ => False

namespace Call

def Enters (c : Call Source) (d : DesignStep) : Prop :=
  c.before.currentStep.index < d.index ∧ c.after.currentStep = d

def FallsBelow (c : Call Source) (d : DesignStep) : Prop :=
  c.after.currentStep.index < c.before.currentStep.index ∧ c.after.currentStep.index < d.index

structure Gated (c : Call Source) (d : DesignStep) : Prop where
  gate : ∀ g, entryGateFor d = some g → (c.op.facts c.before).satisfies g = true
  human : d.humanOnly = true → c.op.role = some Intent.human

def GrowsByTurn (c : Call Source) : Prop :=
  c.after.turns = c.before.turns ∨
    ∃ t, c.after.turns = c.before.turns ++ [t] ∧ Follows c.before.turns t.seq

def MovesByStep (c : Call Source) : Prop :=
  c.after.currentStep = c.before.currentStep ∨
    c.before.currentStep.next = some c.after.currentStep ∨
    (c.op.IsRevert ∧ c.after.currentStep.index < c.before.currentStep.index)

end Call

def LatestEntry (cs : List (Call Source)) (d : DesignStep) (c : Call Source) : Prop :=
  ∃ pre post, cs = pre ++ c :: post ∧ c.Enters d ∧ ∀ x ∈ post, ¬x.Enters d ∧ ¬x.FallsBelow d

theorem appendTurn_grows (ts : List Turn) (role : Str) (action : TurnAction)
    (inputRef outputRef provider : Option Str) :
    ∃ t, appendTurn sha ts role action inputRef outputRef provider = ts ++ [t] ∧
      Follows ts t.seq :=
  ⟨_, rfl, follows_nextSeq ts⟩

theorem Accepted.turns (h : Accepted sha w s op s') :
    s'.turns = s.turns ∨ ∃ t, s'.turns = s.turns ++ [t] ∧ Follows s.turns t.seq := by
  cases h with
  | advance _ _ _ _ _ h =>
    obtain ⟨note, ht⟩ := h.turns
    rw [ht]
    exact Or.inr (appendTurn_grows ..)
  | revert _ _ _ _ _ => exact Or.inr (appendTurn_grows ..)
  | clarify _ _ => exact Or.inr (appendTurn_grows ..)
  | embedCompleteness _ _ _ => exact Or.inl rfl
  | sealSession _ _ _ _ _ _ _ h =>
    obtain ⟨note, ht⟩ := h.turns
    rw [ht]
    exact Or.inr (appendTurn_grows ..)

theorem Accepted.step (h : Accepted sha w s op s') :
    s'.currentStep = s.currentStep ∨
      (s.currentStep.next = some s'.currentStep ∧
        (∀ g, entryGateFor s'.currentStep = some g → (op.facts s).satisfies g = true) ∧
        (s'.currentStep.humanOnly = true → op.role = some Intent.human)) ∨
      (op.IsRevert ∧ s'.currentStep.index < s.currentStep.index) := by
  cases h with
  | advance _ _ _ _ _ h =>
    exact Or.inr (Or.inl ⟨h.next, h.gate, fun hh => congrArg some (h.human hh)⟩)
  | revert _ _ _ _ hlt => exact Or.inr (Or.inr ⟨trivial, hlt⟩)
  | clarify _ _ => exact Or.inl rfl
  | embedCompleteness _ _ _ => exact Or.inl rfl
  | sealSession _ _ _ _ _ _ _ h => exact Or.inr (Or.inl ⟨h.next, h.gate, fun _ => rfl⟩)

theorem call_growsByTurn (sha : Sha256) (s : Session) (e : World Source × Op Source) :
    (call sha s e).GrowsByTurn := by
  rcases call_cases sha s e with h | h
  · exact Or.inl (congrArg Session.turns h)
  · exact h.turns

theorem call_step (sha : Sha256) (s : Session) (e : World Source × Op Source) :
    (call sha s e).after.currentStep = s.currentStep ∨
      (s.currentStep.next = some (call sha s e).after.currentStep ∧
        (call sha s e).Gated (call sha s e).after.currentStep) ∨
      (e.2.IsRevert ∧ (call sha s e).after.currentStep.index < s.currentStep.index) := by
  rcases call_cases sha s e with h | h
  · exact Or.inl (congrArg Session.currentStep h)
  · rcases h.step with h | ⟨hn, hg, hh⟩ | h
    · exact Or.inl h
    · exact Or.inr (Or.inl ⟨hn, hg, hh⟩)
    · exact Or.inr (Or.inr h)

theorem call_movesByStep (sha : Sha256) (s : Session) (e : World Source × Op Source) :
    (call sha s e).MovesByStep := by
  rcases call_step sha s e with h | ⟨h, -⟩ | h
  · exact Or.inl h
  · exact Or.inr (Or.inl h)
  · exact Or.inr (Or.inr h)

theorem LatestEntry.snoc {cs : List (Call Source)} {x : Call Source} (h : LatestEntry cs d c)
    (hx : ¬x.Enters d ∧ ¬x.FallsBelow d) : LatestEntry (cs ++ [x]) d c := by
  obtain ⟨pre, post, rfl, hc, hpost⟩ := h
  refine ⟨pre, post ++ [x], by simp, hc, fun y hy => ?_⟩
  rcases List.mem_append.mp hy with hy | hy
  · exact hpost y hy
  · rw [List.mem_singleton.mp hy]
    exact hx

theorem latestEntry_gated (sha : Sha256) {s : Session} (hs : s.currentStep = .draft)
    (es : List (World Source × Op Source)) (hpos : 0 < d.index)
    (hle : d.index ≤ (run sha s es).currentStep.index) :
    ∃ c, LatestEntry (calls sha s es) d c ∧ c.Gated d := by
  induction es using List.reverseRecOn with
  | nil =>
    rw [run, hs] at hle
    exact absurd (lt_of_lt_of_le hpos hle) (by decide)
  | append_singleton es e ih =>
    rw [run_snoc] at hle
    rw [calls_snoc]
    by_cases hbefore : d.index ≤ (run sha s es).currentStep.index
    · obtain ⟨c, hc, hgated⟩ := ih hbefore
      refine ⟨c, hc.snoc ⟨fun hx => ?_, fun hx => ?_⟩, hgated⟩
      · exact absurd hx.1 (not_lt.mpr hbefore)
      · exact absurd hx.2 (not_lt.mpr hle)
    · rcases call_step sha (run sha s es) e with h | ⟨hnext, hgated⟩ | ⟨-, h⟩
      · rw [h] at hle
        exact absurd hle hbefore
      · have hidx := DesignStep.index_next hnext
        have hd : (call sha (run sha s es) e).after.currentStep = d :=
          DesignStep.index_inj (by omega)
        rw [hd] at hgated
        exact ⟨_, ⟨calls sha s es, [], rfl, ⟨not_le.mp hbefore, hd⟩, by simp⟩, hgated⟩
      · omega

end history

section status

variable {Source : Type} {sha : Sha256} {w : World Source} {s s' : Session} {op : Op Source}

structure Closed (s : Session) : Prop where
  sealed_iff : s.status = .sealed ↔ s.currentStep = .sealed
  signed : s.status = .sealed → s.signOff.isSome

theorem Enters.closed {facts : GateFacts} {role : Str} {signOff : Option SignOff}
    (h : Enters sha s facts role signOff s') : Closed s' := by
  rcases h.closing with ⟨hstep, hstatus, hso, -⟩ | ⟨hstep, hstatus, -⟩
  · exact ⟨⟨fun _ => hstep, fun _ => hstatus⟩, fun _ => hso⟩
  · rw [h.working] at hstatus
    have hne : s'.status ≠ .sealed := by rw [hstatus]; decide
    exact ⟨⟨fun hs => absurd hs hne, fun hs => absurd hs hstep⟩, fun hs => absurd hs hne⟩

theorem Accepted.closed (h : Accepted sha w s op s') (hs : Closed s) : Closed s' := by
  have hne : s.status ≠ .sealed := by rw [h.working]; decide
  have hstep : s.currentStep ≠ .sealed := fun he => hne (hs.sealed_iff.mpr he)
  cases h with
  | advance _ _ _ _ _ h => exact h.closed
  | revert target _ _ _ hlt =>
    have htarget : target ≠ .sealed := by
      rintro rfl
      exact absurd hlt (not_lt.mpr s.currentStep.index_le)
    exact ⟨⟨fun he => absurd he hne, fun he => absurd he htarget⟩, fun he => absurd he hne⟩
  | clarify _ _ => exact ⟨hs.sealed_iff, hs.signed⟩
  | embedCompleteness _ _ _ => exact ⟨hs.sealed_iff, hs.signed⟩
  | sealSession _ _ _ _ _ _ _ h => exact h.closed

theorem run_closed (sha : Sha256) {s : Session} (hs : Closed s) (es : List (World Source × Op Source)) :
    Closed (run sha s es) := by
  induction es using List.reverseRecOn with
  | nil => exact hs
  | append_singleton es e ih =>
    rw [run_snoc]
    rcases call_cases sha (run sha s es) e with h | h
    · rw [h]
      exact ih
    · exact h.closed ih

theorem newSession_closed (id root : Str) : Closed (newSession id root) :=
  ⟨⟨fun h => (by cases h), fun h => (by cases h)⟩, fun h => (by cases h)⟩

theorem session_history (sha : Sha256) (id root : Str) (es : List (World Source × Op Source)) :
    let s := run sha (newSession id root) es
    (s.status = .sealed ↔ s.currentStep = .sealed) ∧
    (s.status = .sealed → s.signOff.isSome) ∧
    (∀ c ∈ calls sha (newSession id root) es, c.GrowsByTurn ∧ c.MovesByStep) ∧
    ∀ d : DesignStep, 0 < d.index → d.index ≤ s.currentStep.index →
      ∃ c, LatestEntry (calls sha (newSession id root) es) d c ∧ c.Gated d := by
  have hclosed := run_closed sha (newSession_closed id root) es
  refine ⟨hclosed.sealed_iff, hclosed.signed, fun c hc => ?_,
    fun d hpos hle => latestEntry_gated sha rfl es hpos hle⟩
  obtain ⟨pre, e, rfl⟩ := mem_calls hc
  exact ⟨call_growsByTurn .., call_movesByStep ..⟩

end status

end TraceMind.Intent
