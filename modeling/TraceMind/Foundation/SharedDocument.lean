import Mathlib.Data.List.Basic

-- Clients that share one document: each loads it, computes another one from it, and saves that in
-- two steps, of which the first empties the file.
namespace SharedDocument

inductive Cell (Client Doc : Type) where
  | absent
  | whole (d : Doc)
  | torn (writers : List Client)

inductive Phase (Doc : Type) where
  | idle
  | loaded (base : Option Doc)
  | ready (base : Option Doc) (next : Doc)
  | writing (base : Option Doc) (next : Doc)

-- `saved` is the history of the saves that came to an end.
structure State (Client Doc : Type) where
  cell : Cell Client Doc
  phase : Client → Phase Doc
  saved : List (Option Doc × Doc)

inductive Event (Client Op : Type) where
  | load (c : Client)
  | compute (c : Client) (op : Op)
  | beginSave (c : Client)
  | endSave (c : Client) (readable : Bool)

def Cell.ofOption {Client Doc : Type} : Option Doc → Cell Client Doc
  | none => .absent
  | some d => .whole d

-- What an operation makes of the document, if it is not refused, and what may be saved.
structure Service (Doc Op : Type) where
  apply : Op → Option Doc → Option Doc
  valid : Doc → Bool

section steps

variable {Client Doc Op : Type} [DecidableEq Client]

namespace Cell

def load : Cell Client Doc → Phase Doc
  | .absent => .loaded none
  | .whole d => .loaded (some d)
  | .torn _ => .idle

def opened (cell : Cell Client Doc) (c : Client) : Cell Client Doc :=
  match cell with
  | .torn writers => .torn (writers ++ [c])
  | _ => .torn [c]

def closed (cell : Cell Client Doc) (c : Client) (readable : Bool) (d : Doc) : Cell Client Doc :=
  match cell with
  | .torn [w] => if w = c || readable then .whole d else .torn []
  | _ => if readable then .whole d else .torn []

end Cell

namespace State

def set (s : State Client Doc) (c : Client) (p : Phase Doc) : State Client Doc :=
  { s with phase := Function.update s.phase c p }

def computed (svc : Service Doc Op) (base : Option Doc) (op : Op) : Phase Doc :=
  match svc.apply op base with
  | none => .idle
  | some d => .ready base d

def beginning (svc : Service Doc Op) (s : State Client Doc) (c : Client) (base : Option Doc)
    (d : Doc) : State Client Doc :=
  if svc.valid d then { s.set c (.writing base d) with cell := s.cell.opened c }
  else s.set c .idle

def ending (s : State Client Doc) (c : Client) (readable : Bool) (base : Option Doc) (d : Doc) :
    State Client Doc :=
  { s.set c .idle with
    cell := s.cell.closed c readable d
    saved := s.saved ++ [(base, d)] }

def step (svc : Service Doc Op) (s : State Client Doc) : Event Client Op → Option (State Client Doc)
  | .load c =>
    match s.phase c with
    | .idle => some (s.set c s.cell.load)
    | _ => none
  | .compute c op =>
    match s.phase c with
    | .loaded base => some (s.set c (computed svc base op))
    | _ => none
  | .beginSave c =>
    match s.phase c with
    | .ready base d => some (s.beginning svc c base d)
    | _ => none
  | .endSave c readable =>
    match s.phase c with
    | .writing base d => some (s.ending c readable base d)
    | _ => none

def run (svc : Service Doc Op) (s : State Client Doc) :
    List (Event Client Op) → Option (State Client Doc)
  | [] => some s
  | e :: es => (s.step svc e).bind (fun t => t.run svc es)

def Quiet (s : State Client Doc) : Prop := ∀ c base d, s.phase c ≠ .writing base d

def Fresh (s : State Client Doc) : Event Client Op → Prop
  | .beginSave c => ∀ base d, s.phase c = .ready base d → s.cell = .ofOption base
  | _ => True

def FreshRun (svc : Service Doc Op) (s : State Client Doc) : List (Event Client Op) → Prop
  | [] => True
  | e :: es => s.Fresh e ∧ ∀ t, s.step svc e = some t → t.FreshRun svc es

def start (d : Option Doc) : State Client Doc := ⟨.ofOption d, fun _ => .idle, []⟩

end State

end steps

section links

variable {Doc : Type}

def Linked (made : Option Doc → Doc → Prop) : Option Doc → List (Option Doc × Doc) → Prop
  | _, [] => True
  | d, e :: es => e.1 = d ∧ made e.1 e.2 ∧ Linked made (some e.2) es

def latest : Option Doc → List (Option Doc × Doc) → Option Doc
  | d, [] => d
  | _, e :: es => latest (some e.2) es

variable {made : Option Doc → Doc → Prop} {d : Option Doc} {es : List (Option Doc × Doc)}
  {e : Option Doc × Doc}

theorem latest_snoc : latest d (es ++ [e]) = some e.2 := by
  induction es generalizing d with
  | nil => rfl
  | cons f es ih => exact ih

theorem Linked.snoc (h : Linked made d es) (hbase : e.1 = latest d es) (hmade : made e.1 e.2) :
    Linked made d (es ++ [e]) := by
  induction es generalizing d with
  | nil => exact ⟨hbase, hmade, trivial⟩
  | cons f es ih => exact ⟨h.1, h.2.1, ih h.2.2 hbase⟩

theorem Linked.pairwise {p : Doc → Prop} (h : Linked made d es)
    (hp : ∀ x y, made (some x) y → p x) : es.Pairwise (fun a _ => p a.2) := by
  induction es generalizing d with
  | nil => exact List.Pairwise.nil
  | cons f es ih =>
    obtain ⟨-, -, hes⟩ := h
    refine List.pairwise_cons.mpr ⟨fun g hg => ?_, ih hes⟩
    cases es with
    | nil => cases hg
    | cons f' es =>
      obtain ⟨hbase, hmade, -⟩ := hes
      rw [hbase] at hmade
      exact hp _ _ hmade

section keeping

variable {r : Doc → Doc → Prop} (hrefl : ∀ x, r x x) (htrans : ∀ x y z, r x y → r y z → r x z)
  (hr : ∀ x y, made (some x) y → r x y)
include hrefl htrans hr

theorem Linked.latest_from {x : Doc} (h : Linked made (some x) es) :
    ∃ y, latest (some x) es = some y ∧ r x y := by
  induction es generalizing x with
  | nil => exact ⟨x, rfl, hrefl x⟩
  | cons f es ih =>
    obtain ⟨hbase, hmade, hes⟩ := h
    obtain ⟨y, hy, hry⟩ := ih hes
    rw [hbase] at hmade
    exact ⟨y, hy, htrans x f.2 y (hr x f.2 hmade) hry⟩

theorem Linked.latest_keeps (h : Linked made d es) (he : e ∈ es) :
    ∃ y, latest d es = some y ∧ r e.2 y := by
  induction es generalizing d with
  | nil => cases he
  | cons f es ih =>
    obtain ⟨-, -, hes⟩ := h
    rcases List.mem_cons.mp he with rfl | he
    · exact hes.latest_from hrefl htrans hr
    · exact ih hes he

end keeping

end links

section invariant

theorem load_cases {Client Doc : Type} (cell : Cell Client Doc) :
    cell.load = .idle ∨ ∃ base, cell.load = .loaded base := by
  cases cell with
  | absent => exact Or.inr ⟨_, rfl⟩
  | whole d => exact Or.inr ⟨_, rfl⟩
  | torn ws => exact Or.inl rfl

variable {Client Doc Op : Type} [DecidableEq Client] {svc : Service Doc Op}
  {s t : State Client Doc} {d₀ : Option Doc} {ev : Event Client Op} {evs : List (Event Client Op)}

def Made (svc : Service Doc Op) (base : Option Doc) (d : Doc) : Prop :=
  ∃ op, svc.apply op base = some d

-- The history is one of documents made from one another, and the cell holds the latest of them or
-- belongs to the one client that is making the next.
structure Serial (svc : Service Doc Op) (d₀ : Option Doc) (s : State Client Doc) : Prop where
  linked : Linked (Made svc) d₀ s.saved
  ready : ∀ c base d, s.phase c = .ready base d → Made svc base d
  writer : ∀ c base d, s.phase c = .writing base d →
    s.cell = .torn [c] ∧ base = latest d₀ s.saved ∧ Made svc base d
  quiet : s.Quiet → s.cell = .ofOption (latest d₀ s.saved)

omit [DecidableEq Client] in
theorem serial_start (d₀ : Option Doc) : Serial svc d₀ (State.start d₀ : State Client Doc) where
  linked := trivial
  ready _ _ _ h := by cases h
  writer _ _ _ h := by cases h
  quiet _ := rfl

theorem set_self (s : State Client Doc) (c : Client) (p : Phase Doc) : (s.set c p).phase c = p := by
  simp [State.set]

theorem set_of_ne (s : State Client Doc) {c c' : Client} (h : c' ≠ c) (p : Phase Doc) :
    (s.set c p).phase c' = s.phase c' := by
  simp [State.set, h]

theorem computed_ready {base b : Option Doc} {op : Op} {d : Doc}
    (h : State.computed svc base op = .ready b d) : Made svc b d := by
  rw [State.computed] at h
  cases ha : svc.apply op base with
  | none => rw [ha] at h; cases h
  | some x =>
    rw [ha] at h
    cases h
    exact ⟨op, ha⟩

theorem computed_not_writing {base b : Option Doc} {op : Op} {d : Doc} :
    State.computed svc base op ≠ .writing b d := by
  rw [State.computed]
  cases svc.apply op base <;> exact fun h => by cases h

theorem Serial.set (h : Serial svc d₀ s) {c : Client} {p : Phase Doc}
    (hold : ∀ base d, s.phase c ≠ .writing base d) (hnew : ∀ base d, p ≠ .writing base d)
    (hready : ∀ base d, p = .ready base d → Made svc base d) : Serial svc d₀ (s.set c p) := by
  have hphase : ∀ c' base d, (s.set c p).phase c' = .writing base d ↔
      s.phase c' = .writing base d := by
    intro c' base d
    by_cases hc : c' = c
    · subst hc
      rw [set_self]
      exact iff_of_false (hnew base d) (hold base d)
    · rw [set_of_ne s hc]
  refine ⟨h.linked, fun c' base d hr => ?_, fun c' base d hw => ?_, fun hq => ?_⟩
  · by_cases hc : c' = c
    · subst hc
      exact hready base d ((set_self s c' p).symm.trans hr)
    · exact h.ready c' base d ((set_of_ne s hc p).symm.trans hr)
  · exact h.writer c' base d ((hphase c' base d).mp hw)
  · exact h.quiet (fun c' base d hw => hq c' base d ((hphase c' base d).mpr hw))

theorem Serial.begin (h : Serial svc d₀ s) {c : Client} {base : Option Doc} {d : Doc}
    (hc : s.phase c = .ready base d) (hfresh : s.cell = .ofOption base) :
    Serial svc d₀ (s.beginning svc c base d) := by
  have hmade := h.ready c base d hc
  rw [State.beginning]
  split_ifs with hv
  · have hquiet : s.Quiet := by
      intro c' b' d' hw
      have hcell := (h.writer c' b' d' hw).1
      rw [hfresh] at hcell
      cases base <;> cases hcell
    have hbase : base = latest d₀ s.saved := by
      have hcell := hfresh.symm.trans (h.quiet hquiet)
      cases base <;> cases hl : latest d₀ s.saved <;> rw [hl] at hcell <;> cases hcell
      rfl
    have hopened : s.cell.opened c = .torn [c] := by
      rw [hfresh]
      cases base <;> rfl
    refine ⟨h.linked, fun c' b' d' hr => ?_, fun c' b' d' hw => ?_, fun hq => ?_⟩
    · by_cases he : c' = c
      · subst he
        cases (set_self s c' _).symm.trans hr
      · exact h.ready c' b' d' ((set_of_ne s he _).symm.trans hr)
    · by_cases he : c' = c
      · subst he
        cases (set_self s c' _).symm.trans hw
        exact ⟨hopened, hbase, hmade⟩
      · exact absurd ((set_of_ne s he _).symm.trans hw) (hquiet c' b' d')
    · exact absurd (set_self s c _) (hq c base d)
  · exact h.set (by rw [hc]; exact fun b' d' hw => by cases hw) (fun b' d' hw => by cases hw)
      (fun b' d' hr => by cases hr)

theorem Serial.end_ (h : Serial svc d₀ s) {c : Client} {base : Option Doc} {d : Doc}
    {readable : Bool} (hc : s.phase c = .writing base d) :
    Serial svc d₀ (s.ending c readable base d) := by
  obtain ⟨hcell, hbase, hmade⟩ := h.writer c base d hc
  have hlatest : latest d₀ (s.saved ++ [(base, d)]) = some d := latest_snoc
  have hother : ∀ c' b' d', c' ≠ c → s.phase c' ≠ .writing b' d' := by
    intro c' b' d' hne hw
    have heq := hcell.symm.trans (h.writer c' b' d' hw).1
    cases heq
    exact hne rfl
  refine ⟨h.linked.snoc hbase hmade, fun c' b' d' hr => ?_, fun c' b' d' hw => ?_, fun _ => ?_⟩
  · by_cases he : c' = c
    · subst he
      cases (set_self s c' _).symm.trans hr
    · exact h.ready c' b' d' ((set_of_ne s he _).symm.trans hr)
  · by_cases he : c' = c
    · subst he
      cases (set_self s c' _).symm.trans hw
    · exact absurd ((set_of_ne s he _).symm.trans hw) (hother c' b' d' he)
  · show s.cell.closed c readable d = Cell.ofOption (latest d₀ (s.saved ++ [(base, d)]))
    rw [hlatest, hcell]
    simp [Cell.closed, Cell.ofOption]

theorem Serial.step (h : Serial svc d₀ s) (hfresh : s.Fresh ev) (hs : s.step svc ev = some t) :
    Serial svc d₀ t := by
  cases ev with
  | load c =>
    rw [State.step] at hs
    cases hc : s.phase c with
    | idle =>
      rw [hc] at hs
      cases hs
      have hload := load_cases s.cell
      refine h.set (by rw [hc]; exact fun b d hw => by cases hw) (fun b d hw => ?_) (fun b d hr => ?_)
      · rw [hw] at hload
        rcases hload with hl | ⟨_, hl⟩ <;> cases hl
      · rw [hr] at hload
        rcases hload with hl | ⟨_, hl⟩ <;> cases hl
    | loaded base => rw [hc] at hs; cases hs
    | ready base d => rw [hc] at hs; cases hs
    | writing base d => rw [hc] at hs; cases hs
  | compute c op =>
    rw [State.step] at hs
    cases hc : s.phase c with
    | loaded base =>
      rw [hc] at hs
      cases hs
      exact h.set (by rw [hc]; exact fun b d hw => by cases hw)
        (fun _ _ => computed_not_writing) (fun _ _ => computed_ready)
    | idle => rw [hc] at hs; cases hs
    | ready base d => rw [hc] at hs; cases hs
    | writing base d => rw [hc] at hs; cases hs
  | beginSave c =>
    rw [State.step] at hs
    cases hc : s.phase c with
    | ready base d =>
      rw [hc] at hs
      cases hs
      exact h.begin hc (hfresh base d hc)
    | idle => rw [hc] at hs; cases hs
    | loaded base => rw [hc] at hs; cases hs
    | writing base d => rw [hc] at hs; cases hs
  | endSave c readable =>
    rw [State.step] at hs
    cases hc : s.phase c with
    | writing base d =>
      rw [hc] at hs
      cases hs
      exact h.end_ hc
    | idle => rw [hc] at hs; cases hs
    | loaded base => rw [hc] at hs; cases hs
    | ready base d => rw [hc] at hs; cases hs

theorem Serial.run (h : Serial svc d₀ s) (hfresh : s.FreshRun svc evs)
    (hs : s.run svc evs = some t) : Serial svc d₀ t := by
  induction evs generalizing s with
  | nil =>
    cases hs
    exact h
  | cons e evs ih =>
    obtain ⟨u, hu, hrest⟩ := Option.bind_eq_some_iff.mp hs
    exact ih (h.step hfresh.1 hu) (hfresh.2 u hu) hrest

end invariant

end SharedDocument
