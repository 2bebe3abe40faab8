import TraceMind.Dsl.CompilerSpec

namespace TraceMind.Dsl

section placed

mutual

def Placed (steps : List FlowStep) : WdlStep → Prop
  | .call id target args location =>
    ∃ rendered, renderNamed args = .ok rendered ∧ ⟨id, .call target rendered, location⟩ ∈ steps
  | .when _ ss _ => PlacedAll steps ss

def PlacedAll (steps : List FlowStep) : List WdlStep → Prop
  | [] => True
  | s :: ss => Placed steps s ∧ PlacedAll steps ss

end

variable {steps steps' : List FlowStep}

mutual

theorem Placed.mono (h : steps ⊆ steps') : ∀ s : WdlStep, Placed steps s → Placed steps' s
  | .call id target args location => by
    rintro ⟨rendered, hr, hm⟩
    exact ⟨rendered, hr, h hm⟩
  | .when condition ss location => PlacedAll.mono h ss

theorem PlacedAll.mono (h : steps ⊆ steps') :
    ∀ ss : List WdlStep, PlacedAll steps ss → PlacedAll steps' ss
  | [] => fun _ => trivial
  | s :: ss => fun hs => ⟨Placed.mono h s hs.1, PlacedAll.mono h ss hs.2⟩

end

def FlowStep.Named (s : FlowStep) : Prop :=
  (∃ target, s.kind.shape = .call target) ∨ s.id ≠ defaultCase

structure Grows (b b' : Builder) : Prop where
  steps : b.steps ⊆ b'.steps
  named : (∀ s ∈ b.steps, s.Named) → ∀ s ∈ b'.steps, s.Named

variable {b b' b'' : Builder}

theorem Grows.refl (b : Builder) : Grows b b := ⟨List.Subset.refl _, id⟩

theorem Grows.trans (h : Grows b b') (h' : Grows b' b'') : Grows b b'' :=
  ⟨fun _ hs => h'.steps (h.steps hs), fun hb => h'.named (h.named hb)⟩

theorem Grows.of_steps_eq (h : b'.steps = b.steps) : Grows b b' := by
  refine ⟨h ▸ List.Subset.refl _, fun hb => ?_⟩
  rw [h]
  exact hb

theorem addStep_grows {s : FlowStep} (hs : s.Named) (h : b.addStep s = .ok b') :
    Grows b b' ∧ s ∈ b'.steps := by
  obtain ⟨-, rfl⟩ := addStep_ok h
  refine ⟨⟨List.subset_append_left _ _, fun hb x hx => ?_⟩, by simp⟩
  rcases List.mem_append.mp hx with hx | hx
  · exact hb x hx
  · rw [List.mem_singleton.mp hx]
    exact hs

theorem linkSegments_steps (exits : List ExitEdge) (t : Str) (b : Builder) :
    (b.linkSegments exits t).steps = b.steps := by
  induction exits generalizing b with
  | nil => rfl
  | cons x exits ih => exact (ih _).trans (noteLabel_steps ..)

theorem closeWhen_steps (switchId : Str) (c : Condition) (nested : SequenceGraph) (b : Builder) :
    (closeWhen switchId c nested b).2.steps = b.steps := by
  rw [closeWhen]
  dsimp only
  induction c.caseValues generalizing b with
  | nil => rfl
  | cons v vs ih =>
    refine (ih _).trans ?_
    rw [addCase_eq]
    rfl

end placed

section compile

variable {eval : LiteralEval} {b : Builder}

theorem uniqueStepId_grows (p : Str) (b : Builder) : Grows b (b.uniqueStepId p).2 :=
  Grows.of_steps_eq rfl

theorem candidate_ne_default {c : Char} {p : Str} (hc : c ≠ '_') (n : ℕ) :
    candidate (c :: p) n ≠ defaultCase := by
  intro h
  rw [candidate, List.cons_append] at h
  exact hc (List.cons.inj h).1

theorem compileCall_placed {id target : Str} {args : List Named} {location : SourceSpan}
    {r : SequenceGraph × Builder} (h : compileCall id target args location b = .ok r) :
    Grows b r.2 ∧ Placed r.2.steps (.call id target args location) := by
  rw [compileCall] at h
  split_ifs at h
  obtain ⟨rendered, hr, h⟩ := Fallible.bind_eq_ok.mp h
  obtain ⟨b', hadd, h⟩ := Fallible.bind_eq_ok.mp h
  cases h
  obtain ⟨hgrows, hmem⟩ := addStep_grows (Or.inl ⟨target, rfl⟩) hadd
  exact ⟨hgrows, rendered, hr, hmem⟩

mutual

theorem compileStep_placed : ∀ (s : WdlStep) {b : Builder} {r : SequenceGraph × Builder},
    compileStep eval s b = .ok r → Grows b r.2 ∧ Placed r.2.steps s
  | .call id target args location, b, r => by
    intro h
    rw [compileStep] at h
    exact compileCall_placed h
  | .when condition steps location, b, r => by
    intro h
    rw [compileStep] at h
    obtain ⟨c, -, h⟩ := Fallible.bind_eq_ok.mp h
    obtain ⟨b₁, hadd, h⟩ := Fallible.bind_eq_ok.mp h
    obtain ⟨q, hloop, h⟩ := Fallible.bind_eq_ok.mp h
    obtain ⟨nested, -, h⟩ := Fallible.bind_eq_ok.mp h
    cases h
    obtain ⟨hadded, -⟩ := addStep_grows (Or.inr (candidate_ne_default (by decide) _)) hadd
    obtain ⟨hgrows, hplaced⟩ := compileLoop_placed steps none [] hloop
    have hclose := closeWhen_steps (b.uniqueStepId "when".toList).1 c nested q.2.2
    refine ⟨((uniqueStepId_grows _ b).trans hadded).trans
      (hgrows.trans (Grows.of_steps_eq hclose)), ?_⟩
    rw [hclose]
    exact hplaced

theorem compileLoop_placed : ∀ (ss : List WdlStep) (entry : Option Str) (exits : List ExitEdge)
    {b : Builder} {r : Option Str × List ExitEdge × Builder},
    compileLoop eval ss entry exits b = .ok r → Grows b r.2.2 ∧ PlacedAll r.2.2.steps ss
  | [], entry, exits, b, r => by
    intro h
    rw [compileLoop] at h
    cases h
    exact ⟨Grows.refl _, trivial⟩
  | s :: ss, entry, exits, b, r => by
    intro h
    rw [compileLoop] at h
    obtain ⟨q, hstep, h⟩ := Fallible.bind_eq_ok.mp h
    simp only [link_unless_empty] at h
    obtain ⟨hgrows, hplaced⟩ := compileStep_placed s hstep
    obtain ⟨hrest, hall⟩ := compileLoop_placed ss _ _ h
    have hlink := (Grows.of_steps_eq (linkSegments_steps exits q.1.entry q.2)).trans hrest
    exact ⟨hgrows.trans hlink, Placed.mono hlink.steps s hplaced, hall⟩

end

theorem addOutputsStep_grows {w : WdlWorkflow} {r : Str × Builder}
    (h : addOutputsStep w b = .ok r) :
    Grows b r.2 ∧ ∃ rendered location, renderNamed w.outputs = .ok rendered ∧
      ⟨r.1, .emit rendered, location⟩ ∈ r.2.steps := by
  obtain ⟨rendered, hr, h⟩ := Fallible.bind_eq_ok.mp h
  obtain ⟨b₁, hadd, h⟩ := Fallible.bind_eq_ok.mp h
  cases h
  obtain ⟨hadded, hmem⟩ := addStep_grows (Or.inr (candidate_ne_default (by decide) _)) hadd
  exact ⟨(uniqueStepId_grows _ b).trans hadded, rendered, _, hr, hmem⟩

theorem addFinishStep_grows {w : WdlWorkflow} {r : Str × Builder}
    (h : addFinishStep w b = .ok r) : Grows b r.2 := by
  obtain ⟨b₁, hadd, h⟩ := Fallible.bind_eq_ok.mp h
  cases h
  obtain ⟨hadded, -⟩ := addStep_grows (Or.inr (candidate_ne_default (by decide) _)) hadd
  exact (uniqueStepId_grows _ b).trans hadded

structure Compiles (w : WdlWorkflow) (f : FlowCompilation) : Prop where
  placed : PlacedAll f.steps w.steps
  named : ∀ s ∈ f.steps, s.Named
  outputs : ∃ id rendered location, renderNamed w.outputs = .ok rendered ∧
    ⟨id, .emit rendered, location⟩ ∈ f.steps

theorem compileWorkflow_compiles {w : WdlWorkflow} {f : FlowCompilation}
    (h : compileWorkflow eval w = .ok f) : Compiles w f := by
  rw [compileWorkflow] at h
  split_ifs at h
  obtain ⟨main, hmain, h⟩ := Fallible.bind_eq_ok.mp h
  obtain ⟨outputs, houtputs, h⟩ := Fallible.bind_eq_ok.mp h
  obtain ⟨fin, hfinish, h⟩ := Fallible.bind_eq_ok.mp h
  cases h
  obtain ⟨q, hloop, hmain⟩ := Fallible.bind_eq_ok.mp hmain
  obtain ⟨g, -, hmain⟩ := Fallible.bind_eq_ok.mp hmain
  cases hmain
  obtain ⟨hgrows, hplaced⟩ := compileLoop_placed w.steps none [] hloop
  obtain ⟨hout, rendered, location, hr, hmem⟩ := addOutputsStep_grows houtputs
  have hlast : Grows outputs.2 (fin.2.linkSegments [⟨outputs.1, none⟩] fin.1) :=
    ((Grows.of_steps_eq (linkSegments_steps ..)).trans (addFinishStep_grows hfinish)).trans
      (Grows.of_steps_eq (linkSegments_steps ..))
  exact ⟨PlacedAll.mono (hout.trans hlast).steps w.steps hplaced,
    ((hgrows.trans hout).trans hlast).named (fun s hs => by cases hs),
    outputs.1, rendered, location, hr, hlast.steps hmem⟩

end compile

end TraceMind.Dsl
