import TraceMind.Foundation.SharedDocument
import TraceMind.Intent.Steps

namespace TraceMind.Intent

open Artifacts
open SharedDocument (Cell Event Made Serial Service State)

section store

variable {Source : Type}

inductive StoreOp (Source : Type) where
  | create (rootIntentRef : Str)
  | act (w : World Source) (op : Op Source)

def applyStored (sha : Sha256) (sessionId : Str) : StoreOp Source → Option Session → Option Session
  | .create rootIntentRef, none => some (newSession sessionId rootIntentRef)
  | .act w op, some s => (apply sha w s op).toOption
  | _, _ => none

def sessionService (sha : Sha256) (sessionId : Str) (valid : Session → Bool) :
    Service Session (StoreOp Source) :=
  ⟨applyStored sha sessionId, valid⟩

def appendedTurns (e : Option Session × Session) : List Turn :=
  match e.1 with
  | none => e.2.turns
  | some s => e.2.turns.drop s.turns.length

def KeepsTurns {Client : Type} (s : State Client Session) : Prop :=
  s.Quiet → ∀ e ∈ s.saved, ∀ t ∈ appendedTurns e, ∃ d, s.cell = .whole d ∧ t ∈ d.turns

def StaysSealed {Client : Type} (s : State Client Session) : Prop :=
  s.saved.Pairwise (fun a b => a.2.status = .sealed → b.2.status ≠ .working)

end store

section serial

variable {Source Client : Type} {sha : Sha256} {sessionId : Str}
  {valid : Session → Bool} {d₀ : Option Session} {s t : State Client Session} {a b : Session}

theorem made_accepted (h : Made (sessionService sha sessionId valid : Service Session (StoreOp Source)) (some a) b) :
    ∃ (w : World Source) (op : Op Source), Accepted sha w a op b := by
  obtain ⟨op, hop⟩ := h
  cases op with
  | create root => cases hop
  | act w op =>
    refine ⟨w, op, apply_accepted ?_⟩
    have hopt : (apply sha w a op).toOption = some b := hop
    cases ha : apply sha w a op with
    | error r => rw [ha] at hopt; cases hopt
    | ok s' => rw [ha] at hopt; cases hopt; rfl

theorem made_working (h : Made (sessionService sha sessionId valid : Service Session (StoreOp Source)) (some a) b) :
    a.status = .working := by
  obtain ⟨w, op, hacc⟩ := made_accepted h
  exact hacc.working

theorem made_turns (h : Made (sessionService sha sessionId valid : Service Session (StoreOp Source)) (some a) b) :
    a.turns ⊆ b.turns := by
  obtain ⟨w, op, hacc⟩ := made_accepted h
  rcases hacc.turns with ht | ⟨t, ht, -⟩
  · exact ht ▸ List.Subset.refl _
  · rw [ht]
    exact List.subset_append_left _ _

theorem appendedTurns_subset (e : Option Session × Session) : appendedTurns e ⊆ e.2.turns := by
  obtain ⟨base, d⟩ := e
  cases base with
  | none => exact List.Subset.refl _
  | some s => exact List.drop_subset _ _

theorem keepsTurns_of_serial
    (h : Serial (sessionService sha sessionId valid : Service Session (StoreOp Source)) d₀ s) : KeepsTurns s := by
  intro hq e he t ht
  obtain ⟨y, hy, hsub⟩ := h.linked.latest_keeps (r := fun x y => x.turns ⊆ y.turns)
    (fun x => List.Subset.refl _) (fun x y z => List.Subset.trans) (fun x y => made_turns) he
  refine ⟨y, ?_, hsub (appendedTurns_subset e ht)⟩
  rw [h.quiet hq, hy]
  rfl

theorem staysSealed_of_serial
    (h : Serial (sessionService sha sessionId valid : Service Session (StoreOp Source)) d₀ s) : StaysSealed s := by
  have hwork := h.linked.pairwise (p := fun x => x.status = .working) (fun x y => made_working)
  exact hwork.imp (fun hw hs => by rw [hw] at hs; cases hs)

theorem fresh_saves_keep_session [DecidableEq Client] (sha : Sha256) (sessionId : Str) (valid : Session → Bool)
    (d₀ : Option Session) (evs : List (Event Client (StoreOp Source)))
    (hfresh : (State.start d₀).FreshRun (sessionService sha sessionId valid) evs)
    (hrun : (State.start d₀).run (sessionService sha sessionId valid) evs = some t) :
    KeepsTurns t ∧ StaysSealed t := by
  have h := (SharedDocument.serial_start d₀).run hfresh hrun
  exact ⟨keepsTurns_of_serial h, staysSealed_of_serial h⟩

end serial

def plainSha : Sha256 := .ofTable [] Artifacts.noDigests

def clarifyAs (role : Str) : StoreOp Unit :=
  .act noFiles (.clarify { disposition := "supplement".toList, role })

def staleRun : List (Event Bool (StoreOp Unit)) :=
  [.load false, .compute false (.create "root".toList), .beginSave false, .endSave false true,
    .load false, .load true, .compute false (clarifyAs human), .compute true (clarifyAs agent),
    .beginSave false, .endSave false true, .beginSave true, .endSave true true]

def freshRun : List (Event Bool (StoreOp Unit)) :=
  [.load false, .compute false (.create "root".toList), .beginSave false, .endSave false true,
    .load true, .compute true (clarifyAs agent), .beginSave true, .endSave true true]

def demoService : Service Session (StoreOp Unit) :=
  sessionService plainSha "s".toList (fun _ => true)

def rolesOf (c : Cell Bool Session) : List Str :=
  match c with
  | .whole d => d.turns.map (fun t => t.role)
  | _ => []

theorem staleRun_result : ∃ t, (State.start none).run demoService staleRun = some t ∧
    (t.phase false = .idle ∧ t.phase true = .idle) ∧ rolesOf t.cell = [agent] ∧
    (t.saved.flatMap appendedTurns).map (fun u => u.role) = [human, agent] :=
  ⟨_, rfl, ⟨rfl, rfl⟩, rfl, rfl⟩

theorem stale_save_loses_turn : ∃ t, (State.start none).run demoService staleRun = some t ∧
    ¬KeepsTurns t := by
  obtain ⟨t, hrun, ⟨hf, ht⟩, hroles, happended⟩ := staleRun_result
  refine ⟨t, hrun, fun hkeep => ?_⟩
  have hquiet : t.Quiet := by
    intro c b d h
    cases c with
    | false => rw [hf] at h; cases h
    | true => rw [ht] at h; cases h
  have hmem : human ∈ (t.saved.flatMap appendedTurns).map (fun u => u.role) := by
    rw [happended]
    exact List.mem_cons_self
  obtain ⟨u, hu, hrole⟩ := List.mem_map.mp hmem
  obtain ⟨e, he, hue⟩ := List.mem_flatMap.mp hu
  obtain ⟨d, hd, hud⟩ := hkeep hquiet e he u hue
  have hin : human ∈ rolesOf t.cell := by
    rw [hd, ← hrole]
    exact List.mem_map_of_mem hud
  rw [hroles] at hin
  exact absurd hin (by decide)

theorem freshRun_fresh : (State.start none).FreshRun demoService freshRun := by
  refine ⟨trivial, ?_⟩
  rintro _ ⟨⟩
  refine ⟨trivial, ?_⟩
  rintro _ ⟨⟩
  refine ⟨fun b d h => by cases h; rfl, ?_⟩
  rintro _ ⟨⟩
  refine ⟨trivial, ?_⟩
  rintro _ ⟨⟩
  refine ⟨trivial, ?_⟩
  rintro _ ⟨⟩
  refine ⟨trivial, ?_⟩
  rintro _ ⟨⟩
  refine ⟨fun b d h => by cases h; rfl, ?_⟩
  rintro _ ⟨⟩
  refine ⟨trivial, ?_⟩
  rintro _ ⟨⟩
  exact trivial

theorem freshRun_keeps : ∃ t, (State.start none).run demoService freshRun = some t ∧
    KeepsTurns t ∧ StaysSealed t :=
  ⟨_, rfl, fresh_saves_keep_session plainSha "s".toList (fun _ => true) none freshRun
    freshRun_fresh rfl⟩

end TraceMind.Intent
