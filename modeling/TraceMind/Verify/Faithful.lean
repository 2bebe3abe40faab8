import TraceMind.Verify.JointSpec

namespace TraceMind.Verify

open BoundedSearch Ctl

variable {V : Type}

def factPredicates : List Str := ["has".toList, "pending".toList, "done".toList]

def Faithful (V : Type) (ids : List Str) : Prop :=
  ∀ y : List (State V), y.length = ids.length → ∀ p ∈ ids.zip y, ∀ n ∈ factPredicates,
    ∀ (k : Str) (enabled enabled' : State V → List Str),
      evalPredicate enabled n (some (qualify p.1 k)) (project y ids) =
        evalPredicate enabled' n (some k) p.2

theorem factPredicates_lower {n : Str} (h : n ∈ factPredicates) : lower n ≠ "terminal".toList := by
  simp only [factPredicates, List.mem_cons, List.not_mem_nil, or_false] at h
  rcases h with rfl | rfl | rfl <;> decide

theorem PrefixFree.faithful {ids : List Str} (h : PrefixFree ids) : Faithful V ids := by
  intro y hy p hp n hn k enabled enabled'
  rw [Bool.eq_iff_iff, evalPredicate_project h hy (factPredicates_lower hn) enabled enabled']
  constructor
  · rintro ⟨q, hq, j, he, hj⟩
    obtain ⟨hcid, rfl⟩ := h.qualify_inj (List.of_mem_zip hp).1 (List.of_mem_zip hq).1 he
    rw [mem_zip_unique h.nodup hp hq hcid]
    exact hj
  · intro hk
    exact ⟨p, hp, k, rfl, hk⟩

def idle (V : Type) : State V := ⟨SortedMap.ofList [], [], [], []⟩

def onlyPending (V : Type) (len j : ℕ) (step : Str) : List (State V) :=
  (List.replicate len (idle V)).set j { idle V with pending := [step] }

theorem pending_onlyPending {ids : List Str} {j : ℕ} {b : Str} (hb : ids[j]? = some b)
    (step : Str) : qualify b step ∈ (project (onlyPending V ids.length j step) ids).pending := by
  obtain ⟨hj, -⟩ := List.getElem?_eq_some_iff.mp hb
  refine mem_gather.mpr ⟨(b, { idle V with pending := [step] }), ?_, step, ?_, rfl⟩
  · refine mem_zip_iff.mpr ⟨j, hb, ?_⟩
    rw [onlyPending, List.getElem?_set_self (by rw [List.length_replicate]; exact hj)]
  · exact List.mem_singleton_self step

theorem Faithful.apart {ids : List Str} (h : Faithful V ids) {i j : ℕ} (hij : i ≠ j) {a b : Str}
    (ha : ids[i]? = some a) (hb : ids[j]? = some b) : ¬ (a ++ ['.']) <+: (b ++ ['.']) := by
  rintro ⟨w, hw⟩
  obtain ⟨hi, -⟩ := List.getElem?_eq_some_iff.mp ha
  have hlen : (onlyPending V ids.length j ['k']).length = ids.length := by
    rw [onlyPending, List.length_set, List.length_replicate]
  have hp : (a, idle V) ∈ ids.zip (onlyPending V ids.length j ['k']) := by
    refine mem_zip_iff.mpr ⟨i, ha, ?_⟩
    rw [onlyPending, List.getElem?_set_ne hij.symm, List.getElem?_replicate, if_pos hi]
  have hname : qualify b ['k'] = qualify a (w ++ ['k']) := by
    rw [qualify_eq, qualify_eq, ← hw, List.append_assoc]
  have hseen := pending_onlyPending (V := V) hb ['k']
  rw [hname] at hseen
  have hpending : "pending".toList ∈ factPredicates :=
    List.mem_cons_of_mem _ List.mem_cons_self
  have hsame := h _ hlen _ hp _ hpending (w ++ ['k']) (fun _ => []) (fun _ => [])
  rw [Bool.eq_iff_iff, evalPredicate_some (by decide), evalPredicate_some (by decide)] at hsame
  have hlower : lower "pending".toList = "pending".toList := by decide
  rcases hsame.mp (Or.inr (Or.inl ⟨hlower, hseen⟩)) with ⟨hbad, -⟩ | ⟨-, hbad⟩ | ⟨hbad, -⟩
  · exact absurd hbad (by decide)
  · exact absurd hbad List.not_mem_nil
  · exact absurd hbad (by decide)

theorem Faithful.prefixFree {ids : List Str} (h : Faithful V ids) : PrefixFree ids := by
  rw [PrefixFree, List.pairwise_iff_getElem]
  intro i j hi hj hij
  have ha := List.getElem?_eq_getElem hi
  have hb := List.getElem?_eq_getElem hj
  exact ⟨h.apart (ne_of_lt hij) ha hb, h.apart (ne_of_gt hij) hb ha⟩

section calls

variable [DecidableEq V]

inductive Returned (a : JointAdapter V) : Memo V → List (List (State V)) → Prop
  | fresh : Returned a [] []
  | initial {memo memo' : Memo V} {past : List (List (State V))} {joint : List (State V)}
      {s : State V} : Returned a memo past →
    JointAdapter.initialStates a.components = .ok joint →
    a.initialState memo = .ok (s, memo') → Returned a memo' (joint :: past)
  | successors {memo memo' : Memo V} {past : List (List (State V))} {y joint : List (State V)}
      {outs : List (Str × List (State V))} {ys : List (Str × State V)} :
    Returned a memo past → y ∈ past →
    JointAdapter.lookupJoint memo (project y a.componentIds) = .ok joint →
    a.moves joint = .ok outs →
    a.successors memo (project y a.componentIds) = .ok (ys, memo') →
    Returned a memo' (outs.map Prod.snd ++ past)

def MovesExact (V : Type) [DecidableEq V] (ids : List Str) : Prop :=
  ∀ (components : List (ComponentAdapter V)), components.length = ids.length →
    ∀ memo past, Returned ⟨components, ids⟩ memo past → ∀ y ∈ past,
      (JointAdapter.successors ⟨components, ids⟩ memo (project y ids)).map Prod.fst =
        (JointAdapter.moves ⟨components, ids⟩ y).map
          (fun outs => outs.map (fun o => (o.1, project o.2 ids)))

theorem Returned.knows {a : JointAdapter V} (hfit : JointAdapter.Fit a) {memo : Memo V}
    {past : List (List (State V))} (h : Returned a memo past) :
    ∀ y ∈ past, JointAdapter.Knows a memo y := by
  induction h with
  | fresh => exact fun y hy => absurd hy List.not_mem_nil
  | initial _ hjoint hs ih =>
    intro y hy
    have hlen := hfit.root_length hjoint
    rw [JointAdapter.initialState, hjoint] at hs
    cases hs
    rcases List.mem_cons.mp hy with rfl | hy
    · exact hfit.remember_knows hlen (Or.inl rfl)
    · exact hfit.remember_knows hlen (Or.inr (ih y hy))
  | @successors memo memo' past y joint outs ys _ hy hl hm hs ih =>
    intro z hz
    have hlook : JointAdapter.lookupJoint memo (project y a.componentIds) = .ok y := by
      rw [JointAdapter.lookupJoint, (ih y hy).2]
    rw [hlook] at hl
    cases hl
    rw [JointAdapter.successors, hlook] at hs
    change (a.moves y >>= _) = _ at hs
    rw [hm] at hs
    cases hs
    have hlen : ∀ w ∈ outs.map Prod.snd, w.length = a.componentIds.length := fun w hw =>
      (hfit.next_length ⟨outs, hm, hw⟩).trans (ih y hy).1
    rcases List.mem_append.mp hz with hz | hz
    · exact hfit.remember_all _ hlen z (Or.inl hz)
    · exact hfit.remember_all _ hlen z (Or.inr (ih z hz))

theorem PrefixFree.movesExact {ids : List Str} (h : PrefixFree ids) : MovesExact V ids := by
  intro components hlen memo past hr y hy
  have hfit : JointAdapter.Fit ⟨components, ids⟩ := ⟨h, hlen⟩
  have hlook : JointAdapter.lookupJoint memo (project y ids) = .ok y := by
    rw [JointAdapter.lookupJoint, (hr.knows hfit y hy).2]
  rw [JointAdapter.successors, hlook]
  change (JointAdapter.moves ⟨components, ids⟩ y >>= _).map Prod.fst = _
  cases JointAdapter.moves ⟨components, ids⟩ y with
  | error e => rfl
  | ok outs => rfl

theorem project_faithful_iff (ids : List Str) :
    (Faithful V ids ∧ MovesExact V ids) ↔ PrefixFree ids :=
  ⟨fun h => h.1.prefixFree, fun h => ⟨h.faithful, h.movesExact⟩⟩

end calls

def waitingFor (step : Str) : State Bool := { idle Bool with pending := [step] }

def outerComponent : ComponentAdapter Bool where
  initialState := .ok (waitingFor "b.k".toList)
  successors := fun s => .ok (if s.pending = [] then [] else [(['x'], idle Bool)])
  isDeadlocked := fun _ => false
  enabledSteps := fun _ => []

def innerComponent : ComponentAdapter Bool where
  initialState := .ok (idle Bool)
  successors := fun s => .ok (if s.pending = [] then [(['y'], waitingFor ['k'])] else [])
  isDeadlocked := fun _ => false
  enabledSteps := fun _ => []

def clashIds : List Str := ["a".toList, "a.b".toList]

def clash : JointAdapter Bool := ⟨[outerComponent, innerComponent], clashIds⟩

def clashRoot : List (State Bool) := [waitingFor "b.k".toList, idle Bool]

theorem clash_returned :
    ∃ memo past, Returned clash memo past ∧ clashRoot ∈ past ∧
      (clash.successors memo (project clashRoot clashIds)).map Prod.fst = .ok [] ∧
      (clash.moves clashRoot).map List.length = .ok 2 := by
  have h1 : Returned clash _ [clashRoot] := .initial .fresh rfl rfl
  have h2 := Returned.successors (y := clashRoot) h1 List.mem_cons_self rfl rfl rfl
  have h3 := Returned.successors (y := [idle Bool, idle Bool]) h2 List.mem_cons_self rfl rfl rfl
  refine ⟨_, _, h3, ?_, rfl, rfl⟩
  decide

theorem dotted_ids_clash :
    JointAdapter.fromComponents [outerComponent, innerComponent] (some clashIds) = .ok clash ∧
      ¬ Faithful Bool clashIds ∧ ¬ MovesExact Bool clashIds := by
  refine ⟨rfl, fun h => absurd h.prefixFree (by decide), fun h => ?_⟩
  obtain ⟨memo, past, hr, hmem, hsucc, hlen⟩ := clash_returned
  have hexact := h [outerComponent, innerComponent] rfl memo past hr clashRoot hmem
  have hsucc' : (JointAdapter.successors ⟨[outerComponent, innerComponent], clashIds⟩ memo
      (project clashRoot clashIds)).map Prod.fst = .ok [] := hsucc
  rw [hsucc'] at hexact
  cases hm : clash.moves clashRoot with
  | error e =>
    rw [hm] at hlen
    cases hlen
  | ok outs =>
    rw [hm] at hlen
    have hm' : JointAdapter.moves ⟨[outerComponent, innerComponent], clashIds⟩ clashRoot =
        .ok outs := hm
    rw [hm'] at hexact
    have hnil := (Except.ok.inj hexact).symm
    rw [List.map_eq_nil_iff] at hnil
    rw [hnil] at hlen
    cases hlen

end TraceMind.Verify
