import TraceMind.Intent.ProfileLoader

namespace TraceMind.Intent

open Artifacts (JsonFields)
open Queue (PyFloat PyText)
open ParentWalk (Grounded)

section chain

variable (py : PyText) (float : PyFloat) (fs : FileSystem)

def rawAt (path : PurePath) : Option JsonFields := (readProfile fs [] path).toOption

def linkAt (path : PurePath) : Option (Str × Str) :=
  (rawAt fs path).bind (fun raw =>
    (extendsOf py float raw).map (fun ext => (profileIdOf py float raw path, ext)))

def nextPath (path : PurePath) : Option PurePath :=
  (linkAt py float fs path).map (fun l => resolveProfilePath fs l.2 (some path.parent))

inductive Ends : PurePath → Prop where
  | last {path : PurePath} {raw : JsonFields} (hraw : rawAt fs path = some raw)
      (hext : extendsOf py float raw = none)
      (hlayer : ∃ l, readLayer py float path.text raw = .ok l) : Ends path
  | step {path : PurePath} {raw : JsonFields} {ext : Str} (hraw : rawAt fs path = some raw)
      (hext : extendsOf py float raw = some ext)
      (hlayer : ∃ l, readLayer py float path.text raw = .ok l)
      (hnext : Ends (resolveProfilePath fs ext (some path.parent))) : Ends path

def Endless (path : PurePath) : Prop := ¬Grounded (nextPath py float fs) path

inductive Caught : PurePath → List Str → Prop where
  | here {path : PurePath} {id ext : Str} {seen : List Str}
      (hlink : linkAt py float fs path = some (id, ext)) (hid : ext = id ∨ ext ∈ seen) :
      Caught path seen
  | later {path : PurePath} {id ext : Str} {seen : List Str}
      (hlink : linkAt py float fs path = some (id, ext))
      (hnext : Caught (resolveProfilePath fs ext (some path.parent)) (id :: seen)) :
      Caught path seen

end chain

section loading

variable {py : PyText} {float : PyFloat} {fs : FileSystem} {path : PurePath} {name ext id : Str}
  {baseDir : Option PurePath} {seen : List Str} {raw : JsonFields}

theorem readProfile_ok : readProfile fs name path = .ok raw ↔ rawAt fs path = some raw := by
  rw [rawAt, readProfile, readProfile]
  cases fs.entry path with
  | none => exact iff_of_false (fun h => by cases h) (fun h => by cases h)
  | some i =>
    dsimp only
    cases fs.files.get i with
    | error e => exact iff_of_false (fun h => by cases h) (fun h => by cases h)
    | ok v =>
      cases v with
      | obj fields => simp [Except.toOption]
      | _ => exact iff_of_false (fun h => by cases h) (fun h => by cases h)

theorem linkAt_some : linkAt py float fs path = some (id, ext) ↔
    ∃ raw, rawAt fs path = some raw ∧ extendsOf py float raw = some ext ∧
      profileIdOf py float raw path = id := by
  rw [linkAt]
  constructor
  · intro h
    obtain ⟨raw, hraw, hmap⟩ := Option.bind_eq_some_iff.mp h
    obtain ⟨e, he, hpair⟩ := Option.map_eq_some_iff.mp hmap
    cases hpair
    exact ⟨raw, hraw, he, rfl⟩
  · rintro ⟨raw, hraw, hext, rfl⟩
    rw [hraw, Option.bind_some, hext]
    rfl

theorem nextPath_link (h : linkAt py float fs path = some (id, ext)) :
    nextPath py float fs path = some (resolveProfilePath fs ext (some path.parent)) := by
  rw [nextPath, h]
  rfl

theorem nextPath_none (h : linkAt py float fs path = none) : nextPath py float fs path = none := by
  rw [nextPath, h]
  rfl

theorem loadProfile_last (hraw : rawAt fs (resolveProfilePath fs name baseDir) = some raw)
    (hext : extendsOf py float raw = none) (fuel : ℕ) :
    loadProfile py float fs (fuel + 1) name baseDir seen =
      some (layered py float (resolveProfilePath fs name baseDir).text
        (profileIdOf py float raw (resolveProfilePath fs name baseDir)) raw rootProfile) := by
  rw [loadProfile]
  dsimp only
  rw [readProfile_ok.mpr hraw]
  dsimp only
  rw [hext]

theorem loadProfile_stop (h : linkAt py float fs (resolveProfilePath fs name baseDir) = none) :
    ∃ r, ∀ fuel, loadProfile py float fs (fuel + 1) name baseDir seen = some r := by
  cases hread : readProfile fs name (resolveProfilePath fs name baseDir) with
  | error e =>
    refine ⟨.error e, fun fuel => ?_⟩
    rw [loadProfile]
    dsimp only
    rw [hread]
    rfl
  | ok raw =>
    have hext : extendsOf py float raw = none := by
      rw [linkAt, readProfile_ok.mp hread, Option.bind_some, Option.map_eq_none_iff] at h
      exact h
    exact ⟨_, fun fuel => loadProfile_last (readProfile_ok.mp hread) hext fuel⟩

theorem loadProfile_link (hraw : rawAt fs (resolveProfilePath fs name baseDir) = some raw)
    (hext : extendsOf py float raw = some ext) (fuel : ℕ) :
    loadProfile py float fs (fuel + 1) name baseDir seen =
      if ext = profileIdOf py float raw (resolveProfilePath fs name baseDir) ∨ ext ∈ seen then
        .fail (cycleError ext)
      else
        (loadProfile py float fs fuel ext (some (resolveProfilePath fs name baseDir).parent)
          (profileIdOf py float raw (resolveProfilePath fs name baseDir) :: seen)).andThen
          (fun parent => some (layered py float (resolveProfilePath fs name baseDir).text
            (profileIdOf py float raw (resolveProfilePath fs name baseDir)) raw
            parent.toProfile)) := by
  rw [loadProfile]
  dsimp only
  rw [readProfile_ok.mpr hraw]
  dsimp only
  rw [hext]

theorem loadProfile_le (fuel : ℕ) :
    Fuelled.Le (loadProfile py float fs fuel name baseDir seen)
      (loadProfile py float fs (fuel + 1) name baseDir seen) := by
  induction fuel generalizing name baseDir seen with
  | zero => exact Or.inl rfl
  | succ fuel ih =>
    cases hlink : linkAt py float fs (resolveProfilePath fs name baseDir) with
    | none =>
      obtain ⟨r, hr⟩ := loadProfile_stop hlink
      rw [hr, hr]
      exact Fuelled.Le.refl _
    | some l =>
      obtain ⟨id, ext⟩ := l
      obtain ⟨raw, hraw, hext, -⟩ := linkAt_some.mp hlink
      rw [loadProfile_link hraw hext, loadProfile_link hraw hext]
      split_ifs
      · exact Fuelled.Le.refl _
      · exact ih.andThen (fun _ => Fuelled.Le.refl _)

theorem layered_ok {label : Str} {parent : Profile}
    (h : ∃ l, readLayer py float label raw = .ok l) :
    ∃ profile, layered py float label id raw parent = .ok profile := by
  obtain ⟨l, hl⟩ := h
  rw [layered, hl]
  exact ⟨_, rfl⟩

theorem loadProfile_caught (h : Caught py float fs path seen)
    (hpath : resolveProfilePath fs name baseDir = path) :
    ∃ fuel e, loadProfile py float fs fuel name baseDir seen = .fail (cycleError e) := by
  induction h generalizing name baseDir with
  | here hlink hid =>
    subst hpath
    obtain ⟨raw, hraw, hext, rfl⟩ := linkAt_some.mp hlink
    exact ⟨1, _, by rw [loadProfile_link hraw hext, if_pos hid]⟩
  | later hlink _ ih =>
    subst hpath
    obtain ⟨raw, hraw, hext, rfl⟩ := linkAt_some.mp hlink
    obtain ⟨fuel, e, hload⟩ := ih rfl
    refine ⟨fuel + 1, ?_⟩
    rw [loadProfile_link hraw hext]
    split_ifs
    · exact ⟨_, rfl⟩
    · exact ⟨e, by rw [hload]; rfl⟩

theorem loadProfile_ends (h : Ends py float fs path) (hnot : ¬Caught py float fs path seen)
    (hpath : resolveProfilePath fs name baseDir = path) :
    ∃ fuel profile, loadProfile py float fs fuel name baseDir seen = .ret profile := by
  induction h generalizing name baseDir seen with
  | last hraw hext hlayer =>
    subst hpath
    obtain ⟨profile, hprofile⟩ := layered_ok hlayer
    exact ⟨1, profile, (loadProfile_last hraw hext 0).trans (congrArg some hprofile)⟩
  | step hraw hext hlayer _ ih =>
    subst hpath
    have hlink := linkAt_some.mpr ⟨_, hraw, hext, rfl⟩
    obtain ⟨fuel, parent, hload⟩ := ih (fun hc => hnot (.later hlink hc)) rfl
    obtain ⟨profile, hprofile⟩ := layered_ok hlayer
    refine ⟨fuel + 1, profile, ?_⟩
    rw [loadProfile_link hraw hext, if_neg (fun hg => hnot (.here hlink hg)), hload]
    exact congrArg some hprofile

theorem loadProfile_grounded (h : Grounded (nextPath py float fs) path)
    (hpath : resolveProfilePath fs name baseDir = path) :
    ∃ fuel, loadProfile py float fs fuel name baseDir seen ≠ .out := by
  induction h generalizing name baseDir seen with
  | root hnone =>
    subst hpath
    cases hlink : linkAt py float fs (resolveProfilePath fs name baseDir) with
    | none =>
      obtain ⟨r, hr⟩ := loadProfile_stop hlink
      exact ⟨1, by rw [hr]; exact Option.some_ne_none _⟩
    | some l => cases (nextPath_link hlink).symm.trans hnone
  | step hnext _ ih =>
    subst hpath
    cases hlink : linkAt py float fs (resolveProfilePath fs name baseDir) with
    | none => cases (nextPath_none hlink).symm.trans hnext
    | some l =>
      obtain ⟨id, ext⟩ := l
      obtain ⟨raw, hraw, hext, rfl⟩ := linkAt_some.mp hlink
      have hq := Option.some.inj ((nextPath_link hlink).symm.trans hnext)
      obtain ⟨fuel, hfuel⟩ : ∃ fuel, loadProfile py float fs fuel ext
          (some (resolveProfilePath fs name baseDir).parent)
          (profileIdOf py float raw (resolveProfilePath fs name baseDir) :: seen) ≠ .out := ih hq
      refine ⟨fuel + 1, ?_⟩
      rw [loadProfile_link hraw hext]
      split_ifs
      · exact Option.some_ne_none _
      · exact Fuelled.andThen_ne_out hfuel (fun _ => Option.some_ne_none _)

theorem loadProfile_endless (fuel : ℕ) (h : Endless py float fs path)
    (hnot : ¬Caught py float fs path seen) (hpath : resolveProfilePath fs name baseDir = path) :
    loadProfile py float fs fuel name baseDir seen = .out := by
  induction fuel generalizing path name baseDir seen with
  | zero => rfl
  | succ fuel ih =>
    subst hpath
    cases hlink : linkAt py float fs (resolveProfilePath fs name baseDir) with
    | none => exact absurd (.root (nextPath_none hlink)) h
    | some l =>
      obtain ⟨id, ext⟩ := l
      obtain ⟨raw, hraw, hext, rfl⟩ := linkAt_some.mp hlink
      rw [loadProfile_link hraw hext, if_neg (fun hg => hnot (.here hlink hg)),
        ih (fun hg => h (.step (nextPath_link hlink) hg)) (fun hc => hnot (.later hlink hc)) rfl]
      rfl

end loading

section guard

variable (py : PyText) (float : PyFloat) (fs : FileSystem)

structure LoadsSafely (name : Str) (baseDir : Option PurePath) : Prop where
  terminates : ∃ fuel, loadProfile py float fs fuel name baseDir [] ≠ .out
  finite : Ends py float fs (resolveProfilePath fs name baseDir) →
    ∃ fuel profile, loadProfile py float fs fuel name baseDir [] = .ret profile
  cyclic : Endless py float fs (resolveProfilePath fs name baseDir) →
    ∃ fuel message, loadProfile py float fs fuel name baseDir [] = .fail (.valueError message)

theorem loadsSafely_of_guard {name : Str} {baseDir : Option PurePath}
    (hends : Ends py float fs (resolveProfilePath fs name baseDir) →
      ¬Caught py float fs (resolveProfilePath fs name baseDir) [])
    (hendless : Endless py float fs (resolveProfilePath fs name baseDir) →
      Caught py float fs (resolveProfilePath fs name baseDir) []) :
    LoadsSafely py float fs name baseDir := by
  refine ⟨?_, fun h => loadProfile_ends h (hends h) rfl, fun h => ?_⟩
  · by_cases hg : Grounded (nextPath py float fs) (resolveProfilePath fs name baseDir)
    · exact loadProfile_grounded hg rfl
    · obtain ⟨fuel, e, hfail⟩ := loadProfile_caught (hendless hg) rfl
      exact ⟨fuel, by rw [hfail]; exact Option.some_ne_none _⟩
  · obtain ⟨fuel, e, hfail⟩ := loadProfile_caught (hendless h) rfl
    exact ⟨fuel, _, hfail⟩

theorem loads_safely_iff (name : Str) (baseDir : Option PurePath) :
    LoadsSafely py float fs name baseDir ↔
      (Ends py float fs (resolveProfilePath fs name baseDir) →
        ¬Caught py float fs (resolveProfilePath fs name baseDir) []) ∧
      (Endless py float fs (resolveProfilePath fs name baseDir) →
        Caught py float fs (resolveProfilePath fs name baseDir) []) := by
  constructor
  · intro h
    refine ⟨fun hends hcaught => ?_, fun hendless => ?_⟩
    · obtain ⟨m, profile, hret⟩ := h.finite hends
      obtain ⟨n, e, hfail⟩ := loadProfile_caught hcaught rfl
      have hagree := Fuelled.agree (fun k => loadProfile_le k)
        (by rw [hret]; exact Option.some_ne_none _) (by rw [hfail]; exact Option.some_ne_none _)
      rw [hret, hfail] at hagree
      exact Fuelled.fail_ne_ret hagree.symm
    · by_contra hnot
      obtain ⟨fuel, hfuel⟩ := h.terminates
      exact hfuel (loadProfile_endless fuel hendless hnot rfl)
  · rintro ⟨hends, hendless⟩
    exact loadsSafely_of_guard py float fs hends hendless

end guard

section paths

variable {py : PyText} {float : PyFloat} {fs : FileSystem} {path : PurePath} {seen ids : List Str}
  {S : PurePath → Prop}

def Unnamed (py : PyText) (float : PyFloat) (fs : FileSystem) (S : PurePath → Prop)
    (ids : List Str) : Prop :=
  ∀ path, S path → ∃ id ext, linkAt py float fs path = some (id, ext) ∧ id ∈ ids ∧ ext ∉ ids ∧
    S (resolveProfilePath fs ext (some path.parent))

theorem Unnamed.endless (h : Unnamed py float fs S ids) (hpath : S path) :
    Endless py float fs path := by
  intro hg
  induction hg with
  | root hnone =>
    obtain ⟨id, ext, hlink, -⟩ := h _ hpath
    cases (nextPath_link hlink).symm.trans hnone
  | step hnext _ ih =>
    obtain ⟨id, ext, hlink, -, -, hS⟩ := h _ hpath
    cases (nextPath_link hlink).symm.trans hnext
    exact ih hS

theorem Unnamed.not_caught (h : Unnamed py float fs S ids) (hpath : S path)
    (hseen : ∀ s ∈ seen, s ∈ ids) : ¬Caught py float fs path seen := by
  intro hc
  induction hc with
  | here hlink hid =>
    obtain ⟨id, ext, hlink', hmem, hnot, -⟩ := h _ hpath
    cases hlink.symm.trans hlink'
    rcases hid with rfl | hs
    · exact hnot hmem
    · exact hnot (hseen _ hs)
  | later hlink _ ih =>
    obtain ⟨id, ext, hlink', hmem, -, hS⟩ := h _ hpath
    cases hlink.symm.trans hlink'
    refine ih hS (fun s hs => ?_)
    rcases List.mem_cons.mp hs with rfl | hs
    · exact hmem
    · exact hseen s hs

def profileFile (id ext : String) : Except LoadError Json :=
  .ok (.obj [("profile_id".toList, .str id.toList), ("extends".toList, .str ext.toList)])

def onePath : PurePath := ⟨[], ["one.yaml".toList]⟩

def twoPath : PurePath := ⟨[], ["two.yaml".toList]⟩

def twoFiles : FileSystem where
  files := [profileFile "first" "two.yaml", profileFile "second" "one.yaml"]
  entry p := if p = onePath then some 0 else if p = twoPath then some 1 else none
  expanduser p := p
  profilesDir := ⟨['/'], ["profiles".toList]⟩

theorem twoFiles_unnamed : Unnamed Queue.plainPy (fun _ => none) twoFiles
    (fun p => p = onePath ∨ p = twoPath) ["first".toList, "second".toList] := by
  rintro p (rfl | rfl)
  · exact ⟨"first".toList, "two.yaml".toList, by decide +kernel, by decide, by decide,
      Or.inr (by decide +kernel)⟩
  · exact ⟨"second".toList, "one.yaml".toList, by decide +kernel, by decide, by decide,
      Or.inl (by decide +kernel)⟩

theorem two_files_never_load :
    ¬LoadsSafely Queue.plainPy (fun _ => none) twoFiles "one.yaml".toList none := by
  intro h
  have hpath : resolveProfilePath twoFiles "one.yaml".toList none = onePath := by decide +kernel
  obtain ⟨fuel, hfuel⟩ := h.terminates
  refine hfuel (loadProfile_endless fuel (twoFiles_unnamed.endless (Or.inl rfl)) ?_ hpath)
  exact twoFiles_unnamed.not_caught (Or.inl rfl) (fun s hs => by cases hs)

end paths

end TraceMind.Intent
