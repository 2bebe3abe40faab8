import TraceMind.Foundation.JsonRead

namespace Python

-- A key of a dict. Of one that is not a string: what `str` makes of it, and what stands for it in
-- a JSON text, if it may stand there.
inductive Key where
  | str (s : List Char)
  | other (shown : List Char) (written : Option (List Char))

def Key.shown : Key → List Char
  | .str s => s
  | .other shown _ => shown

def Key.written : Key → Option (List Char)
  | .str s => some s
  | .other _ written => written

abbrev FloatText := { t : List Char // Json.readable (.float t) = true }

def FloatText.parse (t : List Char) : FloatText :=
  if h : Json.readable (.float t) = true then ⟨t, h⟩ else ⟨['0', '.', '0'], by decide⟩

-- A Python object; the last one is an object that `json.dumps` does not take.
inductive Object where
  | null
  | bool (b : Bool)
  | nan
  | infinity (negative : Bool)
  | int (n : ℤ)
  | float (text : FloatText)
  | str (s : List Char)
  | list (items : List Object)
  | tuple (items : List Object)
  | dict (fields : List (Key × Object))
  | other

mutual

def Object.toJson : Object → Option Json
  | .null => some .null
  | .bool b => some (.bool b)
  | .nan => some .nan
  | .infinity negative => some (.infinity negative)
  | .int n => some (.int n)
  | .float t => some (.float t)
  | .str s => some (.str s)
  | .list vs => (objectItems vs).map Json.arr
  | .tuple vs => (objectItems vs).map Json.arr
  | .dict fs => (objectFields fs).map Json.obj
  | .other => none

def objectItems : List Object → Option (List Json)
  | [] => some []
  | v :: vs => v.toJson.bind (fun j => (objectItems vs).map (j :: ·))

def objectFields : List (Key × Object) → Option (List (List Char × Json))
  | [] => some []
  | (k, v) :: fs =>
    k.written.bind (fun t => v.toJson.bind (fun j => (objectFields fs).map ((t, j) :: ·)))

end

mutual

def Object.ofJson : Json → Object
  | .null => .null
  | .bool b => .bool b
  | .nan => .nan
  | .infinity negative => .infinity negative
  | .int n => .int n
  | .float t => .float (FloatText.parse t)
  | .str s => .str s
  | .arr vs => .list (objectsOf vs)
  | .obj fs => .dict (fieldsOf fs)

def objectsOf : List Json → List Object
  | [] => []
  | v :: vs => .ofJson v :: objectsOf vs

def fieldsOf : List (List Char × Json) → List (Key × Object)
  | [] => []
  | (k, v) :: fs => (.str k, .ofJson v) :: fieldsOf fs

end

def isText : Key → Bool
  | .str _ => true
  | .other _ _ => false

mutual

def Object.plain : Object → Bool
  | .list vs => plainItems vs
  | .tuple _ => false
  | .dict fs => decide (fs.map (fun f => f.1.shown)).Nodup && plainFields fs
  | .other => false
  | _ => true

def plainItems : List Object → Bool
  | [] => true
  | v :: vs => v.plain && plainItems vs

def plainFields : List (Key × Object) → Bool
  | [] => true
  | (k, v) :: fs => isText k && v.plain && plainFields fs

end

mutual

theorem toJson_readable : ∀ {v : Object} {j : Json}, v.toJson = some j → Json.readable j = true
  | .float t, _, rfl => t.2
  | .null, _, rfl => rfl
  | .bool _, _, rfl => rfl
  | .nan, _, rfl => rfl
  | .infinity _, _, rfl => rfl
  | .int _, _, rfl => rfl
  | .str _, _, rfl => rfl
  | .list _, _, h => by
    obtain ⟨js, hjs, rfl⟩ := Option.map_eq_some_iff.mp h
    exact objectItems_readable hjs
  | .tuple _, _, h => by
    obtain ⟨js, hjs, rfl⟩ := Option.map_eq_some_iff.mp h
    exact objectItems_readable hjs
  | .dict _, _, h => by
    obtain ⟨gs, hgs, rfl⟩ := Option.map_eq_some_iff.mp h
    exact objectFields_readable hgs

theorem objectItems_readable : ∀ {vs : List Object} {js : List Json}, objectItems vs = some js →
    Json.readableItems js = true
  | [], _, rfl => rfl
  | v :: vs, _, h => by
    obtain ⟨j, hj, h⟩ := Option.bind_eq_some_iff.mp h
    obtain ⟨js, hjs, rfl⟩ := Option.map_eq_some_iff.mp h
    exact Bool.and_eq_true_iff.mpr ⟨toJson_readable hj, objectItems_readable hjs⟩

theorem objectFields_readable : ∀ {fs : List (Key × Object)} {gs : List (List Char × Json)},
    objectFields fs = some gs → Json.readableFields gs = true
  | [], _, rfl => rfl
  | (k, v) :: fs, _, h => by
    obtain ⟨t, -, h⟩ := Option.bind_eq_some_iff.mp h
    obtain ⟨j, hj, h⟩ := Option.bind_eq_some_iff.mp h
    obtain ⟨gs, hgs, rfl⟩ := Option.map_eq_some_iff.mp h
    exact Bool.and_eq_true_iff.mpr ⟨toJson_readable hj, objectFields_readable hgs⟩

end

theorem fieldsOf_keys (fs : List (List Char × Json)) :
    (fieldsOf fs).map (fun f => f.1.shown) = fs.map Prod.fst := by
  induction fs with
  | nil => rfl
  | cons f fs ih => rw [fieldsOf, List.map_cons, List.map_cons, ih]; rfl

theorem FloatText.parse_coe (t : FloatText) : FloatText.parse t = t := dif_pos t.2

mutual

theorem plain_ofJson : ∀ {j : Json}, Json.wf j = true → (Object.ofJson j).plain = true
  | .float _, _ => rfl
  | .null, _ => rfl
  | .bool _, _ => rfl
  | .nan, _ => rfl
  | .infinity _, _ => rfl
  | .int _, _ => rfl
  | .str _, _ => rfl
  | .arr _, h => plain_objectsOf h
  | .obj fs, h => by
    obtain ⟨hnd, hfs⟩ := Bool.and_eq_true_iff.mp h
    refine Bool.and_eq_true_iff.mpr ⟨?_, plain_fieldsOf hfs⟩
    rwa [fieldsOf_keys]

theorem plain_objectsOf : ∀ {js : List Json}, Json.wfItems js = true →
    plainItems (objectsOf js) = true
  | [], _ => rfl
  | _ :: _, h => by
    obtain ⟨hj, hjs⟩ := Bool.and_eq_true_iff.mp h
    exact Bool.and_eq_true_iff.mpr ⟨plain_ofJson hj, plain_objectsOf hjs⟩

theorem plain_fieldsOf : ∀ {fs : List (List Char × Json)}, Json.wfFields fs = true →
    plainFields (fieldsOf fs) = true
  | [], _ => rfl
  | (_, _) :: _, h => by
    obtain ⟨hj, hfs⟩ := Bool.and_eq_true_iff.mp h
    exact Bool.and_eq_true_iff.mpr ⟨plain_ofJson hj, plain_fieldsOf hfs⟩

end

mutual

theorem plain_toJson : ∀ {v : Object}, v.plain = true →
    ∃ j, v.toJson = some j ∧ Json.wf j = true ∧ Object.ofJson j = v
  | .null, _ => ⟨_, rfl, rfl, rfl⟩
  | .bool _, _ => ⟨_, rfl, rfl, rfl⟩
  | .nan, _ => ⟨_, rfl, rfl, rfl⟩
  | .infinity _, _ => ⟨_, rfl, rfl, rfl⟩
  | .int _, _ => ⟨_, rfl, rfl, rfl⟩
  | .float t, _ => ⟨_, rfl, t.2, congrArg Object.float (FloatText.parse_coe t)⟩
  | .str _, _ => ⟨_, rfl, rfl, rfl⟩
  | .list _, h => by
    obtain ⟨js, hjs, hwf, hof⟩ := plain_objectItems h
    exact ⟨.arr js, congrArg (Option.map Json.arr) hjs, hwf, congrArg Object.list hof⟩
  | .dict fs, h => by
    obtain ⟨hnd, hfs⟩ := Bool.and_eq_true_iff.mp h
    obtain ⟨gs, hgs, hwf, hof⟩ := plain_objectFields hfs
    have hkeys : gs.map Prod.fst = fs.map (fun f => f.1.shown) := by
      rw [← hof, fieldsOf_keys]
    exact ⟨.obj gs, congrArg (Option.map Json.obj) hgs,
      Bool.and_eq_true_iff.mpr ⟨hkeys ▸ hnd, hwf⟩, congrArg Object.dict hof⟩

theorem plain_objectItems : ∀ {vs : List Object}, plainItems vs = true →
    ∃ js, objectItems vs = some js ∧ Json.wfItems js = true ∧ objectsOf js = vs
  | [], _ => ⟨[], rfl, rfl, rfl⟩
  | v :: vs, h => by
    obtain ⟨hv, hvs⟩ := Bool.and_eq_true_iff.mp h
    obtain ⟨j, hj, hwf, hof⟩ := plain_toJson hv
    obtain ⟨js, hjs, hwfs, hofs⟩ := plain_objectItems hvs
    refine ⟨j :: js, ?_, Bool.and_eq_true_iff.mpr ⟨hwf, hwfs⟩, ?_⟩
    · rw [objectItems, hj, hjs]
      rfl
    · rw [objectsOf, hof, hofs]

theorem plain_objectFields : ∀ {fs : List (Key × Object)}, plainFields fs = true →
    ∃ gs, objectFields fs = some gs ∧ Json.wfFields gs = true ∧ fieldsOf gs = fs
  | [], _ => ⟨[], rfl, rfl, rfl⟩
  | (.other _ _, _) :: _, h => absurd (Bool.and_eq_true_iff.mp h).1 Bool.false_ne_true
  | (.str k, v) :: fs, h => by
    obtain ⟨hv, hfs⟩ := Bool.and_eq_true_iff.mp h
    obtain ⟨j, hj, hwf, hof⟩ := plain_toJson hv
    obtain ⟨gs, hgs, hwfs, hofs⟩ := plain_objectFields hfs
    refine ⟨(k, j) :: gs, ?_, Bool.and_eq_true_iff.mpr ⟨hwf, hwfs⟩, ?_⟩
    · rw [objectFields, hj, hgs]
      rfl
    · rw [fieldsOf, hof, hofs]

end

theorem reread_eq_iff {v : Object} {j : Json} (h : v.toJson = some j) :
    Object.ofJson (Json.merge j) = v ↔ v.plain = true := by
  constructor
  · intro hv
    rw [← hv]
    exact plain_ofJson (Json.merge_wf (toJson_readable h))
  · intro hv
    obtain ⟨j', hj', hwf, hof⟩ := plain_toJson hv
    obtain rfl : j' = j := Option.some.inj (hj'.symm.trans h)
    rw [Json.merge_of_wf hwf, hof]

end Python
