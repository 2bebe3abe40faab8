import TraceMind.Foundation.Json

namespace Python

-- A Python value. The last one is a value that JSON does not have, such as a date of a YAML file.
inductive Value where
  | null
  | bool (b : Bool)
  | nan
  | infinity (negative : Bool)
  | int (n : ℤ)
  | float (text : List Char)
  | str (s : List Char)
  | list (vs : List Value)
  | dict (fs : List (List Char × Value))
  | other (text : List Char)

abbrev Doc := List (List Char × Value)

mutual

def Value.toJson : Value → Option Json
  | .null => some .null
  | .bool b => some (.bool b)
  | .nan => some .nan
  | .infinity negative => some (.infinity negative)
  | .int n => some (.int n)
  | .float text => some (.float text)
  | .str s => some (.str s)
  | .list vs => (toJsonItems vs).map Json.arr
  | .dict fs => (toJsonFields fs).map Json.obj
  | .other _ => none

def toJsonItems : List Value → Option (List Json)
  | [] => some []
  | v :: vs => v.toJson.bind (fun j => (toJsonItems vs).map (j :: ·))

def toJsonFields : List (List Char × Value) → Option (List (List Char × Json))
  | [] => some []
  | (k, v) :: fs => v.toJson.bind (fun j => (toJsonFields fs).map ((k, j) :: ·))

end

mutual

def Value.ofJson : Json → Value
  | .null => .null
  | .bool b => .bool b
  | .nan => .nan
  | .infinity negative => .infinity negative
  | .int n => .int n
  | .float text => .float text
  | .str s => .str s
  | .arr vs => .list (ofJsonItems vs)
  | .obj fs => .dict (ofJsonFields fs)

def ofJsonItems : List Json → List Value
  | [] => []
  | v :: vs => .ofJson v :: ofJsonItems vs

def ofJsonFields : List (List Char × Json) → List (List Char × Value)
  | [] => []
  | (k, v) :: fs => (k, .ofJson v) :: ofJsonFields fs

end

mutual

theorem toJson_ofJson : ∀ v : Json, (Value.ofJson v).toJson = some v
  | .null => rfl
  | .bool _ => rfl
  | .nan => rfl
  | .infinity _ => rfl
  | .int _ => rfl
  | .float _ => rfl
  | .str _ => rfl
  | .arr vs => by rw [Value.ofJson, Value.toJson, toJsonItems_ofJson vs]; rfl
  | .obj fs => by rw [Value.ofJson, Value.toJson, toJsonFields_ofJson fs]; rfl

theorem toJsonItems_ofJson : ∀ vs : List Json, toJsonItems (ofJsonItems vs) = some vs
  | [] => rfl
  | v :: vs => by
    rw [ofJsonItems, toJsonItems, toJson_ofJson v, toJsonItems_ofJson vs]
    rfl

theorem toJsonFields_ofJson : ∀ fs : List (List Char × Json), toJsonFields (ofJsonFields fs) = some fs
  | [] => rfl
  | (k, v) :: fs => by
    rw [ofJsonFields, toJsonFields, toJson_ofJson v, toJsonFields_ofJson fs]
    rfl

end

mutual

theorem ofJson_toJson : ∀ {v : Value} {j : Json}, v.toJson = some j → Value.ofJson j = v
  | .null, _, rfl => rfl
  | .bool _, _, rfl => rfl
  | .nan, _, rfl => rfl
  | .infinity _, _, rfl => rfl
  | .int _, _, rfl => rfl
  | .float _, _, rfl => rfl
  | .str _, _, rfl => rfl
  | .list vs, _, h => by
    obtain ⟨js, hjs, rfl⟩ := Option.map_eq_some_iff.mp h
    rw [Value.ofJson, ofJsonItems_toJson hjs]
  | .dict fs, _, h => by
    obtain ⟨gs, hgs, rfl⟩ := Option.map_eq_some_iff.mp h
    rw [Value.ofJson, ofJsonFields_toJson hgs]

theorem ofJsonItems_toJson : ∀ {vs : List Value} {js : List Json}, toJsonItems vs = some js →
    ofJsonItems js = vs
  | [], _, rfl => rfl
  | v :: vs, _, h => by
    obtain ⟨j, hj, h⟩ := Option.bind_eq_some_iff.mp h
    obtain ⟨js, hjs, rfl⟩ := Option.map_eq_some_iff.mp h
    rw [ofJsonItems, ofJson_toJson hj, ofJsonItems_toJson hjs]

theorem ofJsonFields_toJson : ∀ {fs : List (List Char × Value)} {gs : List (List Char × Json)},
    toJsonFields fs = some gs → ofJsonFields gs = fs
  | [], _, rfl => rfl
  | (k, v) :: fs, _, h => by
    obtain ⟨j, hj, h⟩ := Option.bind_eq_some_iff.mp h
    obtain ⟨gs, hgs, rfl⟩ := Option.map_eq_some_iff.mp h
    rw [ofJsonFields, ofJson_toJson hj, ofJsonFields_toJson hgs]

end

end Python
