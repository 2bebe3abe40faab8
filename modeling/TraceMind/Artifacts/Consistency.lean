import TraceMind.Artifacts.Forms
import TraceMind.Foundation.JsonPretty

namespace TraceMind.Artifacts.Consistency

def setLikePaths : List Str :=
  ["metadata.trace_links.related_intents".toList, "spec.trace_links.related_intents".toList,
    "spec.intent_refs".toList, "spec.impacted_intents".toList,
    "spec.tests[*].intent_refs".toList]

def parsePath (path : Str) : List Str :=
  (path.splitOn '.').flatMap (fun part =>
    if "[*]".toList.isSuffixOf part then
      let key := part.dropLast.dropLast.dropLast
      if key ≠ [] then [key, star] else [star]
    else [part])

def setLikeTokens : List (List Str) := setLikePaths.map parsePath

def isSetLikeField (path : List Str) : Bool := setLikeTokens.contains path

mutual

def canonicalize (path : List Str) : Json → Json
  | .obj fs => .obj (sortFields (canonicalizeFields path fs))
  | .arr vs =>
    let canonicalItems := canonicalizeItems (path ++ [star]) vs
    .arr (if isSetLikeField path then canonicalizeSetLikeList canonicalItems else canonicalItems)
  | v => v

def canonicalizeItems (path : List Str) : List Json → List Json
  | [] => []
  | v :: vs => canonicalize path v :: canonicalizeItems path vs

def canonicalizeFields (path : List Str) : List (Str × Json) → List (Str × Json)
  | [] => []
  | (k, v) :: fs => (k, canonicalize (path ++ [k]) v) :: canonicalizeFields path fs

end

def canonicalDumps (v : Json) : Str :=
  let text := Json.pretty canonicalStyle 0 (canonicalize [] v)
  if text.getLast? = some newline then text else text ++ [newline]

section registry

structure Artifact (sha : Sha256) where
  artifactId : Str
  intentId : Option Str
  body : List (Str × Json)
  wf : Json.wf (.obj body) = true
  bodyHash : Str
  hashed : bodyHash = Artifacts.bodyHash sha (.obj body)

def Artifact.json {sha : Sha256} (a : Artifact sha) : Json := .obj a.body

structure RegistryEntry where
  artifactId : Str
  bodyHash : Str
  path : Str
  intentId : Option Str

structure DiffReport where
  currentArtifactId : Str
  previousArtifactId : Str
  canonicalCurrent : Str
  canonicalPrevious : Str

structure ConsistencyIssue where
  code : Str
  severity : Str
  summary : Str
  details : DiffReport

variable {sha : Sha256}

def diffArtifacts (current previous : Artifact sha) : DiffReport where
  currentArtifactId := current.artifactId
  previousArtifactId := previous.artifactId
  canonicalCurrent := canonicalDumps current.json
  canonicalPrevious := canonicalDumps previous.json

def calcIntentEntries (registry : List RegistryEntry) (artifact : Artifact sha) :
    List RegistryEntry :=
  match artifact.intentId with
  | none => []
  | some intentId =>
    if intentId = [] then [] else registry.filter (fun entry => entry.intentId = some intentId)

def entryName (entry : RegistryEntry) : Str :=
  match entry.intentId with
  | none => entry.artifactId
  | some intentId => if intentId = [] then entry.artifactId else intentId

def entryIssue (files : Str → Option (Artifact sha)) (artifact : Artifact sha)
    (entry : RegistryEntry) : Option ConsistencyIssue :=
  if entry.bodyHash = artifact.bodyHash then none
  else (files entry.path).map (fun previous => {
    code := "C1".toList
    severity := "error".toList
    summary := "C1: intent ".toList ++ entryName entry ++
      " body changed in canonical representation".toList
    details := diffArtifacts artifact previous })

def checkC1 (files : Str → Option (Artifact sha)) (registry : List RegistryEntry)
    (artifact : Artifact sha) : List ConsistencyIssue :=
  (calcIntentEntries registry artifact).filterMap (entryIssue files artifact)

end registry

def trimming : Form := ⟨normalizeString, fun _ => false⟩

def arranging : Form := ⟨id, isSetLikeField⟩

mutual

theorem normalizeValue_eq : ∀ (path : List Str) (v : Json),
    normalizeValue v = form trimming path v
  | _, .null | _, .bool _ | _, .nan | _, .infinity _ | _, .int _ | _, .float _ | _, .str _ => rfl
  | path, .arr vs => congrArg Json.arr (normalizeItems_eq (path ++ [star]) vs)
  | path, .obj fs =>
    congrArg (fun gs => Json.obj (sortFields gs)) (normalizeFields_eq path fs)

theorem normalizeItems_eq : ∀ (path : List Str) (vs : List Json),
    normalizeItems vs = formItems trimming path vs
  | _, [] => rfl
  | path, v :: vs => by
    rw [normalizeItems, formItems, normalizeValue_eq path v, normalizeItems_eq path vs]

theorem normalizeFields_eq : ∀ (path : List Str) (fs : List (Str × Json)),
    normalizeFields fs = formFields trimming path fs
  | _, [] => rfl
  | path, (k, v) :: fs => by
    rw [normalizeFields, formFields, normalizeValue_eq (path ++ [k]) v, normalizeFields_eq path fs]

end

mutual

theorem canonicalize_eq : ∀ (path : List Str) (v : Json),
    canonicalize path v = form arranging path v
  | _, .null | _, .bool _ | _, .nan | _, .infinity _ | _, .int _ | _, .float _ | _, .str _ => rfl
  | path, .arr vs => by
    rw [canonicalize, form, canonicalizeItems_eq (path ++ [star]) vs]
    rfl
  | path, .obj fs => by rw [canonicalize, form, canonicalizeFields_eq path fs]

theorem canonicalizeItems_eq : ∀ (path : List Str) (vs : List Json),
    canonicalizeItems path vs = formItems arranging path vs
  | _, [] => rfl
  | path, v :: vs => by
    rw [canonicalizeItems, formItems, canonicalize_eq path v, canonicalizeItems_eq path vs]

theorem canonicalizeFields_eq : ∀ (path : List Str) (fs : List (Str × Json)),
    canonicalizeFields path fs = formFields arranging path fs
  | _, [] => rfl
  | path, (k, v) :: fs => by
    rw [canonicalizeFields, formFields, canonicalize_eq (path ++ [k]) v,
      canonicalizeFields_eq path fs]

end

theorem carriageReturn_normalizeString (s : Str) : carriageReturn ∉ normalizeString s := by
  intro hm
  have hsub : normalizeString s <+: (replaceCr (replaceCrlf s)).dropWhile isSpace :=
    List.rdropWhile_prefix isSpace _
  have hin := List.dropWhile_subset isSpace (hsub.subset hm)
  obtain ⟨c, -, hc⟩ := List.mem_map.mp hin
  split_ifs at hc with h
  · exact absurd hc (by decide)
  · exact h hc

theorem normalizeString_idem (s : Str) :
    normalizeString (normalizeString s) = normalizeString s := by
  have hcr := carriageReturn_normalizeString s
  rw [normalizeString, replaceCrlf_plain hcr, replaceCr_plain hcr]
  exact strip_strip _

section texts

variable {v w : Json} {fs gs : List (Str × Json)}

theorem normalizeBody_eq_iff (hv : Json.wf v = true) (hw : Json.wf w = true) :
    normalizeBody v = normalizeBody w ↔ Alike trimming [] v w := by
  rw [← form_eq_iff trimming v [] hv w hw, normalizeBody, normalizeBody, normalizeValue_eq [],
    normalizeValue_eq []]
  constructor
  · exact Json.render_injective _ (form_wf trimming [] hv) (form_wf trimming [] hw)
  · exact congrArg _

theorem prettyFields_last (st : Json.Style) (level : ℕ) (fs : List (Str × Json)) :
    ∃ ys, Json.prettyFields st level fs = ys ++ ['}'] := by
  induction fs with
  | nil => exact ⟨Json.margin level, rfl⟩
  | cons f fs ih =>
    obtain ⟨k, v⟩ := f
    obtain ⟨ys, hys⟩ := ih
    exact ⟨',' :: (Json.margin (level + 1) ++ (st.string k ++ ':' :: ' ' ::
      (Json.pretty st (level + 1) v ++ ys))), by simp [Json.prettyFields, hys]⟩

theorem pretty_last (st : Json.Style) (level : ℕ) (fs : List (Str × Json)) :
    ∃ ys, Json.pretty st level (.obj fs) = ys ++ ['}'] := by
  cases fs with
  | nil => exact ⟨['{'], rfl⟩
  | cons f fs =>
    obtain ⟨k, v⟩ := f
    obtain ⟨ys, hys⟩ := prettyFields_last st level fs
    exact ⟨'{' :: (Json.margin (level + 1) ++ (st.string k ++ ':' :: ' ' ::
      (Json.pretty st (level + 1) v ++ ys))), by simp [Json.pretty, hys]⟩

theorem canonicalDumps_obj (fs : List (Str × Json)) : canonicalDumps (.obj fs) =
    Json.pretty canonicalStyle 0 (canonicalize [] (.obj fs)) ++ [newline] := by
  obtain ⟨ys, hys⟩ := pretty_last canonicalStyle 0 (sortFields (canonicalizeFields [] fs))
  have hlast : (Json.pretty canonicalStyle 0 (canonicalize [] (.obj fs))).getLast? ≠
      some newline := by
    rw [canonicalize, hys, List.getLast?_concat]
    decide
  exact if_neg hlast

theorem canonicalDumps_eq_iff (hf : Json.wf (.obj fs) = true) (hg : Json.wf (.obj gs) = true) :
    canonicalDumps (.obj fs) = canonicalDumps (.obj gs) ↔
      Alike arranging [] (.obj fs) (.obj gs) := by
  rw [← form_eq_iff arranging (.obj fs) [] hf (.obj gs) hg, canonicalDumps_obj,
    canonicalDumps_obj, canonicalize_eq [], canonicalize_eq [], List.append_left_inj]
  constructor
  · exact Json.pretty_injective _ _ (form_wf arranging [] hf) (form_wf arranging [] hg)
  · exact congrArg _

end texts

section agreement

variable {sha : Sha256}

structure Agreement (a b : Artifact sha) : Prop where
  reported : ∀ files entry, calcIntentEntries [entry] a = [entry] → files entry.path = some b →
    entry.bodyHash = b.bodyHash → (checkC1 files [entry] a ≠ [] ↔
      (diffArtifacts a b).canonicalCurrent ≠ (diffArtifacts a b).canonicalPrevious)
  hashes : bodyHash sha a.json = bodyHash sha b.json ↔
    canonicalDumps a.json = canonicalDumps b.json
  reordered : ∀ fs, Json.wf (.obj fs) = true → Alike keyOrder [] a.json (.obj fs) →
    normalizeBody (.obj fs) = normalizeBody a.json ∧
      canonicalDumps (.obj fs) = canonicalDumps a.json
  fixed : normalizeValue (normalizeValue a.json) = normalizeValue a.json ∧
    canonicalize [] (canonicalize [] a.json) = canonicalize [] a.json

variable (a b : Artifact sha)

theorem hash_eq_iff (hsha : Function.Injective sha.hexdigest) :
    a.bodyHash = b.bodyHash ↔ Alike trimming [] a.json b.json := by
  have hbody : normalizeBody a.json = normalizeBody b.json ↔ Alike trimming [] a.json b.json :=
    normalizeBody_eq_iff a.wf b.wf
  rw [a.hashed, b.hashed, ← hbody]
  exact hsha.eq_iff

theorem checkC1_single {files : Str → Option (Artifact sha)} {entry : RegistryEntry}
    (hentry : calcIntentEntries [entry] a = [entry]) (hfile : files entry.path = some b)
    (hhash : entry.bodyHash = b.bodyHash) :
    checkC1 files [entry] a ≠ [] ↔ b.bodyHash ≠ a.bodyHash := by
  rw [checkC1, hentry, List.filterMap_cons, List.filterMap_nil, entryIssue, hhash, hfile]
  by_cases h : b.bodyHash = a.bodyHash
  · simp [h]
  · simp [h]

theorem reordered_texts {fs gs : List (Str × Json)} (hf : Json.wf (.obj fs) = true)
    (hg : Json.wf (.obj gs) = true) (h : Alike keyOrder [] (.obj fs) (.obj gs)) :
    normalizeBody (.obj gs) = normalizeBody (.obj fs) ∧
      canonicalDumps (.obj gs) = canonicalDumps (.obj fs) := by
  have hkeys := (form_eq_iff keyOrder (.obj fs) [] hf (.obj gs) hg).mpr h
  have htrim : Absorbs trimming keyOrder := ⟨fun _ => rfl, nofun⟩
  have harrange : Absorbs arranging keyOrder := ⟨fun _ => rfl, nofun⟩
  constructor
  · rw [normalizeBody, normalizeBody, normalizeValue_eq [], normalizeValue_eq [],
      ← form_absorb htrim (.obj fs) [] hf, hkeys, form_absorb htrim (.obj gs) [] hg]
  · rw [canonicalDumps_obj, canonicalDumps_obj, canonicalize_eq, canonicalize_eq,
      ← form_absorb harrange (.obj fs) [] hf, hkeys, form_absorb harrange (.obj gs) [] hg]

theorem fixed_forms {v : Json} (hv : Json.wf v = true) :
    normalizeValue (normalizeValue v) = normalizeValue v ∧
      canonicalize [] (canonicalize [] v) = canonicalize [] v := by
  constructor
  · rw [normalizeValue_eq [] v, normalizeValue_eq [],
      form_absorb ⟨normalizeString_idem, fun _ h => h⟩ v [] hv]
  · rw [canonicalize_eq [] v, canonicalize_eq [],
      form_absorb ⟨fun _ => rfl, fun _ h => h⟩ v [] hv]

theorem agreement_iff (hsha : Function.Injective sha.hexdigest) (a b : Artifact sha) :
    Agreement a b ↔
      (Alike trimming [] a.json b.json ↔ Alike arranging [] a.json b.json) := by
  have hhash := hash_eq_iff a b hsha
  have htext : canonicalDumps a.json = canonicalDumps b.json ↔
      Alike arranging [] a.json b.json := canonicalDumps_eq_iff a.wf b.wf
  have hbody : bodyHash sha a.json = bodyHash sha b.json ↔ Alike trimming [] a.json b.json := by
    rw [← hhash, a.hashed, b.hashed]
    rfl
  constructor
  · intro h
    rw [← hbody, ← htext]
    exact h.hashes
  · intro h
    refine ⟨fun files entry hentry hfile hent => ?_, ?_, fun fs hfs halike => ?_, ?_⟩
    · rw [checkC1_single a b hentry hfile hent, ne_comm, not_iff_not, hhash, h, ← htext]
      rfl
    · rw [hbody, h, ← htext]
    · exact reordered_texts a.wf hfs halike
    · exact fixed_forms a.wf

def titled (title : Str) : Artifact (.ofTable [] rfl) where
  artifactId := ['a']
  intentId := some ['i']
  body := [(['t'], .str title)]
  wf := rfl
  bodyHash := _
  hashed := rfl

theorem agreement_same_title : Agreement (titled ['x']) (titled ['x']) :=
  (agreement_iff ofTable_nil_injective _ _).mpr (by simp [titled, Artifact.json, Alike, FieldsIn])

theorem blank_before_title : ¬ ∀ (sha : Sha256), Function.Injective sha.hexdigest →
    ∀ a b : Artifact sha, Agreement a b := by
  intro h
  have hpair := (h _ ofTable_nil_injective (titled ['x']) (titled [' ', 'x'])).hashes
  have htext : canonicalDumps (titled ['x']).json = canonicalDumps (titled [' ', 'x']).json ↔
      Alike arranging [] (titled ['x']).json (titled [' ', 'x']).json :=
    canonicalDumps_eq_iff (titled ['x']).wf (titled [' ', 'x']).wf
  have hbody : normalizeBody (titled ['x']).json = normalizeBody (titled [' ', 'x']).json := by
    decide +kernel
  have hsame := htext.mp (hpair.mp (congrArg (tableDigest []) hbody))
  simp [titled, Artifact.json, Alike, FieldsIn, arranging] at hsame

end agreement

end TraceMind.Artifacts.Consistency
