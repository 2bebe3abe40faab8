import TraceMind.Artifacts.Hash
import TraceMind.Foundation.Values
import TraceMind.Queue.Recovery
import TraceMind.Dsl.Wdl

namespace TraceMind.Patch

open Python
open Dsl (setItem)

mutual

def sortKeys : Json → Json
  | .arr vs => .arr (sortKeysItems vs)
  | .obj fs => .obj (Artifacts.sortFields (sortKeysFields fs))
  | v => v

def sortKeysItems : List Json → List Json
  | [] => []
  | v :: vs => sortKeys v :: sortKeysItems vs

def sortKeysFields : List (Str × Json) → List (Str × Json)
  | [] => []
  | (k, v) :: fs => (k, sortKeys v) :: sortKeysFields fs

end

inductive PatchError where
  | store (message : Str)
  | load (message : Str)
  | invalid (message : Str)
  | valueError (message : Str)
  | pointer (value : Json)
  | keyError (key : Str)
  | indexError
  | attributeError
  | typeError

def replacePair (c d r : Char) : Str → Str
  | [] => []
  | [x] => [x]
  | x :: y :: cs =>
    if x = c ∧ y = d then r :: replacePair c d r cs else x :: replacePair c d r (y :: cs)

def decodeSegment (s : Str) : Str := replacePair '~' '0' '~' (replacePair '~' '1' '/' s)

def makePointerSegments (pointer : Str) : List Str :=
  ((pointer.dropWhile (fun c => c = '/')).splitOn '/').map decodeSegment

def pointerOf (change : List (Str × Json)) : Except PatchError (List Str) :=
  match OrderedDict.find "path".toList change with
  | none => .error (.keyError "path".toList)
  | some (.str ('/' :: p)) => .ok (makePointerSegments ('/' :: p))
  | some v => .error (.pointer v)

def position (length : ℕ) (i : ℤ) : Option ℕ :=
  if 0 ≤ i then (if i.toNat < length then some i.toNat else none)
  else if 0 ≤ i + length then some (i + length).toNat
  else none

def listIndex (segment message : Str) : Except PatchError ℤ :=
  match Queue.intOfText segment with
  | some i => .ok i
  | none => .error (.valueError (message ++ segment ++ "'".toList))

def removes (change : List (Str × Json)) : Bool :=
  match OrderedDict.find "op".toList change with
  | some (.str s) => decide (s = "remove".toList)
  | _ => false

def newValue (change : List (Str × Json)) : Json :=
  (OrderedDict.find "value".toList change).getD .null

def changeItem (change : List (Str × Json)) (segment : Str) (vs : List Json) :
    Except PatchError Json := do
  let i ← if segment = ['-'] then .ok (vs.length : ℤ) else listIndex segment "invalid list index '".toList
  if removes change then
    if 0 ≤ i ∧ i < vs.length then .ok (.arr (vs.eraseIdx i.toNat)) else .ok (.arr vs)
  else if i = vs.length then .ok (.arr (vs ++ [newValue change]))
  else
    match position vs.length i with
    | some k => .ok (.arr (vs.set k (newValue change)))
    | none => .error .indexError

def changeField (change : List (Str × Json)) (segment : Str) (fs : List (Str × Json)) : Json :=
  if removes change then .obj (fs.filter (fun f => f.1 ≠ segment))
  else .obj (setItem segment (newValue change) fs)

def changeAt (change : List (Str × Json)) : List Str → Json → Except PatchError Json
  | [], v => .ok v
  | [segment], .arr vs => changeItem change segment vs
  | [segment], .obj fs => .ok (changeField change segment fs)
  | [_], v => .error (.valueError
      ("cannot navigate into <class '" ++ Queue.typeName v ++ "'>").toList)
  | segment :: rest, .arr vs => do
    let i ← listIndex segment "invalid literal for int() with base 10: '".toList
    match position vs.length i with
    | none => .error .indexError
    | some k =>
      let child ← changeAt change rest (vs.getD k .null)
      .ok (.arr (vs.set k child))
  | segment :: rest, .obj fs => do
    let child ← changeAt change rest ((OrderedDict.find segment fs).getD (.obj []))
    .ok (.obj (setItem segment child fs))
  | _ :: _, _ => .error .attributeError

def applySingleChange (doc : Doc) (change : List (Str × Json)) : Except PatchError Doc :=
  match toJsonFields doc with
  | none => .error .typeError
  | some fs => do
    let segments ← pointerOf change
    match ← changeAt change segments (.obj fs) with
    | .obj gs => .ok (ofJsonFields gs)
    | _ => .error .typeError

def applyChanges (doc : Doc) (changes : List (List (Str × Json))) : Except PatchError Doc :=
  changes.foldlM applySingleChange doc

def versionPart (part : Str) : ℤ := (Queue.intOfText part).getD 0

def bumpVersion (value : Str) : Str :=
  let value := if value.isEmpty then "0.0.0".toList else value
  let nums := ((value.splitOn '.').take 3).map versionPart
  let nums := nums ++ List.replicate (3 - nums.length) 0
  ['.'].intercalate ((nums.set 2 (nums.getD 2 0 + 1)).map Json.intText)

structure Location where
  dir : Str
  name : Str
deriving DecidableEq

def Location.text (l : Location) : Str := l.dir ++ '/' :: l.name

inductive Status where
  | draft
  | submitted
  | approved
  | applied
deriving DecidableEq

inductive ArtifactType where
  | policy
  | intent
  | workflow
  | capability
deriving DecidableEq

def artifactType (s : Str) : Option ArtifactType :=
  if s = "policy".toList then some .policy
  else if s = "intent".toList then some .intent
  else if s = "workflow".toList then some .workflow
  else if s = "capability".toList then some .capability
  else none

structure Approval where
  actor : Str
  reason : Str
  timestamp : Str

structure Proposal where
  proposalId : Str
  status : Status
  changes : List (List (Str × Json))
  targetArtifactType : Str
  targetRef : Str
  patchKind : Str
  rationale : Str
  expectedEffect : Str
  riskLevel : Str
  reviewNotes : List Str
  metadata : List (Str × Json)
  createdBy : Str
  createdAt : Str
  approvals : List Approval := []
  submittedAt : Option Str := none
  approvedAt : Option Str := none
  appliedAt : Option Str := none

structure IndexEntry where
  proposalId : Str
  status : Status
  path : Location
  targetArtifactType : Str
  targetRef : Str
  createdAt : Str
  appliedAt : Option Str := none

structure AppliedRecord where
  proposalId : Str
  appliedAt : Str
  targetRef : Str
  source : Str
  result : Location

structure Index where
  proposals : Str → Option IndexEntry := fun _ => none
  applied : List AppliedRecord := []

inductive Content where
  | proposal (p : Proposal)
  | index (i : Index)
  | document (doc : Doc)
  | broken

structure Draft where
  changes : List Doc
  targetArtifactType : Str
  targetRef : Str
  patchKind : Str
  rationale : Str
  expectedEffect : Str
  riskLevel : Str
  createdBy : Str
  reviewNotes : List Str := []
  metadata : Doc := []

structure Env where
  root : Str
  proposalsDir : Str
  outDir : Option Str → Str
  locate : Str → Location
  stem : Str → Str
  load : Str → Content → Except Str Doc
  validate : ArtifactType → Doc → Option Str
  pyStr : Value → Str
  digest : Str → List (Fin 16)

structure PatchStore where
  files : Location → Option Content
  index : Index := {}

def PatchStore.write (s : PatchStore) (l : Location) (c : Content) : PatchStore :=
  { s with files := Function.update s.files l (some c) }

def PatchStore.setEntry (s : PatchStore) (id : Str) (e : IndexEntry) : PatchStore :=
  { s with index := { s.index with proposals := Function.update s.index.proposals id (some e) } }

def PatchStore.addApplied (s : PatchStore) (r : AppliedRecord) : PatchStore :=
  { s with index := { s.index with applied := s.index.applied ++ [r] } }

namespace Env

variable (env : Env)

def indexPath : Location := ⟨env.root, "index.json".toList⟩

def proposalPath (id : Str) : Location := ⟨env.proposalsDir, id ++ ".json".toList⟩

def saveIndex (s : PatchStore) : PatchStore := s.write env.indexPath (.index s.index)

def fresh (files : Location → Option Content) : PatchStore := env.saveIndex { files := files }

def openStore (files : Location → Option Content) : Except PatchError PatchStore :=
  match files env.indexPath with
  | none => .ok (env.fresh files)
  | some (.index i) => .ok { files := files, index := i }
  | some _ => .error (.load env.indexPath.text)

def hexDigit (d : Fin 16) : Char := Nat.digitChar d.val

def idPayload (d : Draft) (changes : List (List (Str × Json))) : Json :=
  .obj [("target_artifact_type".toList, .str d.targetArtifactType),
    ("target_ref".toList, .str d.targetRef), ("patch_kind".toList, .str d.patchKind),
    ("changes".toList, .arr (changes.map Json.obj))]

def proposalId (d : Draft) (changes : List (List (Str × Json))) : Str :=
  ((env.digest (Artifacts.canonicalStyle.render (sortKeys (idPayload d changes)))).map
    hexDigit).take 12

def draftOf (d : Draft) (now : Str) (changes : List (List (Str × Json)))
    (metadata : List (Str × Json)) : Proposal where
  proposalId := env.proposalId d changes
  status := .draft
  changes := changes
  targetArtifactType := d.targetArtifactType
  targetRef := d.targetRef
  patchKind := d.patchKind
  rationale := d.rationale
  expectedEffect := d.expectedEffect
  riskLevel := d.riskLevel
  reviewNotes := d.reviewNotes
  metadata := metadata
  createdBy := d.createdBy
  createdAt := now

def entryOf (p : Proposal) (path : Location) : IndexEntry where
  proposalId := p.proposalId
  status := p.status
  path := path
  targetArtifactType := p.targetArtifactType
  targetRef := p.targetRef
  createdAt := p.createdAt

def registerProposal (p : Proposal) (path : Location) (s : PatchStore) : PatchStore :=
  env.saveIndex (s.setEntry p.proposalId (entryOf p path))

def checkDraft (s : PatchStore) (d : Draft) : Except PatchError (List (List (Str × Json))) :=
  match d.changes.mapM toJsonFields with
  | none => .error .typeError
  | some changes =>
    let id := env.proposalId d changes
    if (s.files (env.proposalPath id)).isSome then
      .error (.store ("proposal '".toList ++ id ++ "' already exists".toList))
    else .ok changes

def createDraft (d : Draft) (now : Str) (s : PatchStore) : Except PatchError Unit × PatchStore :=
  match env.checkDraft s d with
  | .error e => (.error e, s)
  | .ok changes =>
    let path := env.proposalPath (env.proposalId d changes)
    -- The file is open when its content turns out not to be JSON.
    match toJsonFields d.metadata with
    | none => (.error .typeError, s.write path .broken)
    | some metadata =>
      let p := env.draftOf d now changes metadata
      (.ok (), env.registerProposal p path (s.write path (.proposal p)))

def ensureProposal (s : PatchStore) (id : Str) : Except PatchError (Proposal × Location) :=
  match s.index.proposals id with
  | none => .error (.store ("unknown proposal '".toList ++ id ++ "'".toList))
  | some e =>
    match s.files e.path with
    | none => .error (.store ("proposal file missing at ".toList ++ e.path.text))
    | some (.proposal p) => .ok (p, e.path)
    | some .broken => .error (.load e.path.text)
    | some _ => .error (.keyError "status".toList)

def updateIndexEntry (p : Proposal) (s : PatchStore) : Except PatchError Unit × PatchStore :=
  match s.index.proposals p.proposalId with
  | none => (.error (.store ("proposal '".toList ++ p.proposalId ++ "' not registered".toList)), s)
  | some e =>
    (.ok (), env.saveIndex (s.setEntry p.proposalId
      { e with
        status := p.status, targetArtifactType := p.targetArtifactType, targetRef := p.targetRef
        appliedAt := p.appliedAt.or e.appliedAt }))

def writeProposal (p : Proposal) (path : Location) (s : PatchStore) :
    Except PatchError Unit × PatchStore :=
  env.updateIndexEntry p (s.write path (.proposal p))

def unknownType (t : Str) : PatchError :=
  .store ("unknown artifact type '".toList ++ t ++ "'".toList)

def checkSubmit (s : PatchStore) (id : Str) : Except PatchError (Proposal × Location) := do
  let r ← ensureProposal s id
  if r.1.status ≠ .draft then .error (.store "only DRAFT proposals can be submitted".toList)
  else
    match s.files (env.locate r.1.targetRef) with
    | none => .error (.store ("target artifact not found at ".toList ++ r.1.targetRef))
    | some c =>
      match artifactType r.1.targetArtifactType with
      | none => .error (unknownType r.1.targetArtifactType)
      | some t =>
        match env.load r.1.targetRef c with
        | .error m => .error (.load m)
        | .ok doc =>
          match env.validate t doc with
          | some m => .error (.store ("target artifact invalid: ".toList ++ m))
          | none => .ok r

def submitProposal (id now : Str) (s : PatchStore) : Except PatchError Unit × PatchStore :=
  match env.checkSubmit s id with
  | .error e => (.error e, s)
  | .ok (p, path) =>
    env.writeProposal { p with status := .submitted, submittedAt := some now } path s

def checkApprove (s : PatchStore) (id : Str) : Except PatchError (Proposal × Location) := do
  let r ← ensureProposal s id
  if r.1.status ≠ .submitted then
    .error (.store "only SUBMITTED proposals can be approved".toList)
  else .ok r

def approveProposal (id actor reason now : Str) (s : PatchStore) :
    Except PatchError Unit × PatchStore :=
  match checkApprove s id with
  | .error e => (.error e, s)
  | .ok (p, path) =>
    env.writeProposal
      { p with
        status := .approved, approvedAt := some now
        approvals := p.approvals ++ [⟨actor, reason, now⟩] } path s

def versionText (v : Value) : Str :=
  match v with
  | .str s => s
  | v => env.pyStr v

def setGovernance (id : Str) (doc : Doc) : Except PatchError Doc :=
  match (OrderedDict.find "metadata".toList doc).getD (.dict []) with
  | .dict ms =>
    match (OrderedDict.find "governance".toList ms).getD (.dict []) with
    | .dict gs =>
      let gs := setItem "applied_from_proposal_id".toList (.str id) gs
      .ok (setItem "metadata".toList (.dict (setItem "governance".toList (.dict gs) ms)) doc)
    | _ => .error .typeError
  | _ => .error .attributeError

def bumped (doc : Doc) : Str :=
  bumpVersion (env.versionText ((OrderedDict.find "version".toList doc).getD .null))

def updatedOf (p : Proposal) (id : Str) (target : Doc) : Except PatchError (Str × Doc) := do
  let doc ← applyChanges target p.changes
  let version := env.bumped doc
  let doc ← setGovernance id (setItem "version".toList (.str version) doc)
  .ok (version, doc)

def destName (stem version id : Str) : Str :=
  stem ++ ".v".toList ++ version.map (fun c => if c = '.' then '_' else c) ++ '.' :: id ++
    ".json".toList

def destPath (p : Proposal) (out : Option Str) (version id : Str) : Location :=
  ⟨env.outDir out, destName (env.stem p.targetRef) version id⟩

structure Application where
  proposal : Proposal
  path : Location
  updated : Doc
  dest : Location

def checkApply (s : PatchStore) (id : Str) (out : Option Str) : Except PatchError Application := do
  let r ← ensureProposal s id
  if r.1.status ≠ .approved then .error (.store "only APPROVED proposals can be applied".toList)
  else if r.1.approvals.isEmpty then .error (.store "proposal lacks approvals".toList)
  else
    match artifactType r.1.targetArtifactType with
    | none => .error (unknownType r.1.targetArtifactType)
    | some t =>
      match s.files (env.locate r.1.targetRef) with
      | none => .error (.store ("target artifact not found at ".toList ++ r.1.targetRef))
      | some c =>
        match env.load r.1.targetRef c with
        | .error m => .error (.load m)
        | .ok target => do
          let u ← env.updatedOf r.1 id target
          match env.validate t u.2 with
          | some m => .error (.invalid m)
          | none => .ok ⟨r.1, r.2, u.2, env.destPath r.1 out u.1 id⟩

def recordOf (a : Application) (id now : Str) : AppliedRecord where
  proposalId := id
  appliedAt := now
  targetRef := a.proposal.targetRef
  source := a.proposal.targetRef
  result := a.dest

def applyProposal (id : Str) (out : Option Str) (now : Str) (s : PatchStore) :
    Except PatchError Unit × PatchStore :=
  match env.checkApply s id out with
  | .error e => (.error e, s)
  | .ok a =>
    -- The file is open when its content turns out not to be JSON.
    match toJsonFields a.updated with
    | none => (.error .typeError, s.write a.dest .broken)
    | some _ =>
      env.writeProposal { a.proposal with status := .applied, appliedAt := some now } a.path
        ((s.write a.dest (.document a.updated)).addApplied (recordOf a id now))

inductive Op where
  | createDraft (d : Draft) (now : Str)
  | submitProposal (id now : Str)
  | approveProposal (id actor reason now : Str)
  | applyProposal (id : Str) (out : Option Str) (now : Str)
  | reopen

def step (op : Op) (s : PatchStore) : Except PatchError Unit × PatchStore :=
  match op with
  | .createDraft d now => env.createDraft d now s
  | .submitProposal id now => env.submitProposal id now s
  | .approveProposal id actor reason now => env.approveProposal id actor reason now s
  | .applyProposal id out now => env.applyProposal id out now s
  | .reopen =>
    match env.openStore s.files with
    | .error e => (.error e, s)
    | .ok s' => (.ok (), s')

def run (ops : List Op) (s : PatchStore) : PatchStore :=
  ops.foldl (fun s op => (env.step op s).2) s

end Env

end TraceMind.Patch
