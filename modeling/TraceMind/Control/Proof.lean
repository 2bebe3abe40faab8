import TraceMind.Artifacts.Hash

namespace TraceMind.Control

open Artifacts

inductive Verdict where
  | pass
  | fail
  | inconclusive
deriving DecidableEq

def Verdict.value : Verdict → Str
  | .pass => "pass".toList
  | .fail => "fail".toList
  | .inconclusive => "inconclusive".toList

structure KripkeVerdict where
  verified : Bool
  propertiesChecked : ℤ
  propertiesPassed : ℤ
  failedProperties : List Str := []
  counterexamples : List Json := []

structure EvidenceEntry where
  source : Str
  eventType : Str
  data : List (Str × Json) := []
  timestamp : Str := []
  peerNodeId : Option Str := none
  peerChainRef : Option Str := none

structure ProofReport where
  reportId : Str
  intentId : Str
  cycleId : Str
  preSnapshot : Json
  postSnapshot : Json
  executionSummary : Json
  kripkeVerdict : KripkeVerdict
  evidenceChain : List EvidenceEntry
  policyDecisions : List Json
  overallVerdict : Verdict
  verdictReason : Str
  createdAt : Str := []
  reportHash : Str := []
  peerNodeId : Option Str := none
  peerChainRef : Option Str := none

-- Python's `or` on an optional text and a text.
def orText : Option Str → Str → Str
  | some (c :: cs), _ => c :: cs
  | _, t => t

def dataText (data : List (Str × Json)) (k : Str) : Str :=
  match data.lookup k with
  | some (.str s) => s
  | _ => []

def peerProofReport : Str := "peer_proof_report".toList

namespace EvidenceEntry

def isPeer (e : EvidenceEntry) : Bool := e.eventType = peerProofReport

def peerId (e : EvidenceEntry) : Str := orText e.peerNodeId (dataText e.data "peer_node_id".toList)

def ref (e : EvidenceEntry) : Str := orText e.peerChainRef (dataText e.data "peer_chain_ref".toList)

end EvidenceEntry

namespace ProofReport

def peerEntries (p : ProofReport) : List EvidenceEntry := p.evidenceChain.filter EvidenceEntry.isPeer

def peerRefs (p : ProofReport) : List Str :=
  sortTexts ((p.peerEntries.map EvidenceEntry.ref).filter (fun r => !r.isEmpty))

structure Hashed where
  reportId : Str
  intentId : Str
  cycleId : Str
  overallVerdict : Verdict
  verified : Bool
  evidenceCount : ℕ
  peerRefs : List Str

def hashed (p : ProofReport) : Hashed where
  reportId := p.reportId
  intentId := p.intentId
  cycleId := p.cycleId
  overallVerdict := p.overallVerdict
  verified := p.kripkeVerdict.verified
  evidenceCount := p.evidenceChain.length
  peerRefs := p.peerRefs

def Hashed.payload (h : Hashed) : Json :=
  .obj [("cycle_id".toList, .str h.cycleId), ("evidence_count".toList, .int h.evidenceCount),
    ("intent_id".toList, .str h.intentId), ("kripke_verified".toList, .bool h.verified),
    ("overall_verdict".toList, .str h.overallVerdict.value),
    ("peer_chain_refs".toList, .arr (h.peerRefs.map .str)),
    ("report_id".toList, .str h.reportId)]

def spacedStyle : Json.Style := ⟨false, true⟩

def computeHash (sha : Sha256) (p : ProofReport) : Str :=
  sha.hexdigest (spacedStyle.render p.hashed.payload)

def recomputeHash (sha : Sha256) (p : ProofReport) : ProofReport :=
  { p with reportHash := p.computeHash sha }

def hash (sha : Sha256) (p : ProofReport) : Str :=
  if p.reportHash.isEmpty then p.computeHash sha else p.reportHash

end ProofReport

abbrev Leaves := List (Str × ProofReport)

def peerEntry (sha : Sha256) (now : Str) (l : Str × ProofReport) : EvidenceEntry where
  source := "peer:".toList ++ l.1
  eventType := peerProofReport
  data := [("peer_report_id".toList, .str l.2.reportId),
    ("peer_cycle_id".toList, .str l.2.cycleId),
    ("peer_overall_verdict".toList, .str l.2.overallVerdict.value),
    ("peer_node_id".toList, .str l.1), ("peer_chain_ref".toList, .str (l.2.hash sha))]
  timestamp := now
  peerNodeId := some l.1
  peerChainRef := some (l.2.hash sha)

def attachPeerProofs (sha : Sha256) (now : Str) (center : ProofReport) (leaves : Leaves) :
    ProofReport :=
  { center with evidenceChain := center.evidenceChain ++ leaves.map (peerEntry sha now) }
    |>.recomputeHash sha

def refsByPeer (entries : List EvidenceEntry) : OrderedDict Str Str :=
  (entries.filter (fun e => !e.peerId.isEmpty)).foldl (fun d e => d.store e.peerId e.ref)
    OrderedDict.empty

def missingErrors (entries : List EvidenceEntry) : List Str :=
  (entries.filter (fun e => e.peerId.isEmpty)).map
    (fun _ => "peer evidence entry missing peer_node_id".toList)

def countErrors (refs : OrderedDict Str Str) (leaves : Leaves) : List Str :=
  if refs.size ≠ leaves.length then
    ["expected ".toList ++ Json.intText leaves.length ++ " peer evidence entries, got ".toList ++
      Json.intText refs.size]
  else []

def leafErrors (sha : Sha256) (refs : OrderedDict Str Str) (l : Str × ProofReport) : List Str :=
  match refs.get? l.1 with
  | none => ["missing peer evidence for '".toList ++ l.1 ++ ['\'']]
  | some ref =>
    if ref ≠ l.2.hash sha then
      ["peer chain ref mismatch for '".toList ++ l.1 ++ "': center has '".toList ++ ref ++
        "', leaf hash is '".toList ++ l.2.hash sha ++ ['\'']]
    else []

def centerErrors (sha : Sha256) (center : ProofReport) : List Str :=
  if center.reportHash ≠ [] ∧ center.reportHash ≠ center.computeHash sha then
    ["center report_hash '".toList ++ center.reportHash ++ "' does not match recomputed '".toList ++
      center.computeHash sha ++ ['\'']]
  else []

def verifyPeerChain (sha : Sha256) (center : ProofReport) (leaves : Leaves) : Bool × List Str :=
  let refs := refsByPeer center.peerEntries
  let errors := missingErrors center.peerEntries ++ countErrors refs leaves ++
    (sortFields leaves).flatMap (leafErrors sha refs) ++ centerErrors sha center
  (errors.isEmpty, errors)

section payload

variable {sha : Sha256} {g h : ProofReport.Hashed}

theorem payload_wf (h : ProofReport.Hashed) : Json.wf h.payload = true := by
  have hitems : ∀ ts : List Str, Json.wfItems (ts.map .str) = true := by
    intro ts
    induction ts with
    | nil => rfl
    | cons t ts ih => exact ih
  rw [ProofReport.Hashed.payload, Json.wf]
  simp only [List.map_cons, List.map_nil, Json.wfFields, Json.wf, hitems]
  decide

theorem verdict_value_injective : Function.Injective Verdict.value := by
  intro a b h
  cases a <;> cases b <;> first | rfl | exact absurd h (by decide)

theorem payload_injective (heq : g.payload = h.payload) : g = h := by
  obtain ⟨rid, iid, cid, ov, ver, n, refs⟩ := g
  obtain ⟨rid', iid', cid', ov', ver', n', refs'⟩ := h
  simp only [ProofReport.Hashed.payload, Json.obj.injEq, List.cons.injEq, Prod.mk.injEq, true_and,
    and_true, Json.str.injEq, Json.int.injEq, Json.bool.injEq, Json.arr.injEq] at heq
  obtain ⟨rfl, hn, rfl, rfl, hv, hrefs, rfl⟩ := heq
  have hrefs' : refs = refs' := List.map_injective_iff.mpr (fun _ _ => Json.str.inj) hrefs
  rw [Int.ofNat_inj.mp hn, verdict_value_injective hv, hrefs']

theorem computeHash_eq_iff (hinj : Function.Injective sha.hexdigest) {p q : ProofReport} :
    p.computeHash sha = q.computeHash sha ↔ p.hashed = q.hashed := by
  constructor
  · intro h
    exact payload_injective (Json.render_injective _ (payload_wf _) (payload_wf _) (hinj h))
  · intro h
    rw [ProofReport.computeHash, ProofReport.computeHash, h]

theorem hash_ne_nil (sha : Sha256) (p : ProofReport) : p.hash sha ≠ [] := by
  rw [ProofReport.hash]
  split_ifs with h
  · exact sha.nonempty _
  · exact fun he => h (by rw [he]; rfl)

end payload

section verify

variable {sha : Sha256} {now : Str} {center : ProofReport} {leaves leaves' : Leaves}

theorem orText_some {t u : Str} (h : t ≠ []) : orText (some t) u = t := by
  cases t with
  | nil => exact absurd rfl h
  | cons c cs => rfl

theorem peerEntry_peerId {l : Str × ProofReport} (h : l.1 ≠ []) :
    (peerEntry sha now l).peerId = l.1 := orText_some h

theorem peerEntry_ref (l : Str × ProofReport) : (peerEntry sha now l).ref = l.2.hash sha :=
  orText_some (hash_ne_nil sha l.2)

theorem attach_peerEntries (hc : center.peerEntries = []) :
    (attachPeerProofs sha now center leaves).peerEntries = leaves.map (peerEntry sha now) := by
  have hnew : (leaves.map (peerEntry sha now)).filter EvidenceEntry.isPeer =
      leaves.map (peerEntry sha now) := by
    refine List.filter_eq_self.mpr (fun e he => ?_)
    obtain ⟨l, -, rfl⟩ := List.mem_map.mp he
    exact decide_eq_true rfl
  rw [ProofReport.peerEntries] at hc ⊢
  change List.filter _ (center.evidenceChain ++ leaves.map (peerEntry sha now)) = _
  rw [List.filter_append, hc, hnew, List.nil_append]

theorem foldl_store_entries (d : OrderedDict Str Str) (kvs : List (Str × Str))
    (h : (d.entries.map Prod.fst ++ kvs.map Prod.fst).Nodup) :
    (kvs.foldl (fun d e => d.store e.1 e.2) d).entries = d.entries ++ kvs := by
  induction kvs generalizing d with
  | nil => rw [List.foldl_nil, List.append_nil]
  | cons kv kvs ih =>
    rw [List.map_cons, List.nodup_append, List.nodup_cons] at h
    have hnew : kv.1 ∉ d.entries.map Prod.fst :=
      fun hm => h.2.2 _ hm _ List.mem_cons_self rfl
    have hkeep : d.entries.filter (fun e => e.1 ≠ kv.1) = d.entries :=
      List.filter_eq_self.mpr (fun e he =>
        decide_eq_true (fun heq => hnew (heq ▸ List.mem_map_of_mem he)))
    have hentries : (d.store kv.1 kv.2).entries = d.entries ++ [kv] :=
      congrArg (fun l => l ++ [kv]) hkeep
    rw [List.foldl_cons, ih, hentries, List.append_assoc]
    · rfl
    · rw [hentries, List.map_append, List.append_assoc]
      exact List.nodup_append.mpr ⟨h.1, List.nodup_cons.mpr h.2.1, h.2.2⟩

theorem refsByPeer_entries (sha : Sha256) (now : Str) (hne : ∀ l ∈ leaves, l.1 ≠ []) (hd : (leaves.map Prod.fst).Nodup) :
    (refsByPeer (leaves.map (peerEntry sha now))).entries =
      leaves.map (fun l => (l.1, l.2.hash sha)) := by
  have hall : (leaves.map (peerEntry sha now)).filter (fun e => !e.peerId.isEmpty) =
      leaves.map (peerEntry sha now) := by
    refine List.filter_eq_self.mpr (fun e he => ?_)
    obtain ⟨l, hl, rfl⟩ := List.mem_map.mp he
    rw [peerEntry_peerId (hne l hl)]
    simpa using hne l hl
  have hpairs : (leaves.map (peerEntry sha now)).map (fun e => (e.peerId, e.ref)) =
      leaves.map (fun l => (l.1, l.2.hash sha)) := by
    rw [List.map_map]
    refine List.map_congr_left (fun l hl => ?_)
    rw [Function.comp_apply, peerEntry_peerId (hne l hl), peerEntry_ref]
  rw [refsByPeer, hall]
  have hfold := foldl_store_entries OrderedDict.empty
    ((leaves.map (peerEntry sha now)).map (fun e => (e.peerId, e.ref)))
    (by rw [hpairs, List.map_map]; exact hd)
  rw [List.foldl_map, hpairs] at hfold
  exact hfold

theorem missingErrors_nil (hne : ∀ l ∈ leaves, l.1 ≠ []) :
    missingErrors (leaves.map (peerEntry sha now)) = [] := by
  rw [missingErrors, List.map_eq_nil_iff, List.filter_eq_nil_iff]
  intro e he
  obtain ⟨l, hl, rfl⟩ := List.mem_map.mp he
  rw [peerEntry_peerId (hne l hl)]
  simpa using hne l hl

theorem centerErrors_attach : centerErrors sha (attachPeerProofs sha now center leaves) = [] := by
  refine if_neg (fun h => h.2 ?_)
  rfl

theorem leafErrors_nil {refs : OrderedDict Str Str} {l : Str × ProofReport} :
    leafErrors sha refs l = [] ↔ refs.get? l.1 = some (l.2.hash sha) := by
  rw [leafErrors]
  cases refs.get? l.1 with
  | none => simp
  | some ref => by_cases h : ref = l.2.hash sha <;> simp [h]

theorem verifyPeerChain_iff (hc : center.peerEntries = []) (hne : ∀ l ∈ leaves, l.1 ≠ [])
    (hd : (leaves.map Prod.fst).Nodup) (hlen : leaves'.length = leaves.length) :
    (verifyPeerChain sha (attachPeerProofs sha now center leaves) leaves').1 = true ↔
      ∀ l ∈ leaves', (l.1, l.2.hash sha) ∈ leaves.map (fun l => (l.1, l.2.hash sha)) := by
  have hentries := refsByPeer_entries sha now hne hd
  have hcount : countErrors (refsByPeer (leaves.map (peerEntry sha now))) leaves' = [] := by
    refine if_neg (not_not.mpr ?_)
    rw [OrderedDict.size, hentries, List.length_map, hlen]
  rw [verifyPeerChain, attach_peerEntries hc, missingErrors_nil hne, hcount, centerErrors_attach]
  simp only [List.nil_append, List.append_nil, List.isEmpty_iff, List.flatMap_eq_nil_iff,
    (sortFields_perm leaves').mem_iff, leafErrors_nil, OrderedDict.get?_eq_some, hentries]

theorem verifyPeerChain_changed (hc : center.peerEntries = []) (hne : ∀ l ∈ leaves, l.1 ≠ [])
    (hd : (leaves.map Prod.fst).Nodup) (hids : leaves'.map Prod.fst = leaves.map Prod.fst) :
    (verifyPeerChain sha (attachPeerProofs sha now center leaves) leaves').1 = true ↔
      leaves'.map (fun l => l.2.hash sha) = leaves.map (fun l => l.2.hash sha) := by
  have hlen : leaves'.length = leaves.length := by simpa using congrArg List.length hids
  rw [verifyPeerChain_iff hc hne hd hlen]
  have hnodup : ((leaves.map (fun l => (l.1, l.2.hash sha))).map Prod.fst).Nodup := by
    rw [List.map_map]
    exact hd
  constructor
  · intro h
    refine List.ext_getElem (by simpa using hlen) (fun i hi hi' => ?_)
    rw [List.length_map] at hi hi'
    have hid : leaves'[i].1 = leaves[i].1 := by
      have hget := congrArg (fun l => l[i]?) hids
      simpa [List.getElem?_eq_getElem hi, List.getElem?_eq_getElem hi'] using hget
    have hmem := h leaves'[i] (List.getElem_mem hi)
    have hmem' : (leaves[i].1, leaves[i].2.hash sha) ∈ leaves.map (fun l => (l.1, l.2.hash sha)) :=
      List.mem_map_of_mem (f := fun l : Str × ProofReport => (l.1, l.2.hash sha))
        (List.getElem_mem hi')
    have heq := List.inj_on_of_nodup_map hnodup hmem hmem' hid
    rw [List.getElem_map, List.getElem_map]
    exact congrArg Prod.snd heq
  · intro h l hl
    obtain ⟨i, hi, rfl⟩ := List.getElem_of_mem hl
    have hi' : i < leaves.length := hlen ▸ hi
    have hid := congrArg (fun l => l[i]?) hids
    have hhash := congrArg (fun l => l[i]?) h
    simp only [List.getElem?_map, List.getElem?_eq_getElem hi, List.getElem?_eq_getElem hi',
      Option.map_some, Option.some.injEq] at hid hhash
    rw [hid, hhash]
    exact List.mem_map_of_mem (f := fun l : Str × ProofReport => (l.1, l.2.hash sha))
      (List.getElem_mem hi')

theorem peer_chain_tamper_evident (hinj : Function.Injective sha.hexdigest) (now : Str)
    (center : ProofReport) (leaves : Leaves) (hc : center.peerEntries = [])
    (hne : ∀ l ∈ leaves, l.1 ≠ []) (hd : (leaves.map Prod.fst).Nodup) :
    (verifyPeerChain sha (attachPeerProofs sha now center leaves) leaves).1 = true ∧
    (∀ leaves' : Leaves, leaves'.map Prod.fst = leaves.map Prod.fst →
      ((verifyPeerChain sha (attachPeerProofs sha now center leaves) leaves').1 = false ↔
        leaves'.map (fun l => l.2.hash sha) ≠ leaves.map (fun l => l.2.hash sha))) ∧
    ∀ p q : ProofReport,
      (p.reportHash ≠ [] → p.hash sha = p.reportHash) ∧
      (p.reportHash = [] → q.reportHash = [] →
        (p.hash sha = q.hash sha ↔ p.hashed = q.hashed)) := by
  refine ⟨(verifyPeerChain_changed hc hne hd rfl).mpr rfl, fun leaves' hids => ?_, fun p q => ?_⟩
  · rw [← Bool.not_eq_true, verifyPeerChain_changed hc hne hd hids]
  · refine ⟨fun hp => if_neg (fun he => hp (List.isEmpty_iff.mp he)), fun hp hq => ?_⟩
    have hhash : ∀ r : ProofReport, r.reportHash = [] → r.hash sha = r.computeHash sha :=
      fun r hr => if_pos (by rw [hr]; rfl)
    rw [hhash p hp, hhash q hq, computeHash_eq_iff hinj]

end verify

def demoReport (reportId cycleId hash : Str) : ProofReport where
  reportId := reportId
  intentId := "i".toList
  cycleId := cycleId
  preSnapshot := .obj []
  postSnapshot := .obj []
  executionSummary := .obj [("status".toList, .str "no_report".toList)]
  kripkeVerdict := ⟨false, 0, 0, [], []⟩
  evidenceChain := []
  policyDecisions := []
  overallVerdict := .inconclusive
  verdictReason := "execution status: no_report".toList
  reportHash := hash

def leafHash : Str := "33da70c693514c3f553dd482d88e118bdccdf785da9a29faf98b947a6dc3eadb".toList

def centerHash : Str := "9eff49dc23349ae44cd62dd7d144948eec693e989d69becd0b6484c91235e083".toList

def demoLeaf : ProofReport := demoReport "proof-l".toList "l".toList leafHash

def demoCenter : ProofReport := demoReport "proof-c".toList "c".toList []

def peerTable : List (Str × Str) :=
  [(ProofReport.spacedStyle.render demoLeaf.hashed.payload, leafHash),
    (ProofReport.spacedStyle.render
      { demoCenter.hashed with evidenceCount := 1, peerRefs := [leafHash] }.payload, centerHash)]

theorem peerTable_digests : peerTable.all (fun e => isDigest e.2) = true := by decide +kernel

def peerSha : Sha256 := .ofTable peerTable peerTable_digests

theorem peerSha_injective : Function.Injective peerSha.hexdigest :=
  tableDigest_injective peerTable_digests (by decide +kernel)

def attachedDemo : ProofReport := attachPeerProofs peerSha [] demoCenter [("leaf.a".toList, demoLeaf)]

def forgedLeaf : ProofReport :=
  { demoLeaf with preSnapshot := .obj [("x".toList, .int 1)], overallVerdict := .pass }

def rehashedLeaf : ProofReport := { demoLeaf with reportHash := "tampered".toList }

theorem forged_leaf_accepted :
    Function.Injective peerSha.hexdigest ∧
    demoLeaf.overallVerdict = .inconclusive ∧ forgedLeaf.overallVerdict = .pass ∧
    verifyPeerChain peerSha attachedDemo [("leaf.a".toList, forgedLeaf)] = (true, []) :=
  ⟨peerSha_injective, rfl, rfl, by decide +kernel⟩

theorem peer_chain_tamper_evident_demo :
    (verifyPeerChain peerSha attachedDemo [("leaf.a".toList, demoLeaf)]).1 = true ∧
    (verifyPeerChain peerSha attachedDemo [("leaf.a".toList, rehashedLeaf)]).1 = false := by
  have hne : ∀ l ∈ [("leaf.a".toList, demoLeaf)], l.1 ≠ [] := by
    intro l hl
    rw [List.mem_singleton.mp hl]
    decide
  have h := peer_chain_tamper_evident peerSha_injective [] demoCenter [("leaf.a".toList, demoLeaf)]
    rfl hne (List.nodup_singleton _)
  exact ⟨h.1, (h.2.1 [("leaf.a".toList, rehashedLeaf)] rfl).mpr (by decide +kernel)⟩

end TraceMind.Control
