import TraceMind.Control.Proof
import TraceMind.Foundation.HashChain
import TraceMind.Runtime.Remote

namespace TraceMind.Control

open Artifacts (Sha256)
open Runtime.Remote (SameValue)

def KripkeVerdict.json (k : KripkeVerdict) : Json :=
  .obj [("verified".toList, .bool k.verified),
    ("properties_checked".toList, .int k.propertiesChecked),
    ("properties_passed".toList, .int k.propertiesPassed),
    ("failed_properties".toList, .arr (k.failedProperties.map .str)),
    ("counterexamples".toList, .arr k.counterexamples)]

def optText : Option Str → Json
  | none => .null
  | some s => .str s

def EvidenceEntry.json (e : EvidenceEntry) : Json :=
  .obj [("source".toList, .str e.source), ("event_type".toList, .str e.eventType),
    ("data".toList, .obj e.data), ("timestamp".toList, .str e.timestamp),
    ("peer_node_id".toList, optText e.peerNodeId),
    ("peer_chain_ref".toList, optText e.peerChainRef)]

def dumps (v : Json) : Str := ProofReport.spacedStyle.render (Policy.sortKeys v)

def ProofReport.evidence (r : ProofReport) : Json := .arr (r.evidenceChain.map EvidenceEntry.json)

def ProofReport.items (r : ProofReport) : List (Str × Str) :=
  [("pre_snapshot".toList, dumps r.preSnapshot),
    ("execution_summary".toList, dumps r.executionSummary),
    ("post_snapshot".toList, dumps r.postSnapshot),
    ("kripke_verdict".toList, dumps r.kripkeVerdict.json),
    ("evidence_chain".toList, dumps r.evidence),
    ("overall_verdict".toList, r.overallVerdict.value)]

structure Link where
  artifact : Str
  hash : Str
  prevHash : Str
deriving DecidableEq

def entryHash (sha : Sha256) (payload prevHash : Str) : Str :=
  sha.hexdigest (prevHash ++ ':' :: payload)

def linksFrom (sha : Sha256) : Str → List (Str × Str) → List Link
  | _, [] => []
  | prevHash, (name, payload) :: items =>
    ⟨name, entryHash sha payload prevHash, prevHash⟩ ::
      linksFrom sha (entryHash sha payload prevHash) items

def buildHashChain (sha : Sha256) (r : ProofReport) : List Link := linksFrom sha [] r.items

def verifyHashChain (sha : Sha256) (chain : List Link) (r : ProofReport) : Bool :=
  if chain.length ≠ (buildHashChain sha r).length then false
  else (chain.zip (buildHashChain sha r)).all (fun ce => ce.1.hash == ce.2.hash)

structure DictReport extends ProofReport where
  preWf : Json.wf preSnapshot = true
  postWf : Json.wf postSnapshot = true
  summaryWf : Json.wf executionSummary = true
  counterexamplesWf : Json.wfItems kripkeVerdict.counterexamples = true
  dataWf : ∀ e ∈ evidenceChain, Json.wf (.obj e.data) = true

structure SameArtifacts (p q : ProofReport) : Prop where
  pre : SameValue p.preSnapshot q.preSnapshot
  summary : SameValue p.executionSummary q.executionSummary
  post : SameValue p.postSnapshot q.postSnapshot
  kripke : SameValue p.kripkeVerdict.json q.kripkeVerdict.json
  evidence : SameValue p.evidence q.evidence
  verdict : p.overallVerdict = q.overallVerdict

def SameDecisions (p q : ProofReport) : Prop :=
  SameValue (.arr p.policyDecisions) (.arr q.policyDecisions)

def OnlyDecisions (p q : ProofReport) : Prop := SameArtifacts p q ∧ ¬ SameDecisions p q

def OnlyLabels (chain chain' : List Link) : Prop :=
  chain' ≠ chain ∧ chain'.map Link.hash = chain.map Link.hash

structure TamperEvident (sha : Sha256) (p q : ProofReport) (chain : List Link) : Prop where
  intact : verifyHashChain sha (buildHashChain sha p) p = true
  report : ¬ (SameArtifacts p q ∧ SameDecisions p q) →
    verifyHashChain sha (buildHashChain sha p) q = false
  chain : chain ≠ buildHashChain sha p → verifyHashChain sha chain p = false

theorem kripke_keys : ["verified".toList, "properties_checked".toList, "properties_passed".toList,
    "failed_properties".toList, "counterexamples".toList].Nodup := by
  decide +kernel

theorem entry_keys : ["source".toList, "event_type".toList, "data".toList, "timestamp".toList,
    "peer_node_id".toList, "peer_chain_ref".toList].Nodup := by
  decide +kernel

theorem optText_wf (t : Option Str) : Json.wf (optText t) = true := by
  cases t <;> rfl

theorem KripkeVerdict.json_wf {k : KripkeVerdict} (h : Json.wfItems k.counterexamples = true) :
    Json.wf k.json = true := by
  have hfailed : Json.wfItems (k.failedProperties.map .str) = true := by
    refine Json.wfItems_iff.mpr (fun v hv => ?_)
    obtain ⟨t, -, rfl⟩ := List.mem_map.mp hv
    rfl
  simp only [KripkeVerdict.json, Json.wf, Json.wfFields, hfailed, h, List.map_cons, List.map_nil,
    Bool.and_self, Bool.and_true, decide_eq_true_eq]
  exact kripke_keys

theorem EvidenceEntry.json_wf {e : EvidenceEntry} (h : Json.wf (.obj e.data) = true) :
    Json.wf e.json = true := by
  rw [EvidenceEntry.json, Json.wf]
  simp only [Json.wfFields, h, optText_wf, List.map_cons, List.map_nil, Bool.and_true,
    Bool.true_and]
  simp only [Json.wf, Bool.and_true, decide_eq_true_eq]
  exact entry_keys

theorem DictReport.evidence_wf (r : DictReport) : Json.wf r.evidence = true := by
  rw [ProofReport.evidence, Json.wf, Json.wfItems_iff]
  intro v hv
  obtain ⟨e, he, rfl⟩ := List.mem_map.mp hv
  exact EvidenceEntry.json_wf (r.dataWf e he)

theorem DictReport.kripke_wf (r : DictReport) : Json.wf r.kripkeVerdict.json = true :=
  KripkeVerdict.json_wf r.counterexamplesWf

section digests

variable {sha : Sha256}

abbrev Digest := {d : Str // ':' ∉ d}

def commit (sha : Sha256) (hcolon : ∀ s, ':' ∉ sha.hexdigest s) (payload : Str)
    (prevHash : Digest) : Digest :=
  ⟨entryHash sha payload prevHash.1, hcolon _⟩

def noDigest : Digest := ⟨[], List.not_mem_nil⟩

theorem content_injective {c c' p p' : Str} (hp : ':' ∉ p) (hp' : ':' ∉ p')
    (h : p ++ ':' :: c = p' ++ ':' :: c') : p = p' ∧ c = c' := by
  induction p generalizing p' with
  | nil =>
    cases p' with
    | nil => exact ⟨rfl, (List.cons.inj h).2⟩
    | cons x p' => exact absurd ((List.cons.inj h).1 ▸ List.mem_cons_self) hp'
  | cons x p ih =>
    cases p' with
    | nil => exact absurd ((List.cons.inj h).1 ▸ List.mem_cons_self) hp
    | cons y p' =>
      obtain ⟨rfl, hrest⟩ := List.cons.inj h
      obtain ⟨rfl, rfl⟩ := ih (fun hm => hp (List.mem_cons_of_mem _ hm))
        (fun hm => hp' (List.mem_cons_of_mem _ hm)) hrest
      exact ⟨rfl, rfl⟩

theorem commit_binding (hinj : Function.Injective sha.hexdigest)
    (hcolon : ∀ s, ':' ∉ sha.hexdigest s) : HashChain.Binding (commit sha hcolon) noDigest where
  inj {c c' p p'} h := by
    have hcontent := hinj (congrArg Subtype.val h)
    obtain ⟨hprev, hpayload⟩ := content_injective p.2 p'.2 hcontent
    exact ⟨hpayload, Subtype.ext hprev⟩
  ne_start c p h := sha.nonempty _ (congrArg Subtype.val h)

theorem linksFrom_hashes (hcolon : ∀ s, ':' ∉ sha.hexdigest s) (prevHash : Digest)
    (items : List (Str × Str)) : (linksFrom sha prevHash.1 items).map Link.hash =
      ((HashChain.journal (commit sha hcolon) prevHash (items.map Prod.snd)).map Prod.snd).map
        Subtype.val := by
  induction items generalizing prevHash with
  | nil => rfl
  | cons item items ih =>
    have hrest := ih (commit sha hcolon item.2 prevHash)
    rw [List.map_cons, HashChain.journal, List.map_cons, List.map_cons, ← hrest]
    rfl

theorem buildHashChain_hashes (hcolon : ∀ s, ':' ∉ sha.hexdigest s) (p : ProofReport) :
    (buildHashChain sha p).map Link.hash =
      ((HashChain.journal (commit sha hcolon) noDigest (p.items.map Prod.snd)).map Prod.snd).map
        Subtype.val :=
  linksFrom_hashes hcolon noDigest p.items

theorem buildHashChain_hashes_iff (hinj : Function.Injective sha.hexdigest)
    (hcolon : ∀ s, ':' ∉ sha.hexdigest s) {p q : ProofReport} :
    (buildHashChain sha p).map Link.hash = (buildHashChain sha q).map Link.hash ↔
      p.items.map Prod.snd = q.items.map Prod.snd := by
  rw [buildHashChain_hashes hcolon, buildHashChain_hashes hcolon,
    (List.map_injective_iff.mpr Subtype.val_injective).eq_iff,
    HashChain.journal_digests_iff (commit_binding hinj hcolon)]

theorem buildHashChain_nodup (hinj : Function.Injective sha.hexdigest)
    (hcolon : ∀ s, ':' ∉ sha.hexdigest s) (p : ProofReport) :
    ((buildHashChain sha p).map Link.hash).Nodup := by
  rw [buildHashChain_hashes hcolon]
  exact ((HashChain.journal_valid _).nodup (commit_binding hinj hcolon)).map Subtype.val_injective

end digests

section verify

variable {sha : Sha256}

theorem all_hashes_iff {chain expected : List Link} (hlen : chain.length = expected.length) :
    (chain.zip expected).all (fun ce => ce.1.hash == ce.2.hash) = true ↔
      chain.map Link.hash = expected.map Link.hash := by
  induction chain generalizing expected with
  | nil =>
    obtain rfl := List.eq_nil_of_length_eq_zero hlen.symm
    simp
  | cons c chain ih =>
    cases expected with
    | nil => cases hlen
    | cons e expected => simp [ih (Nat.succ.inj hlen)]

theorem verifyHashChain_iff {chain : List Link} {p : ProofReport} :
    verifyHashChain sha chain p = true ↔
      chain.map Link.hash = (buildHashChain sha p).map Link.hash := by
  rw [verifyHashChain]
  split_ifs with hlen
  · refine iff_of_false not_false (fun h => hlen ?_)
    simpa using congrArg List.length h
  · exact all_hashes_iff (not_not.mp hlen)

theorem dumps_iff {v w : Json} (hv : Json.wf v = true) (hw : Json.wf w = true) :
    dumps v = dumps w ↔ SameValue v w := by
  rw [Runtime.Remote.sameValue_iff hv hw]
  constructor
  · exact Runtime.Remote.sortKeys_injective_text hv hw
  · intro h
    rw [dumps, dumps, h]

theorem payloads_iff (p q : DictReport) :
    p.items.map Prod.snd = q.items.map Prod.snd ↔
      SameArtifacts p.toProofReport q.toProofReport := by
  simp only [ProofReport.items, List.map_cons, List.map_nil, List.cons.injEq, and_true,
    dumps_iff p.preWf q.preWf, dumps_iff p.summaryWf q.summaryWf, dumps_iff p.postWf q.postWf,
    dumps_iff p.kripke_wf q.kripke_wf, dumps_iff p.evidence_wf q.evidence_wf,
    verdict_value_injective.eq_iff]
  constructor
  · rintro ⟨hpre, hsummary, hpost, hkripke, hevidence, hverdict⟩
    exact ⟨hpre, hsummary, hpost, hkripke, hevidence, hverdict⟩
  · intro h
    exact ⟨h.pre, h.summary, h.post, h.kripke, h.evidence, h.verdict⟩

theorem verify_built_iff (hinj : Function.Injective sha.hexdigest)
    (hcolon : ∀ s, ':' ∉ sha.hexdigest s) (p q : DictReport) :
    verifyHashChain sha (buildHashChain sha p.toProofReport) q.toProofReport = true ↔
      SameArtifacts p.toProofReport q.toProofReport := by
  rw [verifyHashChain_iff, buildHashChain_hashes_iff hinj hcolon, payloads_iff]

theorem tamperEvident_iff (hinj : Function.Injective sha.hexdigest)
    (hcolon : ∀ s, ':' ∉ sha.hexdigest s) (p q : DictReport) (chain : List Link) :
    TamperEvident sha p.toProofReport q.toProofReport chain ↔
      ¬ OnlyDecisions p.toProofReport q.toProofReport ∧
        ¬ OnlyLabels (buildHashChain sha p.toProofReport) chain := by
  have hreport := verify_built_iff hinj hcolon p q
  constructor
  · intro h
    refine ⟨fun hq => ?_, fun hc => ?_⟩
    · have hfalse := h.report (fun hsame => hq.2 hsame.2)
      rw [hreport.mpr hq.1] at hfalse
      cases hfalse
    · have hfalse := h.chain hc.1
      rw [verifyHashChain_iff.mpr hc.2] at hfalse
      cases hfalse
  · rintro ⟨hq, hc⟩
    refine ⟨verifyHashChain_iff.mpr rfl, fun hchanged => ?_, fun hne => ?_⟩
    · refine Bool.eq_false_iff.mpr (fun hv => ?_)
      have hsame := hreport.mp hv
      exact hq ⟨hsame, fun hdecisions => hchanged ⟨hsame, hdecisions⟩⟩
    · exact Bool.eq_false_iff.mpr (fun hv => hc ⟨hne, verifyHashChain_iff.mp hv⟩)

end verify

section edits

inductive ChainEdit where
  | relabel (i : ℕ) (artifact : Str)
  | rehash (i : ℕ) (hash : Str)
  | relink (i : ℕ) (prevHash : Str)
  | drop (i : ℕ)
  | add (i : ℕ) (l : Link)
  | swap (i j : ℕ)

def ChainEdit.apply : ChainEdit → List Link → List Link
  | .relabel i artifact, chain => chain.modify i (fun l => { l with artifact := artifact })
  | .rehash i hash, chain => chain.modify i (fun l => { l with hash := hash })
  | .relink i prevHash, chain => chain.modify i (fun l => { l with prevHash := prevHash })
  | .drop i, chain => chain.eraseIdx i
  | .add i l, chain => chain.insertIdx i l
  | .swap i j, chain =>
    match chain[i]?, chain[j]? with
    | some a, some b => (chain.set i b).set j a
    | _, _ => chain

def ChainEdit.isLabel : ChainEdit → Bool
  | .relabel _ _ | .relink _ _ => true
  | _ => false

variable {chain : List Link}

theorem modify_hashes {f : Link → Link} (i : ℕ) (hf : ∀ l, (f l).hash = l.hash) :
    (chain.modify i f).map Link.hash = chain.map Link.hash := by
  apply List.ext_getElem?
  intro k
  rw [List.getElem?_map, List.getElem?_modify, List.getElem?_map]
  cases chain[k]? with
  | none => rfl
  | some l =>
    by_cases hk : i = k
    · simp [hk, hf]
    · simp [hk]

theorem rehash_changes {i : ℕ} {hash : Str}
    (h : ((ChainEdit.rehash i hash).apply chain).map Link.hash = chain.map Link.hash) :
    (ChainEdit.rehash i hash).apply chain = chain := by
  apply List.ext_getElem?
  intro k
  have hk := congrArg (fun hs => hs[k]?) h
  simp only [ChainEdit.apply, List.getElem?_map, List.getElem?_modify] at hk ⊢
  cases hl : chain[k]? with
  | none => rfl
  | some l =>
    rw [hl] at hk
    by_cases hik : i = k
    · simp only [hik, if_true, Option.map_eq_map, Option.map_some, Option.some.injEq] at hk ⊢
      rw [hk]
    · simp [hik]

theorem drop_changes {i : ℕ}
    (h : ((ChainEdit.drop i).apply chain).map Link.hash = chain.map Link.hash) :
    (ChainEdit.drop i).apply chain = chain := by
  have hlen : (chain.eraseIdx i).length = chain.length := by
    simpa [ChainEdit.apply] using congrArg List.length h
  apply List.eraseIdx_of_length_le
  rw [List.length_eraseIdx] at hlen
  split_ifs at hlen with hi
  · omega
  · exact Nat.le_of_not_lt hi

theorem add_changes {i : ℕ} {l : Link}
    (h : ((ChainEdit.add i l).apply chain).map Link.hash = chain.map Link.hash) :
    (ChainEdit.add i l).apply chain = chain := by
  have hlen : (chain.insertIdx i l).length = chain.length := by
    simpa [ChainEdit.apply] using congrArg List.length h
  apply List.insertIdx_of_length_lt
  rw [List.length_insertIdx] at hlen
  split_ifs at hlen with hi
  · omega
  · exact Nat.lt_of_not_le hi

theorem swap_changes {i j : ℕ} (hd : (chain.map Link.hash).Nodup)
    (h : ((ChainEdit.swap i j).apply chain).map Link.hash = chain.map Link.hash) :
    (ChainEdit.swap i j).apply chain = chain := by
  rw [ChainEdit.apply] at h ⊢
  cases hi : chain[i]? with
  | none => rfl
  | some a =>
    cases hj : chain[j]? with
    | none => rfl
    | some b =>
      rw [hi, hj] at h
      dsimp only at h ⊢
      obtain ⟨hi', ha⟩ := List.getElem?_eq_some_iff.mp hi
      obtain ⟨hj', hb⟩ := List.getElem?_eq_some_iff.mp hj
      have hmoved : ((chain.set i b).set j a)[j]? = some a :=
        List.getElem?_set_self (by rwa [List.length_set])
      have hsame := congrArg (fun hs => hs[j]?) h
      simp only [List.getElem?_map, hmoved, hj, Option.map_some, Option.some.injEq] at hsame
      have hij : i = j := by
        apply (List.getElem?_inj (by rwa [List.length_map]) hd).mp
        rw [List.getElem?_map, List.getElem?_map, hi, hj, Option.map_some, Option.map_some, hsame]
      subst hij
      rw [List.set_set, ← ha, List.set_getElem_self]

theorem onlyLabels_iff (hd : (chain.map Link.hash).Nodup) (e : ChainEdit) :
    OnlyLabels chain (e.apply chain) ↔ e.isLabel = true ∧ e.apply chain ≠ chain := by
  constructor
  · rintro ⟨hne, hsame⟩
    refine ⟨?_, hne⟩
    cases e with
    | relabel i artifact => rfl
    | relink i prevHash => rfl
    | rehash i hash => exact absurd (rehash_changes hsame) hne
    | drop i => exact absurd (drop_changes hsame) hne
    | add i l => exact absurd (add_changes hsame) hne
    | swap i j => exact absurd (swap_changes hd hsame) hne
  · rintro ⟨hlabel, hne⟩
    refine ⟨hne, ?_⟩
    cases e with
    | relabel i artifact => exact modify_hashes i (fun _ => rfl)
    | relink i prevHash => exact modify_hashes i (fun _ => rfl)
    | rehash i hash => cases hlabel
    | drop i => cases hlabel
    | add i l => cases hlabel
    | swap i j => cases hlabel

end edits

theorem hash_chain_tamper_evident_iff {sha : Sha256} (hinj : Function.Injective sha.hexdigest)
    (hcolon : ∀ s, ':' ∉ sha.hexdigest s) (p q : DictReport) (chain : List Link) (e : ChainEdit) :
    (TamperEvident sha p.toProofReport q.toProofReport chain ↔
      ¬ OnlyDecisions p.toProofReport q.toProofReport ∧
        ¬ OnlyLabels (buildHashChain sha p.toProofReport) chain) ∧
    (OnlyLabels (buildHashChain sha p.toProofReport)
        (e.apply (buildHashChain sha p.toProofReport)) ↔
      e.isLabel = true ∧
        e.apply (buildHashChain sha p.toProofReport) ≠ buildHashChain sha p.toProofReport) :=
  ⟨tamperEvident_iff hinj hcolon p q chain, onlyLabels_iff (buildHashChain_nodup hinj hcolon _) e⟩

theorem demoSummary_wf : Json.wf demoCenter.executionSummary = true := by
  decide +kernel

def decidedReport (decisions : List Json) : DictReport where
  toProofReport := { demoCenter with policyDecisions := decisions }
  preWf := rfl
  postWf := rfl
  summaryWf := demoSummary_wf
  counterexamplesWf := rfl
  dataWf := fun _ he => absurd he List.not_mem_nil

def deniedDecision : Json := .obj [("decision".toList, .str "deny".toList)]

def longSha : Sha256 := .ofTable [] Artifacts.noDigests

theorem longSha_colon (s : Str) : ':' ∉ longSha.hexdigest s := by
  intro hm
  cases List.eq_of_mem_replicate hm

theorem sameValue_refl {v : Json} (hv : Json.wf v = true) : SameValue v v :=
  (Runtime.Remote.sameValue_iff hv hv).mpr rfl

theorem decidedReport_same (ds es : List Json) :
    SameArtifacts (decidedReport ds).toProofReport (decidedReport es).toProofReport where
  pre := sameValue_refl rfl
  summary := sameValue_refl (decidedReport ds).summaryWf
  post := sameValue_refl rfl
  kripke := sameValue_refl (decidedReport ds).kripke_wf
  evidence := sameValue_refl (decidedReport ds).evidence_wf
  verdict := rfl

theorem deniedDecision_new :
    ¬ SameDecisions (decidedReport []).toProofReport
      (decidedReport [deniedDecision]).toProofReport := by
  intro h
  have hsame := (Runtime.Remote.sameValue_iff rfl (by decide +kernel)).mp h
  simp [decidedReport, Policy.sortKeys, Policy.sortKeysItems] at hsame

theorem denied_after_the_fact :
    ∃ sha : Sha256, Function.Injective sha.hexdigest ∧ (∀ s, ':' ∉ sha.hexdigest s) ∧
      ¬ SameDecisions (decidedReport []).toProofReport
        (decidedReport [deniedDecision]).toProofReport ∧
      verifyHashChain sha (buildHashChain sha (decidedReport []).toProofReport)
        (decidedReport [deniedDecision]).toProofReport = true ∧
      (ChainEdit.relabel 0 []).apply (buildHashChain sha (decidedReport []).toProofReport) ≠
        buildHashChain sha (decidedReport []).toProofReport ∧
      verifyHashChain sha
        ((ChainEdit.relabel 0 []).apply (buildHashChain sha (decidedReport []).toProofReport))
        (decidedReport []).toProofReport = true := by
  refine ⟨longSha, Artifacts.ofTable_nil_injective, longSha_colon, deniedDecision_new, ?_, ?_, ?_⟩
  · exact (verify_built_iff Artifacts.ofTable_nil_injective longSha_colon _ _).mpr
      (decidedReport_same [] [deniedDecision])
  · intro h
    cases congrArg Link.artifact (List.cons.inj h).1
  · exact verifyHashChain_iff.mpr (modify_hashes 0 (fun _ => rfl))

theorem hash_chain_tamper_evident_demo :
    TamperEvident longSha (decidedReport []).toProofReport (decidedReport []).toProofReport [] := by
  refine (hash_chain_tamper_evident_iff Artifacts.ofTable_nil_injective longSha_colon
    (decidedReport []) (decidedReport []) [] (.drop 0)).1.mpr ⟨fun h => ?_, fun h => ?_⟩
  · exact h.2 (sameValue_refl rfl)
  · cases h.2

end TraceMind.Control
