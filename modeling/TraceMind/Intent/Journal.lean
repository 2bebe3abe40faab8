import TraceMind.Intent.Steps
import TraceMind.Foundation.HashChain

namespace TraceMind.Intent

open Artifacts

section content

variable {sha : Sha256} {c c' : TurnContent} {p p' : Str}

def TurnContent.normalized (c : TurnContent) : TurnContent :=
  { c with
    role := normalizeString c.role, action := normalizeString c.action
    inputRef := c.inputRef.map normalizeString, outputRef := c.outputRef.map normalizeString
    provider := c.provider.map normalizeString }

def sealedFields (c : TurnContent) (prevHash : Str) : List (Str × Json) :=
  [("action".toList, .str c.action), ("input_ref".toList, optText c.inputRef),
    ("output_ref".toList, optText c.outputRef), ("prev_hash".toList, .str prevHash),
    ("provider".toList, optText c.provider), ("role".toList, .str c.role),
    ("seq".toList, .int c.seq)]

def commit (sha : Sha256) (c : TurnContent) (prevHash : Str) : Str :=
  sha.hexdigest (canonicalStyle.render (.obj (sealedFields c prevHash)))

theorem normalizeValue_optText (v : Option Str) :
    normalizeValue (optText v) = optText (v.map normalizeString) := by
  cases v <;> rfl

theorem normalizeValue_turnPayload (c : TurnContent) (p : Str) :
    normalizeValue (turnPayload c p) = .obj (sealedFields c.normalized (normalizeString p)) := by
  rw [turnPayload, normalizeValue]
  simp only [normalizeFields, normalizeValue_optText]
  rfl

theorem turnContentHash_eq (sha : Sha256) (c : TurnContent) (p : Str) :
    turnContentHash sha c p = commit sha c.normalized (normalizeString p) := by
  rw [turnContentHash, bodyHash, normalizeBody, normalizeValue_turnPayload, commit]

theorem optText_wf (v : Option Str) : Json.wf (optText v) = true := by
  cases v <;> rfl

theorem sealedFields_wf (c : TurnContent) (p : Str) : Json.wf (.obj (sealedFields c p)) = true := by
  have hkeys : ((sealedFields c p).map Prod.fst).Nodup := by
    simp only [sealedFields, List.map_cons, List.map_nil]
    decide
  rw [Json.wf, decide_eq_true hkeys, Bool.true_and]
  simp only [sealedFields, Json.wfFields, optText_wf]
  rfl

theorem optText_injective {v w : Option Str} (h : optText v = optText w) : v = w := by
  cases v <;> cases w <;> first | rfl | cases h; rfl | cases h

theorem sealedFields_injective (h : sealedFields c p = sealedFields c' p') : c = c' ∧ p = p' := by
  obtain ⟨seq, role, action, inputRef, outputRef, provider⟩ := c
  obtain ⟨seq', role', action', inputRef', outputRef', provider'⟩ := c'
  simp only [sealedFields, List.cons.injEq, Prod.mk.injEq, true_and, and_true, Json.str.injEq,
    Json.int.injEq] at h
  obtain ⟨rfl, hin, hout, rfl, hprov, rfl, rfl⟩ := h
  rw [optText_injective hin, optText_injective hout, optText_injective hprov]
  exact ⟨rfl, rfl⟩

theorem commit_binding (hinj : Function.Injective sha.hexdigest) :
    HashChain.Binding (commit sha) genesisPrevHash where
  inj h := by
    have hobj := Json.render_injective _ (sealedFields_wf ..) (sealedFields_wf ..) (hinj h)
    exact sealedFields_injective (Json.obj.inj hobj)
  ne_start _ _ := sha.nonempty _

end content

section verify

variable {sha : Sha256} {ts us : List Turn}

def Turn.entry (t : Turn) : TurnContent × Str :=
  (t.toTurnContent.normalized, t.turnHash.getD genesisPrevHash)

structure Intact (sha : Sha256) (ts : List Turn) : Prop where
  hashed : ∀ t ∈ ts, t.turnHash.isSome = true
  chained : HashChain.Valid (commit sha) genesisPrevHash (ts.map Turn.entry)

def Plain (p : Str) : Prop := ∀ c ∈ p, isSpace c = false

theorem turnIssue_nil {idx : ℕ} {t : Turn} {expected : Str} :
    turnIssue idx t expected = [] ↔ t.turnHash = some expected := by
  rw [turnIssue]
  cases t.turnHash with
  | none => simp
  | some h => by_cases he : h = expected <;> simp [he]

theorem verifyFrom_nil (ts : List Turn) : ∀ (idx : ℕ) (p : Str), Plain p →
    (∀ t ∈ ts, ∀ h, t.turnHash = some h → Plain h) →
    (verifyFrom sha idx p ts = [] ↔ (∀ t ∈ ts, t.turnHash.isSome = true) ∧
      HashChain.Valid (commit sha) p (ts.map Turn.entry)) := by
  induction ts with
  | nil => intro idx p _ _; simp [verifyFrom, HashChain.Valid]
  | cons t ts ih =>
    intro idx p hp hplain
    have htail := fun u hu => hplain u (List.mem_cons_of_mem _ hu)
    rw [verifyFrom, List.append_eq_nil_iff, turnIssue_nil, turnContentHash_eq,
      normalizeString_plain hp, List.map_cons, HashChain.Valid, List.forall_mem_cons]
    cases ht : t.turnHash with
    | none => simp
    | some h =>
      have hh := hplain t List.mem_cons_self h ht
      have hentry : t.entry = (t.toTurnContent.normalized, h) := by rw [Turn.entry, ht]; rfl
      rw [Option.getD_some, ih (idx + 1) h hh htail, hentry, Option.some.injEq]
      simp only [Option.isSome_some, true_and]
      tauto

theorem Intact.plain (h : Intact sha ts) : ∀ t ∈ ts, ∀ d, t.turnHash = some d → Plain d := by
  intro t ht d hd
  obtain ⟨i, hi⟩ := List.mem_iff_getElem?.mp ht
  obtain ⟨p, -, heq⟩ := HashChain.valid_iff.mp h.chained i t.entry
    (by rw [List.getElem?_map, hi]; rfl)
  have hentry : t.entry.2 = d := by rw [Turn.entry, hd]; rfl
  rw [← hentry, heq]
  exact sha.plain _

theorem Intact.verify (h : Intact sha ts) : verifyJournal sha ts = [] :=
  (verifyFrom_nil ts 0 _ (fun c hc => by cases hc) h.plain).mpr ⟨h.hashed, h.chained⟩

theorem lastHash_digest {p : Str} (h : ∀ t ∈ ts, t.turnHash.isSome = true)
    (hp : (HashChain.digests genesisPrevHash (ts.map Turn.entry)).getLast? = some p) :
    lastHash ts = p := by
  induction ts using List.reverseRecOn with
  | nil =>
    cases hp
    rfl
  | append_singleton ts t ih =>
    rw [HashChain.digests, List.map_append, List.map_append, ← List.cons_append] at hp
    simp only [List.map_cons, List.map_nil, List.getLast?_concat] at hp
    cases hp
    rw [lastHash, List.getLast?_concat]
    rfl

theorem lastHash_plain (h : Intact sha ts) : Plain (lastHash ts) := by
  induction ts using List.reverseRecOn with
  | nil => exact fun c hc => by cases hc
  | append_singleton ts t _ =>
    have ht : t ∈ ts ++ [t] := List.mem_append_right _ List.mem_cons_self
    obtain ⟨d, hd⟩ := Option.isSome_iff_exists.mp (h.hashed t ht)
    rw [lastHash, List.getLast?_concat, Option.bind_some, hd]
    exact h.plain t ht d hd

theorem Intact.appendTurn (h : Intact sha ts) (role : Str) (action : TurnAction)
    (inputRef outputRef provider : Option Str) :
    Intact sha (Intent.appendTurn sha ts role action inputRef outputRef provider) := by
  rw [Intent.appendTurn]
  refine ⟨fun t ht => ?_, ?_⟩
  · rcases List.mem_append.mp ht with ht | ht
    · exact h.hashed t ht
    · rw [List.mem_singleton.mp ht]
      rfl
  · rw [List.map_append]
    refine h.chained.snoc (fun p hp => ?_)
    have hplain := lastHash_plain h
    rw [← lastHash_digest h.hashed hp, Option.getD_some, turnContentHash_eq,
      normalizeString_plain hplain]

theorem intact_nil (sha : Sha256) : Intact sha [] := ⟨fun t ht => (by cases ht), trivial⟩

end verify

section built

variable {Source : Type} {sha : Sha256} {w : World Source} {s s' : Session} {op : Op Source}

def Recorded (sha : Sha256) (s : Session) : Prop :=
  ∀ c ∈ s.clarifications, c.recordHash = bodyHash sha c.payload ∧
    some c.clarId ∈ clarTurnRefs s.turns

structure Sound (sha : Sha256) (s : Session) : Prop where
  intact : Intact sha s.turns
  recorded : Recorded sha s

theorem clarTurnRefs_append (ts : List Turn) (t : Turn) {r : Option Str}
    (h : r ∈ clarTurnRefs ts) : r ∈ clarTurnRefs (ts ++ [t]) := by
  rw [clarTurnRefs, List.filter_append, List.map_append]
  exact List.mem_append_left _ h

theorem Sound.same_clarifications (h : Sound sha s) (hc : s'.clarifications = s.clarifications)
    {role : Str} {action : TurnAction} {inputRef outputRef provider : Option Str}
    (ht : s'.turns = appendTurn sha s.turns role action inputRef outputRef provider) :
    Sound sha s' := by
  refine ⟨ht ▸ h.intact.appendTurn .., fun c hm => ?_⟩
  rw [hc] at hm
  obtain ⟨hhash, hlinked⟩ := h.recorded c hm
  rw [ht]
  exact ⟨hhash, clarTurnRefs_append _ _ hlinked⟩

theorem Sound.clarify (h : Sound sha s) (a : ClarifyArgs) :
    Recorded sha { s with
      clarifications := s.clarifications ++ [newClarification sha s a]
      turns := appendTurn sha s.turns a.role .clarify a.warningRef
        (some (newClarification sha s a).clarId) none } := by
  intro c hc
  rcases List.mem_append.mp hc with hc | hc
  · obtain ⟨hhash, hlinked⟩ := h.recorded c hc
    exact ⟨hhash, clarTurnRefs_append _ _ hlinked⟩
  · rw [List.mem_singleton.mp hc]
    refine ⟨rfl, ?_⟩
    rw [appendTurn, clarTurnRefs, List.filter_append, List.map_append]
    exact List.mem_append_right _ (by simp)

theorem Accepted.sound (h : Accepted sha w s op s') (hs : Sound sha s) : Sound sha s' := by
  cases h with
  | advance _ _ _ _ _ h =>
    obtain ⟨note, ht⟩ := h.turns
    exact hs.same_clarifications h.clarifications ht
  | revert _ _ _ _ _ => exact hs.same_clarifications rfl rfl
  | clarify a _ => exact ⟨hs.intact.appendTurn .., hs.clarify a⟩
  | embedCompleteness _ _ _ => exact ⟨hs.intact, hs.recorded⟩
  | sealSession _ _ _ _ _ _ _ h =>
    obtain ⟨note, ht⟩ := h.turns
    exact hs.same_clarifications h.clarifications ht

theorem run_sound (sha : Sha256) {s : Session} (hs : Sound sha s)
    (es : List (World Source × Op Source)) : Sound sha (run sha s es) := by
  induction es using List.reverseRecOn with
  | nil => exact hs
  | append_singleton es e ih =>
    rw [run_snoc]
    rcases call_cases sha (run sha s es) e with h | h
    · rw [h]
      exact ih
    · exact h.sound ih

theorem newSession_sound (sha : Sha256) (id root : Str) : Sound sha (newSession id root) :=
  ⟨intact_nil sha, fun c hc => by cases hc⟩

theorem Recorded.verify (h : Recorded sha s) : verifyClarifications sha s = [] := by
  rw [verifyClarifications, List.flatten_eq_nil_iff]
  intro l hl
  obtain ⟨i, hi, rfl⟩ := List.mem_mapIdx.mp hl
  obtain ⟨hhash, hlinked⟩ := h _ (List.getElem_mem hi)
  rw [clarIssues, if_neg (not_not.mpr hhash), if_neg (not_not.mpr hlinked)]
  rfl

end built

section tampering

variable {sha : Sha256} {ts us : List Turn}

theorem Intact.verify_iff (hinj : Function.Injective sha.hexdigest) (h : Intact sha ts)
    (hus : ∀ u ∈ us, ∃ t ∈ ts, u.turnHash = t.turnHash) :
    verifyJournal sha us = [] ↔ us.map Turn.entry <+: ts.map Turn.entry := by
  have hplain : ∀ u ∈ us, ∀ d, u.turnHash = some d → Plain d := by
    intro u hu d hd
    obtain ⟨t, ht, he⟩ := hus u hu
    exact h.plain t ht d (he ▸ hd)
  have hhashed : ∀ u ∈ us, u.turnHash.isSome = true := by
    intro u hu
    obtain ⟨t, ht, he⟩ := hus u hu
    rw [he]
    exact h.hashed t ht
  have hmem : ∀ f ∈ us.map Turn.entry, f.2 ∈ (ts.map Turn.entry).map Prod.snd := by
    intro f hf
    obtain ⟨u, hu, rfl⟩ := List.mem_map.mp hf
    obtain ⟨t, ht, he⟩ := hus u hu
    refine List.mem_map.mpr ⟨t.entry, List.mem_map_of_mem ht, ?_⟩
    rw [Turn.entry, Turn.entry, he]
  rw [verifyJournal, verifyFrom_nil us 0 _ (fun c hc => by cases hc) hplain,
    ← h.chained.iff_prefix (commit_binding hinj) hmem]
  exact ⟨fun hv => hv.2, fun hv => ⟨hhashed, hv⟩⟩

theorem Intact.entry_inj (hinj : Function.Injective sha.hexdigest) (h : Intact sha ts) :
    ∀ t ∈ ts, ∀ u ∈ ts, t.entry = u.entry → t = u := by
  have hnodup := h.chained.nodup (commit_binding hinj)
  rw [List.map_map] at hnodup
  exact fun t ht u hu he => List.inj_on_of_nodup_map hnodup ht hu (congrArg Prod.snd he)

theorem prefix_of_map {α β : Type} {f : α → β} {l m : List α}
    (hf : ∀ a ∈ m, ∀ b ∈ m, f a = f b → a = b) (hl : ∀ a ∈ l, a ∈ m)
    (h : l.map f <+: m.map f) : l <+: m := by
  refine List.prefix_iff_getElem?.mpr (fun i hi => ?_)
  have hi' : i < (l.map f).length := by rw [List.length_map]; exact hi
  have hget := List.prefix_iff_getElem?.mp h i hi'
  rw [List.getElem?_map, List.getElem_map] at hget
  obtain ⟨b, hb, hfb⟩ := Option.map_eq_some_iff.mp hget
  rw [hb, hf _ (List.mem_of_getElem? hb) _ (hl _ (List.getElem_mem hi)) hfb]

theorem Intact.verify_members (hinj : Function.Injective sha.hexdigest) (h : Intact sha ts)
    (hus : ∀ u ∈ us, u ∈ ts) : verifyJournal sha us = [] ↔ us <+: ts := by
  rw [h.verify_iff hinj (fun u hu => ⟨u, hus u hu, rfl⟩)]
  exact ⟨prefix_of_map (h.entry_inj hinj) hus, fun hp => hp.map _⟩

theorem Intact.verify_changed (hinj : Function.Injective sha.hexdigest) (h : Intact sha ts)
    (hus : us.map Turn.turnHash = ts.map Turn.turnHash) :
    verifyJournal sha us = [] ↔
      us.map (fun t => t.toTurnContent.normalized) =
        ts.map (fun t => t.toTurnContent.normalized) := by
  have hmem : ∀ u ∈ us, ∃ t ∈ ts, u.turnHash = t.turnHash := by
    intro u hu
    have hu' : u.turnHash ∈ ts.map Turn.turnHash := hus ▸ List.mem_map_of_mem hu
    obtain ⟨t, ht, he⟩ := List.mem_map.mp hu'
    exact ⟨t, ht, he.symm⟩
  have hlen : us.length = ts.length := by simpa using congrArg List.length hus
  have hcontent : ∀ l : List Turn, l.map (fun t => t.toTurnContent.normalized) =
      (l.map Turn.entry).map Prod.fst := fun l => by rw [List.map_map]; rfl
  rw [h.verify_iff hinj hmem]
  constructor
  · intro hp
    rw [hcontent, hcontent, hp.eq_of_length (by simpa using hlen)]
  · intro he
    have hentry : us.map Turn.entry = ts.map Turn.entry := by
      refine List.ext_getElem? (fun i => ?_)
      have hc := congrArg (fun l => l[i]?) he
      have hh := congrArg (fun l => l[i]?) hus
      simp only [List.getElem?_map] at hc hh ⊢
      cases hu : us[i]? with
      | none =>
        rw [hu] at hc
        cases ht : ts[i]? with
        | none => rfl
        | some t => rw [ht] at hc; cases hc
      | some u =>
        rw [hu] at hc hh
        cases ht : ts[i]? with
        | none => rw [ht] at hc; cases hc
        | some t =>
          rw [ht] at hc hh
          simp only [Option.map_some, Option.some.injEq] at hc hh ⊢
          rw [Turn.entry, Turn.entry, hc, hh]
    rw [hentry]

variable {Source : Type}

theorem journal_tamper_evident (hinj : Function.Injective sha.hexdigest) (id root : Str)
    (es : List (World Source × Op Source)) :
    let s := run sha (newSession id root) es
    verifyJournal sha s.turns = [] ∧ verifyClarifications sha s = [] ∧
    (∀ us : List Turn, us.map Turn.turnHash = s.turns.map Turn.turnHash →
      (verifyJournal sha us ≠ [] ↔ us.map (fun t => t.toTurnContent.normalized) ≠
        s.turns.map (fun t => t.toTurnContent.normalized))) ∧
    (∀ us : List Turn, us.Perm s.turns → us ≠ s.turns → verifyJournal sha us ≠ []) ∧
    ∀ us : List Turn, us.Sublist s.turns → (verifyJournal sha us ≠ [] ↔ ¬us <+: s.turns) := by
  intro s
  have hs : Sound sha s := run_sound sha (newSession_sound sha id root) es
  refine ⟨hs.intact.verify, hs.recorded.verify, fun us hus => ?_, fun us hperm hne hv => ?_,
    fun us hsub => ?_⟩
  · exact not_congr (hs.intact.verify_changed hinj hus)
  · have hsame := (hs.intact.verify_members hinj (fun u hu => hperm.mem_iff.mp hu)).mp hv
    exact hne (hsame.eq_of_length hperm.length_eq)
  · exact not_congr (hs.intact.verify_members hinj (fun u hu => hsub.subset hu))

end tampering

def demoTurn : TurnContent :=
  { seq := 0, role := human, action := "check_5w1h".toList, outputRef := some "n".toList }

def demoNext : TurnContent := { seq := 1, role := human, action := "propose".toList }

def demoHash : Str := "d828db552da8f0f3c7ed4e6ee84cf9a75f2856ad722a0ac6c7f6c7b19b770e7a".toList

def demoNextHash : Str :=
  "b61fa7c1914833d0ae78df5a1466036e36205cf11c7db86e4ff5a81e85441e73".toList

def demoTable : List (Str × Str) :=
  [(canonicalStyle.render (.obj (sealedFields demoTurn genesisPrevHash)), demoHash),
    (canonicalStyle.render (.obj (sealedFields demoNext demoHash)), demoNextHash)]

theorem demoTable_digests : demoTable.all (fun e => isDigest e.2) = true := by decide +kernel

def demoSha : Sha256 := .ofTable demoTable demoTable_digests

theorem demoSha_injective : Function.Injective demoSha.hexdigest :=
  tableDigest_injective demoTable_digests (by decide +kernel)

def demoRun : List (World Unit × Op Unit) :=
  [(noFiles, .advance {} human none (some "n".toList)), (noFiles, .advance {} human none none)]

def demoSession : Session := run demoSha (newSession "s".toList "i".toList) demoRun

theorem demoSession_turns :
    demoSession.turns = [⟨demoTurn, some demoHash⟩, ⟨demoNext, some demoNextHash⟩] := by
  decide +kernel

def blankTurn : TurnContent := { demoTurn with outputRef := some " n".toList }

theorem tampering_accepted :
    Function.Injective demoSha.hexdigest ∧
    verifyJournal demoSha (demoSession.turns.take 1) = [] ∧ demoSession.turns.length = 2 ∧
    verifyJournal demoSha [⟨blankTurn, some demoHash⟩, ⟨demoNext, some demoNextHash⟩] = [] ∧
    blankTurn ≠ demoTurn :=
  ⟨demoSha_injective, by decide +kernel, by decide +kernel, by decide +kernel, by decide⟩

theorem journal_tamper_evident_demo :
    verifyJournal demoSha demoSession.turns = [] ∧
      verifyJournal demoSha demoSession.turns.reverse ≠ [] := by
  have h := journal_tamper_evident demoSha_injective "s".toList "i".toList demoRun
  refine ⟨h.1, h.2.2.2.1 _ (List.reverse_perm _) ?_⟩
  change demoSession.turns.reverse ≠ demoSession.turns
  rw [demoSession_turns]
  decide

end TraceMind.Intent
