import TraceMind.Patch.Store
import TraceMind.Foundation.Fallible

namespace TraceMind.Patch

open Python

namespace Env

section places

variable (env : Env)

def isHex (c : Char) : Bool := decide (c ∈ "0123456789abcdef".toList)

theorem hexDigit_isHex : ∀ d : Fin 16, isHex (hexDigit d) = true := by decide

theorem proposalId_hex (d : Draft) (changes : List (List (Str × Json))) :
    (env.proposalId d changes).all isHex = true := by
  rw [List.all_eq_true]
  intro c hc
  obtain ⟨x, -, rfl⟩ := List.mem_map.mp (List.mem_of_mem_take hc)
  exact hexDigit_isHex x

theorem count_dot_hex {id : Str} (h : id.all isHex = true) : id.count '.' = 0 := by
  refine List.count_eq_zero.mpr (fun hm => ?_)
  have hdot := List.all_eq_true.mp h '.' hm
  revert hdot
  decide

theorem proposalPath_ne_index {id : Str} (h : id.all isHex = true) :
    env.proposalPath id ≠ env.indexPath := by
  intro he
  have hname : id ++ ".json".toList = "index".toList ++ ".json".toList := congrArg Location.name he
  rw [List.append_cancel_right hname] at h
  revert h
  decide

theorem proposalPath_inj {a b : Str} : env.proposalPath a = env.proposalPath b ↔ a = b :=
  ⟨fun h => List.append_cancel_right (congrArg Location.name h), congrArg _⟩

theorem count_dot_destName (stem version id : Str) : 3 ≤ (destName stem version id).count '.' := by
  have hv : ".v".toList.count '.' = 1 := by decide
  have hj : ".json".toList.count '.' = 1 := by decide
  simp only [destName, List.count_append, List.count_cons_self, hv, hj]
  omega

theorem destPath_ne_proposal {id' : Str} (p : Proposal) (out : Option Str) (version id : Str)
    (h : id'.all isHex = true) : env.destPath p out version id ≠ env.proposalPath id' := by
  intro he
  have hname : destName (env.stem p.targetRef) version id = id' ++ ".json".toList :=
    congrArg Location.name he
  have hcount := count_dot_destName (env.stem p.targetRef) version id
  rw [hname, List.count_append, count_dot_hex h] at hcount
  revert hcount
  decide

theorem destPath_ne_index (p : Proposal) (out : Option Str) (version id : Str) :
    env.destPath p out version id ≠ env.indexPath := by
  intro he
  have hname : destName (env.stem p.targetRef) version id = "index.json".toList :=
    congrArg Location.name he
  have hcount := count_dot_destName (env.stem p.targetRef) version id
  rw [hname] at hcount
  revert hcount
  decide

end places

end Env

section consistent

structure Consistent (env : Env) (s : PatchStore) : Prop where
  saved : s.files env.indexPath = some (.index s.index)
  hex : ∀ id e, s.index.proposals id = some e → id.all Env.isHex = true
  filed : ∀ id e, s.index.proposals id = some e → e.path = env.proposalPath id ∧
    ∃ p, s.files e.path = some (.proposal p) ∧ p.proposalId = id ∧ p.status = e.status ∧
      p.targetRef = e.targetRef
  nodup : (s.index.applied.map AppliedRecord.proposalId).Nodup
  only : ∀ r ∈ s.index.applied, ∃ e, s.index.proposals r.proposalId = some e ∧ e.status = .applied

variable {env : Env} {s s' : PatchStore}

theorem fresh_consistent (env : Env) (files : Location → Option Content) :
    Consistent env (env.fresh files) :=
  ⟨Function.update_self .., fun _ _ h => (by cases h), fun _ _ h => (by cases h), List.nodup_nil,
    fun _ h => (by cases h)⟩

theorem write_files_ne {l l' : Location} {c : Content} (h : l' ≠ l) :
    (s.write l c).files l' = s.files l' := Function.update_of_ne h _ _

theorem Consistent.write (h : Consistent env s) {l : Location} (c : Content)
    (hindex : env.indexPath ≠ l)
    (hfile : ∀ id e, s.index.proposals id = some e → env.proposalPath id ≠ l) :
    Consistent env (s.write l c) := by
  refine ⟨(write_files_ne hindex).trans h.saved, h.hex, fun id e he => ?_, h.nodup, h.only⟩
  obtain ⟨hpath, p, hp, hrest⟩ := h.filed id e he
  refine ⟨hpath, p, ?_, hrest⟩
  rw [write_files_ne (hpath ▸ hfile id e he)]
  exact hp

theorem Consistent.unregistered (h : Consistent env s) {id : Str}
    (hnew : s.files (env.proposalPath id) = none) : s.index.proposals id = none := by
  cases he : s.index.proposals id with
  | none => rfl
  | some e =>
    obtain ⟨hpath, p, hp, -⟩ := h.filed id e he
    rw [hpath, hnew] at hp
    cases hp

theorem Consistent.file_ne_index (h : Consistent env s) {id : Str} {e : IndexEntry}
    (he : s.index.proposals id = some e) : env.proposalPath id ≠ env.indexPath :=
  env.proposalPath_ne_index (h.hex id e he)

def PatchStore.put (env : Env) (s : PatchStore) (p : Proposal) (e : IndexEntry)
    (applied : List AppliedRecord) : PatchStore :=
  env.saveIndex
    { files := Function.update s.files (env.proposalPath p.proposalId) (some (.proposal p))
      index := ⟨Function.update s.index.proposals p.proposalId (some e), applied⟩ }

theorem put_proposals_self (p : Proposal) (e : IndexEntry) (applied : List AppliedRecord) :
    (s.put env p e applied).index.proposals p.proposalId = some e := Function.update_self ..

theorem put_proposals_ne {id : Str} (p : Proposal) (e : IndexEntry) (applied : List AppliedRecord)
    (h : id ≠ p.proposalId) :
    (s.put env p e applied).index.proposals id = s.index.proposals id :=
  Function.update_of_ne h _ _

theorem put_files_self {p : Proposal} (e : IndexEntry) (applied : List AppliedRecord)
    (h : p.proposalId.all Env.isHex = true) :
    (s.put env p e applied).files (env.proposalPath p.proposalId) = some (.proposal p) := by
  rw [PatchStore.put, Env.saveIndex, write_files_ne (env.proposalPath_ne_index h)]
  exact Function.update_self ..

theorem put_files_ne {l : Location} (p : Proposal) (e : IndexEntry) (applied : List AppliedRecord)
    (hl : l ≠ env.proposalPath p.proposalId) (hi : l ≠ env.indexPath) :
    (s.put env p e applied).files l = s.files l := by
  rw [PatchStore.put, Env.saveIndex, write_files_ne hi]
  exact Function.update_of_ne hl _ _

theorem put_files_index (p : Proposal) (e : IndexEntry) (applied : List AppliedRecord) :
    (s.put env p e applied).files env.indexPath = some (.index (s.put env p e applied).index) :=
  Function.update_self ..

theorem Consistent.put (h : Consistent env s) {p : Proposal} {e : IndexEntry}
    {applied : List AppliedRecord} (hhex : p.proposalId.all Env.isHex = true)
    (hpath : e.path = env.proposalPath p.proposalId) (hstatus : p.status = e.status)
    (htarget : p.targetRef = e.targetRef)
    (hnodup : (applied.map AppliedRecord.proposalId).Nodup)
    (honly : ∀ r ∈ applied, (r.proposalId = p.proposalId ∧ e.status = .applied) ∨
      (r.proposalId ≠ p.proposalId ∧ r ∈ s.index.applied)) :
    Consistent env (s.put env p e applied) := by
  refine ⟨put_files_index p e applied, fun id e' he => ?_, fun id e' he => ?_, hnodup,
    fun r hr => ?_⟩
  · by_cases hid : id = p.proposalId
    · rw [hid]
      exact hhex
    · rw [put_proposals_ne p e applied hid] at he
      exact h.hex id e' he
  · by_cases hid : id = p.proposalId
    · rw [hid, put_proposals_self] at he
      cases he
      rw [hid, hpath]
      exact ⟨rfl, p, put_files_self e applied hhex, rfl, hstatus, htarget⟩
    · rw [put_proposals_ne p e applied hid] at he
      obtain ⟨hpath', q, hq, hrest⟩ := h.filed id e' he
      refine ⟨hpath', q, ?_, hrest⟩
      rw [put_files_ne p e applied _ (hpath' ▸ h.file_ne_index he)]
      · exact hq
      · rw [hpath']
        exact fun hne => hid (env.proposalPath_inj.mp hne)
  · rcases honly r hr with ⟨hid, hst⟩ | ⟨hid, hold⟩
    · exact ⟨e, hid ▸ put_proposals_self p e applied, hst⟩
    · obtain ⟨e', he', hst⟩ := h.only r hold
      exact ⟨e', (put_proposals_ne p e applied hid).trans he', hst⟩

end consistent

section moves

def Status.next : Status → Option Status
  | .draft => some .submitted
  | .submitted => some .approved
  | .approved => some .applied
  | .applied => none

def PatchStore.status (s : PatchStore) (id : Str) : Option Status :=
  (s.index.proposals id).map IndexEntry.status

def Moves (s s' : PatchStore) : Prop :=
  ∀ id, s'.status id = s.status id ∨ (s.status id = none ∧ s'.status id = some .draft) ∨
    ∃ st, s.status id = some st ∧ s'.status id = st.next

def TargetsKept (env : Env) (s s' : PatchStore) : Prop :=
  ∀ id e, s'.index.proposals id = some e →
    s'.files (env.locate e.targetRef) = s.files (env.locate e.targetRef)

def Untargeted (env : Env) (s : PatchStore) (l : Location) : Prop :=
  ∀ id e, s.index.proposals id = some e → env.locate e.targetRef ≠ l

variable {env : Env} {s s' : PatchStore}

theorem Moves.refl (s : PatchStore) : Moves s s := fun _ => Or.inl rfl

theorem put_status_self (p : Proposal) (e : IndexEntry) (applied : List AppliedRecord) :
    (s.put env p e applied).status p.proposalId = some e.status := by
  rw [PatchStore.status, put_proposals_self]
  rfl

theorem put_status_ne {id : Str} (p : Proposal) (e : IndexEntry) (applied : List AppliedRecord)
    (h : id ≠ p.proposalId) : (s.put env p e applied).status id = s.status id := by
  rw [PatchStore.status, put_proposals_ne p e applied h]
  rfl

theorem put_moves {p : Proposal} {e : IndexEntry} {applied : List AppliedRecord}
    (h : (s.status p.proposalId = none ∧ e.status = .draft) ∨
      ∃ st, s.status p.proposalId = some st ∧ some e.status = st.next) :
    Moves s (s.put env p e applied) := by
  intro id
  by_cases hid : id = p.proposalId
  · rw [hid, put_status_self]
    rcases h with ⟨hnone, hdraft⟩ | ⟨st, hst, hnext⟩
    · exact Or.inr (Or.inl ⟨hnone, congrArg some hdraft⟩)
    · exact Or.inr (Or.inr ⟨st, hst, hnext⟩)
  · exact Or.inl (put_status_ne p e applied hid)

theorem put_targets {p : Proposal} {e : IndexEntry} {applied : List AppliedRecord}
    (hold : ∀ e₀, s.index.proposals p.proposalId = some e₀ → e₀.targetRef = e.targetRef)
    (P : Location → Prop) :
    (∀ id e', (s.put env p e applied).index.proposals id = some e' → P (env.locate e'.targetRef)) ↔
      (∀ id e', s.index.proposals id = some e' → P (env.locate e'.targetRef)) ∧
        P (env.locate e.targetRef) := by
  constructor
  · intro h
    have hself := h _ e (put_proposals_self p e applied)
    refine ⟨fun id e' he => ?_, hself⟩
    by_cases hid : id = p.proposalId
    · rw [hold e' (hid ▸ he)]
      exact hself
    · exact h id e' ((put_proposals_ne p e applied hid).trans he)
  · rintro ⟨h, hself⟩ id e' he
    by_cases hid : id = p.proposalId
    · rw [hid, put_proposals_self] at he
      cases he
      exact hself
    · exact h id e' ((put_proposals_ne p e applied hid).symm.trans he)

theorem put_files_iff {p : Proposal} {e : IndexEntry} {applied : List AppliedRecord}
    (h : Consistent env s) (hhex : p.proposalId.all Env.isHex = true)
    (hfile : s.files (env.proposalPath p.proposalId) ≠ some (.proposal p))
    (hentry : s.index.proposals p.proposalId ≠ some e) (l : Location) :
    (s.put env p e applied).files l = s.files l ↔
      l ≠ env.proposalPath p.proposalId ∧ l ≠ env.indexPath := by
  constructor
  · refine fun hl => ⟨?_, ?_⟩
    · rintro rfl
      rw [put_files_self e applied hhex] at hl
      exact hfile hl.symm
    · rintro rfl
      rw [put_files_index, h.saved] at hl
      have hindex := congrArg Index.proposals (Content.index.inj (Option.some.inj hl))
      exact hentry ((congrFun hindex p.proposalId).symm.trans (put_proposals_self p e applied))
  · rintro ⟨hl, hi⟩
    exact put_files_ne p e applied hl hi

end moves

section steps

variable {env : Env} {s s' : PatchStore}

structure StepSpec (env : Env) (s : PatchStore) (r : Except PatchError Unit × PatchStore)
    (safe : Prop) : Prop where
  consistent : Consistent env r.2
  moves : Moves s r.2
  safe_iff : (TargetsKept env s r.2 ∧ ∀ e, r.1 = .error e → r.2 = s) ↔ safe

theorem StepSpec.same (h : Consistent env s) (x : Except PatchError Unit) :
    StepSpec env s (x, s) True :=
  ⟨h, .refl s, ⟨fun _ => trivial, fun _ => ⟨fun _ _ _ => rfl, fun _ _ => rfl⟩⟩⟩

theorem StepSpec.broken (h : Consistent env s) (x : PatchError) {l : Location}
    (hindex : env.indexPath ≠ l)
    (hfile : ∀ id e, s.index.proposals id = some e → env.proposalPath id ≠ l) :
    StepSpec env s (.error x, s.write l .broken) (s.files l = some .broken) := by
  refine ⟨h.write _ hindex hfile, .refl s, ⟨fun hsafe => ?_, fun hsame => ?_⟩⟩
  · have hfiles := congrFun (congrArg PatchStore.files (hsafe.2 x rfl)) l
    exact hfiles.symm.trans (Function.update_self ..)
  · have heq : s.write l .broken = s := by
      rw [PatchStore.write, ← hsame, Function.update_eq_self]
    rw [heq]
    exact ⟨fun _ _ _ => rfl, fun _ _ => rfl⟩

theorem ensureProposal_found (h : Consistent env s) {id : Str} {r : Proposal × Location}
    (hr : Env.ensureProposal s id = .ok r) :
    ∃ e, s.index.proposals id = some e ∧ r.2 = env.proposalPath id ∧
      s.files (env.proposalPath id) = some (.proposal r.1) ∧ r.1.proposalId = id ∧
      r.1.status = e.status ∧ r.1.targetRef = e.targetRef := by
  rw [Env.ensureProposal] at hr
  cases he : s.index.proposals id with
  | none =>
    rw [he] at hr
    cases hr
  | some e =>
    obtain ⟨hpath, p, hp, hid, hst, href⟩ := h.filed id e he
    simp only [he, hp] at hr
    cases hr
    exact ⟨e, rfl, hpath, hpath ▸ hp, hid, hst, href⟩

def IndexEntry.refreshed (e : IndexEntry) (p : Proposal) : IndexEntry :=
  { e with
    status := p.status, targetArtifactType := p.targetArtifactType, targetRef := p.targetRef
    appliedAt := p.appliedAt.or e.appliedAt }

theorem writeProposal_eq {p : Proposal} {e : IndexEntry}
    (he : s.index.proposals p.proposalId = some e) :
    env.writeProposal p (env.proposalPath p.proposalId) s =
      (.ok (), s.put env p (e.refreshed p) s.index.applied) := by
  have hwritten : (s.write (env.proposalPath p.proposalId) (.proposal p)).index.proposals
      p.proposalId = some e := he
  rw [Env.writeProposal, Env.updateIndexEntry, hwritten]
  rfl

theorem Consistent.not_applied (h : Consistent env s) {id : Str} {e : IndexEntry}
    (he : s.index.proposals id = some e) (hne : e.status ≠ .applied) :
    ∀ r ∈ s.index.applied, r.proposalId ≠ id := by
  rintro r hr rfl
  obtain ⟨e', he', hst⟩ := h.only r hr
  rw [he] at he'
  cases he'
  exact hne hst

theorem Status.ne_next {st st' : Status} (h : st.next = some st') : st ≠ st' := by
  rintro rfl
  cases st <;> cases h

structure Advance (env : Env) (s : PatchStore) (p : Proposal) (e : IndexEntry) : Prop where
  consistent : Consistent env s
  entry : s.index.proposals p.proposalId = some e
  next : e.status.next = some p.status
  ref : p.targetRef = e.targetRef

namespace Advance

variable {p : Proposal} {e : IndexEntry}

theorem hex (h : Advance env s p e) : p.proposalId.all Env.isHex = true :=
  h.consistent.hex _ e h.entry

theorem pending (h : Advance env s p e) : ∀ r ∈ s.index.applied, r.proposalId ≠ p.proposalId :=
  h.consistent.not_applied h.entry (fun hst => by
    have hnext := h.next
    rw [hst] at hnext
    cases hnext)

theorem moves (h : Advance env s p e) (applied : List AppliedRecord) :
    Moves s (s.put env p (e.refreshed p) applied) := by
  refine put_moves (Or.inr ⟨e.status, ?_, h.next.symm⟩)
  rw [PatchStore.status, h.entry]
  rfl

theorem files_iff (h : Advance env s p e) (applied : List AppliedRecord) (l : Location) :
    (s.put env p (e.refreshed p) applied).files l = s.files l ↔
      l ≠ env.proposalPath p.proposalId ∧ l ≠ env.indexPath := by
  have hne := Status.ne_next h.next
  refine put_files_iff h.consistent h.hex (fun hfile => ?_) (fun hentry => ?_) l
  · obtain ⟨hpath, q, hq, -, hst, -⟩ := h.consistent.filed _ e h.entry
    rw [hpath, hfile] at hq
    exact hne (hst.symm.trans (congrArg Proposal.status
      (Content.proposal.inj (Option.some.inj hq)).symm))
  · rw [h.entry] at hentry
    exact hne (congrArg IndexEntry.status (Option.some.inj hentry))

theorem targets (h : Advance env s p e) (applied : List AppliedRecord) (P : Location → Prop) :
    (∀ id e', (s.put env p (e.refreshed p) applied).index.proposals id = some e' →
      P (env.locate e'.targetRef)) ↔
      ∀ id e', s.index.proposals id = some e' → P (env.locate e'.targetRef) := by
  rw [put_targets (fun e₀ he₀ => ?_) P]
  · refine and_iff_left_of_imp (fun hall => ?_)
    show P (env.locate p.targetRef)
    rw [h.ref]
    exact hall _ e h.entry
  · rw [h.entry] at he₀
    cases he₀
    exact h.ref.symm

theorem write (h : Advance env s p e) {l : Location} (c : Content) (hindex : env.indexPath ≠ l)
    (hfile : ∀ id e, s.index.proposals id = some e → env.proposalPath id ≠ l) :
    Advance env (s.write l c) p e :=
  ⟨h.consistent.write c hindex hfile, h.entry, h.next, h.ref⟩

theorem put (h : Advance env s p e) {applied : List AppliedRecord}
    (hnodup : (applied.map AppliedRecord.proposalId).Nodup)
    (honly : ∀ r ∈ applied, (r.proposalId = p.proposalId ∧ p.status = .applied) ∨
      r ∈ s.index.applied) :
    Consistent env (s.put env p (e.refreshed p) applied) := by
  refine h.consistent.put h.hex (h.consistent.filed _ e h.entry).1 rfl rfl hnodup
    (fun r hr => ?_)
  rcases honly r hr with hnew | hold
  · exact Or.inl hnew
  · exact Or.inr ⟨h.pending r hold, hold⟩

end Advance

theorem StepSpec.advance {p : Proposal} {e : IndexEntry} (h : Advance env s p e) :
    StepSpec env s (env.writeProposal p (env.proposalPath p.proposalId) s)
      (Untargeted env s (env.proposalPath p.proposalId) ∧ Untargeted env s env.indexPath) := by
  rw [writeProposal_eq h.entry]
  refine ⟨h.put h.consistent.nodup (fun r hr => Or.inr hr), h.moves _, ?_⟩
  have hkept : TargetsKept env s (s.put env p (e.refreshed p) s.index.applied) ↔
      ∀ id e', s.index.proposals id = some e' →
        env.locate e'.targetRef ≠ env.proposalPath p.proposalId ∧
          env.locate e'.targetRef ≠ env.indexPath := by
    rw [← h.targets s.index.applied (fun l => l ≠ env.proposalPath p.proposalId ∧ l ≠ env.indexPath)]
    exact forall₃_congr (fun id e' _ => h.files_iff _ _)
  rw [hkept]
  constructor
  · rintro ⟨hall, -⟩
    exact ⟨fun id e' he => (hall id e' he).1, fun id e' he => (hall id e' he).2⟩
  · rintro ⟨hfile, hindex⟩
    exact ⟨fun id e' he => ⟨hfile id e' he, hindex id e' he⟩, fun x hx => by cases hx⟩

theorem checkDraft_ok {d : Draft} {changes : List (List (Str × Json))}
    (h : env.checkDraft s d = .ok changes) :
    s.files (env.proposalPath (env.proposalId d changes)) = none := by
  rw [Env.checkDraft] at h
  cases hm : d.changes.mapM toJsonFields with
  | none =>
    rw [hm] at h
    cases h
  | some cs =>
    simp only [hm] at h
    split_ifs at h with hsome
    cases h
    exact Option.not_isSome_iff_eq_none.mp hsome

theorem checkSubmit_ok {id : Str} {r : Proposal × Location} (h : env.checkSubmit s id = .ok r) :
    Env.ensureProposal s id = .ok r ∧ r.1.status = .draft := by
  obtain ⟨q, hq, h⟩ := Fallible.bind_eq_ok.mp h
  split_ifs at h with hst
  split at h
  · cases h
  · split at h
    · cases h
    · split at h
      · cases h
      · split at h
        · cases h
        · cases h
          exact ⟨hq, not_not.mp hst⟩

theorem checkApprove_ok {id : Str} {r : Proposal × Location} (h : Env.checkApprove s id = .ok r) :
    Env.ensureProposal s id = .ok r ∧ r.1.status = .submitted := by
  obtain ⟨q, hq, h⟩ := Fallible.bind_eq_ok.mp h
  split_ifs at h with hst
  cases h
  exact ⟨hq, not_not.mp hst⟩

theorem checkApply_ok {id : Str} {out : Option Str} {a : Env.Application}
    (h : env.checkApply s id out = .ok a) :
    Env.ensureProposal s id = .ok (a.proposal, a.path) ∧ a.proposal.status = .approved ∧
      ∃ version, a.dest = env.destPath a.proposal out version id := by
  obtain ⟨q, hq, h⟩ := Fallible.bind_eq_ok.mp h
  split_ifs at h with hst _
  split at h
  · cases h
  · split at h
    · cases h
    · split at h
      · cases h
      · obtain ⟨u, -, h⟩ := Fallible.bind_eq_ok.mp h
        split at h
        · cases h
        · cases h
          exact ⟨hq, not_not.mp hst, u.1, rfl⟩

def UntargetedBy (env : Env) (s : PatchStore) (d : Draft) (l : Location) : Prop :=
  Untargeted env s l ∧ env.locate d.targetRef ≠ l

def Safe (env : Env) (s : PatchStore) : Env.Op → Prop
  | .createDraft d _ => ∀ changes, env.checkDraft s d = .ok changes →
      (toJsonFields d.metadata).isSome = true ∧
        UntargetedBy env s d (env.proposalPath (env.proposalId d changes)) ∧
        UntargetedBy env s d env.indexPath
  | .submitProposal id _ => ∀ r, env.checkSubmit s id = .ok r →
      Untargeted env s r.2 ∧ Untargeted env s env.indexPath
  | .approveProposal id _ _ _ => ∀ r, Env.checkApprove s id = .ok r →
      Untargeted env s r.2 ∧ Untargeted env s env.indexPath
  | .applyProposal id out _ => ∀ a, env.checkApply s id out = .ok a →
      if (toJsonFields a.updated).isSome = true then
        Untargeted env s a.path ∧ Untargeted env s env.indexPath ∧
          (Untargeted env s a.dest ∨ s.files a.dest = some (.document a.updated))
      else s.files a.dest = some .broken
  | .reopen => True

theorem StepSpec.congr {r : Except PatchError Unit × PatchStore} {safe safe' : Prop}
    (h : StepSpec env s r safe) (hiff : safe ↔ safe') : StepSpec env s r safe' :=
  ⟨h.consistent, h.moves, h.safe_iff.trans hiff⟩

theorem createDraft_spec (h : Consistent env s) (d : Draft) (now : Str) :
    StepSpec env s (env.createDraft d now s) (Safe env s (.createDraft d now)) := by
  rw [Env.createDraft]
  cases hc : env.checkDraft s d with
  | error x => exact (StepSpec.same h (.error x)).congr (by simp [Safe, hc])
  | ok changes =>
    have hnew := checkDraft_ok hc
    have hhex := env.proposalId_hex d changes
    have hun := h.unregistered hnew
    cases hm : toJsonFields d.metadata with
    | none =>
      refine (StepSpec.broken h .typeError (env.proposalPath_ne_index hhex).symm
        (fun id e he hid => ?_)).congr ?_
      · rw [env.proposalPath_inj.mp hid, hun] at he
        cases he
      · simp [Safe, hc, hm, hnew]
    | some metadata =>
      have hput : Consistent env (s.put env (env.draftOf d now changes metadata)
          (Env.entryOf (env.draftOf d now changes metadata)
            (env.proposalPath (env.proposalId d changes))) s.index.applied) := by
        refine h.put hhex rfl rfl rfl h.nodup (fun r hr => Or.inr ⟨?_, hr⟩)
        rintro hid
        obtain ⟨e, he, -⟩ := h.only r hr
        rw [hid] at he
        cases hun.symm.trans he
      have hnone : ∀ e, s.index.proposals (env.proposalId d changes) ≠ some e := by
        rw [hun]
        exact fun e he => by cases he
      refine ⟨hput, put_moves (Or.inl ⟨?_, rfl⟩), ?_⟩
      · show s.status (env.proposalId d changes) = none
        rw [PatchStore.status, hun]
        rfl
      · have hkept : TargetsKept env s (s.put env (env.draftOf d now changes metadata)
            (Env.entryOf (env.draftOf d now changes metadata)
              (env.proposalPath (env.proposalId d changes))) s.index.applied) ↔
            (∀ id e', s.index.proposals id = some e' →
              env.locate e'.targetRef ≠ env.proposalPath (env.proposalId d changes) ∧
                env.locate e'.targetRef ≠ env.indexPath) ∧
              env.locate d.targetRef ≠ env.proposalPath (env.proposalId d changes) ∧
                env.locate d.targetRef ≠ env.indexPath := by
          refine Iff.trans (forall₃_congr (fun id e' _ => put_files_iff h hhex ?_ ?_ _))
            (put_targets (fun e₀ he₀ => absurd he₀ (hnone e₀))
              (fun l => l ≠ env.proposalPath (env.proposalId d changes) ∧ l ≠ env.indexPath))
          · show s.files (env.proposalPath (env.proposalId d changes)) ≠ _
            rw [hnew]
            exact fun he => by cases he
          · exact hnone _
        constructor
        · rintro ⟨hall, -⟩ cs hcs
          rw [hc] at hcs
          cases hcs
          obtain ⟨hold, hself⟩ := hkept.mp hall
          exact ⟨by rw [hm]; rfl, ⟨fun id e' he => (hold id e' he).1, hself.1⟩,
            ⟨fun id e' he => (hold id e' he).2, hself.2⟩⟩
        · intro hsafe
          obtain ⟨-, hfile, hindex⟩ := hsafe changes hc
          exact ⟨hkept.mpr ⟨fun id e' he => ⟨hfile.1 id e' he, hindex.1 id e' he⟩, hfile.2,
            hindex.2⟩, fun x hx => by cases hx⟩

theorem submitProposal_spec (h : Consistent env s) (id now : Str) :
    StepSpec env s (env.submitProposal id now s) (Safe env s (.submitProposal id now)) := by
  rw [Env.submitProposal]
  cases hc : env.checkSubmit s id with
  | error x => exact (StepSpec.same h (.error x)).congr (by simp [Safe, hc])
  | ok r =>
    obtain ⟨hr, hst⟩ := checkSubmit_ok hc
    obtain ⟨e, he, hpath, -, rfl, hstatus, href⟩ := ensureProposal_found h hr
    have hadv : Advance env s { r.1 with status := .submitted, submittedAt := some now } e :=
      ⟨h, he, by rw [← hstatus, hst]; rfl, href⟩
    have hspec := StepSpec.advance hadv
    rw [← hpath] at hspec
    exact hspec.congr (by simp [Safe, hc])

theorem approveProposal_spec (h : Consistent env s) (id actor reason now : Str) :
    StepSpec env s (env.approveProposal id actor reason now s)
      (Safe env s (.approveProposal id actor reason now)) := by
  rw [Env.approveProposal]
  cases hc : Env.checkApprove s id with
  | error x => exact (StepSpec.same h (.error x)).congr (by simp [Safe, hc])
  | ok r =>
    obtain ⟨hr, hst⟩ := checkApprove_ok hc
    obtain ⟨e, he, hpath, -, rfl, hstatus, href⟩ := ensureProposal_found h hr
    have hadv : Advance env s
        { r.1 with
          status := .approved, approvedAt := some now
          approvals := r.1.approvals ++ [⟨actor, reason, now⟩] } e :=
      ⟨h, he, by rw [← hstatus, hst]; rfl, href⟩
    have hspec := StepSpec.advance hadv
    rw [← hpath] at hspec
    exact hspec.congr (by simp [Safe, hc])

theorem StepSpec.advanceApplied {p : Proposal} {e : IndexEntry} {dest : Location} (doc : Doc)
    {r : AppliedRecord} (h : Advance env s p e) (hst : p.status = .applied)
    (hid : r.proposalId = p.proposalId) (hindex : env.indexPath ≠ dest)
    (hfile : ∀ id e, s.index.proposals id = some e → env.proposalPath id ≠ dest) :
    StepSpec env s
      (env.writeProposal p (env.proposalPath p.proposalId)
        ((s.write dest (.document doc)).addApplied r))
      (Untargeted env s (env.proposalPath p.proposalId) ∧ Untargeted env s env.indexPath ∧
        (Untargeted env s dest ∨ s.files dest = some (.document doc))) := by
  have hw := h.write (.document doc) hindex hfile
  have hentry : ((s.write dest (.document doc)).addApplied r).index.proposals p.proposalId =
      some e := h.entry
  rw [writeProposal_eq hentry]
  have hput : ((s.write dest (.document doc)).addApplied r).put env p (e.refreshed p)
      ((s.write dest (.document doc)).addApplied r).index.applied =
        (s.write dest (.document doc)).put env p (e.refreshed p) (s.index.applied ++ [r]) := rfl
  rw [hput]
  have hfiles : ∀ l, ((s.write dest (.document doc)).put env p (e.refreshed p)
      (s.index.applied ++ [r])).files l = s.files l ↔
        (l ≠ env.proposalPath p.proposalId ∧ l ≠ env.indexPath) ∧
          (l = dest → s.files dest = some (.document doc)) := by
    intro l
    have hiff := hw.files_iff (s.index.applied ++ [r]) l
    by_cases hl : l = dest
    · have hne : l ≠ env.proposalPath p.proposalId ∧ l ≠ env.indexPath :=
        ⟨fun he => hfile _ e h.entry (he.symm.trans hl), fun he => hindex (he.symm.trans hl)⟩
      rw [hiff.mpr hne, hl]
      rw [hl] at hne
      have hself : (s.write dest (.document doc)).files dest = some (.document doc) :=
        Function.update_self ..
      rw [hself]
      exact ⟨fun heq => ⟨hne, fun _ => heq.symm⟩, fun hboth => (hboth.2 rfl).symm⟩
    · rw [write_files_ne hl] at hiff
      exact hiff.trans ⟨fun hne => ⟨hne, fun he => absurd he hl⟩, fun hboth => hboth.1⟩
  refine ⟨hw.put ?_ (fun r' hr' => ?_), hw.moves _, ?_⟩
  · rw [List.map_append, List.nodup_append]
    refine ⟨h.consistent.nodup, List.nodup_singleton _, fun a ha b hb hab => ?_⟩
    obtain ⟨r', hr', rfl⟩ := List.mem_map.mp ha
    exact h.pending r' hr' (hab.trans ((List.mem_singleton.mp hb).trans hid))
  · rcases List.mem_append.mp hr' with hold | hnew
    · exact Or.inr hold
    · rw [List.mem_singleton.mp hnew]
      exact Or.inl ⟨hid, hst⟩
  · have hkept : TargetsKept env s ((s.write dest (.document doc)).put env p (e.refreshed p)
        (s.index.applied ++ [r])) ↔ ∀ id e', s.index.proposals id = some e' →
          (env.locate e'.targetRef ≠ env.proposalPath p.proposalId ∧
            env.locate e'.targetRef ≠ env.indexPath) ∧
              (env.locate e'.targetRef = dest → s.files dest = some (.document doc)) := by
      refine Iff.trans (forall₃_congr (fun id e' _ => hfiles _)) ?_
      exact hw.targets (s.index.applied ++ [r]) (fun l =>
        (l ≠ env.proposalPath p.proposalId ∧ l ≠ env.indexPath) ∧
          (l = dest → s.files dest = some (.document doc)))
    rw [hkept]
    constructor
    · rintro ⟨hall, -⟩
      refine ⟨fun id e' he => (hall id e' he).1.1, fun id e' he => (hall id e' he).1.2, ?_⟩
      by_cases hsame : s.files dest = some (.document doc)
      · exact Or.inr hsame
      · exact Or.inl (fun id e' he hd => hsame ((hall id e' he).2 hd))
    · rintro ⟨hp, hi, hd⟩
      refine ⟨fun id e' he => ⟨⟨hp id e' he, hi id e' he⟩, fun hdest => ?_⟩, fun x hx => by cases hx⟩
      exact hd.resolve_left (fun hun => hun id e' he hdest)

theorem applyProposal_spec (h : Consistent env s) (id : Str) (out : Option Str) (now : Str) :
    StepSpec env s (env.applyProposal id out now s) (Safe env s (.applyProposal id out now)) := by
  cases hc : env.checkApply s id out with
  | error x =>
    rw [Env.applyProposal, hc]
    exact (StepSpec.same h (.error x)).congr (by simp [Safe, hc])
  | ok a =>
    obtain ⟨q, path, updated, dest⟩ := a
    obtain ⟨hr, hst, version, hdest⟩ := checkApply_ok hc
    obtain ⟨e, he, hpath, -, hid, hstatus, href⟩ := ensureProposal_found h hr
    obtain rfl : q.proposalId = id := hid
    obtain rfl : path = env.proposalPath q.proposalId := hpath
    have hindex : env.indexPath ≠ dest := fun hi =>
      env.destPath_ne_index q out version q.proposalId (hdest.symm.trans hi.symm)
    have hfile : ∀ x e, s.index.proposals x = some e → env.proposalPath x ≠ dest :=
      fun x e hx hx' => env.destPath_ne_proposal q out version q.proposalId (h.hex x e hx)
        (hdest.symm.trans hx'.symm)
    cases hj : toJsonFields updated with
    | none =>
      have heq : env.applyProposal q.proposalId out now s =
          (.error .typeError, s.write dest .broken) := by
        simp only [Env.applyProposal, hc, hj]
      rw [heq]
      exact (StepSpec.broken h .typeError hindex hfile).congr (by simp [Safe, hc, hj])
    | some fs =>
      have heq : env.applyProposal q.proposalId out now s =
          env.writeProposal { q with status := .applied, appliedAt := some now }
            (env.proposalPath q.proposalId) ((s.write dest (.document updated)).addApplied
              (Env.recordOf ⟨q, env.proposalPath q.proposalId, updated, dest⟩ q.proposalId now)) := by
        simp only [Env.applyProposal, hc, hj]
      have hadv : Advance env s { q with status := .applied, appliedAt := some now } e :=
        ⟨h, he, by rw [← hstatus, hst]; rfl, href⟩
      have hspec := StepSpec.advanceApplied updated
        (r := Env.recordOf ⟨q, env.proposalPath q.proposalId, updated, dest⟩ q.proposalId now) hadv
        rfl rfl hindex hfile
      rw [heq]
      exact hspec.congr (by simp [Safe, hc, hj])

theorem reopen_spec (h : Consistent env s) :
    StepSpec env s (env.step .reopen s) (Safe env s .reopen) := by
  have hopen : env.openStore s.files = .ok s := by
    rw [Env.openStore, h.saved]
  rw [Env.step, hopen]
  exact StepSpec.same h (.ok ())

theorem step_spec (h : Consistent env s) (op : Env.Op) :
    StepSpec env s (env.step op s) (Safe env s op) := by
  cases op with
  | createDraft d now => exact createDraft_spec h d now
  | submitProposal id now => exact submitProposal_spec h id now
  | approveProposal id actor reason now => exact approveProposal_spec h id actor reason now
  | applyProposal id out now => exact applyProposal_spec h id out now
  | reopen => exact reopen_spec h

theorem run_consistent (h : Consistent env s) (ops : List Env.Op) :
    Consistent env (env.run ops s) := by
  induction ops generalizing s with
  | nil => exact h
  | cons op ops ih => exact ih (step_spec h op).consistent

theorem patchStore_lifecycle (env : Env) (files : Location → Option Content) (ops : List Env.Op)
    (op : Env.Op) :
    Consistent env (env.run ops (env.fresh files)) ∧
    Moves (env.run ops (env.fresh files)) (env.step op (env.run ops (env.fresh files))).2 ∧
    ((TargetsKept env (env.run ops (env.fresh files))
        (env.step op (env.run ops (env.fresh files))).2 ∧
      ∀ e, (env.step op (env.run ops (env.fresh files))).1 = .error e →
        (env.step op (env.run ops (env.fresh files))).2 = env.run ops (env.fresh files)) ↔
      Safe env (env.run ops (env.fresh files)) op) := by
  have h := run_consistent (fresh_consistent env files) ops
  have hstep := step_spec h op
  exact ⟨h, hstep.moves, hstep.safe_iff⟩

end steps

def demoPolicy : Doc :=
  [("policy_id".toList, .str "p".toList), ("version".toList, .str "1.0.0".toList),
    ("state_schema".toList, .dict []),
    ("metadata".toList, .dict [("reviewed".toList, .other "2024-01-01".toList)])]

def demoDraft : Draft where
  changes := []
  targetArtifactType := "policy".toList
  targetRef := "policy.yaml".toList
  patchKind := "note".toList
  rationale := []
  expectedEffect := []
  riskLevel := "low".toList
  createdBy := []

def demoDocument : Content → Except Str Doc
  | .document doc => .ok doc
  | _ => .error "expected mapping document".toList

def demoEnv : Env where
  root := "patches".toList
  proposalsDir := "patches/proposals".toList
  outDir _ := "artifacts".toList
  locate ref := ⟨".".toList, ref⟩
  stem _ := "policy".toList
  load _ c := demoDocument c
  validate _ _ := none
  pyStr _ := []
  digest s :=
    if s = Artifacts.canonicalStyle.render (sortKeys (Env.idPayload demoDraft [])) then
      [11, 14, 0, 15, 8, 0, 2, 4, 0, 7, 5, 7, 10, 11, 9, 8, 7, 0, 9, 7, 11, 14, 13, 15, 10, 7, 5,
        2, 14, 7, 3, 7, 7, 13, 12, 6, 4, 11, 6, 15, 9, 15, 7, 10, 6, 0, 14, 15, 10, 9, 5, 13, 12,
        8, 7, 8, 5, 7, 14, 6, 12, 10, 12, 9]
    else []

def demoFiles (l : Location) : Option Content :=
  if l = ⟨".".toList, "policy.yaml".toList⟩ then some (.document demoPolicy) else none

def demoId : Str := "be0f80240757".toList

def demoStore : PatchStore :=
  demoEnv.run [.createDraft demoDraft [], .submitProposal demoId [],
    .approveProposal demoId [] [] []] (demoEnv.fresh demoFiles)

def demoDest : Location := ⟨"artifacts".toList, "policy.v1_0_1.be0f80240757.json".toList⟩

def raises (x : Except PatchError Unit) : Bool :=
  match x with
  | .ok _ => false
  | .error _ => true

theorem failed_operation_leaves_files :
    (raises (demoEnv.step (.applyProposal demoId none []) demoStore).1 = true ∧
      (demoStore.files demoDest).isSome = false ∧
      ((demoEnv.step (.applyProposal demoId none []) demoStore).2.files demoDest).isSome = true) ∧
    raises (demoEnv.step (.createDraft { demoDraft with metadata := demoPolicy } [])
        (demoEnv.fresh demoFiles)).1 = true ∧
      ((demoEnv.fresh demoFiles).files (demoEnv.proposalPath demoId)).isSome = false ∧
      ((demoEnv.step (.createDraft { demoDraft with metadata := demoPolicy } [])
        (demoEnv.fresh demoFiles)).2.files (demoEnv.proposalPath demoId)).isSome = true := by
  refine ⟨⟨?_, ?_, ?_⟩, ?_, ?_, ?_⟩ <;> decide +kernel

end TraceMind.Patch
