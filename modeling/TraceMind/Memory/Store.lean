import TraceMind.Artifacts.Hash
import TraceMind.Foundation.Fallible
import TraceMind.Foundation.Texts
import TraceMind.Foundation.Objects

namespace TraceMind.Memory

open Python (Object)
open Artifacts (newline replaceCr replaceCrlf)

abbrev Session := OrderedDict Str Object

abbrev Data := OrderedDict Str Session

def stored (data : Data) (sessionId key : Str) : Option Object :=
  (data.get? sessionId).bind (fun session => session.get? key)

def put (data : Data) (sessionId key : Str) (value : Object) : Data :=
  data.assign sessionId (((data.get? sessionId).getD .empty).assign key value)

def appended (existing : Option Object) (item : Object) : Object :=
  match existing with
  | some (.list vs) => .list (vs ++ [item])
  | none | some .null => .list [item]
  | some v => .list [v, item]

def SameContents (a b : Data) : Prop :=
  ∀ sessionId key, stored a sessionId key = stored b sessionId key

inductive Call where
  | get (sessionId key : Str)
  | set (sessionId key : Str) (value : Object)
  | append (sessionId key : Str) (item : Object)
  | clear (sessionId : Str) (key : Option Str)

inductive Reply where
  | value (v : Object)
  | done
  | raised

def got (data : Data) (sessionId key : Str) : Reply :=
  .value ((stored data sessionId key).getD .null)

namespace InMemoryStore

def clearKey (data : Data) (sessionId key : Str) : Data :=
  match data.get? sessionId with
  | none => data
  | some session => data.assign sessionId (session.erase key)

def run (data : Data) : Call → Reply × Data
  | .get sessionId key => (got data sessionId key, data)
  | .set sessionId key value => (.done, put data sessionId key value)
  | .append sessionId key item =>
    (.done, put data sessionId key (appended (stored data sessionId key) item))
  | .clear sessionId none => (.done, data.erase sessionId)
  | .clear sessionId (some key) => (.done, clearKey data sessionId key)

end InMemoryStore

def recordStyle : Json.Style := ⟨true, true⟩

def recordOf (sessionId key : Str) (value : Json) : Json :=
  .obj [("session_id".toList, .str sessionId), ("key".toList, .str key), ("value".toList, value)]

def line (sessionId key : Str) (value : Object) : Option Str :=
  value.toJson.map (fun j => recordStyle.render (recordOf sessionId key j) ++ [newline])

abbrev Entry := Str × Str × Object

def items (data : Data) : List Entry :=
  data.entries.flatMap (fun e => e.2.entries.map (fun f => (e.1, f.1, f.2)))

def writeItems : List Entry → Reply × Str
  | [] => (.done, [])
  | e :: es =>
    match line e.1 e.2.1 e.2.2 with
    | none => (.raised, [])
    | some text => ((writeItems es).1, text ++ (writeItems es).2)

structure JsonlStore where
  cache : Data
  file : Option Str

namespace JsonlStore

def writeBehind (s : JsonlStore) (cache : Data) (sessionId key : Str) (value : Object) :
    Reply × JsonlStore :=
  match line sessionId key value with
  | none => (.raised, ⟨cache, some (s.file.getD [])⟩)
  | some text => (.done, ⟨cache, some (s.file.getD [] ++ text)⟩)

def set (s : JsonlStore) (sessionId key : Str) (value : Object) : Reply × JsonlStore :=
  s.writeBehind (put s.cache sessionId key value) sessionId key value

def append (s : JsonlStore) (sessionId key : Str) (item : Object) : Reply × JsonlStore :=
  let current := appended (stored s.cache sessionId key) item
  s.writeBehind (put s.cache sessionId key current) sessionId key current

def rewrite (cache : Data) : Reply × JsonlStore :=
  ((writeItems (items cache)).1, ⟨cache, some (writeItems (items cache)).2⟩)

def clearKey (s : JsonlStore) (sessionId key : Str) : Reply × JsonlStore :=
  match s.cache.get? sessionId with
  | none => (.done, s)
  | some session =>
    if (session.get? key).isSome then rewrite (s.cache.assign sessionId (session.erase key))
    else (.done, s)

def run (s : JsonlStore) : Call → Reply × JsonlStore
  | .get sessionId key => (got s.cache sessionId key, s)
  | .set sessionId key value => s.set sessionId key value
  | .append sessionId key item => s.append sessionId key item
  | .clear sessionId none => rewrite (s.cache.erase sessionId)
  | .clear sessionId (some key) => s.clearKey sessionId key

end JsonlStore

inductive Error where
  | jsonDecodeError
  | attributeError

def loadRecord (cache : Data) : Json → Except Error Data
  | .obj record =>
    match record.lookup "session_id".toList, record.lookup "key".toList with
    | some (.str sessionId), some (.str key) =>
      .ok (put cache sessionId key (((record.lookup "value".toList).map Object.ofJson).getD .null))
    | _, _ => .ok cache
  | _ => .error .attributeError

def loadLines (cache : Data) : List Str → Except Error Data
  | [] => .ok cache
  | line :: rest =>
    if strip line = [] then loadLines cache rest
    else
      match Json.loads line with
      | none => .error .jsonDecodeError
      | some record => do
        let cache ← loadRecord cache record
        loadLines cache rest

def JsonlStore.load : Option Str → Except Error JsonlStore
  | none => .ok ⟨.empty, none⟩
  | some text =>
    (loadLines .empty (lines newline (replaceCr (replaceCrlf text)))).map (⟨·, some text⟩)

def Call.Json : Call → Prop
  | .set _ _ value => value.plain = true
  | .append _ _ item => item.plain = true
  | _ => True

def Reopens (s : JsonlStore) : Prop :=
  ∃ t, JsonlStore.load s.file = .ok t ∧ SameContents t.cache s.cache

def Agree (data : Data) (s : JsonlStore) : List Call → Prop
  | [] => True
  | c :: cs =>
    (s.run c).1 = (InMemoryStore.run data c).1 ∧ Reopens (s.run c).2 ∧
      Agree (InMemoryStore.run data c).2 (s.run c).2 cs

structure Untouched (s t : JsonlStore) : Prop where
  cache : SameContents t.cache s.cache
  file : t.file = s.file

section contents

variable {data a b : Data} {sessionId key s k : Str} {v w : Object}

theorem stored_put : stored (put data sessionId key v) s k =
    if s = sessionId ∧ k = key then some v else stored data s k := by
  rw [stored, put, OrderedDict.get?_assign]
  by_cases hs : s = sessionId
  · subst hs
    rw [if_pos rfl, Option.bind_some, OrderedDict.get?_assign]
    by_cases hk : k = key
    · rw [if_pos hk, if_pos ⟨rfl, hk⟩]
    · rw [if_neg hk, if_neg (fun h => hk h.2), stored]
      cases data.get? s <;> rfl
  · rw [if_neg hs, if_neg (fun h => hs h.1), stored]

theorem stored_erase : stored (data.erase sessionId) s k =
    if s = sessionId then none else stored data s k := by
  rw [stored, OrderedDict.get?_erase]
  split_ifs
  · rfl
  · rfl

theorem stored_assign_erase {session : Session} (h : data.get? sessionId = some session) :
    stored (data.assign sessionId (session.erase key)) s k =
      if s = sessionId ∧ k = key then none else stored data s k := by
  rw [stored, OrderedDict.get?_assign]
  by_cases hs : s = sessionId
  · subst hs
    rw [if_pos rfl, Option.bind_some, OrderedDict.get?_erase, stored, h, Option.bind_some]
    by_cases hk : k = key
    · rw [if_pos hk, if_pos ⟨rfl, hk⟩]
    · rw [if_neg hk, if_neg (fun h => hk h.2)]
  · rw [if_neg hs, if_neg (fun h => hs h.1), stored]

theorem stored_clearKey : stored (InMemoryStore.clearKey data sessionId key) s k =
    if s = sessionId ∧ k = key then none else stored data s k := by
  rw [InMemoryStore.clearKey]
  cases h : data.get? sessionId with
  | none =>
    dsimp only
    split_ifs with hsk
    · rw [hsk.1, stored, h]
      rfl
    · rfl
  | some session => exact stored_assign_erase h

theorem SameContents.put (h : SameContents a b) (sessionId key : Str) (v : Object) :
    SameContents (put a sessionId key v) (put b sessionId key v) := by
  intro s k
  rw [stored_put, stored_put, h s k]

theorem mem_items {e : Entry} : e ∈ items data ↔ stored data e.1 e.2.1 = some e.2.2 := by
  rw [items, List.mem_flatMap, stored, Option.bind_eq_some_iff]
  constructor
  · rintro ⟨x, hx, he⟩
    obtain ⟨f, hf, rfl⟩ := List.mem_map.mp he
    exact ⟨x.2, OrderedDict.get?_eq_some.mpr hx, OrderedDict.get?_eq_some.mpr hf⟩
  · rintro ⟨session, hs, hv⟩
    exact ⟨(e.1, session), OrderedDict.get?_eq_some.mp hs,
      List.mem_map.mpr ⟨(e.2.1, e.2.2), OrderedDict.get?_eq_some.mp hv, rfl⟩⟩

def replay (es : List Entry) : Data := es.foldl (fun d e => put d e.1 e.2.1 e.2.2) .empty

theorem replay_snoc (es : List Entry) (e : Entry) :
    replay (es ++ [e]) = put (replay es) e.1 e.2.1 e.2.2 := by
  rw [replay, List.foldl_append]
  rfl

theorem stored_replay {es : List Entry}
    (h : ∀ e ∈ es, ∀ f ∈ es, e.1 = f.1 → e.2.1 = f.2.1 → e = f) :
    stored (replay es) s k = some v ↔ (s, k, v) ∈ es := by
  induction es using List.reverseRecOn with
  | nil =>
    refine iff_of_false (fun hv => ?_) List.not_mem_nil
    cases hv
  | append_singleton es e ih =>
    have hes : ∀ f ∈ es, ∀ g ∈ es, f.1 = g.1 → f.2.1 = g.2.1 → f = g := fun f hf g hg =>
      h f (List.mem_append_left _ hf) g (List.mem_append_left _ hg)
    have hlast : e ∈ es ++ [e] := List.mem_append_right _ List.mem_cons_self
    rw [replay_snoc, stored_put]
    split_ifs with hsk
    · rw [Option.some.injEq]
      constructor
      · rintro rfl
        rw [hsk.1, hsk.2]
        exact hlast
      · intro hm
        exact congrArg (fun x => x.2.2) (h e hlast (s, k, v) hm hsk.1.symm hsk.2.symm)
    · rw [ih hes, List.mem_append, List.mem_singleton]
      refine (or_iff_left ?_).symm
      rintro rfl
      exact hsk ⟨rfl, rfl⟩

theorem replay_items : SameContents (replay (items data)) data := by
  intro s k
  apply Option.ext
  intro v
  rw [stored_replay, mem_items]
  intro e he f hf h1 h2
  have hv := (mem_items.mp he).symm.trans (h1 ▸ h2 ▸ mem_items.mp hf)
  exact Prod.ext h1 (Prod.ext h2 (Option.some.inj hv))

end contents

section text

variable {sessionId key : Str} {value : Object} {e : Entry} {es : List Entry}

theorem record_keys : ["session_id".toList, "key".toList, "value".toList].Nodup := by
  decide +kernel

theorem recordOf_wf (sessionId key : Str) {j : Json} (h : Json.wf j = true) :
    Json.wf (recordOf sessionId key j) = true := by
  simp only [recordOf, Json.wf, Json.wfFields, h, List.map_cons, List.map_nil, Bool.and_self,
    Bool.and_true, decide_eq_true_eq]
  exact record_keys

def entryLine (e : Entry) : Str := (line e.1 e.2.1 e.2.2).getD []

def fileText (es : List Entry) : Str := es.flatMap entryLine

def Plain (es : List Entry) : Prop := ∀ e ∈ es, e.2.2.plain = true

theorem line_plain (sessionId key : Str) (h : value.plain = true) :
    ∃ j, Json.wf j = true ∧ Object.ofJson j = value ∧ line sessionId key value =
      some (recordStyle.render (recordOf sessionId key j) ++ [newline]) := by
  obtain ⟨j, hj, hwf, hof⟩ := Python.plain_toJson h
  exact ⟨j, hwf, hof, by rw [line, hj, Option.map_some]⟩

theorem writeItems_plain (h : Plain es) : writeItems es = (.done, fileText es) := by
  induction es with
  | nil => rfl
  | cons e es ih =>
    obtain ⟨he, hes⟩ := List.forall_mem_cons.mp h
    obtain ⟨j, -, -, hline⟩ := line_plain e.1 e.2.1 he
    rw [writeItems, hline, fileText, List.flatMap_cons, entryLine, hline, ih hes]
    rfl

theorem record_no_newline {v : Json} (h : Json.wf v = true) : newline ∉ recordStyle.render v :=
  fun hm => (Json.render_oneLine recordStyle v (Json.readable_of_wf h) _ hm).1 rfl

theorem fileText_no_return (h : Plain es) : Artifacts.carriageReturn ∉ fileText es := by
  intro hm
  obtain ⟨e, he, hm⟩ := List.mem_flatMap.mp hm
  obtain ⟨j, hwf, -, hline⟩ := line_plain e.1 e.2.1 (h e he)
  rw [entryLine, hline, Option.getD_some] at hm
  rcases List.mem_append.mp hm with hm | hm
  · have hread := Json.readable_of_wf (recordOf_wf e.1 e.2.1 hwf)
    exact (Json.render_oneLine recordStyle _ hread _ hm).2 rfl
  · cases List.mem_singleton.mp hm

theorem strip_ne_nil {s : Str} {c : Char} (hc : c ∈ s) (hs : isSpace c = false) : strip s ≠ [] := by
  intro h
  rw [strip, List.reverse_eq_nil_iff, List.dropWhile_eq_nil_iff] at h
  cases hd : s.dropWhile isSpace with
  | nil =>
    rw [List.dropWhile_eq_nil_iff] at hd
    exact Bool.false_ne_true (hs.symm.trans (hd c hc))
  | cons x xs =>
    have hx : isSpace x = false := by
      have hhead := List.head?_dropWhile_not isSpace s
      rwa [hd] at hhead
    rw [hd] at h
    exact Bool.false_ne_true (hx.symm.trans (h x (List.mem_reverse.mpr List.mem_cons_self)))

theorem loads_record {v : Json} (h : Json.wf v = true) :
    Json.loads (recordStyle.render v ++ [newline]) = some v := by
  rw [Json.loads, (Json.reads_render recordStyle h (K := []) trivial).run_end rfl]
  rfl

theorem loadRecord_recordOf (cache : Data) (j : Json) :
    loadRecord cache (recordOf sessionId key j) =
      .ok (put cache sessionId key (Object.ofJson j)) := by
  simp [loadRecord, recordOf, List.lookup_cons]

theorem loadLines_fileText (h : Plain es) (cache : Data) :
    loadLines cache (lines newline (fileText es)) =
      .ok (es.foldl (fun d e => put d e.1 e.2.1 e.2.2) cache) := by
  induction es generalizing cache with
  | nil => rfl
  | cons e es ih =>
    obtain ⟨he, hes⟩ := List.forall_mem_cons.mp h
    obtain ⟨j, hwf, hof, hline⟩ := line_plain e.1 e.2.1 he
    have hrecord := recordOf_wf e.1 e.2.1 hwf
    have hbrace : '{' ∈ recordStyle.render (recordOf e.1 e.2.1 j) ++ [newline] :=
      List.mem_cons_self
    rw [fileText, List.flatMap_cons, entryLine, hline, Option.getD_some, List.append_assoc,
      List.singleton_append, Lines.lines_line (record_no_newline hrecord), loadLines,
      if_neg (strip_ne_nil hbrace rfl), loads_record hrecord]
    dsimp only
    rw [loadRecord_recordOf, hof]
    exact ih hes _

theorem load_fileText (h : Plain es) :
    JsonlStore.load (some (fileText es)) = .ok ⟨replay es, some (fileText es)⟩ := by
  have hcr := fileText_no_return h
  rw [JsonlStore.load, Artifacts.replaceCrlf_plain hcr, Artifacts.replaceCr_plain hcr,
    loadLines_fileText h]
  rfl

end text

section runs

variable {data : Data} {s : JsonlStore}

structure Mirrors (data : Data) (s : JsonlStore) : Prop where
  same : SameContents s.cache data
  plain : ∀ sessionId key v, stored s.cache sessionId key = some v → v.plain = true
  written : ∃ es, Plain es ∧ s.file.getD [] = fileText es ∧ SameContents (replay es) s.cache

theorem Mirrors.reopens (h : Mirrors data s) : Reopens s := by
  obtain ⟨es, hes, htext, hsame⟩ := h.written
  have hload := load_fileText hes
  rw [← htext] at hload
  cases hf : s.file with
  | none =>
    rw [hf] at hload
    have hstores := Except.ok.inj hload
    have hempty : OrderedDict.empty = replay es := congrArg JsonlStore.cache hstores
    refine ⟨⟨.empty, none⟩, by rw [hf]; rfl, ?_⟩
    dsimp only
    rw [hempty]
    exact hsame
  | some text =>
    rw [hf] at hload
    exact ⟨_, by rw [hf]; exact hload, hsame⟩

theorem Mirrors.put (h : Mirrors data s) (sessionId key : Str) {value : Object}
    (hv : value.plain = true) :
    ∃ t, s.writeBehind (put s.cache sessionId key value) sessionId key value = (.done, t) ∧
      Mirrors (Memory.put data sessionId key value) t := by
  obtain ⟨j, -, -, hline⟩ := line_plain sessionId key hv
  obtain ⟨es, hes, htext, hsame⟩ := h.written
  refine ⟨_, by rw [JsonlStore.writeBehind, hline], ?_, ?_,
    es ++ [(sessionId, key, value)], ?_, ?_, ?_⟩
  · exact h.same.put sessionId key value
  · intro s' k v hstored
    rw [stored_put] at hstored
    split_ifs at hstored
    · rwa [← Option.some.inj hstored]
    · exact h.plain s' k v hstored
  · exact List.forall_mem_append.mpr ⟨hes, List.forall_mem_singleton.mpr hv⟩
  · rw [Option.getD_some, htext, fileText, fileText, List.flatMap_append, List.flatMap_singleton,
      entryLine, hline, Option.getD_some]
  · rw [replay_snoc]
    exact hsame.put sessionId key value

theorem Mirrors.rewrite {cache : Data} (hsame : SameContents cache data)
    (hplain : ∀ sessionId key v, stored cache sessionId key = some v → v.plain = true) :
    ∃ t, JsonlStore.rewrite cache = (.done, t) ∧ Mirrors data t := by
  have hitems : Plain (items cache) := fun e he => hplain _ _ _ (mem_items.mp he)
  refine ⟨⟨cache, some (fileText (items cache))⟩, ?_, hsame, hplain, items cache, hitems, rfl,
    replay_items⟩
  rw [JsonlStore.rewrite, writeItems_plain hitems]

theorem plainItems_iff {vs : List Object} :
    Python.plainItems vs = true ↔ ∀ v ∈ vs, v.plain = true := by
  induction vs with
  | nil => exact iff_of_true rfl (List.forall_mem_nil _)
  | cons v vs ih => rw [Python.plainItems, Bool.and_eq_true, ih, List.forall_mem_cons]

theorem appended_plain {existing : Option Object} {item : Object}
    (h : ∀ v, existing = some v → v.plain = true) (hi : item.plain = true) :
    (appended existing item).plain = true := by
  have hone : Python.plainItems [item] = true := Bool.and_eq_true_iff.mpr ⟨hi, rfl⟩
  cases existing with
  | none => exact hone
  | some v =>
    have hv := h v rfl
    have hpair : Python.plainItems [v, item] = true := Bool.and_eq_true_iff.mpr ⟨hv, hone⟩
    cases v with
    | null => exact hone
    | list vs =>
      refine plainItems_iff.mpr (List.forall_mem_append.mpr ⟨plainItems_iff.mp hv, ?_⟩)
      exact List.forall_mem_singleton.mpr hi
    | bool b => exact hpair
    | nan => exact hpair
    | infinity b => exact hpair
    | int n => exact hpair
    | float t => exact hpair
    | str t => exact hpair
    | tuple vs => cases hv
    | dict fs => exact hpair
    | other => cases hv

theorem Mirrors.clearKey (h : Mirrors data s) (sessionId key : Str) :
    (s.clearKey sessionId key).1 = .done ∧
      Mirrors (InMemoryStore.clearKey data sessionId key) (s.clearKey sessionId key).2 := by
  have hmissing : stored s.cache sessionId key = none →
      Mirrors (InMemoryStore.clearKey data sessionId key) s := by
    intro hnone
    refine ⟨fun s' k => ?_, h.plain, h.written⟩
    rw [stored_clearKey, h.same]
    split_ifs with hsk
    · rw [hsk.1, hsk.2, ← h.same, hnone]
    · rfl
  rw [JsonlStore.clearKey]
  cases hs : s.cache.get? sessionId with
  | none => exact ⟨rfl, hmissing (by rw [stored, hs]; rfl)⟩
  | some session =>
    dsimp only
    split_ifs with hkey
    · have hsame : SameContents (s.cache.assign sessionId (session.erase key))
          (InMemoryStore.clearKey data sessionId key) := by
        intro s' k
        rw [stored_assign_erase hs, stored_clearKey, h.same]
      obtain ⟨t, ht, hm⟩ := Mirrors.rewrite hsame (fun s' k v hv => by
        rw [stored_assign_erase hs] at hv
        split_ifs at hv
        exact h.plain s' k v hv)
      rw [ht]
      exact ⟨rfl, hm⟩
    · refine ⟨rfl, hmissing ?_⟩
      rw [stored, hs]
      exact Option.not_isSome_iff_eq_none.mp hkey

theorem Mirrors.step (h : Mirrors data s) {c : Call} (hc : c.Json) :
    (s.run c).1 = (InMemoryStore.run data c).1 ∧
      Mirrors (InMemoryStore.run data c).2 (s.run c).2 := by
  cases c with
  | get sessionId key =>
    refine ⟨?_, h⟩
    change got s.cache sessionId key = got data sessionId key
    rw [got, got, h.same]
  | set sessionId key value =>
    obtain ⟨t, ht, hm⟩ := h.put sessionId key hc
    rw [JsonlStore.run, JsonlStore.set, ht]
    exact ⟨rfl, hm⟩
  | append sessionId key item =>
    have hplain := appended_plain (h.plain sessionId key) hc
    obtain ⟨t, ht, hm⟩ := h.put sessionId key hplain
    rw [JsonlStore.run, JsonlStore.append, ht, InMemoryStore.run, ← h.same]
    exact ⟨rfl, hm⟩
  | clear sessionId key =>
    cases key with
    | none =>
      have hsame : SameContents (s.cache.erase sessionId) (data.erase sessionId) := by
        intro s' k
        rw [stored_erase, stored_erase, h.same]
      obtain ⟨t, ht, hm⟩ := Mirrors.rewrite hsame (fun s' k v hv => by
        rw [stored_erase] at hv
        split_ifs at hv
        exact h.plain s' k v hv)
      rw [JsonlStore.run, ht]
      exact ⟨rfl, hm⟩
    | some key => exact ⟨(h.clearKey sessionId key).1, (h.clearKey sessionId key).2⟩

theorem Mirrors.agree (h : Mirrors data s) {calls : List Call} (hc : ∀ c ∈ calls, c.Json) :
    Agree data s calls := by
  induction calls generalizing data s with
  | nil => trivial
  | cons c cs ih =>
    obtain ⟨hhead, hrest⟩ := List.forall_mem_cons.mp hc
    obtain ⟨hreply, hm⟩ := h.step hhead
    exact ⟨hreply, hm.reopens, ih hm hrest⟩

theorem mirrors_fresh : Mirrors .empty ⟨.empty, none⟩ where
  same _ _ := rfl
  plain _ _ _ h := by cases h
  written := ⟨[], List.forall_mem_nil _, rfl, fun _ _ => rfl⟩

end runs

section failure

variable {s : JsonlStore} {sessionId key : Str} {value : Object}

theorem writeBehind_raised {cache : Data}
    (h : (s.writeBehind cache sessionId key value).1 = .raised) :
    (s.writeBehind cache sessionId key value).2 = ⟨cache, some (s.file.getD [])⟩ := by
  unfold JsonlStore.writeBehind at h ⊢
  cases hl : line sessionId key value with
  | none => rfl
  | some text =>
    rw [hl] at h
    cases h

theorem same_put_iff : SameContents (put s.cache sessionId key value) s.cache ↔
    stored s.cache sessionId key = some value := by
  constructor
  · intro h
    rw [← h sessionId key, stored_put, if_pos ⟨rfl, rfl⟩]
  · intro h s' k
    rw [stored_put]
    split_ifs with hsk
    · rw [hsk.1, hsk.2, h]
    · rfl

theorem untouched_put_iff :
    Untouched s ⟨put s.cache sessionId key value, some (s.file.getD [])⟩ ↔
      stored s.cache sessionId key = some value ∧ s.file.isSome = true := by
  constructor
  · rintro ⟨hcache, hfile⟩
    refine ⟨same_put_iff.mp hcache, ?_⟩
    rw [← show some (s.file.getD []) = s.file from hfile]
    rfl
  · rintro ⟨hstored, hfile⟩
    obtain ⟨text, htext⟩ := Option.isSome_iff_exists.mp hfile
    exact ⟨same_put_iff.mpr hstored, by rw [htext, Option.getD_some]⟩

theorem appended_ne (existing : Option Object) (item : Object) :
    existing ≠ some (appended existing item) := by
  intro h
  cases existing with
  | none => cases h
  | some v =>
    cases v with
    | list vs =>
      have hlen := congrArg List.length (Object.list.inj (Option.some.inj h))
      simp at hlen
    | _ => cases h

theorem memory_store_contract (s : JsonlStore) (sessionId key : Str) (value item : Object) :
    (∀ calls : List Call, (∀ c ∈ calls, c.Json) → Agree .empty ⟨.empty, none⟩ calls) ∧
    ((s.set sessionId key value).1 = .raised →
      (Untouched s (s.set sessionId key value).2 ↔
        stored s.cache sessionId key = some value ∧ s.file.isSome = true)) ∧
    ((s.append sessionId key item).1 = .raised →
      ¬ Untouched s (s.append sessionId key item).2) := by
  refine ⟨fun calls hc => mirrors_fresh.agree hc, fun h => ?_, fun h => ?_⟩
  · rw [JsonlStore.set, writeBehind_raised h]
    exact untouched_put_iff
  · rw [JsonlStore.append, writeBehind_raised h, untouched_put_iff]
    exact fun hu => appended_ne _ _ hu.1

theorem raised_value_kept :
    (JsonlStore.set ⟨.empty, none⟩ ['s'] ['k'] .other).1 = .raised ∧
      ¬ Untouched ⟨.empty, none⟩ (JsonlStore.set ⟨.empty, none⟩ ['s'] ['k'] .other).2 ∧
      (JsonlStore.run (JsonlStore.set ⟨.empty, none⟩ ['s'] ['k'] .other).2
        (.get ['s'] ['k'])).1 = .value .other := by
  refine ⟨rfl, fun h => ?_, rfl⟩
  cases h.file

end failure

end TraceMind.Memory
