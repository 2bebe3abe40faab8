import TraceMind.Foundation.Runs
import TraceMind.Queue.Manager
import TraceMind.Workflow.PolicyEngine

namespace TraceMind.Queue

open Workflow (truth)

structure IdempotencyResult where
  status : Str
  output : Document
  error : Option Document := none

namespace IdempotencyResult

def toPayload (r : IdempotencyResult) : Json :=
  .obj [("status".toList, .str r.status), ("output".toList, r.output.json),
    ("error".toList, (r.error.map Document.json).getD .null)]

def orDefault (default : Json) (v : Option Json) : Json :=
  match v with
  | none => default
  | some v => if truth v then v else default

def errorOf (v : Option Json) : Option (Option Document) :=
  match v with
  | none => some none
  | some .null => some none
  | some v => (Document.ofJson? v).map some

-- `none` stands for the exceptions, all of which the caller catches.
def fromPayload (py : PyText) : Json → Option IdempotencyResult
  | .obj payload =>
    let status := py.str (orDefault (.str []) (payload.lookup "status".toList))
    if status = [] then none
    else
      (Document.ofJson? (orDefault (.obj []) (payload.lookup "output".toList))).bind (fun output =>
        (errorOf (payload.lookup "error".toList)).map (fun error => ⟨status, output, error⟩))
  | _ => none

variable {py : PyText} {r : IdempotencyResult}

theorem ofJson?_orDefault (d : Document) :
    Document.ofJson? (orDefault (.obj []) (some d.json)) = some d := by
  simp only [orDefault]
  split_ifs with h
  · exact Document.ofJson?_json d
  · have hd : d = Document.empty := by
      apply Document.ext
      show d.fields = []
      simpa [Document.json, truth] using h
    rw [hd]
    exact Document.ofJson?_json Document.empty

theorem errorOf_payload (error : Option Document) :
    errorOf (some ((error.map Document.json).getD .null)) = some error := by
  cases error with
  | none => rfl
  | some d => exact congrArg (Option.map some) (Document.ofJson?_json d)

theorem fromPayload_toPayload :
    fromPayload py r.toPayload = if r.status = [] then none else some r := by
  have hstatus : py.str (orDefault (.str []) (some (.str r.status))) = r.status := by
    simp only [orDefault]
    split_ifs with h
    · exact py.str_str _
    · have hempty : r.status = [] := by simpa [truth] using h
      rw [py.str_str, hempty]
  show (if py.str (orDefault (.str []) (some (.str r.status))) = [] then none
    else (Document.ofJson? (orDefault (.obj []) (some r.output.json))).bind (fun output =>
      (errorOf (some ((r.error.map Document.json).getD .null))).map (fun error =>
        (⟨py.str (orDefault (.str []) (some (.str r.status))), output, error⟩ :
          IdempotencyResult)))) = _
  rw [hstatus, ofJson?_orDefault, errorOf_payload]
  rfl

theorem toPayload_inj {s : IdempotencyResult} (hr : r.status ≠ [])
    (h : r.toPayload = s.toPayload) : r = s := by
  have hread := congrArg (fromPayload plainPy) h
  rw [fromPayload_toPayload, fromPayload_toPayload, if_neg hr] at hread
  split_ifs at hread
  exact Option.some.inj hread

end IdempotencyResult

abbrev ResultEntry := IdempotencyEntry IdempotencyResult

abbrev Results := OrderedDict Str ResultEntry

structure SnapshotItem where
  key : Str
  expiresAt : ℚ
  result : Json

def snapshotItem (key : Str) (e : ResultEntry) : SnapshotItem :=
  ⟨key, e.expiresAt, e.result.toPayload⟩

def snapshotItems (now : ℚ) (entries : Results) : List SnapshotItem :=
  (entries.entries.filter (fun x => now < x.2.expiresAt)).map (fun x => snapshotItem x.1 x.2)

def loadItem (py : PyText) (now : ℚ) (entries : Results) (item : SnapshotItem) : Results :=
  if item.expiresAt ≤ now then entries
  else
    match IdempotencyResult.fromPayload py item.result with
    | none => entries
    | some result => entries.assign item.key ⟨result, item.expiresAt⟩

def loadItems (py : PyText) (now : ℚ) (items : List SnapshotItem) : Results :=
  items.foldl (loadItem py now) OrderedDict.empty

def overflow (capacity : ℕ) (entries : Results) : List (Str × ResultEntry) :=
  entries.entries.take (entries.size - capacity)

structure StoreProcess where
  store : IdempotencyStore IdempotencyResult
  snapshotInterval : ℚ
  lastSnapshot : ℚ := 0

namespace StoreProcess

-- `none` where `__init__` refuses the capacity.
def init (py : PyText) (capacity : ℕ) (interval now : ℚ) (file : List SnapshotItem) :
    Option StoreProcess :=
  if h : 0 < capacity then
    some {
      store := ⟨capacity, h, (loadItems py now file).trim capacity⟩
      snapshotInterval := max interval 1 }
  else none

def get (now : ℚ) (key : Str) (p : StoreProcess) : Option IdempotencyResult × StoreProcess :=
  ((p.store.get now key).1, { p with store := (p.store.get now key).2 })

def snapshotDue (now : ℚ) (p : StoreProcess) : Bool :=
  !decide (now - p.lastSnapshot < p.snapshotInterval)

def maybeSnapshot (force : Bool) (now : ℚ) (p : StoreProcess) :
    Option (List SnapshotItem) × StoreProcess :=
  if force || p.snapshotDue now then
    (some (snapshotItems now p.store.entries), { p with lastSnapshot := now })
  else (none, p)

def remember (now later : ℚ) (key : Str) (result : IdempotencyResult) (ttl : ℚ)
    (p : StoreProcess) : Option (List SnapshotItem) × StoreProcess :=
  if ttl ≤ 0 then (none, p)
  else { p with store := p.store.remember now key result ttl }.maybeSnapshot false later

def dropExpired (now : ℚ) (entries : Results) : Results :=
  ⟨entries.entries.filter (fun x => now < x.2.expiresAt),
    entries.nodup.sublist ((List.filter_sublist ..).map Prod.fst)⟩

def prune (now later : ℚ) (p : StoreProcess) : Option (List SnapshotItem) × StoreProcess :=
  { p with store := { p.store with entries := dropExpired now p.store.entries } }.maybeSnapshot
    true later

end StoreProcess

section items

variable {py : PyText} {now : ℚ} {k : Str} {e : ResultEntry} {entries : Results}
  {items : List SnapshotItem}

theorem snapshotItem_inj {f : ResultEntry} (hs : e.result.status ≠ [])
    (h : snapshotItem k e = snapshotItem k f) : e = f := by
  obtain ⟨r, t⟩ := e
  obtain ⟨s, u⟩ := f
  have hr : r = s := IdempotencyResult.toPayload_inj hs (congrArg SnapshotItem.result h)
  have ht : t = u := congrArg SnapshotItem.expiresAt h
  rw [hr, ht]

theorem keys_snapshotItems (now : ℚ) (entries : Results) :
    ((snapshotItems now entries).map SnapshotItem.key).Nodup := by
  rw [snapshotItems, List.map_map]
  exact entries.nodup.sublist ((List.filter_sublist ..).map Prod.fst)

theorem mem_snapshotItems {item : SnapshotItem} : item ∈ snapshotItems now entries ↔
    ∃ k e, entries.get? k = some e ∧ now < e.expiresAt ∧ item = snapshotItem k e := by
  rw [snapshotItems, List.mem_map]
  constructor
  · rintro ⟨x, hx, rfl⟩
    rw [List.mem_filter] at hx
    exact ⟨x.1, x.2, OrderedDict.get?_eq_some.mpr hx.1, of_decide_eq_true hx.2, rfl⟩
  · rintro ⟨k, e, he, hnow, rfl⟩
    exact ⟨(k, e), List.mem_filter.mpr ⟨OrderedDict.get?_eq_some.mp he, decide_eq_true hnow⟩, rfl⟩

theorem snapshotItems_items {item : SnapshotItem} (h : item ∈ snapshotItems now entries) :
    ∃ k e, item = snapshotItem k e := by
  obtain ⟨k, e, -, -, hi⟩ := mem_snapshotItems.mp h
  exact ⟨k, e, hi⟩

theorem overflow_of_le {n : ℕ} (h : entries.size ≤ n) : overflow n entries = [] := by
  rw [overflow, Nat.sub_eq_zero_of_le h, List.take_zero]

theorem get?_loadItem_of_ne {item : SnapshotItem} (h : k ≠ item.key) :
    (loadItem py now entries item).get? k = entries.get? k := by
  rw [loadItem]
  split_ifs
  · rfl
  · cases IdempotencyResult.fromPayload py item.result with
    | none => rfl
    | some r => exact (OrderedDict.get?_assign ..).trans (if_neg h)

theorem get?_loadItem_self (hnew : entries.get? k = none) :
    (loadItem py now entries (snapshotItem k e)).get? k =
      if now < e.expiresAt ∧ e.result.status ≠ [] then some e else none := by
  rw [loadItem]
  split_ifs with hnow hboth hboth
  · exact absurd hboth.1 (not_lt.mpr hnow)
  · exact hnew
  · rw [snapshotItem, IdempotencyResult.fromPayload_toPayload, if_neg hboth.2]
    exact (OrderedDict.get?_assign ..).trans (if_pos rfl)
  · have hempty : e.result.status = [] := by
      by_contra hne
      exact hboth ⟨not_le.mp hnow, hne⟩
    rw [snapshotItem, IdempotencyResult.fromPayload_toPayload, if_pos hempty]
    exact hnew

theorem get?_loadItems (hkeys : (items.map SnapshotItem.key).Nodup)
    (hitems : ∀ item ∈ items, ∃ k e, item = snapshotItem k e) :
    (loadItems py now items).get? k = some e ↔
      snapshotItem k e ∈ items ∧ now < e.expiresAt ∧ e.result.status ≠ [] := by
  induction items using List.reverseRecOn generalizing k e with
  | nil => simp [loadItems, OrderedDict.empty, OrderedDict.get?, OrderedDict.find]
  | append_singleton items item ih =>
    obtain ⟨j, f, rfl⟩ := hitems item (by simp)
    rw [List.map_append, List.nodup_append] at hkeys
    have hfresh : j ∉ items.map SnapshotItem.key := fun hj => hkeys.2.2 j hj j (by
      simp [snapshotItem]) rfl
    have ih' := fun k e => @ih k e hkeys.1 (fun item hitem => hitems item (by simp [hitem]))
    rw [loadItems, List.foldl_append, ← loadItems, List.foldl_cons, List.foldl_nil]
    by_cases hk : k = j
    · subst hk
      have hnone : (loadItems py now items).get? k = none := by
        rw [Option.eq_none_iff_forall_ne_some]
        intro e' he'
        exact hfresh (List.mem_map_of_mem (f := SnapshotItem.key) ((ih' k e').mp he').1)
      have hmem : snapshotItem k e ∉ items := fun hm => hfresh (List.mem_map_of_mem
        (f := SnapshotItem.key) hm)
      rw [get?_loadItem_self hnone, List.mem_append, List.mem_singleton]
      constructor
      · intro h
        split_ifs at h with hf
        obtain rfl := Option.some.inj h
        exact ⟨Or.inr rfl, hf⟩
      · rintro ⟨hm | hm, hnow, hs⟩
        · exact absurd hm hmem
        · obtain rfl := snapshotItem_inj hs hm
          rw [if_pos ⟨hnow, hs⟩]
    · rw [get?_loadItem_of_ne (by simpa [snapshotItem] using hk), ih', List.mem_append,
        List.mem_singleton]
      have hne : snapshotItem k e ≠ snapshotItem j f := fun h =>
        hk (congrArg SnapshotItem.key h)
      simp [hne]

end items

structure ResultHistory where
  latest : Str → Option ResultEntry := fun _ => none
  stored : List (Str × ResultEntry) := []
  evicted : List (ℕ × Str × ResultEntry) := []
  gone : List (Str × ResultEntry) := []
  readings : List ℚ := []

namespace ResultHistory

def read (times : List ℚ) (h : ResultHistory) : ResultHistory :=
  { h with readings := h.readings ++ times }

def remembered (key : Str) (e : ResultEntry) (h : ResultHistory) : ResultHistory :=
  { h with
    latest := Function.update h.latest key (some e)
    stored := h.stored.filter (fun x => x.1 ≠ key)
    evicted := h.evicted.filter (fun x => x.2.1 ≠ key)
    gone := h.gone.filter (fun x => x.1 ≠ key) }

def evict (i : ℕ) (dropped : List (Str × ResultEntry)) (h : ResultHistory) : ResultHistory :=
  { h with evicted := h.evicted ++ dropped.map (fun x => (i, x)) }

def snapshot (i : ℕ) (now : ℚ) (entries : Results) (h : ResultHistory) : ResultHistory :=
  { h with
    stored := h.stored ++ entries.entries.filter (fun x => now < x.2.expiresAt)
    gone := h.gone ++ (h.evicted.filter (fun x => x.1 = i)).map Prod.snd }

end ResultHistory

structure SharedResults where
  file : List SnapshotItem := []
  processes : List StoreProcess := []
  history : ResultHistory := {}

inductive StoreCall where
  | openStore (capacity : ℕ) (interval now : ℚ)
  | get (i : ℕ) (key : Str) (now : ℚ)
  | remember (i : ℕ) (key : Str) (result : IdempotencyResult) (ttl now later : ℚ)
  | prune (i : ℕ) (now later : ℚ)

namespace SharedResults

variable (py : PyText)

def settle (i : ℕ) (now : ℚ) (outcome : Option (List SnapshotItem) × StoreProcess)
    (s : SharedResults) : SharedResults :=
  match outcome.1 with
  | none => { s with processes := s.processes.set i outcome.2 }
  | some file => {
      file := file
      processes := s.processes.set i outcome.2
      history := s.history.snapshot i now outcome.2.store.entries }

def note (f : ResultHistory → ResultHistory) (s : SharedResults) : SharedResults :=
  { s with history := f s.history }

def openStore (capacity : ℕ) (interval now : ℚ) (s : SharedResults) : Option SharedResults :=
  (StoreProcess.init py capacity interval now s.file).map (fun p =>
    { s with
      processes := s.processes ++ [p]
      history := (s.history.read [now]).evict s.processes.length
        (overflow capacity (loadItems py now s.file)) })

def rememberHistory (i : ℕ) (key : Str) (e : ResultEntry) (times : List ℚ) (p : StoreProcess)
    (h : ResultHistory) : ResultHistory :=
  ((h.read times).remembered key e).evict i
    (overflow p.store.capacity (p.store.entries.store key e))

def rememberAt (i : ℕ) (key : Str) (result : IdempotencyResult) (ttl now later : ℚ)
    (p : StoreProcess) (s : SharedResults) : SharedResults :=
  if ttl ≤ 0 then s
  else
    settle i later (p.remember now later key result ttl)
      (s.note (rememberHistory i key ⟨result, now + ttl⟩ [now, later] p))

def step : StoreCall → SharedResults → Option SharedResults
  | .openStore capacity interval now, s => openStore py capacity interval now s
  | .get i key now, s => s.processes[i]?.map (fun p =>
      { s with
        processes := s.processes.set i (p.get now key).2
        history := s.history.read [now] })
  | .remember i key result ttl now later, s => s.processes[i]?.map (fun p =>
      rememberAt i key result ttl now later p s)
  | .prune i now later, s => s.processes[i]?.map (fun p =>
      settle i later (p.prune now later) (s.note (ResultHistory.read [now, later])))

structure Live (h : ResultHistory) (k : Str) (e : ResultEntry) : Prop where
  latest : h.latest k = some e
  stored : (k, e) ∈ h.stored
  kept : (k, e) ∉ h.gone
  fresh : ∀ t ∈ h.readings, t < e.expiresAt

def finds (k : Str) (e : ResultEntry) (p : StoreProcess) : Prop :=
  ∀ t, (p.get t k).1 = if t < e.expiresAt then some e.result else none

def Found (s : SharedResults) : Prop :=
  ∀ capacity interval now t, openStore py capacity interval now s = some t →
    ∀ k e, Live t.history k e → (k, e) ∉ overflow capacity (loadItems py now s.file) →
      ∃ p, t.processes[s.processes.length]? = some p ∧ finds k e p

def named : StoreCall → Prop
  | .remember _ _ result .. => result.status ≠ []
  | _ => True

def Covers (i : ℕ) (p : StoreProcess) (times : List ℚ) (h : ResultHistory) (k : Str) : Prop :=
  ∀ e, Live h k e → (∀ t ∈ times, t < e.expiresAt) →
    p.store.entries.get? k = some e ∨ (i, k, e) ∈ h.evicted

def Keeps : StoreCall → SharedResults → Prop
  | .remember i key _ ttl now later, s => ∀ p, s.processes[i]? = some p → 0 < ttl →
      p.snapshotDue later = true → ∀ k ≠ key, Covers i p [now, later] s.history k
  | .prune i now later, s => ∀ p, s.processes[i]? = some p →
      ∀ k, Covers i p [now, later] s.history k
  | _, _ => True

section history

variable {h : ResultHistory} {i : ℕ} {k key : Str} {e f : ResultEntry} {now : ℚ} {times : List ℚ}
  {entries : Results} {dropped : List (Str × ResultEntry)}

theorem live_read : Live (h.read times) k e ↔ Live h k e ∧ ∀ t ∈ times, t < e.expiresAt := by
  constructor
  · intro hl
    have hfresh := hl.fresh
    simp only [ResultHistory.read, List.mem_append] at hfresh
    exact ⟨⟨hl.latest, hl.stored, hl.kept, fun t ht => hfresh t (Or.inl ht)⟩,
      fun t ht => hfresh t (Or.inr ht)⟩
  · rintro ⟨hl, htimes⟩
    refine ⟨hl.latest, hl.stored, hl.kept, ?_⟩
    simp only [ResultHistory.read, List.mem_append]
    rintro t (ht | ht)
    · exact hl.fresh t ht
    · exact htimes t ht

theorem live_evict : Live (h.evict i dropped) k e ↔ Live h k e :=
  ⟨fun hl => ⟨hl.latest, hl.stored, hl.kept, hl.fresh⟩,
    fun hl => ⟨hl.latest, hl.stored, hl.kept, hl.fresh⟩⟩

theorem live_remembered : Live (h.remembered key f) k e ↔ k ≠ key ∧ Live h k e := by
  constructor
  · intro hl
    have hstored := hl.stored
    simp only [ResultHistory.remembered, List.mem_filter, decide_eq_true_eq] at hstored
    have hlatest := hl.latest
    simp only [ResultHistory.remembered, Function.update_of_ne hstored.2] at hlatest
    refine ⟨hstored.2, hlatest, hstored.1, fun hgone => hl.kept ?_, hl.fresh⟩
    exact List.mem_filter.mpr ⟨hgone, decide_eq_true hstored.2⟩
  · rintro ⟨hk, hl⟩
    refine ⟨(Function.update_of_ne hk ..).trans hl.latest,
      List.mem_filter.mpr ⟨hl.stored, decide_eq_true hk⟩, fun hgone => ?_, hl.fresh⟩
    exact hl.kept (List.mem_filter.mp hgone).1

theorem mem_gone_snapshot : (k, e) ∈ (h.snapshot i now entries).gone ↔
    (k, e) ∈ h.gone ∨ (i, k, e) ∈ h.evicted := by
  simp only [ResultHistory.snapshot, List.mem_append, List.mem_map, List.mem_filter]
  refine or_congr_right ⟨?_, ?_⟩
  · rintro ⟨⟨j, x⟩, ⟨hx, hj⟩, rfl⟩
    obtain rfl : j = i := of_decide_eq_true hj
    exact hx
  · intro hx
    exact ⟨(i, k, e), ⟨hx, decide_eq_true rfl⟩, rfl⟩

theorem mem_stored_snapshot : (k, e) ∈ (h.snapshot i now entries).stored ↔
    (k, e) ∈ h.stored ∨ (entries.get? k = some e ∧ now < e.expiresAt) := by
  simp only [ResultHistory.snapshot, List.mem_append, List.mem_filter, decide_eq_true_eq,
    OrderedDict.get?_eq_some]

end history

def Writes (i : ℕ) (entries : Results) (h : ResultHistory) : Prop :=
  ∀ k e, Live h k e → entries.get? k = some e ∨ (i, k, e) ∈ h.evicted

section snapshot

structure Consistent (s : SharedResults) : Prop where
  keys : (s.file.map SnapshotItem.key).Nodup
  items : ∀ item ∈ s.file, ∃ k e, item = snapshotItem k e
  live : ∀ k e, Live s.history k e → snapshotItem k e ∈ s.file
  status : ∀ k e, s.history.latest k = some e → e.result.status ≠ []

variable {py} {s t : SharedResults} {i : ℕ} {later : ℚ} {p : StoreProcess} {h : ResultHistory}
  {k : Str} {e : ResultEntry}

theorem get_fst (t : ℚ) : (p.get t k).1 = (p.store.entries.get? k).bind (fun e =>
    if t < e.expiresAt then some e.result else none) := by
  rw [StoreProcess.get, IdempotencyStore.get]
  cases p.store.entries.get? k with
  | none => rfl
  | some e =>
    dsimp only [Option.bind_some]
    split_ifs with hle hlt hlt
    · exact absurd hlt (not_lt.mpr hle)
    · rfl
    · rfl
    · exact absurd (not_lt.mp hlt) hle

theorem finds_iff : finds k e p ↔ p.store.entries.get? k = some e := by
  constructor
  · intro hf
    have hnow := (get_fst (k := k) (e.expiresAt - 1)).symm.trans (hf (e.expiresAt - 1))
    rw [if_pos (sub_one_lt _)] at hnow
    obtain ⟨e', he', hsome⟩ := Option.bind_eq_some_iff.mp hnow
    split_ifs at hsome
    have hlt : ∀ t, t < e'.expiresAt ↔ t < e.expiresAt := by
      intro t
      have ht := (get_fst (k := k) t).symm.trans (hf t)
      rw [he', Option.bind_some] at ht
      split_ifs at ht <;> simp [*]
    have hexp : e'.expiresAt = e.expiresAt :=
      le_antisymm (not_lt.mp (fun h => lt_irrefl _ ((hlt _).mp h)))
        (not_lt.mp (fun h => lt_irrefl _ ((hlt _).mpr h)))
    obtain ⟨r, x⟩ := e
    obtain ⟨r', x'⟩ := e'
    obtain rfl : r' = r := Option.some.inj hsome
    obtain rfl : x' = x := hexp
    exact he'
  · intro hk t
    rw [get_fst, hk, Option.bind_some]

theorem Consistent.found (hs : Consistent s) : Found py s := by
  intro capacity interval now t ht k e hlive hkept
  obtain ⟨p, hp, rfl⟩ := Option.map_eq_some_iff.mp ht
  rw [StoreProcess.init] at hp
  split_ifs at hp with hcap
  obtain rfl := Option.some.inj hp
  obtain ⟨hlive, hnow⟩ := live_read.mp (live_evict.mp hlive)
  have hget : (loadItems py now s.file).get? k = some e :=
    (get?_loadItems hs.keys hs.items).mpr
      ⟨hs.live k e hlive, hnow now (by simp), hs.status k e hlive.latest⟩
  refine ⟨_, List.getElem?_concat_length, finds_iff.mpr ?_⟩
  exact OrderedDict.get?_trim_of_not_mem hget hkept

theorem exists_openStore (py : PyText) (now : ℚ) (s : SharedResults) :
    ∃ p t, openStore py ((loadItems py now s.file).size + 1) 1 now s = some t ∧
      t.processes[s.processes.length]? = some p ∧
      p.store.entries = loadItems py now s.file ∧
      t.history = (s.history.read [now]).evict s.processes.length [] := by
  refine ⟨_, _, congrArg (Option.map _) (dif_pos (Nat.succ_pos _)),
    List.getElem?_concat_length, ?_, ?_⟩
  · apply OrderedDict.ext
    simp [OrderedDict.trim]
  · dsimp only
    rw [overflow_of_le (Nat.le_succ _)]

theorem Found.writes {i : ℕ} {entries : Results} {s : SharedResults} (hs : Found py s)
    (hfile : s.file = snapshotItems later entries)
    (hhistory : s.history = h.snapshot i later entries) (hread : later ∈ h.readings) :
    Writes i entries h := by
  intro k e hlive
  by_contra hnot
  rw [not_or] at hnot
  obtain ⟨p, t, hopen, hp, hentries, hh⟩ := exists_openStore py later s
  have hafter : Live s.history k e := by
    rw [hhistory]
    refine ⟨hlive.latest, mem_stored_snapshot.mpr (Or.inl hlive.stored), ?_, hlive.fresh⟩
    rw [mem_gone_snapshot, not_or]
    exact ⟨hlive.kept, hnot.2⟩
  have hlater : ∀ t ∈ [later], t < e.expiresAt := by simpa using hlive.fresh later hread
  obtain ⟨p', hp', hfinds⟩ := hs _ _ _ _ hopen k e
    (by rw [hh]; exact live_evict.mpr (live_read.mpr ⟨hafter, hlater⟩)) (by simp [overflow_of_le])
  obtain rfl := Option.some.inj (hp.symm.trans hp')
  rw [finds_iff, hentries, hfile] at hfinds
  have hmem := ((get?_loadItems (keys_snapshotItems later entries)
    (fun _ => snapshotItems_items)).mp hfinds)
  obtain ⟨k', e', hk', -, heq⟩ := mem_snapshotItems.mp hmem.1
  obtain rfl : k = k' := congrArg SnapshotItem.key heq
  obtain rfl := snapshotItem_inj hmem.2.2 heq
  exact hnot.1 hk'

theorem Consistent.of_writes {entries : Results} (hfile : s.file = snapshotItems later entries)
    (hhistory : s.history = h.snapshot i later entries) (hread : later ∈ h.readings)
    (hwrites : Writes i entries h)
    (hstatus : ∀ k e, h.latest k = some e → e.result.status ≠ []) : Consistent s where
  keys := by
    rw [hfile]
    exact keys_snapshotItems later entries
  items := by
    rw [hfile]
    exact fun _ => snapshotItems_items
  live := by
    rw [hfile, hhistory]
    intro k e hlive
    have hkept := hlive.kept
    rw [mem_gone_snapshot, not_or] at hkept
    refine mem_snapshotItems.mpr ⟨k, e, ?_, hlive.fresh later hread, rfl⟩
    rcases mem_stored_snapshot.mp hlive.stored with hstored | ⟨hget, -⟩
    · exact (hwrites k e ⟨hlive.latest, hstored, hkept.1, hlive.fresh⟩).resolve_right hkept.2
    · exact hget
  status := by
    rw [hhistory]
    exact hstatus

end snapshot

section calls

variable {py} {s t : SharedResults} {i : ℕ} {now later ttl : ℚ} {p : StoreProcess}
  {h : ResultHistory} {k key : Str} {e f : ResultEntry} {result : IdempotencyResult} {c : StoreCall}

theorem get?_dropExpired {entries : Results} :
    (StoreProcess.dropExpired now entries).get? k = some e ↔
      entries.get? k = some e ∧ now < e.expiresAt := by
  rw [OrderedDict.get?_eq_some, OrderedDict.get?_eq_some, StoreProcess.dropExpired,
    List.mem_filter, decide_eq_true_eq]

theorem writes_prune : Writes i (StoreProcess.dropExpired now p.store.entries)
    (h.read [now, later]) ↔ ∀ k, Covers i p [now, later] h k := by
  constructor
  · intro hw k e hlive hfresh
    rcases hw k e (live_read.mpr ⟨hlive, hfresh⟩) with hget | hev
    · exact Or.inl (get?_dropExpired.mp hget).1
    · exact Or.inr hev
  · intro hc k e hlive
    obtain ⟨hlive, hfresh⟩ := live_read.mp hlive
    rcases hc k e hlive hfresh with hget | hev
    · exact Or.inl (get?_dropExpired.mpr ⟨hget, hfresh now (by simp)⟩)
    · exact Or.inr hev

theorem mem_evicted_rememberHistory {times : List ℚ} (hk : k ≠ key) :
    (i, k, e) ∈ (rememberHistory i key f times p h).evicted ↔
      (i, k, e) ∈ h.evicted ∨
        (k, e) ∈ overflow p.store.capacity (p.store.entries.store key f) := by
  simp [rememberHistory, ResultHistory.evict, ResultHistory.remembered, ResultHistory.read, hk]

theorem live_rememberHistory {times : List ℚ} : Live (rememberHistory i key f times p h) k e ↔
    k ≠ key ∧ Live h k e ∧ ∀ t ∈ times, t < e.expiresAt := by
  rw [rememberHistory, live_evict, live_remembered, live_read]

theorem writes_remember :
    Writes i ((p.store.entries.store key f).trim p.store.capacity)
      (rememberHistory i key f [now, later] p h) ↔ ∀ k ≠ key, Covers i p [now, later] h k := by
  have hstore : ∀ k ≠ key, (p.store.entries.store key f).get? k = p.store.entries.get? k :=
    fun k hk => (OrderedDict.get?_store ..).trans (if_neg hk)
  constructor
  · intro hw k hk e hlive hfresh
    rcases hw k e (live_rememberHistory.mpr ⟨hk, hlive, hfresh⟩) with hget | hev
    · exact Or.inl ((hstore k hk).symm.trans (OrderedDict.get?_of_trim hget))
    · rcases (mem_evicted_rememberHistory hk).mp hev with hev | hover
      · exact Or.inr hev
      · have hmem := OrderedDict.get?_eq_some.mpr (List.mem_of_mem_take hover)
        exact Or.inl ((hstore k hk).symm.trans hmem)
  · intro hc k e hlive
    obtain ⟨hk, hlive, hfresh⟩ := live_rememberHistory.mp hlive
    rw [mem_evicted_rememberHistory hk]
    rcases hc k hk e hlive hfresh with hget | hev
    · by_cases hover : (k, e) ∈ overflow p.store.capacity (p.store.entries.store key f)
      · exact Or.inr (Or.inr hover)
      · exact Or.inl (OrderedDict.get?_trim_of_not_mem ((hstore k hk).trans hget) hover)
    · exact Or.inr (Or.inl hev)

theorem step_prune (h : step py (.prune i now later) s = some t) :
    ∃ p, s.processes[i]? = some p ∧
      t.file = snapshotItems later (StoreProcess.dropExpired now p.store.entries) ∧
      t.history = (s.history.read [now, later]).snapshot i later
        (StoreProcess.dropExpired now p.store.entries) := by
  obtain ⟨p, hp, rfl⟩ := Option.map_eq_some_iff.mp h
  exact ⟨p, hp, rfl, rfl⟩

theorem step_remember (h : step py (.remember i key result ttl now later) s = some t) :
    ∃ p, s.processes[i]? = some p ∧ (t = s ∧ ttl ≤ 0 ∨
      0 < ttl ∧ (p.snapshotDue later = false ∧ t.file = s.file ∧
        t.history = rememberHistory i key ⟨result, now + ttl⟩ [now, later] p s.history ∨
      p.snapshotDue later = true ∧
        t.file = snapshotItems later
          ((p.store.entries.store key ⟨result, now + ttl⟩).trim p.store.capacity) ∧
        t.history =
          (rememberHistory i key ⟨result, now + ttl⟩ [now, later] p s.history).snapshot i later
            ((p.store.entries.store key ⟨result, now + ttl⟩).trim p.store.capacity))) := by
  obtain ⟨p, hp, rfl⟩ := Option.map_eq_some_iff.mp h
  refine ⟨p, hp, ?_⟩
  rw [rememberAt]
  by_cases httl : ttl ≤ 0
  · exact Or.inl ⟨if_pos httl, httl⟩
  · refine Or.inr ⟨not_le.mp httl, ?_⟩
    have hdue : StoreProcess.snapshotDue later { p with
        store := p.store.remember now key result ttl } = p.snapshotDue later := rfl
    have hentries : (p.store.remember now key result ttl).entries =
        (p.store.entries.store key ⟨result, now + ttl⟩).trim p.store.capacity := by
      rw [IdempotencyStore.remember, if_neg httl]
    rw [if_neg httl, StoreProcess.remember, if_neg httl, StoreProcess.maybeSnapshot,
      Bool.false_or, hdue, ← hentries]
    cases p.snapshotDue later with
    | false => exact Or.inl ⟨rfl, rfl, rfl⟩
    | true => exact Or.inr ⟨rfl, rfl, rfl⟩

theorem Consistent.of_unwritten (hs : Consistent s) (hfile : t.file = s.file)
    (hlive : ∀ k e, Live t.history k e → Live s.history k e)
    (hstatus : ∀ k e, t.history.latest k = some e → e.result.status ≠ []) : Consistent t where
  keys := by
    rw [hfile]
    exact hs.keys
  items := by
    rw [hfile]
    exact hs.items
  live := by
    rw [hfile]
    exact fun k e hl => hs.live k e (hlive k e hl)
  status := hstatus

theorem status_rememberHistory (hs : Consistent s) (hnamed : f.result.status ≠ []) {times : List ℚ}
    (hk : (rememberHistory i key f times p s.history).latest k = some e) :
    e.result.status ≠ [] := by
  simp only [rememberHistory, ResultHistory.evict, ResultHistory.remembered,
    ResultHistory.read, Function.update_apply] at hk
  split_ifs at hk
  · obtain rfl := Option.some.inj hk
    exact hnamed
  · exact hs.status k e hk

theorem Consistent.step (hs : Consistent s) (hnamed : named c) (hkeeps : Keeps c s)
    (h : step py c s = some t) : Consistent t := by
  cases c with
  | openStore capacity interval now =>
    obtain ⟨p, -, rfl⟩ := Option.map_eq_some_iff.mp h
    exact hs.of_unwritten rfl (fun k e hl => (live_read.mp (live_evict.mp hl)).1) hs.status
  | get i key now =>
    obtain ⟨p, -, rfl⟩ := Option.map_eq_some_iff.mp h
    exact hs.of_unwritten rfl (fun k e hl => (live_read.mp hl).1) hs.status
  | prune i now later =>
    obtain ⟨p, hp, hfile, hhistory⟩ := step_prune h
    exact Consistent.of_writes hfile hhistory (by simp [ResultHistory.read])
      (writes_prune.mpr (hkeeps p hp)) hs.status
  | remember i key result ttl now later =>
    have hstatus : (⟨result, now + ttl⟩ : ResultEntry).result.status ≠ [] := hnamed
    obtain ⟨p, hp, ⟨rfl, -⟩ | ⟨httl, ⟨-, hfile, hhistory⟩ | ⟨hdue, hfile, hhistory⟩⟩⟩ :=
      step_remember h
    · exact hs
    · refine hs.of_unwritten hfile ?_ ?_ <;> rw [hhistory]
      · exact fun k e hl => (live_rememberHistory.mp hl).2.1
      · exact fun k e => status_rememberHistory hs hstatus
    · exact Consistent.of_writes hfile hhistory
        (by simp [rememberHistory, ResultHistory.evict, ResultHistory.remembered,
          ResultHistory.read])
        (writes_remember.mpr (hkeeps p hp httl hdue))
        (fun k e => status_rememberHistory hs hstatus)

theorem keeps_of_found (hfound : ∀ t, SharedResults.step py c s = some t → Found py t) :
    Keeps c s := by
  cases c with
  | openStore capacity interval now => trivial
  | get i key now => trivial
  | prune i now later =>
    intro p hp
    have hstep : SharedResults.step py (.prune i now later) s = some _ :=
      congrArg (Option.map _) hp
    obtain ⟨q, hq, hfile, hhistory⟩ := step_prune hstep
    obtain rfl := Option.some.inj (hp.symm.trans hq)
    exact writes_prune.mp ((hfound _ hstep).writes hfile hhistory (by simp [ResultHistory.read]))
  | remember i key result ttl now later =>
    intro p hp httl hdue
    have hstep : SharedResults.step py (.remember i key result ttl now later) s = some _ :=
      congrArg (Option.map _) hp
    obtain ⟨q, hq, ⟨-, hle⟩ | ⟨-, ⟨hnot, -⟩ | ⟨-, hfile, hhistory⟩⟩⟩ := step_remember hstep
    · exact absurd hle (not_le.mpr httl)
    · obtain rfl := Option.some.inj (hp.symm.trans hq)
      rw [hdue] at hnot
      cases hnot
    · obtain rfl := Option.some.inj (hp.symm.trans hq)
      exact writes_remember.mp ((hfound _ hstep).writes hfile hhistory
        (by simp [rememberHistory, ResultHistory.evict, ResultHistory.remembered,
          ResultHistory.read]))

end calls

def start : SharedResults := {}

theorem consistent_start : Consistent start where
  keys := List.nodup_nil
  items := by simp [start]
  live := fun k e hl => absurd hl.stored List.not_mem_nil
  status := by simp [start]

theorem found_iff_kept (es : List StoreCall) (hnamed : ∀ c ∈ es, named c) :
    Runs.Always (step py) (Found py) es start ↔ Runs.Throughout (step py) Keeps es start := by
  constructor
  · intro hfound before c rest hsplit s hs
    exact keeps_of_found (fun t ht => hfound.next before rest hsplit hs ht)
  · rintro hkeeps before rest rfl t ht
    have hrun : Runs.Throughout (step py) (fun c s => named c ∧ Keeps c s) before start := by
      intro first c last hsplit s hs
      exact ⟨hnamed c (by simp [hsplit]), hkeeps.of_append first c last hsplit s hs⟩
    exact (hrun.induct (I := fun _ s => Consistent s) consistent_start
      (fun _ c s u _ hc hs hu => hs.step hc.1 hc.2 hu) ht).found

def ok : IdempotencyResult := { status := "ok".toList, output := Document.empty }

def first : ResultEntry := ⟨ok, 101 + 600⟩

def unused : StoreProcess :=
  { store := ⟨8, by decide, OrderedDict.empty⟩
    snapshotInterval := 30 }

def firstStored (others : List StoreProcess) (readings : List ℚ) : SharedResults :=
  { file := [snapshotItem "k1".toList first]
    processes :=
      { store := ⟨8, by decide, OrderedDict.empty.store "k1".toList first⟩
        snapshotInterval := 30
        lastSnapshot := 101 } :: others
    history :=
      { latest := Function.update (fun _ => none) "k1".toList (some first)
        stored := [("k1".toList, first)]
        readings := readings ++ [101, 101] } }

def oneStore : List StoreCall :=
  [.openStore 8 30 100, .remember 0 "k1".toList ok 600 101 101, .prune 0 140 140]

theorem oneStore_keeps : Runs.Throughout (step plainPy) Keeps oneStore start := by
  refine .cons trivial (fun s hs => .cons ?_ (fun t ht => .cons ?_ (fun _ _ => ?_)))
  · intro p hp _ _ k hk e hlive
    obtain rfl := Option.some.inj hs
    exact absurd hlive.stored List.not_mem_nil
  · obtain rfl := Option.some.inj hs
    obtain rfl : t = firstStored [] [100] := Option.some.inj (ht.symm.trans (by
      with_unfolding_all rfl))
    intro p hp k e hlive hfresh
    obtain rfl := Option.some.inj hp
    obtain ⟨rfl, rfl⟩ : k = "k1".toList ∧ e = first := by
      simpa [firstStored] using hlive.stored
    exact Or.inl rfl
  · exact Runs.throughout_nil

theorem oneStore_found : (∀ c ∈ oneStore, named c) ∧
    Runs.Always (step plainPy) (Found plainPy) oneStore start := by
  have hnamed : ∀ c ∈ oneStore, named c := by simp [oneStore, named, ok]
  exact ⟨hnamed, (found_iff_kept plainPy oneStore hnamed).mpr oneStore_keeps⟩

def twoStores : List StoreCall :=
  [.openStore 8 30 100, .openStore 8 30 100, .remember 0 "k1".toList ok 600 101 101,
    .remember 1 "k2".toList ok 600 102 102]

theorem twoStores_first : Runs.after (step plainPy) (twoStores.take 3) start =
    some (firstStored [unused] [100, 100]) := by
  with_unfolding_all rfl

theorem second_snapshot_discards : (∀ c ∈ twoStores, named c) ∧
    ¬ Runs.Always (step plainPy) (Found plainPy) twoStores start := by
  constructor
  · simp [twoStores, named, ok]
  · intro hfound
    have hkeeps := keeps_of_found (fun t ht => hfound.next (twoStores.take 3) [] rfl
      twoStores_first ht)
    have hlive : Live (firstStored [unused] [100, 100]).history "k1".toList first :=
      ⟨rfl, List.mem_cons_self, List.not_mem_nil, by decide +kernel⟩
    rcases hkeeps unused rfl (by decide +kernel) (by decide +kernel) "k1".toList (by decide) first
      hlive (by decide +kernel) with hheld | hevicted
    · cases hheld
    · exact absurd hevicted List.not_mem_nil

end SharedResults

end TraceMind.Queue
