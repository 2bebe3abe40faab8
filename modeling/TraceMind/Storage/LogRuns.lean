import TraceMind.Storage.Binlog
import TraceMind.Foundation.SortedMap
import TraceMind.Foundation.Naming
import TraceMind.Foundation.Runs

namespace TraceMind.Storage

abbrev Directory := SortedMap Str Bytes

def fileOf (dir : Directory) (path : Str) : Bytes := (dir.get? path).getD []

def suffix : Str := ".tmbl".toList

def segmentName (ts : ℕ) : Str := "events-".toList ++ (Nat.toDigits 10 ts ++ suffix)

structure BinaryLogWriter where
  path : Str
  segBytes : ℤ
  size : ℕ := 0

def openNewSegment (ts : ℕ) (segBytes : ℤ) (dir : Directory) : BinaryLogWriter × Directory :=
  ({ path := segmentName ts, segBytes },
    if dir.contains (segmentName ts) then dir else dir.insert (segmentName ts) [])

def BinaryLogWriter.appendMany (ts : ℕ) (records : List Record) (dir : Directory)
    (w : BinaryLogWriter) : BinaryLogWriter × Directory :=
  let blob := records.flatMap frameOf
  let dir := dir.insert w.path (fileOf dir w.path ++ blob)
  let w := { w with size := w.size + blob.length }
  if w.segBytes ≤ w.size then openNewSegment ts w.segBytes dir else (w, dir)

def scanFiles : List Bytes → List Record × Option ReadError
  | [] => ([], none)
  | data :: files =>
    match (scanSegment data).2 with
    | some e => ((scanSegment data).1, some e)
    | none => ((scanSegment data).1 ++ (scanFiles files).1, (scanFiles files).2)

def scan (dir : Directory) : List Record × Option ReadError :=
  scanFiles ((dir.entries.filter (fun e => suffix.isSuffixOf e.1)).map Prod.snd)

structure Mark where
  record : Record
  path : Str
  stop : ℕ

def marksFrom (path : Str) : ℕ → List Record → List Mark
  | _, [] => []
  | start, r :: records =>
    ⟨r, path, start + (frameOf r).length⟩ :: marksFrom path (start + (frameOf r).length) records

structure Log where
  dir : Directory := SortedMap.empty
  writer : Option BinaryLogWriter := none
  clock : ℕ := 0
  written : List Mark := []

inductive LogEvent where
  | start (ts : ℕ) (segBytes : ℤ)
  | append (ts : ℕ) (records : List Record)
  | close
  | crash (kept : ℕ)

namespace Log

def started (ts : ℕ) (segBytes : ℤ) (s : Log) : Log :=
  let o := openNewSegment ts segBytes s.dir
  { s with dir := o.2, writer := some o.1, clock := ts }

def appended (ts : ℕ) (records : List Record) (w : BinaryLogWriter) (s : Log) : Log :=
  let o := w.appendMany ts records s.dir
  { dir := o.2, writer := some o.1, clock := ts
    written := s.written ++ marksFrom w.path (fileOf s.dir w.path).length records }

def crashed (kept : ℕ) (w : BinaryLogWriter) (s : Log) : Log :=
  { s with
    dir := s.dir.insert w.path ((fileOf s.dir w.path).take kept)
    writer := none
    written := s.written.filter (fun m => m.path ≠ w.path ∨ m.stop ≤ kept) }

def step : LogEvent → Log → Option Log
  | .start ts segBytes, s =>
    match s.writer with
    | some _ => none
    | none => some (s.started ts segBytes)
  | .append ts records, s => s.writer.map (fun w => s.appended ts records w)
  | .close, s => some { s with writer := none }
  | .crash kept, s => s.writer.map (fun w => s.crashed kept w)

def tail (path : Str) (s : Log) : Bytes :=
  (fileOf s.dir path).drop
    (((s.written.filter (fun m => m.path = path)).getLast?.map Mark.stop).getD 0)

def Clocked (width : ℕ) (e : LogEvent) (s : Log) : Prop :=
  match e with
  | .start ts _ | .append ts _ => s.clock ≤ ts ∧ (Nat.toDigits 10 ts).length = width
  | _ => True

def Careful (e : LogEvent) (s : Log) : Prop :=
  match e with
  | .append _ records => ∀ w, s.writer = some w → records = [] ∨ s.tail w.path = []
  | .crash kept => ∀ w, s.writer = some w → Ends ((s.crashed kept w).tail w.path)
  | _ => True

end Log

section frames

variable {r : Record} {records : List Record} {t : Bytes}

theorem varintDecode_varintEncode (n : ℕ) (rest : Bytes) :
    varintDecode 0 0 (varintEncode n ++ rest) = some (n, rest) := by
  rw [varintDecode_start, varintEncode_eq, Varint.decode_encode]

theorem readBody_bodyOf (r : Record) : readBody (bodyOf r) = .ok r := by
  rw [readBody, bodyOf, List.append_assoc, varintDecode_varintEncode]
  dsimp only
  rw [List.take_left' rfl, List.drop_left' rfl, decodeUtf8_encodeUtf8]

theorem isFrame_frameOf (r : Record) : IsFrame (frameOf r) (bodyOf r) := by
  refine ⟨ver, varintEncode (bodyOf r).length, toBytesBig (crc32 (checkedOf (bodyOf r))), ?_, ?_,
    rfl, ?_⟩
  · simp [frameOf, checkedOf]
  · have h := varintDecode_varintEncode (bodyOf r).length []
    rwa [List.append_nil] at h
  · rw [fromBytesBig_toBytesBig]
    simp [checkedOf]

def Torn (t : Bytes) : Prop := ∃ r, t <+: frameOf r ∧ t.length < (frameOf r).length

theorem torn_nil : Torn [] :=
  ⟨([], []), List.nil_prefix, List.length_pos_of_ne_nil (by simp [frameOf, checkedOf, magic])⟩

theorem Torn.unframed (h : Torn t) : Framing.Unframed IsFrame t := by
  obtain ⟨r, ⟨more, hmore⟩, hlt⟩ := h
  rintro f body rest hf rfl
  have heq : frameOf r ++ [] = f ++ (rest ++ more) := by
    rw [List.append_nil, ← hmore, List.append_assoc]
  obtain ⟨rfl, -⟩ := delimited_isFrame.unique _ _ _ _ _ _ (isFrame_frameOf r) hf heq
  rw [List.length_append] at hlt
  omega

theorem scanSegment_frames (records : List Record) (ht : Torn t) (he : Ends t) :
    scanSegment (records.flatMap frameOf ++ t) = (records, none) := by
  induction records with
  | nil => exact scanSegment_none (readFrame_ends ht.unframed he)
  | cons r records ih =>
    have hframe := readFrame_frame (isFrame_frameOf r) (records.flatMap frameOf ++ t)
    rw [readBody_bodyOf] at hframe
    rw [List.flatMap_cons, List.append_assoc, scanSegment_some hframe, ih]

theorem scanFiles_all {files : List (List Record × Bytes)}
    (h : ∀ x ∈ files, scanSegment x.2 = (x.1, none)) :
    scanFiles (files.map Prod.snd) = (files.flatMap Prod.fst, none) := by
  induction files with
  | nil => rfl
  | cons x files ih =>
    obtain ⟨hx, hfiles⟩ := List.forall_mem_cons.mp h
    rw [List.map_cons, scanFiles, hx, ih hfiles, List.flatMap_cons]

end frames

section marks

variable {path : Str} {records : List Record} {m : Mark} {t : Bytes}

theorem marksFrom_append (path : Str) (start : ℕ) (rs records : List Record) :
    marksFrom path start (rs ++ records) = marksFrom path start rs ++
      marksFrom path (start + (rs.flatMap frameOf).length) records := by
  induction rs generalizing start with
  | nil => rfl
  | cons r rs ih =>
    rw [List.cons_append, marksFrom, marksFrom, ih, List.cons_append, List.flatMap_cons,
      List.length_append, Nat.add_assoc]

theorem map_marksFrom (path : Str) (start : ℕ) (records : List Record) :
    (marksFrom path start records).map Mark.record = records := by
  induction records generalizing start with
  | nil => rfl
  | cons r records ih => rw [marksFrom, List.map_cons, ih]

theorem mem_marksFrom {start : ℕ} (h : m ∈ marksFrom path start records) :
    m.path = path ∧ start < m.stop := by
  induction records generalizing start with
  | nil => cases h
  | cons r records ih =>
    have hpos := List.length_pos_of_ne_nil
      (delimited_isFrame.ne_nil _ _ (isFrame_frameOf r))
    rcases List.mem_cons.mp h with rfl | h
    · exact ⟨rfl, Nat.lt_add_of_pos_right hpos⟩
    · obtain ⟨hpath, hstop⟩ := ih h
      exact ⟨hpath, by omega⟩

theorem getLast_marksFrom (path : Str) (records : List Record) :
    ((marksFrom path 0 records).getLast?.map Mark.stop).getD 0 =
      (records.flatMap frameOf).length := by
  induction records using List.reverseRecOn with
  | nil => rfl
  | append_singleton records r _ =>
    rw [marksFrom_append, marksFrom, marksFrom, List.getLast?_append_cons]
    simp

theorem Torn.take (h : Torn t) (kept : ℕ) : Torn (t.take kept) := by
  obtain ⟨r, hpre, hlt⟩ := h
  exact ⟨r, (List.take_prefix kept t).trans hpre, (List.length_take_le' kept t).trans_lt hlt⟩

theorem take_frames (records : List Record) (ht : Torn t) (path : Str) (start kept : ℕ) :
    ∃ rs t', Torn t' ∧
      (records.flatMap frameOf ++ t).take kept = rs.flatMap frameOf ++ t' ∧
      (marksFrom path start records).filter (fun m => m.stop ≤ start + kept) =
        marksFrom path start rs := by
  induction records generalizing start kept with
  | nil => exact ⟨[], t.take kept, ht.take kept, rfl, rfl⟩
  | cons r records ih =>
    rw [List.flatMap_cons, List.append_assoc, List.take_append, marksFrom]
    rcases le_or_gt (frameOf r).length kept with hle | hlt
    · obtain ⟨rs, t', ht', htake, hmarks⟩ :=
        ih (start + (frameOf r).length) (kept - (frameOf r).length)
      refine ⟨r :: rs, t', ht', ?_, ?_⟩
      · rw [List.take_of_length_le hle, htake, List.flatMap_cons, List.append_assoc]
      · have hstop : start + (frameOf r).length + (kept - (frameOf r).length) = start + kept := by
          omega
        rw [hstop] at hmarks
        rw [List.filter_cons_of_pos (by simpa using hle), hmarks, marksFrom]
    · refine ⟨[], (frameOf r).take kept, ⟨r, List.take_prefix .., ?_⟩, ?_, ?_⟩
      · rw [List.length_take_of_le hlt.le]
        exact hlt
      · rw [Nat.sub_eq_zero_of_le hlt.le, List.take_zero, List.append_nil]
        rfl
      · refine List.filter_eq_nil_iff.mpr (fun m hm => ?_)
        rcases List.mem_cons.mp hm with rfl | hm
        · simpa using hlt
        · have hstop := (mem_marksFrom hm).2
          simp only [decide_eq_true_eq]
          omega

end marks

section names

variable {width a b : ℕ}

theorem padded_of_width (ha : (Nat.toDigits 10 a).length = width) :
    Digits.padded width a = Nat.toDigits 10 a := by
  rw [Digits.padded, ha, Nat.sub_self]
  rfl

theorem segmentName_lt (ha : (Nat.toDigits 10 a).length = width)
    (hb : (Nat.toDigits 10 b).length = width) : segmentName a < segmentName b ↔ a < b := by
  have hpos : 0 < width := ha ▸ Nat.length_toDigits_pos
  have hbound {n : ℕ} (hn : (Nat.toDigits 10 n).length = width) : n < 10 ^ width :=
    (Nat.length_toDigits_le_iff (by decide) hpos).mp hn.le
  have hpadded := Digits.padded_lt_iff hpos (hbound ha) (hbound hb)
  rw [padded_of_width ha, padded_of_width hb] at hpadded
  have hprefix := Digits.append_lt_append_iff (a := "events-".toList) (b := "events-".toList)
    (s := Nat.toDigits 10 a ++ suffix) (t := Nat.toDigits 10 b ++ suffix) rfl
  have hdigits := Digits.append_lt_append_iff (s := suffix) (t := suffix) (ha.trans hb.symm)
  refine hprefix.trans ?_
  simp only [lt_self_iff_false, false_or, true_and, and_false, or_false, hdigits, hpadded]

theorem segmentName_suffix (ts : ℕ) : suffix.isSuffixOf (segmentName ts) = true := by
  refine List.isSuffixOf_iff_suffix.mpr ⟨"events-".toList ++ Nat.toDigits 10 ts, ?_⟩
  exact List.append_assoc ..

end names

section chapters

structure Chapter where
  name : Str
  records : List Record := []
  tail : Bytes := []

namespace Chapter

def content (c : Chapter) : Bytes := c.records.flatMap frameOf ++ c.tail

def entry (c : Chapter) : Str × Bytes := (c.name, c.content)

def marks (c : Chapter) : List Mark := marksFrom c.name 0 c.records

end Chapter

structure Told (P : Bytes → Prop) (width : ℕ) (s : Log) (cs : List Chapter) : Prop where
  entries : s.dir.entries = cs.map Chapter.entry
  written : s.written = cs.flatMap Chapter.marks
  tails : ∀ c ∈ cs, P c.tail
  names : ∀ c ∈ cs, ∃ ts ≤ s.clock, (Nat.toDigits 10 ts).length = width ∧ c.name = segmentName ts
  current : ∀ w, s.writer = some w → ∃ front c, cs = front ++ [c] ∧ c.name = w.path

variable {P : Bytes → Prop} {width ts : ℕ} {s s' : Log} {cs front : List Chapter} {c : Chapter}
  {w : BinaryLogWriter}

theorem Told.sorted (h : Told P width s cs) : cs.Pairwise (fun a b => a.name < b.name) := by
  have hsorted := s.dir.sorted
  rw [h.entries, List.pairwise_map] at hsorted
  exact hsorted

theorem Told.front_lt (h : Told P width s (front ++ [c])) : ∀ e ∈ front, e.name < c.name :=
  fun e he => (List.pairwise_append.mp h.sorted).2.2 e he c (List.mem_singleton_self c)

theorem Told.fileOf (h : Told P width s cs) (hc : c ∈ cs) : fileOf s.dir c.name = c.content := by
  have hget : s.dir.get? c.name = some c.content := by
    rw [SortedMap.get?_eq_some_iff, h.entries]
    exact List.mem_map_of_mem hc
  rw [Storage.fileOf, hget, Option.getD_some]

theorem Told.insert (h : Told P width s (front ++ [c])) (c' : Chapter) (hname : c'.name = c.name) :
    (s.dir.insert c.name c'.content).entries = (front ++ [c']).map Chapter.entry := by
  have hlt : ∀ e ∈ front.map Chapter.entry, e.1 < c.name := by
    intro e he
    obtain ⟨x, hx, rfl⟩ := List.mem_map.mp he
    exact h.front_lt x hx
  have hentry : c'.entry = (c.name, c'.content) := by rw [Chapter.entry, hname]
  change SortedMap.insertEntry c.name c'.content s.dir.entries = _
  rw [h.entries, List.map_append, SortedMap.insertEntry_append hlt, List.map_append,
    List.map_singleton, List.map_singleton, hentry, Chapter.entry, SortedMap.insertEntry,
    if_neg (lt_irrefl _), if_pos rfl]

theorem Told.marks_front (h : Told P width s (front ++ [c])) {m : Mark}
    (hm : m ∈ front.flatMap Chapter.marks) : m.path ≠ c.name := by
  obtain ⟨e, he, hme⟩ := List.mem_flatMap.mp hm
  rw [(mem_marksFrom hme).1]
  exact (h.front_lt e he).ne

theorem Told.filter_written (h : Told P width s (front ++ [c])) :
    s.written.filter (fun m => m.path = c.name) = c.marks := by
  rw [h.written, List.flatMap_append, List.flatMap_singleton, List.filter_append,
    List.filter_eq_nil_iff.mpr (fun m hm => by simpa using h.marks_front hm), List.nil_append]
  exact List.filter_eq_self.mpr (fun m hm => by simpa using (mem_marksFrom hm).1)

theorem Told.tail (h : Told P width s (front ++ [c])) : s.tail c.name = c.tail := by
  have hstop : (c.marks.getLast?.map Mark.stop).getD 0 = (c.records.flatMap frameOf).length :=
    getLast_marksFrom c.name c.records
  have hfile := h.fileOf (List.mem_append_right front (List.mem_singleton_self c))
  rw [Log.tail, h.filter_written, hstop, hfile, Chapter.content, List.drop_left' rfl]

theorem Told.extended {records : List Record} (h : Told P width s (front ++ [c]))
    (hc : c.name = w.path) (hwhole : records = [] ∨ c.tail = [])
    (hdir : s'.dir = s.dir.insert w.path (Storage.fileOf s.dir w.path ++ records.flatMap frameOf))
    (hwritten : s'.written =
      s.written ++ marksFrom w.path (Storage.fileOf s.dir w.path).length records)
    (hclock : s.clock ≤ s'.clock) (hwriter : ∀ w', s'.writer = some w' → w'.path = w.path) :
    Told P width s' (front ++ [{ c with records := c.records ++ records }]) := by
  have hlast := List.mem_append_right front (List.mem_singleton_self c)
  have hfile : Storage.fileOf s.dir w.path = c.content := hc ▸ h.fileOf hlast
  have hcontent : c.content ++ records.flatMap frameOf =
      Chapter.content { c with records := c.records ++ records } := by
    simp only [Chapter.content, List.flatMap_append, List.append_assoc]
    rcases hwhole with rfl | htail
    · simp
    · rw [htail, List.append_nil, List.nil_append]
  have hmarks : c.marks ++ marksFrom w.path c.content.length records =
      Chapter.marks { c with records := c.records ++ records } := by
    rw [Chapter.marks, Chapter.marks, marksFrom_append, Nat.zero_add, hc]
    rcases hwhole with rfl | htail
    · rfl
    · rw [Chapter.content, htail, List.append_nil]
  refine ⟨?_, ?_, ?_, ?_, fun w' hw' => ⟨front, _, rfl, hc.trans (hwriter w' hw').symm⟩⟩
  · rw [hdir, hfile, hcontent, ← hc]
    exact h.insert _ rfl
  · rw [hwritten, hfile, h.written, List.flatMap_append, List.flatMap_append,
      List.flatMap_singleton, List.flatMap_singleton, List.append_assoc, hmarks]
  · intro e he
    rcases List.mem_append.mp he with he | he
    · exact h.tails e (List.mem_append_left _ he)
    · obtain rfl := List.mem_singleton.mp he
      exact h.tails c hlast
  · intro e he
    have hold : ∃ x ∈ front ++ [c], x.name = e.name := by
      rcases List.mem_append.mp he with he | he
      · exact ⟨e, List.mem_append_left _ he, rfl⟩
      · obtain rfl := List.mem_singleton.mp he
        exact ⟨c, hlast, rfl⟩
    obtain ⟨x, hx, hname⟩ := hold
    obtain ⟨ts, hts, hw, hxname⟩ := h.names x hx
    exact ⟨ts, hts.trans hclock, hw, hname.symm.trans hxname⟩

theorem Told.names_le (h : Told P width s cs) (hts : s.clock ≤ ts)
    (hw : (Nat.toDigits 10 ts).length = width) : ∀ c ∈ cs, c.name ≤ segmentName ts := by
  intro c hc
  obtain ⟨ts', hle, hw', hname⟩ := h.names c hc
  rw [hname]
  rcases (hle.trans hts).lt_or_eq with hlt | rfl
  · exact ((segmentName_lt hw' hw).mpr hlt).le
  · exact le_refl _

theorem Told.started (h : Told P width s cs) (hnil : P []) (hts : s.clock ≤ ts)
    (hw : (Nat.toDigits 10 ts).length = width) (segBytes : ℤ) :
    ∃ cs', Told P width (s.started ts segBytes) cs' := by
  have hle := h.names_le hts hw
  by_cases hmem : s.dir.contains (segmentName ts) = true
  · have hkeys : segmentName ts ∈ s.dir.keys := SortedMap.mem_keys_iff.mpr hmem
    rw [SortedMap.keys, h.entries, List.map_map] at hkeys
    obtain ⟨c, hc, hname⟩ := List.mem_map.mp hkeys
    obtain ⟨front, back, rfl⟩ := List.append_of_mem hc
    have hback : back = [] := by
      refine List.eq_nil_iff_forall_not_mem.mpr (fun e he => ?_)
      have hlt : c.name < e.name :=
        (List.pairwise_cons.mp (List.pairwise_append.mp h.sorted).2.1).1 e he
      have hmax := hle e (List.mem_append_right _ (List.mem_cons_of_mem _ he))
      exact absurd (hname ▸ hlt) hmax.not_gt
    subst hback
    refine ⟨front ++ [c], ?_, h.written, h.tails, fun e he => ?_, fun w hw' => ?_⟩
    · rw [Log.started, openNewSegment]
      dsimp only
      rw [if_pos hmem, h.entries]
    · obtain ⟨ts', hts', hrest⟩ := h.names e he
      exact ⟨ts', hts'.trans hts, hrest⟩
    · obtain rfl := Option.some.inj hw'
      exact ⟨front, c, rfl, hname⟩
  · have hlt : ∀ e ∈ cs.map Chapter.entry, e.1 < segmentName ts := by
      intro e he
      obtain ⟨c, hc, rfl⟩ := List.mem_map.mp he
      refine lt_of_le_of_ne (hle c hc) (fun heq => hmem ?_)
      rw [← SortedMap.mem_keys_iff, SortedMap.keys, h.entries, List.map_map]
      exact List.mem_map.mpr ⟨c, hc, heq⟩
    refine ⟨cs ++ [{ name := segmentName ts }], ?_, ?_, ?_, ?_, fun w hw' => ?_⟩
    · rw [Log.started, openNewSegment]
      dsimp only
      rw [if_neg hmem]
      change SortedMap.insertEntry (segmentName ts) [] s.dir.entries = _
      have hend := SortedMap.insertEntry_append (v := ([] : Bytes)) hlt []
      rw [List.append_nil] at hend
      rw [h.entries, hend, List.map_append]
      rfl
    · rw [List.flatMap_append, List.flatMap_singleton]
      exact h.written.trans (List.append_nil _).symm
    · intro e he
      rcases List.mem_append.mp he with he | he
      · exact h.tails e he
      · obtain rfl := List.mem_singleton.mp he
        exact hnil
    · intro e he
      rcases List.mem_append.mp he with he | he
      · obtain ⟨ts', hts', hrest⟩ := h.names e he
        exact ⟨ts', hts'.trans hts, hrest⟩
      · obtain rfl := List.mem_singleton.mp he
        exact ⟨ts, le_refl ts, hw, rfl⟩
    · obtain rfl := Option.some.inj hw'
      exact ⟨cs, _, rfl, rfl⟩

theorem Told.appended {records : List Record} (h : Told P width s (front ++ [c]))
    (hwriter : s.writer = some w) (hc : c.name = w.path) (hwhole : records = [] ∨ c.tail = [])
    (hnil : P []) (hts : s.clock ≤ ts) (hw : (Nat.toDigits 10 ts).length = width) :
    ∃ cs', Told P width (s.appended ts records w) cs' := by
  unfold Log.appended BinaryLogWriter.appendMany
  dsimp only
  split_ifs
  · have hext : Told P width
        { s with
          dir := s.dir.insert w.path (Storage.fileOf s.dir w.path ++ records.flatMap frameOf)
          written := s.written ++ marksFrom w.path (Storage.fileOf s.dir w.path).length records }
        (front ++ [{ c with records := c.records ++ records }]) :=
      h.extended hc hwhole rfl rfl (le_refl _)
        (fun w' hw' => by rw [Option.some.inj (hwriter.symm.trans hw')])
    exact hext.started hnil hts hw w.segBytes
  · refine ⟨_, h.extended hc hwhole rfl rfl hts (fun w' hw' => ?_)⟩
    obtain rfl := Option.some.inj hw'
    rfl

theorem Told.closed (h : Told P width s cs) : Told P width { s with writer := none } cs :=
  ⟨h.entries, h.written, h.tails, h.names, fun w hw => by cases hw⟩

theorem Told.step {e : LogEvent} (h : Told P width s cs) (hnil : P [])
    (hcrash : ∀ kept, e ≠ .crash kept) (hclocked : Log.Clocked width e s)
    (hcareful : Log.Careful e s) (hstep : Log.step e s = some s') : ∃ cs', Told P width s' cs' := by
  cases e with
  | start ts segBytes =>
    simp only [Log.step] at hstep
    split at hstep
    · cases hstep
    · obtain rfl := Option.some.inj hstep
      exact h.started hnil hclocked.1 hclocked.2 segBytes
  | append ts records =>
    obtain ⟨w, hw, rfl⟩ := Option.map_eq_some_iff.mp hstep
    obtain ⟨front, c, rfl, hc⟩ := h.current w hw
    have hwhole := hcareful w hw
    rw [← hc, h.tail] at hwhole
    exact h.appended hw hc hwhole hnil hclocked.1 hclocked.2
  | close =>
    obtain rfl := Option.some.inj hstep
    exact ⟨cs, h.closed⟩
  | crash kept => exact absurd rfl (hcrash kept)

def Quiet (t : Bytes) : Prop := Torn t ∧ Ends t

theorem quiet_nil : Quiet [] := ⟨torn_nil, Or.inl (by decide)⟩

theorem Told.crashed (h : Told Torn width s (front ++ [c])) (hc : c.name = w.path) (kept : ℕ) :
    ∃ rs t, Told Torn width (s.crashed kept w)
      (front ++ [{ name := c.name, records := rs, tail := t }]) := by
  have hlast := List.mem_append_right front (List.mem_singleton_self c)
  have hfile : Storage.fileOf s.dir w.path = c.content := hc ▸ h.fileOf hlast
  obtain ⟨rs, t, ht, htake, hmarks⟩ := take_frames c.records (h.tails c hlast) c.name 0 kept
  refine ⟨rs, t, ?_, ?_, fun e he => ?_, fun e he => ?_, fun w' hw' => by cases hw'⟩
  · rw [Log.crashed, hfile, Chapter.content, htake, ← hc]
    exact h.insert { name := c.name, records := rs, tail := t } rfl
  · have hfront : (front.flatMap Chapter.marks).filter
        (fun m => m.path ≠ c.name ∨ m.stop ≤ kept) = front.flatMap Chapter.marks :=
      List.filter_eq_self.mpr (fun m hm => by simp [h.marks_front hm])
    have hback : c.marks.filter (fun m => m.path ≠ c.name ∨ m.stop ≤ kept) =
        marksFrom c.name 0 rs := by
      rw [← hmarks, Nat.zero_add]
      exact List.filter_congr (fun m hm => by simp [(mem_marksFrom hm).1])
    rw [Log.crashed, ← hc, h.written, List.flatMap_append, List.filter_append,
      List.flatMap_singleton, hfront, hback, List.flatMap_append, List.flatMap_singleton]
    rfl
  · rcases List.mem_append.mp he with he | he
    · exact h.tails e (List.mem_append_left _ he)
    · obtain rfl := List.mem_singleton.mp he
      exact ht
  · rcases List.mem_append.mp he with he | he
    · exact h.names e (List.mem_append_left _ he)
    · obtain rfl := List.mem_singleton.mp he
      exact h.names c hlast

theorem Told.step_careful {e : LogEvent} (h : Told Quiet width s cs)
    (hclocked : Log.Clocked width e s) (hcareful : Log.Careful e s)
    (hstep : Log.step e s = some s') : ∃ cs', Told Quiet width s' cs' := by
  by_cases hcrash : ∃ kept, e = .crash kept
  · obtain ⟨kept, rfl⟩ := hcrash
    obtain ⟨w, hw, rfl⟩ := Option.map_eq_some_iff.mp hstep
    obtain ⟨front, c, rfl, hc⟩ := h.current w hw
    have htorn : Told Torn width s (front ++ [c]) :=
      { h with tails := fun e he => (h.tails e he).1 }
    obtain ⟨rs, t, hcrashed⟩ := htorn.crashed hc kept
    have hends := hcareful w hw
    rw [← hc, hcrashed.tail] at hends
    refine ⟨_, { hcrashed with tails := fun e he => ⟨hcrashed.tails e he, ?_⟩ }⟩
    rcases List.mem_append.mp he with he | he
    · exact (h.tails e (List.mem_append_left _ he)).2
    · obtain rfl := List.mem_singleton.mp he
      exact hends
  · exact h.step quiet_nil (fun kept he => hcrash ⟨kept, he⟩) hclocked hcareful hstep

theorem Told.scan (h : Told Quiet width s cs) :
    scan s.dir = (s.written.map Mark.record, none) := by
  have hall : (cs.map Chapter.entry).filter (fun e => suffix.isSuffixOf e.1) =
      cs.map Chapter.entry := by
    refine List.filter_eq_self.mpr (fun e he => ?_)
    obtain ⟨c, hc, rfl⟩ := List.mem_map.mp he
    obtain ⟨ts, -, -, hname⟩ := h.names c hc
    rw [Chapter.entry, hname, segmentName_suffix]
  have hfiles : ∀ x ∈ cs.map (fun c => (c.records, c.content)),
      scanSegment x.2 = (x.1, none) := by
    intro x hx
    obtain ⟨c, hc, rfl⟩ := List.mem_map.mp hx
    exact scanSegment_frames c.records (h.tails c hc).1 (h.tails c hc).2
  have hscan := scanFiles_all hfiles
  have hrecords : s.written.map Mark.record = cs.flatMap Chapter.records := by
    rw [h.written, List.map_flatMap]
    exact List.flatMap_congr (fun c _ => map_marksFrom c.name 0 c.records)
  rw [List.map_map, List.flatMap_map] at hscan
  rw [Storage.scan, h.entries, hall, List.map_map, hrecords]
  exact hscan

end chapters

section runs

variable {width : ℕ} {es : List LogEvent} {s : Log}

theorem told_fresh (P : Bytes → Prop) (width : ℕ) : Told P width {} [] :=
  ⟨rfl, rfl, fun c hc => (by cases hc), fun c hc => (by cases hc), fun w hw => by cases hw⟩

theorem told_careful (hclock : Runs.Throughout Log.step (Log.Clocked width) es {})
    (hcareful : Runs.Throughout Log.step Log.Careful es {})
    (hafter : Runs.after Log.step es {} = some s) : ∃ cs, Told Quiet width s cs := by
  have hboth : Runs.Throughout Log.step
      (fun e s => Log.Clocked width e s ∧ Log.Careful e s) es {} :=
    fun before e rest hsplit t ht =>
      ⟨hclock before e rest hsplit t ht, hcareful before e rest hsplit t ht⟩
  refine hboth.induct (I := fun _ s => ∃ cs, Told Quiet width s cs) ⟨[], told_fresh Quiet width⟩
    (fun _ e t u _ he htold hstep => ?_) hafter
  obtain ⟨cs, hcs⟩ := htold
  exact hcs.step_careful he.1 he.2 hstep

theorem scan_careful (hclock : Runs.Throughout Log.step (Log.Clocked width) es {})
    (hcareful : Runs.Throughout Log.step Log.Careful es {})
    (hafter : Runs.after Log.step es {} = some s) :
    scan s.dir = (s.written.map Mark.record, none) := by
  obtain ⟨cs, hcs⟩ := told_careful hclock hcareful hafter
  exact hcs.scan

def tornRecord : Record := (['a'], [0x78])

def newRecord : Record := (['b'], [0x79])

def reopened (ts : ℕ) : List LogEvent :=
  [.start 5 1000, .append 5 [tornRecord], .crash 3, .start ts 1000, .append ts [newRecord], .close]

theorem clocked_reopened {ts : ℕ} (hts : 5 ≤ ts) (hw : (Nat.toDigits 10 ts).length = 1) :
    Runs.Throughout Log.step (Log.Clocked 1) (reopened ts) {} := by
  refine .cons ⟨by decide, by decide⟩ (fun s₁ h₁ => ?_)
  obtain rfl := Option.some.inj h₁
  refine .cons ⟨le_refl 5, by decide⟩ (fun s₂ h₂ => ?_)
  obtain rfl := Option.some.inj h₂
  refine .cons trivial (fun s₃ h₃ => ?_)
  obtain rfl := Option.some.inj h₃
  refine .cons ⟨hts, hw⟩ (fun s₄ h₄ => ?_)
  obtain rfl := Option.some.inj h₄
  refine .cons ⟨le_refl ts, hw⟩ (fun s₅ h₅ => ?_)
  refine .cons trivial (fun s₆ h₆ => ?_)
  exact Runs.throughout_nil

theorem torn_tail_hides : ∃ s, Runs.Throughout Log.step (Log.Clocked 1) (reopened 5) {} ∧
    Runs.after Log.step (reopened 5) {} = some s ∧ s.written.map Mark.record = [newRecord] ∧
      scan s.dir = ([], none) := by
  have hsome : (Runs.after Log.step (reopened 5) {}).isSome = true := by decide +kernel
  obtain ⟨s, hs⟩ := Option.isSome_iff_exists.mp hsome
  have hwritten : (Runs.after Log.step (reopened 5) {}).map (fun s => s.written.map Mark.record) =
      some [newRecord] := by
    decide +kernel
  have hfiles : (Runs.after Log.step (reopened 5) {}).map (fun s => s.dir.entries) =
      some [(segmentName 5, (frameOf tornRecord).take 3 ++ frameOf newRecord)] := by
    decide +kernel
  rw [hs, Option.map_some, Option.some.injEq] at hwritten hfiles
  refine ⟨s, clocked_reopened (le_refl 5) (by decide), hs, hwritten, ?_⟩
  have hend : readFrame ((frameOf tornRecord).take 3 ++ frameOf newRecord) = .ok none := by
    rw [readFrame, if_neg (by decide +kernel), if_pos (by decide +kernel)]
  have hkeep : s.dir.entries.filter (fun e => suffix.isSuffixOf e.1) = s.dir.entries := by
    refine List.filter_eq_self.mpr (fun e he => ?_)
    rw [hfiles] at he
    obtain rfl := List.mem_singleton.mp he
    exact segmentName_suffix 5
  rw [scan, hkeep, hfiles, List.map_singleton, scanFiles, scanSegment_none hend]
  rfl

theorem scan_careful_reopened :
    (Runs.after Log.step (reopened 6) {}).map (fun s => scan s.dir) = some ([newRecord], none) := by
  have hsome : (Runs.after Log.step (reopened 6) {}).isSome = true := by decide +kernel
  obtain ⟨s, hs⟩ := Option.isSome_iff_exists.mp hsome
  have hwritten : (Runs.after Log.step (reopened 6) {}).map (fun s => s.written.map Mark.record) =
      some [newRecord] := by
    decide +kernel
  have hcareful : Runs.Throughout Log.step Log.Careful (reopened 6) {} := by
    refine .cons trivial (fun s₁ h₁ => ?_)
    obtain rfl := Option.some.inj h₁
    refine .cons (fun w hw => Or.inr ?_) (fun s₂ h₂ => ?_)
    · obtain rfl := Option.some.inj hw
      decide +kernel
    obtain rfl := Option.some.inj h₂
    refine .cons (fun w hw => ?_) (fun s₃ h₃ => ?_)
    · obtain rfl := Option.some.inj hw
      decide +kernel
    obtain rfl := Option.some.inj h₃
    refine .cons trivial (fun s₄ h₄ => ?_)
    obtain rfl := Option.some.inj h₄
    refine .cons (fun w hw => Or.inr ?_) (fun s₅ h₅ => ?_)
    · obtain rfl := Option.some.inj hw
      decide +kernel
    refine .cons trivial (fun s₆ h₆ => ?_)
    exact Runs.throughout_nil
  rw [hs, Option.map_some, Option.some.injEq] at hwritten
  rw [hs, Option.map_some, scan_careful (clocked_reopened (by decide) (by decide)) hcareful hs,
    hwritten]

end runs

end TraceMind.Storage
