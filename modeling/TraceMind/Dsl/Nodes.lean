import TraceMind.Dsl.Ir

namespace TraceMind.Dsl

namespace RawTree

mutual

def valueNodes : RawTree → List ℕ
  | .scalar _ _ => []
  | .sequence items location => itemNodes location.column items
  | .mapping entries _ => entryNodes entries

-- The item of a list that opens a mapping on its own line stands in the column of the list.
def itemNodes (column : ℕ) : List RawTree → List ℕ
  | [] => []
  | .scalar _ location :: items => location.line :: itemNodes column items
  | .sequence nested location :: items =>
    location.line :: (itemNodes location.column nested ++ itemNodes column items)
  | .mapping entries location :: items =>
    (if location.column = column then entryNodes entries
      else location.line :: entryNodes entries) ++ itemNodes column items

def entryNodes : List (Option Str × SourceLocation × RawTree) → List ℕ
  | [] => []
  | (_, location, value) :: entries => location.line :: (value.valueNodes ++ entryNodes entries)

end

end RawTree

def isListItem (line : Line) : Bool := startsWith "- ".toList line.content

def isBareItem (line : Line) : Bool := isListItem line && lstrip (line.content.drop 2) = []

def nodeNumbers : List Line → List ℕ
  | [] => []
  | line :: rest =>
    (if isBareItem line then (rest.head?.map Line.number).getD line.number else line.number) ::
      nodeNumbers rest

section nodes

open Fallible RawTree

variable {filename : Option Str} {line : Line} {rest : List Line}

theorem nodeNumbers_plain (h : isBareItem line = false) :
    nodeNumbers (line :: rest) = line.number :: nodeNumbers rest := by
  rw [nodeNumbers, h]
  rfl

theorem nodeNumbers_bare {next : Line} (h : isBareItem line = true) :
    nodeNumbers (line :: next :: rest) = next.number :: nodeNumbers (next :: rest) := by
  rw [nodeNumbers, h]
  rfl

structure BlockNodes (lines : List Line) (r : RawTree × List Line) : Prop where
  shorter : r.2.length ≤ lines.length
  nodes : nodeNumbers lines = r.1.valueNodes ++ nodeNumbers r.2
  head : ∀ line ∈ lines.head?, r.1.location = ⟨line.number, line.indent + 1⟩
  notScalar : ∀ value location, r.1 ≠ .scalar value location

structure EntryNodes (lines : List Line) (r : List RawEntry × List Line) : Prop where
  shorter : r.2.length ≤ lines.length
  nodes : nodeNumbers lines = entryNodes r.1 ++ nodeNumbers r.2

structure ItemNodes (indent : ℕ) (lines : List Line) (r : List RawTree × List Line) : Prop where
  shorter : r.2.length ≤ lines.length
  nodes : nodeNumbers lines = itemNodes (indent + 1) r.1 ++ nodeNumbers r.2

structure NestedNodes (lines : List Line) (r : RawTree × List Line) : Prop where
  shorter : r.2.length ≤ lines.length
  nodes : nodeNumbers lines = r.1.valueNodes ++ nodeNumbers r.2

theorem nestedValue_nodes {indent : ℕ} {location : SourceLocation}
    {block : Parsed (RawTree × List Line)}
    (h : rest ≠ [] → Ensures block (BlockNodes rest)) :
    Ensures (nestedValue indent location rest block) (NestedNodes rest) := by
  cases rest with
  | nil => exact Ensures.ok ⟨le_rfl, rfl⟩
  | cons next rest =>
    rw [nestedValue]
    split_ifs
    · exact Ensures.ok ⟨le_rfl, rfl⟩
    · exact (h (List.cons_ne_nil _ _)).mono (fun r hr => ⟨hr.shorter, hr.nodes⟩)

structure ItemNode (line : Line) (rest : List Line) (r : RawTree × List Line) : Prop where
  shorter : r.2.length ≤ rest.length
  nodes : nodeNumbers (line :: rest) = itemNodes (line.indent + 1) [r.1] ++ nodeNumbers r.2

theorem itemNodes_cons (column : ℕ) (value : RawTree) (items : List RawTree) :
    itemNodes column (value :: items) = itemNodes column [value] ++ itemNodes column items := by
  cases value with
  | scalar text location => rfl
  | sequence nested location => simp [itemNodes]
  | mapping entries location => simp [itemNodes]

theorem itemNodes_block {column : ℕ} {value : RawTree}
    (hscalar : ∀ text location, value ≠ .scalar text location)
    (hcolumn : value.location.column ≠ column) :
    itemNodes column [value] = value.location.line :: value.valueNodes := by
  cases value with
  | scalar text location => exact absurd rfl (hscalar text location)
  | sequence nested location => simp [itemNodes, valueNodes, RawTree.location]
  | mapping entries location =>
    have hc : location.column ≠ column := hcolumn
    simp [itemNodes, valueNodes, RawTree.location, hc]

def BlocksRead (filename : Option Str) (n : ℕ) : Prop := ∀ lines, lines ≠ [] →
  2 * lines.length + 2 ≤ n → Ensures (parseBlock filename n lines) (BlockNodes lines)

def EntriesRead (filename : Option Str) (n : ℕ) : Prop := ∀ indent lines,
  2 * lines.length + 1 ≤ n → Ensures (parseMapping filename n indent lines) (EntryNodes lines)

def ItemsRead (filename : Option Str) (n : ℕ) : Prop := ∀ indent lines,
  2 * lines.length + 1 ≤ n → Ensures (parseSequence filename n indent lines) (ItemNodes indent lines)

variable {n : ℕ}

theorem BlocksRead.step (hm : EntriesRead filename n) (hs : ItemsRead filename n) :
    BlocksRead filename (n + 1) := by
  intro lines hne hn
  obtain ⟨line, rest, rfl⟩ := List.exists_cons_of_ne_nil hne
  rw [parseBlock]
  dsimp only
  split_ifs with hitem
  · refine (hs line.indent (line :: rest) (by omega)).bind (fun r hr => Ensures.ok ⟨hr.shorter, ?_, ?_, ?_⟩)
    · exact hr.nodes
    · rintro _ ⟨⟩
      rfl
    · intro _ _ h
      cases h
  · refine (hm line.indent (line :: rest) (by omega)).bind (fun r hr => Ensures.ok ⟨hr.shorter, ?_, ?_, ?_⟩)
    · exact hr.nodes
    · rintro _ ⟨⟩
      rfl
    · intro _ _ h
      cases h

theorem EntriesRead.entry (hm : EntriesRead filename n) (hplain : isBareItem line = false)
    (hn : 2 * rest.length + 1 ≤ n) (indent column : ℕ) (key : Option Str)
    (value : Parsed (RawTree × List Line)) (h : Ensures value (NestedNodes rest)) :
    Ensures (value >>= fun q => parseMapping filename n indent q.2 >>= fun r =>
      .ok ((key, ⟨line.number, column⟩, q.1) :: r.1, r.2)) (EntryNodes (line :: rest)) := by
  refine h.bind (fun q hq => ?_)
  have hlen := hq.shorter
  refine (hm indent q.2 (by omega)).bind (fun r hr => Ensures.ok ⟨?_, ?_⟩)
  · exact Nat.le_succ_of_le (le_trans hr.shorter hlen)
  · rw [nodeNumbers_plain hplain, hq.nodes, hr.nodes, ← List.append_assoc]
    rfl

theorem EntriesRead.step (hb : BlocksRead filename n) (hm : EntriesRead filename n) :
    EntriesRead filename (n + 1) := by
  intro indent lines hn
  cases lines with
  | nil => exact Ensures.ok ⟨le_rfl, rfl⟩
  | cons line rest =>
    rw [List.length_cons] at hn
    have hfuel : 2 * rest.length + 1 ≤ n := by omega
    rw [parseMapping]
    split_ifs with hless hmore hitem
    · exact Ensures.ok ⟨le_rfl, rfl⟩
    · exact Ensures.error
    · exact Ensures.error
    · have hplain : isBareItem line = false := by
        rw [isBareItem, isListItem, Bool.eq_false_iff.mpr hitem]
        rfl
      split
      · exact hm.entry hplain hfuel indent _ none (.ok (_, rest)) (Ensures.ok ⟨le_rfl, rfl⟩)
      · dsimp only
        split_ifs with hkey hvalue
        · exact Ensures.error
        · exact hm.entry hplain hfuel indent _ _ _ (nestedValue_nodes (fun hne => hb rest hne (by omega)))
        · exact hm.entry hplain hfuel indent _ _ (.ok (_, rest)) (Ensures.ok ⟨le_rfl, rfl⟩)

theorem ItemsRead.item (hs : ItemsRead filename n) (hn : 2 * rest.length + 1 ≤ n)
    (value : Parsed (RawTree × List Line)) (h : Ensures value (ItemNode line rest)) :
    Ensures (value >>= fun q => parseSequence filename n line.indent q.2 >>= fun r =>
      .ok (q.1 :: r.1, r.2)) (ItemNodes line.indent (line :: rest)) := by
  refine h.bind (fun q hq => ?_)
  have hlen := hq.shorter
  refine (hs line.indent q.2 (by omega)).bind (fun r hr => Ensures.ok ⟨?_, ?_⟩)
  · exact Nat.le_succ_of_le (le_trans hr.shorter hlen)
  · rw [hq.nodes, hr.nodes, itemNodes_cons _ q.1 r.1, List.append_assoc]

theorem ItemsRead.step (hb : BlocksRead filename n) (hs : ItemsRead filename n) :
    ItemsRead filename (n + 1) := by
  intro indent lines hn
  cases lines with
  | nil => exact Ensures.ok ⟨le_rfl, rfl⟩
  | cons line rest =>
    rw [List.length_cons] at hn
    have hfuel : 2 * rest.length + 1 ≤ n := by omega
    rw [parseSequence]
    split_ifs with hless hmore hitem
    · exact Ensures.ok ⟨le_rfl, rfl⟩
    · exact Ensures.error
    · exact Ensures.error
    · obtain rfl : line.indent = indent := by omega
      have hlist : isListItem line = true := by simpa [isListItem] using hitem
      dsimp only
      split_ifs with hvalue hcolon hkey
      · have hbare : isBareItem line = true := by rw [isBareItem, hlist, decide_eq_true hvalue]; rfl
        cases rest with
        | nil => exact Ensures.error
        | cons next rest =>
          dsimp only
          split_ifs with hindent
          · exact Ensures.error
          · refine hs.item hfuel _ ((hb _ (List.cons_ne_nil _ _) (by omega)).mono (fun r hr => ?_))
            have hhead := hr.head next rfl
            have hcolumn : r.1.location.column ≠ line.indent + 1 := by
              rw [hhead]
              show next.indent + 1 ≠ line.indent + 1
              omega
            refine ⟨hr.shorter, ?_⟩
            rw [nodeNumbers_bare hbare, hr.nodes, itemNodes_block hr.notScalar hcolumn, hhead]
            rfl
      · exact Ensures.error
      · have hplain : isBareItem line = false := by rw [isBareItem, decide_eq_false hvalue, Bool.and_false]
        refine (nestedValue_nodes (fun hne => hb rest hne (by omega))).bind (fun q hq => ?_)
        refine hs.item hfuel (.ok (_, q.2)) (Ensures.ok ⟨hq.shorter, ?_⟩)
        rw [nodeNumbers_plain hplain, hq.nodes]
        simp [itemNodes, entryNodes]
      · have hplain : isBareItem line = false := by rw [isBareItem, decide_eq_false hvalue, Bool.and_false]
        refine hs.item hfuel (.ok (_, rest)) (Ensures.ok ⟨le_rfl, ?_⟩)
        rw [nodeNumbers_plain hplain]
        rfl

theorem parse_reads (filename : Option Str) (n : ℕ) :
    BlocksRead filename n ∧ EntriesRead filename n ∧ ItemsRead filename n := by
  induction n with
  | zero => exact ⟨fun _ _ h => by omega, fun _ _ h => by omega, fun _ _ h => by omega⟩
  | succ n ih =>
    obtain ⟨hb, hm, hs⟩ := ih
    exact ⟨.step hm hs, .step hb hm, .step hb hs⟩

end nodes

section stable

open Fallible

variable {filename : Option Str} {n : ℕ}

def Stable (filename : Option Str) (n : ℕ) : Prop :=
  (∀ lines, 2 * lines.length + 2 ≤ n →
    parseBlock filename (n + 1) lines = parseBlock filename n lines) ∧
  ∀ indent lines, 2 * lines.length + 1 ≤ n →
    parseMapping filename (n + 1) indent lines = parseMapping filename n indent lines ∧
    parseSequence filename (n + 1) indent lines = parseSequence filename n indent lines

theorem block_read {lines : List Line} (h : 2 * lines.length + 2 ≤ n) (hne : lines ≠ []) :
    Ensures (parseBlock filename n lines) (BlockNodes lines) := (parse_reads filename n).1 lines hne h

theorem Stable.mapping (h : Stable filename n) {indent : ℕ} {lines : List Line}
    (hn : 2 * lines.length + 1 ≤ n + 1) :
    parseMapping filename (n + 2) indent lines = parseMapping filename (n + 1) indent lines := by
  cases lines with
  | nil => rfl
  | cons line rest =>
    rw [List.length_cons] at hn
    obtain ⟨hb, hms⟩ := h
    have hm (us : List Line) (hus : us.length ≤ rest.length) :
        parseMapping filename (n + 1) indent us = parseMapping filename n indent us :=
      (hms indent us (by omega)).1
    rw [parseMapping, parseMapping, hb rest (by omega)]
    split_ifs
    · rfl
    · rfl
    · rfl
    · split
      · rw [hm rest le_rfl]
      · dsimp only
        split_ifs
        · rfl
        · refine bind_congr (nestedValue_nodes (fun hne => block_read (by omega) hne)) (fun q hq => ?_)
          rw [hm q.2 hq.shorter]
        · refine bind_congr (p := fun q => q.2 = rest) (Ensures.ok rfl) (fun q hq => ?_)
          rw [hq, hm rest le_rfl]

theorem Stable.sequence (h : Stable filename n) {indent : ℕ} {lines : List Line}
    (hn : 2 * lines.length + 1 ≤ n + 1) :
    parseSequence filename (n + 2) indent lines = parseSequence filename (n + 1) indent lines := by
  cases lines with
  | nil => rfl
  | cons line rest =>
    rw [List.length_cons] at hn
    obtain ⟨hb, hms⟩ := h
    have hs (us : List Line) (hus : us.length ≤ rest.length) :
        parseSequence filename (n + 1) indent us = parseSequence filename n indent us :=
      (hms indent us (by omega)).2
    rw [parseSequence, parseSequence, hb rest (by omega)]
    split_ifs
    · rfl
    · rfl
    · rfl
    · dsimp only
      split_ifs
      · cases rest with
        | nil => rfl
        | cons next rest =>
          dsimp only
          split_ifs
          · rfl
          · refine bind_congr (block_read (by omega) (List.cons_ne_nil _ _)) (fun q hq => ?_)
            rw [hs q.2 hq.shorter]
      · rfl
      · refine bind_congr (nestedValue_nodes (fun hne => block_read (by omega) hne)) (fun q hq => ?_)
        refine bind_congr (p := fun v => v.2 = q.2) (Ensures.ok rfl) (fun v hv => ?_)
        rw [hv, hs q.2 hq.shorter]
      · refine bind_congr (p := fun q => q.2 = rest) (Ensures.ok rfl) (fun q hq => ?_)
        rw [hq, hs rest le_rfl]

theorem stable (filename : Option Str) (n : ℕ) : Stable filename n := by
  induction n with
  | zero => exact ⟨fun _ h => by omega, fun _ _ h => by omega⟩
  | succ n ih =>
    refine ⟨fun lines h => ?_, fun indent lines h => ⟨ih.mapping h, ih.sequence h⟩⟩
    cases lines with
    | nil => rfl
    | cons line rest =>
      obtain ⟨hm, hs⟩ := ih.2 line.indent (line :: rest) (by omega)
      rw [parseBlock, parseBlock, hm, hs]

theorem enough_turns (filename : Option Str) (indent : ℕ) (lines : List Line) (k : ℕ) :
    parseMapping filename (2 * lines.length + 1 + k) indent lines =
        parseMapping filename (2 * lines.length + 1) indent lines ∧
      parseSequence filename (2 * lines.length + 1 + k) indent lines =
        parseSequence filename (2 * lines.length + 1) indent lines := by
  induction k with
  | zero => exact ⟨rfl, rfl⟩
  | succ k ih =>
    obtain ⟨hm, hs⟩ := (stable filename (2 * lines.length + 1 + k)).2 indent lines (by omega)
    exact ⟨hm.trans ih.1, hs.trans ih.2⟩

end stable

structure Numbered (number : ℕ) (lines : List Line) : Prop where
  least : ∀ line ∈ lines, number ≤ line.number
  increasing : lines.Pairwise (fun a b => a.number < b.number)

theorem prepareLines_numbered {filename : Option Str} (texts : List Str) (number : ℕ) :
    Fallible.Ensures (prepareLines filename number texts) (Numbered number) := by
  induction texts generalizing number with
  | nil => exact Fallible.Ensures.ok ⟨by simp, List.Pairwise.nil⟩
  | cons text texts ih =>
    have hskip : Fallible.Ensures (prepareLines filename (number + 1) texts) (Numbered number) :=
      (ih (number + 1)).mono (fun lines h => ⟨fun line hl => Nat.le_of_succ_le (h.least line hl),
        h.increasing⟩)
    rw [prepareLines]
    split_ifs
    · exact hskip
    · exact Fallible.Ensures.error
    · exact hskip
    · refine (ih (number + 1)).bind (fun lines h => Fallible.Ensures.ok ⟨?_, ?_⟩)
      · intro line hl
        rcases List.mem_cons.mp hl with rfl | hl
        · exact le_rfl
        · exact Nat.le_of_succ_le (h.least line hl)
      · exact List.pairwise_cons.mpr ⟨fun line hl => h.least line hl, h.increasing⟩

theorem nodeNumbers_length (lines : List Line) : (nodeNumbers lines).length = lines.length := by
  induction lines with
  | nil => rfl
  | cons line rest ih => rw [nodeNumbers, List.length_cons, ih, List.length_cons]

theorem parseWdl_nodes (filename : Option Str) (text : Str) :
    ((∃ e, parseWdl filename text = .error e) ∨ ∃ root location lines,
      parseWdl filename text = .ok (root, location) ∧
      prepareLines filename 1 (splitLines text) = .ok lines ∧
      lines.Pairwise (fun a b => a.number < b.number) ∧
      RawTree.entryNodes root = nodeNumbers lines ∧ (nodeNumbers lines).length = lines.length) ∧
    ∀ indent lines k, parseMapping filename (2 * lines.length + 1 + k) indent lines =
        parseMapping filename (2 * lines.length + 1) indent lines ∧
      parseSequence filename (2 * lines.length + 1 + k) indent lines =
        parseSequence filename (2 * lines.length + 1) indent lines := by
  refine ⟨?_, enough_turns filename⟩
  cases h : parseWdl filename text with
  | error e => exact Or.inl ⟨e, rfl⟩
  | ok r =>
    obtain ⟨root, location⟩ := r
    rw [parseWdl] at h
    obtain ⟨lines, hlines, h⟩ := Fallible.bind_eq_ok.mp h
    refine Or.inr ⟨root, location, lines, rfl, hlines,
      (prepareLines_numbered _ _ lines hlines).increasing, ?_, nodeNumbers_length lines⟩
    cases lines with
    | nil => cases h
    | cons first rest =>
      dsimp only at h
      split_ifs at h
      · cases h
      · obtain ⟨⟨entries, extra⟩, hparse, h⟩ := Fallible.bind_eq_ok.mp h
        have hnodes := ((parse_reads filename _).2.1 0 _ le_rfl _ hparse).nodes
        cases extra with
        | cons line extra => cases h
        | nil =>
          cases h
          rw [hnodes]
          exact (List.append_nil _).symm

def bareItem : Str := "steps:\n  - \n    a: 1\n".toList

theorem bare_item_shares_line : ¬∀ text root location, parseWdl none text = .ok (root, location) →
    (RawTree.entryNodes root).Pairwise (· < ·) := by
  intro h
  have hrun : (parseWdl none bareItem).toOption.map (fun r => RawTree.entryNodes r.1) =
      some [1, 3, 3] := by decide +kernel
  cases hparse : parseWdl none bareItem with
  | error e =>
    rw [hparse] at hrun
    cases hrun
  | ok r =>
    have hnodes := h bareItem r.1 r.2 hparse
    rw [hparse] at hrun
    have hlist : RawTree.entryNodes r.1 = [1, 3, 3] := Option.some.inj hrun
    rw [hlist] at hnodes
    exact absurd hnodes (by decide)

end TraceMind.Dsl
