import TraceMind.Patterns.Instantiate
import TraceMind.Foundation.Fallible
import TraceMind.Verify.Filling

-- Templates with their placeholders at operands, and what a formula is when the slots' expressions
-- stand there.
namespace TraceMind.Patterns

open Fuelled Verify Verify.Ctl

section decidable

variable (F : Filling)

instance : DecidableEq (Parsed Expr) :=
  inferInstanceAs (DecidableEq (Option (Except Err (Expr × List Str))))

instance decideUncalled : (toks : List Str) → Decidable (F.Uncalled toks)
  | [] => .isTrue trivial
  | t :: ts =>
    have : Decidable (F.Uncalled ts) := decideUncalled ts
    inferInstanceAs (Decidable ((F.isMark t = true → ts.head? ≠ some ['(']) ∧ F.Uncalled ts))

instance decideFitsAt (l : Level) (t : Str) (next : Option Str) : Decidable (F.FitsAt l t next) :=
  match h : F.value t with
  | none => .isTrue (fun v e hv => by rw [h] at hv; cases hv)
  | some (v, e) =>
    decidable_of_iff (l.mode.run (parseFuel (v ++ Filling.closing next)) (v ++ Filling.closing next) =
      ret (e, Filling.closing next))
      ⟨fun hrun v' e' hv => by rw [h] at hv; cases hv; exact hrun, fun hfits => hfits v e h⟩

instance decideFits : (l : Level) → (toks : List Str) → Decidable (F.Fits l toks)
  | _, [] => .isTrue trivial
  | l, t :: ts =>
    have : Decidable (F.Fits (Level.afterTok t) ts) := decideFits (Level.afterTok t) ts
    inferInstanceAs (Decidable (F.FitsAt (l.meet (Level.beforeTok ts.head?)) t ts.head? ∧
      F.Fits (Level.afterTok t) ts))

end decidable

def placeholder (name : Str) : Str := openBrace :: (name ++ [closeBrace])

def placeholderName? : Str → Option Str
  | [] => none
  | c :: cs => if c = openBrace ∧ cs.getLast? = some closeBrace then some cs.dropLast else none

theorem placeholderName_marked {t : Str} (h : (placeholderName? t).isSome = true) :
    ∃ c cs, t = '\x7b' :: c :: cs := by
  cases t with
  | nil => cases h
  | cons c cs =>
    rw [placeholderName?] at h
    split_ifs at h with hbrace
    · obtain ⟨rfl, hlast⟩ := hbrace
      cases cs with
      | nil => cases hlast
      | cons d ds => exact ⟨d, ds, rfl⟩
    · cases h

def valueTree (value : Str) : Expr :=
  match parseExpr value with
  | .ok e => e
  | .error _ => .predicate value none

def filling (fills : Str → Option Str) : Filling where
  value t := (placeholderName? t).map fun name =>
    (tokenize ((fills name).getD []), valueTree ((fills name).getD []))
  marked t h := placeholderName_marked (by rw [← Option.isSome_map]; exact h)

def unfilled : Filling := filling (fun _ => none)

def Piece.tokens : Piece → List Str
  | .literal text => tokenize text
  | .field name _ _ => [placeholder name]

def templateTokens (template : Str) : List Str := (pieces template).1.flatMap Piece.tokens

def Piece.Plain : Piece → Prop
  | .literal _ => True
  | .field name conv spec =>
    conv = none ∧ spec = [] ∧ name.all (fun c => !isSeparator c) = true ∧
      name.all Char.isDigit = false

instance (p : Piece) : Decidable p.Plain :=
  match p with
  | .literal _ => .isTrue trivial
  | .field name conv spec => inferInstanceAs (Decidable (conv = none ∧ spec = [] ∧
      name.all (fun c => !isSeparator c) = true ∧ name.all Char.isDigit = false))

structure OperandTemplate where
  text : Str
  tree : Expr
  whole : (pieces text).2 = none
  plain : ∀ p ∈ (pieces text).1, p.Plain
  parsed : finish (parseOr (parseFuel (templateTokens text)) (templateTokens text)) = .ok tree
  operands : unfilled.leaves tree = unfilled.marks (templateTokens text)
  uncalled : unfilled.Uncalled (templateTokens text)

section splice

variable {fills : Str → Option Str} {T : OperandTemplate}

def Piece.text (fills : Str → Option Str) : Piece → Str
  | .literal text => text
  | .field name _ _ => (fills name).getD []

def spliced (template : Str) (fills : Str → Option Str) : Str :=
  (pieces template).1.flatMap (Piece.text fills)

structure Separated (T : OperandTemplate) (fills : Str → Option Str) : Prop where
  tokens : tokenize (spliced T.text fills) = (filling fills).tokens (templateTokens T.text)
  fits : (filling fills).Fits .or (templateTokens T.text)

theorem isMark_filling (fills : Str → Option Str) (t : Str) :
    (filling fills).isMark t = (placeholderName? t).isSome := Option.isSome_map

theorem isMark_unfilled (fills : Str → Option Str) (t : Str) :
    (filling fills).isMark t = unfilled.isMark t := by
  rw [isMark_filling, unfilled, isMark_filling]

theorem marks_unfilled (fills : Str → Option Str) (toks : List Str) :
    (filling fills).marks toks = unfilled.marks toks :=
  List.countP_congr (fun t _ => by rw [isMark_unfilled])

theorem leaves_unfilled (fills : Str → Option Str) (e : Expr) :
    (filling fills).leaves e = unfilled.leaves e := by
  induction e with
  | predicate name v =>
    cases v with
    | none => rw [Filling.leaves, Filling.leaves, isMark_unfilled]
    | some v => rfl
  | not e ih | ctl op e ih => exact ih
  | and l r ihl ihr | or l r ihl ihr | «until» op l r ihl ihr =>
    exact congrArg₂ (· + ·) ihl ihr

theorem uncalled_unfilled {toks : List Str} (h : unfilled.Uncalled toks) :
    (filling fills).Uncalled toks := by
  induction toks with
  | nil => trivial
  | cons t toks ih => exact ⟨fun hm => h.1 (isMark_unfilled fills t ▸ hm), ih h.2⟩

theorem OperandTemplate.reads (T : OperandTemplate) :
    Reads .or (templateTokens T.text) T.tree [] := reads_of_finish T.parsed

theorem parse_spliced (h : Separated T fills) :
    parseExpr (spliced T.text fills) = .ok ((filling fills).tree T.tree) := by
  have hcount : (filling fills).leaves T.tree + (filling fills).marks [] =
      (filling fills).marks (templateTokens T.text) + Mode.leaves (filling fills) .or := by
    rw [leaves_unfilled, T.operands, marks_unfilled, marks_unfilled]
    rfl
  have hread := T.reads.fill (fun _ ht => by cases ht) hcount h.fits (uncalled_unfilled T.uncalled)
  apply parseExpr_of_reads
  rw [h.tokens]
  exact hread

end splice

section instance_

variable [PyFormat] {fills : Str → Option Str} {T : OperandTemplate} {body : PropertyPatternBody}
  {slotFills : OrderedDict Str Json} {title : Option Str} {validateFormula : Bool}
  {inst : PatternInstance}

theorem renderPiece_plain {p : Piece} (hp : p.Plain) {text : Str}
    (h : renderPiece fills p = .ok text) : text = p.text fills := by
  cases p with
  | literal text =>
    cases h
    rfl
  | field name conv spec =>
    obtain ⟨rfl, rfl, hsep, hdigit⟩ := hp
    have hall : ∀ c ∈ name, (fun c => !isSeparator c) c = true := List.all_eq_true.mp hsep
    have htake : name.takeWhile (fun c => !isSeparator c) = name :=
      List.takeWhile_eq_self_iff.mpr hall
    have hdrop : name.dropWhile (fun c => !isSeparator c) = [] :=
      List.dropWhile_eq_nil_iff.mpr hall
    rw [renderPiece, htake, hdrop] at h
    obtain ⟨value, hv, h⟩ := Fallible.bind_eq_ok.mp h
    have heq : value = text := by simpa using h
    rw [fieldValue, hdigit] at hv
    rw [Piece.text, ← heq]
    cases hf : fills name with
    | none =>
      rw [hf] at hv
      cases hv
    | some v =>
      rw [hf] at hv
      cases hv
      rfl

theorem renderAll_plain {ps : List Piece} (hplain : ∀ p ∈ ps, p.Plain) {texts : List Str}
    (h : ps.mapM (renderPiece fills) = .ok texts) : texts = ps.map (Piece.text fills) := by
  have hall := Fallible.mapM_eq_ok.mp h
  clear h
  induction hall with
  | nil => rfl
  | cons hx _ ih =>
    rw [List.map_cons, renderPiece_plain (hplain _ List.mem_cons_self) hx,
      ih (fun p hp => hplain p (List.mem_cons_of_mem _ hp))]

theorem format_spliced {resolved : Str} (h : format T.text fills = .ok resolved) :
    resolved = spliced T.text fills := by
  rw [format] at h
  obtain ⟨texts, htexts, h⟩ := Fallible.bind_eq_ok.mp h
  rw [T.whole] at h
  cases h
  rw [renderAll_plain T.plain htexts, spliced, List.flatMap_def]

theorem instantiatePattern_resolved
    (h : instantiatePattern body slotFills title validateFormula = .ok inst) :
    format body.formulaTemplate (slotText slotFills) = .ok inst.resolvedFormula := by
  rw [instantiatePattern] at h
  obtain ⟨_, _, h⟩ := Fallible.bind_eq_ok.mp h
  obtain ⟨resolved, hres, h⟩ := Fallible.bind_eq_ok.mp h
  obtain ⟨_, _, h⟩ := Fallible.bind_eq_ok.mp h
  cases h
  cases hf : format body.formulaTemplate (slotText slotFills) with
  | error e =>
    rw [hf] at hres
    cases hres
  | ok r =>
    rw [hf] at hres
    cases hres
    rfl

end instance_

abbrev plainFormat : PyFormat where
  repr s := Char.ofNat 39 :: (s ++ [Char.ofNat 39])
  special _ _ _ _ _ := .error (.valueError "Invalid format specifier")

def boundedText : Str := "AG (NOT \x7benforcement\x7d OR EF \x7bmediation\x7d)".toList

def boundedTemplate : OperandTemplate where
  text := boundedText
  tree := .ctl .AG (.or (.not (.predicate (placeholder "enforcement".toList) none))
    (.ctl .EF (.predicate (placeholder "mediation".toList) none)))
  whole := by decide +kernel
  plain := by decide +kernel
  parsed := by decide +kernel
  operands := by decide +kernel
  uncalled := by decide +kernel

def boundedPattern : PropertyPatternBody where
  patternId := "fairness.bounded".toList
  category := "fairness".toList
  title := "Bounded".toList
  formulaTemplate := boundedText
  slots := [⟨"enforcement".toList, true⟩, ⟨"mediation".toList, true⟩]

def boundedFills (mediation : Str) : OrderedDict Str Json where
  entries := [("enforcement".toList, .str "has(q)".toList), ("mediation".toList, .str mediation)]
  nodup := by
    show ["enforcement".toList, "mediation".toList].Nodup
    decide

def boundedResolved (mediation : Str) : Option Str :=
  (@instantiatePattern plainFormat boundedPattern (boundedFills mediation) none true).toOption.map
    PatternInstance.resolvedFormula

def boundedTree (mediation : Str) : Expr :=
  (filling (slotText (boundedFills mediation))).tree boundedTemplate.tree

theorem exists_ok {ε α : Type} {x : Except ε α} (h : x.toOption.isSome = true) : ∃ a, x = .ok a := by
  cases x with
  | error e => cases h
  | ok a => exact ⟨a, rfl⟩

end TraceMind.Patterns
