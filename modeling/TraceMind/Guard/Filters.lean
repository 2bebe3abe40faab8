import TraceMind.Queue.Envelope
import TraceMind.Foundation.Fallible

namespace TraceMind.Guard

open Queue (Document Error PyFloat PyText pyInt)
open Queue.TaskEnvelope (isFalse)

structure TextOps where
  int : Str → Option ℤ
  int_digits : ∀ n : ℕ, int (Nat.toDigits 10 n) = some (n : ℤ)
  lower : Str → Str
  search : Str → Bool → Except Error (Str → Bool)

section rules

structure GuardRule where
  name : Str
  path : Option Str
  options : Document

structure GuardViolation where
  rule : Str
  path : Option Str
  reason : Str
  details : List (Str × Json) := []

structure GuardDecision where
  allowed : Bool
  violations : List GuardViolation

abbrev GuardHandler := GuardRule → List Json → Document → Except Error (List GuardViolation)

variable (ops : TextOps) (py : PyText) (float : PyFloat)

def violation (rule : GuardRule) (reason : String) (details : List (Str × Json)) :
    GuardViolation :=
  ⟨rule.name, rule.path, reason.toList, details⟩

def faults (values : List Json) (fault : Json → ℕ → Option GuardViolation) : List GuardViolation :=
  values.zipIdx.filterMap (fun p => fault p.1 p.2)

def limitOf (rule : GuardRule) : Except Error (Option ℤ) :=
  match rule.options.get? "value".toList with
  | none | some .null => .ok none
  | some (.str s) => .ok (ops.int s)
  | some v =>
    match pyInt float v with
    | .ok n => .ok (some n)
    | .error (.overflowError m) => .error (.overflowError m)
    | .error _ => .ok none

def isNull : Json → Bool
  | .null => true
  | _ => false

def ruleLengthMax : GuardHandler := fun rule values _ => do
  match ← limitOf ops float rule with
  | none => return []
  | some limit =>
    return faults values (fun value idx =>
      let text := py.str value
      if !isNull value && decide (limit < text.length) then
        some (violation rule "length_exceeded" [("limit".toList, .int limit),
          ("actual".toList, .int text.length), ("index".toList, .int idx)])
      else none)

def isBlank : Json → Bool
  | .null | .str [] | .arr [] | .obj [] => true
  | _ => false

def ruleRequired : GuardHandler := fun rule values _ =>
  if values.any (fun value => !isBlank value) then .ok []
  else .ok [violation rule "missing_required_value" []]

def patternOf (rule : GuardRule) : Option Str :=
  match rule.options.get? "pattern".toList with
  | some (.str (c :: cs)) => some (c :: cs)
  | _ => none

def ignoreCase (rule : GuardRule) : Bool :=
  match rule.options.get? "ignore_case".toList with
  | none => true
  | some v => !isFalse float v

def ruleRegexDeny : GuardHandler := fun rule values _ =>
  match patternOf rule with
  | none => .ok []
  | some pattern => do
    let search ← ops.search pattern (ignoreCase float rule)
    return faults values (fun value idx =>
      match value with
      | .str text =>
        if search text then
          some (violation rule "regex_block" [("pattern".toList, .str pattern),
            ("index".toList, .int idx)])
        else none
      | _ => none)

def occursIn (needle text : Str) : Bool := text.tails.any (fun s => startsWith needle s)

def keywordsOf (rule : GuardRule) : List Str :=
  match rule.options.get? "values".toList with
  | some (.arr vs) => vs.filterMap (fun v =>
      match v with
      | .str s => some (ops.lower s)
      | _ => none)
  | _ => []

def ruleDenyKeywords : GuardHandler := fun rule values _ =>
  .ok (faults values (fun value idx =>
    match value with
    | .str text =>
      ((keywordsOf ops rule).find? (fun needle => occursIn needle (ops.lower text))).map
        (fun needle => violation rule "keyword_block" [("keyword".toList, .str needle),
          ("index".toList, .int idx)])
    | _ => none))

inductive Builtin where
  | lengthMax
  | required
  | regexDeny
  | denyKeywords
deriving DecidableEq

def Builtin.text : Builtin → String
  | .lengthMax => "length_max"
  | .required => "required"
  | .regexDeny => "regex_deny"
  | .denyKeywords => "deny_keywords"

def Builtin.all : List Builtin := [.lengthMax, .required, .regexDeny, .denyKeywords]

def Builtin.handler : Builtin → GuardHandler
  | .lengthMax => ruleLengthMax ops py float
  | .required => ruleRequired
  | .regexDeny => ruleRegexDeny ops float
  | .denyKeywords => ruleDenyKeywords ops

end rules

section paths

def flush (buffer : Str) (tokens : List Str) : List Str :=
  if buffer.isEmpty then tokens else buffer :: tokens

def isQuote (c : Char) : Bool := c.toNat = 39 || c.toNat = 34

def stripQuotes (s : Str) : Str :=
  ((s.dropWhile isQuote).reverse.dropWhile isQuote).reverse

def bracketToken (content : Str) : Str :=
  let content := strip content
  if content = ['*'] ∨ content.isEmpty then ['*'] else stripQuotes content

def scan : Str → Option Str → Str → List Str
  | buffer, none, [] => flush buffer []
  | _, some _, [] => []
  | buffer, none, c :: cs =>
    if c = '.' then flush buffer (scan [] none cs)
    else if c = '[' then flush buffer (scan [] (some []) cs)
    else scan (buffer ++ [c]) none cs
  | buffer, some content, c :: cs =>
    if c = ']' then bracketToken content :: scan [] none cs
    else scan buffer (some (content ++ [c])) cs

def dropRoot (path : Str) : Str :=
  match path with
  | '$' :: '.' :: rest => rest
  | '$' :: rest => rest
  | _ => path

def tokenizePath (path : Str) : List Str :=
  (scan [] none (dropRoot (strip path))).map (fun token => if token.isEmpty then ['*'] else token)

variable (ops : TextOps)

def itemAt (vs : List Json) (token : Str) : Option Json :=
  match ops.int token with
  | some i => if 0 ≤ i then vs[i.toNat]? else none
  | none => none

def selected (token : Str) : Json → List Json
  | .obj fs => if token = ['*'] then fs.map Prod.snd else (fs.lookup token).toList
  | .arr vs => if token = ['*'] then vs else (itemAt ops vs token).toList
  | _ => []

def rootToken : Str := "root".toList

def walk (data : Json) : List Str → List Json → List Json
  | [], current => current
  | token :: tokens, current =>
    if token = rootToken then walk data tokens [data]
    else
      let next := (current.flatMap (selected ops token)).filter (fun item => !isNull item)
      if next.isEmpty then [] else walk data tokens next

def extractValues (data : Json) (path : Option Str) : List Json :=
  match path with
  | none | some [] => [data]
  | some path => walk ops data (tokenizePath path) [data]

end paths

section engine

variable (ops : TextOps) (py : PyText) (float : PyFloat)

structure GuardEngine where
  registry : Str → Option GuardHandler := fun _ => none
  customRules : Str → Option GuardHandler := fun _ => none

def GuardEngine.resolveHandler (e : GuardEngine) (name : Str) : Option GuardHandler :=
  (e.registry name).or ((e.customRules name).or
    ((Builtin.all.find? (fun b => b.text.toList = name)).map (Builtin.handler ops py float)))

def GuardEngine.violations (e : GuardEngine) (payload : Json) (context : Document) :
    List GuardRule → Except Error (List GuardViolation)
  | [] => .ok []
  | rule :: rules =>
    match e.resolveHandler ops py float rule.name with
    | none => e.violations payload context rules
    | some handler => do
      let found ← handler rule (extractValues ops payload rule.path) context
      return found ++ (← e.violations payload context rules)

def GuardEngine.evaluate (e : GuardEngine) (payload : Json) (rules : List GuardRule)
    (context : Document) : Except Error GuardDecision := do
  let violations ← e.violations ops py float payload context rules
  return { allowed := violations.isEmpty, violations := violations }

end engine

section addresses

inductive Step where
  | key (k : Str)
  | index (i : ℕ)

def Step.follow : Step → Json → Option Json
  | .key k, .obj fs => fs.lookup k
  | .index i, .arr vs => vs[i]?
  | _, _ => none

def address : List Step → Json → Option Json
  | [], v => some v
  | s :: steps, v => (s.follow v).bind (address steps)

def Step.token : Step → Str
  | .key k => k
  | .index i => Nat.toDigits 10 i

def Step.text : Step → Str
  | .key k => '.' :: k
  | .index i => '[' :: (Nat.toDigits 10 i ++ [']'])

def pathText (steps : List Step) : Str := '$' :: steps.flatMap Step.text

def keyChar (c : Char) : Bool :=
  c != '.' && c != '[' && c != ']' && !isQuote c

structure PlainKey (k : Str) : Prop where
  nonempty : k ≠ []
  chars : ∀ c ∈ k, keyChar c = true
  first : ∀ c, k.head? = some c → isSpace c = false
  last : ∀ c, k.getLast? = some c → isSpace c = false
  star : k ≠ ['*']

def PlainSteps (steps : List Step) : Prop := ∀ k, .key k ∈ steps → PlainKey k

variable (ops : TextOps)

def readToken (token : Str) : Json → Option Json
  | .obj fs => fs.lookup token
  | .arr vs => itemAt ops vs token
  | _ => none

def readTokens : List Str → Json → Option Json
  | [], v => some v
  | token :: tokens, v =>
    ((readToken ops token v).filter (fun item => !isNull item)).bind (readTokens tokens)

def segments : List Str → List Str × List (List Str)
  | [] => ([], [])
  | token :: tokens =>
    let parts := segments tokens
    if token = rootToken then ([], parts.1 :: parts.2) else (token :: parts.1, parts.2)

def ReadsAgain (payload value : Json) : List (List Str) → Prop
  | [] => True
  | [segment] => readTokens ops segment payload = some value
  | segment :: later =>
    (∃ item, readTokens ops segment payload = some item) ∧ ReadsAgain payload value later

end addresses

section scanning

variable {buffer rest k : Str} {steps : List Step}

theorem scan_chars (h : ∀ c ∈ k, keyChar c = true) :
    scan buffer none (k ++ rest) = scan (buffer ++ k) none rest := by
  induction k generalizing buffer with
  | nil => rw [List.nil_append, List.append_nil]
  | cons c cs ih =>
    have hc := h c List.mem_cons_self
    simp only [keyChar, Bool.and_eq_true, bne_iff_ne, ne_eq] at hc
    rw [List.cons_append, scan, if_neg hc.1.1.1, if_neg hc.1.1.2,
      ih (fun d hd => h d (List.mem_cons_of_mem _ hd)), List.append_assoc]
    rfl

theorem scan_steps_start (buffer : Str) (steps : List Step) :
    scan buffer none (steps.flatMap Step.text) =
      flush buffer (scan [] none (steps.flatMap Step.text)) := by
  cases steps with
  | nil => rfl
  | cons s steps => cases s <;> rfl

theorem scan_bracket (content : Str) (h : ∀ c ∈ k, c ≠ ']') :
    scan [] (some content) (k ++ ']' :: rest) =
      bracketToken (content ++ k) :: scan [] none rest := by
  induction k generalizing content with
  | nil =>
    rw [List.append_nil]
    rfl
  | cons c cs ih =>
    rw [List.cons_append, scan, if_neg (h c List.mem_cons_self),
      ih _ (fun d hd => h d (List.mem_cons_of_mem _ hd)), List.append_assoc]
    rfl

theorem digit_facts {n : ℕ} {c : Char} (hc : c ∈ Nat.toDigits 10 n) :
    isSpace c = false ∧ c ≠ ']' ∧ c ≠ '*' ∧ isQuote c = false := by
  have hd : c.isDigit = true := Nat.isDigit_of_mem_toDigits (by decide) (by decide) hc
  refine ⟨isSpace_of_alphanum (by rw [Char.isAlphanum, hd, Bool.or_true]), ?_, ?_, ?_⟩
  · rintro rfl
    exact absurd hd (by decide)
  · rintro rfl
    exact absurd hd (by decide)
  · rw [isQuote, Bool.or_eq_false_iff, decide_eq_false_iff_not, decide_eq_false_iff_not]
    constructor
    · intro h
      rw [show c = Char.ofNat 39 by rw [← h, Char.ofNat_toNat]] at hd
      exact absurd hd (by decide)
    · intro h
      rw [show c = Char.ofNat 34 by rw [← h, Char.ofNat_toNat]] at hd
      exact absurd hd (by decide)

theorem dropWhile_none {p : Char → Bool} {s : Str} (h : ∀ c ∈ s, p c = false) :
    s.dropWhile p = s := by
  cases s with
  | nil => rfl
  | cons c cs => exact List.dropWhile_cons_of_neg (by simp [h c List.mem_cons_self])

theorem bracketToken_digits (n : ℕ) : bracketToken (Nat.toDigits 10 n) = Nat.toDigits 10 n := by
  have hne : Nat.toDigits 10 n ≠ [] := Nat.toDigits_ne_nil
  have hstar : Nat.toDigits 10 n ≠ ['*'] := by
    intro h
    have hmem : '*' ∈ Nat.toDigits 10 n := by
      rw [h]
      exact List.mem_singleton_self _
    exact (digit_facts hmem).2.2.1 rfl
  have hquote : ∀ c ∈ Nat.toDigits 10 n, isQuote c = false := fun c hc => (digit_facts hc).2.2.2
  have hstrip : strip (Nat.toDigits 10 n) = Nat.toDigits 10 n :=
    strip_of_noSpace (fun c hc => (digit_facts hc).1)
  rw [bracketToken, hstrip]
  simp only [hstar, List.isEmpty_eq_false_iff.mpr hne, Bool.false_eq_true, or_self, if_false]
  rw [stripQuotes, dropWhile_none hquote,
    dropWhile_none (fun c hc => hquote c (List.mem_reverse.mp hc)), List.reverse_reverse]

theorem scan_steps (h : PlainSteps steps) :
    scan [] none (steps.flatMap Step.text) = steps.map Step.token := by
  induction steps with
  | nil => rfl
  | cons s steps ih =>
    have hrest := ih (fun k hk => h k (List.mem_cons_of_mem _ hk))
    rw [List.flatMap_cons, List.map_cons]
    cases s with
    | key k =>
      have hk := h k List.mem_cons_self
      have hflush : (k.isEmpty : Bool) = false := List.isEmpty_eq_false_iff.mpr hk.nonempty
      rw [Step.text, List.cons_append, scan, if_pos rfl, scan_chars hk.chars, List.nil_append,
        scan_steps_start, hrest, flush, flush, hflush]
      rfl
    | index i =>
      rw [Step.text, List.cons_append, List.append_assoc, scan, if_neg (by decide), if_pos rfl]
      rw [List.singleton_append, scan_bracket [] (fun c hc => (digit_facts hc).2.1),
        List.nil_append, bracketToken_digits, hrest]
      rfl

theorem strip_ends {c d : Char} {s : Str} (hc : isSpace c = false) (hd : isSpace d = false)
    (h : (c :: s).getLast? = some d) : strip (c :: s) = c :: s := by
  obtain ⟨init, hinit⟩ := List.getLast?_eq_some_iff.mp h
  have hneg : ∀ e, isSpace e = false → ¬isSpace e = true := fun e he => by simp [he]
  rw [strip, List.dropWhile_cons_of_neg (hneg c hc), hinit, List.reverse_append,
    List.reverse_singleton, List.singleton_append, List.dropWhile_cons_of_neg (hneg d hd),
    List.reverse_cons, List.reverse_reverse]

theorem Step.text_last {s : Step} (h : ∀ k, s = .key k → PlainKey k) :
    ∃ d, s.text.getLast? = some d ∧ isSpace d = false := by
  cases s with
  | key k =>
    have hk := h k rfl
    have hd : k.getLast? = some (k.getLast hk.nonempty) := List.getLast?_eq_some_getLast _
    refine ⟨k.getLast hk.nonempty, ?_, hk.last _ hd⟩
    rw [Step.text, List.getLast?_cons, hd]
    rfl
  | index i =>
    refine ⟨']', ?_, by decide⟩
    rw [Step.text, ← List.cons_append, List.getLast?_concat]

theorem pathText_last (hne : steps ≠ []) (h : PlainSteps steps) :
    ∃ d, (pathText steps).getLast? = some d ∧ isSpace d = false := by
  obtain ⟨init, s, hconcat⟩ := (List.eq_nil_or_concat steps).resolve_left hne
  rw [List.concat_eq_append] at hconcat
  subst hconcat
  obtain ⟨d, hd, hspace⟩ := Step.text_last (s := s) (fun k hk => h k (by simp [hk]))
  refine ⟨d, ?_, hspace⟩
  rw [pathText, List.flatMap_append, List.flatMap_singleton, ← List.cons_append,
    List.getLast?_append, hd]
  rfl

theorem tokenizePath_pathText (hne : steps ≠ []) (h : PlainSteps steps) :
    tokenizePath (pathText steps) = steps.map Step.token := by
  obtain ⟨d, hd, hspace⟩ := pathText_last hne h
  have hscan : scan [] none (dropRoot (pathText steps)) = steps.map Step.token := by
    rw [← scan_steps h]
    cases steps with
    | nil => exact absurd rfl hne
    | cons s steps => cases s <;> rfl
  have hnonempty : ∀ token ∈ steps.map Step.token, token.isEmpty = false := by
    intro token htoken
    obtain ⟨s, hs, rfl⟩ := List.mem_map.mp htoken
    rw [List.isEmpty_eq_false_iff]
    cases s with
    | key k => exact (h k hs).nonempty
    | index i => exact Nat.toDigits_ne_nil
  rw [tokenizePath, pathText, strip_ends (by decide) hspace hd, ← pathText, hscan]
  refine (List.map_congr_left (fun token htoken => ?_)).trans (List.map_id _)
  rw [hnonempty token htoken]
  rfl

end scanning

section reading

variable {ops : TextOps} {data payload value v w : Json} {tokens : List Str} {steps : List Step}

theorem selected_eq {token : Str} (h : token ≠ ['*']) :
    selected ops token v = (readToken ops token v).toList := by
  cases v <;> simp [selected, readToken, h]

variable (ops) in
def trace (data : Json) : List Str → Json → Option Json
  | [], v => some v
  | token :: tokens, v =>
    if token = rootToken then trace data tokens data
    else ((readToken ops token v).filter (fun item => !isNull item)).bind (trace data tokens)

theorem walk_trace (h : ['*'] ∉ tokens) :
    walk ops data tokens [v] = (trace ops data tokens v).toList := by
  induction tokens generalizing v with
  | nil => rfl
  | cons token tokens ih =>
    rw [List.mem_cons, not_or] at h
    rw [walk, trace]
    split_ifs with hroot
    · exact ih h.2
    · have hnext : ([v].flatMap (selected ops token)).filter (fun item => !isNull item) =
          ((readToken ops token v).filter (fun item => !isNull item)).toList := by
        rw [List.flatMap_singleton, selected_eq (Ne.symm h.1)]
        cases readToken ops token v with
        | none => rfl
        | some w => cases hw : isNull w <;> simp [Option.filter, hw]
      simp only [hnext]
      cases (readToken ops token v).filter (fun item => !isNull item) with
      | none => rfl
      | some w => exact ih h.2

theorem readTokens_append (a b : List Str) (v : Json) :
    readTokens ops (a ++ b) v = (readTokens ops a v).bind (readTokens ops b) := by
  induction a generalizing v with
  | nil => rfl
  | cons token a ih =>
    rw [List.cons_append, readTokens, readTokens, Option.bind_assoc]
    exact Option.bind_congr (fun w _ => ih w)

variable (ops) in
def again (data : Json) : List (List Str) → Json → Option Json
  | [], v => some v
  | segment :: later, _ => (readTokens ops segment data).bind (again data later)

theorem trace_segments : trace ops data tokens v =
    (readTokens ops (segments tokens).1 v).bind
      (again ops data (segments tokens).2) := by
  induction tokens generalizing v with
  | nil => rfl
  | cons token tokens ih =>
    rw [trace, segments]
    split_ifs with hroot
    · rw [ih]
      rfl
    · rw [readTokens, Option.bind_assoc]
      exact Option.bind_congr (fun w _ => ih)

theorem again_iff (segs : List (List Str)) :
    again ops data segs value = some value ↔ ReadsAgain ops data value segs := by
  have hfree : ∀ (seg : List Str) (segs : List (List Str)) (v w : Json),
      again ops data (seg :: segs) v = again ops data (seg :: segs) w :=
    fun _ _ _ _ => rfl
  induction segs with
  | nil => exact iff_of_true rfl trivial
  | cons seg segs ih =>
    rw [again, Option.bind_eq_some_iff]
    cases segs with
    | nil => simp [again, ReadsAgain]
    | cons seg' segs =>
      refine Iff.trans ?_ (and_congr_right' ih)
      constructor
      · rintro ⟨item, hitem, hagain⟩
        exact ⟨⟨item, hitem⟩, hfree seg' segs item value ▸ hagain⟩
      · rintro ⟨⟨item, hitem⟩, hagain⟩
        exact ⟨item, hitem, hfree seg' segs item value ▸ hagain⟩

theorem segments_spec (tokens : List Str) : ∃ tail, tokens = (segments tokens).1 ++ tail ∧
    ((segments tokens).2 = [] → tail = []) := by
  induction tokens with
  | nil => exact ⟨[], rfl, fun _ => rfl⟩
  | cons token tokens ih =>
    obtain ⟨tail, htail, hnil⟩ := ih
    rw [segments]
    split_ifs with hroot
    · exact ⟨token :: tokens, rfl, fun h => by cases h⟩
    · exact ⟨tail, by rw [List.cons_append, ← htail], hnil⟩

theorem segments_of_not_mem (h : rootToken ∉ tokens) : (segments tokens).2 = [] := by
  induction tokens with
  | nil => rfl
  | cons token tokens ih =>
    rw [List.mem_cons, not_or] at h
    rw [segments, if_neg (Ne.symm h.1)]
    exact ih h.2

theorem not_null_of_address (h : address steps v = some w) (hw : isNull w = false) :
    isNull v = false := by
  cases steps with
  | nil =>
    cases h
    exact hw
  | cons s steps =>
    obtain ⟨u, hu, -⟩ := Option.bind_eq_some_iff.mp h
    cases v with
    | null => cases s <;> cases hu
    | bool _ | nan | infinity _ | int _ | float _ | str _ | arr _ | obj _ => rfl

theorem readToken_follow {s : Step} (h : s.follow v = some w) :
    readToken ops s.token v = some w := by
  cases s with
  | key k => cases v <;> first | exact h | cases h
  | index i =>
    cases v with
    | arr vs =>
      simp only [readToken, itemAt, Step.token, ops.int_digits, if_pos (Int.natCast_nonneg i),
        Int.toNat_natCast]
      exact h
    | null | bool _ | nan | infinity _ | int _ | float _ | str _ | obj _ => cases h

variable (ops) in
theorem readTokens_address (h : address steps v = some w) (hw : isNull w = false) :
    readTokens ops (steps.map Step.token) v = some w := by
  induction steps generalizing v with
  | nil => exact h
  | cons s steps ih =>
    obtain ⟨u, hu, hrest⟩ := Option.bind_eq_some_iff.mp h
    have hfilter : (some u).filter (fun item => !isNull item) = some u := by
      rw [Option.filter_some, not_null_of_address hrest hw]
      rfl
    rw [List.map_cons, readTokens, readToken_follow hu, hfilter]
    exact ih hrest

theorem plain_tokens (h : PlainSteps steps) : ['*'] ∉ steps.map Step.token := by
  intro hmem
  obtain ⟨s, hs, hstar⟩ := List.mem_map.mp hmem
  cases s with
  | key k => exact (h k hs).star hstar
  | index i =>
    have hc : '*' ∈ Nat.toDigits 10 i := by
      rw [Step.token] at hstar
      rw [hstar]
      exact List.mem_singleton_self _
    exact (digit_facts hc).2.2.1 rfl

variable (ops) in
theorem extractValues_iff (hne : steps ≠ []) (hp : PlainSteps steps)
    (h : address steps payload = some value) (hv : isNull value = false) :
    extractValues ops payload (some (pathText steps)) = [value] ↔
      ReadsAgain ops payload value (segments (steps.map Step.token)).2 := by
  have hread := readTokens_address ops h hv
  have hextract : extractValues ops payload (some (pathText steps)) =
      (trace ops payload (steps.map Step.token) payload).toList := by
    rw [← walk_trace (plain_tokens hp), ← tokenizePath_pathText hne hp]
    rfl
  obtain ⟨tail, htail, hnil⟩ := segments_spec (steps.map Step.token)
  rw [htail, readTokens_append, Option.bind_eq_some_iff] at hread
  obtain ⟨u, hu, htailread⟩ := hread
  have hlist : ∀ o : Option Json, o.toList = [value] ↔ o = some value := by
    intro o
    cases o <;> simp
  rw [hextract, hlist, trace_segments, hu, Option.bind_some, ← again_iff]
  cases hlater : (segments (steps.map Step.token)).2 with
  | nil =>
    rw [hnil hlater] at htailread
    exact iff_of_true htailread rfl
  | cons seg segs => exact Iff.rfl

end reading

section blocking

variable {ops : TextOps} {py : PyText} {float : PyFloat} {rule : GuardRule} {value : Json}
  {context : Document} {found : List GuardViolation}

variable (ops py float rule value) in
def Violates : Builtin → Prop
  | .lengthMax => ∃ limit : ℤ, limitOf ops float rule = .ok (some limit) ∧
      limit < (py.str value).length
  | .required => isBlank value = true
  | .regexDeny => ∃ text pattern search, value = .str text ∧ patternOf rule = some pattern ∧
      ops.search pattern (ignoreCase float rule) = .ok search ∧ search text = true
  | .denyKeywords => ∃ text needle, value = .str text ∧ needle ∈ keywordsOf ops rule ∧
      occursIn needle (ops.lower text) = true

theorem faults_single (fault : Json → ℕ → Option GuardViolation) :
    faults [value] fault ≠ [] ↔ (fault value 0).isSome = true := by
  rw [faults]
  cases h : fault value 0 <;> simp [h]

theorem lengthMax_blocks (hv : isNull value = false)
    (h : ruleLengthMax ops py float rule [value] context = .ok found) :
    found ≠ [] ↔ Violates ops py float rule value .lengthMax := by
  obtain ⟨limit?, hl, hfound⟩ := Fallible.bind_eq_ok.mp h
  cases limit? with
  | none =>
    cases hfound
    refine iff_of_false (fun hne => hne rfl) ?_
    rintro ⟨limit, hlimit, -⟩
    rw [hl] at hlimit
    cases hlimit
  | some limit =>
    cases hfound
    rw [faults_single]
    simp only [hv, Bool.not_false, Bool.true_and, Violates, hl, Except.ok.injEq, Option.some.injEq]
    constructor
    · intro hsome
      refine ⟨limit, rfl, ?_⟩
      by_contra hle
      rw [if_neg (by simpa using hle)] at hsome
      cases hsome
    · rintro ⟨_, rfl, hlt⟩
      rw [if_pos (by simpa using hlt)]
      rfl

theorem required_blocks (h : ruleRequired rule [value] context = .ok found) :
    found ≠ [] ↔ Violates ops py float rule value .required := by
  rw [ruleRequired, List.any_cons, List.any_nil, Bool.or_false] at h
  rw [Violates]
  cases hb : isBlank value with
  | true =>
    rw [hb] at h
    cases h
    simp
  | false =>
    rw [hb] at h
    cases h
    simp

theorem regexDeny_blocks (h : ruleRegexDeny ops float rule [value] context = .ok found) :
    found ≠ [] ↔ Violates ops py float rule value .regexDeny := by
  rw [ruleRegexDeny] at h
  rw [Violates]
  cases hp : patternOf rule with
  | none =>
    rw [hp] at h
    cases h
    simp
  | some pattern =>
    rw [hp] at h
    obtain ⟨search, hs, hfound⟩ := Fallible.bind_eq_ok.mp h
    cases hfound
    rw [faults_single]
    cases value with
    | str text =>
      simp only [Json.str.injEq, Option.some.injEq]
      constructor
      · intro hsome
        refine ⟨text, pattern, search, rfl, rfl, hs, ?_⟩
        by_contra hno
        rw [if_neg hno] at hsome
        cases hsome
      · rintro ⟨_, _, search', rfl, rfl, hs', hmatch⟩
        rw [hs] at hs'
        cases hs'
        rw [if_pos hmatch]
        rfl
    | null | bool _ | nan | infinity _ | int _ | float _ | arr _ | obj _ => simp

theorem denyKeywords_blocks (h : ruleDenyKeywords ops rule [value] context = .ok found) :
    found ≠ [] ↔ Violates ops py float rule value .denyKeywords := by
  rw [ruleDenyKeywords] at h
  cases h
  rw [faults_single, Violates]
  cases value with
  | str text => simp [List.find?_isSome]
  | null | bool _ | nan | infinity _ | int _ | float _ | arr _ | obj _ => simp

theorem handler_blocks (b : Builtin) (hv : isNull value = false)
    (h : b.handler ops py float rule [value] context = .ok found) :
    found ≠ [] ↔ Violates ops py float rule value b := by
  cases b with
  | lengthMax =>
    have hrun : ruleLengthMax ops py float rule [value] context = .ok found := h
    exact lengthMax_blocks hv hrun
  | required =>
    have hrun : ruleRequired rule [value] context = .ok found := h
    exact required_blocks hrun
  | regexDeny =>
    have hrun : ruleRegexDeny ops float rule [value] context = .ok found := h
    exact regexDeny_blocks hrun
  | denyKeywords =>
    have hrun : ruleDenyKeywords ops rule [value] context = .ok found := h
    exact denyKeywords_blocks hrun

theorem resolveHandler_builtin {e : GuardEngine} (b : Builtin) (hr : e.registry rule.name = none)
    (hc : e.customRules rule.name = none) (hname : rule.name = b.text.toList) :
    e.resolveHandler ops py float rule.name = some (b.handler ops py float) := by
  rw [GuardEngine.resolveHandler, hr, hc, hname]
  cases b <;> rfl

theorem evaluate_single {e : GuardEngine} {handler : GuardHandler} {payload : Json}
    {d : GuardDecision} (hr : e.resolveHandler ops py float rule.name = some handler)
    (h : e.evaluate ops py float payload [rule] context = .ok d) :
    ∃ found, handler rule (extractValues ops payload rule.path) context = .ok found ∧
      (d.allowed = false ↔ found ≠ []) := by
  obtain ⟨violations, hv, hd⟩ := Fallible.bind_eq_ok.mp h
  cases hd
  rw [GuardEngine.violations, hr] at hv
  obtain ⟨found, hfound, hrest⟩ := Fallible.bind_eq_ok.mp hv
  obtain ⟨more, hnil, heq⟩ := Fallible.bind_eq_ok.mp hrest
  cases hnil
  cases heq
  refine ⟨found, hfound, ?_⟩
  rw [List.append_nil, List.isEmpty_eq_false_iff]

end blocking

theorem guard_path_iff (ops : TextOps) (py : PyText) (float : PyFloat) (payload value : Json)
    (steps : List Step) (hne : steps ≠ []) (hp : PlainSteps steps)
    (haddress : address steps payload = some value) (hv : isNull value = false) :
    (extractValues ops payload (some (pathText steps)) = [value] ↔
      ReadsAgain ops payload value (segments (steps.map Step.token)).2) ∧
    (Step.key rootToken ∉ steps →
      ReadsAgain ops payload value (segments (steps.map Step.token)).2) ∧
    (ReadsAgain ops payload value (segments (steps.map Step.token)).2 →
      ∀ (e : GuardEngine) (b : Builtin) (rule : GuardRule) (context : Document)
        (d : GuardDecision), e.registry rule.name = none → e.customRules rule.name = none →
        rule.name = b.text.toList → rule.path = some (pathText steps) →
        e.evaluate ops py float payload [rule] context = .ok d →
        (d.allowed = false ↔ Violates ops py float rule value b)) := by
  have hiff := extractValues_iff ops hne hp haddress hv
  refine ⟨hiff, ?_, ?_⟩
  · intro hroot
    have hnot : rootToken ∉ steps.map Step.token := by
      intro hmem
      obtain ⟨s, hs, htoken⟩ := List.mem_map.mp hmem
      cases s with
      | key k =>
        rw [Step.token] at htoken
        exact hroot (htoken ▸ hs)
      | index i =>
        have hr : 'r' ∈ Nat.toDigits 10 i := by
          rw [Step.token] at htoken
          rw [htoken]
          decide
        exact absurd (Nat.isDigit_of_mem_toDigits (by decide) (by decide) hr) (by decide)
    rw [segments_of_not_mem hnot]
    trivial
  · intro hreads e b rule context d hr hc hname hpath hd
    obtain ⟨found, hfound, hallowed⟩ := evaluate_single (resolveHandler_builtin b hr hc hname) hd
    rw [hpath, hiff.mpr hreads] at hfound
    rw [hallowed]
    exact handler_blocks b hv hfound

theorem plainDigits_digits {ds : Str} {digit : Bool} (h : ∀ c ∈ ds, c.isDigit = true)
    (hd : ds ≠ [] ∨ digit = true) : Queue.plainDigits digit ds = some ds := by
  induction ds generalizing digit with
  | nil =>
    rw [Queue.plainDigits, if_pos (hd.resolve_left (fun hne => hne rfl))]
  | cons c cs ih =>
    rw [Queue.plainDigits, if_pos (h c List.mem_cons_self),
      ih (fun e he => h e (List.mem_cons_of_mem _ he)) (.inr rfl)]
    rfl

theorem intOfText_digits (n : ℕ) : Queue.intOfText (Nat.toDigits 10 n) = some (n : ℤ) := by
  have hdigit : ∀ c ∈ Nat.toDigits 10 n, c.isDigit = true := fun c hc =>
    Nat.isDigit_of_mem_toDigits (by decide) (by decide) hc
  have hsign : Queue.signless (Nat.toDigits 10 n) = (false, Nat.toDigits 10 n) := by
    cases hds : Nat.toDigits 10 n with
    | nil => rfl
    | cons c cs =>
      have hc := hdigit c (by rw [hds]; exact List.mem_cons_self)
      rw [Queue.signless]
      · intro ds he
        cases he
        exact absurd hc (by decide)
      · intro ds he
        cases he
        exact absurd hc (by decide)
  rw [Queue.intOfText, strip_of_noSpace (fun c hc => (digit_facts hc).1), hsign]
  simp only [plainDigits_digits hdigit (.inl Nat.toDigits_ne_nil), Option.map_some,
    Bool.false_eq_true, if_false, Json.natValue, Nat.ofDigitChars_ten_toDigits]

def plainOps : TextOps where
  int := Queue.intOfText
  int_digits := intOfText_digits
  lower := lower
  search _ _ := .ok (fun _ => false)

def dropRule (path : String) : GuardRule where
  name := "deny_keywords".toList
  path := some path.toList
  options := ⟨[("values".toList, .arr [.str "DROP".toList])], by decide⟩

def rootPayload : Json := .obj [("root".toList, .str "drop it".toList)]

theorem root_key_passes : address [.key rootToken] rootPayload = some (.str "drop it".toList) ∧
    pathText [.key rootToken] = "$.root".toList ∧
    Violates plainOps Queue.plainPy (fun _ => none) (dropRule "$.root") (.str "drop it".toList)
      .denyKeywords ∧
    extractValues plainOps rootPayload (dropRule "$.root").path = [rootPayload] ∧
    (GuardEngine.evaluate plainOps Queue.plainPy (fun _ => none) {} rootPayload
      [dropRule "$.root"] Document.empty).toOption.map GuardDecision.allowed = some true :=
  ⟨rfl, rfl, ⟨"drop it".toList, "drop".toList, rfl, by decide, by decide⟩, by rfl, by rfl⟩

def namedPayload : Json := .obj [("input".toList, .arr [.str "drop it".toList])]

def namedSteps : List Step := [.key "input".toList, .index 0]

theorem namedSteps_plain : PlainSteps namedSteps := by
  intro k hk
  have hkey : k = "input".toList := by simpa [namedSteps] using hk
  subst hkey
  refine ⟨by decide, List.all_eq_true.mp (by decide), fun c hc => ?_, fun c hc => ?_, by decide⟩
  · obtain rfl : 'i' = c := Option.some.inj hc
    decide
  · obtain rfl : 't' = c := Option.some.inj hc
    decide

theorem named_key_blocks :
    extractValues plainOps namedPayload (some (pathText namedSteps)) =
      [.str "drop it".toList] := by
  have h := guard_path_iff plainOps Queue.plainPy (fun _ => none) namedPayload
    (.str "drop it".toList) namedSteps (by decide) namedSteps_plain rfl rfl
  exact h.1.mpr (h.2.1 (by simp [namedSteps, rootToken]))

end TraceMind.Guard
