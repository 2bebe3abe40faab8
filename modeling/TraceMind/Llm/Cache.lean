import TraceMind.Artifacts.Consistency
import TraceMind.Foundation.Caching
import TraceMind.Foundation.Runs
import TraceMind.Runtime.Remote

namespace TraceMind.Llm

open Artifacts (Sha256 bodyHash carriageReturn normalizeBody normalizeString replaceCr replaceCrlf)
open Policy (canonicalJson sortKeys)
open Queue (Document Error FloatText)
open Runtime.Remote (SameValue)

inductive Setting where
  | none
  | int (n : ℤ)
  | nan
  | infinity (negative : Bool)
  | float (f : FloatText)

def Setting.json : Setting → Json
  | .none => .null
  | .int n => .int n
  | .nan => .nan
  | .infinity negative => .infinity negative
  | .float f => .float f.text

structure Request where
  provider : Str
  model : Str
  prompt : Str
  temperature : Setting := .none
  topP : Setting := .none

def Request.fields (r : Request) : List (Str × Json) :=
  [("provider".toList, .str r.provider), ("model".toList, .str r.model),
    ("prompt".toList, .str r.prompt), ("temperature".toList, r.temperature.json),
    ("top_p".toList, r.topP.json)]

def cacheKey (sha : Sha256) (r : Request) : Str := bodyHash sha (.obj r.fields)

structure LlmUsage where
  promptTokens : ℤ
  completionTokens : ℤ
  totalTokens : ℤ
  costUsd : Json := .null

structure LlmCallResult where
  outputText : Json
  usage : LlmUsage
  raw : Json := .null

structure LlmCallResult.Typed (r : LlmCallResult) : Prop where
  text : ∃ t, r.outputText = .str t
  cost : ∃ c : Setting, r.usage.costUsd = c.json
  raw : r.raw = .null ∨ ∃ d : Document, r.raw = d.json

def LlmUsage.fields (u : LlmUsage) : List (Str × Json) :=
  [("prompt_tokens".toList, .int u.promptTokens),
    ("completion_tokens".toList, .int u.completionTokens),
    ("total_tokens".toList, .int u.totalTokens), ("cost_usd".toList, u.costUsd)]

def LlmCallResult.fields (r : LlmCallResult) : List (Str × Json) :=
  [("output_text".toList, r.outputText), ("usage".toList, .obj r.usage.fields),
    ("raw".toList, r.raw)]

def storedText (r : LlmCallResult) : Str := canonicalJson (.obj r.fields)

def getOr (fs : List (Str × Json)) (key : String) (default : Json) : Json :=
  (OrderedDict.find key.toList fs).getD default

def toInt (numeral : Json → Except Error ℤ) : Json → Except Error ℤ
  | .int n => .ok n
  | .bool b => .ok (if b then 1 else 0)
  | .null | .arr _ | .obj _ =>
    .error (.typeError "int() argument must be a string, a bytes-like object or a real number")
  | v => numeral v

def readUsage (numeral : Json → Except Error ℤ) (u : List (Str × Json)) :
    Except Error LlmUsage := do
  let promptTokens ← toInt numeral (getOr u "prompt_tokens" (.int 0))
  let completionTokens ← toInt numeral (getOr u "completion_tokens" (.int 0))
  let totalTokens ← toInt numeral (getOr u "total_tokens" (.int 0))
  return ⟨promptTokens, completionTokens, totalTokens, getOr u "cost_usd" .null⟩

def noGet : Error := .attributeError "object has no attribute 'get'"

def readResult (numeral : Json → Except Error ℤ) : Json → Except Error LlmCallResult
  | .obj data =>
    match getOr data "usage" (.obj []) with
    | .obj u =>
      (readUsage numeral u).map fun usage =>
        ⟨getOr data "output_text" (.str []), usage, getOr data "raw" .null⟩
    | _ => .error noGet
  | _ => .error noGet

def readText (text : Str) : Str := replaceCr (replaceCrlf text)

def readFile (numeral : Json → Except Error ℤ) (text : Str) : Except Error LlmCallResult :=
  match Json.loads (readText text) with
  | none => .error (.valueError "Expecting value")
  | some v => readResult numeral v

section calls

structure CachingProvider where
  providerName : Str := "llm".toList
  readOnly : Bool := false

structure LlmError where
  code : Str
  message : Str

inductive CallError where
  | cacheMiss (key : Str)
  | llm (e : LlmError)
  | raised (e : Error)

structure Call where
  through : CachingProvider
  model : Str
  prompt : Str
  temperature : Setting := .none
  topP : Setting := .none
  inner : Except LlmError {r : LlmCallResult // r.Typed}

def Call.request (c : Call) : Request :=
  ⟨c.through.providerName, c.model, c.prompt, c.temperature, c.topP⟩

abbrev Cache := ReadThrough Request Str Str LlmCallResult

variable (numeral : Json → Except Error ℤ) (sha : Sha256)

def load (s : Cache) (key : Str) : Except Error (Option LlmCallResult) :=
  match s.store key with
  | none => .ok none
  | some text => (readFile numeral text).map some

def complete (c : Call) (s : Cache) : Except CallError LlmCallResult × Cache :=
  let key := cacheKey sha c.request
  match load numeral s key with
  | .error e => (.error (.raised e), s)
  | .ok (some cached) => (.ok cached, s)
  | .ok none =>
    if c.through.readOnly then (.error (.cacheMiss key), s)
    else
      match c.inner with
      | .error e => (.error (.llm e), s)
      | .ok result => (.ok result.val, s.keep (cacheKey sha) storedText c.request result.val)

def step (c : Call) (s : Cache) : Option Cache := some (complete numeral sha c s).2

end calls

structure Unchanged (r r' : LlmCallResult) : Prop where
  text : r'.outputText = r.outputText
  usage : r'.usage = r.usage
  raw : SameValue r.raw r'.raw

def Faithful (numeral : Json → Except Error ℤ) (sha : Sha256) (c : Call) (s : Cache) : Prop :=
  ∀ result, (complete numeral sha c s).1 = .ok result →
    ∃ r, (c.request, r) ∈ (complete numeral sha c s).2.replies ∧ Unchanged r result

structure Respelled (q r : Request) : Prop where
  provider : normalizeString q.provider = normalizeString r.provider
  model : normalizeString q.model = normalizeString r.model
  prompt : normalizeString q.prompt = normalizeString r.prompt
  temperature : q.temperature = r.temperature
  topP : q.topP = r.topP

def Call.Fresh (c : Call) (s : Cache) : Prop :=
  ∀ e ∈ s.replies, Respelled e.1 c.request → e.1 = c.request

section keys

variable {sha : Sha256} {q r : Request}

theorem Setting.wf (c : Setting) : Json.wf c.json = true := by
  cases c with
  | float f => exact f.valid
  | _ => rfl

theorem Setting.json_injective {c d : Setting} (h : c.json = d.json) : c = d := by
  cases c with
  | float f =>
    cases d with
    | float g =>
      obtain ⟨text, valid⟩ := f
      obtain ⟨text', valid'⟩ := g
      cases h
      rfl
    | _ => cases h
  | _ =>
    cases d <;> cases h
    all_goals rfl

theorem request_keys : ["provider".toList, "model".toList, "prompt".toList, "temperature".toList,
    "top_p".toList].Nodup := by decide +kernel

theorem Request.wf (r : Request) : Json.wf (.obj r.fields) = true := by
  refine Json.wf_obj request_keys fun f hf => ?_
  simp only [Request.fields, List.mem_cons, List.not_mem_nil, or_false] at hf
  rcases hf with rfl | rfl | rfl | rfl | rfl
  · rfl
  · rfl
  · rfl
  · exact r.temperature.wf
  · exact r.topP.wf

theorem normalizeValue_setting (c : Setting) : Artifacts.normalizeValue c.json = c.json := by
  cases c <;> rfl

theorem normalizeFields_request (r : Request) : Artifacts.normalizeFields r.fields =
    [("provider".toList, .str (normalizeString r.provider)),
      ("model".toList, .str (normalizeString r.model)),
      ("prompt".toList, .str (normalizeString r.prompt)),
      ("temperature".toList, r.temperature.json), ("top_p".toList, r.topP.json)] := by
  simp only [Request.fields, Artifacts.normalizeFields, Artifacts.normalizeValue,
    normalizeValue_setting]

theorem normalizeFields_keys (fs : List (Str × Json)) :
    (Artifacts.normalizeFields fs).map Prod.fst = fs.map Prod.fst := by
  rw [Artifacts.Consistency.normalizeFields_eq [], Artifacts.formFields_keys]

theorem normalizeFields_eq_iff : Artifacts.normalizeFields q.fields =
    Artifacts.normalizeFields r.fields ↔ Respelled q r := by
  rw [normalizeFields_request, normalizeFields_request]
  constructor
  · intro h
    simp only [List.cons.injEq, Prod.mk.injEq, Json.str.injEq, true_and, and_true] at h
    obtain ⟨hprovider, hmodel, hprompt, htemperature, htopP⟩ := h
    exact ⟨hprovider, hmodel, hprompt, Setting.json_injective htemperature,
      Setting.json_injective htopP⟩
  · rintro ⟨hprovider, hmodel, hprompt, htemperature, htopP⟩
    rw [hprovider, hmodel, hprompt, htemperature, htopP]

theorem cacheKey_eq_iff (hsha : Function.Injective sha.hexdigest) :
    cacheKey sha q = cacheKey sha r ↔ Respelled q r := by
  have hform : ∀ r : Request, Json.wf (Artifacts.normalizeValue (.obj r.fields)) = true := by
    intro r
    rw [Artifacts.Consistency.normalizeValue_eq []]
    exact Artifacts.form_wf _ [] r.wf
  have hkeys : ∀ r : Request, (Artifacts.normalizeFields r.fields).map Prod.fst =
      r.fields.map Prod.fst := fun r => normalizeFields_keys r.fields
  have hnodup : ((Artifacts.normalizeFields q.fields).map Prod.fst).Nodup := by
    rw [hkeys]
    exact request_keys
  rw [← normalizeFields_eq_iff]
  constructor
  · intro h
    have htext : normalizeBody (.obj q.fields) = normalizeBody (.obj r.fields) := hsha h
    have hvalue := Json.obj.inj (Json.render_injective _ (hform q) (hform r) htext)
    exact Runtime.Remote.eq_of_perm_keys ((Artifacts.sortFields_eq_iff hnodup).mp hvalue)
      ((hkeys q).trans (hkeys r).symm) hnodup
  · intro h
    rw [cacheKey, cacheKey, bodyHash, bodyHash, normalizeBody, normalizeBody,
      Artifacts.normalizeValue, Artifacts.normalizeValue, h]

end keys

section trip

variable {numeral : Json → Except Error ℤ} {r : LlmCallResult}

theorem usage_keys : ["prompt_tokens".toList, "completion_tokens".toList, "total_tokens".toList,
    "cost_usd".toList].Nodup := by decide +kernel

theorem result_keys : ["output_text".toList, "usage".toList, "raw".toList].Nodup := by
  decide +kernel

theorem LlmCallResult.Typed.wf (h : r.Typed) : Json.wf (.obj r.fields) = true := by
  obtain ⟨t, ht⟩ := h.text
  obtain ⟨c, hc⟩ := h.cost
  have husage : Json.wf (.obj r.usage.fields) = true := by
    refine Json.wf_obj usage_keys fun f hf => ?_
    simp only [LlmUsage.fields, List.mem_cons, List.not_mem_nil, or_false] at hf
    rcases hf with rfl | rfl | rfl | rfl
    · rfl
    · rfl
    · rfl
    · rw [hc]
      exact c.wf
  refine Json.wf_obj result_keys fun f hf => ?_
  simp only [LlmCallResult.fields, List.mem_cons, List.not_mem_nil, or_false] at hf
  rcases hf with rfl | rfl | rfl
  · rw [ht]
    rfl
  · exact husage
  · obtain hraw | ⟨d, hraw⟩ := h.raw
    · rw [hraw]
      rfl
    · rw [hraw]
      exact d.wf

theorem readText_render (st : Json.Style) {v : Json} (h : Json.wf v = true) :
    readText (st.render v) = st.render v := by
  have hcr : carriageReturn ∉ st.render v :=
    fun hm => (Json.render_oneLine st v (Json.readable_of_wf h) _ hm).2 rfl
  rw [readText, Artifacts.replaceCrlf_plain hcr, Artifacts.replaceCr_plain hcr]

theorem sortKeysFields_keys (fs : List (Str × Json)) :
    (Policy.sortKeysFields fs).map Prod.fst = fs.map Prod.fst := by
  rw [Runtime.Remote.sortKeysFields_eq [], Artifacts.formFields_keys]

theorem getOr_sorted {fs : List (Str × Json)} (h : (fs.map Prod.fst).Nodup) (key : String)
    (default : Json) :
    getOr (Artifacts.sortFields (Policy.sortKeysFields fs)) key default =
      getOr (Policy.sortKeysFields fs) key default := by
  rw [getOr, Artifacts.find_sortFields, getOr]
  rw [sortKeysFields_keys]
  exact h

def LlmCallResult.sorted (r : LlmCallResult) : LlmCallResult :=
  ⟨sortKeys r.outputText, { r.usage with costUsd := sortKeys r.usage.costUsd }, sortKeys r.raw⟩

theorem readUsage_sorted (numeral : Json → Except Error ℤ) (u : LlmUsage) :
    readUsage numeral (Artifacts.sortFields (Policy.sortKeysFields u.fields)) =
      .ok { u with costUsd := sortKeys u.costUsd } := by
  have hkeys : (u.fields.map Prod.fst).Nodup := usage_keys
  rw [readUsage, getOr_sorted hkeys, getOr_sorted hkeys, getOr_sorted hkeys, getOr_sorted hkeys]
  rfl

theorem readResult_sorted (numeral : Json → Except Error ℤ) (r : LlmCallResult) :
    readResult numeral (sortKeys (.obj r.fields)) = .ok r.sorted := by
  have hkeys : (r.fields.map Prod.fst).Nodup := result_keys
  rw [sortKeys, readResult, getOr_sorted hkeys, getOr_sorted hkeys, getOr_sorted hkeys]
  have husage : getOr (Policy.sortKeysFields r.fields) "usage" (.obj []) =
      .obj (Artifacts.sortFields (Policy.sortKeysFields r.usage.fields)) := rfl
  rw [husage]
  dsimp only
  rw [readUsage_sorted]
  rfl

theorem sortKeys_wf {v : Json} (h : Json.wf v = true) : Json.wf (sortKeys v) = true := by
  rw [Runtime.Remote.sortKeys_eq []]
  exact Artifacts.form_wf _ [] h

theorem sameValue_sortKeys {v : Json} (h : Json.wf v = true) : SameValue v (sortKeys v) := by
  rw [Runtime.Remote.sameValue_iff h (sortKeys_wf h), Runtime.Remote.sortKeys_eq [] (sortKeys v),
    Runtime.Remote.sortKeys_eq [] v]
  exact (Artifacts.form_absorb ⟨fun _ => rfl, fun _ hs => hs⟩ v [] h).symm

theorem readFile_stored (numeral : Json → Except Error ℤ) (h : r.Typed) :
    readFile numeral (storedText r) = .ok r.sorted := by
  have hwf := sortKeys_wf h.wf
  rw [readFile, storedText, canonicalJson, readText_render _ hwf, Json.loads_render _ hwf]
  exact readResult_sorted numeral r

theorem LlmCallResult.Typed.unchanged (h : r.Typed) : Unchanged r r.sorted := by
  obtain ⟨t, ht⟩ := h.text
  obtain ⟨c, hc⟩ := h.cost
  refine ⟨?_, ?_, ?_⟩
  · rw [LlmCallResult.sorted, ht]
    rfl
  · have hcost : sortKeys c.json = c.json := by cases c <;> rfl
    rw [LlmCallResult.sorted, hc, hcost, ← hc]
  · rcases h.raw with hraw | ⟨d, hraw⟩
    · rw [LlmCallResult.sorted, hraw]
      exact sameValue_sortKeys rfl
    · rw [LlmCallResult.sorted, hraw]
      exact sameValue_sortKeys d.wf

theorem LlmCallResult.Typed.kept (h : r.Typed) : Unchanged r r := by
  refine ⟨rfl, rfl, ?_⟩
  obtain hraw | ⟨d, hraw⟩ := h.raw
  · rw [hraw]
    exact (Runtime.Remote.sameValue_iff rfl rfl).mpr rfl
  · rw [hraw]
    exact (Runtime.Remote.sameValue_iff d.wf d.wf).mpr rfl

end trip

section runs

variable {numeral : Json → Except Error ℤ} {sha : Sha256} {c : Call} {s t : Cache}

structure Filled (sha : Sha256) (s : Cache) : Prop where
  sound : s.Sound (cacheKey sha) storedText
  typed : ∀ e ∈ s.replies, e.2.Typed

theorem filled_empty (sha : Sha256) : Filled sha .empty where
  sound := ReadThrough.sound_empty
  typed e he := by cases he

theorem Filled.complete (h : Filled sha s) (numeral : Json → Except Error ℤ) (c : Call) :
    (∃ r, s.store (cacheKey sha c.request) = some (storedText r) ∧ r.Typed ∧
      complete numeral sha c s = (.ok r.sorted, s)) ∨
    s.store (cacheKey sha c.request) = none ∧
      ((∃ r, r.Typed ∧ complete numeral sha c s =
        (.ok r, s.keep (cacheKey sha) storedText c.request r)) ∨
      ∃ e, complete numeral sha c s = (.error e, s)) := by
  rw [Llm.complete, load]
  cases hstore : s.store (cacheKey sha c.request) with
  | some text =>
    obtain ⟨⟨q, r⟩, hmem, -, rfl⟩ := h.sound.stored _ text hstore
    refine .inl ⟨r, rfl, h.typed _ hmem, ?_⟩
    dsimp only
    rw [readFile_stored numeral (h.typed _ hmem)]
    rfl
  | none =>
    refine .inr ⟨rfl, ?_⟩
    dsimp only
    split_ifs
    · exact .inr ⟨_, rfl⟩
    · cases c.inner with
      | error e => exact .inr ⟨_, rfl⟩
      | ok r => exact .inl ⟨r.val, r.property, rfl⟩

theorem Filled.step (h : Filled sha s) (hstep : step numeral sha c s = some t) : Filled sha t := by
  obtain rfl := Option.some.inj hstep
  rcases h.complete numeral c with ⟨r, -, -, hc⟩ | ⟨hnone, ⟨r, hr, hc⟩ | ⟨e, hc⟩⟩
  · rw [hc]
    exact h
  · rw [hc]
    refine ⟨h.sound.keep hnone r, fun e he => ?_⟩
    rcases ReadThrough.mem_keep.mp he with he | rfl
    · exact h.typed e he
    · exact hr
  · rw [hc]
    exact h

theorem Filled.faithful_iff (hsha : Function.Injective sha.hexdigest) (h : Filled sha s)
    (numeral : Json → Except Error ℤ) (c : Call) : Faithful numeral sha c s ↔ c.Fresh s := by
  have hkeys : (∀ e ∈ s.replies, cacheKey sha e.1 = cacheKey sha c.request → e.1 = c.request) ↔
      c.Fresh s := by
    simp only [Call.Fresh, cacheKey_eq_iff hsha]
  rcases h.complete numeral c with ⟨r, hstore, hr, hc⟩ | ⟨hnone, ⟨r, hr, hc⟩ | ⟨e, hc⟩⟩
  · rw [Faithful, hc, ← hkeys, ← h.sound.hit hstore]
    constructor
    · intro hf
      obtain ⟨r', hmem, -⟩ := hf _ rfl
      have hkept := h.sound.kept _ hmem
      exact ⟨r', hmem, Option.some.inj (hkept.symm.trans hstore)⟩
    · rintro ⟨r', hmem, htext⟩ result hresult
      cases hresult
      have hsorted : (Except.ok r'.sorted : Except Error LlmCallResult) = .ok r.sorted := by
        rw [← readFile_stored numeral (h.typed _ hmem), ← readFile_stored numeral hr, htext]
      exact ⟨r', hmem, Except.ok.inj hsorted ▸ (h.typed _ hmem).unchanged⟩
  · have hfresh : c.Fresh s :=
      hkeys.mp fun e he hkey => absurd hkey (h.sound.fresh hnone e he)
    rw [Faithful, hc]
    refine iff_of_true (fun result hresult => ?_) hfresh
    cases hresult
    exact ⟨r, ReadThrough.mem_keep.mpr (.inr rfl), hr.kept⟩
  · have hfresh : c.Fresh s :=
      hkeys.mp fun e he hkey => absurd hkey (h.sound.fresh hnone e he)
    rw [Faithful, hc]
    exact iff_of_true (fun result hresult => by cases hresult) hfresh

theorem faithful_iff_fresh (hsha : Function.Injective sha.hexdigest)
    (numeral : Json → Except Error ℤ) (calls : List Call) :
    Runs.Throughout (step numeral sha) (Faithful numeral sha) calls .empty ↔
      Runs.Throughout (step numeral sha) Call.Fresh calls .empty := by
  have hpoint : ∀ before t, Runs.after (step numeral sha) before .empty = some t →
      ∀ c : Call, Faithful numeral sha c t ↔ c.Fresh t := by
    intro before t ht c
    have hfilled : Filled sha t :=
      Runs.after_invariant (fun _ _ _ h he => h.step he) ht (filled_empty sha)
    exact hfilled.faithful_iff hsha numeral c
  constructor
  · intro h before c rest hsplit t ht
    exact (hpoint before t ht c).mp (h before c rest hsplit t ht)
  · intro h before c rest hsplit t ht
    exact (hpoint before t ht c).mpr (h before c rest hsplit t ht)

end runs

def echo : {r : LlmCallResult // r.Typed} :=
  ⟨⟨.str ['o'], ⟨1, 1, 2, .null⟩, .null⟩, ⟨['o'], rfl⟩, ⟨.none, rfl⟩, .inl rfl⟩

def asked (prompt : Str) : Call where
  through := {}
  model := ['m']
  prompt := prompt
  inner := .ok echo

def noNumeral : Json → Except Error ℤ := fun _ => .error (.valueError "invalid literal for int()")

theorem faithful_same_prompt : Runs.Throughout (step noNumeral (.ofTable [] rfl))
    (Faithful noNumeral (.ofTable [] rfl)) [asked ['x'], asked ['x']] .empty := by
  refine (faithful_iff_fresh Artifacts.ofTable_nil_injective noNumeral _).mpr ?_
  refine .cons (fun e he => by cases he) fun t ht => ?_
  cases ht
  refine .cons (fun e he _ => ?_) fun t ht => Runs.throughout_nil
  rcases ReadThrough.mem_keep.mp he with he | rfl
  · cases he
  · rfl

theorem blank_before_prompt : ¬ ∀ (sha : Sha256), Function.Injective sha.hexdigest →
    ∀ numeral calls, Runs.Throughout (step numeral sha) (Faithful numeral sha) calls .empty := by
  intro h
  have hrun := h _ Artifacts.ofTable_nil_injective noNumeral [asked ['x'], asked [' ', 'x']]
  have hfirst : step noNumeral (.ofTable [] rfl) (asked ['x']) .empty = some _ := rfl
  have hfilled := (filled_empty _).step hfirst
  have hfaithful := hrun [asked ['x']] (asked [' ', 'x']) [] rfl _ rfl
  have hfresh := (hfilled.faithful_iff Artifacts.ofTable_nil_injective _ _).mp hfaithful
  have hsame := hfresh _ (ReadThrough.mem_keep.mpr (.inr rfl))
    ⟨rfl, rfl, by decide +kernel, rfl, rfl⟩
  cases hsame

end TraceMind.Llm
