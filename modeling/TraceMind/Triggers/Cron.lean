import TraceMind.Foundation.Fallible
import TraceMind.Queue.Recovery
import Mathlib.Data.Rat.Floor

namespace TraceMind.Triggers

def daysBeforeMonth : List ℕ := [0, 0, 31, 59, 90, 120, 151, 181, 212, 243, 273, 304, 334]

def daysInMonth : List ℕ := [0, 31, 28, 31, 30, 31, 30, 31, 31, 30, 31, 30, 31]

def monthDay (leap : Bool) (n : ℕ) : ℕ × ℕ :=
  let month := (n + 50) / 32
  let preceding := daysBeforeMonth.getD month 0 + if month > 2 ∧ leap then 1 else 0
  if preceding > n then
    let preceding := preceding -
      (daysInMonth.getD (month - 1) 0 + if month - 1 = 2 ∧ leap then 1 else 0)
    (month - 1, n - preceding + 1)
  else (month, n - preceding + 1)

def civil (n : ℕ) : ℕ × ℕ :=
  let n400 := n % 146097
  let n100 := n400 % 36524
  let n4 := n100 % 1461
  let century := n400 / 36524
  let quad := n100 / 1461
  let year := n4 / 365
  if year = 4 ∨ century = 4 then (12, 31)
  else monthDay (decide (year = 3 ∧ (quad ≠ 24 ∨ century = 3))) (n4 % 365)

theorem monthDay_day {leap : Bool} {n : ℕ} (h : n < 365) :
    1 ≤ (monthDay leap n).2 ∧ (monthDay leap n).2 ≤ 31 := by
  have hall : ∀ leap : Bool, ∀ n < 365, 1 ≤ (monthDay leap n).2 ∧ (monthDay leap n).2 ≤ 31 := by
    decide +kernel
  exact hall leap n h

theorem civil_day (n : ℕ) : 1 ≤ (civil n).2 ∧ (civil n).2 ≤ 31 := by
  rw [civil]
  split_ifs
  · decide
  · exact monthDay_day (Nat.mod_lt _ (by decide))

inductive CronError where
  | value (message : Str)
  | runtime (message : Str)
  | overflow
deriving DecidableEq

def splitOn (sep : Char) : Str → List Str
  | [] => [[]]
  | c :: cs =>
    if c = sep then [] :: splitOn sep cs
    else
      match splitOn sep cs with
      | [] => [[c]]
      | word :: words => (c :: word) :: words

def splitFirst (sep : Char) (text : Str) : Str × Str :=
  (text.takeWhile (· ≠ sep), (text.dropWhile (· ≠ sep)).drop 1)

def cronInt (text : Str) : Except CronError ℤ :=
  match Queue.intOfText text with
  | some n => .ok n
  | none => .error (.value ("invalid literal for int() with base 10: '".toList ++ text ++
      "'".toList))

def stepsFrom (start step : ℤ) (count : ℕ) : List ℤ :=
  (List.range count).map (fun i : ℕ => start + step * (i : ℤ))

def pyRange (start stop step : ℤ) : Except CronError (List ℤ) :=
  if step = 0 then .error (.value "range() arg 3 must not be zero".toList)
  else if 0 < step then
    .ok (stepsFrom start step ((stop - start + step - 1) / step).toNat)
  else
    .ok (stepsFrom start step ((start - stop - step - 1) / -step).toNat)

def rangeBounds (part : Str) : Except CronError (ℤ × ℤ) :=
  if '-' ∈ part then do
    let start ← cronInt (splitFirst '-' part).1
    let stop ← cronInt (splitFirst '-' part).2
    .ok (start, stop)
  else (cronInt part).map (fun n => (n, n))

def parseToken (minimum maximum : ℤ) (token : Str) : Except CronError (List ℤ) :=
  if token = "*".toList then pyRange minimum (maximum + 1) 1
  else if "*/".toList.isPrefixOf token then do
    let step ← cronInt (token.drop 2)
    pyRange minimum (maximum + 1) step
  else do
    let parts := if '/' ∈ token then splitFirst '/' token else (token, "1".toList)
    let step ← cronInt parts.2
    let bounds ← rangeBounds parts.1
    let values ← pyRange bounds.1 (bounds.2 + 1) step
    .ok (values.filter (fun v => minimum ≤ v ∧ v ≤ maximum))

def parseCronField (field : Str) (minimum maximum : ℤ) : Except CronError (List ℤ) :=
  ((splitOn ',' field).mapM (fun token => parseToken minimum maximum (strip token))).map
    List.flatten

def microsPerMinute : ℕ := 60000000

def microsPerSecond : ℕ := 1000000

def minutesPerDay : ℕ := 1440

def maxMinute : ℕ := 3652059 * minutesPerDay - 1

structure CronFields where
  minute : List ℤ
  hour : List ℤ
  day : List ℤ
  month : List ℤ
  weekday : List ℤ

inductive CronSchedule where
  | every (interval : ℚ)
  | fields (fs : CronFields)

def dayOf (t : ℕ) : ℕ × ℕ := civil (t / minutesPerDay)

def dowOf (t : ℕ) : ℕ := (t / minutesPerDay + 1) % 7

def matchDomDow (t : ℕ) (days weekdays : List ℤ) : Bool :=
  let domMatch := if days = [] then true else decide (((dayOf t).2 : ℤ) ∈ days)
  let dowMatch := if weekdays = [] then true else decide ((dowOf t : ℤ) ∈ weekdays)
  if days ≠ [] ∧ weekdays ≠ [] then domMatch || dowMatch else domMatch && dowMatch

def matchClock (fs : CronFields) (t : ℕ) : Bool :=
  decide (((t % 60 : ℕ) : ℤ) ∈ fs.minute) && decide (((t / 60 % 24 : ℕ) : ℤ) ∈ fs.hour) &&
    decide (((dayOf t).1 : ℤ) ∈ fs.month)

def CronFields.matches (fs : CronFields) (t : ℕ) : Bool :=
  matchClock fs t && matchDomDow t fs.day fs.weekday

def noOccurrence : CronError :=
  .runtime "cron schedule could not find next occurrence within a year".toList

def lookAhead (p : ℕ → Bool) : ℕ → ℕ → Except CronError ℕ
  | 0, _ => .error noOccurrence
  | n + 1, t =>
    if p t then .ok t
    else if maxMinute < t + 1 then .error .overflow
    else lookAhead p n (t + 1)

def roundHalfEven (q : ℚ) : ℤ :=
  if q - ⌊q⌋ < 1 / 2 then ⌊q⌋
  else if 1 / 2 < q - ⌊q⌋ then ⌊q⌋ + 1
  else if ⌊q⌋ % 2 = 0 then ⌊q⌋ else ⌊q⌋ + 1

def timedelta (s : ℚ) : ℤ := roundHalfEven (s * 1000000)

def CronSchedule.nextAfter (moment : ℕ) : CronSchedule → Except CronError ℕ
  | .every interval =>
    if (maxMinute + 1) * microsPerMinute ≤ moment + (timedelta interval).toNat then .error .overflow
    else .ok (moment + (timedelta interval).toNat)
  | .fields fs =>
    if maxMinute < moment / microsPerMinute + 1 then .error .overflow
    else (lookAhead fs.matches 525600 (moment / microsPerMinute + 1)).map (· * microsPerMinute)

def CronSchedule.fires (s : CronSchedule) (start : ℕ) : ℕ → Except CronError ℕ
  | 0 => s.nextAfter start
  | k + 1 => (s.fires start k).bind (fun t => s.nextAfter (t + microsPerSecond))

def splitWords (text : Str) : List Str :=
  (text.splitBy (fun a b => isSpace a == isSpace b)).filter (fun w => !w.all isSpace)

def parseFields (texts : List Str) : Except CronError CronFields :=
  match texts with
  | [minute, hour, day, month, weekday] => do
    let minute ← parseCronField minute 0 59
    let hour ← parseCronField hour 0 23
    let day ← parseCronField day 1 31
    let month ← parseCronField month 1 12
    let weekday ← parseCronField weekday 0 6
    .ok ⟨minute, hour, day, month, weekday⟩
  | _ => .error (.value "cron expression must have 5 fields".toList)

-- `float` is Python's, of which only the result is used.
def CronSchedule.fromExpr (float : Str → Except CronError ℚ) (expr : Str) :
    Except CronError CronSchedule :=
  if "@every".toList.isPrefixOf (strip expr) then
    match splitWords (strip expr) with
    | [_, seconds] => do
      let interval ← float (seconds.reverse.dropWhile (· = 's')).reverse
      if interval ≤ 0 then .error (.value "@every interval must be positive".toList)
      else .ok (.every interval)
    | _ => .error (.value "@every expression must be '@every <seconds>'".toList)
  else (parseFields (splitWords (strip expr))).map .fields

def restricted (field : Str) : Bool := decide (field ≠ "*".toList)

def standardDay (day weekday : Str) (fs : CronFields) (t : ℕ) : Bool :=
  let dom := decide (((dayOf t).2 : ℤ) ∈ fs.day)
  let dow := decide ((dowOf t : ℤ) ∈ fs.weekday)
  if restricted day && restricted weekday then dom || dow
  else (!restricted day || dom) && (!restricted weekday || dow)

def standard (day weekday : Str) (fs : CronFields) (t : ℕ) : Bool :=
  matchClock fs t && standardDay day weekday fs t

structure First (p : ℕ → Bool) (moment t : ℕ) : Prop where
  ok : p t = true
  after : moment < t * microsPerMinute
  range : t ≤ maxMinute
  least : ∀ u, moment < u * microsPerMinute → p u = true → t ≤ u

section parsing

variable {field : Str} {fs : CronFields} {t : ℕ}

theorem mem_pyRange_one {lo hi v : ℤ} {values : List ℤ} (h : pyRange lo (hi + 1) 1 = .ok values)
    (hlo : lo ≤ v) (hhi : v ≤ hi) : v ∈ values := by
  rw [pyRange, if_neg one_ne_zero, if_pos one_pos] at h
  obtain rfl := Except.ok.inj h
  rw [stepsFrom, List.mem_map]
  refine ⟨(v - lo).toNat, List.mem_range.mpr ?_, ?_⟩ <;> omega

theorem parseCronField_star {lo hi : ℤ} {values : List ℤ}
    (h : parseCronField "*".toList lo hi = .ok values) : pyRange lo (hi + 1) 1 = .ok values := by
  have hparse : parseCronField "*".toList lo hi =
      ((pyRange lo (hi + 1) 1).map (fun v => [v])).map List.flatten := by
    show ((["*".toList]).mapM (fun token => parseToken lo hi (strip token))).map _ = _
    rw [List.mapM_cons, List.mapM_nil]
    show ((parseToken lo hi (strip "*".toList)).bind _).map _ = _
    have hstrip : strip "*".toList = "*".toList := by decide
    rw [hstrip, parseToken, if_pos rfl]
    rfl
  rw [hparse] at h
  cases hrange : pyRange lo (hi + 1) 1 with
  | error e =>
    rw [hrange] at h
    cases h
  | ok range =>
    rw [hrange] at h
    obtain rfl := Except.ok.inj h
    simp

structure Parsed (day weekday : Str) (fs : CronFields) : Prop where
  day : restricted day = false → ∀ v : ℤ, 1 ≤ v → v ≤ 31 → v ∈ fs.day
  weekday : restricted weekday = false → ∀ v : ℤ, 0 ≤ v → v ≤ 6 → v ∈ fs.weekday

theorem parsed_of_fields {minute hour day month weekday : Str}
    (h : parseFields [minute, hour, day, month, weekday] = .ok fs) : Parsed day weekday fs := by
  rw [parseFields] at h
  obtain ⟨minutes, -, h⟩ := Fallible.bind_eq_ok.mp h
  obtain ⟨hours, -, h⟩ := Fallible.bind_eq_ok.mp h
  obtain ⟨days, hdays, h⟩ := Fallible.bind_eq_ok.mp h
  obtain ⟨months, -, h⟩ := Fallible.bind_eq_ok.mp h
  obtain ⟨weekdays, hweekdays, h⟩ := Fallible.bind_eq_ok.mp h
  obtain rfl := Except.ok.inj h
  constructor
  · intro hday v hlo hhi
    obtain rfl : day = "*".toList := by simpa [restricted] using hday
    exact mem_pyRange_one (parseCronField_star hdays) hlo hhi
  · intro hweekday v hlo hhi
    obtain rfl : weekday = "*".toList := by simpa [restricted] using hweekday
    exact mem_pyRange_one (parseCronField_star hweekdays) hlo hhi

end parsing

section days

variable {day weekday : Str} {fs : CronFields} {t : ℕ}

theorem Parsed.dom (h : Parsed day weekday fs) (hday : restricted day = false) (t : ℕ) :
    ((dayOf t).2 : ℤ) ∈ fs.day := by
  have hrange := civil_day (t / minutesPerDay)
  exact h.day hday _ (by exact_mod_cast hrange.1) (by exact_mod_cast hrange.2)

theorem Parsed.dow (h : Parsed day weekday fs) (hweekday : restricted weekday = false) (t : ℕ) :
    (dowOf t : ℤ) ∈ fs.weekday := by
  have hlt : dowOf t < 7 := Nat.mod_lt _ (by decide)
  exact h.weekday hweekday _ (by omega) (by omega)

structure DayTests (day weekday : Str) (fs : CronFields) (t : ℕ) (dom dow : Bool) : Prop where
  standard : standardDay day weekday fs t =
    if restricted day && restricted weekday then dom || dow else dom && dow
  code : matchDomDow t fs.day fs.weekday =
    if fs.day ≠ [] ∧ fs.weekday ≠ [] then dom || dow
    else (decide (fs.day = []) || dom) && (decide (fs.weekday = []) || dow)
  dom_free : restricted day = false → dom = true
  dow_free : restricted weekday = false → dow = true
  dom_empty : fs.day = [] → dom = false
  dow_empty : fs.weekday = [] → dow = false

theorem Parsed.tests (h : Parsed day weekday fs) (t : ℕ) :
    DayTests day weekday fs t (decide (((dayOf t).2 : ℤ) ∈ fs.day))
      (decide ((dowOf t : ℤ) ∈ fs.weekday)) where
  standard := by
    rw [standardDay]
    cases hday : restricted day <;> cases hweekday : restricted weekday
    · simp [h.dom hday t, h.dow hweekday t]
    · simp [h.dom hday t]
    · simp [h.dow hweekday t]
    · simp
  code := by
    by_cases hday : fs.day = [] <;> by_cases hweekday : fs.weekday = [] <;>
      simp [matchDomDow, hday, hweekday]
  dom_free := fun hday => decide_eq_true (h.dom hday t)
  dow_free := fun hweekday => decide_eq_true (h.dow hweekday t)
  dom_empty := fun hday => by simp [hday]
  dow_empty := fun hweekday => by simp [hweekday]

variable {dom dow : Bool}

theorem DayTests.listed (h : DayTests day weekday fs t dom dow)
    (ht : standardDay day weekday fs t = true) : fs.day ≠ [] ∨ fs.weekday ≠ [] := by
  by_contra hnone
  rw [not_or, not_not, not_not] at hnone
  have hdom := h.dom_empty hnone.1
  have hdow := h.dow_empty hnone.2
  rw [h.standard, hdom, hdow] at ht
  simp at ht

theorem DayTests.code_eq (h : DayTests day weekday fs t dom dow)
    (hsame : restricted day = restricted weekday) (hlisted : fs.day ≠ [] ∨ fs.weekday ≠ []) :
    matchDomDow t fs.day fs.weekday = standardDay day weekday fs t := by
  rw [h.standard, h.code, hsame]
  cases hweekday : restricted weekday with
  | false =>
    have hdom := h.dom_free (hsame.trans hweekday)
    have hdow := h.dow_free hweekday
    simp [hdom, hdow]
  | true =>
    by_cases hday : fs.day = []
    · have hdow : fs.weekday ≠ [] := hlisted.resolve_left (not_not.mpr hday)
      simp [hday, hdow, h.dom_empty hday]
    · by_cases hweekdays : fs.weekday = []
      · simp [hday, hweekdays, h.dow_empty hweekdays]
      · simp [hday, hweekdays]

theorem DayTests.listed_both (h : DayTests day weekday fs t dom dow)
    (hdiff : restricted day ≠ restricted weekday) (ht : standardDay day weekday fs t = true) :
    fs.day ≠ [] ∧ fs.weekday ≠ [] := by
  have hor : (restricted day && restricted weekday) = false := by
    cases hday : restricted day <;> cases hweekday : restricted weekday <;> simp_all
  rw [h.standard, hor] at ht
  obtain ⟨hdom, hdow⟩ := Bool.and_eq_true_iff.mp ht
  constructor
  · intro hday
    rw [h.dom_empty hday] at hdom
    cases hdom
  · intro hweekday
    rw [h.dow_empty hweekday] at hdow
    cases hdow

theorem DayTests.code_true (h : DayTests day weekday fs t dom dow)
    (hdiff : restricted day ≠ restricted weekday) (hboth : fs.day ≠ [] ∧ fs.weekday ≠ []) :
    matchDomDow t fs.day fs.weekday = true := by
  rw [h.code, if_pos hboth, Bool.or_eq_true]
  cases hday : restricted day with
  | false => exact Or.inl (h.dom_free hday)
  | true =>
    refine Or.inr (h.dow_free ?_)
    cases hweekday : restricted weekday with
    | false => rfl
    | true => exact absurd (hday.trans hweekday.symm) hdiff

end days

section search

variable {p : ℕ → Bool} {n t u : ℕ}

theorem lookAhead_eq_ok (ht : t ≤ maxMinute) : lookAhead p n t = .ok u ↔
    t ≤ u ∧ u < t + n ∧ u ≤ maxMinute ∧ p u = true ∧ ∀ v, t ≤ v → v < u → p v = false := by
  induction n generalizing t with
  | zero =>
    constructor
    · intro h
      cases h
    · rintro ⟨hle, hlt, -⟩
      omega
  | succ n ih =>
    rw [lookAhead]
    split_ifs with hp hmax
    · constructor
      · intro h
        obtain rfl := Except.ok.inj h
        exact ⟨le_rfl, by omega, ht, hp, fun v h₁ h₂ => by omega⟩
      · rintro ⟨hle, -, -, -, hleast⟩
        rcases hle.eq_or_lt with rfl | hlt
        · rfl
        · rw [hleast t le_rfl hlt] at hp
          cases hp
    · constructor
      · intro h
        cases h
      · rintro ⟨hle, -, hu, hpu, -⟩
        obtain rfl : u = t := by omega
        exact absurd hpu hp
    · rw [ih (by omega)]
      constructor
      · rintro ⟨hle, hlt, hu, hpu, hleast⟩
        refine ⟨by omega, by omega, hu, hpu, fun v h₁ h₂ => ?_⟩
        rcases h₁.eq_or_lt with rfl | hlt'
        · simpa using hp
        · exact hleast v hlt' h₂
      · rintro ⟨hle, hlt, hu, hpu, hleast⟩
        have hne : t ≠ u := by
          rintro rfl
          exact hp hpu
        exact ⟨by omega, by omega, hu, hpu, fun v h₁ h₂ => hleast v (by omega) h₂⟩

theorem minute_after {moment t : ℕ} :
    moment < t * microsPerMinute ↔ moment / microsPerMinute + 1 ≤ t := by
  rw [← Nat.div_lt_iff_lt_mul (by decide)]
  exact Nat.lt_iff_add_one_le

end search

section next

variable {day weekday : Str} {fs : CronFields} {moment t : ℕ}

def HasOccurrence (day weekday : Str) (fs : CronFields) (moment : ℕ) : Prop :=
  ∃ t, standard day weekday fs t = true ∧ moment < t * microsPerMinute ∧ t ≤ maxMinute

def Answers (day weekday : Str) (fs : CronFields) (moment : ℕ) : Prop :=
  ∃ t, (CronSchedule.fields fs).nextAfter moment = .ok (t * microsPerMinute) ∧
    First (standard day weekday fs) moment t

def WithinYear (day weekday : Str) (fs : CronFields) (moment : ℕ) : Prop :=
  ∃ t, standard day weekday fs t = true ∧ moment < t * microsPerMinute ∧ t ≤ maxMinute ∧
    t ≤ moment / microsPerMinute + 525600

def DaysAgree (day weekday : Str) (fs : CronFields) (moment : ℕ) : Prop :=
  restricted day = restricted weekday ∨
    ∀ t, First (matchClock fs) moment t → standardDay day weekday fs t = true

theorem exists_first {p : ℕ → Bool} (ht : p t = true) (hafter : moment < t * microsPerMinute)
    (hrange : t ≤ maxMinute) : ∃ u, First p moment u ∧ u ≤ t := by
  have hex : ∃ u, moment < u * microsPerMinute ∧ p u = true := ⟨t, hafter, ht⟩
  obtain ⟨hu, hpu⟩ := Nat.find_spec hex
  have hle : Nat.find hex ≤ t := Nat.find_min' hex ⟨hafter, ht⟩
  refine ⟨Nat.find hex, ⟨hpu, hu, hle.trans hrange, fun v hv hpv => ?_⟩, hle⟩
  exact Nat.find_min' hex ⟨hv, hpv⟩

theorem nextAfter_eq_ok : (CronSchedule.fields fs).nextAfter moment = .ok (t * microsPerMinute) ↔
    First fs.matches moment t ∧ t ≤ moment / microsPerMinute + 525600 := by
  rw [CronSchedule.nextAfter]
  split_ifs with hmax
  · constructor
    · intro h
      cases h
    · rintro ⟨hfirst, -⟩
      have hafter := minute_after.mp hfirst.after
      have hrange := hfirst.range
      omega
  · have hmap : (lookAhead fs.matches 525600 (moment / microsPerMinute + 1)).map
        (· * microsPerMinute) = .ok (t * microsPerMinute) ↔
        lookAhead fs.matches 525600 (moment / microsPerMinute + 1) = .ok t := by
      constructor
      · intro h
        obtain ⟨u, hu, heq⟩ := Fallible.map_eq_ok.mp h
        obtain rfl : u = t := Nat.eq_of_mul_eq_mul_right (by decide) heq
        exact hu
      · intro h
        rw [h]
        rfl
    rw [hmap, lookAhead_eq_ok (not_lt.mp hmax)]
    constructor
    · rintro ⟨hle, hlt, hrange, hok, hleast⟩
      refine ⟨⟨hok, minute_after.mpr hle, hrange, fun u hu hpu => ?_⟩, by omega⟩
      by_contra hult
      rw [hleast u (minute_after.mp hu) (not_le.mp hult)] at hpu
      cases hpu
    · rintro ⟨hfirst, hyear⟩
      refine ⟨minute_after.mp hfirst.after, by omega, hfirst.range, hfirst.ok, fun u hu hlt => ?_⟩
      cases hpu : fs.matches u with
      | false => rfl
      | true => exact absurd (hfirst.least u (minute_after.mpr hu) hpu) (not_le.mpr hlt)

theorem Parsed.matches_iff (h : Parsed day weekday fs)
    (hsame : restricted day = restricted weekday) (hlisted : fs.day ≠ [] ∨ fs.weekday ≠ [])
    (t : ℕ) : fs.matches t = standard day weekday fs t := by
  rw [CronFields.matches, standard, (h.tests t).code_eq hsame hlisted]

theorem Parsed.matches_clock (h : Parsed day weekday fs)
    (hdiff : restricted day ≠ restricted weekday) (hboth : fs.day ≠ [] ∧ fs.weekday ≠ [])
    (t : ℕ) : fs.matches t = matchClock fs t := by
  rw [CronFields.matches, (h.tests t).code_true hdiff hboth, Bool.and_true]

theorem First.congr {p q : ℕ → Bool} (h : First p moment t) (heq : ∀ t, p t = q t) :
    First q moment t :=
  ⟨(heq t).symm.trans h.ok, h.after, h.range, fun u hu hq => h.least u hu ((heq u).trans hq)⟩

theorem answers_iff_of_ne (h : Parsed day weekday fs)
    (hdiff : restricted day ≠ restricted weekday) (hboth : fs.day ≠ [] ∧ fs.weekday ≠ []) :
    Answers day weekday fs moment ↔
      WithinYear day weekday fs moment ∧ DaysAgree day weekday fs moment := by
  have hclock := h.matches_clock hdiff hboth
  constructor
  · rintro ⟨t, hnext, hfirst⟩
    obtain ⟨hcode, hyear⟩ := nextAfter_eq_ok.mp hnext
    refine ⟨⟨t, hfirst.ok, hfirst.after, hfirst.range, hyear⟩, Or.inr (fun u hu => ?_)⟩
    obtain rfl : t = u := le_antisymm
      (hcode.least u hu.after ((hclock u).trans hu.ok))
      (hu.least t hfirst.after (Bool.and_eq_true_iff.mp hfirst.ok).1)
    exact (Bool.and_eq_true_iff.mp hfirst.ok).2
  · rintro ⟨⟨t, hok, hafter, hrange, hyear⟩, hagree⟩
    obtain ⟨u, hu, hle⟩ := exists_first (Bool.and_eq_true_iff.mp hok).1 hafter hrange
    have hday := (hagree.resolve_left hdiff) u hu
    refine ⟨u, nextAfter_eq_ok.mpr ⟨hu.congr (fun t => (hclock t).symm), by omega⟩, ?_⟩
    exact ⟨Bool.and_eq_true_iff.mpr ⟨hu.ok, hday⟩, hu.after, hu.range,
      fun v hv hv' => hu.least v hv (Bool.and_eq_true_iff.mp hv').1⟩

theorem answers_iff_of_eq (h : Parsed day weekday fs)
    (hsame : restricted day = restricted weekday) (hlisted : fs.day ≠ [] ∨ fs.weekday ≠ []) :
    Answers day weekday fs moment ↔
      WithinYear day weekday fs moment ∧ DaysAgree day weekday fs moment := by
  have hmatches := h.matches_iff hsame hlisted
  constructor
  · rintro ⟨t, hnext, hfirst⟩
    exact ⟨⟨t, hfirst.ok, hfirst.after, hfirst.range, (nextAfter_eq_ok.mp hnext).2⟩, Or.inl hsame⟩
  · rintro ⟨⟨t, hok, hafter, hrange, hyear⟩, -⟩
    obtain ⟨u, hu, hle⟩ := exists_first hok hafter hrange
    exact ⟨u, nextAfter_eq_ok.mpr ⟨hu.congr (fun t => (hmatches t).symm), by omega⟩, hu⟩

theorem answers_iff (h : Parsed day weekday fs) (hocc : HasOccurrence day weekday fs moment) :
    Answers day weekday fs moment ↔
      WithinYear day weekday fs moment ∧ DaysAgree day weekday fs moment := by
  obtain ⟨t, ht, -⟩ := hocc
  have hday := (Bool.and_eq_true_iff.mp ht).2
  by_cases hsame : restricted day = restricted weekday
  · exact answers_iff_of_eq h hsame ((h.tests t).listed hday)
  · exact answers_iff_of_ne h hsame ((h.tests t).listed_both hsame hday)

end next

section every

variable {interval : ℚ} {start k t u : ℕ}

theorem le_roundHalfEven (q : ℚ) : q - 1 / 2 ≤ roundHalfEven q := by
  have hlt := Int.lt_floor_add_one q
  rw [roundHalfEven]
  split_ifs <;> push_cast <;> linarith

theorem nextAfter_every (h : (CronSchedule.every interval).nextAfter t = .ok u) :
    u = t + (timedelta interval).toNat := by
  rw [CronSchedule.nextAfter] at h
  split_ifs at h
  exact (Except.ok.inj h).symm

theorem fires_succ (s : CronSchedule) (ht : s.fires start k = .ok t) :
    s.fires start (k + 1) = s.nextAfter (t + microsPerSecond) := by
  rw [CronSchedule.fires, ht]
  rfl

theorem fires_every (ht : (CronSchedule.every interval).fires start k = .ok t)
    (hu : (CronSchedule.every interval).fires start (k + 1) = .ok u) :
    u = t + microsPerSecond + (timedelta interval).toNat := by
  rw [fires_succ _ ht] at hu
  exact nextAfter_every hu

theorem fires_every_ne (ht : (CronSchedule.every interval).fires start k = .ok t)
    (hu : (CronSchedule.every interval).fires start (k + 1) = .ok u) :
    (u : ℚ) - t ≠ interval * 1000000 := by
  have hround := le_roundHalfEven (interval * 1000000)
  have hnat : (timedelta interval : ℚ) ≤ ((timedelta interval).toNat : ℚ) := by
    exact_mod_cast Int.self_le_toNat _
  have hsecond : (microsPerSecond : ℚ) = 1000000 := by norm_num [microsPerSecond]
  rw [fires_every ht hu, Nat.cast_add, Nat.cast_add, hsecond]
  rw [timedelta] at hnat ⊢
  intro heq
  linarith

end every

section expressions

variable {float : Str → Except CronError ℚ} {expr minute hour day month weekday : Str}
  {s : CronSchedule}

theorem fromExpr_fields (hwords : splitWords (strip expr) = [minute, hour, day, month, weekday])
    (h : CronSchedule.fromExpr float expr = .ok s) :
    ∃ fs, parseFields [minute, hour, day, month, weekday] = .ok fs ∧ s = .fields fs := by
  rw [CronSchedule.fromExpr, hwords] at h
  split_ifs at h
  obtain ⟨fs, hfs, rfl⟩ := Fallible.map_eq_ok.mp h
  exact ⟨fs, hfs, rfl⟩

theorem cron_correct_iff (float : Str → Except CronError ℚ) :
    (∀ expr minute hour day month weekday s moment,
      splitWords (strip expr) = [minute, hour, day, month, weekday] →
      CronSchedule.fromExpr float expr = .ok s → ∃ fs, s = .fields fs ∧
        (HasOccurrence day weekday fs moment → (Answers day weekday fs moment ↔
          WithinYear day weekday fs moment ∧ DaysAgree day weekday fs moment))) ∧
    ∀ expr interval start k t u, CronSchedule.fromExpr float expr = .ok (.every interval) →
      (CronSchedule.every interval).fires start k = .ok t →
      (CronSchedule.every interval).fires start (k + 1) = .ok u →
      (u : ℚ) - t ≠ interval * 1000000 := by
  constructor
  · intro expr minute hour day month weekday s moment hwords h
    obtain ⟨fs, hfs, rfl⟩ := fromExpr_fields hwords h
    exact ⟨fs, rfl, answers_iff (parsed_of_fields hfs)⟩
  · intro expr interval start k t u _ ht hu
    exact fires_every_ne ht hu

def lateOn (n : ℕ) : ℕ := ((739616 + n) * minutesPerDay - 2) * microsPerMinute

def noFloat : Str → Except CronError ℚ := fun _ => .error (.value [])

def monthly : CronFields :=
  ⟨[0], [0], [1], [1, 2, 3, 4, 5, 6, 7, 8, 9, 10, 11, 12], [0, 1, 2, 3, 4, 5, 6]⟩

theorem monthly_parsed :
    CronSchedule.fromExpr noFloat "0 0 1 * *".toList = .ok (.fields monthly) := by
  with_unfolding_all rfl

theorem monthly_fires_daily :
    CronSchedule.fromExpr noFloat "0 0 1 * *".toList = .ok (.fields monthly) ∧
    HasOccurrence "1".toList "*".toList monthly (lateOn 2) ∧
    (CronSchedule.fields monthly).nextAfter (lateOn 2) =
      .ok (739618 * minutesPerDay * microsPerMinute) ∧
    ¬ Answers "1".toList "*".toList monthly (lateOn 2) := by
  have hnext : (CronSchedule.fields monthly).nextAfter (lateOn 2) =
      .ok (739618 * minutesPerDay * microsPerMinute) := by decide +kernel
  refine ⟨monthly_parsed, ⟨739647 * minutesPerDay, by decide +kernel, by decide +kernel,
    by decide +kernel⟩, hnext, ?_⟩
  rintro ⟨t, ht, hfirst⟩
  obtain rfl : 739618 * minutesPerDay = t :=
    Nat.eq_of_mul_eq_mul_right (by decide) (Except.ok.inj (hnext.symm.trans ht))
  exact absurd hfirst.ok (by decide +kernel)

def weekly : CronFields :=
  ⟨[0], [0], [1], [1, 2, 3, 4, 5, 6, 7, 8, 9, 10, 11, 12], [1]⟩

theorem weekly_answers : ∃ fs, CronSchedule.fields weekly = .fields fs ∧
    (HasOccurrence "1".toList "1".toList fs (lateOn 4) →
      (Answers "1".toList "1".toList fs (lateOn 4) ↔
        WithinYear "1".toList "1".toList fs (lateOn 4) ∧
          DaysAgree "1".toList "1".toList fs (lateOn 4))) ∧
    HasOccurrence "1".toList "1".toList weekly (lateOn 4) ∧
    (CronSchedule.fields weekly).nextAfter (lateOn 4) =
      .ok (739620 * minutesPerDay * microsPerMinute) := by
  obtain ⟨fs, hfs, hiff⟩ := (cron_correct_iff noFloat).1 "0 0 1 * 1".toList "0".toList "0".toList
    "1".toList "*".toList "1".toList (.fields weekly) (lateOn 4) (by decide +kernel)
    (by with_unfolding_all rfl)
  exact ⟨fs, hfs, hiff, ⟨739620 * minutesPerDay, by decide +kernel, by decide +kernel,
    by decide +kernel⟩, by decide +kernel⟩

end expressions

end TraceMind.Triggers
