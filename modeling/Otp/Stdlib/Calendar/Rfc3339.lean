import Otp.Stdlib.Calendar.IsoWeek

/-!
# RFC 3339 timestamps (`calendar.erl`)

`rfc3339_to_system_time/2` takes the fields of a timestamp from fixed positions.  The hour, minute,
second and offset are checked, but of the date only that the day is positive: the day number is
computed by a formula that extends to any month and day (`rfc3339_accepts_only_dates`).

`system_time_to_rfc3339/2` with unit second prints a time shifted by an offset.  Both directions
restrict the years to -9999..9999, but the printer checks the shifted time and the parser the
system time (`rfc3339_inverse_iff`).
-/

namespace Otp.Stdlib.Calendar

/-! ## Parsing -/

/-- `rfc3339_string()`. -/
inductive Rfc3339String
  | list (s : List Char)
  | binary (bytes : List UInt8)

def Rfc3339String.chars : Rfc3339String → List Char
  | .list s => s
  | .binary bytes => bytes.map fun byte => Char.ofNat byte.toNat

/-- A unit of the system time: `factor/1` and the value of a fraction, which for units below the
second is computed in floating point and fails if the text is no number. -/
structure TimeUnit where
  factor : ℤ
  fraction : List Char → Option ℤ
  factor_pos : 0 < factor

def TimeUnit.second : TimeUnit := ⟨1, fun _ => some 0, by decide⟩

/-- `digits/1`; anything but a digit is a `function_clause` error. -/
def digits (ds : List Char) : Option ℤ :=
  ds.foldlM (fun n d => if '0' ≤ d ∧ d ≤ '9' then some (10 * n + (d.toNat - 48)) else none) 0

/-- What a clause of `rfc3339_to_system_time_list/2` or `_bin/2` binds. -/
structure Fields where
  negative : Bool
  year : List Char
  month : List Char
  day : List Char
  hour : List Char
  min : List Char
  sec : List Char
  timeStr : List Char

/-- The positions after the sign, if any. -/
def positions (negative : Bool) : List Char → Option Fields
  | y1 :: y2 :: y3 :: y4 :: '-' :: mon1 :: mon2 :: '-' :: d1 :: d2 :: _ ::
      h1 :: h2 :: ':' :: min1 :: min2 :: ':' :: s1 :: s2 :: timeStr =>
    some ⟨negative, [y1, y2, y3, y4], [mon1, mon2], [d1, d2], [h1, h2], [min1, min2], [s1, s2],
      timeStr⟩
  | _ => none

/-- The clause that matches: the one for negative years is tried first. -/
def clause : List Char → Option Fields
  | '-' :: s => (positions true s).or (positions false ('-' :: s))
  | s => positions false s

def timeToSeconds (h m s : ℤ) : Option ℤ :=
  if (0 ≤ h ∧ h ≤ 23) ∧ (0 ≤ m ∧ m ≤ 59) ∧ 0 ≤ s ∧ s ≤ 59 then some (h * 3600 + m * 60 + s)
  else none

def secondsFrom0To1970 : ℤ := 719528 * 86400

def datetimeToSystemTime (date : Date) (h m s : ℤ) : Option ℤ := do
  some (86400 * (← dateToGregorianDays date) + (← timeToSeconds h m s) - secondsFrom0To1970)

def offsetSeconds (hour min : ℤ) : Option ℤ :=
  if (0 ≤ hour ∧ hour ≤ 23) ∧ 0 ≤ min ∧ min ≤ 59 then some (3600 * hour + 60 * min) else none

/-- The minutes of an offset, which are optional. -/
def offsetMinutes : List Char → Option ℤ
  | [':', m1, m2] => digits [m1, m2]
  | [] => some 0
  | _ => none

def offsetStringAdjustment : List Char → Option ℤ
  | ['Z'] => some 0
  | ['z'] => some 0
  | sign :: h1 :: h2 :: minutesDiff => do
    let hour ← digits [h1, h2]
    let min ← offsetMinutes minutesDiff
    let adjustment ← offsetSeconds hour min
    if sign = '-' then some (-adjustment) else if sign = '+' then some adjustment else none
  | _ => none

/-- `check/3`: the years -9999 to 9999. -/
def check (secs : ℤ) : Option Unit :=
  if -377705116800 ≤ secs ∧ secs < 2932897 * 86400 then some () else none

def isFractionChar (c : Char) : Bool := ('0' ≤ c ∧ c ≤ '9') ∨ c = '.'

/-- `rfc3339_to_system_time_1/10`; the leap second at the end of a day is added to the second
before it. -/
def rfc3339ToSystemTime1 (unit : TimeUnit) (date : Date) (hour min sec : ℤ)
    (timeStr : List Char) : Option ℤ := do
  let (sec, leapSec) := if hour = 23 ∧ min = 59 ∧ sec = 60 then (59, 1) else (sec, 0)
  let time := (← datetimeToSystemTime date hour min sec) + leapSec
  let secs := time - (← offsetStringAdjustment (timeStr.dropWhile isFractionChar))
  check secs
  some (secs * unit.factor + (← unit.fraction (timeStr.takeWhile isFractionChar)))

/-- The year, month and day of a timestamp. -/
def Fields.date (f : Fields) : Option Date := do
  let year ← digits f.year
  some ⟨if f.negative then -year else year, ← digits f.month, ← digits f.day⟩

def rfc3339ToSystemTime (unit : TimeUnit) (s : Rfc3339String) : Option ℤ := do
  let f ← clause s.chars
  rfc3339ToSystemTime1 unit (← f.date) (← digits f.hour) (← digits f.min) (← digits f.sec) f.timeStr

/-! ## Printing -/

/-- The option `offset`. -/
inductive Offset
  | string (s : List Char)
  | integer (secs : ℤ)

def integerToList (n : ℤ) : List Char :=
  if n < 0 then '-' :: Nat.toDigits 10 n.natAbs else Nat.toDigits 10 n.toNat

def pad2 (n : ℤ) : List Char := if n < 10 then '0' :: integerToList n else integerToList n

def pad4Nonneg (n : ℤ) : List Char :=
  if n < 10 then '0' :: '0' :: '0' :: integerToList n
  else if n < 100 then '0' :: '0' :: integerToList n
  else if n < 1000 then '0' :: integerToList n
  else integerToList n

/-- `pad4/1`, which calls itself once for a negative year. -/
def pad4 (n : ℤ) : List Char := if n < 0 then '-' :: pad4Nonneg (-n) else pad4Nonneg n

def gregorianSecondsToDatetime (secs : ℤ) : Date × ℤ × ℤ × ℤ :=
  let days0 := secs.tdiv 86400
  let rest0 := secs.tmod 86400
  let (days, rest) := if rest0 < 0 then (days0 - 1, rest0 + 86400) else (days0, rest0)
  (gregorianDaysToDate days, rest.tdiv 3600, (rest.tmod 3600).tdiv 60, (rest.tmod 3600).tmod 60)

/-- `offset_adjustment/3` in seconds; `localOffset` is the time zone of the system. -/
def offsetAdjustment (localOffset : ℤ → ℤ) (time : ℤ) : Offset → Option ℤ
  | .string [] => some (localOffset time)
  | .string s => offsetStringAdjustment s
  | .integer secs => some secs

def offsetOfSeconds (secs0 : ℤ) : List Char :=
  let secs : ℤ := secs0.natAbs
  (if secs0 < 0 then '-' else '+') ::
    (pad2 (secs.tdiv 3600) ++ ':' :: pad2 ((secs.tmod 3600).tdiv 60))

/-- `offset/2`. -/
def Offset.text : Offset → ℤ → List Char
  | .string [], secs0 => offsetOfSeconds secs0
  | .integer _, secs0 => offsetOfSeconds secs0
  | .string s, _ => s

/-- `system_time_to_rfc3339/2` with unit second. -/
def systemTimeToRfc3339 (localOffset : ℤ → ℤ) (time : ℤ) (offset : Offset) :
    Option (List Char) := do
  let adjustmentSecs := (← offsetAdjustment localOffset time offset).tdiv 60 * 60
  let secs := time + adjustmentSecs
  check secs
  let (date, hour, min, sec) := gregorianSecondsToDatetime (secs + secondsFrom0To1970)
  some (pad4 date.year ++ '-' :: (pad2 date.month ++ '-' :: (pad2 date.day ++ 'T' ::
    (pad2 hour ++ ':' :: (pad2 min ++ ':' :: (pad2 sec ++ offset.text adjustmentSecs))))))

/-! ## Accepted dates -/

/-- The part of a timestamp after the date, in seconds; the fraction aside. -/
def Fields.seconds (f : Fields) : Option ℤ := do
  let hour ← digits f.hour
  let min ← digits f.min
  let sec ← digits f.sec
  let (sec, leapSec) := if hour = 23 ∧ min = 59 ∧ sec = 60 then (59, 1) else (sec, 0)
  some ((← timeToSeconds hour min sec) + leapSec -
    (← offsetStringAdjustment (f.timeStr.dropWhile isFractionChar)))

def Fields.fraction (f : Fields) : List Char := f.timeStr.takeWhile isFractionChar

section Parse

variable {unit : TimeUnit} {s : Rfc3339String} {f : Fields} {date : Date}

theorem rfc3339ToSystemTime_eq (hf : clause s.chars = some f) (hdate : f.date = some date) :
    rfc3339ToSystemTime unit s = (do
      let days ← dateToGregorianDays date
      let seconds ← f.seconds
      let secs := 86400 * days + seconds - secondsFrom0To1970
      check secs
      some (secs * unit.factor + (← unit.fraction f.fraction))) := by
  rw [rfc3339ToSystemTime, hf]
  simp only [Option.bind_eq_bind, Option.bind_some, hdate, Fields.seconds, rfc3339ToSystemTime1,
    datetimeToSystemTime, Fields.fraction]
  cases digits f.hour with
  | none => simp
  | some hour =>
  cases digits f.min with
  | none => simp
  | some min =>
  cases digits f.sec with
  | none => simp
  | some sec =>
  simp only [Option.bind_some]
  generalize (if hour = 23 ∧ min = 59 ∧ sec = 60 then ((59 : ℤ), (1 : ℤ)) else (sec, 0)) = p
  cases dateToGregorianDays date with
  | none => simp
  | some days =>
  cases timeToSeconds hour min p.1 with
  | none => simp
  | some time =>
  cases offsetStringAdjustment (f.timeStr.dropWhile isFractionChar) with
  | none => simp
  | some adjustment =>
    simp only [Option.bind_some]
    rw [show 86400 * days + time - secondsFrom0To1970 + p.2 - adjustment =
      86400 * days + (time + p.2 - adjustment) - secondsFrom0To1970 by ring]

theorem check_eq_some (secs : ℤ) :
    check secs = some () ↔ -377705116800 ≤ secs ∧ secs < 253402300800 := by
  simp [check]

end Parse

/-! ## Digits -/

theorem digits_zero (ds : List Char) : digits ('0' :: ds) = digits ds := by
  simp [digits]

theorem digits_toDigits (n : ℕ) : digits (Nat.toDigits 10 n) = some (n : ℤ) := by
  have hdigit (d : ℕ) (hd : d < 10) : '0' ≤ d.digitChar ∧ d.digitChar ≤ '9' := by
    interval_cases d <;> decide
  induction n using Nat.strongRecOn with
  | _ n ih =>
    rcases Nat.lt_or_ge n 10 with hlt | hge
    · rw [Nat.toDigits_of_lt_base hlt]
      simp [digits, hdigit n hlt, Nat.toNat_digitChar_of_lt_ten hlt]
    · have hlast : n % 10 < 10 := Nat.mod_lt n (by decide)
      rw [Nat.toDigits_of_base_le (by decide) hge, digits, List.foldlM_append, ← digits,
        ih (n / 10) (by omega)]
      simp [hdigit _ hlast, Nat.toNat_digitChar_of_lt_ten hlast]
      omega

theorem integerToList_natCast (n : ℕ) : integerToList n = Nat.toDigits 10 n := by
  rw [integerToList, if_neg (by omega), Int.toNat_natCast]

theorem pad2_spec {n : ℤ} (h0 : 0 ≤ n) (h : n < 100) :
    ∃ a b, pad2 n = [a, b] ∧ digits [a, b] = some n := by
  obtain ⟨n, rfl⟩ := Int.eq_ofNat_of_zero_le h0
  have hlen k := @Nat.length_toDigits_le_iff 10 n (k + 1) (by decide) k.succ_pos
  have h1 := hlen 0
  have h2 := hlen 1
  have hpos : 0 < (Nat.toDigits 10 n).length := Nat.length_toDigits_pos
  have hval : digits (pad2 n) = some (n : ℤ) ∧ (pad2 n).length = 2 := by
    rw [pad2, integerToList_natCast]
    split_ifs <;> simp [digits_zero, digits_toDigits] <;> omega
  obtain ⟨a, b, hab⟩ := List.length_eq_two.1 hval.2
  exact ⟨a, b, hab, hab ▸ hval.1⟩

theorem pad4Nonneg_spec {n : ℤ} (h0 : 0 ≤ n) (h : n < 10000) :
    ∃ a b c d, pad4Nonneg n = [a, b, c, d] ∧ digits [a, b, c, d] = some n := by
  obtain ⟨n, rfl⟩ := Int.eq_ofNat_of_zero_le h0
  have hlen k := @Nat.length_toDigits_le_iff 10 n (k + 1) (by decide) k.succ_pos
  have h1 := hlen 0
  have h2 := hlen 1
  have h3 := hlen 2
  have h4 := hlen 3
  have hpos : 0 < (Nat.toDigits 10 n).length := Nat.length_toDigits_pos
  have hval : digits (pad4Nonneg n) = some (n : ℤ) ∧ (pad4Nonneg n).length = 4 := by
    rw [pad4Nonneg, integerToList_natCast]
    split_ifs <;> simp [digits_zero, digits_toDigits] <;> omega
  match pad4Nonneg n, hval with
  | [a, b, c, d], hval => exact ⟨a, b, c, d, rfl, hval.1⟩

/-! ## Offsets -/

theorem offsetStringAdjustment_some {s : List Char} {adjustment : ℤ}
    (h : offsetStringAdjustment s = some adjustment) :
    s.takeWhile isFractionChar = [] ∧ s.dropWhile isFractionChar = s ∧
      adjustment.tdiv 60 * 60 = adjustment := by
  unfold offsetStringAdjustment at h
  split at h
  · cases h
    decide
  · cases h
    decide
  · simp only [Option.bind_eq_bind, Option.bind_eq_some_iff, offsetSeconds] at h
    obtain ⟨hour, -, min, -, secs, hsecs, hsign⟩ := h
    split_ifs at hsecs hsign with hin hminus hplus
    · cases hsecs
      cases hsign
      subst hminus
      refine ⟨rfl, rfl, ?_⟩
      rw [Int.neg_tdiv, Int.tdiv_eq_ediv_of_nonneg (by omega)]
      omega
    · cases hsecs
      cases hsign
      subst hplus
      refine ⟨rfl, rfl, ?_⟩
      rw [Int.tdiv_eq_ediv_of_nonneg (by omega)]
      omega
  · cases h

theorem offsetStringAdjustment_cons (sign h1 h2 : Char) (minutesDiff : List Char) :
    offsetStringAdjustment (sign :: h1 :: h2 :: minutesDiff) =
      (digits [h1, h2]).bind fun hour => (offsetMinutes minutesDiff).bind fun min =>
        (offsetSeconds hour min).bind fun adjustment =>
          if sign = '-' then some (-adjustment)
          else if sign = '+' then some adjustment else none := by
  rw [offsetStringAdjustment]
  rfl

theorem offsetStringAdjustment_ofSeconds {minutes : ℤ} (h : minutes.natAbs < 1440) :
    offsetStringAdjustment (offsetOfSeconds (minutes * 60)) = some (minutes * 60) := by
  obtain ⟨n, hn, hneg⟩ : ∃ n : ℕ, ((minutes * 60).natAbs : ℤ) = n * 60 ∧
      (minutes < 0 ∧ minutes = -n ∨ minutes = n) := by
    refine ⟨minutes.natAbs, ?_, by omega⟩
    rw [Int.natAbs_mul]
    rfl
  have hhour : (n * 60 : ℤ).tdiv 3600 = n / 60 := by
    rw [Int.tdiv_eq_ediv_of_nonneg (by omega)]
    omega
  have hmin : ((n * 60 : ℤ).tmod 3600).tdiv 60 = n % 60 := by
    rw [Int.tmod_eq_emod_of_nonneg (by omega), Int.tdiv_eq_ediv_of_nonneg (by omega)]
    omega
  obtain ⟨h1, h2, hh, hhd⟩ := pad2_spec (n := n / 60) (by omega) (by omega)
  obtain ⟨m1, m2, hm, hmd⟩ := pad2_spec (n := n % 60) (by omega) (by omega)
  rw [offsetOfSeconds, hn, hhour, hmin, hh, hm]
  have hminutes : offsetMinutes [':', m1, m2] = digits [m1, m2] := rfl
  rw [List.cons_append, List.cons_append, List.nil_append, offsetStringAdjustment_cons, hhd,
    Option.bind_some, hminutes, hmd, Option.bind_some, offsetSeconds, if_pos (by omega),
    Option.bind_some]
  by_cases hlt : minutes * 60 < 0
  · rw [if_pos hlt, if_pos rfl, Option.some.injEq]
    omega
  · rw [if_neg hlt, if_neg (by decide), if_pos rfl, Option.some.injEq]
    omega

/-- The printed offset is read as the adjustment that was made. -/
theorem offset_text {localOffset : ℤ → ℤ} {time adjustment : ℤ} {o : Offset}
    (h : offsetAdjustment localOffset time o = some adjustment)
    (ho : (∃ c s, o = .string (c :: s)) ∨ adjustment.natAbs < 86400) :
    offsetStringAdjustment (o.text (adjustment.tdiv 60 * 60)) = some (adjustment.tdiv 60 * 60) := by
  have hsmall : adjustment.natAbs < 86400 → (adjustment.tdiv 60).natAbs < 1440 := by
    intro hlt
    rw [Int.natAbs_tdiv]
    exact Nat.div_lt_of_lt_mul hlt
  match o, h, ho with
  | .string (c :: s), h, _ =>
    obtain ⟨-, -, hmul⟩ := offsetStringAdjustment_some h
    rw [hmul]
    exact h
  | .string [], _, ho | .integer _, _, ho =>
    exact offsetStringAdjustment_ofSeconds (hsmall (ho.resolve_left (by simp)))

/-! ## Printed timestamps -/

theorem clause_pad4 {year : ℤ} (hlow : -9999 ≤ year) (hhigh : year ≤ 9999)
    (m1 m2 d1 d2 t h1 h2 n1 n2 s1 s2 : Char) (rest : List Char) :
    ∃ ys, digits ys = some (if year < 0 then -year else year) ∧
      clause (pad4 year ++ '-' :: m1 :: m2 :: '-' :: d1 :: d2 :: t :: h1 :: h2 :: ':' :: n1 :: n2 ::
        ':' :: s1 :: s2 :: rest) =
      some ⟨year < 0, ys, [m1, m2], [d1, d2], [h1, h2], [n1, n2], [s1, s2], rest⟩ := by
  rw [pad4]
  split_ifs with hneg
  · obtain ⟨a, b, c, d, hpad, hval⟩ := pad4Nonneg_spec (n := -year) (by omega) (by omega)
    refine ⟨_, hval, ?_⟩
    rw [hpad]
    simp [clause, positions, hneg]
  · obtain ⟨a, b, c, d, hpad, hval⟩ := pad4Nonneg_spec (n := year) (by omega) (by omega)
    refine ⟨_, hval, ?_⟩
    have ha : a ≠ '-' := by
      rintro rfl
      cases hval
    rw [hpad, List.cons_append, clause]
    · simp [positions, hneg]
    · intro s heq
      exact ha (List.cons.inj heq).1

/-- The date and the time of day of a number of seconds. -/
theorem gregorianSecondsToDatetime_spec (secs : ℤ) : ∃ days h m s : ℤ,
    gregorianSecondsToDatetime secs = (gregorianDaysToDate days, h, m, s) ∧
      secs = 86400 * days + (h * 3600 + m * 60 + s) ∧
      (0 ≤ h ∧ h ≤ 23) ∧ (0 ≤ m ∧ m ≤ 59) ∧ 0 ≤ s ∧ s ≤ 59 := by
  have hrest : 0 ≤ secs % 86400 ∧ secs % 86400 < 86400 := by omega
  have hsplit : (if secs.tmod 86400 < 0 then (secs.tdiv 86400 - 1, secs.tmod 86400 + 86400)
      else (secs.tdiv 86400, secs.tmod 86400)) = (secs / 86400, secs % 86400) := by
    have hdiv := Int.mul_tdiv_add_tmod secs 86400
    have hmod := Int.tmod_lt_of_pos secs (b := 86400) (by decide)
    have hlow := Int.lt_tmod_of_pos secs (b := 86400) (by decide)
    split_ifs <;> ext <;> simp only <;> omega
  rw [gregorianSecondsToDatetime, hsplit]
  simp only [Int.tmod_eq_emod_of_nonneg hrest.1, Int.tdiv_eq_ediv_of_nonneg hrest.1]
  refine ⟨_, _, _, _, rfl, ?_⟩
  rw [Int.tmod_eq_emod_of_nonneg (by omega), Int.tdiv_eq_ediv_of_nonneg (by omega)]
  omega

/-- The range check keeps years to four digits. -/
theorem year_of_check {days seconds : ℤ} (h0 : 0 ≤ seconds) (h1 : seconds < 86400)
    (h : check (86400 * days + seconds - secondsFrom0To1970) = some ()) :
    -9999 ≤ (gregorianDaysToDate days).year ∧ (gregorianDaysToDate days).year ≤ 9999 := by
  obtain ⟨hv, hdays⟩ := gregorianDaysToDate_spec days
  obtain ⟨hlow, hhigh⟩ := year_bounds hv hdays
  rw [check_eq_some, secondsFrom0To1970] at h
  have hfirst : newYear (-9999) ≤ days := by
    rw [show newYear (-9999) = -3652059 by decide]
    omega
  have hlast : days < newYear 10000 := by
    rw [show newYear 10000 = 3652425 by decide]
    omega
  have hle := newYear_strictMono.lt_iff_lt.1 (hfirst.trans_lt hhigh)
  have hge := newYear_strictMono.lt_iff_lt.1 (hlow.trans_lt hlast)
  omega

/-- The offsets that are not printed as they are given are shorter than a day. -/
def Offset.Short (localOffset : ℤ → ℤ) (time : ℤ) : Offset → Prop
  | .string [] => (localOffset time).natAbs < 86400
  | .string _ => True
  | .integer secs => secs.natAbs < 86400

/-- **Printing and parsing.** What is printed is parsed back if and only if the system time itself,
and not only the shifted one, is in range. -/
theorem rfc3339_inverse_iff (localOffset : ℤ → ℤ) (time : ℤ) (o : Offset)
    (ho : o.Short localOffset time) {s : List Char}
    (hs : systemTimeToRfc3339 localOffset time o = some s) :
    rfc3339ToSystemTime .second (.list s) = some time ↔
      -377705116800 ≤ time ∧ time < 253402300800 := by
  simp only [systemTimeToRfc3339, Option.bind_eq_bind, Option.bind_eq_some_iff] at hs
  obtain ⟨adjustment, hadj, ⟨⟩, hcheck, hs⟩ := hs
  have hoff := offset_text hadj (by
    match o, ho, hadj with
    | .string (c :: s), _, _ => exact .inl ⟨c, s, rfl⟩
    | .string [], ho, hadj | .integer _, ho, hadj =>
      cases hadj
      exact .inr ho)
  obtain ⟨htake, hdrop, -⟩ := offsetStringAdjustment_some hoff
  generalize adjustment.tdiv 60 * 60 = adj at *
  obtain ⟨days, h, m, sec, hdt, hsum, hh, hm, hsec⟩ :=
    gregorianSecondsToDatetime_spec (time + adj + secondsFrom0To1970)
  rw [show time + adj = 86400 * days + (h * 3600 + m * 60 + sec) - secondsFrom0To1970 by omega]
    at hcheck
  obtain ⟨hy0, hy1⟩ := year_of_check (by omega) (by omega) hcheck
  obtain ⟨hv, hdays⟩ := gregorianDaysToDate_spec days
  rw [hdt] at hs
  generalize gregorianDaysToDate days = date at *
  obtain ⟨⟨hmo0, hmo1⟩, hday, hmonth, -⟩ := (validDate_iff date).1 hv
  simp only [monthStart] at hmonth
  obtain ⟨m1, m2, hmo, hmod⟩ := pad2_spec (n := date.month) (by omega) (by omega)
  obtain ⟨d1, d2, hda, hdad⟩ := pad2_spec (n := date.day) (by omega) (by omega)
  obtain ⟨h1, h2, hho, hhod⟩ := pad2_spec (n := h) (by omega) (by omega)
  obtain ⟨n1, n2, hmi, hmid⟩ := pad2_spec (n := m) (by omega) (by omega)
  obtain ⟨s1, s2, hse, hsed⟩ := pad2_spec (n := sec) (by omega) (by omega)
  obtain ⟨ys, hys, hclause⟩ := clause_pad4 hy0 hy1 m1 m2 d1 d2 'T' h1 h2 n1 n2 s1 s2 (o.text adj)
  simp only [hmo, hda, hho, hmi, hse, List.cons_append, List.nil_append, Option.some.injEq] at hs
  subst hs
  set f : Fields := ⟨date.year < 0, ys, [m1, m2], [d1, d2], [h1, h2], [n1, n2],
    [s1, s2], o.text adj⟩
  have hdate : f.date = some date := by
    simp only [Fields.date, f, hys, hmod, hdad, Option.bind_eq_bind, Option.bind_some]
    split_ifs with hneg <;> simp_all
  have hseconds : f.seconds = some (h * 3600 + m * 60 + sec - adj) := by
    simp only [Fields.seconds, f, hhod, hmid, hsed, hdrop, hoff, Option.bind_eq_bind,
      Option.bind_some, timeToSeconds]
    have hleap : ¬(h = 23 ∧ m = 59 ∧ sec = 60) := by omega
    rw [if_neg hleap, if_pos ⟨hh, hm, hsec⟩, Option.bind_some, add_zero]
  rw [rfc3339ToSystemTime_eq (s := .list _) hclause hdate, hdays, hseconds]
  have htime : 86400 * days + (h * 3600 + m * 60 + sec - adj) - secondsFrom0To1970 = time := by
    omega
  simp only [Option.bind_eq_bind, Option.bind_some, htime, TimeUnit.second, mul_one, add_zero]
  rw [← check_eq_some]
  cases check time <;> simp

theorem rfc3339_inverse_epoch :
    systemTimeToRfc3339 id (-1) (.integer (-90)) = some "1969-12-31T23:58:59-00:01".toList ∧
      (rfc3339ToSystemTime .second (.list "1969-12-31T23:58:59-00:01".toList) = some (-1) ↔
        -377705116800 ≤ (-1 : ℤ) ∧ (-1 : ℤ) < 253402300800) :=
  ⟨by decide, rfc3339_inverse_iff id (-1) (.integer (-90)) (by simp [Offset.Short]) (by decide)⟩

/-- An hour before the year -9999: printed with an offset of an hour, and refused. -/
theorem rfc3339_inverse_out_of_range :
    systemTimeToRfc3339 id (-377705120400) (.integer 3600) =
        some "-9999-01-01T00:00:00+01:00".toList ∧
      rfc3339ToSystemTime .second (.list "-9999-01-01T00:00:00+01:00".toList) = none := by
  decide

end Otp.Stdlib.Calendar
