import LineageVault.Python.Time

/-! # `isoformat` is read as it was written

Numbers first, then the two halves of the text, and last `fromisoformat_isoformat`.
-/

namespace LineageVault
set_option autoImplicit false

/-! ## Numbers of a fixed width -/

/-- The last `w` digits of `n`. -/
def fixedDigits : ℕ → ℕ → Str
  | 0, _ => []
  | w + 1, n => fixedDigits w (n / 10) ++ [.scalar (n % 10).digitChar]

theorem fixedDigits_length (w n : ℕ) : (fixedDigits w n).length = w := by
  induction w generalizing n with
  | zero => rfl
  | succ w ih => rw [fixedDigits, List.length_append, ih, List.length_singleton]

theorem digitOf_digitChar {d : ℕ} (hd : d < 10) : digitOf (.scalar d.digitChar) = some d := by
  have hall : ∀ d < 10, digitOf (.scalar (Nat.digitChar d)) = some d := by decide
  exact hall d hd

theorem fixedDigits_mem {w n : ℕ} {c : CodePoint} (h : c ∈ fixedDigits w n) :
    ∃ d < 10, c = .scalar (Nat.digitChar d) := by
  induction w generalizing n with
  | zero => cases h
  | succ w ih =>
    rcases List.mem_append.1 h with h | h
    · exact ih h
    · exact ⟨n % 10, Nat.mod_lt _ (by omega), List.mem_singleton.1 h⟩

theorem fixedDigits_zero (w : ℕ) : fixedDigits w 0 = List.replicate w (.scalar '0') := by
  induction w with
  | zero => rfl
  | succ w ih => rw [fixedDigits, Nat.zero_div, ih, List.replicate_succ']; rfl

theorem natText_lt {n : ℕ} (hn : n < 10) : natText n = [.scalar n.digitChar] := by
  rw [natText, Nat.toDigits_of_lt_base hn, List.map_singleton]

theorem natText_ge {n : ℕ} (hn : 10 ≤ n) : natText n = natText (n / 10) ++ [.scalar (n % 10).digitChar] := by
  rw [natText, Nat.toDigits_of_base_le (by omega) hn, List.map_append, List.map_singleton]
  rfl

theorem padded_eq {w n : ℕ} (hw : 0 < w) (hn : n < 10 ^ w) : padded w n = fixedDigits w n := by
  induction w generalizing n with
  | zero => omega
  | succ w ih =>
    rw [fixedDigits]
    by_cases hsmall : n < 10
    · rw [padded, natText_lt hsmall, Nat.div_eq_of_lt hsmall, Nat.mod_eq_of_lt hsmall, fixedDigits_zero]
      rfl
    · have hpos : 0 < w := by
        rcases Nat.eq_zero_or_pos w with rfl | hpos
        · rw [Nat.zero_add, Nat.pow_one] at hn
          omega
        · exact hpos
      rw [Nat.pow_succ] at hn
      rw [← ih hpos (by omega), padded, padded, natText_ge (by omega), List.length_append, List.length_singleton,
        Nat.add_sub_add_right, List.append_assoc]

theorem digits_succ (w value : ℕ) (s : Str) :
    digits (w + 1) value s = (digits w value s).bind fun read => digits 1 read.1 read.2 := by
  induction w generalizing value s with
  | zero => rfl
  | succ w ih =>
    cases s with
    | nil => rfl
    | cons c s =>
      rw [digits, digits]
      cases digitOf c with
      | none => rfl
      | some d => exact ih (value * 10 + d) s

theorem digits_fixedDigits (w value n : ℕ) (rest : Str) :
    digits w value (fixedDigits w n ++ rest) = some (value * 10 ^ w + n % 10 ^ w, rest) := by
  induction w generalizing n rest with
  | zero => simp [digits, fixedDigits, Nat.mod_one]
  | succ w ih =>
    rw [fixedDigits, List.append_assoc, digits_succ, ih, Option.bind_some, List.singleton_append, digits,
      digitOf_digitChar (Nat.mod_lt _ (by omega)), Option.bind_some, digits]
    have hvalue : value * 10 ^ (w + 1) = value * 10 ^ w * 10 := by rw [Nat.pow_succ, Nat.mul_assoc]
    have hdigits : n % 10 ^ (w + 1) = n % 10 + 10 * (n / 10 % 10 ^ w) := by rw [Nat.pow_succ', Nat.mod_mul]
    rw [hvalue, hdigits]
    congr 2
    omega

theorem digits_padded {w n : ℕ} (hw : 0 < w) (hn : n < 10 ^ w) (rest : Str) :
    digits w 0 (padded w n ++ rest) = some (n, rest) := by
  rw [padded_eq hw hn, digits_fixedDigits, Nat.zero_mul, Nat.zero_add, Nat.mod_eq_of_lt hn]

theorem digits_padded_nil {w n : ℕ} (hw : 0 < w) (hn : n < 10 ^ w) : digits w 0 (padded w n) = some (n, []) := by
  have h := digits_padded hw hn []
  rwa [List.append_nil] at h

theorem padded_length {w n : ℕ} (hw : 0 < w) (hn : n < 10 ^ w) : (padded w n).length = w := by
  rw [padded_eq hw hn, fixedDigits_length]

theorem padded_mem {w n : ℕ} (hw : 0 < w) (hn : n < 10 ^ w) {c : CodePoint} (h : c ∈ padded w n) :
    ∃ d < 10, c = .scalar (Nat.digitChar d) := fixedDigits_mem (padded_eq hw hn ▸ h)

theorem startsWith_padded {c : Char} (hc : ∀ d < 10, Nat.digitChar d ≠ c) {w n : ℕ} (hw : 0 < w)
    (hn : n < 10 ^ w) (rest : Str) : startsWith c (padded w n ++ rest) = false := by
  have hlen := padded_length hw hn
  cases hp : padded w n with
  | nil =>
    rw [hp] at hlen
    exact absurd hlen (by simp; omega)
  | cons x xs =>
    obtain ⟨d, hd, rfl⟩ := padded_mem hw hn (c := x) (hp ▸ List.mem_cons_self)
    simpa [startsWith] using hc d hd

section TwoDigits
variable {a b c : ℕ} (ha : a < 10 ^ 2) (hb : b < 10 ^ 2)
include ha hb

theorem timeFields_minutes :
    timeFields (padded 2 a ++ .scalar ':' :: padded 2 b) = some { hour := a, minute := b } := by
  have hcolon : ∀ s : Str, startsWith ':' (.scalar ':' :: s) = true := fun _ => rfl
  simp only [timeFields, digits_padded (by omega : 0 < 2) ha, Option.bind_eq_bind, Option.bind_some,
    List.isEmpty_cons, hcolon, if_true, List.tail_cons, digits_padded_nil (by omega : 0 < 2) hb, Bool.false_eq_true,
    if_false, List.isEmpty_nil, Option.pure_def]

theorem timeFields_seconds (hc : c < 10 ^ 2) (rest : Str) :
    timeFields (padded 2 a ++ .scalar ':' :: (padded 2 b ++ .scalar ':' :: (padded 2 c ++ rest))) =
      if rest.isEmpty then some { hour := a, minute := b, second := c }
      else if startsWith '.' rest || startsWith ',' rest then
        (fraction rest.tail).bind fun microsecond =>
          some { hour := a, minute := b, second := c, microsecond := microsecond }
      else none := by
  have hcolon : ∀ s : Str, startsWith ':' (.scalar ':' :: s) = true := fun _ => rfl
  simp only [timeFields, digits_padded (by omega : 0 < 2) ha, Option.bind_eq_bind, Option.bind_some,
    List.isEmpty_cons, hcolon, if_true, List.tail_cons, digits_padded (by omega : 0 < 2) hb, expect,
    digits_padded (by omega : 0 < 2) hc, Bool.false_eq_true, if_false, Option.pure_def]

end TwoDigits

theorem offsetOf_signed {sign : Char} (hsign : sign ≠ 'Z') {s : Str} {fields : TimeFields}
    (hread : timeFields s = some fields) (hlt : fields.hour * 3600 + fields.minute * 60 + fields.second < 86400) :
    offsetOf (.scalar sign :: s) = some (some (if sign = '-'
      then -((fields.hour * 3600 + fields.minute * 60 + fields.second : ℕ) : ℤ)
      else (fields.hour * 3600 + fields.minute * 60 + fields.second : ℕ))) := by
  have hzulu : startsWith 'Z' (.scalar sign :: s) = false := by simpa [startsWith] using hsign
  have hminus : startsWith '-' (.scalar sign :: s) = decide (sign = '-') := by
    by_cases hs : sign = '-' <;> simp [startsWith, hs]
  simp only [offsetOf, List.isEmpty_cons, Bool.false_eq_true, if_false, hzulu, List.tail_cons, hread,
    Option.bind_eq_bind, Option.bind_some, if_pos hlt, hminus, decide_eq_true_eq, Option.pure_def]

/-! ## The date -/

namespace DateTime

def dateText (t : DateTime) : Str :=
  padded 4 t.year ++ .scalar '-' :: (padded 2 t.month ++ .scalar '-' :: padded 2 t.day)

def timeText (t : DateTime) : Str :=
  padded 2 t.hour ++ .scalar ':' :: (padded 2 t.minute ++ .scalar ':' :: (padded 2 t.second ++
    if t.microsecond = 0 then [] else .scalar '.' :: padded 6 t.microsecond))

def zoneText (t : DateTime) : Str :=
  match t.offset with
  | none => []
  | some seconds => offsetText seconds ++
      if seconds.natAbs % 60 = 0 then [] else .scalar ':' :: padded 2 (seconds.natAbs % 60)

theorem civilText_eq (t : DateTime) : t.civilText = t.dateText ++ .scalar 'T' :: t.timeText := by
  have hdash : ∀ s, lit "-" ++ s = .scalar '-' :: s := fun _ => rfl
  have hcolon : ∀ s, lit ":" ++ s = .scalar ':' :: s := fun _ => rfl
  have hdot : ∀ s, lit "." ++ s = .scalar '.' :: s := fun _ => rfl
  have hT : ∀ s, lit "T" ++ s = .scalar 'T' :: s := fun _ => rfl
  simp only [civilText, dateText, timeText, List.append_assoc, List.cons_append, hdash, hcolon, hdot, hT]

theorem isoformat_eq (t : DateTime) : t.isoformat = t.civilText ++ t.zoneText := rfl

section Valid
variable {t : DateTime} (h : t.valid = true)
include h

theorem valid_bounds : t.year < 10 ^ 4 ∧ t.month < 10 ^ 2 ∧ t.day < 10 ^ 2 ∧ t.hour < 10 ^ 2 ∧ t.minute < 10 ^ 2 ∧
    t.second < 10 ^ 2 ∧ t.microsecond < 10 ^ 6 ∧ (t.offset.getD 0).natAbs < 86400 := by
  simp only [valid, Bool.and_eq_true, decide_eq_true_eq] at h
  have hday : daysInMonth t.year t.month ≤ 31 := by
    unfold daysInMonth
    split
    · split <;> omega
    · split <;> omega
  omega

theorem dateText_length : t.dateText.length = 10 := by
  obtain ⟨hy, hm, hd, -⟩ := valid_bounds h
  simp only [dateText, List.length_append, List.length_cons, padded_length (by omega : 0 < 4) hy,
    padded_length (by omega : 0 < 2) hm, padded_length (by omega : 0 < 2) hd]

theorem separatorAt_dateText (rest : Str) : separatorAt (t.dateText ++ .scalar 'T' :: rest) = some 10 := by
  obtain ⟨hy, hm, hd, -⟩ := valid_bounds h
  have hlen : (t.dateText ++ .scalar 'T' :: rest).length ≠ 7 := by
    rw [List.length_append, dateText_length h, List.length_cons]
    omega
  have hdrop : ∀ s : Str, (padded 4 t.year ++ .scalar '-' :: s).drop 5 = s := fun s => by
    rw [List.drop_append, padded_length (by omega) hy, List.drop_of_length_le (by rw [padded_length (by omega) hy]; omega)]
    rfl
  have hdash : startsWith '-' ((t.dateText ++ .scalar 'T' :: rest).drop 4) = true := by
    rw [dateText, List.append_assoc, List.drop_left' (padded_length (by omega) hy)]
    rfl
  have hweek : startsWith 'W' ((t.dateText ++ .scalar 'T' :: rest).drop 5) = false := by
    rw [dateText, List.append_assoc, List.cons_append, hdrop, List.append_assoc]
    exact startsWith_padded (by decide) (by omega) hm _
  rw [separatorAt, if_neg hlen, if_pos hdash, if_neg (by simp [hweek])]

theorem dateFields_dateText : dateFields t.dateText = some (t.year, t.month, t.day) := by
  obtain ⟨hy, hm, hd, -⟩ := valid_bounds h
  have hweek : ∀ s, startsWith 'W' (padded 2 t.month ++ s) = false :=
    startsWith_padded (by decide) (by omega) hm
  have hfirst : ∀ s : Str, startsWith '-' (.scalar '-' :: s) = true := fun _ => rfl
  simp only [dateFields, dateText, digits_padded (by omega : 0 < 4) hy, Option.bind_eq_bind, Option.bind_some, hfirst,
    if_true, List.tail_cons, hweek, Bool.false_eq_true, if_false, digits_padded (by omega : 0 < 2) hm, expect,
    digits_padded_nil (by omega : 0 < 2) hd, List.isEmpty_nil]

/-! ## The time and the offset -/

/-- No text of digits, colons and points has a sign. -/
theorem timeText_unsigned {c : CodePoint} (hc : c ∈ t.timeText) : isSign c = false := by
  obtain ⟨-, -, -, hh, hmi, hs, hus, -⟩ := valid_bounds h
  have hdigit : ∀ d < 10, isSign (.scalar (Nat.digitChar d)) = false := by decide
  have hnumber : ∀ {w n : ℕ}, 0 < w → n < 10 ^ w → c ∈ padded w n → isSign c = false := by
    intro w n hw hn hmem
    obtain ⟨d, hd, rfl⟩ := padded_mem hw hn hmem
    exact hdigit d hd
  simp only [timeText, List.mem_append, List.mem_cons] at hc
  rcases hc with hc | rfl | hc | rfl | hc | hc
  · exact hnumber (by omega) hh hc
  · rfl
  · exact hnumber (by omega) hmi hc
  · rfl
  · exact hnumber (by omega) hs hc
  · split at hc
    · cases hc
    · rcases List.mem_cons.1 hc with rfl | hc
      · rfl
      · exact hnumber (by omega) hus hc

theorem fraction_padded : fraction (padded 6 t.microsecond) = some t.microsecond := by
  obtain ⟨-, -, -, -, -, -, hus, -⟩ := valid_bounds h
  have hlen := padded_length (by omega : 0 < 6) hus
  have hdigits : (padded 6 t.microsecond).any (fun c => (digitOf c).isNone) = false := by
    refine List.any_eq_false.2 fun c hc => ?_
    obtain ⟨d, hd, rfl⟩ := padded_mem (by omega) hus hc
    simp [digitOf_digitChar hd]
  have hne : (padded 6 t.microsecond).isEmpty = false := by
    rw [List.isEmpty_eq_false_iff, ← List.length_pos_iff, hlen]
    omega
  rw [fraction, hne, hdigits, hlen, Nat.min_self, digits_padded_nil (by omega) hus]
  simp

theorem timeFields_timeText :
    timeFields t.timeText = some ⟨t.hour, t.minute, t.second, t.microsecond⟩ := by
  obtain ⟨-, -, -, hh, hmi, hs, -⟩ := valid_bounds h
  rw [timeText, timeFields_seconds hh hmi hs]
  by_cases hus : t.microsecond = 0
  · simp [hus]
  · have hdot : ∀ s : Str, startsWith '.' (.scalar '.' :: s) = true := fun _ => rfl
    simp [hus, hdot, fraction_padded h]

theorem offsetOf_zoneText : offsetOf t.zoneText = some t.offset := by
  obtain ⟨-, -, -, -, -, -, -, hbound⟩ := valid_bounds h
  unfold zoneText
  cases hoffset : t.offset with
  | none => rfl
  | some seconds =>
    rw [hoffset, Option.getD_some] at hbound
    have hfields : ∃ fields, timeFields (padded 2 (seconds.natAbs / 3600) ++ .scalar ':' ::
        (padded 2 (seconds.natAbs / 60 % 60) ++ if seconds.natAbs % 60 = 0 then []
          else .scalar ':' :: padded 2 (seconds.natAbs % 60))) = some fields ∧
        fields.hour * 3600 + fields.minute * 60 + fields.second = seconds.natAbs := by
      by_cases hsec : seconds.natAbs % 60 = 0
      · rw [if_pos hsec, List.append_nil, timeFields_minutes (by omega) (by omega)]
        exact ⟨_, rfl, by dsimp only; omega⟩
      · rw [if_neg hsec]
        have hread := timeFields_seconds (a := seconds.natAbs / 3600) (b := seconds.natAbs / 60 % 60)
          (c := seconds.natAbs % 60) (by omega) (by omega) (by omega) []
        rw [List.append_nil] at hread
        exact ⟨_, hread, by dsimp only; omega⟩
    obtain ⟨fields, hread, hsum⟩ := hfields
    have hcolon : ∀ s, lit ":" ++ s = .scalar ':' :: s := fun _ => rfl
    have hlt : fields.hour * 3600 + fields.minute * 60 + fields.second < 86400 := by omega
    by_cases hsign : seconds < 0
    · have hminus : ∀ s, lit "-" ++ s = .scalar '-' :: s := fun _ => rfl
      simp only [offsetText, hsign, if_true, List.append_assoc, List.cons_append, hminus, hcolon]
      rw [offsetOf_signed (by decide) hread hlt, if_pos rfl]
      congr 2
      omega
    · have hplus : ∀ s, lit "+" ++ s = .scalar '+' :: s := fun _ => rfl
      simp only [offsetText, hsign, if_false, List.append_assoc, List.cons_append, hplus, hcolon]
      rw [offsetOf_signed (by decide) hread hlt, if_neg (by decide)]
      congr 2
      omega

omit h in
/-- The offset begins with a sign, if there is one. -/
theorem zoneText_signed : t.zoneText = [] ∨ ∃ c s, t.zoneText = c :: s ∧ isSign c = true := by
  unfold zoneText
  cases t.offset with
  | none => exact .inl rfl
  | some seconds =>
    refine .inr ?_
    unfold offsetText
    by_cases hsign : seconds < 0
    · simp only [hsign, if_true]
      exact ⟨.scalar '-', _, rfl, rfl⟩
    · simp only [hsign, if_false]
      exact ⟨.scalar '+', _, rfl, rfl⟩

variable {zone : Str} (hzone : offsetOf zone = some t.offset)
  (hsigned : zone = [] ∨ ∃ c s, zone = c :: s ∧ isSign c = true)
include hzone hsigned

theorem timeAndOffset_texts :
    timeAndOffset (t.timeText ++ zone) = some (⟨t.hour, t.minute, t.second, t.microsecond⟩, t.offset) := by
  have hunsigned : ∀ c ∈ t.timeText, (!isSign c) = true := fun c hc => by rw [timeText_unsigned h hc]; rfl
  have htake : zone.takeWhile (fun c => !isSign c) = [] ∧ zone.dropWhile (fun c => !isSign c) = zone := by
    rcases hsigned with rfl | ⟨c, s, rfl, hc⟩
    · exact ⟨rfl, rfl⟩
    · simp [hc]
  rw [timeAndOffset, List.takeWhile_append_of_pos hunsigned, List.dropWhile_append_of_pos hunsigned, htake.1,
    htake.2, List.append_nil, timeFields_timeText h, hzone]
  rfl

/-- A text of the offset that begins with a sign is read, after the text of the date and the time. -/
theorem fromisoformat_texts : fromisoformat (t.civilText ++ zone) = .ok t := by
  have htext : t.civilText ++ zone = t.dateText ++ .scalar 'T' :: (t.timeText ++ zone) := by
    rw [civilText_eq, List.append_assoc, List.cons_append]
  have hlen : (t.civilText ++ zone).length = 11 + (t.timeText ++ zone).length := by
    rw [htext, List.length_append, dateText_length h, List.length_cons]
    omega
  have hdrop : (t.civilText ++ zone).drop (10 + 1) = t.timeText ++ zone := by
    rw [htext, List.append_cons, List.drop_left' (by rw [List.length_append, dateText_length h]; rfl)]
  have htake : (t.civilText ++ zone).take 10 = t.dateText := by
    rw [htext, List.take_left' (dateText_length h)]
  have hseparator : separatorAt (t.civilText ++ zone) = some 10 := by
    rw [htext, separatorAt_dateText h]
  have hread : readDateTime (t.civilText ++ zone) = some t := by
    rw [readDateTime, if_neg (by omega)]
    simp only [Option.bind_eq_bind, Option.bind_some, hseparator, htake, dateFields_dateText h,
      if_neg (by omega : ¬ (t.civilText ++ zone).length ≤ 10), hdrop, timeAndOffset_texts h hzone hsigned]
    exact if_pos h
  rw [fromisoformat, hread]

end Valid
end DateTime

/-- **What `isoformat` writes is read as it was.** -/
theorem fromisoformat_isoformat {t : DateTime} (h : t.valid = true) : fromisoformat t.isoformat = .ok t := by
  rw [DateTime.isoformat_eq]
  exact DateTime.fromisoformat_texts h (DateTime.offsetOf_zoneText h) DateTime.zoneText_signed

/-- The text in JSON is read as well; it drops the seconds of an offset. -/
theorem fromisoformat_jsonText {t : DateTime} (h : t.valid = true) (hminutes : t.offset.getD 0 % 60 = 0) :
    fromisoformat t.jsonText = .ok t := by
  by_cases hzulu : t.offset = some 0
  · have hjson : t.jsonText = t.civilText ++ lit "Z" := by
      rw [DateTime.jsonText, hzulu]
      rfl
    rw [hjson]
    refine DateTime.fromisoformat_texts h ?_ (.inr ⟨_, _, rfl, rfl⟩)
    rw [hzulu]
    rfl
  · have hjson : t.jsonText = t.isoformat := by
      unfold DateTime.jsonText DateTime.isoformat
      cases hoffset : t.offset with
      | none => rfl
      | some seconds =>
        rw [hoffset] at hzulu hminutes
        have hne : seconds ≠ 0 := fun h0 => hzulu (by rw [h0])
        have hwhole : seconds.natAbs % 60 = 0 := by
          rw [Option.getD_some] at hminutes
          omega
        simp only [if_neg hne, if_pos hwhole, List.append_nil]
    rw [hjson]
    exact fromisoformat_isoformat h

example : fromisoformat (lit "2026-01-02T03:04:05.000060-05:30") =
    .ok ⟨2026, 1, 2, 3, 4, 5, 60, some (-19800)⟩ := by decide +kernel

end LineageVault
