import Mathlib.Data.List.Chain
import Mathlib.Data.List.TakeWhile
import LineageVault.Python.FiniteMaps
import LineageVault.Python.IsoFormat
import LineageVault.Python.JsonLoads

/-! # Strings and numbers in JSON

What `json.dumps` writes for a string or a number is read back, whatever text comes after it.
-/

namespace LineageVault
set_option autoImplicit false

/-! ## Code points -/

theorem CodePoint.scalar_val (c : Char) : c.toNat < 0xD800 ∨ 0xE000 ≤ c.toNat := by
  rcases c.valid with h | h
  · exact .inl h
  · exact .inr h.1

theorem CodePoint.scalar_lt (c : Char) : c.toNat < 0x110000 := by
  rcases c.valid with h | h
  · exact Nat.lt_trans h (by decide)
  · exact h.2

theorem CodePoint.ofVal_val (c : CodePoint) : CodePoint.ofVal c.val = c := by
  cases c with
  | scalar c =>
    have hc := CodePoint.scalar_val c
    have hno : ¬ (0xD800 ≤ c.toNat ∧ c.toNat < 0xE000) := by omega
    rw [CodePoint.ofVal, CodePoint.val, dif_neg hno, Char.ofNat_toNat]
  | surrogate s =>
    have hs : 0xD800 ≤ 0xD800 + s.val ∧ 0xD800 + s.val < 0xE000 := by omega
    rw [CodePoint.ofVal, CodePoint.val, dif_pos hs]
    simp

/-! ## Strings -/

/-- The next piece is a `\uXXXX` with a low surrogate. -/
def startsLow : List StringPiece → Bool
  | .unit n :: _ => isLow n
  | _ => false

theorem joinPieces_unit {n : ℕ} {ps : List StringPiece} (h : isHigh n = true → startsLow ps = false) :
    joinPieces (.unit n :: ps) = .ofVal n :: joinPieces ps := by
  cases ps with
  | nil => rfl
  | cons p ps =>
    cases p with
    | plain c => rfl
    | unit m =>
      have hpair : (isHigh n && isLow m) = false := by
        cases hn : isHigh n with
        | false => rfl
        | true => exact h hn
      rw [joinPieces, hpair]
      rfl

/-- The pieces are those of one code point. -/
structure PiecesOf (c : CodePoint) (ps : List StringPiece) : Prop where
  join : ∀ qs, (isHigh c.val = true → startsLow qs = false) → joinPieces (ps ++ qs) = c :: joinPieces qs
  low : ∀ qs, startsLow (ps ++ qs) = true → isLow c.val = true

theorem PiecesOf.plain (c : CodePoint) : PiecesOf c [.plain c] :=
  ⟨fun _ _ => rfl, fun _ h => (Bool.false_ne_true h).elim⟩

theorem PiecesOf.unit {c : CodePoint} {n : ℕ} (h : c.val = n) : PiecesOf c [.unit n] where
  join qs hqs := by
    subst h
    rw [List.singleton_append, joinPieces_unit hqs, CodePoint.ofVal_val]
  low qs hlow := by rwa [h]

theorem PiecesOf.pair {c : Char} (h : 0x10000 ≤ c.toNat) :
    PiecesOf (.scalar c) [.unit (0xD800 + (c.toNat - 0x10000) / 0x400),
      .unit (0xDC00 + (c.toNat - 0x10000) % 0x400)] where
  join qs _ := by
    have hc := CodePoint.scalar_lt c
    have hpair : (isHigh (0xD800 + (c.toNat - 0x10000) / 0x400) &&
        isLow (0xDC00 + (c.toNat - 0x10000) % 0x400)) = true := by
      simp only [isHigh, isLow, Bool.and_eq_true, decide_eq_true_eq]
      omega
    have hval : 0x10000 + (0xD800 + (c.toNat - 0x10000) / 0x400 - 0xD800) * 0x400 +
        (0xDC00 + (c.toNat - 0x10000) % 0x400 - 0xDC00) = (CodePoint.scalar c).val := by
      simp only [CodePoint.val]
      omega
    rw [List.cons_append, List.singleton_append, joinPieces, if_pos hpair, hval, CodePoint.ofVal_val]
  low qs hlow := by
    simp only [List.cons_append, startsLow, isLow, Bool.and_eq_true, decide_eq_true_eq] at hlow
    have := CodePoint.scalar_lt c
    omega

theorem hexValue_hexDigit (n : ℕ) : hexValue (hexDigit (n % 16)) = some (n % 16) := by
  have hall : ∀ k : Fin 16, hexValue (hexDigit k) = some k.val := by decide
  exact hall ⟨n % 16, Nat.mod_lt _ (by decide)⟩

theorem scanString_unicodeEscape {n : ℕ} (hn : n < 0x10000) (rest : Str) :
    scanString .text (unicodeEscape n ++ rest) =
      (scanString .text rest).map fun r => (.unit n :: r.1, r.2) := by
  have hvalue : 16 * (16 * (16 * (16 * 0 + n / 4096 % 16) + n / 256 % 16) + n / 16 % 16) + n % 16 = n := by
    omega
  have hdigits : ∀ a b c d : CodePoint, scanString .text (lit "\\u" ++ [a, b, c, d] ++ rest) =
      scanString (.digits 3 0) (a :: b :: c :: d :: rest) := fun _ _ _ _ => rfl
  rw [unicodeEscape, hdigits]
  simp only [scanString, hexValue_hexDigit, Option.bind_some, hvalue]

theorem scanString_short {c e : CodePoint} (he : e ≠ .scalar 'u') (h : shortEscape e = some c) (rest : Str) :
    scanString .text (backslash :: e :: rest) =
      (scanString .text rest).map fun r => (.plain c :: r.1, r.2) := by
  have hback : backslash ≠ quoteMark := by decide
  rw [scanString, if_neg hback, if_pos rfl, scanString, if_neg he, h, Option.bind_some]

theorem scanString_escapeChar (c : Char) : ∃ ps, PiecesOf (.scalar c) ps ∧ ∀ rest,
    scanString .text (escapeChar c ++ rest) = (scanString .text rest).map fun r => (ps ++ r.1, r.2) := by
  have hdef := escapeChar.eq_def c
  -- the short escapes
  have hshort : ∀ e : Char, escapeChar c = [backslash, .scalar e] → e ≠ 'u' →
      shortEscape (.scalar e) = some (.scalar c) → ∃ ps, PiecesOf (.scalar c) ps ∧ ∀ rest,
        scanString .text (escapeChar c ++ rest) =
          (scanString .text rest).map fun r => (ps ++ r.1, r.2) := by
    intro e he hu hc
    refine ⟨_, .plain _, fun rest => ?_⟩
    rw [he]
    exact scanString_short (fun h => hu (CodePoint.scalar.inj h)) hc rest
  by_cases hq : c = '"'
  · subst hq
    exact hshort '"' rfl (by decide) rfl
  rw [if_neg hq] at hdef
  by_cases hb : c = '\\'
  · subst hb
    exact hshort '\\' rfl (by decide) rfl
  rw [if_neg hb] at hdef
  by_cases h₁ : c = '\n'
  · subst h₁
    exact hshort 'n' rfl (by decide) rfl
  rw [if_neg h₁] at hdef
  by_cases h₂ : c = '\r'
  · subst h₂
    exact hshort 'r' rfl (by decide) rfl
  rw [if_neg h₂] at hdef
  by_cases h₃ : c = '\t'
  · subst h₃
    exact hshort 't' rfl (by decide) rfl
  rw [if_neg h₃] at hdef
  by_cases h₄ : c = Char.ofNat 0x0C
  · subst h₄
    exact hshort 'f' rfl (by decide) rfl
  rw [if_neg h₄] at hdef
  by_cases h₅ : c = Char.ofNat 0x08
  · subst h₅
    exact hshort 'b' rfl (by decide) rfl
  rw [if_neg h₅] at hdef
  by_cases h₆ : ' ' ≤ c ∧ c ≤ '~'
  · rw [if_pos h₆] at hdef
    refine ⟨_, .plain _, fun rest => ?_⟩
    have hquote : CodePoint.scalar c ≠ quoteMark := fun h => hq (CodePoint.scalar.inj h)
    have hback : CodePoint.scalar c ≠ backslash := fun h => hb (CodePoint.scalar.inj h)
    have hprintable : ¬ (CodePoint.scalar c).val < 0x20 := Nat.not_lt.2 h₆.1
    rw [hdef, List.singleton_append, scanString, if_neg hquote, if_neg hback, if_neg hprintable]
    rfl
  rw [if_neg h₆] at hdef
  by_cases h₇ : c.toNat < 0x10000
  · rw [if_pos h₇] at hdef
    refine ⟨_, .unit rfl, fun rest => ?_⟩
    rw [hdef, scanString_unicodeEscape h₇]
    rfl
  · rw [if_neg h₇] at hdef
    have hc := CodePoint.scalar_lt c
    refine ⟨_, .pair (Nat.not_lt.1 h₇), fun rest => ?_⟩
    rw [hdef, List.append_assoc, scanString_unicodeEscape (by omega), scanString_unicodeEscape (by omega),
      Option.map_map]
    rfl

theorem scanString_escape (c : CodePoint) : ∃ ps, PiecesOf c ps ∧ ∀ rest,
    scanString .text (escape c ++ rest) = (scanString .text rest).map fun r => (ps ++ r.1, r.2) := by
  cases c with
  | scalar c => exact scanString_escapeChar c
  | surrogate s =>
    refine ⟨_, .unit rfl, fun rest => ?_⟩
    rw [escape, scanString_unicodeEscape (by omega)]
    rfl

/-- No high surrogate stands before a low one. -/
def Unpaired (s : Str) : Prop := s.IsChain fun c d => ¬ (isHigh c.val = true ∧ isLow d.val = true)

theorem scanString_flatMap (s : Str) : ∃ ps, (Unpaired s → joinPieces ps = s) ∧
    (startsLow ps = true → ∃ c, s.head? = some c ∧ isLow c.val = true) ∧ ∀ rest,
      scanString .text (s.flatMap escape ++ quoteMark :: rest) = some (ps, rest) := by
  induction s with
  | nil => exact ⟨[], fun _ => rfl, fun h => (Bool.false_ne_true h).elim, fun _ => rfl⟩
  | cons c s ih =>
    obtain ⟨qs, hjoin, hlow, hqs⟩ := ih
    obtain ⟨ps, hps, hread⟩ := scanString_escape c
    refine ⟨ps ++ qs, fun hs => ?_, fun h => ⟨c, rfl, hps.low qs h⟩, fun rest => ?_⟩
    · obtain ⟨hhead, htail⟩ := List.isChain_cons.1 hs
      rw [hps.join qs ?_, hjoin htail]
      intro hhigh
      by_contra hstarts
      obtain ⟨d, hd, hdlow⟩ := hlow (by simpa using hstarts)
      exact hhead d hd ⟨hhigh, hdlow⟩
    · rw [List.flatMap_cons, List.append_assoc, hread, hqs]
      rfl

/-- A string literal is read to its end. -/
theorem scanString_quoted (s rest : Str) : ∃ ps, (Unpaired s → joinPieces ps = s) ∧
    scanString .text (s.flatMap escape ++ lit "\"" ++ rest) = some (ps, rest) := by
  obtain ⟨ps, hjoin, -, hread⟩ := scanString_flatMap s
  exact ⟨ps, hjoin, by rw [List.append_assoc]; exact hread rest⟩

/-! ## Numbers -/

/-- Nothing of a number comes next. -/
def Ends (rest : Str) : Prop := ∀ c ∈ rest.head?, c.isDecimal = false ∧ c ∉ lit ".eE+-"

theorem startsWith_append {c : Char} {s rest : Str} (h : startsWith c rest = false) :
    startsWith c (s ++ rest) = startsWith c s := by
  cases s with
  | nil => exact h
  | cons d s => rfl

theorem Ends.startsWith {rest : Str} (h : Ends rest) {c : Char}
    (hc : (CodePoint.scalar c).isDecimal = true ∨ .scalar c ∈ lit ".eE+-") : startsWith c rest = false := by
  cases rest with
  | nil => rfl
  | cons d rest =>
    obtain ⟨hd, hmarks⟩ := h d rfl
    have hne : d ≠ .scalar c := by
      rintro rfl
      rcases hc with hc | hc
      · exact Bool.false_ne_true (hd.symm.trans hc)
      · exact hmarks hc
    simpa [LineageVault.startsWith] using hne

theorem takeWhile_append_ends {rest : Str} (h : Ends rest) (s : Str) :
    (s ++ rest).takeWhile CodePoint.isDecimal = s.takeWhile CodePoint.isDecimal ∧
      (s ++ rest).dropWhile CodePoint.isDecimal = s.dropWhile CodePoint.isDecimal ++ rest := by
  induction s with
  | nil =>
    cases rest with
    | nil => exact ⟨rfl, rfl⟩
    | cons c rest =>
      have hc := (h c rfl).1
      rw [List.nil_append, List.takeWhile_cons, hc, List.dropWhile_cons, hc]
      exact ⟨rfl, rfl⟩
  | cons c s ih =>
    rw [List.cons_append, List.takeWhile_cons, List.takeWhile_cons, List.dropWhile_cons, List.dropWhile_cons,
      ih.1, ih.2]
    cases c.isDecimal <;> exact ⟨rfl, rfl⟩

theorem optional_append (cs : List Char) {rest : Str} (h : Ends rest)
    (hcs : ∀ c ∈ cs, CodePoint.scalar c ∈ lit ".eE+-") (s : Str) :
    optional cs (s ++ rest) = ((optional cs s).1, (optional cs s).2 ++ rest) := by
  cases s with
  | nil =>
    cases rest with
    | nil => rfl
    | cons c rest =>
      have hc : c ∉ cs.map CodePoint.scalar := by
        rintro hmem
        obtain ⟨d, hd, rfl⟩ := List.mem_map.1 hmem
        exact (h _ rfl).2 (hcs d hd)
      exact if_neg hc
  | cons c s =>
    rw [List.cons_append, optional, optional]
    split <;> rfl

theorem scanWhole_append {rest : Str} (h : Ends rest) (s : Str) :
    scanWhole (s ++ rest) = (scanWhole s).map fun r => (r.1, r.2 ++ rest) := by
  obtain ⟨htake, hdrop⟩ := takeWhile_append_ends h s
  rw [scanWhole, scanWhole, startsWith_append (h.startsWith (.inl (by decide))), htake, hdrop]
  by_cases hzero : startsWith '0' s = true
  · cases s with
    | nil => exact (Bool.false_ne_true hzero).elim
    | cons c s =>
      rw [if_pos hzero, if_pos hzero]
      rfl
  · rw [if_neg hzero, if_neg hzero]
    split <;> rfl

theorem scanFraction_append {rest : Str} (h : Ends rest) (s : Str) :
    scanFraction (s ++ rest) = ((scanFraction s).1, (scanFraction s).2 ++ rest) := by
  have hdot := optional_append ['.'] h (by simp [lit]) s
  obtain ⟨htake, hdrop⟩ := takeWhile_append_ends h (optional ['.'] s).2
  simp only [scanFraction, hdot, htake, hdrop]
  split <;> rfl

theorem scanExponent_append {rest : Str} (h : Ends rest) (s : Str) :
    scanExponent (s ++ rest) = ((scanExponent s).1, (scanExponent s).2 ++ rest) := by
  have hmark := optional_append ['e', 'E'] h (by simp [lit]) s
  have hsign := optional_append ['-', '+'] h (by simp [lit]) (optional ['e', 'E'] s).2
  obtain ⟨htake, hdrop⟩ := takeWhile_append_ends h (optional ['-', '+'] (optional ['e', 'E'] s).2).2
  simp only [scanExponent, hmark, hsign, htake, hdrop]
  split <;> rfl

/-- A number is read up to the same place whatever comes after it. -/
theorem scanNumber_append {rest : Str} (h : Ends rest) (s : Str) :
    scanNumber (s ++ rest) = (scanNumber s).map fun r => (r.1, r.2 ++ rest) := by
  have hsign := optional_append ['-'] h (by simp [lit]) s
  simp only [scanNumber, hsign, scanWhole_append h, Option.map_map, Function.comp_def,
    scanFraction_append h, scanExponent_append h]

/-- A number begins with a digit, or with a sign and a digit. -/
theorem scanNumber_head {s : Str} {r : NumberText × Str} (h : scanNumber s = some r) :
    ∃ c t, s = c :: t ∧ (c.isDecimal = true ∨ c = .scalar '-' ∧ ∃ d ∈ t.head?, d.isDecimal = true) := by
  have hwhole : ∀ t : Str, ∀ w, scanWhole t = some w → ∃ d ∈ t.head?, d.isDecimal = true := by
    intro t w hw
    cases t with
    | nil => cases hw
    | cons d t =>
      refine ⟨d, rfl, ?_⟩
      by_contra hd
      have hzero : startsWith '0' (d :: t) = false := by
        have hne : d ≠ .scalar '0' := by
          rintro rfl
          exact hd rfl
        simpa [startsWith] using hne
      rw [scanWhole, hzero, List.takeWhile_cons, if_neg hd] at hw
      cases hw
  obtain ⟨w, hw, -⟩ := Option.map_eq_some_iff.1 h
  cases s with
  | nil => cases hw
  | cons c s =>
    refine ⟨c, s, rfl, ?_⟩
    by_cases hc : c ∈ ['-'].map CodePoint.scalar
    · rw [optional, if_pos hc] at hw
      exact .inr ⟨List.mem_singleton.1 hc, hwhole s w hw⟩
    · rw [optional, if_neg hc] at hw
      obtain ⟨d, hd, hdecimal⟩ := hwhole _ w hw
      cases hd
      exact .inl hdecimal

theorem scanConstant_number {s : Str} {r : NumberText × Str} (h : scanNumber s = some r) :
    scanConstant s = none := by
  obtain ⟨c, t, rfl, hc⟩ := scanNumber_head h
  have hmarks : ∀ text ∈ jsonConstants.map Prod.fst, 2 ≤ text.length ∧
      ∀ d ∈ text.take 2, d.isDecimal = false := by decide
  refine List.findSome?_eq_none_iff.2 fun entry hentry => ?_
  obtain ⟨hlength, hplain⟩ := hmarks _ (List.mem_map_of_mem hentry)
  rw [Option.map_eq_none_iff]
  by_contra hprefix
  obtain ⟨rest, hrest⟩ := Option.ne_none_iff_exists'.1 hprefix
  have htext := List.isPrefixOf?_eq_some_iff_append_eq.1 hrest
  -- the first two code points of a constant are no digits
  obtain ⟨a, b, as, hab⟩ : ∃ a b as, entry.1 = a :: b :: as := by
    match hform : entry.1 with
    | [] => simp [hform] at hlength
    | [a] => simp [hform] at hlength
    | a :: b :: as => exact ⟨a, b, as, rfl⟩
  rw [hab] at htext hplain
  obtain ⟨rfl, rfl⟩ := List.cons.inj htext
  rcases hc with hdecimal | ⟨-, d, hd, hdecimal⟩
  · exact Bool.false_ne_true ((hplain a (by simp)).symm.trans hdecimal)
  · cases hd
    exact Bool.false_ne_true ((hplain b (by simp)).symm.trans hdecimal)

/-! ### Integers -/

theorem natText_decimal (n : ℕ) : ∀ c ∈ natText n, c.isDecimal = true := by
  intro c hc
  obtain ⟨d, rfl, hd⟩ := mem_natText hc
  simp [CodePoint.isDecimal, CodePoint.digit, hd]

theorem natText_head {n : ℕ} (hn : 0 < n) : startsWith '0' (natText n) = false := by
  induction n using Nat.strong_induction_on with
  | _ n ih =>
    rcases Nat.lt_or_ge n 10 with hlt | hge
    · rw [natText_lt hlt]
      have hall : ∀ k : Fin 10, 0 < k.val → startsWith '0' [.scalar (Nat.digitChar k)] = false := by decide
      exact hall ⟨n, hlt⟩ hn
    · rw [natText_ge hge]
      have hprev := ih (n / 10) (by omega) (by omega)
      cases htext : natText (n / 10) with
      | nil => exact absurd htext (by simp [natText])
      | cons c t =>
        rw [htext] at hprev
        exact hprev

theorem decimal_snoc (s : Str) (c : CodePoint) : decimal (s ++ [c]) = 10 * decimal s + c.digit.getD 0 := by
  simp [decimal]

theorem decimal_natText (n : ℕ) : decimal (natText n) = n := by
  have hdigit : ∀ k : Fin 10, (CodePoint.scalar (Nat.digitChar k)).digit = some k.val := by decide
  induction n using Nat.strong_induction_on with
  | _ n ih =>
    rcases Nat.lt_or_ge n 10 with hlt | hge
    · rw [natText_lt hlt]
      simp [decimal, hdigit ⟨n, hlt⟩]
    · rw [natText_ge hge, decimal_snoc, ih (n / 10) (by omega), hdigit ⟨n % 10, by omega⟩]
      simp only [Option.getD_some]
      omega

theorem scanWhole_natText (n : ℕ) : scanWhole (natText n) = some (natText n, []) := by
  cases n with
  | zero => rfl
  | succ n =>
    have hall := natText_decimal (n + 1)
    have hne : (natText (n + 1)).isEmpty = false := by simp [natText]
    rw [scanWhole, natText_head n.succ_pos, List.takeWhile_eq_self_iff.2 hall,
      List.dropWhile_eq_nil_iff.2 hall, hne]
    rfl

theorem scanNumber_intText (i : ℤ) :
    scanNumber (intText i) = some (⟨if i < 0 then lit "-" else [], natText i.natAbs, [], []⟩, []) := by
  cases i with
  | ofNat n =>
    have hsign : optional ['-'] (natText n) = ([], natText n) := by
      cases htext : natText n with
      | nil => rfl
      | cons c t =>
        have hc := natText_decimal n c (htext ▸ List.mem_cons_self)
        rw [optional, if_neg]
        rintro hmem
        rw [List.mem_singleton.1 hmem] at hc
        exact Bool.false_ne_true hc
    rw [intText, scanNumber, hsign, scanWhole_natText]
    rfl
  | negSucc n =>
    have hsign : optional ['-'] (lit "-" ++ natText (n + 1)) = (lit "-", natText (n + 1)) := rfl
    rw [intText, scanNumber, hsign, scanWhole_natText, if_pos (Int.negSucc_lt_zero n)]
    rfl

theorem value_intText (reprFloat : Str → FloatText) {i : ℤ} (hi : (natText i.natAbs).length ≤ 4300) :
    (NumberText.mk (if i < 0 then lit "-" else []) (natText i.natAbs) [] []).value reprFloat =
      some (.int i) := by
  simp only [NumberText.value, NumberText.isFloat, List.isEmpty_nil, Bool.and_self, Bool.not_true,
    Bool.false_eq_true, if_false, Nat.not_lt.2 hi, decimal_natText]
  by_cases hneg : i < 0
  · have hi' : -(i.natAbs : ℤ) = i := by omega
    rw [if_pos hneg]
    exact congrArg (fun k => some (Json.int k)) hi'
  · have hi' : (i.natAbs : ℤ) = i := by omega
    rw [if_neg hneg]
    exact congrArg (fun k => some (Json.int k)) hi'

end LineageVault
