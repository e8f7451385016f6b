import LineageVault.Python.Text

/-! # `json.dumps`

The values of the json module and the text `json.dumps` makes of them with its defaults
(`ensure_ascii`, separators `", "` and `": "`), with and without `sort_keys`. The entries of an
object stand in the order of insertion of the `dict`.

A number that is a `float` is carried as the text of its `repr`; nothing here depends on its value.
-/

namespace LineageVault
set_option autoImplicit false

/-- What `float.__repr__` writes: digits, sign, point, exponent, `inf` and `nan` as json spells
them. -/
structure FloatText where
  text : Str
  chars : ∀ c ∈ text, c ∈ lit "0123456789+-.eINafinty"

inductive Json where
  | null
  | bool (b : Bool)
  | int (i : ℤ)
  | float (f : FloatText)
  | str (s : Str)
  | arr (xs : List Json)
  | obj (fields : List (Str × Json))

/-! ## Strings -/

def hexDigit (n : ℕ) : CodePoint := .scalar ((Nat.toDigits 16 n).headD '0')

/-- `\uXXXX` -/
def unicodeEscape (n : ℕ) : Str :=
  lit "\\u" ++ [hexDigit (n / 4096 % 16), hexDigit (n / 256 % 16), hexDigit (n / 16 % 16),
    hexDigit (n % 16)]

def escapeChar (c : Char) : Str :=
  if c = '"' then lit "\\\""
  else if c = '\\' then lit "\\\\"
  else if c = '\n' then lit "\\n"
  else if c = '\r' then lit "\\r"
  else if c = '\t' then lit "\\t"
  else if c = Char.ofNat 0x0C then lit "\\f"
  else if c = Char.ofNat 0x08 then lit "\\b"
  else if ' ' ≤ c ∧ c ≤ '~' then [.scalar c]
  else if c.toNat < 0x10000 then unicodeEscape c.toNat
  else
    unicodeEscape (0xD800 + (c.toNat - 0x10000) / 0x400) ++
      unicodeEscape (0xDC00 + (c.toNat - 0x10000) % 0x400)

def shortEscapes : List String := ["\\\"", "\\\\", "\\n", "\\r", "\\t", "\\f", "\\b"]

/-- Everything an escaped character can be. -/
theorem escapeChar_cases (c : Char) :
    (∃ t ∈ shortEscapes, escapeChar c = lit t) ∨
    (c ≠ '"' ∧ c ≠ '\\' ∧ escapeChar c = [.scalar c]) ∨
    (∃ n, escapeChar c = unicodeEscape n) ∨
    (∃ m n, escapeChar c = unicodeEscape m ++ unicodeEscape n) := by
  have hdef := escapeChar.eq_def c
  by_cases hq : c = '"'
  · exact .inl ⟨_, by decide, hdef.trans (if_pos hq)⟩
  rw [if_neg hq] at hdef
  by_cases hb : c = '\\'
  · exact .inl ⟨_, by decide, hdef.trans (if_pos hb)⟩
  rw [if_neg hb] at hdef
  by_cases h₁ : c = '\n'
  · exact .inl ⟨_, by decide, hdef.trans (if_pos h₁)⟩
  rw [if_neg h₁] at hdef
  by_cases h₂ : c = '\r'
  · exact .inl ⟨_, by decide, hdef.trans (if_pos h₂)⟩
  rw [if_neg h₂] at hdef
  by_cases h₃ : c = '\t'
  · exact .inl ⟨_, by decide, hdef.trans (if_pos h₃)⟩
  rw [if_neg h₃] at hdef
  by_cases h₄ : c = Char.ofNat 0x0C
  · exact .inl ⟨_, by decide, hdef.trans (if_pos h₄)⟩
  rw [if_neg h₄] at hdef
  by_cases h₅ : c = Char.ofNat 0x08
  · exact .inl ⟨_, by decide, hdef.trans (if_pos h₅)⟩
  rw [if_neg h₅] at hdef
  by_cases h₆ : ' ' ≤ c ∧ c ≤ '~'
  · exact .inr (.inl ⟨hq, hb, hdef.trans (if_pos h₆)⟩)
  rw [if_neg h₆] at hdef
  by_cases h₇ : c.toNat < 0x10000
  · exact .inr (.inr (.inl ⟨_, hdef.trans (if_pos h₇)⟩))
  · exact .inr (.inr (.inr ⟨_, _, hdef.trans (if_neg h₇)⟩))

def escape : CodePoint → Str
  | .scalar c => escapeChar c
  | .surrogate s => unicodeEscape (0xD800 + s.val)

def quote (s : Str) : Str := lit "\"" ++ s.flatMap escape ++ lit "\""

/-! ## Values -/

/-- `sort_keys`: stable, by the key. -/
def sortFields (kvs : List (Str × Str)) : List (Str × Str) :=
  kvs.insertionSort fun a b => Str.le a.1 b.1

mutual

def Json.dumps (sortKeys : Bool) : Json → Str
  | .null => lit "null"
  | .bool true => lit "true"
  | .bool false => lit "false"
  | .int i => intText i
  | .float f => f.text
  | .str s => quote s
  | .arr xs => lit "[" ++ (lit ", ").intercalate (dumpsItems sortKeys xs) ++ lit "]"
  | .obj kvs =>
    let fields := dumpsFields sortKeys kvs
    lit "\x7b" ++ (lit ", ").intercalate
      ((if sortKeys then sortFields fields else fields).map Prod.snd) ++ lit "\x7d"
termination_by structural x => x

def Json.dumpsItems (sortKeys : Bool) : List Json → List Str
  | [] => []
  | x :: xs => x.dumps sortKeys :: dumpsItems sortKeys xs
termination_by structural x => x

/-- The entries of an object, each with its key and its whole text. -/
def Json.dumpsFields (sortKeys : Bool) : List (Str × Json) → List (Str × Str)
  | [] => []
  | kv :: kvs => dumpsField sortKeys kv :: dumpsFields sortKeys kvs
termination_by structural x => x

def Json.dumpsField (sortKeys : Bool) : Str × Json → Str × Str
  | (k, v) => (k, quote k ++ lit ": " ++ v.dumps sortKeys)
termination_by structural x => x

end

example : Json.dumps true (.obj [(lit "b", .arr [.int (-1), .null]), (lit "a", .str (lit "x|\"é"))]) =
    lit "\x7b\"a\": \"x|\\\"\\u00e9\", \"b\": [-1, null]\x7d" := by decide

/-! ## What holds of every serialised value -/

/-- A property of the pieces of a serialised value that texts put together from them keep. -/
structure Pieces (C : Str → Prop) : Prop where
  nil : C []
  append : ∀ {s t : Str}, C s → C t → C (s ++ t)
  mark : ∀ t ∈ ["null", "true", "false", "[", "]", "\x7b", "\x7d", ", ", ": "], C (lit t)
  int : ∀ i : ℤ, C (intText i)
  float : ∀ f : FloatText, C f.text
  quote : ∀ s : Str, C (quote s)

namespace Pieces
variable {C : Str → Prop}

theorem intercalate (h : Pieces C) {ts : List Str} (hts : ∀ t ∈ ts, C t) :
    C ((lit ", ").intercalate ts) := by
  have hsep : C (lit ", ") := h.mark _ (by decide)
  induction ts with
  | nil => exact h.nil
  | cons t ts ih =>
    have ht := hts t (by simp)
    have hrest := ih fun u hu => hts u (by simp [hu])
    cases ts with
    | nil => simpa [List.intercalate] using ht
    | cons u ts =>
      rw [List.intercalate_cons_cons]
      exact h.append (h.append ht hsep) hrest

mutual

/-- One case per constructor. -/
theorem dumps (h : Pieces C) (sortKeys : Bool) : ∀ j : Json, C (j.dumps sortKeys)
  | .null => h.mark _ (by decide)
  | .bool true => h.mark _ (by decide)
  | .bool false => h.mark _ (by decide)
  | .int i => h.int i
  | .float f => h.float f
  | .str s => h.quote s
  | .arr xs => by
    have ho : C (lit "[") := h.mark _ (by decide)
    have hc : C (lit "]") := h.mark _ (by decide)
    rw [Json.dumps]
    exact h.append (h.append ho (h.intercalate (h.dumpsItems sortKeys xs))) hc
  | .obj kvs => by
    have ho : C (lit "\x7b") := h.mark _ (by decide)
    have hc : C (lit "\x7d") := h.mark _ (by decide)
    have hmem : ∀ t ∈ (if sortKeys then sortFields (Json.dumpsFields sortKeys kvs)
        else Json.dumpsFields sortKeys kvs).map Prod.snd, C t := by
      intro t ht
      obtain ⟨f, hf, rfl⟩ := List.mem_map.1 ht
      refine h.dumpsFields sortKeys kvs f ?_
      split at hf
      · exact (List.perm_insertionSort _ _).subset hf
      · exact hf
    rw [Json.dumps]
    exact h.append (h.append ho (h.intercalate hmem)) hc

theorem dumpsItems (h : Pieces C) (sortKeys : Bool) :
    ∀ xs : List Json, ∀ t ∈ Json.dumpsItems sortKeys xs, C t
  | [], t, ht => by simp [Json.dumpsItems] at ht
  | x :: xs, t, ht => by
    rw [Json.dumpsItems, List.mem_cons] at ht
    rcases ht with rfl | ht
    · exact h.dumps sortKeys x
    · exact h.dumpsItems sortKeys xs t ht

theorem dumpsFields (h : Pieces C) (sortKeys : Bool) :
    ∀ kvs : List (Str × Json), ∀ f ∈ Json.dumpsFields sortKeys kvs, C f.2
  | [], f, hf => by simp [Json.dumpsFields] at hf
  | kv :: kvs, f, hf => by
    rw [Json.dumpsFields, List.mem_cons] at hf
    rcases hf with rfl | hf
    · exact h.dumpsField sortKeys kv
    · exact h.dumpsFields sortKeys kvs f hf

theorem dumpsField (h : Pieces C) (sortKeys : Bool) :
    ∀ kv : Str × Json, C (Json.dumpsField sortKeys kv).2
  | (k, v) => by
    have hsep : C (lit ": ") := h.mark _ (by decide)
    rw [Json.dumpsField]
    exact h.append (h.append (h.quote k) hsep) (h.dumps sortKeys v)

end

end Pieces

/-! ## Texts that can be encoded -/

theorem natText_encodable (n : ℕ) : (natText n).encodable = true := by
  refine List.all_eq_true.2 fun c hc => ?_
  obtain ⟨d, rfl, -⟩ := mem_natText hc
  rfl

theorem intText_encodable (i : ℤ) : (intText i).encodable = true := by
  cases i with
  | ofNat n => exact natText_encodable n
  | negSucc n => rw [intText, Str.encodable_append, Str.encodable_lit, natText_encodable, Bool.and_self]

theorem unicodeEscape_encodable (n : ℕ) : (unicodeEscape n).encodable = true := by
  rw [unicodeEscape, Str.encodable_append, Str.encodable_lit]
  rfl

theorem escape_encodable (c : CodePoint) : (escape c).encodable = true := by
  cases c with
  | surrogate s => exact unicodeEscape_encodable _
  | scalar c =>
    change (escapeChar c).encodable = true
    obtain ⟨t, -, h⟩ | ⟨-, -, h⟩ | ⟨n, h⟩ | ⟨m, n, h⟩ := escapeChar_cases c
    · rw [h, Str.encodable_lit]
    · rw [h]
      rfl
    · rw [h, unicodeEscape_encodable]
    · rw [h, Str.encodable_append, unicodeEscape_encodable, unicodeEscape_encodable, Bool.and_self]

theorem quote_encodable (s : Str) : (quote s).encodable = true := by
  have h : Str.encodable (s.flatMap escape) = true := by
    refine List.all_eq_true.2 fun c hc => ?_
    obtain ⟨d, -, hd⟩ := List.mem_flatMap.1 hc
    exact List.all_eq_true.1 (escape_encodable d) c hd
  simp only [quote, Str.encodable_append, Str.encodable_lit, h, Bool.and_self]

/-- `ensure_ascii` -/
theorem dumps_encodable (sortKeys : Bool) (j : Json) : (j.dumps sortKeys).encodable = true := by
  refine Pieces.dumps (C := fun t => t.encodable = true) ?_ sortKeys j
  refine ⟨rfl, fun hs ht => ?_, fun t _ => Str.encodable_lit t, intText_encodable, fun f => ?_,
    quote_encodable⟩
  · rw [Str.encodable_append, hs, ht, Bool.and_self]
  · have hall : ∀ c ∈ lit "0123456789+-.eINafinty", c.isScalar = true := by decide
    exact List.all_eq_true.2 fun c hc => hall c (f.chars c hc)

/-! ## Where a text stands inside and outside its string literals

`scan` follows a text through its string literals. It refuses what no JSON text has: a backslash or
a bar outside a string, and a bar as an escape. -/

inductive ScanMode where
  | out
  | str
  | esc
  deriving DecidableEq, Repr

def quoteMark : CodePoint := .scalar '"'
def backslash : CodePoint := .scalar '\\'
def bar : CodePoint := .scalar '|'

def scanStep (c : CodePoint) : ScanMode → Option ScanMode
  | .out => if c = quoteMark then some .str else if c = backslash ∨ c = bar then none else some .out
  | .str => if c = quoteMark then some .out else if c = backslash then some .esc else some .str
  | .esc => if c = bar then none else some .str

def scan : ScanMode → Str → Option ScanMode
  | m, [] => some m
  | m, c :: s => (scanStep c m).bind fun m' => scan m' s

theorem scan_append (m : ScanMode) (s t : Str) :
    scan m (s ++ t) = (scan m s).bind fun m' => scan m' t := by
  induction s generalizing m with
  | nil => rfl
  | cons c s ih =>
    simp only [List.cons_append, scan, Option.bind_assoc, ih]

theorem scan_append_of {m m' : ScanMode} {s t : Str} (h : scan m s = some m') :
    scan m (s ++ t) = scan m' t := by
  rw [scan_append, h]; rfl

/-- Code points that do not touch the mode outside a string. -/
def Plain (c : CodePoint) : Prop := c ≠ quoteMark ∧ c ≠ backslash ∧ c ≠ bar

instance (c : CodePoint) : Decidable (Plain c) := inferInstanceAs (Decidable (_ ∧ _))

theorem scan_plain {s : Str} (h : ∀ c ∈ s, Plain c) : scan .out s = some .out := by
  induction s with
  | nil => rfl
  | cons c s ih =>
    obtain ⟨h1, h2, h3⟩ := h c (by simp)
    simp only [scan, scanStep, h1, h2, h3, or_self, if_false, Option.bind_some]
    exact ih fun d hd => h d (by simp [hd])

/-- Code points that stay inside a string. -/
theorem scan_inside {s : Str} (h : ∀ c ∈ s, c ≠ quoteMark ∧ c ≠ backslash) :
    scan .str s = some .str := by
  induction s with
  | nil => rfl
  | cons c s ih =>
    obtain ⟨h1, h2⟩ := h c (by simp)
    simp only [scan, scanStep, h1, h2, if_false, Option.bind_some]
    exact ih fun d hd => h d (by simp [hd])

theorem hexDigit_plain {n : ℕ} (h : n < 16) : Plain (hexDigit n) := by
  have hall : ∀ k : Fin 16, Plain (hexDigit k) := by decide
  exact hall ⟨n, h⟩

theorem scan_unicodeEscape (n : ℕ) : scan .str (unicodeEscape n) = some .str := by
  have hd : ∀ k, Plain (hexDigit (k % 16)) := fun k => hexDigit_plain (Nat.mod_lt _ (by omega))
  have hu : scan .str (lit "\\u") = some .str := by decide
  rw [unicodeEscape, scan_append_of hu]
  refine scan_inside fun c hc => ?_
  simp only [List.mem_cons, List.not_mem_nil, or_false] at hc
  obtain rfl | rfl | rfl | rfl := hc <;> exact ⟨(hd _).1, (hd _).2.1⟩

/-- An escaped code point begins and ends inside the string. -/
theorem scan_escape (c : CodePoint) : scan .str (escape c) = some .str := by
  have hshort : ∀ t ∈ shortEscapes, scan .str (lit t) = some .str := by decide
  cases c with
  | surrogate s => exact scan_unicodeEscape _
  | scalar c =>
    change scan .str (escapeChar c) = some .str
    obtain ⟨t, ht, h⟩ | ⟨hq, hb, h⟩ | ⟨n, h⟩ | ⟨m, n, h⟩ := escapeChar_cases c
    · rw [h, hshort t ht]
    · rw [h]
      refine scan_inside fun d hd => ?_
      rw [List.mem_singleton] at hd
      subst hd
      exact ⟨fun he => hq (CodePoint.scalar.inj he), fun he => hb (CodePoint.scalar.inj he)⟩
    · rw [h, scan_unicodeEscape]
    · rw [h, scan_append_of (scan_unicodeEscape m), scan_unicodeEscape]

theorem scan_flatMap_escape (s : Str) : scan .str (s.flatMap escape) = some .str := by
  induction s with
  | nil => rfl
  | cons c s ih => rw [List.flatMap_cons, scan_append_of (scan_escape c), ih]

theorem scan_quote (s : Str) : scan .out (quote s) = some .out := by
  have h : scan .out (lit "\"") = some .str := by decide
  rw [quote, List.append_assoc, scan_append_of h, scan_append_of (scan_flatMap_escape s)]
  decide

theorem scan_intText (i : ℤ) : scan .out (intText i) = some .out := by
  have hnat : ∀ n, scan .out (natText n) = some .out := by
    intro n
    refine scan_plain fun c hc => ?_
    obtain ⟨d, rfl, hd⟩ := mem_natText hc
    refine ⟨?_, ?_, ?_⟩ <;> (rintro h; cases h; revert hd; decide)
  cases i with
  | ofNat n => exact hnat n
  | negSucc n =>
    have h : scan .out (lit "-") = some .out := by decide
    rw [intText, scan_append_of h, hnat]

/-- Every serialised value ends outside its strings. -/
theorem scan_dumps (sortKeys : Bool) (j : Json) : scan .out (j.dumps sortKeys) = some .out := by
  refine Pieces.dumps (C := fun t => scan .out t = some .out) ?_ sortKeys j
  refine ⟨rfl, fun hs ht => ?_, by decide, scan_intText, fun f => ?_, scan_quote⟩
  · rw [scan_append_of hs, ht]
  · refine scan_plain fun c hc => ?_
    have hall : ∀ d ∈ lit "0123456789+-.eINafinty", Plain d := by decide
    exact hall c (f.chars c hc)

/-! ## No serialised value is the tail of another one after a bar -/

def Opposite : ScanMode → ScanMode → Prop
  | .out, .str => True
  | .str, .out => True
  | _, _ => False

theorem opposite_symm {m m' : ScanMode} (h : Opposite m m') : Opposite m' m := by
  cases m <;> cases m' <;> trivial

/-- A code point that is read outside and inside a string is no backslash; a quotation mark turns
both modes, any other one neither. -/
theorem opposite_step {c : CodePoint} {n n' : ScanMode} (h : scanStep c .out = some n)
    (h' : scanStep c .str = some n') : Opposite n n' := by
  by_cases hq : c = quoteMark
  · simp only [scanStep, hq, if_true, Option.some.injEq] at h h'
    rw [← h, ← h']
    trivial
  · by_cases hb : c = backslash ∨ c = bar
    · simp only [scanStep, hq, hb, if_false, if_true, reduceCtorEq] at h
    · obtain ⟨hb₁, hb₂⟩ := not_or.1 hb
      simp only [scanStep, hq, hb₁, hb₂, or_self, if_false, Option.some.injEq] at h h'
      rw [← h, ← h']
      trivial

/-- Two scans in opposite modes stay opposite to the end of the text. -/
theorem not_both_out {m m' : ScanMode} {s : Str} (hm : Opposite m m')
    (h : scan m s = some .out) (h' : scan m' s = some .out) : False := by
  induction s generalizing m m' with
  | nil => cases h; cases h'; exact hm
  | cons c s ih =>
    obtain ⟨n, hn, hs⟩ := Option.bind_eq_some_iff.1 h
    obtain ⟨n', hn', hs'⟩ := Option.bind_eq_some_iff.1 h'
    refine ih (?_ : Opposite n n') hs hs'
    cases m <;> cases m' <;> try exact hm.elim
    · exact opposite_step hn hn'
    · exact opposite_symm (opposite_step hn' hn)

/-- Where a bar can stand: inside a string. -/
theorem scan_bar {m m' : ScanMode} (h : scanStep bar m = some m') : m' = .str := by
  cases m <;> simp_all [scanStep, bar, quoteMark, backslash]

theorem scan_no_tail {x t : Str} (hp : scan .out (x ++ bar :: t) = some .out)
    (ht : scan .out t = some .out) : False := by
  rw [scan_append] at hp
  obtain ⟨m, -, hm⟩ := Option.bind_eq_some_iff.1 hp
  obtain ⟨m', hb, hs⟩ := Option.bind_eq_some_iff.1 hm
  rw [scan_bar hb] at hs
  exact not_both_out (show Opposite .str .out from trivial) hs ht

/-- **A text before a bar and a serialised value after it determine each other.** If the two texts
had different lengths, one value would be the tail of the other after a bar. -/
theorem append_bar_inj {e e' p p' : Str} (hp : scan .out p = some .out)
    (hp' : scan .out p' = some .out) (h : e ++ bar :: p = e' ++ bar :: p') : e = e' ∧ p = p' := by
  rcases List.append_eq_append_iff.1 h with ⟨a, rfl, ha⟩ | ⟨a, rfl, ha⟩
  · cases a with
    | nil => simpa using ha
    | cons c a =>
      obtain ⟨-, rfl⟩ := List.cons.inj ha
      exact (scan_no_tail hp hp').elim
  · cases a with
    | nil => simpa using ha.symm
    | cons c a =>
      obtain ⟨-, rfl⟩ := List.cons.inj ha
      exact (scan_no_tail hp' hp).elim

end LineageVault
