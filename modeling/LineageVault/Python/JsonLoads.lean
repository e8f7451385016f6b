import LineageVault.Python.IntText
import LineageVault.Python.Time

/-! # `json.loads`

The scanner of the json module on a `str`. What it refuses is a `ValueError`, also an integer of more
digits than `int` accepts. `float` is a parameter: the `repr` of the number that a text is read as.
-/

namespace LineageVault
set_option autoImplicit false

/-- The code point with this number. -/
def CodePoint.ofVal (n : ℕ) : CodePoint :=
  if h : 0xD800 ≤ n ∧ n < 0xE000 then .surrogate ⟨n - 0xD800, by omega⟩ else .scalar (Char.ofNat n)

/-! ## Strings -/

/-- What a string literal holds at one place: a code point, or the number of a `\uXXXX`. -/
inductive StringPiece where
  | plain (c : CodePoint)
  | unit (n : ℕ)

/-- Where the scanner stands in a literal: in its text, after a backslash, or among the digits of a
`\uXXXX`, `left` of them still to come after the next one. -/
inductive StringMode where
  | text
  | escape
  | digits (left n : ℕ)

def hexValue (c : CodePoint) : Option ℕ :=
  if 48 ≤ c.val ∧ c.val ≤ 57 then some (c.val - 48)
  else if 97 ≤ c.val ∧ c.val ≤ 102 then some (c.val - 87)
  else if 65 ≤ c.val ∧ c.val ≤ 70 then some (c.val - 55)
  else none

/-- `BACKSLASH` -/
def shortEscape (c : CodePoint) : Option CodePoint :=
  ([('"', '"'), ('\\', '\\'), ('/', '/'), ('b', Char.ofNat 0x08), ('f', Char.ofNat 0x0C), ('n', '\n'),
    ('r', '\r'), ('t', '\t')].find? fun e => c = .scalar e.1).map fun e => .scalar e.2

/-- `scanstring`, from after the opening quotation mark to after the closing one. -/
def scanString : StringMode → Str → Option (List StringPiece × Str)
  | _, [] => none
  | .text, c :: s =>
    if c = quoteMark then some ([], s)
    else if c = backslash then scanString .escape s
    -- `strict`
    else if c.val < 0x20 then none
    else (scanString .text s).map fun r => (.plain c :: r.1, r.2)
  | .escape, c :: s =>
    if c = .scalar 'u' then scanString (.digits 3 0) s
    else (shortEscape c).bind fun d => (scanString .text s).map fun r => (.plain d :: r.1, r.2)
  | .digits 0 n, c :: s =>
    (hexValue c).bind fun d => (scanString .text s).map fun r => (.unit (16 * n + d) :: r.1, r.2)
  | .digits (left + 1) n, c :: s => (hexValue c).bind fun d => scanString (.digits left (16 * n + d)) s

def isHigh (n : ℕ) : Bool := 0xD800 ≤ n && n < 0xDC00
def isLow (n : ℕ) : Bool := 0xDC00 ≤ n && n < 0xE000

/-- A `\uXXXX` that is a high surrogate and one that is a low surrogate after it are one code point. -/
def joinPieces : List StringPiece → Str
  | [] => []
  | .plain c :: ps => c :: joinPieces ps
  | .unit m :: .unit n :: ps =>
    if isHigh m && isLow n then
      CodePoint.ofVal (0x10000 + (m - 0xD800) * 0x400 + (n - 0xDC00)) :: joinPieces ps
    else .ofVal m :: joinPieces (.unit n :: ps)
  | .unit n :: ps => .ofVal n :: joinPieces ps

/-! ## Numbers -/

/-- The parts of a number, each with its marks. -/
structure NumberText where
  sign : Str
  whole : Str
  fraction : Str
  exponent : Str

def CodePoint.isDecimal (c : CodePoint) : Bool := c.digit.isSome

/-- One of the characters, if it comes next. -/
def optional (cs : List Char) : Str → Str × Str
  | [] => ([], [])
  | c :: s => if c ∈ cs.map CodePoint.scalar then ([c], s) else ([], c :: s)

/-- `0|[1-9]\d*` -/
def scanWhole (s : Str) : Option (Str × Str) :=
  if startsWith '0' s then some (lit "0", s.tail)
  else
    if (s.takeWhile CodePoint.isDecimal).isEmpty then none
    else some (s.takeWhile CodePoint.isDecimal, s.dropWhile CodePoint.isDecimal)

/-- `(\.\d+)?` -/
def scanFraction (s : Str) : Str × Str :=
  let dot := optional ['.'] s
  let digits := dot.2.takeWhile CodePoint.isDecimal
  if dot.1.isEmpty || digits.isEmpty then ([], s)
  else (dot.1 ++ digits, dot.2.dropWhile CodePoint.isDecimal)

/-- `([eE][-+]?\d+)?` -/
def scanExponent (s : Str) : Str × Str :=
  let mark := optional ['e', 'E'] s
  let sign := optional ['-', '+'] mark.2
  let digits := sign.2.takeWhile CodePoint.isDecimal
  if mark.1.isEmpty || digits.isEmpty then ([], s)
  else (mark.1 ++ sign.1 ++ digits, sign.2.dropWhile CodePoint.isDecimal)

/-- `NUMBER_RE` -/
def scanNumber (s : Str) : Option (NumberText × Str) :=
  let sign := optional ['-'] s
  (scanWhole sign.2).map fun whole =>
    let fraction := scanFraction whole.2
    let exponent := scanExponent fraction.2
    (⟨sign.1, whole.1, fraction.1, exponent.1⟩, exponent.2)

/-- The value of a text of decimal digits. -/
def decimal (s : Str) : ℕ := s.foldl (fun n c => 10 * n + c.digit.getD 0) 0

namespace NumberText
variable (n : NumberText)

def text : Str := n.sign ++ n.whole ++ n.fraction ++ n.exponent

def isFloat : Bool := !(n.fraction.isEmpty && n.exponent.isEmpty)

def value (reprFloat : Str → FloatText) : Option Json :=
  if n.isFloat then some (.float (reprFloat n.text))
  -- `sys.get_int_max_str_digits()`
  else if 4300 < n.whole.length then none
  else some (.int (if n.sign.isEmpty then decimal n.whole else -decimal n.whole))

end NumberText

/-! ## Values -/

def FloatText.nan : FloatText := ⟨lit "NaN", by decide⟩
def FloatText.infinity : FloatText := ⟨lit "Infinity", by decide⟩
def FloatText.minusInfinity : FloatText := ⟨lit "-Infinity", by decide⟩

def jsonConstants : List (Str × Json) :=
  [(lit "null", .null), (lit "true", .bool true), (lit "false", .bool false), (lit "NaN", .float .nan),
    (lit "Infinity", .float .infinity), (lit "-Infinity", .float .minusInfinity)]

def scanConstant (s : Str) : Option (Json × Str) :=
  jsonConstants.findSome? fun entry => (entry.1.isPrefixOf? s).map fun rest => (entry.2, rest)

/-- Past the whitespace of JSON. -/
def skip (s : Str) : Str := s.dropWhile fun c => c ∈ lit " \t\n\r"

section Scanner
variable (reprFloat : Str → FloatText)

mutual

/-- `scan_once`, with enough fuel. -/
def scanValue : ℕ → Str → Option (Json × Str)
  | 0, _ => none
  | fuel + 1, s =>
    if startsWith '"' s then (scanString .text s.tail).map fun r => (.str (joinPieces r.1), r.2)
    else if startsWith '[' s then
      if startsWith ']' (skip s.tail) then some (.arr [], (skip s.tail).tail)
      else (scanItems fuel (skip s.tail)).map fun r => (.arr r.1, r.2)
    else if startsWith '\x7b' s then
      if startsWith '\x7d' (skip s.tail) then some (.obj [], (skip s.tail).tail)
      else (scanMembers fuel [] (skip s.tail)).map fun r => (.obj r.1, r.2)
    else
      match scanConstant s with
      | some r => some r
      | none => (scanNumber s).bind fun n => (n.1.value reprFloat).map fun x => (x, n.2)
termination_by structural fuel => fuel

/-- The items of a list, up to and with its closing bracket. -/
def scanItems : ℕ → Str → Option (List Json × Str)
  | 0, _ => none
  | fuel + 1, s =>
    (scanValue fuel s).bind fun x =>
      if startsWith ']' (skip x.2) then some ([x.1], (skip x.2).tail)
      else (expect ',' (skip x.2)).bind fun s =>
        (scanItems fuel (skip s)).map fun xs => (x.1 :: xs.1, xs.2)
termination_by structural fuel => fuel

/-- The entries of an object, added to the ones before them. -/
def scanMembers : ℕ → Dict → Str → Option (Dict × Str)
  | 0, _, _ => none
  | fuel + 1, d, s =>
    (expect '"' s).bind fun s =>
    (scanString .text s).bind fun key =>
    (expect ':' (skip key.2)).bind fun s =>
    (scanValue fuel (skip s)).bind fun x =>
      if startsWith '\x7d' (skip x.2) then some (d.set (joinPieces key.1) x.1, (skip x.2).tail)
      else (expect ',' (skip x.2)).bind fun s =>
        scanMembers fuel (d.set (joinPieces key.1) x.1) (skip s)
termination_by structural fuel => fuel

end

/-- Enough for a text: a value is looked at once on its own and once as an item. -/
def scanFuel (s : Str) : ℕ := 2 * s.length + 1

def Json.loads (s : Str) : Except PyErr Json :=
  -- a byte order mark
  if startsWith (Char.ofNat 0xFEFF) s then .error .valueError
  else
    match scanValue reprFloat (scanFuel (skip s)) (skip s) with
    | some (x, rest) => if (skip rest).isEmpty then .ok x else .error .valueError
    | none => .error .valueError

end Scanner

end LineageVault
