import LineageVault.Python.Text

/-! # `int(text)`

For texts whose code points are below 256, such as a header value: the decimal digits among these are
the ASCII ones.
-/

namespace LineageVault
set_option autoImplicit false

/-- `str.isspace` below 256 -/
def CodePoint.isSpace (c : CodePoint) : Bool :=
  (9 ≤ c.val && c.val ≤ 13) || (28 ≤ c.val && c.val ≤ 32) || c.val = 0x85 || c.val = 0xA0

def CodePoint.digit : CodePoint → Option ℕ
  | .scalar c => if c.isDigit then some (c.toNat - 48) else none
  | .surrogate _ => none

/-- `strip()` -/
def Str.strip (s : Str) : Str :=
  ((s.dropWhile CodePoint.isSpace).reverse.dropWhile CodePoint.isSpace).reverse

/-- Digits with single underscores between them; `afterDigit`: an underscore or the end may follow. -/
def intDigits : ℕ → Bool → Str → Option ℕ
  | n, afterDigit, [] => if afterDigit then some n else none
  | n, afterDigit, c :: s =>
    match c.digit with
    | some d => intDigits (10 * n + d) true s
    | none => if afterDigit && c = .scalar '_' then intDigits n false s else none

def unsignedInt (s : Str) : Except PyErr ℕ :=
  -- `sys.get_int_max_str_digits()`
  if 4300 < (s.filter fun c => c.digit.isSome).length then .error .valueError
  else
    match intDigits 0 false s with
    | some n => .ok n
    | none => .error .valueError

def intOf (text : Str) : Except PyErr ℤ :=
  match text.strip with
  | .scalar '-' :: s => (unsignedInt s).map fun n => -(n : ℤ)
  | .scalar '+' :: s => (unsignedInt s).map Int.ofNat
  | s => (unsignedInt s).map Int.ofNat

example : (intOf (lit " +1_048 "), intOf (lit "-7"), intOf (lit "1__0"), intOf (lit "")) =
    (.ok 1048, .ok (-7), .error .valueError, .error .valueError) := by rfl

end LineageVault
