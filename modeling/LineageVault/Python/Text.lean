import Mathlib.Data.List.Sort

/-! # Python text

A Python `str` is a sequence of code points. Unlike a Lean `String` it may hold surrogates, which
UTF-8 cannot encode: `.encode()`, and binding a `str` as a parameter of an SQL statement, raise on
them. Databases hold encodable text only.
-/

namespace LineageVault
set_option autoImplicit false

inductive CodePoint where
  | scalar (c : Char)
  | surrogate (s : Fin 0x800)
  deriving DecidableEq, Repr

namespace CodePoint

/-- The number of the code point. -/
def val : CodePoint → ℕ
  | .scalar c => c.toNat
  | .surrogate s => 0xD800 + s.val

def isScalar : CodePoint → Bool
  | .scalar _ => true
  | .surrogate _ => false

end CodePoint

abbrev Str := List CodePoint

/-- A literal of the source. -/
def lit (s : String) : Str := s.toList.map .scalar

/-- The exceptions the modelled calls raise. Not modelled: `sqlite3.ProgrammingError` and the
`RecursionError` of the json module. -/
inductive PyErr where
  | unicodeEncodeError
  | typeError
  | valueError
  | keyError
  | attributeError
  | indexError
  | overflowError
  | validationError
  | integrityError
  | operationalError
  | interfaceError
  deriving DecidableEq, Repr

namespace Str

def encodable (s : Str) : Bool := s.all CodePoint.isScalar

/-- `s.encode()`; the octets are not modelled, only whether there are any. -/
def encode (s : Str) : Except PyErr Str :=
  if s.encodable then .ok s else .error .unicodeEncodeError

/-- The order of `str` in Python: by code points, a prefix first. -/
def le : Str → Str → Bool
  | [], _ => true
  | _ :: _, [] => false
  | a :: s, b :: t => a.val < b.val || (a.val == b.val && le s t)

theorem encode_of_encodable {s : Str} (h : s.encodable = true) : s.encode = .ok s := by
  simp only [encode, h, if_true]

theorem encode_eq_ok {s t : Str} : s.encode = .ok t ↔ s.encodable = true ∧ t = s := by
  unfold encode
  split
  · next h => exact ⟨fun he => by cases he; exact ⟨h, rfl⟩, fun he => by rw [he.2]⟩
  · next h => exact ⟨(fun he => by cases he), fun he => (h he.1).elim⟩

@[simp] theorem encodable_append (s t : Str) :
    encodable (s ++ t) = (s.encodable && t.encodable) := by
  simp only [encodable, List.all_append]

@[simp] theorem encodable_lit (s : String) : (lit s).encodable = true := by
  simp [encodable, lit, CodePoint.isScalar]

end Str

/-! ## Sorting -/

theorem CodePoint.val_inj {c d : CodePoint} (h : c.val = d.val) : c = d := by
  have hvalid : ∀ a : Char, a.toNat < 0xD800 ∨ 0xDFFF < a.toNat := fun a => by
    rcases a.valid with h | h
    · exact .inl h
    · exact .inr h.1
  cases c with
  | scalar a =>
    cases d with
    | scalar b => rw [Char.toNat_inj.1 h]
    | surrogate t =>
      have := hvalid a
      simp only [CodePoint.val] at h
      omega
  | surrogate s =>
    cases d with
    | scalar b =>
      have := hvalid b
      simp only [CodePoint.val] at h
      omega
    | surrogate t => rw [Fin.ext (Nat.add_left_cancel h)]

namespace Str

theorem le_total (s t : Str) : s.le t = true ∨ t.le s = true := by
  induction s generalizing t with
  | nil => exact .inl rfl
  | cons a s ih =>
    cases t with
    | nil => exact .inr rfl
    | cons b t =>
      simp only [le, Bool.or_eq_true, decide_eq_true_eq, Bool.and_eq_true, beq_iff_eq]
      rcases Nat.lt_trichotomy a.val b.val with h | h | h
      · exact .inl (.inl h)
      · exact (ih t).imp (fun hst => .inr ⟨h, hst⟩) fun hts => .inr ⟨h.symm, hts⟩
      · exact .inr (.inl h)

theorem le_trans {s t u : Str} (hst : s.le t = true) (htu : t.le u = true) : s.le u = true := by
  induction s generalizing t u with
  | nil => rfl
  | cons a s ih =>
    cases t with
    | nil => cases hst
    | cons b t =>
      cases u with
      | nil => cases htu
      | cons c u =>
        simp only [le, Bool.or_eq_true, decide_eq_true_eq, Bool.and_eq_true, beq_iff_eq] at hst htu ⊢
        rcases hst with hab | ⟨hab, hst⟩
        · rcases htu with hbc | ⟨hbc, htu⟩
          · exact .inl (by omega)
          · exact .inl (by omega)
        · rcases htu with hbc | ⟨hbc, htu⟩
          · exact .inl (by omega)
          · exact .inr ⟨by omega, ih hst htu⟩

theorem le_antisymm {s t : Str} (hst : s.le t = true) (hts : t.le s = true) : s = t := by
  induction s generalizing t with
  | nil =>
    cases t with
    | nil => rfl
    | cons b t => cases hts
  | cons a s ih =>
    cases t with
    | nil => cases hst
    | cons b t =>
      simp only [le, Bool.or_eq_true, decide_eq_true_eq, Bool.and_eq_true, beq_iff_eq] at hst hts
      obtain ⟨hab, hst⟩ := hst.resolve_left fun h => by omega
      obtain ⟨-, hts⟩ := hts.resolve_left fun h => by omega
      rw [CodePoint.val_inj hab, ih hst hts]

/-- The order of `sorted`. -/
abbrev Le (s t : Str) : Prop := s.le t = true

instance : Std.Total Le := ⟨le_total⟩

instance : Std.Antisymm Le := ⟨fun _ _ => le_antisymm⟩

instance : IsTrans Str Le := ⟨fun _ _ _ => le_trans⟩

end Str

/-- `sorted(xs)` of texts -/
def sorted (xs : List Str) : List Str := xs.insertionSort Str.Le

/-- The list that `sorted` makes of a set. -/
structure IsSorted (members : Str → Prop) (xs : List Str) : Prop where
  ordered : xs.Pairwise Str.Le
  distinct : xs.Nodup
  mem : ∀ x, x ∈ xs ↔ members x

theorem isSorted_sorted {members : Str → Prop} {xs : List Str} (hd : xs.Nodup)
    (hm : ∀ x, x ∈ xs ↔ members x) : IsSorted members (sorted xs) where
  ordered := List.pairwise_insertionSort Str.Le xs
  distinct := (List.perm_insertionSort Str.Le xs).nodup_iff.2 hd
  mem x := (List.perm_insertionSort Str.Le xs).mem_iff.trans (hm x)

/-- A set has one such list. -/
theorem IsSorted.unique {members : Str → Prop} {xs ys : List Str} (hx : IsSorted members xs)
    (hy : IsSorted members ys) : xs = ys := by
  have hperm : xs.Perm ys :=
    (List.perm_ext_iff_of_nodup hx.distinct hy.distinct).2 fun x => (hx.mem x).trans (hy.mem x).symm
  exact hperm.eq_of_pairwise' hx.ordered hy.ordered

/-- The decimal digits of `str(n)`. -/
def natText (n : ℕ) : Str := (Nat.toDigits 10 n).map .scalar

/-- `str(i)` of an `int`. -/
def intText : ℤ → Str
  | .ofNat n => natText n
  | .negSucc n => lit "-" ++ natText (n + 1)

theorem mem_natText {n : ℕ} {c : CodePoint} (h : c ∈ natText n) :
    ∃ d : Char, c = .scalar d ∧ d.isDigit := by
  obtain ⟨d, hd, rfl⟩ := List.mem_map.1 h
  exact ⟨d, rfl, Nat.isDigit_of_mem_toDigits (by omega) (by omega) hd⟩

end LineageVault
