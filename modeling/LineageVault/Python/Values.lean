import LineageVault.Python.Json

/-! # Python values

The operations of the source on values that came in as JSON, with the exceptions they raise on values
of another shape, and `datetime`. A `dict` is the list of its entries in the order of insertion.
-/

namespace LineageVault
set_option autoImplicit false

abbrev Dict := List (Str × Json)

/-- `d.get(key, default)` -/
def Dict.get (d : Dict) (key : Str) (default : Json) : Json := (d.lookup key).getD default

/-- `d[key] = value` -/
def Dict.set (d : Dict) (key : Str) (value : Json) : Dict :=
  if d.any fun entry => entry.1 = key then
    d.map fun entry => if entry.1 = key then (key, value) else entry
  else d ++ [(key, value)]

namespace Json

def truthy : Json → Bool
  | .null => false
  | .bool b => b
  | .int i => i != 0
  | .float f => f.text != lit "0.0" && f.text != lit "-0.0"
  | .str s => !s.isEmpty
  | .arr xs => !xs.isEmpty
  | .obj fields => !fields.isEmpty

/-- `x or {}` -/
def orEmpty (x : Json) : Json := if x.truthy then x else .obj []

/-- `x.get(key, default)` -/
def get (x : Json) (key : Str) (default : Json) : Except PyErr Json :=
  match x with
  | .obj fields => .ok (Dict.get fields key default)
  | _ => .error .attributeError

/-- `x.items()` -/
def items : Json → Except PyErr Dict
  | .obj fields => .ok fields
  | _ => .error .attributeError

/-- `for y in x` -/
def iter : Json → Except PyErr (List Json)
  | .arr xs => .ok xs
  | .obj fields => .ok (fields.map fun kv => .str kv.1)
  | .str s => .ok (s.map fun c => .str [c])
  | _ => .error .typeError

/-- `x[0]` -/
def first : Json → Except PyErr Json
  | .arr (x :: _) => .ok x
  | .str (c :: _) => .ok (.str [c])
  | .arr [] => .error .indexError
  | .str [] => .error .indexError
  | .obj _ => .error .keyError
  | _ => .error .typeError

/-- A value for a `str` field of a pydantic model, which refuses lone surrogates; here they are taken. -/
def asStr : Json → Except PyErr Str
  | .str s => .ok s
  | _ => .error .validationError

end Json

/-! ## Computations that return -/

section Elements
variable {α β ε : Type} {f : α → Except ε β}

theorem bind_eq_ok {x : Except ε α} {y : β} : (x >>= f) = .ok y ↔ ∃ a, x = .ok a ∧ f a = .ok y := by
  cases x with
  | error e => exact iff_of_false (fun h => by cases h) (fun ⟨_, h, _⟩ => by cases h)
  | ok a =>
    constructor
    · exact fun h => ⟨a, rfl, h⟩
    · rintro ⟨b, hb, h⟩
      cases hb
      exact h

theorem mapM_eq_ok {xs : List α} {ys : List β} :
    xs.mapM f = .ok ys ↔ List.Forall₂ (fun x y => f x = .ok y) xs ys := by
  induction xs generalizing ys with
  | nil =>
    rw [List.forall₂_nil_left_iff]
    exact ⟨fun h => by cases h; rfl, fun h => by rw [h]; rfl⟩
  | cons x xs ih =>
    rw [List.forall₂_cons_left_iff, List.mapM_cons]
    constructor
    · intro h
      cases hx : f x with
      | error e => rw [hx] at h; cases h
      | ok y =>
        cases hxs : xs.mapM f with
        | error e => rw [hx, hxs] at h; cases h
        | ok zs =>
          rw [hx, hxs] at h
          cases h
          exact ⟨y, zs, rfl, ih.1 hxs, rfl⟩
    · rintro ⟨y, zs, hy, hzs, rfl⟩
      rw [hy, ih.2 hzs]
      rfl

theorem mem_of_mapM {xs : List α} {ys : List β} (h : xs.mapM f = .ok ys) {y : β} (hy : y ∈ ys) :
    ∃ x ∈ xs, f x = .ok y := by
  have hf := mapM_eq_ok.1 h
  clear h
  induction hf with
  | nil => cases hy
  | cons hxy _ ih =>
    rcases List.mem_cons.1 hy with rfl | hy
    · exact ⟨_, List.mem_cons_self, hxy⟩
    · obtain ⟨x, hx, hfx⟩ := ih hy
      exact ⟨x, List.mem_cons_of_mem _ hx, hfx⟩

theorem mapM_of_mem {xs : List α} {ys : List β} (h : xs.mapM f = .ok ys) {x : α} (hx : x ∈ xs) :
    ∃ y ∈ ys, f x = .ok y := by
  have hf := mapM_eq_ok.1 h
  clear h
  induction hf with
  | nil => cases hx
  | cons hxy _ ih =>
    rcases List.mem_cons.1 hx with rfl | hx
    · exact ⟨_, List.mem_cons_self, hxy⟩
    · obtain ⟨y, hy, hfy⟩ := ih hx
      exact ⟨y, List.mem_cons_of_mem _ hy, hfy⟩

theorem mem_mapM {xs : List α} {ys : List β} (h : xs.mapM f = .ok ys) {y : β} :
    y ∈ ys ↔ ∃ x ∈ xs, f x = .ok y := by
  constructor
  · exact mem_of_mapM h
  · rintro ⟨x, hx, hy⟩
    obtain ⟨y', hy', hfx⟩ := mapM_of_mem h hx
    rw [hy] at hfx
    cases hfx
    exact hy'

theorem mapM_total {xs : List α} (h : ∀ x ∈ xs, ∃ y, f x = .ok y) : ∃ ys, xs.mapM f = .ok ys := by
  induction xs with
  | nil => exact ⟨[], rfl⟩
  | cons x xs ih =>
    obtain ⟨y, hy⟩ := h x List.mem_cons_self
    obtain ⟨ys, hys⟩ := ih fun z hz => h z (List.mem_cons_of_mem _ hz)
    exact ⟨y :: ys, by rw [List.mapM_cons, hy, hys]; rfl⟩

end Elements

/-! ## Time -/

/-- A `datetime`; the offset from UTC is in seconds, a naive one has none. -/
structure DateTime where
  year : ℕ
  month : ℕ
  day : ℕ
  hour : ℕ
  minute : ℕ
  second : ℕ
  microsecond : ℕ
  offset : Option ℤ
  deriving DecidableEq

/-- `n` in at least `w` digits. -/
def padded (w n : ℕ) : Str := List.replicate (w - (natText n).length) (.scalar '0') ++ natText n

namespace DateTime

/-- The part both texts begin with. -/
def civilText (t : DateTime) : Str :=
  padded 4 t.year ++ lit "-" ++ padded 2 t.month ++ lit "-" ++ padded 2 t.day ++ lit "T" ++
    padded 2 t.hour ++ lit ":" ++ padded 2 t.minute ++ lit ":" ++ padded 2 t.second ++
    if t.microsecond = 0 then [] else lit "." ++ padded 6 t.microsecond

def offsetText (seconds : ℤ) : Str :=
  lit (if seconds < 0 then "-" else "+") ++ padded 2 (seconds.natAbs / 3600) ++ lit ":" ++
    padded 2 (seconds.natAbs / 60 % 60)

/-- `isoformat()` -/
def isoformat (t : DateTime) : Str :=
  t.civilText ++
    match t.offset with
    | none => []
    | some seconds =>
      offsetText seconds ++
        if seconds.natAbs % 60 = 0 then [] else lit ":" ++ padded 2 (seconds.natAbs % 60)

/-- The text pydantic puts into JSON. -/
def jsonText (t : DateTime) : Str :=
  t.civilText ++
    match t.offset with
    | none => []
    | some seconds => if seconds = 0 then lit "Z" else offsetText seconds

/-- `replace(tzinfo=UTC)` if naive -/
def assumeUtc (t : DateTime) : DateTime := { t with offset := some (t.offset.getD 0) }

end DateTime

/-! ## Texts that can be encoded -/

theorem padded_encodable (w n : ℕ) : (padded w n).encodable = true := by
  rw [padded, Str.encodable_append, natText_encodable, Bool.and_true]
  exact List.all_eq_true.2 fun c hc => List.eq_of_mem_replicate hc ▸ rfl

theorem civilText_encodable (t : DateTime) : t.civilText.encodable = true := by
  simp only [DateTime.civilText, Str.encodable_append, padded_encodable, Str.encodable_lit, Bool.and_self,
    Bool.true_and]
  split
  · rfl
  · simp only [Str.encodable_append, padded_encodable, Str.encodable_lit, Bool.and_self]

theorem offsetText_encodable (seconds : ℤ) : (DateTime.offsetText seconds).encodable = true := by
  simp only [DateTime.offsetText, Str.encodable_append, padded_encodable, Str.encodable_lit, Bool.and_self]

theorem isoformat_encodable (t : DateTime) : t.isoformat.encodable = true := by
  rw [DateTime.isoformat, Str.encodable_append, civilText_encodable, Bool.true_and]
  split
  · rfl
  · rw [Str.encodable_append, offsetText_encodable, Bool.true_and]
    split
    · rfl
    · simp only [Str.encodable_append, padded_encodable, Str.encodable_lit, Bool.and_self]

example : DateTime.isoformat ⟨2026, 1, 2, 3, 4, 5, 60, some (-19800)⟩ =
    lit "2026-01-02T03:04:05.000060-05:30" := by decide

end LineageVault
