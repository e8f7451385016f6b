import LineageVault.Python.JsonTokens

/-! # `json.loads` after `json.dumps`

`loads_dumps`: a value is read back as it was exactly if its dictionaries have no key twice and it is
`Readable`. What `loads` makes of a text that can be encoded always is.
-/

namespace LineageVault
set_option autoImplicit false

section Readable
variable (reprFloat : Str → FloatText)

/-- What `float` reads the text as is written with this text. -/
def FloatText.Readable (f : FloatText) : Prop :=
  f ∈ [FloatText.nan, .infinity, .minusInfinity] ∨
    ∃ n, scanNumber f.text = some (n, []) ∧ n.value reprFloat = some (.float f)

mutual

/-- Strings without a pair of surrogates, integers that `int` reads, floats as `repr` writes them. -/
def Json.Readable : Json → Prop
  | .int i => (natText i.natAbs).length ≤ 4300
  | .float f => f.Readable reprFloat
  | .str s => Unpaired s
  | .arr xs => readableItems xs
  | .obj kvs => readableFields kvs
  | _ => True
termination_by structural x => x

def Json.readableItems : List Json → Prop
  | [] => True
  | x :: xs => x.Readable ∧ readableItems xs
termination_by structural x => x

def Json.readableFields : List (Str × Json) → Prop
  | [] => True
  | kv :: kvs => readableField kv ∧ readableFields kvs
termination_by structural x => x

def Json.readableField : Str × Json → Prop
  | (k, v) => Unpaired k ∧ v.Readable
termination_by structural x => x

end

end Readable

/-! ## Where a value begins and ends -/

/-- What no value begins with: a byte order mark, whitespace and marks. -/
def unopened : Str := .scalar (Char.ofNat 0xFEFF) :: lit " \t\n\r,:]\x7d"

def Opens (c : CodePoint) : Prop := c ∉ unopened

instance (c : CodePoint) : Decidable (Opens c) := inferInstanceAs (Decidable (_ ∉ _))

theorem Opens.of_decimal {c : CodePoint} (h : c.isDecimal = true) : Opens c := by
  intro hc
  have hall : ∀ d ∈ unopened, d.isDecimal = false := by decide
  exact Bool.false_ne_true ((hall c hc).symm.trans h)

theorem skip_opens {c : CodePoint} {s : Str} (h : Opens c) : skip (c :: s) = c :: s := by
  have hblank : ¬ c ∈ lit " \t\n\r" := fun hc => by
    have hsub : ∀ d ∈ lit " \t\n\r", d ∈ unopened := by decide
    exact h (hsub c hc)
  rw [skip, List.dropWhile_cons, if_neg (by simpa using hblank)]

theorem Opens.startsWith {c : CodePoint} {s : Str} (h : Opens c) {d : Char} (hd : .scalar d ∈ unopened) :
    startsWith d (c :: s) = false := by
  have hne : c ≠ .scalar d := by
    rintro rfl
    exact h hd
  simpa [LineageVault.startsWith] using hne

/-- A text that a value may begin. -/
def OpensText (s : Str) : Prop := ∃ c t, s = c :: t ∧ Opens c

theorem OpensText.append {s : Str} (h : OpensText s) (t : Str) : OpensText (s ++ t) := by
  obtain ⟨c, u, rfl, hc⟩ := h
  exact ⟨c, u ++ t, rfl, hc⟩

theorem OpensText.skip {s : Str} (h : OpensText s) : skip s = s := by
  obtain ⟨c, t, rfl, hc⟩ := h
  exact skip_opens hc

theorem OpensText.startsWith {s : Str} (h : OpensText s) {d : Char} (hd : .scalar d ∈ unopened) :
    startsWith d s = false := by
  obtain ⟨c, t, rfl, hc⟩ := h
  exact hc.startsWith hd

theorem opensText_number {s : Str} {r : NumberText × Str} (h : scanNumber s = some r) : OpensText s := by
  obtain ⟨c, t, rfl, hc⟩ := scanNumber_head h
  refine ⟨c, t, rfl, ?_⟩
  rcases hc with hc | ⟨rfl, -⟩
  · exact .of_decimal hc
  · exact (by decide : Opens (.scalar '-'))

variable {reprFloat : Str → FloatText}

theorem dumps_opens {j : Json} (h : j.Readable reprFloat) : OpensText (j.dumps false) := by
  have hmark : ∀ c t, Opens c → OpensText (c :: t) := fun c t hc => ⟨c, t, rfl, hc⟩
  cases j with
  | null => exact hmark _ _ (by decide)
  | bool b => cases b <;> exact hmark _ _ (by decide)
  | int i => exact opensText_number (scanNumber_intText i)
  | float f =>
    rcases h with hconstant | ⟨n, hn, -⟩
    · simp only [List.mem_cons, List.not_mem_nil, or_false] at hconstant
      rcases hconstant with rfl | rfl | rfl <;> exact hmark _ _ (by decide)
    · exact opensText_number hn
  | str s => exact hmark _ _ (by decide)
  | arr xs => exact hmark _ _ (by decide)
  | obj kvs => exact hmark _ _ (by decide)

/-- A mark that ends a number. -/
theorem ends_cons {c : CodePoint} (hc : c ∈ lit ",]\x7d") (s : Str) : Ends (c :: s) := by
  have hall : ∀ d ∈ lit ",]\x7d", d.isDecimal = false ∧ d ∉ lit ".eE+-" := by decide
  intro d hd
  cases hd
  exact hall c hc

theorem expect_cons (c : Char) (s : Str) : expect c (.scalar c :: s) = some s := by
  simp [expect, startsWith]

theorem startsWith_cons (c : Char) (s : Str) : startsWith c (.scalar c :: s) = true := by
  simp [startsWith]

theorem startsWith_ne {c d : Char} (h : d ≠ c) (s : Str) : startsWith c (.scalar d :: s) = false := by
  simpa [startsWith] using h

theorem skip_mark {c : CodePoint} (hc : c ∈ lit ",:]\x7d") (s : Str) : skip (c :: s) = c :: s := by
  have hall : ∀ d ∈ lit ",:]\x7d", ¬ decide (d ∈ lit " \t\n\r") = true := by decide
  rw [skip, List.dropWhile_cons, if_neg (hall c hc)]

/-! ## Texts of lists and objects -/

def itemsText (xs : List Json) : Str := (lit ", ").intercalate (Json.dumpsItems false xs)

def fieldsText (kvs : List (Str × Json)) : Str :=
  (lit ", ").intercalate ((Json.dumpsFields false kvs).map Prod.snd)

theorem intercalate_cons {t : Str} {ts : List Str} (h : ts ≠ []) :
    (lit ", ").intercalate (t :: ts) = t ++ (.scalar ',' :: .scalar ' ' :: (lit ", ").intercalate ts) := by
  cases ts with
  | nil => exact absurd rfl h
  | cons u ts =>
    rw [List.intercalate_cons_cons, List.append_assoc]
    rfl

theorem itemsText_singleton (x : Json) : itemsText [x] = x.dumps false := by
  simp [itemsText, Json.dumpsItems, List.intercalate]

theorem itemsText_cons (x : Json) {xs : List Json} (h : xs ≠ []) :
    itemsText (x :: xs) = x.dumps false ++ (.scalar ',' :: .scalar ' ' :: itemsText xs) := by
  refine intercalate_cons ?_
  cases xs with
  | nil => exact absurd rfl h
  | cons y xs => simp [Json.dumpsItems]

def fieldText (k : Str) (v : Json) : Str := quote k ++ lit ": " ++ v.dumps false

theorem fieldsText_singleton (k : Str) (v : Json) : fieldsText [(k, v)] = fieldText k v := by
  simp [fieldsText, Json.dumpsFields, Json.dumpsField, fieldText, List.intercalate]

theorem fieldsText_cons (k : Str) (v : Json) {kvs : List (Str × Json)} (h : kvs ≠ []) :
    fieldsText ((k, v) :: kvs) = fieldText k v ++ (.scalar ',' :: .scalar ' ' :: fieldsText kvs) := by
  refine intercalate_cons (t := fieldText k v) ?_
  cases kvs with
  | nil => exact absurd rfl h
  | cons kv kvs => simp [Json.dumpsFields]

theorem dumps_arr (xs : List Json) :
    (Json.arr xs).dumps false = .scalar '[' :: (itemsText xs ++ [.scalar ']']) := rfl

theorem dumps_obj (kvs : List (Str × Json)) :
    (Json.obj kvs).dumps false = .scalar '\x7b' :: (fieldsText kvs ++ [.scalar '\x7d']) := rfl

theorem itemsText_opens {xs : List Json} (hne : xs ≠ []) (h : Json.readableItems reprFloat xs) :
    OpensText (itemsText xs) := by
  cases xs with
  | nil => exact absurd rfl hne
  | cons x xs =>
    rw [Json.readableItems] at h
    by_cases hxs : xs = []
    · rw [hxs, itemsText_singleton]
      exact dumps_opens h.1
    · rw [itemsText_cons x hxs]
      exact (dumps_opens h.1).append _

theorem fieldsText_opens {kvs : List (Str × Json)} (hne : kvs ≠ []) : OpensText (fieldsText kvs) := by
  have hquote : ∀ k v, OpensText (fieldText k v) := fun k v => ⟨.scalar '"', _, rfl, by decide⟩
  cases kvs with
  | nil => exact absurd rfl hne
  | cons kv kvs =>
    obtain ⟨k, v⟩ := kv
    by_cases hkvs : kvs = []
    · rw [hkvs, fieldsText_singleton]
      exact hquote k v
    · rw [fieldsText_cons k v hkvs]
      exact (hquote k v).append _

/-! ## Values -/

/-- A value that is a number, or a constant. -/
theorem scanValue_scalar {fuel : ℕ} {s : Str} (hs : s.head? ≠ some (.scalar '"') ∧
    s.head? ≠ some (.scalar '[') ∧ s.head? ≠ some (.scalar '\x7b')) :
    scanValue reprFloat (fuel + 1) s =
      match scanConstant s with
      | some r => some r
      | none => (scanNumber s).bind fun n => (n.1.value reprFloat).map fun x => (x, n.2) := by
  obtain ⟨hquote, hlist, hobject⟩ := hs
  have hno : ∀ c, s.head? ≠ some (.scalar c) → startsWith c s = false := fun c hc => by
    simpa [startsWith] using hc
  rw [scanValue, hno _ hquote, hno _ hlist, hno _ hobject]
  rfl

theorem scanValue_number {fuel : ℕ} {s rest : Str} (hrest : Ends rest) {n : NumberText} {x : Json}
    (hn : scanNumber s = some (n, [])) (hx : n.value reprFloat = some x) :
    scanValue reprFloat (fuel + 1) (s ++ rest) = some (x, rest) := by
  have hscan : scanNumber (s ++ rest) = some (n, rest) := by
    rw [scanNumber_append hrest, hn]
    rfl
  have hhead : ∀ c, CodePoint.isDecimal (.scalar c) = false → c ≠ '-' →
      (s ++ rest).head? ≠ some (.scalar c) := by
    intro c hdecimal hsign heq
    obtain ⟨d, t, hd, hdt⟩ := scanNumber_head hscan
    rw [hd] at heq
    cases heq
    rcases hdt with h | ⟨h, -⟩
    · exact Bool.false_ne_true (hdecimal.symm.trans h)
    · exact hsign (CodePoint.scalar.inj h)
  rw [scanValue_scalar ⟨hhead _ rfl (by decide), hhead _ rfl (by decide), hhead _ rfl (by decide)⟩,
    scanConstant_number hscan, hscan]
  simp only [Option.bind_some, hx, Option.map_some]

theorem scanValue_constant {fuel : ℕ} (entry : Str × Json) (h : entry ∈ jsonConstants) (rest : Str) :
    scanValue reprFloat (fuel + 1) (entry.1 ++ rest) = some (entry.2, rest) := by
  simp only [jsonConstants, List.mem_cons, List.not_mem_nil, or_false] at h
  rcases h with rfl | rfl | rfl | rfl | rfl | rfl <;> rfl

theorem skip_space (s : Str) : skip (.scalar ' ' :: s) = skip s := rfl

/-- One item of a list, with whatever comes after it. -/
theorem scanItems_item {fuel : ℕ} {x : Json} {tail : Str}
    (hx : scanValue reprFloat fuel (x.dumps false ++ tail) = some (x, tail)) :
    scanItems reprFloat (fuel + 1) (x.dumps false ++ tail) =
      if startsWith ']' (skip tail) then some ([x], (skip tail).tail)
      else (expect ',' (skip tail)).bind fun s =>
        (scanItems reprFloat fuel (skip s)).map fun xs => (x :: xs.1, xs.2) := by
  rw [scanItems, hx]
  rfl

/-- One entry of an object, with whatever comes after it. -/
theorem scanMembers_entry {fuel : ℕ} {k : Str} {v : Json} {tail : Str} {d : Dict} (hk : Unpaired k)
    (hopens : OpensText (v.dumps false))
    (hv : scanValue reprFloat fuel (v.dumps false ++ tail) = some (v, tail)) :
    scanMembers reprFloat (fuel + 1) d (fieldText k v ++ tail) =
      if startsWith '\x7d' (skip tail) then some (d.set k v, (skip tail).tail)
      else (expect ',' (skip tail)).bind fun s => scanMembers reprFloat fuel (d.set k v) (skip s) := by
  obtain ⟨ps, hjoin, hread⟩ := scanString_quoted k (.scalar ':' :: .scalar ' ' :: (v.dumps false ++ tail))
  have htext : fieldText k v ++ tail = .scalar '"' ::
      (k.flatMap escape ++ lit "\"" ++ .scalar ':' :: .scalar ' ' :: (v.dumps false ++ tail)) := by
    simp only [fieldText, quote, List.append_assoc]
    rfl
  rw [htext, scanMembers, expect_cons, Option.bind_some, hread, Option.bind_some, skip_mark (by decide),
    expect_cons, Option.bind_some, skip_space, (hopens.append tail).skip, hv, Option.bind_some, hjoin hk]

theorem set_fresh {d : Dict} {k : Str} {v : Json} (h : k ∉ d.map Prod.fst) : d.set k v = d ++ [(k, v)] := by
  refine if_neg fun hany => h ?_
  obtain ⟨entry, hentry, hkey⟩ := List.any_eq_true.1 hany
  exact List.mem_map.2 ⟨entry, hentry, of_decide_eq_true hkey⟩

mutual

/-- **A value is read back.** One case per constructor; the text may go on in any way that does not go on
a number. -/
theorem scanValue_dumps : ∀ {j : Json}, j.Distinct → j.Readable reprFloat → ∀ {rest : Str}, Ends rest →
    ∀ (fuel : ℕ), 2 * (j.dumps false).length < fuel →
      scanValue reprFloat fuel (j.dumps false ++ rest) = some (j, rest)
  | .null, _, _, rest, _, fuel + 1, _ =>
    scanValue_constant (lit "null", .null) (by simp [jsonConstants]) rest
  | .bool true, _, _, rest, _, fuel + 1, _ =>
    scanValue_constant (lit "true", .bool true) (by simp [jsonConstants]) rest
  | .bool false, _, _, rest, _, fuel + 1, _ =>
    scanValue_constant (lit "false", .bool false) (by simp [jsonConstants]) rest
  | .int i, _, hi, rest, hrest, fuel + 1, _ =>
    scanValue_number hrest (scanNumber_intText i) (value_intText reprFloat hi)
  | .float f, _, hf, rest, hrest, fuel + 1, _ => by
    rcases hf with hconstant | ⟨n, hn, hvalue⟩
    · simp only [List.mem_cons, List.not_mem_nil, or_false] at hconstant
      rcases hconstant with rfl | rfl | rfl
      · exact scanValue_constant (lit "NaN", .float .nan) (by simp [jsonConstants]) rest
      · exact scanValue_constant (lit "Infinity", .float .infinity) (by simp [jsonConstants]) rest
      · exact scanValue_constant (lit "-Infinity", .float .minusInfinity)
          (by simp [jsonConstants]) rest
    · exact scanValue_number hrest hn hvalue
  | .str s, _, hs, rest, _, fuel + 1, _ => by
    obtain ⟨ps, hjoin, hread⟩ := scanString_quoted s rest
    have htext : (Json.str s).dumps false ++ rest =
        .scalar '"' :: (s.flatMap escape ++ lit "\"" ++ rest) := rfl
    rw [htext, scanValue, startsWith_cons, if_pos rfl, List.tail_cons, hread]
    exact congrArg (fun t => some (Json.str t, rest)) (hjoin hs)
  | .arr xs, hd, hr, rest, _, fuel + 1, hfuel => by
    have htext : (Json.arr xs).dumps false ++ rest =
        .scalar '[' :: (itemsText xs ++ .scalar ']' :: rest) := by
      rw [dumps_arr, List.cons_append, List.append_assoc]
      rfl
    have hlength : 2 * (itemsText xs).length + 1 < fuel := by
      rw [dumps_arr, List.length_cons, List.length_append, List.length_singleton] at hfuel
      omega
    rw [htext, scanValue, startsWith_ne (by decide), if_neg (by decide), startsWith_cons, if_pos rfl,
      List.tail_cons]
    by_cases hxs : xs = []
    · rw [hxs]
      rfl
    · have hopens := (itemsText_opens hxs hr).append (.scalar ']' :: rest)
      rw [hopens.skip, hopens.startsWith (by decide), scanItems_dumps xs hxs hd hr rest fuel hlength]
      rfl
  | .obj kvs, hd, hr, rest, _, fuel + 1, hfuel => by
    have htext : (Json.obj kvs).dumps false ++ rest =
        .scalar '\x7b' :: (fieldsText kvs ++ .scalar '\x7d' :: rest) := by
      rw [dumps_obj, List.cons_append, List.append_assoc]
      rfl
    have hlength : 2 * (fieldsText kvs).length < fuel := by
      rw [dumps_obj, List.length_cons, List.length_append, List.length_singleton] at hfuel
      omega
    rw [htext, scanValue, startsWith_ne (by decide), if_neg (by decide), startsWith_ne (by decide),
      if_neg (by decide), startsWith_cons, if_pos rfl, List.tail_cons]
    by_cases hkvs : kvs = []
    · rw [hkvs]
      rfl
    · have hopens := (fieldsText_opens hkvs).append (.scalar '\x7d' :: rest)
      rw [hopens.skip, hopens.startsWith (by decide),
        scanMembers_dumps kvs hkvs hd.2 hr [] (by simpa using hd.1) rest fuel hlength]
      rfl

theorem scanItems_dumps : ∀ (xs : List Json), xs ≠ [] → Json.distinctItems xs →
    Json.readableItems reprFloat xs → ∀ (rest : Str) (fuel : ℕ), 2 * (itemsText xs).length + 1 < fuel →
      scanItems reprFloat fuel (itemsText xs ++ .scalar ']' :: rest) = some (xs, rest)
  | [], hne, _, _, _, _, _ => absurd rfl hne
  | x :: xs, _, hd, hr, rest, fuel + 1, hfuel => by
    have hlast := scanItems_dumps xs
    by_cases hxs : xs = []
    · subst hxs
      rw [itemsText_singleton] at hfuel ⊢
      have hx := scanValue_dumps hd.1 hr.1 (ends_cons (c := .scalar ']') (by decide) rest) fuel (by omega)
      rw [scanItems_item hx, skip_mark (by decide), startsWith_cons]
      rfl
    · rw [itemsText_cons x hxs] at hfuel ⊢
      simp only [List.length_append, List.length_cons] at hfuel
      rw [List.append_assoc, List.cons_append, List.cons_append]
      have hx := scanValue_dumps hd.1 hr.1 (ends_cons (c := .scalar ',') (by decide)
        (.scalar ' ' :: (itemsText xs ++ .scalar ']' :: rest))) fuel (by omega)
      have hopens := (itemsText_opens hxs hr.2).append (.scalar ']' :: rest)
      rw [scanItems_item hx, skip_mark (by decide), startsWith_ne (by decide), expect_cons, Option.bind_some,
        skip_space, hopens.skip, hlast hxs hd.2 hr.2 rest fuel (by omega)]
      rfl

theorem scanMembers_dumps : ∀ (kvs : List (Str × Json)), kvs ≠ [] → Json.distinctFields kvs →
    Json.readableFields reprFloat kvs → ∀ (d : Dict), ((d ++ kvs).map Prod.fst).Nodup →
      ∀ (rest : Str) (fuel : ℕ), 2 * (fieldsText kvs).length < fuel →
        scanMembers reprFloat fuel d (fieldsText kvs ++ .scalar '\x7d' :: rest) = some (d ++ kvs, rest)
  | [], hne, _, _, _, _, _, _, _ => absurd rfl hne
  | (k, v) :: kvs, _, hd, hr, d, hkeys, rest, fuel + 1, hfuel => by
    have hlast := scanMembers_dumps kvs
    obtain ⟨hk, hv⟩ : Unpaired k ∧ v.Readable reprFloat := hr.1
    have hvd : v.Distinct := hd.1
    have hset : d.set k v = d ++ [(k, v)] := by
      refine set_fresh fun hmem => ?_
      rw [List.map_append, List.map_cons, List.nodup_append] at hkeys
      exact hkeys.2.2 k hmem k List.mem_cons_self rfl
    have hfield : 2 * (v.dumps false).length + 2 ≤ 2 * (fieldText k v).length := by
      have hsep : (lit ": ").length = 2 := rfl
      simp only [fieldText, List.length_append, hsep]
      omega
    by_cases hkvs : kvs = []
    · subst hkvs
      rw [fieldsText_singleton] at hfuel ⊢
      have hx := scanValue_dumps hvd hv (ends_cons (c := .scalar '\x7d') (by decide) rest) fuel (by omega)
      rw [scanMembers_entry hk (dumps_opens hv) hx, skip_mark (by decide), startsWith_cons, hset]
      rfl
    · rw [fieldsText_cons k v hkvs] at hfuel ⊢
      simp only [List.length_append, List.length_cons] at hfuel
      rw [List.append_assoc, List.cons_append, List.cons_append]
      have hx := scanValue_dumps hvd hv (ends_cons (c := .scalar ',') (by decide)
        (.scalar ' ' :: (fieldsText kvs ++ .scalar '\x7d' :: rest))) fuel (by omega)
      have hopens := (fieldsText_opens hkvs).append (.scalar '\x7d' :: rest)
      rw [scanMembers_entry hk (dumps_opens hv) hx, skip_mark (by decide), startsWith_ne (by decide), expect_cons,
        Option.bind_some, skip_space, hopens.skip, hset,
        hlast hkvs hd.2 hr.2 (d ++ [(k, v)]) (by rwa [List.append_assoc]) rest fuel (by omega),
        List.append_assoc]
      rfl

end

end LineageVault
