import LineageVault.Python.JsonAccepts

/-! # `sort_keys`

The text under `sort_keys` is the plain text of the value whose dictionaries are sorted, at every depth.
So this value is what is read back, and it is equal to the one that was written.
-/

namespace LineageVault
set_option autoImplicit false

/-- Entries in the order of their keys. -/
def byKey (kvs : Dict) : Dict := kvs.insertionSort fun a b => Str.le a.1 b.1

mutual

def Json.sorted : Json → Json
  | .arr xs => .arr (sortedItems xs)
  | .obj kvs => .obj (byKey (sortedFields kvs))
  | j => j
termination_by structural x => x

def Json.sortedItems : List Json → List Json
  | [] => []
  | x :: xs => x.sorted :: sortedItems xs
termination_by structural x => x

def Json.sortedFields : List (Str × Json) → List (Str × Json)
  | [] => []
  | kv :: kvs => sortedField kv :: sortedFields kvs
termination_by structural x => x

def Json.sortedField : Str × Json → Str × Json
  | (k, v) => (k, v.sorted)
termination_by structural x => x

end

/-! ## The text -/

theorem dumpsFields_eq_map (sortKeys : Bool) (kvs : List (Str × Json)) :
    Json.dumpsFields sortKeys kvs = kvs.map (Json.dumpsField sortKeys) := by
  induction kvs with
  | nil => rfl
  | cons kv kvs ih => rw [Json.dumpsFields, List.map_cons, ih]

theorem dumpsField_fst (sortKeys : Bool) (kv : Str × Json) : (Json.dumpsField sortKeys kv).1 = kv.1 := by
  obtain ⟨k, v⟩ := kv
  rw [Json.dumpsField]

/-- Sorting the entries is sorting their texts. -/
theorem dumpsFields_byKey (kvs : Dict) :
    Json.dumpsFields false (byKey kvs) = sortFields (Json.dumpsFields false kvs) := by
  rw [dumpsFields_eq_map, dumpsFields_eq_map, byKey, sortFields]
  exact List.map_insertionSort _ _ _ _ fun a _ b _ => by rw [dumpsField_fst, dumpsField_fst]

mutual

/-- One case per constructor. -/
theorem dumps_sorted : ∀ j : Json, j.sorted.dumps false = j.dumps true
  | .null => rfl
  | .bool true => rfl
  | .bool false => rfl
  | .int _ => rfl
  | .float _ => rfl
  | .str _ => rfl
  | .arr xs => by rw [Json.sorted, Json.dumps, Json.dumps, dumpsItems_sorted xs]
  | .obj kvs => by
    simp only [Json.sorted, Json.dumps, dumpsFields_byKey, dumpsFields_sorted kvs, if_true, Bool.false_eq_true,
      if_false]

theorem dumpsItems_sorted : ∀ xs : List Json,
    Json.dumpsItems false (Json.sortedItems xs) = Json.dumpsItems true xs
  | [] => rfl
  | x :: xs => by
    rw [Json.sortedItems, Json.dumpsItems, Json.dumpsItems, dumps_sorted x, dumpsItems_sorted xs]

theorem dumpsFields_sorted : ∀ kvs : List (Str × Json),
    Json.dumpsFields false (Json.sortedFields kvs) = Json.dumpsFields true kvs
  | [] => rfl
  | kv :: kvs => by
    rw [Json.sortedFields, Json.dumpsFields, Json.dumpsFields, dumpsField_sorted kv, dumpsFields_sorted kvs]

theorem dumpsField_sorted : ∀ kv : Str × Json,
    Json.dumpsField false (Json.sortedField kv) = Json.dumpsField true kv
  | (k, v) => by rw [Json.sortedField, Json.dumpsField, Json.dumpsField, dumps_sorted v]

end

/-! ## The value -/

theorem sortedFields_eq_map (kvs : List (Str × Json)) :
    Json.sortedFields kvs = kvs.map fun kv => (kv.1, kv.2.sorted) := by
  induction kvs with
  | nil => rfl
  | cons kv kvs ih =>
    obtain ⟨k, v⟩ := kv
    rw [Json.sortedFields, List.map_cons, ih, Json.sortedField]

theorem mem_sortedDict {kvs : Dict} {kv : Str × Json} :
    kv ∈ byKey (Json.sortedFields kvs) ↔ ∃ v, (kv.1, v) ∈ kvs ∧ kv.2 = v.sorted := by
  rw [byKey, (List.perm_insertionSort _ _).mem_iff, sortedFields_eq_map, List.mem_map]
  constructor
  · rintro ⟨⟨k, v⟩, hmem, rfl⟩
    exact ⟨v, hmem, rfl⟩
  · rintro ⟨v, hmem, hv⟩
    exact ⟨_, hmem, Prod.ext rfl hv.symm⟩

theorem sortedDict_keys (kvs : Dict) :
    ((byKey (Json.sortedFields kvs)).map Prod.fst).Perm (kvs.map Prod.fst) := by
  have hkeys : (Json.sortedFields kvs).map Prod.fst = kvs.map Prod.fst := by
    rw [sortedFields_eq_map, List.map_map]
    rfl
  rw [← hkeys]
  exact (List.perm_insertionSort _ _).map _

/-- The value under a key that is there once. -/
theorem lookup_of_mem {d : Dict} (hd : (d.map Prod.fst).Nodup) {k : Str} {v : Json} (h : (k, v) ∈ d) :
    d.lookup k = some v := by
  cases hl : d.lookup k with
  | none =>
    have hno := List.lookup_eq_none_iff.1 hl (k, v) h
    simp at hno
  | some w =>
    have hmem := mem_of_lookup hl
    have heq : (k, w) = (k, v) := List.inj_on_of_nodup_map hd hmem h rfl
    exact congrArg some (Prod.mk.inj heq).2

theorem sameFields_iff {kvs : List (Str × Json)} {d : Dict} :
    Json.sameFields kvs d ↔ ∀ kv ∈ kvs, ∃ w, d.lookup kv.1 = some w ∧ kv.2.Same w := by
  induction kvs with
  | nil => exact iff_of_true trivial fun _ h => nomatch h
  | cons kv kvs ih =>
    obtain ⟨k, v⟩ := kv
    rw [Json.sameFields, ih, List.forall_mem_cons]
    exact Iff.rfl

section Sorted
variable {reprFloat : Str → FloatText}

/-- What sorting keeps. -/
structure SortedOf (reprFloat : Str → FloatText) (j : Json) : Prop where
  same : j.sorted.Same j
  distinct : j.sorted.Distinct
  readable : j.Readable reprFloat → j.sorted.Readable reprFloat

theorem sortedOf_obj {kvs : Dict} (hkeys : (kvs.map Prod.fst).Nodup)
    (h : ∀ kv ∈ kvs, SortedOf reprFloat kv.2) : SortedOf reprFloat (.obj kvs) where
  same := by
    refine ⟨fun entry hentry => ?_, sameFields_iff.2 fun kv hkv => ?_⟩
    · exact (sortedDict_keys kvs).mem_iff.2 (List.mem_map_of_mem hentry)
    · obtain ⟨v, hv, hsorted⟩ := mem_sortedDict.1 hkv
      exact ⟨v, lookup_of_mem hkeys hv, hsorted ▸ (h _ hv).same⟩
  distinct := by
    refine ⟨(sortedDict_keys kvs).nodup_iff.2 hkeys, distinctFields_iff.2 fun kv hkv => ?_⟩
    obtain ⟨v, hv, hsorted⟩ := mem_sortedDict.1 hkv
    exact hsorted ▸ (h _ hv).distinct
  readable hr := by
    refine readableFields_iff.2 fun kv hkv => ?_
    obtain ⟨v, hv, hsorted⟩ := mem_sortedDict.1 hkv
    obtain ⟨hk, hread⟩ := readableFields_iff.1 hr _ hv
    exact ⟨hk, hsorted ▸ (h _ hv).readable hread⟩

mutual

theorem sortedOf : ∀ {j : Json}, j.Distinct → SortedOf reprFloat j
  | .null, _ => ⟨trivial, trivial, id⟩
  | .bool _, _ => ⟨rfl, trivial, id⟩
  | .int _, _ => ⟨rfl, trivial, id⟩
  | .float _, _ => ⟨rfl, trivial, id⟩
  | .str _, _ => ⟨rfl, trivial, id⟩
  | .arr xs, h => by
    obtain ⟨hsame, hdistinct, hreadable⟩ := sortedOf_items h
    exact ⟨hsame, hdistinct, hreadable⟩
  | .obj kvs, h => sortedOf_obj h.1 (sortedOf_fields h.2)

theorem sortedOf_items : ∀ {xs : List Json}, Json.distinctItems xs →
    Json.sameItems (Json.sortedItems xs) xs ∧ Json.distinctItems (Json.sortedItems xs) ∧
      (Json.readableItems reprFloat xs → Json.readableItems reprFloat (Json.sortedItems xs))
  | [], _ => ⟨trivial, trivial, id⟩
  | x :: xs, h => by
    obtain ⟨hsame, hdistinct, hreadable⟩ := sortedOf_items h.2
    have hx : SortedOf reprFloat x := sortedOf h.1
    exact ⟨⟨hx.same, hsame⟩, ⟨hx.distinct, hdistinct⟩, fun hr => ⟨hx.readable hr.1, hreadable hr.2⟩⟩

theorem sortedOf_fields : ∀ {kvs : List (Str × Json)}, Json.distinctFields kvs →
    ∀ kv ∈ kvs, SortedOf reprFloat kv.2
  | [], _, _, hkv => nomatch hkv
  | entry :: kvs, h, kv, hkv => by
    have hhead : SortedOf reprFloat entry.2 := sortedOf_field h.1
    have htail := sortedOf_fields h.2 kv
    rcases List.mem_cons.1 hkv with rfl | hkv
    · exact hhead
    · exact htail hkv

theorem sortedOf_field : ∀ {kv : Str × Json}, Json.distinctField kv → SortedOf reprFloat kv.2
  | (_, _), h => sortedOf h

end

variable (reprFloat) in
theorem sorted_keeps {j : Json} (hd : j.Distinct) : SortedOf reprFloat j := sortedOf hd

/-- What is read of a text under `sort_keys`. -/
theorem loads_sorted {j : Json} (hd : j.Distinct) (hr : j.Readable reprFloat) :
    Json.loads reprFloat (j.dumps true) = .ok j.sorted := by
  have hsorted := sorted_keeps reprFloat hd
  rw [← dumps_sorted]
  exact loads_dumps_ok hsorted.distinct (hsorted.readable hr)

end Sorted

end LineageVault
