import LineageVault.Python.Values

/-! # Dictionaries as finite maps

A `dict` is compared by its keys and their values, not by the order of its entries. Two values that are
the same in this sense, at every depth, have the same text under `sort_keys` (`dumps_same`): the text is
a canonical form.
-/

namespace LineageVault
set_option autoImplicit false

mutual

/-- No dictionary in the value has a key twice. -/
def Json.Distinct : Json → Prop
  | .arr xs => distinctItems xs
  | .obj kvs => (kvs.map Prod.fst).Nodup ∧ distinctFields kvs
  | _ => True
termination_by structural x => x

def Json.distinctItems : List Json → Prop
  | [] => True
  | x :: xs => x.Distinct ∧ distinctItems xs
termination_by structural x => x

def Json.distinctFields : List (Str × Json) → Prop
  | [] => True
  | kv :: kvs => distinctField kv ∧ distinctFields kvs
termination_by structural x => x

def Json.distinctField : Str × Json → Prop
  | (_, v) => v.Distinct
termination_by structural x => x

end

mutual

/-- `x == y` of values of one type: dictionaries have the same keys, and the same value for each. -/
def Json.Same : Json → Json → Prop
  | .null, .null => True
  | .bool b, .bool c => b = c
  | .int i, .int j => i = j
  | .float f, .float g => f.text = g.text
  | .str s, .str t => s = t
  | .arr xs, .arr ys => sameItems xs ys
  | .obj kvs, .obj d => (∀ entry ∈ d, entry.1 ∈ kvs.map Prod.fst) ∧ sameFields kvs d
  | _, _ => False
termination_by structural x => x

def Json.sameItems : List Json → List Json → Prop
  | [], [] => True
  | x :: xs, y :: ys => x.Same y ∧ sameItems xs ys
  | _, _ => False
termination_by structural x => x

/-- Each entry is in the dictionary, with the same value. -/
def Json.sameFields : List (Str × Json) → Dict → Prop
  | [], _ => True
  | kv :: kvs, d => sameField kv d ∧ sameFields kvs d
termination_by structural x => x

def Json.sameField : Str × Json → Dict → Prop
  | (k, v), d => ∃ w, d.lookup k = some w ∧ v.Same w
termination_by structural x => x

end

/-! ## Entries -/

theorem distinctFields_mem {kvs : List (Str × Json)} (h : Json.distinctFields kvs) {k : Str} {v : Json}
    (hv : (k, v) ∈ kvs) : v.Distinct := by
  induction kvs with
  | nil => cases hv
  | cons kv kvs ih =>
    rw [Json.distinctFields] at h
    rcases List.mem_cons.1 hv with rfl | hv
    · exact h.1
    · exact ih h.2 hv

theorem mem_of_lookup {d : Dict} {k : Str} {v : Json} (h : d.lookup k = some v) : (k, v) ∈ d := by
  induction d with
  | nil => cases h
  | cons kv d ih =>
    rw [List.lookup_cons] at h
    split at h
    · next heq =>
      cases h
      rw [beq_iff_eq.1 heq]
      exact List.mem_cons_self
    · exact List.mem_cons_of_mem _ (ih h)

theorem lookup_map_set (d : Dict) (k k' : Str) (v : Json) :
    (d.map fun entry => if entry.1 = k then (k, v) else entry).lookup k' =
      if k' = k then (d.lookup k).map fun _ => v else d.lookup k' := by
  induction d with
  | nil => simp
  | cons entry d ih =>
    obtain ⟨key, old⟩ := entry
    rw [List.map_cons]
    by_cases hk : key = k
    · subst hk
      rw [if_pos rfl]
      by_cases hk' : k' = key
      · subst hk'
        rw [if_pos rfl, List.lookup_cons_self, List.lookup_cons_self]
        rfl
      · have hbeq : (k' == key) = false := by simpa using hk'
        rw [if_neg hk', List.lookup_cons, hbeq, ih, if_neg hk', List.lookup_cons, hbeq]
    · rw [if_neg hk]
      by_cases hk' : k' = k
      · subst hk'
        have hbeq : (k' == key) = false := by simpa using Ne.symm hk
        rw [if_pos rfl, List.lookup_cons, hbeq, ih, if_pos rfl, List.lookup_cons, hbeq]
      · rw [if_neg hk', List.lookup_cons, List.lookup_cons, ih, if_neg hk']

theorem lookup_set (d : Dict) (k k' : Str) (v : Json) :
    (d.set k v).lookup k' = if k' = k then some v else d.lookup k' := by
  unfold Dict.set
  split
  · next hany =>
    obtain ⟨entry, hentry, hk⟩ := List.any_eq_true.1 hany
    have hsome : d.lookup k ≠ none := fun hnone => by
      have hne := List.lookup_eq_none_iff.1 hnone entry hentry
      simp only [decide_eq_true_eq] at hk
      simp [hk] at hne
    obtain ⟨old, hold⟩ := Option.ne_none_iff_exists'.1 hsome
    rw [lookup_map_set, hold]
    rfl
  · next hany =>
    have hnone : d.lookup k = none := by
      refine List.lookup_eq_none_iff.2 fun entry hentry => ?_
      have hne : ¬ entry.1 = k := by simpa using fun he => hany (List.any_eq_true.2 ⟨entry, hentry, by simpa using he⟩)
      simpa using Ne.symm hne
    rw [List.lookup_append]
    by_cases hk' : k' = k
    · subst hk'
      rw [if_pos rfl, hnone, List.lookup_cons_self, Option.none_or]
    · have hbeq : (k' == k) = false := by simpa using hk'
      rw [if_neg hk', List.lookup_cons, hbeq, List.lookup_nil, Option.or_none]

theorem sameFields_mem {kvs : List (Str × Json)} {d : Dict} (h : Json.sameFields kvs d) {k : Str} {v : Json}
    (hv : (k, v) ∈ kvs) : ∃ w, d.lookup k = some w ∧ v.Same w := by
  induction kvs with
  | nil => cases hv
  | cons kv kvs ih =>
    rcases List.mem_cons.1 hv with rfl | hv
    · exact h.1
    · exact ih h.2 hv

/-- Equal dictionaries have equal values under each key. -/
theorem same_lookup {d d' : Dict} (h : (Json.obj d).Same (.obj d')) (k : Str) :
    Option.Rel Json.Same (d.lookup k) (d'.lookup k) := by
  cases hd : d.lookup k with
  | some v =>
    obtain ⟨w, hw, hvw⟩ := sameFields_mem h.2 (mem_of_lookup hd)
    rw [hw]
    exact .some hvw
  | none =>
    cases hd' : d'.lookup k with
    | none => exact .none
    | some w =>
      obtain ⟨entry, hentry, rfl⟩ := List.mem_map.1 (h.1 _ (mem_of_lookup hd'))
      simpa using List.lookup_eq_none_iff.1 hd entry hentry

theorem same_obj {x : Json} {d : Dict} (h : x.Same (.obj d)) : ∃ d', x = .obj d' := by
  cases x with
  | obj d' => exact ⟨d', rfl⟩
  | _ => exact h.elim

theorem same_str {x : Json} {s : Str} (h : x.Same (.str s)) : x = .str s := by
  cases x with
  | str t => rw [show t = s from h]
  | _ => exact h.elim

theorem same_arr {x : Json} {ys : List Json} (h : x.Same (.arr ys)) : ∃ xs, x = .arr xs ∧ Json.sameItems xs ys := by
  cases x with
  | arr xs => exact ⟨xs, rfl, h⟩
  | _ => exact h.elim

theorem same_get {x : Json} {d : Dict} (h : x.Same (.obj d)) {k : Str} {v : Json} (hk : d.lookup k = some v) :
    ∃ w, w.Same v ∧ ∀ default, x.get k default = .ok w := by
  obtain ⟨d', rfl⟩ := same_obj h
  have hrel := same_lookup h k
  rw [hk] at hrel
  cases hd' : d'.lookup k with
  | none => rw [hd'] at hrel; cases hrel
  | some w =>
    rw [hd'] at hrel
    cases hrel with
    | some hw => exact ⟨w, hw, fun default => by rw [Json.get, Dict.get, hd']; rfl⟩

theorem same_get_str {x : Json} {d : Dict} (h : x.Same (.obj d)) {k s : Str} (hk : d.lookup k = some (.str s))
    (default : Json) : x.get k default = .ok (.str s) := by
  obtain ⟨w, hw, hget⟩ := same_get h hk
  rw [hget, same_str hw]

theorem same_get_none {x : Json} {d : Dict} (h : x.Same (.obj d)) {k : Str} (hk : d.lookup k = none)
    (default : Json) : x.get k default = .ok default := by
  obtain ⟨d', rfl⟩ := same_obj h
  have hrel := same_lookup h k
  rw [hk] at hrel
  cases hd' : d'.lookup k with
  | none => rw [Json.get, Dict.get, hd']; rfl
  | some w => rw [hd'] at hrel; cases hrel

theorem mem_dumpsFields {sortKeys : Bool} {kvs : List (Str × Json)} {a : Str × Str} :
    a ∈ Json.dumpsFields sortKeys kvs ↔
      ∃ v, (a.1, v) ∈ kvs ∧ a.2 = quote a.1 ++ lit ": " ++ v.dumps sortKeys := by
  induction kvs with
  | nil => simp [Json.dumpsFields]
  | cons kv kvs ih =>
    obtain ⟨k, w⟩ := kv
    rw [Json.dumpsFields, List.mem_cons, ih, Json.dumpsField]
    constructor
    · rintro (rfl | ⟨v, hv, htext⟩)
      · exact ⟨w, List.mem_cons_self, rfl⟩
      · exact ⟨v, List.mem_cons_of_mem _ hv, htext⟩
    · rintro ⟨v, hv, htext⟩
      rcases List.mem_cons.1 hv with heq | hv
      · obtain ⟨hk, rfl⟩ := Prod.mk.inj heq
        exact .inl (Prod.ext hk (by rw [htext, hk]))
      · exact .inr ⟨v, hv, htext⟩

theorem dumpsFields_keys (sortKeys : Bool) (kvs : List (Str × Json)) :
    (Json.dumpsFields sortKeys kvs).map Prod.fst = kvs.map Prod.fst := by
  induction kvs with
  | nil => rfl
  | cons kv kvs ih =>
    obtain ⟨k, v⟩ := kv
    rw [Json.dumpsFields, List.map_cons, List.map_cons, ih, Json.dumpsField]

/-- Entries with distinct keys have one order. -/
theorem sortFields_eq {xs ys : List (Str × Str)} (hx : (xs.map Prod.fst).Nodup)
    (hy : (ys.map Prod.fst).Nodup) (hmem : ∀ a, a ∈ xs ↔ a ∈ ys) : sortFields xs = sortFields ys := by
  let r : Str × Str → Str × Str → Prop := fun a b => Str.Le a.1 b.1
  have : Std.Total r := ⟨fun a b => Str.le_total a.1 b.1⟩
  have : IsTrans (Str × Str) r := ⟨fun a b c => Str.le_trans⟩
  have hperm : (sortFields xs).Perm (sortFields ys) :=
    (List.perm_insertionSort _ xs).trans
      (((List.perm_ext_iff_of_nodup hx.of_map hy.of_map).2 hmem).trans (List.perm_insertionSort _ ys).symm)
  refine hperm.eq_of_pairwise ?_ (List.pairwise_insertionSort r xs) (List.pairwise_insertionSort r ys)
  intro a b ha hb hab hba
  have hax : a ∈ xs := (List.perm_insertionSort _ xs).mem_iff.1 ha
  have hbx : b ∈ xs := (hmem b).2 ((List.perm_insertionSort _ ys).mem_iff.1 hb)
  exact List.inj_on_of_nodup_map hx hax hbx (Str.le_antisymm hab hba)

/-! ## The canonical form -/

mutual

/-- **Equal values have one text under `sort_keys`.** One case per constructor. -/
theorem dumps_same : ∀ {p q : Json}, p.Distinct → q.Distinct → p.Same q → p.dumps true = q.dumps true
  | .null, q, _, _, h => by
    cases q with
    | null => rfl
    | _ => exact h.elim
  | .bool b, q, _, _, h => by
    cases q with
    | bool c => rw [show b = c from h]
    | _ => exact h.elim
  | .int i, q, _, _, h => by
    cases q with
    | int j => rw [show i = j from h]
    | _ => exact h.elim
  | .float f, q, _, _, h => by
    cases q with
    | float g => exact h
    | _ => exact h.elim
  | .str s, q, _, _, h => by
    cases q with
    | str t => rw [show s = t from h]
    | _ => exact h.elim
  | .arr xs, q, hp, hq, h => by
    cases q with
    | arr ys => rw [Json.dumps, Json.dumps, dumpsItems_same hp hq h]
    | _ => exact h.elim
  | .obj kvs, q, hp, hq, h => by
    cases q with
    | obj d =>
      obtain ⟨hkeys, hvalues⟩ := hp
      obtain ⟨hkeys', hvalues'⟩ := hq
      obtain ⟨hcover, hfields⟩ := h
      have hsub := dumpsFields_same hvalues hvalues' hfields
      have hmem : ∀ a, a ∈ Json.dumpsFields true kvs ↔ a ∈ Json.dumpsFields true d := by
        refine fun a => ⟨hsub a, fun ha => ?_⟩
        -- the key is in the first dictionary too, and there is one entry for it in the second
        obtain ⟨w, hw, -⟩ := mem_dumpsFields.1 ha
        obtain ⟨⟨k, v⟩, hv, rfl⟩ := List.mem_map.1 (hcover (a.1, w) hw)
        have hentry : (a.1, quote a.1 ++ lit ": " ++ v.dumps true) ∈ Json.dumpsFields true kvs :=
          mem_dumpsFields.2 ⟨v, hv, rfl⟩
        rw [← dumpsFields_keys true d] at hkeys'
        rwa [List.inj_on_of_nodup_map hkeys' ha (hsub _ hentry) rfl]
      have hsorted : sortFields (Json.dumpsFields true kvs) = sortFields (Json.dumpsFields true d) := by
        refine sortFields_eq ?_ ?_ hmem
        · rwa [dumpsFields_keys]
        · rwa [dumpsFields_keys]
      simp only [Json.dumps, hsorted, if_true]
    | _ => exact h.elim

theorem dumpsItems_same : ∀ {xs ys : List Json}, Json.distinctItems xs → Json.distinctItems ys →
    Json.sameItems xs ys → Json.dumpsItems true xs = Json.dumpsItems true ys
  | [], ys, _, _, h => by
    cases ys with
    | nil => rfl
    | cons y ys => exact h.elim
  | x :: xs, ys, hxs, hys, h => by
    cases ys with
    | nil => exact h.elim
    | cons y ys =>
      rw [Json.dumpsItems, Json.dumpsItems, dumps_same hxs.1 hys.1 h.1, dumpsItems_same hxs.2 hys.2 h.2]

theorem dumpsFields_same : ∀ {kvs : List (Str × Json)} {d : Dict}, Json.distinctFields kvs →
    Json.distinctFields d → Json.sameFields kvs d → ∀ a ∈ Json.dumpsFields true kvs, a ∈ Json.dumpsFields true d
  | [], _, _, _, _, _, ha => by cases ha
  | kv :: kvs, d, hkvs, hd, h, a, ha => by
    rw [Json.dumpsFields] at ha
    rcases List.mem_cons.1 ha with rfl | ha
    · exact dumpsField_same hkvs.1 hd h.1
    · exact dumpsFields_same hkvs.2 hd h.2 a ha

theorem dumpsField_same : ∀ {kv : Str × Json} {d : Dict}, Json.distinctField kv → Json.distinctFields d →
    Json.sameField kv d → Json.dumpsField true kv ∈ Json.dumpsFields true d
  | (k, v), d, hv, hd, h => by
    obtain ⟨w, hw, hsame⟩ := h
    refine mem_dumpsFields.2 ⟨w, mem_of_lookup hw, ?_⟩
    rw [Json.dumpsField, dumps_same hv (distinctFields_mem hd (mem_of_lookup hw)) hsame]

end

end LineageVault
