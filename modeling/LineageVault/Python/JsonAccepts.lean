import LineageVault.Python.JsonRoundTrip

/-! # What `json.loads` makes of a text

Every scanner leaves a proper end of its text. So the fuel is enough, and what a text that can be encoded
is read as has no key twice, no pair of surrogates and no number that could not be written. -/

namespace LineageVault
set_option autoImplicit false

/-- `rest` is what is left of `s` after something was read. -/
def LeftOf (rest s : Str) : Prop := rest <:+ s ∧ rest.length < s.length

theorem LeftOf.of_suffix {rest t s : Str} (h : LeftOf rest t) (ht : t <:+ s) : LeftOf rest s :=
  ⟨h.1.trans ht, h.2.trans_le ht.length_le⟩

theorem LeftOf.suffix {rest t s : Str} (h : LeftOf t s) (hrest : rest <:+ t) : LeftOf rest s :=
  ⟨hrest.trans h.1, hrest.length_le.trans_lt h.2⟩

theorem leftOf_cons (c : CodePoint) (s : Str) : LeftOf s (c :: s) :=
  ⟨List.suffix_cons c s, by simp⟩

theorem encodable_suffix {s t : Str} (h : t <:+ s) (hs : s.encodable = true) : t.encodable = true :=
  List.all_eq_true.2 fun c hc => List.all_eq_true.1 hs c (h.subset hc)

theorem skip_suffix (s : Str) : skip s <:+ s := List.dropWhile_suffix _

theorem expect_eq_some {c : Char} {s t : Str} : expect c s = some t ↔ s = .scalar c :: t := by
  constructor
  · intro h
    cases s with
    | nil => cases h
    | cons d s =>
      unfold expect at h
      split at h
      · next hd =>
        have hdc : d = .scalar c := by simpa [startsWith] using hd
        cases h
        rw [hdc]
        rfl
      · cases h
  · rintro rfl
    exact expect_cons c t

theorem expect_left {c : Char} {s t : Str} (h : expect c s = some t) : LeftOf t s := by
  rw [expect_eq_some.1 h]
  exact leftOf_cons _ t

theorem startsWith_tail {c : Char} {s : Str} (h : startsWith c s = true) : LeftOf s.tail s := by
  cases s with
  | nil => exact (Bool.false_ne_true h).elim
  | cons d s => exact leftOf_cons d s

/-! ## Strings -/

theorem scanString_left {m : StringMode} {s rest : Str} {ps : List StringPiece}
    (h : scanString m s = some (ps, rest)) : LeftOf rest s := by
  induction s generalizing m ps with
  | nil => cases m <;> cases h
  | cons c s ih =>
    have hnext : ∀ {m'} {f : List StringPiece → List StringPiece},
        (scanString m' s).map (fun r => (f r.1, r.2)) = some (ps, rest) → LeftOf rest (c :: s) := by
      intro m' f hmap
      obtain ⟨⟨qs, rest'⟩, hread, heq⟩ := Option.map_eq_some_iff.1 hmap
      cases heq
      exact (ih hread).of_suffix (List.suffix_cons c s)
    cases m with
    | text =>
      rw [scanString] at h
      split at h
      · cases h
        exact leftOf_cons c _
      · split at h
        · exact (ih h).of_suffix (List.suffix_cons c s)
        · split at h
          · cases h
          · exact hnext h
    | escape =>
      rw [scanString] at h
      split at h
      · exact (ih h).of_suffix (List.suffix_cons c s)
      · obtain ⟨d, -, hmap⟩ := Option.bind_eq_some_iff.1 h
        exact hnext hmap
    | digits left n =>
      cases left with
      | zero =>
        obtain ⟨d, -, hmap⟩ := Option.bind_eq_some_iff.1 h
        exact hnext hmap
      | succ left =>
        obtain ⟨d, -, hread⟩ := Option.bind_eq_some_iff.1 h
        exact (ih hread).of_suffix (List.suffix_cons c s)

theorem shortEscape_scalar {c d : CodePoint} (h : shortEscape c = some d) : d.isScalar = true := by
  obtain ⟨e, -, rfl⟩ := Option.map_eq_some_iff.1 h
  rfl

/-- A code point that was not escaped is in the text. -/
theorem scanString_scalars {m : StringMode} {s rest : Str} {ps : List StringPiece} (hs : s.encodable = true)
    (h : scanString m s = some (ps, rest)) {c : CodePoint} (hc : .plain c ∈ ps) : c.isScalar = true := by
  induction s generalizing m ps with
  | nil => cases m <;> cases h
  | cons d s ih =>
    obtain ⟨hd, hs⟩ : d.isScalar = true ∧ Str.encodable s = true := by
      simpa [Str.encodable] using hs
    have hnext : ∀ {m'} {p : StringPiece}, (∀ e, p = .plain e → e.isScalar = true) →
        (scanString m' s).map (fun r => (p :: r.1, r.2)) = some (ps, rest) → c.isScalar = true := by
      intro m' p hp hmap
      obtain ⟨⟨qs, rest'⟩, hread, heq⟩ := Option.map_eq_some_iff.1 hmap
      cases heq
      rcases List.mem_cons.1 hc with heq | hqs
      · exact hp c heq.symm
      · exact ih hs hread hqs
    cases m with
    | text =>
      rw [scanString] at h
      split at h
      · cases h
        cases hc
      · split at h
        · exact ih hs h hc
        · split at h
          · cases h
          · exact hnext (fun e he => by cases he; exact hd) h
    | escape =>
      rw [scanString] at h
      split at h
      · exact ih hs h hc
      · obtain ⟨e, he, hmap⟩ := Option.bind_eq_some_iff.1 h
        exact hnext (fun e' he' => by cases he'; exact shortEscape_scalar he) hmap
    | digits left n =>
      cases left with
      | zero =>
        obtain ⟨e, -, hmap⟩ := Option.bind_eq_some_iff.1 h
        exact hnext (fun _ he => by cases he) hmap
      | succ left =>
        obtain ⟨e, -, hread⟩ := Option.bind_eq_some_iff.1 h
        exact ih hs hread hc

theorem isHigh_iff {n : ℕ} : isHigh n = true ↔ 0xD800 ≤ n ∧ n < 0xDC00 := by
  simp only [isHigh, Bool.and_eq_true, decide_eq_true_eq]

theorem isLow_iff {n : ℕ} : isLow n = true ↔ 0xDC00 ≤ n ∧ n < 0xE000 := by
  simp only [isLow, Bool.and_eq_true, decide_eq_true_eq]

theorem val_ofVal (n : ℕ) : (CodePoint.ofVal n).val = n ∨ (CodePoint.ofVal n).val = 0 := by
  unfold CodePoint.ofVal
  split
  · next h => exact .inl (by simp only [CodePoint.val]; omega)
  · by_cases hvalid : n.isValidChar
    · rw [Char.ofNat, dif_pos hvalid]
      exact .inl rfl
    · rw [Char.ofNat, dif_neg hvalid]
      exact .inr rfl

theorem scalar_no_surrogate {c : CodePoint} (h : c.isScalar = true) :
    isHigh c.val = false ∧ isLow c.val = false := by
  cases c with
  | surrogate s => cases h
  | scalar c =>
    have hc := CodePoint.scalar_val c
    refine ⟨Bool.eq_false_iff.2 fun h => ?_, Bool.eq_false_iff.2 fun h => ?_⟩
    · have hbounds := isHigh_iff.1 h
      simp only [CodePoint.val] at hbounds
      omega
    · have hbounds := isLow_iff.1 h
      simp only [CodePoint.val] at hbounds
      omega

/-- No pair of surrogates is left where all pairs were joined. -/
theorem unpaired_join {ps : List StringPiece} (h : ∀ c, .plain c ∈ ps → c.isScalar = true) :
    Unpaired (joinPieces ps) ∧ ∀ c ∈ (joinPieces ps).head?, isLow c.val = true → startsLow ps = true := by
  have hunit : ∀ {n : ℕ} {qs : List StringPiece}, (isHigh n = true → startsLow qs = false) →
      Unpaired (joinPieces qs) ∧ (∀ c ∈ (joinPieces qs).head?, isLow c.val = true → startsLow qs = true) →
      Unpaired (.ofVal n :: joinPieces qs) ∧
        ∀ c ∈ (CodePoint.ofVal n :: joinPieces qs).head?, isLow c.val = true →
          startsLow (.unit n :: qs) = true := by
    intro n qs hqs ih
    have hval := val_ofVal n
    refine ⟨List.isChain_cons.2 ⟨fun d hd hpair => ?_, ih.1⟩, fun c hc hlow => ?_⟩
    · have hhigh : isHigh n = true := by
        rcases hval with hval | hval
        · rw [← hval]
          exact hpair.1
        · rw [hval] at hpair
          exact (Bool.false_ne_true hpair.1).elim
      exact Bool.false_ne_true ((hqs hhigh).symm.trans (ih.2 d hd hpair.2))
    · cases hc
      rcases hval with hval | hval
      · rwa [hval] at hlow
      · rw [hval] at hlow
        exact (Bool.false_ne_true hlow).elim
  induction ps using joinPieces.induct with
  | case1 => exact ⟨.nil, fun c hc => by cases hc⟩
  | case2 c ps ih =>
    obtain ⟨hhigh, hlow⟩ := scalar_no_surrogate (h c List.mem_cons_self)
    have ih := ih fun d hd => h d (List.mem_cons_of_mem _ hd)
    rw [joinPieces]
    refine ⟨List.isChain_cons.2 ⟨fun d _ hpair => ?_, ih.1⟩, fun d hd hdlow => ?_⟩
    · exact Bool.false_ne_true (hhigh.symm.trans hpair.1)
    · cases hd
      exact (Bool.false_ne_true (hlow.symm.trans hdlow)).elim
  | case3 m n ps hpair ih =>
    have ih := ih fun d hd => h d (List.mem_cons_of_mem _ (List.mem_cons_of_mem _ hd))
    rw [joinPieces, if_pos hpair]
    have hval := val_ofVal (0x10000 + (m - 0xD800) * 0x400 + (n - 0xDC00))
    refine ⟨List.isChain_cons.2 ⟨fun d _ hd => ?_, ih.1⟩, fun d hd hlow => ?_⟩
    · have hhigh := isHigh_iff.1 hd.1
      omega
    · rw [List.head?_cons, Option.mem_some_iff] at hd
      rw [← hd] at hlow
      have hbounds := isLow_iff.1 hlow
      omega
  | case4 m n ps hpair ih =>
    have ih := ih fun d hd => h d (List.mem_cons_of_mem _ hd)
    rw [joinPieces, if_neg hpair]
    refine hunit (fun hhigh => ?_) ih
    rw [hhigh, Bool.true_and, Bool.not_eq_true] at hpair
    exact hpair
  | case5 n ps hno ih =>
    have ih := ih fun d hd => h d (List.mem_cons_of_mem _ hd)
    have hlow : startsLow ps = false := by
      cases ps with
      | nil => rfl
      | cons p ps =>
        cases p with
        | plain c => rfl
        | unit m => exact (hno m ps rfl).elim
    rw [joinPieces_unit fun _ => hlow]
    exact hunit (fun _ => hlow) ih

/-- A string of a text that can be encoded. -/
theorem unpaired_scanString {s rest : Str} {ps : List StringPiece} (hs : s.encodable = true)
    (h : scanString .text s = some (ps, rest)) : Unpaired (joinPieces ps) :=
  (unpaired_join fun _ hc => scanString_scalars hs h hc).1

/-! ## Numbers -/

theorem optional_suffix (cs : List Char) (s : Str) : (optional cs s).2 <:+ s := by
  cases s with
  | nil => exact List.suffix_refl _
  | cons c s =>
    rw [optional]
    split
    · exact List.suffix_cons c s
    · exact List.suffix_refl _

theorem scanWhole_left {s : Str} {r : Str × Str} (h : scanWhole s = some r) : LeftOf r.2 s ∧ r.1 ≠ [] := by
  unfold scanWhole at h
  split at h
  · next hzero =>
    cases h
    exact ⟨startsWith_tail hzero, List.cons_ne_nil _ _⟩
  · split at h
    · cases h
    · next hne =>
      cases h
      have hdigits : s.takeWhile CodePoint.isDecimal ≠ [] := fun hnil => hne (by rw [hnil]; rfl)
      refine ⟨⟨List.dropWhile_suffix _, ?_⟩, hdigits⟩
      have hsplit := congrArg List.length (List.takeWhile_append_dropWhile (p := CodePoint.isDecimal) (l := s))
      have hpos := List.length_pos_iff.2 hdigits
      rw [List.length_append] at hsplit
      dsimp only
      omega

theorem scanFraction_suffix (s : Str) : (scanFraction s).2 <:+ s := by
  simp only [scanFraction]
  split
  · exact List.suffix_refl _
  · exact (List.dropWhile_suffix _).trans (optional_suffix _ s)

theorem scanExponent_suffix (s : Str) : (scanExponent s).2 <:+ s := by
  simp only [scanExponent]
  split
  · exact List.suffix_refl _
  · exact (List.dropWhile_suffix _).trans ((optional_suffix _ _).trans (optional_suffix _ s))

theorem scanNumber_left {s : Str} {r : NumberText × Str} (h : scanNumber s = some r) :
    LeftOf r.2 s ∧ r.1.whole ≠ [] := by
  obtain ⟨w, hw, rfl⟩ := Option.map_eq_some_iff.1 h
  obtain ⟨hleft, hne⟩ := scanWhole_left hw
  refine ⟨(hleft.suffix ?_).of_suffix (optional_suffix _ s), hne⟩
  exact (scanExponent_suffix _).trans (scanFraction_suffix _)

theorem scanConstant_left {s : Str} {r : Json × Str} (h : scanConstant s = some r) :
    LeftOf r.2 s ∧ r.1 ∈ jsonConstants.map Prod.snd := by
  obtain ⟨entry, hentry, hprefix⟩ := List.exists_of_findSome?_eq_some h
  obtain ⟨rest, hrest, rfl⟩ := Option.map_eq_some_iff.1 hprefix
  have hne : ∀ text ∈ jsonConstants.map Prod.fst, 0 < text.length := by decide
  have hpos := hne _ (List.mem_map_of_mem hentry)
  refine ⟨⟨⟨entry.1, List.isPrefixOf?_eq_some_iff_append_eq.1 hrest⟩, ?_⟩, List.mem_map_of_mem hentry⟩
  rw [← List.isPrefixOf?_eq_some_iff_append_eq.1 hrest, List.length_append]
  dsimp only
  omega

theorem decimal_lt (s : Str) : decimal s < 10 ^ s.length := by
  have hdigit : ∀ c : CodePoint, c.digit.getD 0 < 10 := by
    intro c
    cases c with
    | surrogate s => exact Nat.succ_pos 9
    | scalar c =>
      rw [CodePoint.digit]
      split
      · next h =>
        have hle : c.toNat ≤ 57 := (Char.isDigit_iff_toNat.1 h).2
        rw [Option.getD_some]
        omega
      · exact Nat.succ_pos 9
  induction s using List.reverseRecOn with
  | nil => decide
  | append_singleton s c ih =>
    have hc := hdigit c
    rw [decimal_snoc, List.length_append, List.length_singleton, pow_succ]
    omega

/-- An integer that was read can be written and read again. -/
theorem decimal_readable {s : Str} (hne : s ≠ []) (hs : s.length ≤ 4300) :
    (natText (decimal s)).length ≤ 4300 := by
  have hlength : (Nat.toDigits 10 (decimal s)).length ≤ s.length :=
    (Nat.length_toDigits_le_iff (by decide) (List.length_pos_iff.2 hne)).2 (decimal_lt s)
  rw [natText, List.length_map]
  exact hlength.trans hs

/-! ## Dictionaries -/

theorem mem_set {d : Dict} {k : Str} {v : Json} {entry : Str × Json} (h : entry ∈ d.set k v) :
    entry ∈ d ∨ entry = (k, v) := by
  unfold Dict.set at h
  split at h
  · obtain ⟨old, hold, heq⟩ := List.mem_map.1 h
    split at heq
    · exact .inr heq.symm
    · exact .inl (heq ▸ hold)
  · exact (List.mem_append.1 h).imp_right List.mem_singleton.1

theorem nodup_set {d : Dict} (h : (d.map Prod.fst).Nodup) (k : Str) (v : Json) :
    ((d.set k v).map Prod.fst).Nodup := by
  by_cases hany : d.any (fun entry => entry.1 = k) = true
  · have hkeys : ((d.set k v).map Prod.fst) = d.map Prod.fst := by
      rw [Dict.set, if_pos hany, List.map_map]
      refine List.map_congr_left fun entry _ => ?_
      by_cases hk : entry.1 = k
      · simp [hk]
      · simp [hk]
    rwa [hkeys]
  · have hfresh : k ∉ d.map Prod.fst := by
      intro hmem
      obtain ⟨entry, hentry, hk⟩ := List.mem_map.1 hmem
      exact hany (List.any_eq_true.2 ⟨entry, hentry, decide_eq_true hk⟩)
    rw [set_fresh hfresh, List.map_append]
    refine List.nodup_append.2 ⟨h, List.nodup_singleton k, fun a ha b hb hab => ?_⟩
    rw [hab, List.mem_singleton.1 hb] at ha
    exact hfresh ha

section Sound
variable {reprFloat : Str → FloatText}

theorem distinctFields_iff {kvs : Dict} : Json.distinctFields kvs ↔ ∀ kv ∈ kvs, kv.2.Distinct := by
  induction kvs with
  | nil => exact iff_of_true trivial fun _ h => nomatch h
  | cons kv kvs ih =>
    obtain ⟨k, v⟩ := kv
    rw [Json.distinctFields, ih, List.forall_mem_cons]
    exact Iff.rfl

theorem readableFields_iff {kvs : Dict} : Json.readableFields reprFloat kvs ↔
    ∀ kv ∈ kvs, Unpaired kv.1 ∧ kv.2.Readable reprFloat := by
  induction kvs with
  | nil => exact iff_of_true trivial fun _ h => nomatch h
  | cons kv kvs ih =>
    obtain ⟨k, v⟩ := kv
    rw [Json.readableFields, ih, List.forall_mem_cons]
    exact Iff.rfl

/-- A dictionary that can be written and read back. -/
structure Fine (reprFloat : Str → FloatText) (d : Dict) : Prop where
  keys : (d.map Prod.fst).Nodup
  values : ∀ kv ∈ d, Unpaired kv.1 ∧ kv.2.Distinct ∧ kv.2.Readable reprFloat

theorem Fine.set {d : Dict} (h : Fine reprFloat d) {k : Str} {v : Json} (hk : Unpaired k)
    (hv : v.Distinct ∧ v.Readable reprFloat) : Fine reprFloat (d.set k v) where
  keys := nodup_set h.keys k v
  values kv hkv := by
    rcases mem_set hkv with hold | rfl
    · exact h.values kv hold
    · exact ⟨hk, hv⟩

theorem Fine.obj {d : Dict} (h : Fine reprFloat d) :
    (Json.obj d).Distinct ∧ (Json.obj d).Readable reprFloat :=
  ⟨⟨h.keys, distinctFields_iff.2 fun kv hkv => (h.values kv hkv).2.1⟩,
    readableFields_iff.2 fun kv hkv => ⟨(h.values kv hkv).1, (h.values kv hkv).2.2⟩⟩

/-! ## Values -/

/-- `repr` of what `float` read is read as the same number. -/
def ReprStable (reprFloat : Str → FloatText) : Prop := ∀ s, (reprFloat s).Readable reprFloat

theorem readable_value (hfloat : ReprStable reprFloat) {n : NumberText} {x : Json} (hne : n.whole ≠ []) (h : n.value reprFloat = some x) :
    x.Distinct ∧ x.Readable reprFloat := by
  unfold NumberText.value at h
  split at h
  · cases h
    exact ⟨trivial, hfloat _⟩
  · split at h
    · cases h
    · next hlength =>
      cases h
      refine ⟨trivial, ?_⟩
      have hdigits := decimal_readable hne (Nat.not_lt.1 hlength)
      change (natText (Int.natAbs _)).length ≤ 4300
      split
      · exact hdigits
      · rwa [Int.natAbs_neg]

/-- **What a scanner takes is a proper beginning of its text, and a value that can be written and read
again.** By induction on the fuel. -/
theorem scan_sound (fuel : ℕ) :
    (∀ s x rest, scanValue reprFloat fuel s = some (x, rest) →
      LeftOf rest s ∧ (ReprStable reprFloat → s.encodable = true → x.Distinct ∧ x.Readable reprFloat)) ∧
    (∀ s xs rest, scanItems reprFloat fuel s = some (xs, rest) →
      LeftOf rest s ∧ (ReprStable reprFloat → s.encodable = true →
        Json.distinctItems xs ∧ Json.readableItems reprFloat xs)) ∧
    (∀ d s d' rest, scanMembers reprFloat fuel d s = some (d', rest) →
      LeftOf rest s ∧ (ReprStable reprFloat → s.encodable = true → Fine reprFloat d → Fine reprFloat d')) := by
  induction fuel with
  | zero =>
    exact ⟨(fun _ _ _ h => nomatch h), (fun _ _ _ h => nomatch h), (fun _ _ _ _ h => nomatch h)⟩
  | succ fuel ih =>
    obtain ⟨ihvalue, ihitems, ihmembers⟩ := ih
    refine ⟨fun s x rest h => ?_, fun s xs rest h => ?_, fun d s d' rest h => ?_⟩
    · rw [scanValue] at h
      split at h
      · next hquote =>
        obtain ⟨⟨ps, rest'⟩, hread, heq⟩ := Option.map_eq_some_iff.1 h
        cases heq
        have htail := startsWith_tail hquote
        refine ⟨(scanString_left hread).of_suffix htail.1, fun _ hs => ⟨trivial, ?_⟩⟩
        exact unpaired_scanString (encodable_suffix htail.1 hs) hread
      split at h
      · next hlist =>
        have htail := (startsWith_tail hlist).suffix (skip_suffix s.tail)
        split at h
        · cases h
          exact ⟨htail.suffix (List.tail_suffix _), fun _ _ => ⟨trivial, trivial⟩⟩
        · obtain ⟨⟨xs, rest'⟩, hread, heq⟩ := Option.map_eq_some_iff.1 h
          cases heq
          obtain ⟨hleft, hfine⟩ := ihitems _ _ _ hread
          exact ⟨hleft.of_suffix htail.1, fun hf hs => hfine hf (encodable_suffix htail.1 hs)⟩
      split at h
      · next hobject =>
        have htail := (startsWith_tail hobject).suffix (skip_suffix s.tail)
        have hempty : Fine reprFloat [] := ⟨.nil, fun _ h => nomatch h⟩
        split at h
        · cases h
          exact ⟨htail.suffix (List.tail_suffix _), fun _ _ => hempty.obj⟩
        · obtain ⟨⟨d, rest'⟩, hread, heq⟩ := Option.map_eq_some_iff.1 h
          cases heq
          obtain ⟨hleft, hfine⟩ := ihmembers _ _ _ _ hread
          exact ⟨hleft.of_suffix htail.1, fun hf hs => (hfine hf (encodable_suffix htail.1 hs) hempty).obj⟩
      split at h
      · next r hconstant =>
        cases h
        obtain ⟨hleft, hmem⟩ := scanConstant_left hconstant
        refine ⟨hleft, fun _ _ => ?_⟩
        simp only [jsonConstants, List.map_cons, List.map_nil, List.mem_cons, List.not_mem_nil,
          or_false] at hmem
        rcases hmem with rfl | rfl | rfl | rfl | rfl | rfl <;> refine ⟨trivial, ?_⟩
        · exact trivial
        · exact trivial
        · exact trivial
        · exact .inl (by simp)
        · exact .inl (by simp)
        · exact .inl (by simp)
      · obtain ⟨n, hn, hmap⟩ := Option.bind_eq_some_iff.1 h
        obtain ⟨y, hy, heq⟩ := Option.map_eq_some_iff.1 hmap
        cases heq
        obtain ⟨hleft, hne⟩ := scanNumber_left hn
        exact ⟨hleft, fun hf _ => readable_value hf hne hy⟩
    · obtain ⟨⟨x, after⟩, hx, hnext⟩ := Option.bind_eq_some_iff.1 h
      obtain ⟨hleft, hfine⟩ := ihvalue _ _ _ hx
      have hskip := hleft.suffix (skip_suffix after)
      split at hnext
      · cases hnext
        refine ⟨hskip.suffix (List.tail_suffix _), fun hf hs => ?_⟩
        exact ⟨⟨(hfine hf hs).1, trivial⟩, (hfine hf hs).2, trivial⟩
      · obtain ⟨t, ht, hmap⟩ := Option.bind_eq_some_iff.1 hnext
        obtain ⟨⟨ys, rest'⟩, hread, heq⟩ := Option.map_eq_some_iff.1 hmap
        cases heq
        have hcomma := (hskip.suffix (expect_left ht).1).suffix (skip_suffix t)
        obtain ⟨hrest, hfines⟩ := ihitems _ _ _ hread
        refine ⟨hrest.of_suffix hcomma.1, fun hf hs => ?_⟩
        obtain ⟨hd, hr⟩ := hfines hf (encodable_suffix hcomma.1 hs)
        exact ⟨⟨(hfine hf hs).1, hd⟩, (hfine hf hs).2, hr⟩
    · obtain ⟨t, ht, h⟩ := Option.bind_eq_some_iff.1 h
      obtain ⟨⟨ps, after⟩, hkey, h⟩ := Option.bind_eq_some_iff.1 h
      obtain ⟨u, hu, h⟩ := Option.bind_eq_some_iff.1 h
      obtain ⟨⟨x, last⟩, hx, hnext⟩ := Option.bind_eq_some_iff.1 h
      have hquote := expect_left ht
      have hafter := (scanString_left hkey).of_suffix hquote.1
      have hcolon := ((hafter.suffix (skip_suffix after)).suffix (expect_left hu).1).suffix (skip_suffix u)
      obtain ⟨hleft, hfine⟩ := ihvalue _ _ _ hx
      have hlast := (hleft.of_suffix hcolon.1).suffix (skip_suffix last)
      have hset : ReprStable reprFloat → s.encodable = true → Fine reprFloat d →
          Fine reprFloat (d.set (joinPieces ps) x) :=
        fun hf hs hd => hd.set (unpaired_scanString (encodable_suffix hquote.1 hs) hkey)
          (hfine hf (encodable_suffix hcolon.1 hs))
      split at hnext
      · cases hnext
        exact ⟨hlast.suffix (List.tail_suffix _), hset⟩
      · obtain ⟨w, hw, hread⟩ := Option.bind_eq_some_iff.1 hnext
        have hcomma := (hlast.suffix (expect_left hw).1).suffix (skip_suffix w)
        obtain ⟨hrest, hfines⟩ := ihmembers _ _ _ _ hread
        exact ⟨hrest.of_suffix hcomma.1, fun hf hs hd =>
          hfines hf (encodable_suffix hcomma.1 hs) (hset hf hs hd)⟩

/-- **More fuel than a text needs changes nothing.** By induction on the fuel; what is left after an item is
shorter. -/
theorem scan_fuel (fuel : ℕ) :
    (∀ s, 2 * s.length < fuel → scanValue reprFloat (fuel + 1) s = scanValue reprFloat fuel s) ∧
    (∀ s, 2 * s.length + 1 < fuel → scanItems reprFloat (fuel + 1) s = scanItems reprFloat fuel s) ∧
    (∀ d s, 2 * s.length < fuel → scanMembers reprFloat (fuel + 1) d s = scanMembers reprFloat fuel d s) := by
  induction fuel with
  | zero => exact ⟨(fun _ h => absurd h (by omega)), (fun _ h => absurd h (by omega)), fun _ _ h => absurd h (by omega)⟩
  | succ fuel ih =>
    obtain ⟨ihvalue, ihitems, ihmembers⟩ := ih
    have hskip : ∀ s : Str, (skip s).length ≤ s.length := fun s => (skip_suffix s).length_le
    refine ⟨fun s hs => ?_, fun s hs => ?_, fun d s hs => ?_⟩
    · rw [scanValue, scanValue]
      split
      · rfl
      split
      · next hlist =>
        have htail := (startsWith_tail hlist).2
        have hlength := hskip s.tail
        rw [ihitems _ (by omega)]
      split
      · next hobject =>
        have htail := (startsWith_tail hobject).2
        have hlength := hskip s.tail
        rw [ihmembers _ _ (by omega)]
      · rfl
    · rw [scanItems, scanItems, ihvalue s (by omega)]
      refine Option.bind_congr fun x hx => ?_
      have hleft := ((scan_sound fuel).1 _ _ _ hx).1
      split
      · rfl
      · refine Option.bind_congr fun t ht => ?_
        have hlength := (((hleft.suffix (skip_suffix x.2)).suffix (expect_left ht).1).suffix (skip_suffix t)).2
        rw [ihitems _ (by omega)]
    · rw [scanMembers, scanMembers]
      refine Option.bind_congr fun t ht => Option.bind_congr fun key hkey => Option.bind_congr fun u hu => ?_
      have hafter := (scanString_left hkey).of_suffix (expect_left ht).1
      have hcolon := ((hafter.suffix (skip_suffix key.2)).suffix (expect_left hu).1).suffix (skip_suffix u)
      have hvalue := hcolon.2
      rw [ihvalue _ (by omega)]
      refine Option.bind_congr fun x hx => ?_
      have hleft := ((scan_sound fuel).1 _ _ _ hx).1.of_suffix hcolon.1
      split
      · rfl
      · refine Option.bind_congr fun w hw => ?_
        have hlength := (((hleft.suffix (skip_suffix x.2)).suffix (expect_left hw).1).suffix (skip_suffix w)).2
        rw [ihmembers _ _ (by omega)]

/-- The scanner of a text never runs out of fuel. -/
theorem scanValue_enough {s : Str} {fuel : ℕ} (h : scanFuel s ≤ fuel) :
    scanValue reprFloat fuel s = scanValue reprFloat (scanFuel s) s := by
  induction fuel, h using Nat.le_induction with
  | base => rfl
  | succ fuel h ih => rw [(scan_fuel fuel).1 s h, ih]

end Sound

/-! ## Whole texts -/

section Whole
variable {reprFloat : Str → FloatText}

theorem loads_dumps_ok {j : Json} (hd : j.Distinct) (hr : j.Readable reprFloat) :
    Json.loads reprFloat (j.dumps false) = .ok j := by
  have hopens := dumps_opens hr
  have hends : Ends [] := fun _ h => nomatch h
  have hscan := scanValue_dumps hd hr hends _ (Nat.lt_succ_self _)
  rw [List.append_nil] at hscan
  rw [Json.loads, hopens.startsWith (by decide), if_neg Bool.false_ne_true, hopens.skip, scanFuel, hscan]
  rfl

theorem loads_sound (hfloat : ReprStable reprFloat) {t : Str} {j : Json} (ht : t.encodable = true)
    (h : Json.loads reprFloat t = .ok j) : j.Distinct ∧ j.Readable reprFloat := by
  unfold Json.loads at h
  split at h
  · cases h
  · split at h
    · next x rest hscan =>
      split at h
      · cases h
        exact ((scan_sound _).1 _ _ _ hscan).2 hfloat (encodable_suffix (skip_suffix t) ht)
      · cases h
    · cases h

/-- **A value is read back as it was exactly if it is readable.** -/
theorem loads_dumps (hfloat : ReprStable reprFloat) (j : Json) :
    Json.loads reprFloat (j.dumps false) = .ok j ↔ j.Distinct ∧ j.Readable reprFloat :=
  ⟨loads_sound hfloat (dumps_encodable false j), fun h => loads_dumps_ok h.1 h.2⟩

end Whole

end LineageVault
