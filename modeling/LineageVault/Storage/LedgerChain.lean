import LineageVault.Python.Json

/-! # `storage/ledger_chain.py`

The hash of a ledger entry, over what the code takes from outside: `hashlib.sha256`, the json module
and the database's limit on the parameters of a statement. All are parameters. SHA-256 is any function
into hexadecimal digests; a payload is any type with a `dumps` and a `loads`. `PyLib.json` is the
instance at JSON values.
-/

namespace LineageVault
set_option autoImplicit false

/-- What `hexdigest()` of a SHA-256 returns. -/
structure Digest where
  text : Str
  length : text.length = 64
  hex : ∀ c ∈ text, c ∈ lit "0123456789abcdef"

/-- The digest that repeats one digit. -/
def Digest.repeated (c : CodePoint) (hc : c ∈ lit "0123456789abcdef") : Digest where
  text := List.replicate 64 c
  length := List.length_replicate ..
  hex _ hd := List.eq_of_mem_replicate hd ▸ hc

/-- `SQLITE_MAX_VARIABLE_NUMBER`, the most `?` one statement may have. PostgreSQL has `none`: a batch
gives it all keys as one array. -/
structure VariableLimit where
  most : Option ℕ
  /-- no statement but the lookup of a batch has more than six -/
  six : ∀ n ∈ most, 6 ≤ n

/-- The default since SQLite 3.32. -/
def VariableLimit.sqlite : VariableLimit := ⟨some 32766, by simp⟩

def VariableLimit.allows (limit : VariableLimit) (n : ℕ) : Bool :=
  match limit.most with
  | some most => decide (n ≤ most)
  | none => true

theorem VariableLimit.allows_six (limit : VariableLimit) {n : ℕ} (h : n ≤ 6) : limit.allows n = true := by
  unfold allows
  split
  · next most hmost => exact decide_eq_true (h.trans (limit.six most hmost))
  · rfl

@[simp] theorem VariableLimit.allows_one (limit : VariableLimit) : limit.allows 1 = true :=
  limit.allows_six (by decide)

structure PyLib (P : Type) where
  sha256 : Str → Digest
  /-- `json.dumps(payload, sort_keys=…)` -/
  dumps : Bool → P → Except PyErr Str
  loads : Str → Except PyErr P
  limit : VariableLimit

/-- The json module on JSON values. `dumps` refuses none of them: its own limits, on the digits of an
integer and on nesting, are not modelled. -/
def PyLib.json (sha256 : Str → Digest) (loads : Str → Except PyErr Json) (limit : VariableLimit) :
    PyLib Json where
  sha256 := sha256
  dumps sortKeys j := .ok (j.dumps sortKeys)
  loads := loads
  limit := limit

/-- For runs on fixed inputs: every digest repeats the digit 1, every text is read as `{}`. -/
def PyLib.fixed : PyLib Json :=
  .json (fun _ => .repeated (.scalar '1') (by decide)) (fun _ => .ok (.obj [])) .sqlite

def genesisHash : Str := List.replicate 64 (.scalar '0')

variable {P : Type}

def payloadJson (py : PyLib P) (payload : P) : Except PyErr Str := py.dumps true payload

/-- The text under the hash: `f"{prev}|{event_id}|{payload_text}"`. -/
def entryText (prev eventId payloadText : Str) : Str := prev ++ bar :: (eventId ++ bar :: payloadText)

def entryHash (py : PyLib P) (prev eventId payloadText : Str) : Except PyErr Str := do
  let text ← (entryText prev eventId payloadText).encode
  return (py.sha256 text).text

/-- The digest of an entry whose text can be encoded. -/
def entryDigest (py : PyLib P) (prev : Str) (body : Str × Str) : Str :=
  (py.sha256 (entryText prev body.1 body.2)).text

theorem encodable_entryText (prev eventId payloadText : Str) :
    (entryText prev eventId payloadText).encodable =
      (prev.encodable && eventId.encodable && payloadText.encodable) := by
  simp [entryText, Str.encodable, bar, CodePoint.isScalar, Bool.and_assoc]

theorem entryHash_eq (py : PyLib P) {prev eventId payloadText : Str}
    (h : (entryText prev eventId payloadText).encodable = true) :
    entryHash py prev eventId payloadText = .ok (entryDigest py prev (eventId, payloadText)) := by
  simp only [entryHash, Str.encode_of_encodable h]
  rfl

theorem entryHash_ok {py : PyLib P} {prev eventId payloadText digest : Str}
    (h : entryHash py prev eventId payloadText = .ok digest) :
    (entryText prev eventId payloadText).encodable = true ∧
      digest = entryDigest py prev (eventId, payloadText) := by
  cases he : (entryText prev eventId payloadText).encodable with
  | true =>
    rw [entryHash_eq py he] at h
    cases h
    exact ⟨rfl, rfl⟩
  | false =>
    simp only [entryHash, Str.encode, he, Bool.false_eq_true, if_false] at h
    cases h

/-! ## Digests, and the three parts of the text -/

theorem digest_encodable (d : Digest) : d.text.encodable = true := by
  have hall : ∀ c ∈ lit "0123456789abcdef", c.isScalar = true := by decide
  exact List.all_eq_true.2 fun c hc => hall c (d.hex c hc)

theorem genesisHash_encodable : genesisHash.encodable = true := by decide

theorem genesisHash_length : genesisHash.length = 64 := List.length_replicate ..

/-- Two texts of one length before the first bar: the whole entry text determines its three parts,
for payload texts that json wrote. -/
theorem entryText_inj {prev prev' e e' p p' : Str} (hlen : prev.length = prev'.length)
    (hp : scan .out p = some .out) (hp' : scan .out p' = some .out)
    (h : entryText prev e p = entryText prev' e' p') : prev = prev' ∧ e = e' ∧ p = p' := by
  obtain ⟨hprev, hrest⟩ := List.append_inj h hlen
  exact ⟨hprev, append_bar_inj hp hp' (List.cons.inj hrest).2⟩

end LineageVault
