import LineageVault.OpenLineage.Batch
import LineageVault.Storage.FreshKeys
import LineageVault.Storage.Rekeyed

/-! # `POST /openlineage/batch`

The handler gives the value of the header `Idempotency-Key` to every event of the batch as its key.
The ingestor takes it over for each event, and the storage answers every event but the first as a
duplicate. `postOpenlineageBatch_iff` says when a batch with the header loses no event:
when it has one event, or when the header is empty.
-/

namespace LineageVault
open Foundations
set_option autoImplicit false

/-! ## The handler -/

/-- The octets of a header value. -/
abbrev HeaderValue := List UInt8

/-- `.decode("latin-1")` -/
def latin1 (octets : HeaderValue) : Str := octets.map fun o => .scalar (Char.ofNat o.toNat)

inductive ApiError where
  | http (status : ℕ) (error message : Str)
  | raised (e : PyErr)

structure BatchAnswer where
  results : List IngestResult
  count : ℕ
  integrity : Bool

/-- `[header_key] * len(body.events) if header_key else None` -/
def headerKeys (n : ℕ) : Option Str → Option (List (Option Str))
  | some (c :: key) => some (List.replicate n (some (c :: key)))
  | _ => none

def batchTooLarge (size : ℕ) (limit : ℤ) : ApiError :=
  .http 413 (lit "batch_too_large")
    (lit "batch size " ++ natText size ++ lit " exceeds limit " ++ intText limit)

/-- The dict that both branches return. -/
def batchAnswer (py : PyLib Json) (results : List IngestResult) (b : Backend) :
    Except ApiError BatchAnswer :=
  match b.verifyIntegrity py with
  | .ok integrity => .ok ⟨results, results.length, integrity⟩
  | .error e => .error (.raised e)

/-- `post_openlineage_batch` -/
def postOpenlineageBatch (R : Rendering) (py : PyLib Json) (maxBatch : ℤ) (now : ClockText)
    (ids : ℕ → Str) (events : List RunEvent) (header : Option HeaderValue) (b : Backend) :
    Except ApiError BatchAnswer × Backend :=
  if maxBatch < events.length then (.error (batchTooLarge events.length maxBatch), b)
  else if events.isEmpty then (batchAnswer py [] b, b)
  else
    match (ingestBatch R now ids events (headerKeys events.length (header.map latin1))).run py b with
    | (.ok results, b') => (batchAnswer py results b', b')
    | (.error e, b') => (.error (.raised e), b')

variable {R : Rendering}

/-! ## Keys -/

theorem latin1_encodable (octets : HeaderValue) : (latin1 octets).encodable = true := by
  refine List.all_eq_true.2 fun c hc => ?_
  obtain ⟨o, -, rfl⟩ := List.mem_map.1 hc
  rfl

theorem resolvedKey_none (e : RunEvent) : e.resolvedKey R none = e.derivedKey R := rfl

theorem resolvedKey_latin1 (e : RunEvent) (header : HeaderValue) :
    e.resolvedKey R (some (latin1 header)) =
      if header = [] then e.derivedKey R else latin1 header := by
  cases header <;> rfl

theorem headerKey_encodable {e : RunEvent} (header : HeaderValue) (h : (e.runId R).encodable = true) :
    (e.resolvedKey R (some (latin1 header))).encodable = true := by
  rw [resolvedKey_latin1]
  split
  · rw [derivedKey_encodable, h]
  · exact latin1_encodable header

theorem zipWith_replicate_length {α β γ : Type} (f : α → β → γ) (xs : List α) (y : β) :
    List.zipWith f xs (List.replicate xs.length y) = xs.map fun x => f x y := by
  induction xs with
  | nil => rfl
  | cons x xs ih => rw [List.length_cons, List.replicate_succ, List.zipWith_cons_cons, ih, List.map_cons]

/-- The keys the ingestor resolves are those of the header, if it has a value. -/
theorem resolved_headerKeys {events : List RunEvent} (hne : events ≠ []) (key : Option Str) :
    (ingestKeys events (headerKeys events.length key)).length = events.length ∧
      List.zipWith (fun event key => event.resolvedKey R key) events
        (ingestKeys events (headerKeys events.length key)) = events.map (fun e => e.resolvedKey R key) := by
  have hnone : ingestKeys events none = List.replicate events.length none := rfl
  have hsome : ∀ key, ingestKeys events (some (List.replicate events.length key)) =
      List.replicate events.length key := by
    intro key
    obtain ⟨event, rest, rfl⟩ := List.exists_cons_of_ne_nil hne
    rfl
  match key with
  | none =>
    rw [show headerKeys events.length none = none from rfl, hnone, zipWith_replicate_length]
    exact ⟨List.length_replicate, rfl⟩
  | some [] =>
    rw [show headerKeys events.length (some []) = none from rfl, hnone, zipWith_replicate_length]
    exact ⟨List.length_replicate, rfl⟩
  | some (c :: key) =>
    rw [headerKeys, hsome, zipWith_replicate_length]
    exact ⟨List.length_replicate, rfl⟩

/-! ## A batch with a header -/

/-- `uuid4()` gave `n` texts that differ from one another and from the events of the ledger. -/
structure FreshIds (db : Db) (ids : ℕ → Str) (n : ℕ) : Prop where
  encodable : ∀ i < n, (ids i).encodable = true
  different : ∀ i < n, ∀ j < n, ids i = ids j → i = j
  unused : ∀ i < n, ids i ∉ ledgerIds db

section Promise
variable (R) (py : PyLib Json) (maxBatch : ℤ) (now : ClockText) (ids : ℕ → Str)
  (events : List RunEvent) (header : HeaderValue) (b : Backend)

/-- The batch with the header adds one ledger row for each event, it answers and leaves the tables
(but for the keys) as the batch without the header does, and the same batch again adds nothing. -/
structure LosesNoEvent : Prop where
  rows : (postOpenlineageBatch R py maxBatch now ids events (some header) b).2.db.ledger.length =
    b.db.ledger.length + events.length
  same : ∃ keys, postOpenlineageBatch R py maxBatch now ids events (some header) b =
    ((postOpenlineageBatch R py maxBatch now ids events none b).1,
      (postOpenlineageBatch R py maxBatch now ids events none b).2.rekeyed keys)
  again : ∀ (now' : ClockText) (ids' : ℕ → Str),
    let b' := (postOpenlineageBatch R py maxBatch now ids events (some header) b).2
    let b'' := (postOpenlineageBatch R py maxBatch now' ids' events (some header) b').2
    b''.db = b'.db ∧ b''.graph = b'.graph

end Promise

variable {sha256 : Str → Digest} {loads : Str → Except PyErr Json} {limit : VariableLimit}
  {b : Backend} {now : ClockText} {ids : ℕ → Str} {events : List RunEvent} {items : List (BatchWriteItem Json)}

theorem fits_of_fresh (hb : Reachable (PyLib.json sha256 loads limit) b) {n : ℕ} (hids : FreshIds b.db ids n)
    {item : BatchWriteItem Json} (hid : item.eventId ∈ (List.range' 0 n).map ids) :
    Fits (PyLib.json sha256 loads limit) b.db item := by
  obtain ⟨log, hrun⟩ := hb
  obtain ⟨i, hi, he⟩ := List.mem_map.1 hid
  have hlt : i < n := by simpa using hi
  have hledger : item.eventId ∉ ledgerIds b.db := he ▸ hids.unused i hlt
  exact {
    event := he ▸ hids.encodable i hlt
    text := ⟨_, rfl, dumps_encodable true item.payload⟩
    unkeyed := fun q hq hqe => hledger (hqe ▸ hrun.journalInv.keyed q hq)
    unledgered := fun q hq hqe => hledger (List.mem_map.2 ⟨q, hq, hqe⟩) }

theorem storable_of_fresh (hb : Reachable (PyLib.json sha256 loads limit) b) {n : ℕ}
    (hids : FreshIds b.db ids n)
    (hitems : items.map BatchWriteItem.eventId = (List.range' 0 n).map ids)
    (hkeys : ∀ item ∈ items, item.idempotencyKey.encodable = true) :
    Storable (PyLib.json sha256 loads limit) b.db items where
  key := hkeys
  fits item hitem := fits_of_fresh hb hids
    (hitems ▸ List.mem_map_of_mem ((newItems_sublist _ items).subset hitem))
  distinct := by
    refine ((newItems_sublist _ items).map _).nodup ?_
    rw [hitems]
    exact List.Nodup.map_on (fun i hi j hj he => hids.different i (by simpa using hi) j
      (by simpa using hj) he) (List.nodup_range' ..)

/-! ## What the handler leaves -/

variable {maxBatch : ℤ} {header : HeaderValue}

theorem postOpenlineageBatch_backend {py : PyLib Json} (hle : (events.length : ℤ) ≤ maxBatch)
    (hne : events ≠ []) (key : Option HeaderValue) :
    (postOpenlineageBatch R py maxBatch now ids events key b).2 =
      ((ingestBatch R now ids events (headerKeys events.length (key.map latin1))).run py b).2 := by
  rw [postOpenlineageBatch, if_neg (not_lt.2 hle), if_neg (by simpa using hne)]
  split
  · next h => rw [h]
  · next h => rw [h]

/-- The items of a batch whose keys come from the header. -/
theorem headerItems (R : Rendering) (ids : ℕ → Str) (hne : events ≠ []) (key : Option Str) :
    ∃ items, batchItems R ids events (ingestKeys events (headerKeys events.length key)) 0 = .ok items ∧
      items.map BatchWriteItem.idempotencyKey = events.map (fun e => e.resolvedKey R key) ∧
      items.map BatchWriteItem.eventId = (List.range' 0 events.length).map ids := by
  obtain ⟨hlen, hzip⟩ := resolved_headerKeys (R := R) hne key
  obtain ⟨items, hitems⟩ := batchItems_total R ids hlen 0
  obtain ⟨-, hkeys, hids⟩ := batchItems_spec hitems
  exact ⟨items, hitems, hkeys.trans hzip, hids⟩

/-- Where the keys are new, the ledger gets one row for each different key, or the batch is refused. -/
theorem ingestBatch_ledger {py : PyLib Json} (now : ClockText) (hb : Reachable py b) (hne : events ≠ [])
    {idempotencyKeys : Option (List (Option Str))}
    (hitems : batchItems R ids events (ingestKeys events idempotencyKeys) 0 = .ok items)
    (hnew : ∀ key ∈ items.map BatchWriteItem.idempotencyKey, existingEvent b.db key = none) :
    let b' := ((ingestBatch R now ids events idempotencyKeys).run py b).2
    (∃ results w, (acknowledgeBody py now items).eval exec b.session.view = .ok (results, w) ∧
      b'.db.idempotency = w.1.idempotency ∧ b'.db.ledger.length =
        b.db.ledger.length + (items.map BatchWriteItem.idempotencyKey).dedup.length) ∨
    (∃ e, (acknowledgeBody py now items).eval exec b.session.view = .error e ∧
      b'.db.ledger = b.db.ledger) := by
  intro b'
  obtain ⟨log, hrun⟩ := hb
  rcases ingestBatch_cases (R := R) now hne hitems b with ⟨e, he, h⟩ | ⟨rs, w, he, h⟩
  · refine .inr ⟨e, he, ?_⟩
    simp only [b', h]
    exact (journal_ext.1 hrun.settled).2.1
  · obtain ⟨-, hj⟩ := recordAll_keeps (R := R) events rs w b
    obtain ⟨hi, hl, -⟩ := journal_ext.1 hj
    refine .inl ⟨rs, w, he, ?_, ?_⟩
    · simp only [b', h]
      exact hi
    · simp only [b', h]
      rw [Backend.db, hl]
      exact acknowledgeBody_rows hrun.journalInv
        (fun item hitem => hnew _ (List.mem_map_of_mem hitem)) he

/-! ## When no event is lost -/

section Hypotheses
variable (hb : Reachable (PyLib.json sha256 loads limit) b) (hne : events ≠ [])
  (hdiff : (events.map fun e => (e.runId R, e.eventType)).Nodup)
  (hheader : ∀ q ∈ b.db.idempotency, q.idempotencyKey ≠ latin1 header)
  (hderived : ∀ e ∈ events, ∀ q ∈ b.db.idempotency, q.idempotencyKey ≠ e.derivedKey R)
  (hids : FreshIds b.db ids events.length)

include hdiff in
theorem derivedKeys_nodup : (events.map fun e => e.derivedKey R).Nodup := by
  have hpairs := List.pairwise_map.1 hdiff
  refine List.pairwise_map.2 (hpairs.imp fun {e e'} hne' he => hne' ?_)
  obtain ⟨hrun, htype⟩ := derivedKey_inj he
  rw [hrun, htype]

include hderived in
theorem derivedKeys_new : ∀ key ∈ events.map (fun e => e.resolvedKey R none),
    existingEvent b.db key = none := by
  intro key hkey
  obtain ⟨e, he, rfl⟩ := List.mem_map.1 hkey
  exact existingEvent_eq_none.2 (hderived e he)

include hheader hderived in
theorem headerKeys_new : ∀ key ∈ events.map (fun e => e.resolvedKey R (some (latin1 header))),
    existingEvent b.db key = none := by
  intro key hkey
  obtain ⟨e, he, rfl⟩ := List.mem_map.1 hkey
  rw [resolvedKey_latin1]
  split
  · exact existingEvent_eq_none.2 (hderived e he)
  · exact existingEvent_eq_none.2 hheader

include hne in
/-- With a header the batch has one key. -/
theorem headerKeys_dedup (hh : header ≠ []) :
    (events.map fun e => e.resolvedKey R (some (latin1 header))).dedup.length = 1 := by
  have hconst : (events.map fun e => e.resolvedKey R (some (latin1 header))) =
      List.replicate events.length (latin1 header) := by
    rw [← List.map_const']
    exact List.map_congr_left fun e _ => by rw [resolvedKey_latin1, if_neg hh]
  rw [hconst, List.replicate_dedup (by simpa using hne), List.length_singleton]

include hne hdiff in
theorem headerKeys_count (hone : events.length = 1 ∨ header = []) :
    (events.map fun e => e.resolvedKey R (some (latin1 header))).dedup.length = events.length := by
  by_cases hh : header = []
  · have hderive : (events.map fun e => e.resolvedKey R (some (latin1 header))) =
        events.map fun e => e.derivedKey R :=
      List.map_congr_left fun e _ => by rw [resolvedKey_latin1, if_pos hh]
    rw [hderive, (derivedKeys_nodup hdiff).dedup, List.length_map]
  · rw [headerKeys_dedup hne hh]
    exact (hone.resolve_right hh).symm

include hb hne hheader hderived in
/-- A batch that loses no event is accepted, can be looked up and stored, and has one event or no header. -/
theorem LosesNoEvent.condition {now : ClockText}
    (h : LosesNoEvent R (PyLib.json sha256 loads limit) maxBatch now ids events header b) :
    (events.length : ℤ) ≤ maxBatch ∧ limit.allows events.length = true ∧
      (∀ e ∈ events, (e.runId R).encodable = true) ∧ (events.length = 1 ∨ header = []) := by
  have hpos : 0 < events.length := List.length_pos_iff.2 hne
  have hrows := h.rows
  have hle : (events.length : ℤ) ≤ maxBatch := by
    by_contra hgt
    rw [postOpenlineageBatch, if_pos (not_le.1 hgt)] at hrows
    dsimp only at hrows
    omega
  refine ⟨hle, ?_, fun e he => ?_, ?_⟩
  · by_contra hlimit
    have hbeyond : (PyLib.json sha256 loads limit).limit.allows events.length = false :=
      Bool.eq_false_iff.2 hlimit
    obtain ⟨hlen, -⟩ := resolved_headerKeys (R := R) hne (some (latin1 header))
    obtain ⟨err, herr⟩ := ingestBatch_beyond (R := R) now ids hlen hbeyond b
    obtain ⟨log, hrun⟩ := hb
    have hledger : b.session.rollback.view.1.ledger = b.db.ledger := (journal_ext.1 hrun.settled).2.1
    rw [postOpenlineageBatch_backend hle hne, Option.map_some, herr, Backend.db, hledger] at hrows
    omega
  · by_contra henc
    obtain ⟨items, hitems, hkeys, -⟩ := headerItems R ids hne none
    -- without the header the batch is refused
    have hrefused : (PyLib.json sha256 loads limit).limit.accepts
        (items.map BatchWriteItem.idempotencyKey) = false := by
      rw [hkeys, Bool.eq_false_iff]
      intro hall
      have := List.all_eq_true.1 (Bool.and_eq_true_iff.1 hall).2 _ (List.mem_map_of_mem he)
      rw [resolvedKey_none, derivedKey_encodable] at this
      exact henc this
    obtain ⟨err, herr⟩ := acknowledgeBody_error now hrefused b.session.view
    obtain ⟨keys, hsame⟩ := h.same
    have hledger : (postOpenlineageBatch R (PyLib.json sha256 loads limit) maxBatch now ids events (some header)
        b).2.db.ledger = (postOpenlineageBatch R (PyLib.json sha256 loads limit) maxBatch now ids events none
        b).2.db.ledger := congrArg (fun x => x.2.db.ledger) hsame
    rw [hledger, postOpenlineageBatch_backend hle hne] at hrows
    have hnew := derivedKeys_new (R := R) hderived
    rw [← hkeys] at hnew
    rcases ingestBatch_ledger (R := R) now hb hne hitems hnew with ⟨_, _, hok, -⟩ | ⟨_, -, hl⟩
    · rw [herr] at hok
      cases hok
    · rw [Option.map_none, hl] at hrows
      omega
  · by_contra hmany
    obtain ⟨hone, hh⟩ := not_or.1 hmany
    obtain ⟨items, hitems, hkeys, -⟩ := headerItems R ids hne (some (latin1 header))
    have hnew := headerKeys_new (R := R) hheader hderived
    rw [← hkeys] at hnew
    rw [postOpenlineageBatch_backend hle hne, Option.map_some] at hrows
    rcases ingestBatch_ledger (R := R) now hb hne hitems hnew with ⟨_, _, -, -, hl⟩ | ⟨_, -, hl⟩
    · rw [hl, hkeys, headerKeys_dedup hne hh] at hrows
      omega
    · rw [hl] at hrows
      omega

include hb in
/-- One event with a new key: the key is in one row, and all else is as with any other key. -/
theorem ingestBatch_single (now : ClockText) (event : RunEvent) (hids : FreshIds b.db ids 1) (key : Option Str)
    (hk : (event.resolvedKey R key).encodable = true)
    (hnew : existingEvent b.db (event.resolvedKey R key) = none) :
    let w := acknowledged (PyLib.json sha256 loads limit) b.session.view now ⟨[], ids 0, event.modelDump⟩
      (event.modelDump.dumps true)
    let c := (recordAll R [event] [⟨ids 0, [], true, false⟩]).run (PyLib.json sha256 loads limit)
      { b with session := ⟨w, w⟩ }
    (ingestBatch R now ids [event] (headerKeys 1 key)).run (PyLib.json sha256 loads limit) b =
      (c.1, c.2.rekeyed (b.db.idempotency ++ [⟨event.resolvedKey R key, ids 0, now.text⟩])) := by
  intro w c
  have hitems : batchItems R ids [event] (ingestKeys [event] (headerKeys 1 key)) 0 =
      .ok [⟨event.resolvedKey R key, ids 0, event.modelDump⟩] := by
    match key with
    | none => rfl
    | some [] => rfl
    | some (_ :: _) => rfl
  have hfits : Fits (PyLib.json sha256 loads limit) b.db ⟨event.resolvedKey R key, ids 0, event.modelDump⟩ :=
    fits_of_fresh hb hids List.mem_cons_self
  obtain ⟨log, hrun⟩ := hb
  obtain ⟨t, hp, ha⟩ := (fits_iff (v := b.session.view) hrun.chainInv hk hnew).1 hfits
  have hack := acknowledgeBody_single now hk hnew hp ha
  cases hp
  rcases ingestBatch_cases now (by simp) hitems b with ⟨e, he, -⟩ | ⟨rs, u, he, h⟩
  · rw [hack] at he
    cases he
  · rw [hack] at he
    cases he
    rw [h]
    exact run_rekeyed (uses_recordAll [event] [⟨ids 0, [], true, false⟩])
      (b.db.idempotency ++ [⟨event.resolvedKey R key, ids 0, now.text⟩]) { b with session := ⟨w, w⟩ }

include hb hheader hderived hids in
/-- A batch of one event does the same with and without the header, but for the key. -/
theorem postOpenlineageBatch_single (hle : (events.length : ℤ) ≤ maxBatch) {event : RunEvent}
    (hevents : events = [event]) (henc : (event.runId R).encodable = true) :
    ∃ keys, postOpenlineageBatch R (PyLib.json sha256 loads limit) maxBatch now ids events (some header) b =
      ((postOpenlineageBatch R (PyLib.json sha256 loads limit) maxBatch now ids events none b).1,
        (postOpenlineageBatch R (PyLib.json sha256 loads limit) maxBatch now ids events none b).2.rekeyed
          keys) := by
  subst hevents
  have hwith := ingestBatch_single hb now event hids (some (latin1 header)) (headerKey_encodable header henc)
    (headerKeys_new hheader hderived _ List.mem_cons_self)
  have hwithout := ingestBatch_single hb now event hids none
    (by rw [resolvedKey_none, derivedKey_encodable, henc]) (derivedKeys_new hderived _ List.mem_cons_self)
  refine ⟨b.db.idempotency ++ [⟨event.resolvedKey R (some (latin1 header)), ids 0, now.text⟩], ?_⟩
  rw [postOpenlineageBatch, postOpenlineageBatch, if_neg (not_lt.2 hle), if_neg (not_lt.2 hle),
    if_neg (by simp), if_neg (by simp), List.length_singleton, Option.map_some, Option.map_none, hwith,
    hwithout]
  generalize (recordAll R [event] _).run _ _ = c
  obtain ⟨result, c⟩ := c
  cases result <;> rfl

include hb hne hdiff hheader hderived hids in
theorem losesNoEvent_of_condition (hle : (events.length : ℤ) ≤ maxBatch)
    (hlimit : limit.allows events.length = true)
    (henc : ∀ e ∈ events, (e.runId R).encodable = true) (hone : events.length = 1 ∨ header = []) :
    LosesNoEvent R (PyLib.json sha256 loads limit) maxBatch now ids events header b := by
  obtain ⟨items, hitems, hkeys, hitemIds⟩ := headerItems R ids hne (some (latin1 header))
  have hkeyEnc : ∀ item ∈ items, item.idempotencyKey.encodable = true := by
    intro item hitem
    have hmem := List.mem_map_of_mem (f := BatchWriteItem.idempotencyKey) hitem
    rw [hkeys] at hmem
    obtain ⟨e, he, hk⟩ := List.mem_map.1 hmem
    rw [← hk]
    exact headerKey_encodable header (henc e he)
  have haccepts : limit.accepts (items.map BatchWriteItem.idempotencyKey) = true := by
    rw [VariableLimit.accepts, List.length_map, batchItems_length hitems, hlimit, Bool.true_and]
    exact List.all_eq_true.2 (List.forall_mem_map.2 hkeyEnc)
  obtain ⟨rs, w, hloop⟩ := (storable_loop hb now hkeyEnc).2 (storable_of_fresh hb hids hitemIds hkeyEnc)
  rw [← acknowledgeBody_eval haccepts] at hloop
  have hnew := headerKeys_new (R := R) hheader hderived
  rw [← hkeys] at hnew
  have hcount : (items.map BatchWriteItem.idempotencyKey).dedup.length = events.length := by
    rw [hkeys]
    exact headerKeys_count hne hdiff hone
  rcases ingestBatch_ledger (R := R) now hb hne hitems hnew with ⟨rs', w', hok, hi, hl⟩ | ⟨e, herr, -⟩
  · refine ⟨?_, ?_, fun now' ids' => ?_⟩
    · rw [postOpenlineageBatch_backend hle hne, Option.map_some, hl, hcount]
    · rcases hone with hone | rfl
      · obtain ⟨event, hevent⟩ := List.length_eq_one_iff.1 hone
        exact postOpenlineageBatch_single hb hheader hderived hids hle hevent
          (henc event (by rw [hevent]; exact List.mem_cons_self))
      · have hempty : postOpenlineageBatch R (PyLib.json sha256 loads limit) maxBatch now ids events (some []) b =
            postOpenlineageBatch R (PyLib.json sha256 loads limit) maxBatch now ids events none b := rfl
        obtain ⟨log, hrun⟩ := run_reachable hb (ingestBatch R now ids events (headerKeys events.length none))
        refine ⟨_, hempty.trans (Prod.ext rfl (rekeyed_self ?_).symm)⟩
        rw [postOpenlineageBatch_backend hle hne]
        exact hrun.settled
    · intro b' b''
      have hb' : b' = _ := postOpenlineageBatch_backend hle hne (some header)
      have hb'' : b'' = _ := postOpenlineageBatch_backend hle hne (some header)
      rw [Option.map_some] at hb' hb''
      rw [← hb'] at hi
      have hknown := ingestBatch_known now' ids' b' hne hitems hok hi
      rw [hknown] at hb''
      rw [hb'']
      exact ⟨rfl, rfl⟩
  · rw [hloop] at herr
    cases herr

end Hypotheses

/-- **A header loses no event exactly when it names one.** Let the events of a batch differ in their
runs or types, and let the header and the keys derived from the events be new. Then the batch adds
one ledger row for each event, records what it records without the header, and adds nothing when it
is repeated, if and only if it is not too large, for the service or for the lookup of its keys, its run
ids can be encoded, and it has one event or the header is empty. -/
theorem postOpenlineageBatch_iff (hb : Reachable (PyLib.json sha256 loads limit) b) (now : ClockText)
    (hne : events ≠ []) (hdiff : (events.map fun e => (e.runId R, e.eventType)).Nodup)
    (hheader : ∀ q ∈ b.db.idempotency, q.idempotencyKey ≠ latin1 header)
    (hderived : ∀ e ∈ events, ∀ q ∈ b.db.idempotency, q.idempotencyKey ≠ e.derivedKey R)
    (hids : FreshIds b.db ids events.length) :
    LosesNoEvent R (PyLib.json sha256 loads limit) maxBatch now ids events header b ↔
      (events.length : ℤ) ≤ maxBatch ∧ limit.allows events.length = true ∧
        (∀ e ∈ events, (e.runId R).encodable = true) ∧ (events.length = 1 ∨ header = []) :=
  ⟨fun h => h.condition hb hne hheader hderived, fun ⟨hle, hlimit, henc, hone⟩ =>
    losesNoEvent_of_condition hb hne hdiff hheader hderived hids hle hlimit henc hone⟩

/-! ## One event, and two -/

def uuids (i : ℕ) : Str := lit "00000000-0000-4000-8000-00000000000" ++ natText i

/-- The header `key`. -/
def keyHeader : HeaderValue := [107, 101, 121]

/-- One event with a header, and two with an empty one. -/
theorem postOpenlineageBatch_iff_one :
    LosesNoEvent .fixed PyLib.fixed 100 .fixed uuids [copyOf (lit "r")] keyHeader .empty ∧
      LosesNoEvent .fixed PyLib.fixed 100 .fixed uuids [copyOf (lit "r"), copyOf (lit "s")] [] .empty :=
  ⟨(postOpenlineageBatch_iff ⟨[], .nil⟩ .fixed (by simp) (by simp)
      (fun q hq => (List.not_mem_nil hq).elim) (fun e _ q hq => (List.not_mem_nil hq).elim)
      ⟨by decide, by decide, by decide⟩).2 ⟨by decide, by decide, by decide, .inl rfl⟩,
    (postOpenlineageBatch_iff ⟨[], .nil⟩ .fixed (by simp) (by decide)
      (fun q hq => (List.not_mem_nil hq).elim) (fun e _ q hq => (List.not_mem_nil hq).elim)
      ⟨by decide, by decide, by decide⟩).2 ⟨by decide, by decide, by decide, .inr rfl⟩⟩

/-- **With a header the second event of a batch is lost.** -/
theorem postOpenlineageBatch_loses :
    let post := fun header => postOpenlineageBatch .fixed PyLib.fixed 100 .fixed uuids
      [copyOf (lit "r"), copyOf (lit "s")] header .empty
    (post (some keyHeader)).2.db.ledger.length = 1 ∧ (post none).2.db.ledger.length = 2 ∧
      (post (some keyHeader)).2.db.datasetEdges.length = 1 ∧ (post none).2.db.datasetEdges.length = 2 ∧
      ¬ LosesNoEvent .fixed PyLib.fixed 100 .fixed uuids
        [copyOf (lit "r"), copyOf (lit "s")] keyHeader .empty := by
  intro post
  have hone : (post (some keyHeader)).2.db.ledger.length = 1 := by decide +kernel
  refine ⟨hone, by decide +kernel, by decide +kernel, by decide +kernel, fun h => ?_⟩
  have hrows := h.rows
  rw [show (postOpenlineageBatch .fixed PyLib.fixed 100 _ uuids _ (some keyHeader) .empty) =
    post (some keyHeader) from rfl, hone] at hrows
  cases hrows

end LineageVault
