import LineageVault.Storage.Recovery
import LineageVault.TimeTravel.Ingests
import LineageVault.TimeTravel.Query

/-! # When a snapshot is answered

An entry of an OpenLineage event has no `timestamp`, so the query takes it to be of 1970-01-01, without
an offset; the edges of such an event always have an offset. A legacy event puts its own time in both
places. So whether a query returns depends on the kinds of the stored times alone
(`snapshot_returns`), and the route fails on them and on every timestamp with the suffix `Z`
(`getSnapshot_answers_iff`).
-/

namespace LineageVault
set_option autoImplicit false

/-! ## Stored times -/

/-- The date of the default `"1970-01-01"`. -/
def epoch : DateTime := ⟨1970, 1, 1, 0, 0, 0, 0, none⟩

theorem fromisoformat_epoch : fromisoformat (lit "1970-01-01") = .ok epoch := by rfl

theorem le_eq {s t : DateTime} (h : s.aware = t.aware) : s.le t = .ok (s.instant ≤ t.instant) := if_pos h

theorem le_returns {s t : DateTime} : (∃ seen, s.le t = .ok seen) ↔ s.aware = t.aware := by
  constructor
  · rintro ⟨seen, h⟩
    by_contra hne
    rw [DateTime.le, if_neg hne] at h
    cases h
  · exact fun h => ⟨_, le_eq h⟩

theorem assumeUtc_valid {t : DateTime} (h : t.valid = true) : t.assumeUtc.valid = true := h

namespace AnyEvent

/-- The time the query takes an entry of the event to have. -/
def entryTime : AnyEvent → DateTime
  | .legacy event => event.timestamp
  | .openlineage _ => epoch

/-- An entry of the event is shown for the dataset, once it is not later. -/
def shows (datasetId : Str) : AnyEvent → Bool
  | .legacy event => event.transform.outputDataset = datasetId
  | .openlineage _ => true

/-- The time of its entries has an offset. -/
def entryAware : AnyEvent → Bool
  | .legacy event => event.timestamp.aware
  | .openlineage _ => false

/-- The time of its edges has an offset. -/
def edgeAware : AnyEvent → Bool
  | .legacy event => event.timestamp.aware
  | .openlineage _ => true

theorem entryTime_aware (x : AnyEvent) : x.entryTime.aware = x.entryAware := by
  cases x <;> rfl

theorem edgeTime_aware (x : AnyEvent) : x.edgeTime.aware = x.edgeAware := by
  cases x <;> rfl

theorem edgeTime_valid {x : AnyEvent} (h : x.time.valid = true) : x.edgeTime.valid = true := by
  cases x with
  | legacy event => exact h
  | openlineage event => exact assumeUtc_valid h

end AnyEvent

/-- What json reads of the texts that the event is written in, and its time is a date. -/
structure Readable (loads : Str → Except PyErr Json) (x : AnyEvent) : Prop where
  entry : ReadBack loads x.payload
  edge : ∃ q, loads (x.payload.dumps false) = .ok q
  time : x.time.valid = true

/-- The keys that `_persist_event` adds to the payload. -/
theorem legacy_lookup (event : LineageEvent) : ∃ fields, event.payload = .obj fields ∧
    fields.lookup (lit "timestamp") = some (.str event.timestamp.isoformat) ∧
    fields.lookup (lit "output_dataset") = some (.str event.transform.outputDataset) := by
  refine ⟨_, rfl, ?_, ?_⟩
  · rw [lookup_set, if_pos rfl]
  · rw [lookup_set, if_neg (by decide), lookup_set, if_neg (by decide), lookup_set, if_pos rfl]

section Rows
variable {x : AnyEvent} {q : Json}

theorem eventShown_of {payload timestamp output : Json} {time : DateTime}
    (htimestamp : payload.get (lit "timestamp") (.str (lit "1970-01-01")) = .ok timestamp)
    (houtput : payload.get (lit "output_dataset") .null = .ok output) (htime : timeOfJson timestamp = .ok time)
    (datasetId : Str) (atTime : DateTime) : eventShown datasetId atTime payload =
      (time.le atTime).map fun seen => seen && isDatasetOrNone datasetId output := by
  rw [eventShown, htimestamp, houtput]
  change (timeOfJson timestamp >>= _) = _
  rw [htime]
  change (time.le atTime >>= _) = _
  cases time.le atTime with
  | error e => rfl
  | ok seen => cases seen <;> rfl

theorem eventShown_eq (htime : x.time.valid = true) (hq : q.Same x.payload) (datasetId : Str)
    (atTime : DateTime) : eventShown datasetId atTime q =
      (x.entryTime.le atTime).map fun seen => seen && x.shows datasetId := by
  cases x with
  | legacy event =>
    obtain ⟨fields, hfields, htimestamp, houtput⟩ := legacy_lookup event
    have hq : q.Same (.obj fields) := by
      rw [← hfields]
      exact hq
    have hvalid : event.timestamp.valid = true := htime
    have hread : timeOfJson (.str event.timestamp.isoformat) = .ok event.timestamp := by
      rw [timeOfJson, fromisoformat_isoformat hvalid]
    exact eventShown_of (same_get_str hq htimestamp _) (same_get_str hq houtput _) hread datasetId atTime
  | openlineage event =>
    have hread : timeOfJson (.str (lit "1970-01-01")) = .ok epoch := by
      rw [timeOfJson, fromisoformat_epoch]
    exact eventShown_of (same_get_none hq rfl _) (same_get_none hq rfl _) hread datasetId atTime

theorem edgeSeen_eq {r : EdgeRow} (htime : x.time.valid = true) (hr : x.IsEdge r) (atTime : DateTime) :
    edgeSeen atTime r = x.edgeTime.le atTime := by
  rw [edgeSeen, hr.time, fromisoformat_isoformat (AnyEvent.edgeTime_valid htime)]
  rfl

end Rows

/-! ## The query -/

/-- The times of all rows are of one kind with `at`: they have an offset, or they have none. -/
structure Comparable (events : List AnyEvent) (atTime : DateTime) (b : Backend) : Prop where
  entries : ∀ x ∈ events, ∀ r ∈ b.db.ledger, x.IsEntry r → x.entryAware = atTime.aware
  edges : ∀ x ∈ events, ∀ r ∈ b.db.datasetEdges, x.IsEdge r → x.edgeAware = atTime.aware

section Query
variable {sha256 : Str → Digest} {loads : Str → Except PyErr Json} {limit : VariableLimit}
  {events : List AnyEvent} {b : Backend}

theorem entry_event (h : Extends events .empty b) {r : LedgerRow} (hr : r ∈ b.db.ledger) :
    ∃ x ∈ events, x.IsEntry r := by
  obtain ⟨rows, hrows, hall⟩ := h.ledger
  rw [show b.db.ledger = rows from hrows] at hr
  exact hall r hr

theorem edge_event (h : Extends events .empty b) {r : EdgeRow} (hr : r ∈ b.db.datasetEdges) :
    ∃ x ∈ events, x.IsEdge r := by
  obtain ⟨rows, hrows, hall⟩ := h.edges
  rw [show b.db.datasetEdges = rows from hrows] at hr
  exact hall r hr

variable (sha256 limit) in
theorem readEntry_event {x : AnyEvent} {r : LedgerRow} (hx : Readable loads x) (hr : x.IsEntry r) :
    ∃ e, Backend.readEntry (PyLib.json sha256 loads limit) r = .ok e ∧ e.payload.Same x.payload := by
  obtain ⟨q, hq, -, hsame⟩ := hx.entry
  rw [← show r.payload = x.payload.dumps true from hr] at hq
  have hloads : (PyLib.json sha256 loads limit).loads r.payload = .ok q := hq
  exact ⟨⟨r.seq, r.eventId, q, r.prevHash, r.entryHash⟩, by rw [Backend.readEntry, hloads]; rfl, hsame⟩

theorem readEntry_same {x : AnyEvent} {r : LedgerRow} {e : LedgerEntry Json} (hx : Readable loads x)
    (hr : x.IsEntry r) (h : Backend.readEntry (PyLib.json sha256 loads limit) r = .ok e) :
    e.payload.Same x.payload := by
  obtain ⟨e', he', hsame⟩ := readEntry_event sha256 limit hx hr
  rw [h] at he'
  cases he'
  exact hsame

theorem readEdge_event {x : AnyEvent} {r : EdgeRow} (hx : Readable loads x) (hr : x.IsEdge r) :
    ∃ e, readEdge (PyLib.json sha256 loads limit) r = .ok e := by
  obtain ⟨q, hq⟩ := hx.edge
  rw [← hr.payload] at hq
  have hloads : (PyLib.json sha256 loads limit).loads r.payload = .ok q := hq
  exact ⟨⟨r.src, r.dst, r.transformId, r.eventTime, r.schemaVersion, q⟩, by rw [readEdge, hloads]; rfl⟩

variable (sha256 limit) in
theorem entries_read (hread : ∀ x ∈ events, Readable loads x) (h : Extends events .empty b) :
    ∃ entries, b.allLedgerEntries (PyLib.json sha256 loads limit) = .ok entries := by
  refine mapM_total fun r hr => ?_
  obtain ⟨x, hx, hentry⟩ := entry_event h ((mem_orderBySeq _ r).1 hr)
  obtain ⟨e, he, -⟩ := readEntry_event sha256 limit (hread x hx) hentry
  exact ⟨e, he⟩

/-- The entries that are read, and the events they are of. -/
theorem entry_of_read (hread : ∀ x ∈ events, Readable loads x) (h : Extends events .empty b)
    {entries : List (LedgerEntry Json)}
    (hentries : b.allLedgerEntries (PyLib.json sha256 loads limit) = .ok entries)
    {e : LedgerEntry Json} (he : e ∈ entries) :
    ∃ x ∈ events, e.payload.Same x.payload ∧ ∃ r ∈ b.db.ledger, x.IsEntry r := by
  obtain ⟨r, hr, hre⟩ := mem_of_mapM hentries he
  have hr := (mem_orderBySeq _ r).1 hr
  obtain ⟨x, hx, hentry⟩ := entry_event h hr
  exact ⟨x, hx, readEntry_same (hread x hx) hentry hre, r, hr, hentry⟩

theorem read_of_entry (hread : ∀ x ∈ events, Readable loads x) {x : AnyEvent} (hx : x ∈ events)
    {entries : List (LedgerEntry Json)}
    (hentries : b.allLedgerEntries (PyLib.json sha256 loads limit) = .ok entries)
    {r : LedgerRow} (hr : r ∈ b.db.ledger) (hentry : x.IsEntry r) :
    ∃ e ∈ entries, e.payload.Same x.payload := by
  obtain ⟨e, he, hre⟩ := mapM_of_mem hentries ((mem_orderBySeq _ r).2 hr)
  exact ⟨e, he, readEntry_same (hread x hx) hentry hre⟩

variable (sha256 limit) in
/-- **The query returns unless it compares times of two kinds.** -/
theorem snapshot_returns (hread : ∀ x ∈ events, Readable loads x) (h : Extends events .empty b)
    (datasetId : Str) (atTime : DateTime) :
    (∃ s, b.snapshot (PyLib.json sha256 loads limit) datasetId atTime = .ok s) ↔ Comparable events atTime b := by
  obtain ⟨entries, hentries⟩ := entries_read sha256 limit hread h
  have hentry : ∀ x ∈ events, ∀ q : Json, q.Same x.payload →
      ((∃ shown, eventShown datasetId atTime q = .ok shown) ↔ x.entryAware = atTime.aware) := by
    intro x hx q hq
    rw [eventShown_eq (hread x hx).time hq, ← AnyEvent.entryTime_aware, ← le_returns]
    cases x.entryTime.le atTime with
    | error e => exact iff_of_false (by rintro ⟨_, hs⟩; cases hs) (by rintro ⟨_, hs⟩; cases hs)
    | ok seen => exact iff_of_true ⟨_, rfl⟩ ⟨seen, rfl⟩
  have hedge : ∀ x ∈ events, ∀ r, x.IsEdge r →
      ((∃ seen, edgeSeen atTime r = .ok seen) ↔ x.edgeAware = atTime.aware) := by
    intro x hx r hr
    rw [edgeSeen_eq (hread x hx).time hr, ← AnyEvent.edgeTime_aware, le_returns]
  constructor
  · rintro ⟨s, hs⟩
    obtain ⟨edges, hedges, hs⟩ := bind_eq_ok.1 hs
    obtain ⟨entries', hentries', hs⟩ := bind_eq_ok.1 hs
    obtain ⟨shown, hshown, -⟩ := bind_eq_ok.1 hs
    rw [hentries] at hentries'
    cases hentries'
    refine ⟨fun x hx r hr hxr => ?_, fun x hx r hr hxr => ?_⟩
    · obtain ⟨e, he, hsame⟩ := read_of_entry hread hx hentries hr hxr
      exact (hentry x hx _ hsame).1 (comprehension_tested hshown e he)
    · exact (hedge x hx r hxr).1 (comprehension_tested hedges r hr)
  · intro hc
    have hedges : ∃ edges, b.edgesAt (PyLib.json sha256 loads limit) atTime = .ok edges := by
      refine comprehension_total (fun r hr => ?_) fun r hr => ?_
      · obtain ⟨x, hx, hxr⟩ := edge_event h hr
        exact (hedge x hx r hxr).2 (hc.edges x hx r hr hxr)
      · obtain ⟨x, hx, hxr⟩ := edge_event h hr
        exact readEdge_event (hread x hx) hxr
    obtain ⟨edges, hedges⟩ := hedges
    have hevents : ∃ shown, comprehension (fun e : LedgerEntry Json => eventShown datasetId atTime e.payload)
        (fun e => .ok e.payload) entries = .ok shown := by
      refine comprehension_total (fun e he => ?_) fun e _ => ⟨_, rfl⟩
      obtain ⟨x, hx, hsame, r, hr, hxr⟩ := entry_of_read hread h hentries he
      exact (hentry x hx _ hsame).2 (hc.entries x hx r hr hxr)
    obtain ⟨shown, hshown⟩ := hevents
    refine ⟨_, bind_eq_ok.2 ⟨edges, hedges, bind_eq_ok.2 ⟨entries, hentries, bind_eq_ok.2 ⟨shown, hshown, rfl⟩⟩⟩⟩

end Query

/-! ## The route -/

/-- `fromisoformat` reads it. -/
def IsTimestamp (s : Str) : Prop := ∃ t, fromisoformat s = .ok t

/-- A snapshot, or 400 `invalid_timestamp`. -/
def Answered : Except ApiError Snapshot → Prop
  | .ok _ => True
  | .error (.http status error _) => status = 400 ∧ error = lit "invalid_timestamp"
  | .error (.raised _) => False

/-- The same answer; the message may differ, it names the timestamp. -/
def Alike : Except ApiError Snapshot → Except ApiError Snapshot → Prop
  | .ok s, .ok s' => s = s'
  | .error (.http status error _), .error (.http status' error' _) => status = status' ∧ error = error'
  | _, _ => False

section Route
variable {py : PyLib Json} {message : Str → Str} {datasetId : Str} {b : Backend}

theorem fromisoformat_cases (s : Str) :
    (∃ t, fromisoformat s = .ok t) ∨ fromisoformat s = .error .valueError := by
  unfold fromisoformat
  cases readDateTime s with
  | some t => exact .inl ⟨t, rfl⟩
  | none => exact .inr rfl

theorem readAt_zulu (t : Str) :
    readAt (t ++ lit "Z") = (fromisoformat t >>= fun _ => .error .attributeError) := by
  have hlast : (t ++ lit "Z").getLast? = some (.scalar 'Z') := List.getLast?_concat
  have hrest : (t ++ lit "Z").dropLast = t := List.dropLast_concat
  rw [readAt, if_pos hlast, hrest]
  rfl

theorem readAt_other {atText : Str} (h : ∀ t, atText ≠ t ++ lit "Z") : readAt atText = fromisoformat atText := by
  rw [readAt, if_neg]
  intro hlast
  obtain ⟨t, ht⟩ := List.getLast?_eq_some_iff.1 hlast
  exact h t ht

theorem getSnapshot_invalid {atText : Str} (h : readAt atText = .error .valueError) :
    b.getSnapshot py message datasetId atText =
      .error (.http 400 (lit "invalid_timestamp") (message atText)) := by
  rw [Backend.getSnapshot, h]

variable (py message datasetId b) in
theorem getSnapshot_zulu (t : Str) :
    (IsTimestamp t ∧ b.getSnapshot py message datasetId (t ++ lit "Z") = .error (.raised .attributeError)) ∨
    (¬ IsTimestamp t ∧ b.getSnapshot py message datasetId (t ++ lit "Z") =
      .error (.http 400 (lit "invalid_timestamp") (message (t ++ lit "Z")))) := by
  rcases fromisoformat_cases t with ⟨ts, ht⟩ | ht
  · refine .inl ⟨⟨ts, ht⟩, ?_⟩
    have hread : readAt (t ++ lit "Z") = .error .attributeError := by
      rw [readAt_zulu, ht]
      rfl
    rw [Backend.getSnapshot, hread]
  · refine .inr ⟨?_, getSnapshot_invalid ?_⟩
    · rintro ⟨ts, hts⟩
      rw [ht] at hts
      cases hts
    · rw [readAt_zulu, ht]
      rfl

variable (py message datasetId b) in
theorem getSnapshot_other {atText : Str} (h : ∀ t, atText ≠ t ++ lit "Z") :
    (∃ ts, fromisoformat atText = .ok ts ∧
      b.getSnapshot py message datasetId atText = (b.snapshot py datasetId ts).mapError .raised) ∨
    (¬ IsTimestamp atText ∧ b.getSnapshot py message datasetId atText =
      .error (.http 400 (lit "invalid_timestamp") (message atText))) := by
  rcases fromisoformat_cases atText with ⟨ts, hts⟩ | hts
  · exact .inl ⟨ts, hts, by rw [Backend.getSnapshot, readAt_other h, hts]⟩
  · refine .inr ⟨?_, getSnapshot_invalid (by rw [readAt_other h, hts])⟩
    rintro ⟨ts, h'⟩
    rw [hts] at h'
    cases h'

theorem answered_mapError (x : Except PyErr Snapshot) :
    Answered (x.mapError .raised) ↔ ∃ s, x = .ok s := by
  cases x with
  | ok s => exact iff_of_true trivial ⟨s, rfl⟩
  | error e => exact iff_of_false id (by rintro ⟨s, hs⟩; cases hs)

theorem zero_ne_zulu (t s : Str) : t ++ lit "+00:00" ≠ s ++ lit "Z" := by
  intro h
  have hzero : (lit "+00:00").getLast? = some (.scalar '0') := rfl
  have hzulu : (lit "Z").getLast? = some (.scalar 'Z') := rfl
  have hlast := congrArg List.getLast? h
  rw [List.getLast?_append, List.getLast?_append, hzero, hzulu, Option.some_or, Option.some_or] at hlast
  exact absurd hlast (by decide)

/-- A timestamp with the suffix `Z` is never answered. -/
theorem zulu_iff (t : Str) :
    (Answered (b.getSnapshot py message datasetId (t ++ lit "Z")) ∧
      Alike (b.getSnapshot py message datasetId (t ++ lit "Z"))
        (b.getSnapshot py message datasetId (t ++ lit "+00:00"))) ↔
      ¬ IsTimestamp t ∧ ¬ IsTimestamp (t ++ lit "+00:00") := by
  rcases getSnapshot_zulu py message datasetId b t with
    ⟨ht, h⟩ | ⟨ht, h⟩
  · rw [h]
    exact iff_of_false (fun h => h.1) fun h => h.1 ht
  · rw [h]
    rcases getSnapshot_other py message datasetId b (zero_ne_zulu t) with ⟨ts, hts, h'⟩ | ⟨hts, h'⟩
    · rw [h']
      refine iff_of_false (fun hboth => ?_) fun hneither => hneither.2 ⟨ts, hts⟩
      cases hs : b.snapshot py datasetId ts with
      | ok s => rw [hs] at hboth; exact hboth.2
      | error e => rw [hs] at hboth; exact hboth.2
    · rw [h']
      exact iff_of_true ⟨⟨rfl, rfl⟩, rfl, rfl⟩ ⟨ht, hts⟩

end Route

/-- **When a snapshot is answered.** The query returns exactly if all stored times are of one kind with
`at`; so does the route for a timestamp without the suffix `Z`, and one with it is never answered. -/
theorem getSnapshot_answers_iff (R : Rendering) (sha256 : Str → Digest) (loads : Str → Except PyErr Json)
    (limit : VariableLimit)
    (message : Str → Str) (calls : List EngineCall) (datasetId : Str)
    (hread : ∀ x ∈ calls.flatMap EngineCall.anyEvents, Readable loads x) :
    let py := PyLib.json sha256 loads limit
    let events := calls.flatMap EngineCall.anyEvents
    let b := vault R py calls .empty
    (∀ atTime, (∃ s, b.snapshot py datasetId atTime = .ok s) ↔ Comparable events atTime b) ∧
    (∀ atText, (∀ t, atText ≠ t ++ lit "Z") →
      (Answered (b.getSnapshot py message datasetId atText) ↔
        ∀ ts, fromisoformat atText = .ok ts → Comparable events ts b)) ∧
    ∀ t, (Answered (b.getSnapshot py message datasetId (t ++ lit "Z")) ∧
      Alike (b.getSnapshot py message datasetId (t ++ lit "Z"))
        (b.getSnapshot py message datasetId (t ++ lit "+00:00"))) ↔
      ¬ IsTimestamp t ∧ ¬ IsTimestamp (t ++ lit "+00:00") := by
  intro py events b
  have hextends : Extends events .empty b := vault_extends R sha256 loads limit calls ⟨rfl, rfl⟩
  have hreturns := snapshot_returns sha256 limit hread hextends datasetId
  refine ⟨hreturns, fun atText hother => ?_, zulu_iff⟩
  rcases getSnapshot_other py message datasetId b hother with
    ⟨ts, hts, h⟩ | ⟨hts, h⟩
  · rw [h, answered_mapError, hreturns]
    constructor
    · intro hc ts' hts'
      rw [hts] at hts'
      cases hts'
      exact hc
    · exact fun hc => hc ts hts
  · rw [h]
    exact iff_of_true ⟨rfl, rfl⟩ fun ts hts' => (hts ⟨ts, hts'⟩).elim

/-! ## A run that has started -/

def started : RunEvent where
  eventType := .start
  eventTime := ⟨2026, 1, 2, 0, 0, 0, 0, some 0⟩
  run := []
  job := []
  inputs := []
  outputs := [table (lit "b")]
  producer := lit "p"

/-- What json reads of its text, which has the keys in order. -/
def readStarted : Json :=
  .obj [(lit "eventTime", .str started.eventTime.jsonText), (lit "eventType", .str (lit "START")),
    (lit "inputs", .arr []), (lit "job", .obj []),
    (lit "outputs", .arr [.obj [(lit "name", .str (lit "b")), (lit "namespace", .str (lit "db"))]]),
    (lit "producer", .str (lit "p")), (lit "run", .obj [])]

def loadsStarted (text : Str) : Except PyErr Json :=
  if text = started.modelDump.dumps true then .ok readStarted
  else if text = started.modelDump.dumps false then .ok started.modelDump
  else .error .valueError

def startedLib : PyLib Json := .json PyLib.fixed.sha256 loadsStarted .sqlite

def startedCalls : List EngineCall := [.ingest .fixed (fun _ => lit "e") started none]

def startedVault : Backend := vault .fixed startedLib startedCalls .empty

theorem readable_started : ∀ x ∈ startedCalls.flatMap EngineCall.anyEvents, Readable loadsStarted x := by
  intro x hx
  rw [List.mem_singleton.1 hx]
  have hkeys : [lit "eventTime", lit "eventType", lit "inputs", lit "job", lit "outputs", lit "producer",
      lit "run"].Nodup := by decide
  have hnames : [lit "name", lit "namespace"].Nodup := by decide
  have hentry : loadsStarted (started.modelDump.dumps true) = .ok readStarted := by
    rw [loadsStarted, if_pos rfl]
  have hedge : loadsStarted (started.modelDump.dumps false) = .ok started.modelDump := by
    rw [loadsStarted, if_neg (by decide), if_pos rfl]
  refine ⟨⟨readStarted, hentry, ⟨hkeys, ?_⟩, ?_, ?_⟩, ⟨started.modelDump, hedge⟩, by decide⟩
  · exact ⟨trivial, trivial, trivial, ⟨.nil, trivial⟩, ⟨⟨hnames, trivial, trivial, trivial⟩, trivial⟩, trivial,
      ⟨.nil, trivial⟩, trivial⟩
  · decide
  · exact ⟨⟨_, rfl, rfl⟩, ⟨_, rfl, rfl⟩, ⟨_, rfl, trivial⟩, ⟨_, rfl, by decide, trivial⟩,
      ⟨_, rfl, ⟨by decide, ⟨_, rfl, rfl⟩, ⟨_, rfl, rfl⟩, trivial⟩, trivial⟩,
      ⟨_, rfl, rfl⟩, ⟨_, rfl, by decide, trivial⟩, trivial⟩

/-- A naive time is answered. -/
theorem getSnapshot_answers_started :
    ∃ s, startedVault.snapshot startedLib (lit "d") ⟨2026, 1, 3, 0, 0, 0, 0, none⟩ = .ok s := by
  have hedges : startedVault.db.datasetEdges = [] := by decide +kernel
  refine ((getSnapshot_answers_iff .fixed _ _ _ (fun s => s) startedCalls (lit "d") readable_started).1 _).2 ⟨?_, ?_⟩
  · intro x hx r _ _
    rw [List.mem_singleton.1 hx]
    rfl
  · intro x _ r hr _
    change r ∈ startedVault.db.datasetEdges at hr
    rw [hedges] at hr
    cases hr

/-- Once a run has started no aware time is answered, and no timestamp with the suffix `Z` ever is. -/
theorem snapshot_unanswered :
    (startedVault.snapshot startedLib (lit "d") ⟨2026, 1, 3, 0, 0, 0, 0, some 0⟩).map Snapshot.datasetId =
      .error .typeError ∧
    (∃ s, Backend.empty.getSnapshot startedLib (fun s => s) (lit "d") (lit "2026-01-03T00:00:00+00:00") = .ok s) ∧
    Backend.empty.getSnapshot startedLib (fun s => s) (lit "d") (lit "2026-01-03T00:00:00Z") =
      .error (.raised .attributeError) := by
  refine ⟨by decide +kernel, ⟨_, rfl⟩, rfl⟩

end LineageVault
