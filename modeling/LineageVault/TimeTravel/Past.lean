import LineageVault.TimeTravel.Answers

/-! # What a snapshot shows

`past` is what a snapshot of a dataset should show of the ledger: the payloads with a time of their own
that is not later, and with the dataset among their outputs, in the shape of either path. The query reads
the keys of the legacy path only. So it shows legacy events as it should, and each event of the ingestor
from 1970 on, for every dataset (`showsPast_iff`); and an ingest that has no part in the past of a dataset
changes its snapshot as soon as the ingestor adds an entry (`snapshot_past_iff`).
-/

namespace LineageVault
set_option autoImplicit false

/-! ## The past of a dataset -/

/-- `s <= t`; without an offset a time is taken to be in UTC, as `_record_lineage` takes it. -/
def DateTime.notLater (s t : DateTime) : Bool := s.instant ≤ t.instant

def timeUnder (key : Str) (payload : Json) : Option DateTime :=
  match payload.get key .null with
  | .ok (.str s) => (fromisoformat s).toOption
  | _ => none

/-- `timestamp` for legacy events, `eventTime` for OpenLineage events. -/
def ownTime (payload : Json) : Option DateTime :=
  (timeUnder (lit "timestamp") payload).or (timeUnder (lit "eventTime") payload)

def dictOf : Json → Option Dict
  | .obj d => some d
  | _ => none

def ownOutputs (payload : Json) : List Str :=
  match payload.get (lit "output_dataset") .null, payload.get (lit "outputs") .null with
  | .ok (.str s), _ => [s]
  | _, .ok (.arr raws) => datasetNames (raws.filterMap dictOf)
  | _, _ => []

def past (datasetId : Str) (atTime : DateTime) (payload : Json) : Bool :=
  ((ownTime payload).any fun t => t.notLater atTime) && (ownOutputs payload).contains datasetId

/-- The payload of an event of the ingestor. -/
def lacksTimestamp (payload : Json) : Bool := (timeUnder (lit "timestamp") payload).isNone

def edgePast (atTime : DateTime) (r : EdgeRow) : Bool :=
  (fromisoformat r.eventTime).toOption.any fun t => t.notLater atTime

/-- The snapshot shows the past of the dataset and nothing else. -/
structure ShowsPast (py : PyLib Json) (datasetId : Str) (atTime : DateTime) (b : Backend) (s : Snapshot) :
    Prop where
  events : ∃ entries, b.allLedgerEntries py = .ok entries ∧
    s.events = (entries.filter fun e => past datasetId atTime e.payload).map LedgerEntry.payload
  edges : (b.db.datasetEdges.filter fun r => r.touches datasetId && edgePast atTime r).mapM (readEdge py) =
    .ok s.edges

/-! ## Payloads of either path -/

theorem timeUnder_str {payload : Json} {key s : Str} {t : DateTime} (hget : payload.get key .null = .ok (.str s))
    (ht : fromisoformat s = .ok t) : timeUnder key payload = some t := by
  rw [timeUnder, hget]
  simp only [ht]
  rfl

theorem timeUnder_none {payload : Json} {key : Str} (hget : payload.get key .null = .ok .null) :
    timeUnder key payload = none := by
  rw [timeUnder, hget]

theorem asStr_same {x y : Json} (h : x.Same y) : x.asStr = y.asStr := by
  cases y with
  | str s => rw [same_str h]
  | _ =>
    cases x with
    | str t => exact h.elim
    | _ => rfl

theorem datasetRef_same {d d' : Dict} (h : (Json.obj d).Same (.obj d')) (fields : List SchemaField) :
    datasetRef d fields = datasetRef d' fields := by
  have hget : ∀ k default, (d.get k (.str default)).asStr = (d'.get k (.str default)).asStr := by
    intro k default
    have hrel := same_lookup h k
    unfold Dict.get
    cases hd : d.lookup k with
    | none =>
      rw [hd] at hrel
      cases hd' : d'.lookup k with
      | none => rfl
      | some w => rw [hd'] at hrel; cases hrel
    | some v =>
      rw [hd] at hrel
      cases hd' : d'.lookup k with
      | none => rw [hd'] at hrel; cases hrel
      | some w =>
        rw [hd'] at hrel
        cases hrel with
        | some hvw => exact asStr_same hvw
  rw [datasetRef, datasetRef, hget, hget]

theorem datasetNames_same {xs : List Json} {raws : List Dict} (h : Json.sameItems xs (raws.map .obj)) :
    datasetNames (xs.filterMap dictOf) = datasetNames raws := by
  induction raws generalizing xs with
  | nil =>
    cases xs with
    | nil => rfl
    | cons x xs => exact h.elim
  | cons raw raws ih =>
    cases xs with
    | nil => exact h.elim
    | cons x xs =>
      obtain ⟨hx, hxs⟩ := h
      obtain ⟨d, rfl⟩ := same_obj hx
      have hhead : (Json.obj d :: xs).filterMap dictOf = d :: xs.filterMap dictOf := rfl
      rw [hhead, datasetNames, datasetNames, List.filterMap_cons, List.filterMap_cons, datasetRef_same hx]
      have htail := ih hxs
      rw [datasetNames, datasetNames] at htail
      rw [htail]

/-- The past, of an entry of the legacy path. -/
theorem past_legacy {event : LineageEvent} {q : Json} (hvalid : event.timestamp.valid = true)
    (hq : q.Same event.payload) (datasetId : Str) (atTime : DateTime) :
    lacksTimestamp q = false ∧ past datasetId atTime q =
      (event.timestamp.notLater atTime && (AnyEvent.legacy event).shows datasetId) := by
  obtain ⟨fields, hfields, htimestamp, houtput⟩ := legacy_lookup event
  have hq : q.Same (.obj fields) := by
    rw [← hfields]
    exact hq
  have htime : timeUnder (lit "timestamp") q = some event.timestamp :=
    timeUnder_str (same_get_str hq htimestamp _) (fromisoformat_isoformat hvalid)
  have houtputs : ownOutputs q = [event.transform.outputDataset] := by
    rw [ownOutputs, same_get_str hq houtput]
  refine ⟨by rw [lacksTimestamp, htime]; rfl, ?_⟩
  rw [past, ownTime, htime, houtputs, Option.some_or, Option.any_some]
  congr 1
  simp [AnyEvent.shows, eq_comm]

/-- The past, of an entry of the ingestor. -/
theorem past_openlineage {event : RunEvent} {q : Json} (hvalid : event.eventTime.valid = true)
    (hminutes : event.eventTime.offset.getD 0 % 60 = 0) (hq : q.Same event.modelDump) (datasetId : Str)
    (atTime : DateTime) :
    past datasetId atTime q =
      (event.eventTime.notLater atTime && (AnyEvent.openlineage event).outputs.contains datasetId) := by
  have hmissing : timeUnder (lit "timestamp") q = none := timeUnder_none (same_get_none hq rfl _)
  have htime : timeUnder (lit "eventTime") q = some event.eventTime :=
    timeUnder_str (same_get_str hq rfl _) (fromisoformat_jsonText hvalid hminutes)
  have houtputs : ownOutputs q = datasetNames event.outputs := by
    obtain ⟨w, hw, hget⟩ := same_get (k := lit "outputs") hq rfl
    obtain ⟨xs, rfl, hxs⟩ := same_arr hw
    rw [ownOutputs, same_get_none hq rfl, hget]
    exact datasetNames_same hxs
  rw [past, ownTime, hmissing, htime, houtputs, Option.none_or, Option.any_some]
  rfl

theorem lacksTimestamp_openlineage {event : RunEvent} {q : Json} (hq : q.Same event.modelDump) :
    lacksTimestamp q = true := by
  rw [lacksTimestamp, timeUnder_none (same_get_none hq rfl _)]
  rfl

/-! ## What is shown -/

section Shown
variable {sha256 : Str → Digest} {loads : Str → Except PyErr Json} {limit : VariableLimit}
  {events : List AnyEvent} {b : Backend}
  {datasetId : Str} {atTime : DateTime} {x : AnyEvent} {s : Snapshot} {entries : List (LedgerEntry Json)}

theorem le_tested {t : DateTime} {c : Bool} (h : t.le atTime = .ok c) : c = t.notLater atTime := by
  have haware := le_returns.1 ⟨c, h⟩
  rw [le_eq haware] at h
  exact (Except.ok.inj h).symm

/-- An entry that was tested is shown if the time the query takes it to have is not later. -/
theorem tested_event (hvalid : x.time.valid = true) {q : Json} (hq : q.Same x.payload)
    (htest : eventShown datasetId atTime q = .ok (eventTested datasetId atTime q)) :
    eventTested datasetId atTime q = (x.entryTime.notLater atTime && x.shows datasetId) := by
  have h := htest
  rw [eventShown_eq hvalid hq] at h
  cases hle : x.entryTime.le atTime with
  | error e => rw [hle] at h; cases h
  | ok c =>
    rw [hle] at h
    rw [← Except.ok.inj h, le_tested hle]

theorem tested_edge {r : EdgeRow} (htest : edgeSeen atTime r = .ok (edgeTested atTime r)) :
    edgeTested atTime r = edgePast atTime r := by
  obtain ⟨t, ht, hle⟩ := bind_eq_ok.1 htest
  rw [le_tested hle, edgePast, ht]
  rfl

theorem filter_eq_iff {α β : Type} (f : α → β) (p q : β → Bool) (xs : List α) :
    (xs.filter fun x => p (f x)).map f = (xs.filter fun x => q (f x)).map f ↔ ∀ x ∈ xs, p (f x) = q (f x) := by
  have hmap : ∀ p : β → Bool, (xs.filter fun x => p (f x)).map f = (xs.map f).filter p := by
    intro p
    rw [List.filter_map]
    rfl
  rw [hmap, hmap, ← List.forall_mem_map (P := fun y => p y = q y)]
  constructor
  · intro h y hy
    have hmem : y ∈ (xs.map f).filter p ↔ y ∈ (xs.map f).filter q := by rw [h]
    rw [List.mem_filter, List.mem_filter, and_iff_right hy, and_iff_right hy] at hmem
    exact Bool.eq_iff_iff.2 hmem
  · exact fun h => List.filter_congr h

/-- **A snapshot shows the past** if that is so of the entries of the ingestor. -/
theorem showsPast_iff (hread : ∀ x ∈ events, Readable loads x) (h : Extends events .empty b)
    (hs : SnapshotRead (PyLib.json sha256 loads limit) datasetId atTime b entries s) :
    ShowsPast (PyLib.json sha256 loads limit) datasetId atTime b s ↔
      ∀ e ∈ entries, lacksTimestamp e.payload = true →
        epoch.notLater atTime = past datasetId atTime e.payload := by
  have hedges : (b.db.datasetEdges.filter fun r => r.touches datasetId && edgePast atTime r).mapM
      (readEdge (PyLib.json sha256 loads limit)) = .ok s.edges := by
    have hsame : ∀ r ∈ b.db.datasetEdges, (r.touches datasetId && edgePast atTime r) =
        (r.touches datasetId && edgeTested atTime r) := by
      intro r hr
      rw [tested_edge (hs.edgeTests r hr)]
    rw [List.filter_congr hsame]
    exact hs.edges
  have hentries : ShowsPast (PyLib.json sha256 loads limit) datasetId atTime b s ↔
      ∀ e ∈ entries, eventTested datasetId atTime e.payload = past datasetId atTime e.payload := by
    rw [← filter_eq_iff LedgerEntry.payload]
    constructor
    · rintro ⟨⟨entries', hentries', hevents⟩, -⟩
      rw [hs.read] at hentries'
      cases hentries'
      rw [← hevents, hs.events]
    · exact fun heq => ⟨⟨entries, hs.read, hs.events.trans heq⟩, hedges⟩
  rw [hentries]
  refine forall₂_congr fun e he => ?_
  obtain ⟨x, hx, hsame, -⟩ := entry_of_read hread h hs.read he
  rw [tested_event (hread x hx).time hsame (hs.entryTests e he)]
  cases x with
  | legacy event =>
    obtain ⟨hhas, hpast⟩ := past_legacy (hread _ hx).time hsame datasetId atTime
    rw [hhas, hpast]
    exact iff_of_true rfl fun hlacks => by cases hlacks
  | openlineage event =>
    rw [lacksTimestamp_openlineage hsame]
    simp [AnyEvent.entryTime, AnyEvent.shows]

end Shown

/-! ## Ingests that come after -/

/-- The event is later, or is about other datasets only. -/
def AnyEvent.Unrelated (datasetId : Str) (atTime : DateTime) (x : AnyEvent) : Prop :=
  x.time.notLater atTime = false ∨ datasetId ∉ x.inputs ∧ datasetId ∉ x.outputs

/-- The entries that were added. -/
def newEntries (b b' : Backend) : List LedgerRow := b'.db.ledger.drop b.db.ledger.length

theorem edgeTime_notLater (x : AnyEvent) (atTime : DateTime) :
    x.edgeTime.notLater atTime = x.time.notLater atTime := by
  cases x with
  | legacy event => rfl
  | openlineage event => rfl

section After
variable {sha256 : Str → Digest} {loads : Str → Except PyErr Json} {limit : VariableLimit}
  {events added : List AnyEvent} {b b' : Backend} {datasetId : Str} {atTime : DateTime} {x : AnyEvent} {s s' : Snapshot} {entries entries' : List (LedgerEntry Json)}

/-- An edge of an unrelated event is not shown. -/
theorem unrelated_edge {r : EdgeRow} (hx : x.Unrelated datasetId atTime) (hvalid : x.time.valid = true)
    (hr : x.IsEdge r) : (r.touches datasetId && edgePast atTime r) = false := by
  rw [Bool.and_eq_false_iff]
  rcases hx with hlater | ⟨hin, hout⟩
  · refine .inr ?_
    rw [edgePast, hr.time, fromisoformat_isoformat (AnyEvent.edgeTime_valid hvalid)]
    exact (edgeTime_notLater x atTime).trans hlater
  · refine .inl ?_
    have hdst : r.dst ≠ datasetId := fun he => hout (he ▸ hr.dst)
    have hsrc : r.src ≠ datasetId := fun he => hin (he ▸ hr.src)
    simp [EdgeRow.touches, hdst, hsrc]

/-- An entry of an unrelated legacy event is not shown. -/
theorem unrelated_entry {event : LineageEvent} (hx : (AnyEvent.legacy event).Unrelated datasetId atTime) :
    (event.timestamp.notLater atTime && (AnyEvent.legacy event).shows datasetId) = false := by
  rw [Bool.and_eq_false_iff]
  rcases hx with hlater | ⟨-, hout⟩
  · exact .inl hlater
  · refine .inr ?_
    have hne : event.transform.outputDataset ≠ datasetId := fun he => hout (he ▸ List.mem_singleton_self _)
    simpa [AnyEvent.shows] using hne

/-- The entries of a ledger that has grown. -/
theorem read_after (hreach : Reachable (PyLib.json sha256 loads limit) b)
    (hreach' : Reachable (PyLib.json sha256 loads limit) b')
    (hextends : Extends added b b') (hread : ∀ x ∈ added, Readable loads x)
    (hentries : b.allLedgerEntries (PyLib.json sha256 loads limit) = .ok entries) :
    ∃ new, b'.allLedgerEntries (PyLib.json sha256 loads limit) = .ok (entries ++ new) ∧
      (∀ e ∈ new, ∃ x ∈ added, e.payload.Same x.payload ∧ ∃ r ∈ newEntries b b', x.IsEntry r) ∧
      ∀ r ∈ newEntries b b', ∀ x ∈ added, x.IsEntry r → ∃ e ∈ new, e.payload.Same x.payload := by
  obtain ⟨log, hrun⟩ := hreach
  obtain ⟨log', hrun'⟩ := hreach'
  obtain ⟨rows, hrows, hall⟩ := hextends.ledger
  have hnew : newEntries b b' = rows := by
    rw [newEntries, hrows, List.drop_left]
  rw [hnew]
  rw [Backend.allLedgerEntries, orderBySeq_eq hrun.chainInv.sorted] at hentries
  obtain ⟨new, hnewread⟩ : ∃ new, rows.mapM (Backend.readEntry (PyLib.json sha256 loads limit)) = .ok new := by
    refine mapM_total fun r hr => ?_
    obtain ⟨x, hx, hxr⟩ := hall r hr
    obtain ⟨e, he, -⟩ := readEntry_event sha256 limit (hread x hx) hxr
    exact ⟨e, he⟩
  refine ⟨new, ?_, fun e he => ?_, fun r hr x hx hxr => ?_⟩
  · rw [Backend.allLedgerEntries, orderBySeq_eq hrun'.chainInv.sorted, hrows]
    exact mapM_eq_ok.2 (List.rel_append (mapM_eq_ok.1 hentries) (mapM_eq_ok.1 hnewread))
  · obtain ⟨r, hr, hre⟩ := mem_of_mapM hnewread he
    obtain ⟨x, hx, hxr⟩ := hall r hr
    exact ⟨x, hx, readEntry_same (hread x hx) hxr hre, r, hr, hxr⟩
  · obtain ⟨e, he, hre⟩ := mapM_of_mem hnewread hr
    exact ⟨e, he, readEntry_same (hread x hx) hxr hre⟩

/-- The edges that are shown after unrelated ingests. -/
theorem edges_after (hread : ∀ x ∈ added, Readable loads x) (hextends : Extends added b b')
    (hunrelated : ∀ x ∈ added, x.Unrelated datasetId atTime)
    (hs : SnapshotRead (PyLib.json sha256 loads limit) datasetId atTime b entries s)
    (hs' : SnapshotRead (PyLib.json sha256 loads limit) datasetId atTime b' entries' s') :
    s'.edges = s.edges := by
  obtain ⟨rows, hrows, hall⟩ := hextends.edges
  have hnone : rows.filter (fun r => r.touches datasetId && edgeTested atTime r) = [] := by
    refine List.filter_eq_nil_iff.2 fun r hr => ?_
    obtain ⟨x, hx, hxr⟩ := hall r hr
    have hr' : r ∈ b'.db.datasetEdges := by
      rw [hrows]
      exact List.mem_append_right _ hr
    rw [tested_edge (hs'.edgeTests r hr'), unrelated_edge (hunrelated x hx) (hread x hx).time hxr]
    exact Bool.false_ne_true
  have hedges := hs'.edges
  rw [hrows, List.filter_append, hnone, List.append_nil, hs.edges] at hedges
  exact (Except.ok.inj hedges).symm

/-- None of the new entries is shown exactly if the query takes none of the ingestor's to be not later. -/
theorem unshown_iff {new : List (LedgerEntry Json)} (hread : ∀ x ∈ added, Readable loads x)
    (hunrelated : ∀ x ∈ added, x.Unrelated datasetId atTime)
    (hof : ∀ e ∈ new, ∃ x ∈ added, e.payload.Same x.payload ∧ ∃ r ∈ newEntries b b', x.IsEntry r)
    (hfor : ∀ r ∈ newEntries b b', ∀ x ∈ added, x.IsEntry r → ∃ e ∈ new, e.payload.Same x.payload)
    (htests : ∀ e ∈ new, eventShown datasetId atTime e.payload = .ok (eventTested datasetId atTime e.payload)) :
    new.filter (fun e => eventTested datasetId atTime e.payload) = [] ↔
      (epoch.notLater atTime = true → ∀ event, .openlineage event ∈ added →
        ∀ r ∈ newEntries b b', ¬ (AnyEvent.openlineage event).IsEntry r) := by
  rw [List.filter_eq_nil_iff]
  constructor
  · intro hnone hepoch event hevent r hr hentry
    obtain ⟨e, he, hpayload⟩ := hfor r hr _ hevent hentry
    refine hnone e he ?_
    rw [tested_event (hread _ hevent).time hpayload (htests e he)]
    exact Bool.and_eq_true_iff.2 ⟨hepoch, rfl⟩
  · intro hnone e he
    obtain ⟨x, hx, hpayload, r, hr, hxr⟩ := hof e he
    rw [tested_event (hread x hx).time hpayload (htests e he)]
    cases x with
    | legacy event =>
      rw [show (AnyEvent.legacy event).entryTime = event.timestamp from rfl, unrelated_entry (hunrelated _ hx)]
      exact Bool.false_ne_true
    | openlineage event =>
      intro hshown
      exact hnone (Bool.and_eq_true_iff.1 hshown).1 event hx r hr hxr

/-- A later snapshot with the same edges is the same if it shows no new entry. -/
theorem same_snapshot_iff {new : List (LedgerEntry Json)}
    (hs : SnapshotRead (PyLib.json sha256 loads limit) datasetId atTime b entries s)
    (hs' : SnapshotRead (PyLib.json sha256 loads limit) datasetId atTime b' (entries ++ new) s')
    (hedges : s'.edges = s.edges) :
    s' = s ↔ new.filter (fun e => eventTested datasetId atTime e.payload) = [] := by
  have hevents : s'.events = s.events ++
      (new.filter fun e => eventTested datasetId atTime e.payload).map LedgerEntry.payload := by
    rw [hs'.events, List.filter_append, List.map_append, ← hs.events]
  constructor
  · intro heq
    rw [heq] at hevents
    exact List.map_eq_nil_iff.1 (List.self_eq_append_right.1 hevents)
  · intro hnone
    rw [hnone, List.map_nil, List.append_nil] at hevents
    obtain ⟨_, _, _, _⟩ := s
    obtain ⟨_, _, _, _⟩ := s'
    exact congr (congr (congrArg₂ Snapshot.mk (hs'.named.trans hs.named.symm)
      (hs'.dated.trans hs.dated.symm)) hedges) hevents

/-- **Unrelated ingests leave a snapshot as it was** if it can still be taken and they add no entry of
the ingestor that it takes to be not later. -/
theorem unchanged_iff (hread : ∀ x ∈ events ++ added, Readable loads x)
    (hreach : Reachable (PyLib.json sha256 loads limit) b)
    (hreach' : Reachable (PyLib.json sha256 loads limit) b')
    (hstart : Extends (events ++ added) .empty b') (hextends : Extends added b b')
    (hs : SnapshotRead (PyLib.json sha256 loads limit) datasetId atTime b entries s)
    (hunrelated : ∀ x ∈ added, x.Unrelated datasetId atTime) :
    b'.snapshot (PyLib.json sha256 loads limit) datasetId atTime = .ok s ↔
      Comparable (events ++ added) atTime b' ∧
        (epoch.notLater atTime = true → ∀ event, .openlineage event ∈ added →
          ∀ r ∈ newEntries b b', ¬ (AnyEvent.openlineage event).IsEntry r) := by
  have hadded : ∀ x ∈ added, Readable loads x := fun x hx => hread x (List.mem_append_right _ hx)
  obtain ⟨new, hnew, hof, hfor⟩ := read_after hreach hreach' hextends hadded hs.read
  -- a later snapshot is the same exactly if it shows no new entry
  have hlater : ∀ s', b'.snapshot (PyLib.json sha256 loads limit) datasetId atTime = .ok s' →
      (s' = s ↔ (epoch.notLater atTime = true → ∀ event, .openlineage event ∈ added →
        ∀ r ∈ newEntries b b', ¬ (AnyEvent.openlineage event).IsEntry r)) := by
    intro s' hsnapshot
    obtain ⟨entries', hs'⟩ := snapshot_ok hsnapshot
    have hboth := hs'.read
    rw [hnew] at hboth
    cases hboth
    rw [same_snapshot_iff hs hs' (edges_after hadded hextends hunrelated hs hs')]
    exact unshown_iff hadded hunrelated hof hfor fun e he => hs'.entryTests e (List.mem_append_right _ he)
  constructor
  · exact fun hsame => ⟨(snapshot_returns sha256 limit hread hstart datasetId atTime).1 ⟨s, hsame⟩,
      (hlater s hsame).1 rfl⟩
  · rintro ⟨hcomparable, hnone⟩
    obtain ⟨s', hs'⟩ := (snapshot_returns sha256 limit hread hstart datasetId atTime).2 hcomparable
    rw [← (hlater s' hs').2 hnone]
    exact hs'

end After

/-- **What a snapshot shows, and what changes it.** -/
theorem snapshot_past_iff (R : Rendering) (sha256 : Str → Digest) (loads : Str → Except PyErr Json)
    (limit : VariableLimit)
    (calls more : List EngineCall) (datasetId : Str) (atTime : DateTime) (s : Snapshot)
    (hread : ∀ x ∈ (calls ++ more).flatMap EngineCall.anyEvents, Readable loads x)
    (hs : (vault R (PyLib.json sha256 loads limit) calls .empty).snapshot (PyLib.json sha256 loads limit)
      datasetId atTime =
      .ok s) :
    let py := PyLib.json sha256 loads limit
    let b := vault R py calls .empty
    let b' := vault R py (calls ++ more) .empty
    (∃ entries, b.allLedgerEntries py = .ok entries ∧
      (ShowsPast py datasetId atTime b s ↔ ∀ e ∈ entries, lacksTimestamp e.payload = true →
        epoch.notLater atTime = past datasetId atTime e.payload)) ∧
    ((∀ x ∈ more.flatMap EngineCall.anyEvents, x.Unrelated datasetId atTime) →
      (b'.snapshot py datasetId atTime = .ok s ↔
        Comparable ((calls ++ more).flatMap EngineCall.anyEvents) atTime b' ∧
          (epoch.notLater atTime = true → ∀ event, .openlineage event ∈ more.flatMap EngineCall.anyEvents →
            ∀ r ∈ newEntries b b', ¬ (AnyEvent.openlineage event).IsEntry r))) := by
  intro py b b'
  have hb : Extends (calls.flatMap EngineCall.anyEvents) .empty b := vault_extends R sha256 loads limit calls ⟨rfl, rfl⟩
  have hb' : Extends ((calls ++ more).flatMap EngineCall.anyEvents) .empty b' :=
    vault_extends R sha256 loads limit (calls ++ more) ⟨rfl, rfl⟩
  have hmore : b' = vault R py more b := List.foldl_append
  have hextends : Extends (more.flatMap EngineCall.anyEvents) b b' := by
    rw [hmore]
    exact vault_extends R sha256 loads limit more hb.durable
  obtain ⟨entries, hentries⟩ := snapshot_ok hs
  rw [List.flatMap_append] at hread hb' ⊢
  refine ⟨⟨entries, hentries.read, ?_⟩, fun hunrelated => ?_⟩
  · exact showsPast_iff (fun x hx => hread x (List.mem_append_left _ hx)) hb hentries
  · exact unchanged_iff hread (vault_reachable calls ⟨[], .nil⟩) (vault_reachable (calls ++ more) ⟨[], .nil⟩) hb'
      hextends hentries hunrelated

/-- A time after the run has started, and one before. -/
def afterStart : DateTime := ⟨2026, 1, 3, 0, 0, 0, 0, none⟩

def beforeStart : DateTime := ⟨2026, 1, 1, 0, 0, 0, 0, none⟩

/-- The past of the entries that are read. -/
def pasts (py : PyLib Json) (datasetId : Str) (atTime : DateTime) (b : Backend) : Except PyErr (List Bool) :=
  (b.allLedgerEntries py).map fun entries => entries.map fun e => past datasetId atTime e.payload

theorem pasts_eq {py : PyLib Json} (datasetId : Str) (atTime : DateTime) {b : Backend} (answers : List Bool)
    {entries : List (LedgerEntry Json)} (hentries : b.allLedgerEntries py = .ok entries)
    (h : pasts py datasetId atTime b = .ok answers) :
    entries.map (fun e => past datasetId atTime e.payload) = answers := by
  rw [pasts, hentries] at h
  exact Except.ok.inj h

/-- The output of the run shows that it has started. -/
theorem snapshot_past_started :
    ∃ s, startedVault.snapshot startedLib (lit "db.b") afterStart = .ok s ∧
      ShowsPast startedLib (lit "db.b") afterStart startedVault s := by
  have hreturns : ∃ s, startedVault.snapshot startedLib (lit "db.b") afterStart = .ok s := by
    cases hs : startedVault.snapshot startedLib (lit "db.b") afterStart with
    | ok s => exact ⟨s, rfl⟩
    | error e =>
      have hok : (startedVault.snapshot startedLib (lit "db.b") afterStart).isOk = true := by decide +kernel
      rw [hs] at hok
      cases hok
  obtain ⟨s, hs⟩ := hreturns
  refine ⟨s, hs, ?_⟩
  obtain ⟨⟨entries, hentries, hiff⟩, -⟩ := snapshot_past_iff .fixed PyLib.fixed.sha256 loadsStarted .sqlite
    startedCalls [] (lit "db.b") afterStart s readable_started hs
  refine hiff.2 fun e he _ => ?_
  have hpast := pasts_eq (lit "db.b") afterStart [true] hentries (by decide +kernel)
  have hmem : past (lit "db.b") afterStart e.payload ∈ [true] := hpast ▸ List.mem_map_of_mem he
  rw [List.mem_singleton.1 hmem]
  rfl

/-- Another dataset shows it too, and did so before it started. -/
theorem snapshot_shows_unrelated :
    ∃ s s', Backend.empty.snapshot startedLib (lit "d") beforeStart = .ok s ∧
      startedVault.snapshot startedLib (lit "d") beforeStart = .ok s' ∧
      ¬ ShowsPast startedLib (lit "d") beforeStart startedVault s' ∧
      (∀ x ∈ startedCalls.flatMap EngineCall.anyEvents, x.Unrelated (lit "d") beforeStart) ∧ s' ≠ s := by
  have hempty : (Backend.empty.snapshot startedLib (lit "d") beforeStart).map (fun s => s.events.length) =
      .ok 0 := by decide +kernel
  have hstarted : (startedVault.snapshot startedLib (lit "d") beforeStart).map (fun s => s.events.length) =
      .ok 1 := by decide +kernel
  cases hs : Backend.empty.snapshot startedLib (lit "d") beforeStart with
  | error e => rw [hs] at hempty; cases hempty
  | ok s =>
    cases hs' : startedVault.snapshot startedLib (lit "d") beforeStart with
    | error e => rw [hs'] at hstarted; cases hstarted
    | ok s' =>
      rw [hs] at hempty
      rw [hs'] at hstarted
      have hnone : s.events.length = 0 := Except.ok.inj hempty
      have hone : s'.events.length = 1 := Except.ok.inj hstarted
      refine ⟨s, s', rfl, rfl, ?_, ?_, fun heq => ?_⟩
      · rintro ⟨⟨entries, hentries, hevents⟩, -⟩
        have hpast := pasts_eq (lit "d") beforeStart [false] hentries (by decide +kernel)
        have hfilter : entries.filter (fun e => past (lit "d") beforeStart e.payload) = [] := by
          refine List.filter_eq_nil_iff.2 fun e he => ?_
          have hmem : past (lit "d") beforeStart e.payload ∈ [false] := hpast ▸ List.mem_map_of_mem he
          rw [List.mem_singleton.1 hmem]
          exact Bool.false_ne_true
        rw [hevents, hfilter] at hone
        cases hone
      · intro x hx
        rw [List.mem_singleton.1 hx]
        exact .inl (by decide +kernel)
      · rw [heq, hnone] at hone
        cases hone

end LineageVault
