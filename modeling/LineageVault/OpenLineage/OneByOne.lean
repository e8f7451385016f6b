import LineageVault.OpenLineage.Recorded
import LineageVault.Storage.Commuting

/-! # A batch, and its events one by one

`ingest_batch` acknowledges all events and then records their lineage; single ingests do one event after
the other. Recording and acknowledging commute, so single ingests that all return leave what their
writes leave, acknowledged one by one, and then the recording of all of them (`ingestEach_split`). A batch
whose lookup is within the limit refines these writes, and so the single ingests
(`ingestBatch_of_each_iff`).
-/

namespace LineageVault
open Foundations
set_option autoImplicit false

/-- `ingest` for each event in turn, at a time of its own and with the next id. -/
def ingestEach (R : Rendering) (nows : ℕ → ClockText) (ids : ℕ → Str) :
    List RunEvent → List (Option Str) → ℕ → Client Json (List IngestResult)
  | event :: events, key :: keys, i => do
    let result ← ingest R (nows i) (fun _ => ids i) event key
    let results ← ingestEach R nows ids events keys (i + 1)
    return result :: results
  | _, _, _ => return []

/-- What is recorded for an event and its result. -/
def recordOne (R : Rendering) (event : RunEvent) (result : AcknowledgedWrite) : Client Json Unit :=
  if result.duplicate then pure () else recordEvent R event

variable {R : Rendering} {py : PyLib Json} {b b₁ : Backend}

theorem uses_recordOne (event : RunEvent) (result : AcknowledgedWrite) :
    (recordOne R event result).Uses StorageCall.records := by
  rw [recordOne]
  split
  · trivial
  · exact uses_recordEvent event

theorem recordAll_cons (event : RunEvent) (events : List RunEvent) (result : AcknowledgedWrite)
    (results : List AcknowledgedWrite) : recordAll R (event :: events) (result :: results) =
      recordOne R event result >>= fun _ => recordAll R events results >>= fun out =>
        .ret (ingestResult R event result :: out) := by
  rw [recordAll, recordOne]
  split <;> rfl

/-! ## One event -/

section One
variable {now : ClockText} {ids : ℕ → Str} {event : RunEvent} {key : Option Str} {result : IngestResult}

/-- An ingest that returns has acknowledged its event and then recorded it. -/
theorem ingest_one (h : (ingest R now ids event key).run py b = (.ok result, b₁)) :
    ∃ r b', b.acknowledgeWrite py [] now ⟨event.resolvedKey R key, ids 0, event.modelDump⟩ = (.ok r, b') ∧
      b'.session.durable = b'.session.view ∧ (recordOne R event r).run py b' = (.ok (), b₁) ∧
      result = ingestResult R event r := by
  obtain ⟨keys, hbatch, hitems⟩ := ingest_eq R now ids event key
  rw [hbatch] at h
  obtain ⟨results, b', hrun, hfirst⟩ := run_bind_cases h
  rcases ingestBatch_cases now (List.cons_ne_nil event []) hitems b with ⟨e, -, hrun'⟩ | ⟨rs, w, heval, hrun'⟩
  · rw [hrun] at hrun'
    cases hrun'
  · obtain ⟨r, rfl⟩ := List.length_eq_one_iff.1 (acknowledgeBody_length heval)
    rw [hrun, recordAll_cons] at hrun'
    obtain ⟨⟨⟩, b'', hone, hrest⟩ := run_bind_cases hrun'.symm
    cases hrest
    cases hfirst
    exact ⟨r, { b with session := ⟨w, w⟩ }, acknowledgeWrite_ok heval, rfl, hone, rfl⟩

/-- An ingest of a known key answers, and changes nothing. -/
theorem ingest_known (henc : (event.resolvedKey R key).encodable = true)
    (hknown : existingEvent b.db (event.resolvedKey R key) ≠ none) :
    ∃ result, (ingest R now ids event key).run py b =
      (.ok result, { b with session := ⟨b.session.view, b.session.view⟩ }) := by
  obtain ⟨keys, hbatch, hitems⟩ := ingest_eq R now ids event key
  have haccepts : py.limit.accepts [event.resolvedKey R key] = true := by simpa using henc
  have hrun := ingestBatch_answers now (List.cons_ne_nil event []) hitems haccepts
    (List.forall_mem_singleton.2 hknown)
  rw [hbatch, run_bind_ok hrun]
  exact ⟨_, rfl⟩

end One

/-! ## All events -/

section Each
variable {nows : ℕ → ClockText} {ids : ℕ → Str} {events : List RunEvent} {keys : List (Option Str)}
  {results : List IngestResult}

theorem ingestEach_known (i : ℕ)
    (hknown : ∀ p ∈ events.zip keys, (p.1.resolvedKey R p.2).encodable = true ∧
      existingEvent b.db (p.1.resolvedKey R p.2) ≠ none) :
    ∃ results b', (ingestEach R nows ids events keys i).run py b = (.ok results, b') := by
  induction events generalizing b keys i with
  | nil => exact ⟨[], b, rfl⟩
  | cons event events ih =>
    cases keys with
    | nil => exact ⟨[], b, rfl⟩
    | cons key keys =>
      rw [List.zip_cons_cons, List.forall_mem_cons] at hknown
      obtain ⟨result, hfirst⟩ := @ingest_known R py b (nows i) (fun _ => ids i) event key hknown.1.1 hknown.1.2
      obtain ⟨results, b', hothers⟩ := ih (b := { b with session := ⟨b.session.view, b.session.view⟩ })
        (i + 1) hknown.2
      rw [ingestEach, run_bind_ok hfirst, run_bind_ok hothers]
      exact ⟨result :: results, b', rfl⟩

/-- **Single ingests that all return may acknowledge first and record then.** Induction on the events:
what the first one records commutes with the writes of the others. -/
theorem ingestEach_split (hlen : keys.length = events.length) (i : ℕ)
    (h : (ingestEach R nows ids events keys i).run py b = (.ok results, b₁)) :
    ∃ stamped rs c, batchItems R ids events keys i = .ok (stamped.map Prod.snd) ∧
      b.defaultAcknowledgeWritesBatch py stamped = (.ok rs, c) ∧
      (recordAll R events rs).run py c = (.ok results, b₁) := by
  induction events generalizing b keys i results with
  | nil =>
    obtain rfl := List.length_eq_zero_iff.1 hlen
    cases h
    exact ⟨[], [], _, rfl, rfl, rfl⟩
  | cons event events ih =>
    obtain ⟨key, keys, rfl⟩ := List.exists_cons_of_length_eq_add_one hlen
    rw [ingestEach] at h
    obtain ⟨result, b₂, hfirst, h⟩ := run_bind_cases h
    obtain ⟨others, b₃, hothers, h⟩ := run_bind_cases h
    cases h
    obtain ⟨r, b', hack, hcommitted, hone, rfl⟩ := ingest_one hfirst
    obtain ⟨stamped, rs, c, hitems, hacks, hrecord⟩ := ih (Nat.succ.inj hlen) (i + 1) hothers
    obtain ⟨c', hacks', -, hone'⟩ := acknowledgeAll_first (uses_recordOne event r) hcommitted hone hacks
    refine ⟨(nows i, ⟨event.resolvedKey R key, ids i, event.modelDump⟩) :: stamped, r :: rs, c', ?_, ?_, ?_⟩
    · rw [batchItems, hitems]
      rfl
    · simp only [Backend.defaultAcknowledgeWritesBatch, hack, hacks']
    · rw [recordAll_cons, run_bind_ok hone', run_bind_ok hrecord]
      rfl

theorem ingestBatch_within (hb : Reachable py b) (now : ClockText) (hlen : keys.length = events.length)
    (h : (ingestEach R nows ids events keys 0).run py b = (.ok results, b₁))
    (hlimit : py.limit.allows events.length = true) :
    ∃ b₂, (ingestBatch R now ids events (some keys)).run py b = (.ok results, b₂) ∧
      timeless b₂.session.view = timeless b₁.session.view ∧
      timeless b₂.session.durable = timeless b₁.session.durable ∧ b₂.graph = b₁.graph := by
  by_cases hne : events = []
  · subst hne
    cases h
    exact ⟨_, rfl, rfl, rfl, rfl⟩
  obtain ⟨stamped, rs, c, hitems, hacks, hrecord⟩ := ingestEach_split hlen 0 h
  have hkeys : ingestKeys events (some keys) = keys := by
    cases keys with
    | nil => exact (hne (List.length_eq_zero_iff.1 hlen.symm)).elim
    | cons key keys => rfl
  rw [← hkeys] at hitems
  have hstamped : stamped ≠ [] := fun hnil => batchItems_ne_nil hne hitems (by rw [hnil]; rfl)
  obtain ⟨hgraph, hcommitted⟩ := default_committed hacks
  have hcommitted := hcommitted hstamped
  have hstampedLen : stamped.length = events.length := by
    rw [← batchItems_length hitems, List.length_map]
  rcases refines_within hb now (hstampedLen ▸ hlimit) with ⟨rs', c', c'', hbatch, hacks', -, hview, -⟩ |
    ⟨e, e', c', c'', -, hacks', -⟩
  · rw [hacks] at hacks'
    cases hacks'
    have hitemsne : stamped.map Prod.snd ≠ [] := batchItems_ne_nil hne hitems
    rcases ingestBatch_cases now hne hitems b with ⟨e, heval, -⟩ | ⟨rs', w, heval, hrun⟩
    · rw [batch_error hitemsne heval] at hbatch
      cases hbatch
    · rw [batch_ok hitemsne heval] at hbatch
      cases hbatch
      -- the batch starts recording where the single writes end, but for the times of the keys
      have hstart : ({ b with session := ⟨w, w⟩ } : Backend) = c.rekeyed w.1.idempotency := by
        rw [Backend.rekeyed, hcommitted, ← eq_rekeyed hview, hgraph]
      have hrecords := uses_recordAll (R := R) events rs
      rw [hstart, run_rekeyed hrecords, hrecord] at hrun
      have hkept := (journal_ext.1 (run_journal hrecords hcommitted hrecord)).1
      have htimeless := timeless_rekeyed hview hkept
      refine ⟨_, hrun, htimeless, ?_, rfl⟩
      rw [Backend.rekeyed, run_committed hcommitted hrecord]
      exact htimeless
  · rw [hacks] at hacks'
    cases hacks'

/-- **A batch does what its events do one by one exactly within the limit.** If ingesting each event in
turn, each with its key and the next id, never raises, then the batch of the same events, keys and ids
returns the list of their results and leaves the same graph and the same tables, up to `created_at`, if
and only if one statement may have a parameter for each event. -/
theorem ingestBatch_of_each_iff (hb : Reachable py b) (now : ClockText) (hlen : keys.length = events.length)
    (h : (ingestEach R nows ids events keys 0).run py b = (.ok results, b₁)) :
    (∃ b₂, (ingestBatch R now ids events (some keys)).run py b = (.ok results, b₂) ∧
      timeless b₂.session.view = timeless b₁.session.view ∧
      timeless b₂.session.durable = timeless b₁.session.durable ∧ b₂.graph = b₁.graph) ↔
      py.limit.allows events.length = true := by
  refine ⟨?_, ingestBatch_within hb now hlen h⟩
  rintro ⟨b₂, hok, -⟩
  by_contra hlimit
  obtain ⟨e, herr⟩ := ingestBatch_beyond (R := R) now ids (ingestKeys_length hlen)
    (Bool.eq_false_iff.2 hlimit) b
  rw [herr] at hok
  cases hok

end Each

/-! ## A key twice, and a run event twice -/

def copies : List RunEvent := [copyOf (lit "r"), copyOf (lit "r"), copyOf (lit "s")]

def copyKeys : List (Option Str) := [some (lit "k"), some [], some (lit "k")]

def copyIds (i : ℕ) : Str := [lit "e", lit "f", lit "g"].getD i []

def copiesEach : Except PyErr (List IngestResult) × Backend :=
  (ingestEach .fixed (fun _ => .fixed) copyIds copies copyKeys 0).run PyLib.fixed .empty

theorem ingestBatch_of_each_copies :
    ∃ results b₂, copiesEach.1 = .ok results ∧ results.map IngestResult.duplicate = [false, false, true] ∧
      (ingestBatch .fixed .fixed copyIds copies (some copyKeys)).run PyLib.fixed .empty = (.ok results, b₂) ∧
      timeless b₂.session.view = timeless copiesEach.2.session.view ∧ b₂.graph = copiesEach.2.graph := by
  have hduplicates : copiesEach.1.map (fun results => results.map IngestResult.duplicate) =
      .ok [false, false, true] := by decide +kernel
  cases heach : copiesEach.1 with
  | error e =>
    rw [heach] at hduplicates
    cases hduplicates
  | ok results =>
    rw [heach] at hduplicates
    have hrun : copiesEach = (.ok results, copiesEach.2) := by rw [← heach]
    obtain ⟨b₂, hbatch, hview, -, hgraph⟩ := (ingestBatch_of_each_iff ⟨[], .nil⟩ .fixed rfl hrun).2 (by decide)
    exact ⟨results, b₂, rfl, Except.ok.inj hduplicates, hbatch, hview, hgraph⟩

/-- The same event any number of times, one after the other. -/
theorem ingestEach_copies (n : ℕ) :
    ∃ results b, (ingestEach .fixed (fun _ => .fixed) natText (List.replicate (n + 1) (copyOf (lit "r")))
      (List.replicate (n + 1) none) 0).run PyLib.fixed .empty = (.ok results, b) := by
  let first := (ingest .fixed .fixed (fun _ => natText 0) (copyOf (lit "r")) none).run PyLib.fixed .empty
  have hfirst : first = (.ok ⟨natText 0, false, true, lit "r", lit "COMPLETE"⟩, first.2) :=
    Prod.ext (by decide +kernel) rfl
  have hknown : ∀ p ∈ (List.replicate n (copyOf (lit "r"))).zip (List.replicate n none),
      (p.1.resolvedKey .fixed p.2).encodable = true ∧
        existingEvent first.2.db (p.1.resolvedKey .fixed p.2) ≠ none := by
    intro p hp
    obtain ⟨hevent, hnone⟩ := List.of_mem_zip hp
    rw [List.eq_of_mem_replicate hevent, List.eq_of_mem_replicate hnone]
    exact ⟨by decide +kernel, by decide +kernel⟩
  obtain ⟨results, b, hothers⟩ := @ingestEach_known .fixed .fixed first.2 (fun _ => .fixed) natText _ _ 1 hknown
  rw [List.replicate_succ, List.replicate_succ, ingestEach, run_bind_ok hfirst, run_bind_ok hothers]
  exact ⟨_, b, rfl⟩

/-- An event 32767 times: the single ingests answer, the batch is refused. -/
theorem ingestBatch_of_each_fails :
    let events := List.replicate 32767 (copyOf (lit "r"))
    let keys : List (Option Str) := List.replicate 32767 none
    (∃ results b, (ingestEach .fixed (fun _ => .fixed) natText events keys 0).run PyLib.fixed .empty =
        (.ok results, b)) ∧
      ¬ ∃ out b, (ingestBatch .fixed .fixed natText events (some keys)).run PyLib.fixed .empty = (.ok out, b) := by
  intro events keys
  refine ⟨ingestEach_copies 32766, ?_⟩
  have hlimit : PyLib.fixed.limit.allows events.length = false := by
    rw [List.length_replicate]
    decide
  have hkeys : (ingestKeys events (some keys)).length = events.length :=
    ingestKeys_length (by rw [List.length_replicate, List.length_replicate])
  obtain ⟨e, herr⟩ := ingestBatch_beyond (R := .fixed) .fixed natText hkeys hlimit .empty
  rintro ⟨out, b, hok⟩
  rw [herr] at hok
  cases hok

end LineageVault
