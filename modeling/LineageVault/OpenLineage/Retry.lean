import LineageVault.OpenLineage.Batch
import LineageVault.Storage.Consistency

/-! # Ingesting again after a failure

A batch is acknowledged before anything else of it is recorded, and an event whose key is known is
skipped. So a process that fails or is stopped in between keeps what it had recorded, and ingesting
the batch again adds nothing (`ingestBatch_retry`), not even what was missing
(`ingestBatch_retry_loses`).
-/

namespace LineageVault
open Foundations
set_option autoImplicit false

variable {R : Rendering} {py : PyLib Json}

/-! ## Reopening and recovering -/

/-- A backend that was reopened and recovered: the durable keys and lineage, and a ledger that lost
nothing. -/
theorem recovered_cases (py : PyLib Json) {b : Backend} (hj : JournalInv b.session.durable) (fs : List Bool) :
    ∃ w, (b.reopen.recoverUncommitted py fs).2.session = ⟨w, w⟩ ∧
      w.1.idempotency = b.session.durable.1.idempotency ∧
      lineageTables w.1 = lineageTables b.session.durable.1 ∧
      ∀ e ∈ ledgerIds b.session.durable.1, e ∈ ledgerIds w.1 := by
  rcases guarded_cases fs (recoverBody py) b.reopen with ⟨e, h⟩ | ⟨n, w, he, h⟩
  · exact ⟨_, by rw [Backend.recoverUncommitted, h]; rfl, rfl, rfl, fun _ he => he⟩
  · obtain ⟨hi, hl⟩ := recoverBody_frame he
    obtain ⟨-, added, hg, -⟩ := journalInv_recover hj he
    refine ⟨w, by rw [Backend.recoverUncommitted, h], hi, hl, fun e' he' => ?_⟩
    rw [ledgerIds, hg, List.map_append]
    exact List.mem_append_left _ he'

/-! ## Failure and retry -/

/-- What the acknowledgement leaves, and what it keeps through whatever becomes of the recording. -/
theorem ingestBatch_journal {b : Backend} (hb : Reachable py b) {now : ClockText}
    {items : List (BatchWriteItem Json)} {w : Store} {results : List AcknowledgedWrite}
    (hack : (acknowledgeBody py now items).eval exec b.session.view = .ok (results, w))
    (events : List RunEvent) (fss : List (List Bool)) :
    let c := ((recordAll R events results).runUnder py fss { b with session := ⟨w, w⟩ }).2
    JournalInv c.session.durable ∧ c.session.durable.1.idempotency = w.1.idempotency ∧
      ∀ r ∈ results, r.eventId ∈ ledgerIds c.session.durable.1 ∧
        existingEvent w.1 r.idempotencyKey = some r.eventId := by
  intro c
  obtain ⟨log, hrun⟩ := hb
  have hw := (journalInv_acknowledge hrun.journalInv hack).1
  have hkept : Keeps (journal w) c :=
    Prog.drive_keeps (P := Keeps (journal w)) _ (fun fs s _ hs hk => records_keeps hs fs hk) fss
      (uses_recordAll events results) ⟨rfl, rfl⟩
  have hj := hkept.1.trans hkept.2
  have hinv := journalInv_of_journal hw hj
  refine ⟨hinv, (journal_ext.1 hj).1, fun r hr => ?_⟩
  obtain ⟨item, -, hitem⟩ := forall₂_mem (acknowledgeBody_answers hack).flip hr
  have hevent : existingEvent w.1 r.idempotencyKey = some r.eventId := by
    rw [hitem.key]
    exact hitem.event
  refine ⟨?_, hevent⟩
  obtain ⟨q, hq, he⟩ := Option.map_eq_some_iff.1 hevent
  rw [← he]
  refine hinv.keyed q ?_
  rw [(journal_ext.1 hj).1]
  exact List.mem_of_find?_eq_some hq

/-- **A retry answers as before and records nothing.** Let the acknowledgement of a batch go through,
and let the process fail or be stopped anywhere after it. Once the file was reopened and recovered,
ingesting the same events with the same keys answers each with the event id it was acknowledged
with, as a duplicate, and changes nothing. The ledger and the keys have every event; the run events,
edges and field mappings are those that the undisturbed ingestion leaves with the calls that had returned
before the stop, and no others. -/
theorem ingestBatch_retry {b : Backend} (hb : Reachable py b) {now : ClockText} {ids : ℕ → Str}
    {events : List RunEvent} {idempotencyKeys : Option (List (Option Str))}
    {items : List (BatchWriteItem Json)} {results : List AcknowledgedWrite} {fs : List Bool}
    (hitems : batchItems R ids events (ingestKeys events idempotencyKeys) 0 = .ok items)
    (hack : (b.acknowledgeWritesBatch py fs now items).1 = .ok results) (fss : List (List Bool))
    (fsr : List Bool) (now' : ClockText) (ids' : ℕ → Str) :
    let stopped := (ingestBatch R now ids events idempotencyKeys).runUnder py (fs :: fss) b
    let before := (ingestBatch R now ids events idempotencyKeys).callsReturned py (fs :: fss) b
    let b' := (stopped.2.reopen.recoverUncommitted py fsr).2
    (ingestBatch R now' ids' events idempotencyKeys).run py b' =
        (.ok (List.zipWith (fun event r => { ingestResult R event r with duplicate := true }) events
          results), b') ∧
      (∀ r ∈ results, r.eventId ∈ ledgerIds b'.db ∧
        existingEvent b'.db r.idempotencyKey = some r.eventId) ∧
      lineageTables b'.db = lineageTables stopped.2.session.durable.1 ∧
      lineageTables b'.db = lineageTables
        ((ingestBatch R now ids events idempotencyKeys).after py before b).session.durable.1 ∧
      (events ≠ [] → 1 ≤ before) ∧ (stopped.1 = none → before = fss.length + 1) := by
  intro stopped before b'
  by_cases hne : events = []
  · subst hne
    obtain rfl := List.length_eq_zero_iff.1 (batchItems_length hitems)
    cases hack
    obtain ⟨log, hrun⟩ := hb
    have hj := journalInv_of_journal hrun.journalInv hrun.settled
    obtain ⟨w, hw, -, hl, -⟩ := recovered_cases py hj fsr
    have htables : lineageTables b'.db = lineageTables b.session.durable.1 :=
      (congrArg (fun s => lineageTables s.view.1) hw).trans hl
    refine ⟨rfl, fun r hr => (List.not_mem_nil hr).elim, htables, htables, fun h => (h rfl).elim, fun h => ?_⟩
    cases h
  · have hitemsne := batchItems_ne_nil hne hitems
    have hstmt : ingestBatch R now ids events idempotencyKeys = _ := ingestBatch_stmt hne hitems
    obtain ⟨w, he, hw⟩ := batch_returned hitemsne (Prod.ext hack rfl)
    have hcall : StorageCall.perform py fs (.acknowledgeWritesBatch now items) b =
        (.ok results, { b with session := ⟨w, w⟩ }) := Prod.ext hack hw
    have hstopped : stopped = (recordAll R events results).runUnder py fss { b with session := ⟨w, w⟩ } := by
      simp only [stopped, hstmt]
      exact Prog.drive_stmt_ok _ hcall
    obtain ⟨hj, hi, hevents⟩ := ingestBatch_journal (R := R) hb he events fss
    have hbefore : before =
        (recordAll R events results).callsReturned py fss { b with session := ⟨w, w⟩ } + 1 := by
      simp only [before, hstmt]
      exact Prog.callsReturned_stmt_ok _ hcall
    have hd : stopped.2.session.durable = ((ingestBatch R now ids events idempotencyKeys).after py before
        b).session.durable := runUnder_after py (fs :: fss) _ b
    rw [← hstopped] at hj hi hevents
    obtain ⟨w₂, hw₂, hi₂, hl, hg⟩ := recovered_cases py hj fsr
    have hview : b'.db = w₂.1 := congrArg (fun s => s.view.1) hw₂
    have hsame : { b' with session := ⟨b'.session.view, b'.session.view⟩ } = b' := by
      rw [hw₂, ← hw₂]
    have hknown := ingestBatch_known now' ids' b' hne hitems he (by
      rw [hview, hi₂, hi])
    rw [hsame] at hknown
    have htables : lineageTables b'.db = lineageTables stopped.2.session.durable.1 := by
      rw [hview, hl]
    refine ⟨hknown, fun r hr => ?_, htables, by rw [htables, hd], fun _ => ?_, fun h => ?_⟩
    · obtain ⟨hledger, hevent⟩ := hevents r hr
      rw [hview, existingEvent, hi₂.trans hi]
      exact ⟨hg _ hledger, hevent⟩
    · rw [hbefore]
      exact Nat.le_add_left 1 _
    · exact Prog.callsReturned_stopped _ (fs :: fss) _ b h

/-! ## One event that is acknowledged and not recorded -/

def copyIngestion : Client Json (List IngestResult) :=
  ingestBatch .fixed .fixed (fun _ => lit "e") [copyOf (lit "r")] none

/-- Stopped after the first call, reopened and recovered. -/
def copyStopped : Backend :=
  ((copyIngestion.runUnder PyLib.fixed [[]] .empty).2.reopen.recoverUncommitted PyLib.fixed []).2

theorem ingestBatch_retry_copy :
    copyIngestion.run PyLib.fixed copyStopped =
        (.ok [⟨lit "e", true, true, lit "r", lit "COMPLETE"⟩], copyStopped) ∧
      lit "e" ∈ ledgerIds copyStopped.db := by
  have h := @ingestBatch_retry .fixed PyLib.fixed .empty ⟨[], .nil⟩ .fixed
    (fun _ => lit "e") [copyOf (lit "r")] none _ _ [] rfl rfl [] [] .fixed fun _ => lit "e"
  exact ⟨h.1, (h.2.1 _ List.mem_cons_self).1⟩

/-- **What was not recorded stays lost.** -/
theorem ingestBatch_retry_loses :
    ledgerIds copyStopped.db = [lit "e"] ∧
      lineageTables (copyIngestion.run PyLib.fixed copyStopped).2.db = ([], [], []) ∧
      (copyIngestion.run PyLib.fixed .empty).2.db.runEvents.length = 1 ∧
      (copyIngestion.run PyLib.fixed .empty).2.db.datasetEdges.length = 1 := by
  decide +kernel

end LineageVault
