import LineageVault.OpenLineage.Recorded
import LineageVault.Storage.ExactlyOnce
import LineageVault.Storage.FreshKeys

/-! # Replaying OpenLineage events

A key that was acknowledged once is known in every later state (`history_existing`), with the event it
was first acknowledged for. So any later list of events whose keys all occur among those of a batch that
returned is answered with the events of that batch and records nothing, if the lookup of the keys is
within the limit of the database (`ingestBatch_replay_iff`).
-/

namespace LineageVault
open Foundations
set_option autoImplicit false

/-! ## Keys stay known -/

section Known
variable {P : Type} {py : PyLib P} {b b' : Backend} {k e : Str}

theorem existingEvent_append {db db' : Db} {rows : List IdempotencyRow}
    (hdb : db'.idempotency = db.idempotency ++ rows) (h : existingEvent db k = some e) :
    existingEvent db' k = some e := by
  obtain ⟨q, hq, rfl⟩ := Option.map_eq_some_iff.1 h
  rw [existingEvent, hdb, List.find?_append, hq]
  rfl

/-- One call: the table of keys only grows at its end. -/
theorem JournalStep.existing {c : Call P} {o : Outcome} (h : JournalStep py b c o b')
    (hk : existingEvent b.db k = some e) : existingEvent b'.db k = some e := by
  have hsame : b'.db.idempotency = b.db.idempotency → existingEvent b'.db k = some e := by
    intro hi
    rw [existingEvent, hi]
    exact hk
  cases h with
  | raised _ _ same => exact hsame (journal_ext.1 same).1
  | other _ _ same => exact hsame (journal_ext.1 same).1
  | skipped seq id => exact hk
  | emptyBatch now => exact hk
  | stage text eval =>
    obtain ⟨-, -, rfl⟩ := stageBody_ok eval
    exact hk
  | acknowledge ack eval =>
    obtain ⟨rows, -, hrows, -⟩ := acknowledgeBody_grows eval
    exact existingEvent_append hrows hk
  | recover eval => exact hsame (recoverBody_frame eval).1

theorem history_existing (calls : List (Call P × List Bool)) (log : List (Call P × Outcome))
    (hb : Settled b) (hk : existingEvent b.db k = some e) :
    existingEvent (history py log b calls).2.db k = some e := by
  induction calls generalizing log b with
  | nil => exact hk
  | cons call calls ih =>
    have hstep : JournalStep py b call.1 _ _ := perform_cases call.1 call.2 hb
    exact ih _ (hstep.settled hb) (hstep.existing hk)

theorem runUnder_existing {α : Type} (hb : Settled b) (fss : List (List Bool)) (p : Client P α)
    (hk : existingEvent b.db k = some e) : existingEvent (p.runUnder py fss b).2.db k = some e := by
  have hkeep : Settled (p.runUnder py fss b).2 ∧ existingEvent (p.runUnder py fss b).2.db k = some e := by
    refine Prog.drive_keeps (P := fun b => Settled b ∧ existingEvent b.db k = some e) _ ?_ fss
      p.uses_true ⟨hb, hk⟩
    intro fs s c _ hc
    have hsame : (s.perform py fs c).2 = (s.toCall.perform py fs c).2 := by cases s <;> rfl
    have hstep : JournalStep py c s.toCall _ _ := perform_cases s.toCall fs hc.1
    rw [hsame]
    exact ⟨hstep.settled hc.1, hstep.existing hc.2⟩
  exact hkeep.2

/-- The calls of a history do not depend on what was logged before. -/
theorem history_state (log log' : List (Call P × Outcome)) (b : Backend)
    (calls : List (Call P × List Bool)) : (history py log b calls).2 = (history py log' b calls).2 := by
  induction calls generalizing log log' b with
  | nil => rfl
  | cons call calls ih => exact ih _ _ _

theorem Reachable.history (hb : Reachable py b) (calls : List (Call P × List Bool)) :
    Reachable py (history py [] b calls).2 := by
  obtain ⟨log, hrun⟩ := hb
  rw [history_state [] log]
  exact ⟨_, hrun.history calls⟩

theorem known_encodable (hb : Reachable py b) {keys : List Str}
    (hknown : ∀ key ∈ keys, existingEvent b.db key ≠ none) : bindable keys = true := by
  obtain ⟨log, hrun⟩ := hb
  refine List.all_eq_true.2 fun key hkey => ?_
  obtain ⟨e, he⟩ := Option.ne_none_iff_exists'.1 (hknown key hkey)
  obtain ⟨q, hq, -⟩ := Option.map_eq_some_iff.1 he
  have hqk : q.idempotencyKey = key := by simpa using List.find?_some hq
  exact hqk ▸ hrun.keys_encodable q (List.mem_of_find?_eq_some hq)

end Known

/-! ## The answers of a batch -/

section Replay
variable {R : Rendering} {py : PyLib Json} {b : Backend} {now : ClockText} {ids : ℕ → Str}
  {events : List RunEvent} {idempotencyKeys : Option (List (Option Str))} {fss : List (List Bool)}
  {out : List IngestResult}

/-- The keys of a batch, event by event. -/
def resolvedKeys (R : Rendering) (events : List RunEvent) (idempotencyKeys : Option (List (Option Str))) :
    List Str :=
  List.zipWith (fun event key => event.resolvedKey R key) events (ingestKeys events idempotencyKeys)

/-- The event id that the first event with this key was answered with. -/
def firstAnswer (keys : List Str) (out : List IngestResult) (key : Str) : Str :=
  (((keys.zip out).lookup key).map IngestResult.eventId).getD []

theorem ingestResult_eventIds {events : List RunEvent} {results : List AcknowledgedWrite}
    (hlen : events.length = results.length) :
    (List.zipWith (ingestResult R) events results).map IngestResult.eventId =
      results.map AcknowledgedWrite.eventId := by
  induction events generalizing results with
  | nil =>
    obtain rfl := List.length_eq_zero_iff.1 hlen.symm
    rfl
  | cons event events ih =>
    obtain ⟨result, results, rfl⟩ := List.exists_cons_of_length_eq_add_one hlen.symm
    exact congrArg _ (ih (Nat.succ.inj hlen))

/-- What the recording returns does not depend on what it does. -/
theorem recordAll_out {results : List AcknowledgedWrite}
    (h : ((recordAll R events results).runUnder py fss b).1 = some (.ok out)) :
    out = List.zipWith (ingestResult R) events results := by
  let anything : List (StorageCall Json) → Backend → Prop := fun _ _ => True
  have hkeep : ∀ made (s : StorageCall Json) b b', made ++ [s] <+: recordedCalls R events results →
      s.Returned b b' → anything made b → anything (made ++ [s]) b' := fun _ _ _ _ _ _ _ => trivial
  rcases runUnder_issues hkeep (issues_recordAll events results) fss (b := b) trivial with
    ⟨out', hout', ⟨hzip, -⟩, -⟩ | ⟨hno, -⟩
  · rw [h] at hout'
    cases hout'
    exact hzip
  · exact (hno out h).elim

/-- A batch that returned was acknowledged, and its answers are those of the acknowledgement. -/
theorem ingestBatch_returned (hne : events ≠ [])
    (h : ((ingestBatch R now ids events idempotencyKeys).runUnder py fss b).1 = some (.ok out)) :
    ∃ items results w fss',
      batchItems R ids events (ingestKeys events idempotencyKeys) 0 = .ok items ∧
      (acknowledgeBody py now items).eval exec b.session.view = .ok (results, w) ∧
      out = List.zipWith (ingestResult R) events results ∧
      (ingestBatch R now ids events idempotencyKeys).runUnder py fss b =
        (recordAll R events results).runUnder py fss' { b with session := ⟨w, w⟩ } := by
  rcases ingestBatch_runs R py now ids events idempotencyKeys fss b with ⟨-, hnone⟩ |
    ⟨items, fs, -, hitems, ⟨e, b', -, hx⟩ | ⟨results, b₁, fss', hack, hx⟩⟩
  · exact (hne (hnone out h).1).elim
  · rw [hx] at h
    cases h
  · obtain ⟨w, he, rfl⟩ := batch_returned (batchItems_ne_nil hne hitems) hack
    rw [hx] at h
    exact ⟨items, results, w, fss', hitems, he, recordAll_out h, hx⟩

/-- Its answers are what its keys are acknowledged for from then on. -/
theorem ingestBatch_answered
    (h : ((ingestBatch R now ids events idempotencyKeys).runUnder py fss b).1 = some (.ok out)) :
    List.Forall₂ (fun key r => existingEvent
      ((ingestBatch R now ids events idempotencyKeys).runUnder py fss b).2.db key = some r.eventId)
      (resolvedKeys R events idempotencyKeys) out := by
  by_cases hne : events = []
  · subst hne
    simp only [ingestBatch, List.isEmpty_nil, if_true, Prog.pure_eq, Prog.drive] at h
    cases h
    exact .nil
  · obtain ⟨items, results, w, fss', hitems, he, rfl, hrun⟩ := ingestBatch_returned hne h
    have hanswers := acknowledgeBody_answers he
    have hlen : events.length = results.length := by
      rw [← batchItems_length hitems, hanswers.length_eq]
    rw [hrun, resolvedKeys, ← (batchItems_spec hitems).2.1]
    have hids : List.Forall₂ (fun key e => existingEvent
        ((recordAll R events results).runUnder py fss' { b with session := ⟨w, w⟩ }).2.db key = some e)
        (items.map BatchWriteItem.idempotencyKey) (results.map AcknowledgedWrite.eventId) := by
      rw [List.forall₂_map_left_iff, List.forall₂_map_right_iff]
      exact hanswers.imp fun item r hr => runUnder_existing (b := { b with session := ⟨w, w⟩ }) rfl fss' _ hr.event
    rw [← ingestResult_eventIds hlen, List.forall₂_map_right_iff] at hids
    exact hids

theorem firstAnswer_eq {keys : List Str} {known : Str → Option Str}
    (h : List.Forall₂ (fun key r => known key = some r.eventId) keys out) {key : Str} (hkey : key ∈ keys) :
    known key = some (firstAnswer keys out key) := by
  induction h with
  | nil => cases hkey
  | @cons k r keys out hr _ ih =>
    rw [firstAnswer, List.zip_cons_cons, List.lookup_cons]
    cases hk : key == k with
    | true =>
      obtain rfl := beq_iff_eq.1 hk
      exact hr
    | false => exact ih (List.mem_of_ne_of_mem (ne_of_beq_false hk) hkey)

/-! ## Batches whose keys are known -/

theorem batchItems_keys {items : List (BatchWriteItem Json)}
    (hitems : batchItems R ids events (ingestKeys events idempotencyKeys) 0 = .ok items) :
    items.map BatchWriteItem.idempotencyKey = resolvedKeys R events idempotencyKeys :=
  (batchItems_spec hitems).2.1

/-- What a batch with known keys is answered. -/
def replayed (R : Rendering) (first : Str → Str) (events : List RunEvent) (keys : List Str) :
    List IngestResult :=
  List.zipWith (fun event key => ⟨first key, true, true, event.runId R, event.eventType.text⟩) events keys

/-- Every event is answered from the table, and nothing else happens. -/
theorem ingestBatch_allKnown (now : ClockText) (ids : ℕ → Str) (hb : Reachable py b)
    (hlen : (ingestKeys events idempotencyKeys).length = events.length)
    (hlimit : py.limit.allows events.length = true) {first : Str → Str}
    (hknown : ∀ key ∈ resolvedKeys R events idempotencyKeys, existingEvent b.db key = some (first key)) :
    ∃ c, (ingestBatch R now ids events idempotencyKeys).run py b =
        (.ok (replayed R first events (resolvedKeys R events idempotencyKeys)), c) ∧
      c.session.view = b.session.view ∧ c.graph = b.graph ∧
      (b.session.durable = b.session.view → c = b) := by
  by_cases hne : events = []
  · subst hne
    exact ⟨b, rfl, rfl, rfl, fun _ => rfl⟩
  · obtain ⟨items, hitems⟩ := batchItems_total R ids hlen 0
    have hkeys := batchItems_keys hitems
    have hall : ∀ key ∈ resolvedKeys R events idempotencyKeys, existingEvent b.db key ≠ none := by
      intro key hkey
      rw [hknown key hkey]
      exact Option.some_ne_none _
    let answer := fun item : BatchWriteItem Json =>
      (⟨first item.idempotencyKey, item.idempotencyKey, true, true⟩ : AcknowledgedWrite)
    have hanswer : items.map (duplicateOf b.db) = items.map answer := by
      refine List.map_congr_left fun item hitem => ?_
      rw [duplicateOf, hknown _ (hkeys ▸ List.mem_map_of_mem hitem)]
      rfl
    have haccepts : py.limit.accepts (items.map BatchWriteItem.idempotencyKey) = true := by
      rw [VariableLimit.accepts, List.length_map, batchItems_length hitems, hlimit, hkeys,
        known_encodable hb hall]
      rfl
    have hrun : (ingestBatch R now ids events idempotencyKeys).run py b =
        (.ok (List.zipWith (ingestResult R) events (items.map answer)),
          { b with session := ⟨b.session.view, b.session.view⟩ }) := by
      rw [← hanswer]
      exact ingestBatch_answers now hne hitems haccepts fun item hitem =>
        hall _ (hkeys ▸ List.mem_map_of_mem hitem)
    refine ⟨{ b with session := ⟨b.session.view, b.session.view⟩ }, ?_, rfl, rfl, fun hd => ?_⟩
    · rw [hrun, replayed, ← hkeys, List.zipWith_map_right, List.zipWith_map_right]
      rfl
    · show { b with session := ⟨b.session.view, b.session.view⟩ } = b
      obtain ⟨⟨d, v⟩, g⟩ := b
      obtain rfl : d = v := hd
      rfl

/-- The event of a known key is the one of its first result in any history that leads here. -/
theorem existingEvent_original {log : List (Call Json × Outcome)} (hrun : Run py log b) {key e : Str}
    (h : existingEvent b.db key = some e) :
    ∃ r ∈ originals (results log), r.idempotencyKey = key ∧ r.eventId = e := by
  obtain ⟨q, hq, rfl⟩ := Option.map_eq_some_iff.1 h
  have hqk : q.idempotencyKey = key := by simpa using List.find?_some hq
  obtain ⟨htally, hresults⟩ := hrun.tally
  obtain ⟨r, hr, hrk, hre⟩ := htally.original (List.mem_of_find?_eq_some hq)
  exact ⟨r, hresults ▸ hr, hrk.trans hqk, hre⟩

/-- **Replaying is a no-op exactly within the limit.** Let a batch return, and let any calls follow. A
later list of events whose keys all occur in the batch is answered, event by event, as a duplicate, with
the event id that the batch answered first for the key, if and only if the list has at most as many events
as one statement may have parameters. No table changes then, neither does the graph, and if nothing was
left uncommitted, nothing changes at all. That event id is the one of the first result for the key in the
whole history. -/
theorem ingestBatch_replay_iff (hb : Reachable py b)
    (h : ((ingestBatch R now ids events idempotencyKeys).runUnder py fss b).1 = some (.ok out))
    (calls : List (Call Json × List Bool)) (now' : ClockText) (ids' : ℕ → Str) {later : List RunEvent}
    {laterKeys : Option (List (Option Str))}
    (hlen : (ingestKeys later laterKeys).length = later.length)
    (hkeys : ∀ key ∈ resolvedKeys R later laterKeys, key ∈ resolvedKeys R events idempotencyKeys) :
    let c := (history py [] ((ingestBatch R now ids events idempotencyKeys).runUnder py fss b).2 calls).2
    let first := firstAnswer (resolvedKeys R events idempotencyKeys) out
    ((∃ c', (ingestBatch R now' ids' later laterKeys).run py c =
        (.ok (replayed R first later (resolvedKeys R later laterKeys)), c') ∧
      c'.session.view = c.session.view ∧ c'.graph = c.graph ∧
      (c.session.durable = c.session.view → c' = c)) ↔ py.limit.allows later.length = true) ∧
    ∀ log, Run py log c → ∀ key ∈ resolvedKeys R later laterKeys,
      ∃ r ∈ originals (results log), r.idempotencyKey = key ∧ r.eventId = first key := by
  intro c first
  have hafter : Reachable py ((ingestBatch R now ids events idempotencyKeys).runUnder py fss b).2 :=
    runUnder_reachable hb fss _
  obtain ⟨log, hrun⟩ := hafter
  have hknown : ∀ key ∈ resolvedKeys R later laterKeys, existingEvent c.db key = some (first key) :=
    fun key hkey => history_existing calls [] hrun.settled
      (firstAnswer_eq (ingestBatch_answered h) (hkeys key hkey))
  refine ⟨⟨?_, fun hlimit => ?_⟩, fun log hrun key hkey => existingEvent_original hrun (hknown key hkey)⟩
  · rintro ⟨c', hrun', -⟩
    by_contra hlimit
    obtain ⟨e, herr⟩ := ingestBatch_beyond (R := R) now' ids' hlen (Bool.eq_false_iff.2 hlimit) c
    rw [herr] at hrun'
    cases hrun'
  · exact ingestBatch_allKnown now' ids' (Reachable.history ⟨log, hrun⟩ calls) hlen hlimit hknown

/-! ## Two keys, and again -/

/-- Two events of one run, and one under a key of its own. -/
def keyedCopies : List RunEvent := [copyOf (lit "r"), copyOf (lit "r"), copyOf (lit "q")]

def keyedCopyKeys : Option (List (Option Str)) := some [none, none, some (lit "k")]

def keyedAnswers : List IngestResult :=
  [⟨natText 0, false, true, lit "r", lit "COMPLETE"⟩, ⟨natText 0, true, true, lit "r", lit "COMPLETE"⟩,
    ⟨natText 2, false, true, lit "q", lit "COMPLETE"⟩]

/-- After the batch, the file is closed and opened again. -/
theorem ingestBatch_replay_keyed :
    let b := (history PyLib.fixed [] ((ingestBatch .fixed .fixed natText keyedCopies
      keyedCopyKeys).runUnder PyLib.fixed (List.replicate 9 []) .empty).2 [(.reopen, [])]).2
    (∃ c, (ingestBatch .fixed .fixed (fun _ => lit "e") [copyOf (lit "z"), copyOf (lit "r")]
        (some [some (lit "k"), none])).run PyLib.fixed b =
          (.ok (replayed .fixed (firstAnswer (resolvedKeys .fixed keyedCopies keyedCopyKeys) keyedAnswers)
            [copyOf (lit "z"), copyOf (lit "r")] [lit "k", lit "r:COMPLETE"]), c) ∧
      c.session.view = b.session.view) ∧
    replayed .fixed (firstAnswer (resolvedKeys .fixed keyedCopies keyedCopyKeys) keyedAnswers)
      [copyOf (lit "z"), copyOf (lit "r")] [lit "k", lit "r:COMPLETE"] =
        [⟨natText 2, true, true, lit "z", lit "COMPLETE"⟩,
          ⟨natText 0, true, true, lit "r", lit "COMPLETE"⟩] := by
  intro b
  have hkeys : resolvedKeys .fixed [copyOf (lit "z"), copyOf (lit "r")] (some [some (lit "k"), none]) =
      [lit "k", lit "r:COMPLETE"] := by decide +kernel
  obtain ⟨hreplay, -⟩ := @ingestBatch_replay_iff .fixed PyLib.fixed .empty .fixed natText keyedCopies
    keyedCopyKeys (List.replicate 9 []) keyedAnswers ⟨[], .nil⟩ (by decide +kernel) [(.reopen, [])] .fixed
    (fun _ => lit "e") [copyOf (lit "z"), copyOf (lit "r")] (some [some (lit "k"), none]) rfl (by decide +kernel)
  obtain ⟨c, h, hview, -⟩ := hreplay.2 (by decide)
  rw [hkeys] at h
  exact ⟨⟨c, h, hview⟩, by decide +kernel⟩

/-- A batch of one event, and the same event 32767 times in one later batch. -/
theorem ingestBatch_replay_fails :
    let batch := (ingestBatch .fixed .fixed natText [copyOf (lit "r")] none).runUnder PyLib.fixed
      (List.replicate 4 []) .empty
    let later := List.replicate 32767 (copyOf (lit "r"))
    batch.1 = some (.ok [⟨natText 0, false, true, lit "r", lit "COMPLETE"⟩]) ∧
      (∀ key ∈ resolvedKeys .fixed later none, key ∈ resolvedKeys .fixed [copyOf (lit "r")] none) ∧
      ¬ ∃ out c, (ingestBatch .fixed .fixed natText later none).run PyLib.fixed batch.2 = (.ok out, c) := by
  intro batch later
  refine ⟨by decide +kernel, ?_, ?_⟩
  · intro key hkey
    obtain ⟨n, hn⟩ : ∃ n, resolvedKeys .fixed later none =
        List.replicate n ((copyOf (lit "r")).derivedKey .fixed) :=
      ⟨_, List.zipWith_replicate ..⟩
    rw [hn] at hkey
    rw [List.eq_of_mem_replicate hkey]
    exact List.mem_singleton_self _
  · have hlimit : PyLib.fixed.limit.allows later.length = false := by
      rw [List.length_replicate]
      decide
    have hkeys : (ingestKeys later none).length = later.length := List.length_replicate
    obtain ⟨e, herr⟩ := ingestBatch_beyond (R := .fixed) .fixed natText hkeys hlimit batch.2
    rintro ⟨out, c, hok⟩
    rw [herr] at hok
    cases hok

end Replay
end LineageVault
