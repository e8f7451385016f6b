import LineageVault.Api.Answers
import LineageVault.OpenLineage.Duplicates
import LineageVault.Storage.ExactlyOnce
import LineageVault.Storage.OpenLedger
import LineageVault.Storage.Recovery

/-! # Runs of the server

`ServerInv` holds at every moment of every run: without the call that holds the lock the backend has a
history of calls, the acknowledgements in the notes of all requests are those of this history, and the
counters of the process are those of its requests. The call that holds the lock is `Inside`, and is the
call its request waits for. `serverInv_step` is the step, one case for each kind of it, `serverInv_run` the
run.
-/

namespace LineageVault
open Foundations
set_option autoImplicit false

/-! ## Pending events

No handler stages an event without acknowledging it, so a server has none pending once it is up. -/

section Pending
variable {P : Type} {py : PyLib P}

theorem pendingIds_acknowledged {v : Store} {now : ClockText} {item : BatchWriteItem P} {t e : Str}
    (h : e ∈ pendingIds (acknowledged py v now item t).1) : e ∈ pendingIds v.1 := by
  obtain ⟨hstaged, hne⟩ := mem_pendingIds_mark.1 (show e ∈ pendingIds (committed (staged (keyed v now
    item.idempotencyKey item.eventId) item.eventId t) item.eventId).1 from h)
  obtain ⟨r, hr, rfl, hc⟩ := mem_pendingIds.1 hstaged
  have hr : r ∈ if (v.1.walStaging.any fun q => q.eventId = item.eventId) then v.1.walStaging
      else v.1.walStaging ++ [⟨v.2.id + 1, item.eventId, t, false⟩] := hr
  split at hr
  · exact mem_pendingIds.2 ⟨r, hr, rfl, hc⟩
  · rcases List.mem_append.1 hr with hr | hr
    · exact mem_pendingIds.2 ⟨r, hr, rfl, hc⟩
    · rw [List.mem_singleton.1 hr] at hne
      exact (hne rfl).elim

theorem pendingIds_acknowledge {v w : Store} {now : ClockText} {items : List (BatchWriteItem P)}
    {rs : List AcknowledgedWrite} (h : (acknowledgeBody py now items).eval exec v = .ok (rs, w)) {e : Str}
    (he : e ∈ pendingIds w.1) : e ∈ pendingIds v.1 := by
  obtain ⟨existing, v₁, hsel, hloop⟩ := Prog.eval_stmt_cases exec h
  obtain rfl := exec_read rfl hsel
  obtain ⟨existing', hJ⟩ := acknowledgeLoop_keeps
    (J := fun _ u _ _ => ∀ e ∈ pendingIds u.1, e ∈ pendingIds v₁.1)
    (fun _ _ _ _ _ _ hJ _ => hJ)
    (fun _ _ _ _ _ _ hJ _ _ _ e he => hJ e (pendingIds_acknowledged he)) [] (fun e he => he) hloop
  exact hJ e he

theorem pendingIds_journal {v w : Store} (h : journal w = journal v) : pendingIds w.1 = pendingIds v.1 := by
  rw [pendingIds, (journal_ext.1 h).2.2.1, pendingIds]

theorem pendingIds_call {b : Backend} (hb : Settled b) (fs : List Bool) {c : Call P}
    (hskip : ∀ seq id, c ≠ .skipNumbers seq id) (hstage : ∀ eventId payload, c ≠ .stagePartial eventId payload)
    (hrecover : c ≠ .recoverUncommitted) {e : Str} (he : e ∈ pendingIds (c.perform py fs b).2.db) :
    e ∈ pendingIds b.db := by
  have hstep := @perform_cases _ py c fs b hb
  generalize c.perform py fs b = x at he hstep
  obtain ⟨o, b'⟩ := x
  cases hstep with
  | raised e settled same => rwa [pendingIds_journal same] at he
  | other noItems settled same => rwa [pendingIds_journal same] at he
  | skipped seq id => exact (hskip seq id rfl).elim
  | emptyBatch now => exact he
  | stage text eval => exact (hstage _ _ rfl).elim
  | acknowledge ack eval => exact pendingIds_acknowledge eval he
  | recover eval => exact (hrecover rfl).elim

theorem pendingIds_recovered {v w : Store} {n : ℕ} (hv : JournalInv v)
    (h : (recoverBody py).eval exec v = .ok (n, w)) : pendingIds w.1 = [] := by
  have hrows : w.1.walStaging = v.1.walStaging.map StagingRow.marked := by
    rw [(recoverBody_tables hv h).1]
  have hperm := pending_map_fst_perm w.1
  rw [hrows, pending_marked] at hperm
  exact List.perm_nil.1 hperm.symm

end Pending

/-! ## One call -/

def Note.write : Note → Option (BatchWriteItem Json × AcknowledgedWrite)
  | .acknowledged item result => some (item, result)
  | _ => none

def Note.isIngested : Note → Bool
  | .ingested => true
  | _ => false

def Note.isDuplicate : Note → Bool
  | .duplicate => true
  | _ => false

/-- The items that were acknowledged, with their results. -/
def writes (ns : List Note) : List (BatchWriteItem Json × AcknowledgedWrite) := ns.filterMap Note.write

theorem writes_zipWith (items : List (BatchWriteItem Json)) (results : List AcknowledgedWrite) :
    writes (List.zipWith .acknowledged items results) = items.zip results := by
  induction items generalizing results with
  | nil => rfl
  | cons item items ih =>
    cases results with
    | nil => rfl
    | cons result results =>
      rw [List.zipWith_cons_cons, List.zip_cons_cons, ← ih]
      rfl

theorem countP_zipWith {p : Note → Bool} (hp : ∀ item result, p (.acknowledged item result) = false)
    (items : List (BatchWriteItem Json)) (results : List AcknowledgedWrite) :
    (List.zipWith Note.acknowledged items results).countP p = 0 := by
  rw [List.countP_eq_zero]
  intro x hx
  obtain ⟨i, hi, rfl⟩ := List.mem_iff_getElem.1 hx
  rw [List.getElem_zipWith, hp]
  exact Bool.false_ne_true

/-- How a call of the storage may end. -/
inductive StorageCall.Ends : StorageCall Json → Outcome → Prop where
  | write (now : ClockText) (item : BatchWriteItem Json) (result : AcknowledgedWrite) :
      StorageCall.Ends (.acknowledgeWrite now item) (.acks [result])
  | batch (now : ClockText) (items : List (BatchWriteItem Json)) (results : List AcknowledgedWrite)
      (each : results.length = items.length) : StorageCall.Ends (.acknowledgeWritesBatch now items) (.acks results)
  | done (call : StorageCall Json) (silent : call.silent) : call.Ends .done
  | raised (call : StorageCall Json) (e : PyErr) : call.Ends (.raised e)

section Calls
variable {py : PyLib Json} {call : StorageCall Json} {c : WriterCall Json} {o : Outcome} {b : Backend}

theorem locked_eq_none (h : call.locked = none) : ∃ now, call = .acknowledgeWritesBatch now [] := by
  cases call with
  | acknowledgeWritesBatch now items =>
    cases items with
    | nil => exact ⟨now, rfl⟩
    | cons item items => cases h
  | _ => cases h

theorem ends_unlocked (h : call.locked = none) : call.Ends (.acks []) := by
  obtain ⟨now, rfl⟩ := locked_eq_none h
  exact .batch now [] [] rfl

theorem writes_unlocked (h : call.locked = none) (ho : call.Ends o) :
    writes (notes (.storage call) (call.reply o)) = [] := by
  obtain ⟨now, rfl⟩ := locked_eq_none h
  cases ho with
  | batch now items results each => rfl
  | done call silent => exact silent.elim
  | raised call e => rfl

theorem locks_locked (h : call.locked = some c) : c.Locks py := by
  cases call with
  | acknowledgeWrite now item =>
    cases h
    exact List.cons_ne_nil item []
  | acknowledgeWritesBatch now items =>
    cases items with
    | nil => cases h
    | cons item items =>
      cases h
      exact List.cons_ne_nil item items
  | _ =>
    cases h
    trivial

/-- Only calls of the storage take the lock. -/
theorem storage_locked {next : Option ServiceCall} (h : next.bind ServiceCall.locked = some c) :
    ∃ call, next = some (.storage call) ∧ call.locked = some c := by
  obtain ⟨s, hnext, hs⟩ := Option.bind_eq_some_iff.1 h
  cases s with
  | storage call => exact ⟨call, hnext, hs⟩
  | _ => cases hs

theorem batch_length {fs : List Bool} {now : ClockText} {items : List (BatchWriteItem Json)}
    {rs : List AcknowledgedWrite} {b' : Backend} (hne : items ≠ [])
    (h : b.acknowledgeWritesBatch py fs now items = (.ok rs, b')) : rs.length = items.length := by
  obtain ⟨w, heval, -⟩ := batch_returned hne h
  exact acknowledgeBody_length heval

theorem ends_perform (h : call.locked = some c) (fs : List Bool) (b : Backend) :
    call.Ends (c.toCall.perform py fs b).1 := by
  cases call with
  | acknowledgeWrite now item =>
    cases h
    simp only [WriterCall.toCall, LedgerCall.toCall, Call.perform, Prod.map]
    cases hb : b.acknowledgeWritesBatch py fs now [item] with
    | mk x b' =>
      cases x with
      | error e => exact .raised _ e
      | ok rs =>
        obtain ⟨r, rfl⟩ := List.length_eq_one_iff.1 (batch_length (List.cons_ne_nil item []) hb)
        exact .write now item r
  | acknowledgeWritesBatch now items =>
    cases items with
    | nil => cases h
    | cons item items =>
      cases h
      simp only [WriterCall.toCall, LedgerCall.toCall, Call.perform, Prod.map]
      cases hb : b.acknowledgeWritesBatch py fs now (item :: items) with
      | mk x b' =>
        cases x with
        | error e => exact .raised _ e
        | ok rs => exact .batch now _ rs (batch_length (List.cons_ne_nil item items) hb)
  | addDatasetEdge src dst transformId eventTime schemaVersion payload =>
    cases h
    simp only [WriterCall.toCall, Call.perform, Prod.map]
    cases (b.addDatasetEdge py fs src dst transformId eventTime schemaVersion payload).1 with
    | error e => exact .raised _ e
    | ok u => exact .done _ trivial
  | recordFieldMapping runId outputDataset inputDataset fieldMap =>
    cases h
    simp only [WriterCall.toCall, Call.perform, Prod.map]
    cases (b.recordFieldMapping fs runId outputDataset inputDataset fieldMap).1 with
    | error e => exact .raised _ e
    | ok u => exact .done _ trivial
  | storeRunEvent runId eventType payload =>
    cases h
    simp only [WriterCall.toCall, Call.perform, Prod.map]
    cases (b.storeRunEvent py fs runId eventType payload).1 with
    | error e => exact .raised _ e
    | ok u => exact .done _ trivial

/-- The reply is that of the whole call. -/
theorem perform_locked (h : call.locked = some c) (fs : List Bool) (b : Backend) :
    call.perform py fs b = (call.reply (c.toCall.perform py fs b).1, (c.toCall.perform py fs b).2) := by
  cases call with
  | acknowledgeWrite now item =>
    cases h
    simp only [StorageCall.perform, Backend.acknowledgeWrite, WriterCall.toCall, LedgerCall.toCall, Call.perform]
    obtain ⟨x, b'⟩ := b.acknowledgeWritesBatch py fs now [item]
    cases x with
    | error e => rfl
    | ok rs => cases rs <;> rfl
  | acknowledgeWritesBatch now items =>
    cases items with
    | nil => cases h
    | cons item items =>
      cases h
      simp only [StorageCall.perform, WriterCall.toCall, LedgerCall.toCall, Call.perform]
      obtain ⟨x, b'⟩ := b.acknowledgeWritesBatch py fs now (item :: items)
      cases x <;> rfl
  | addDatasetEdge src dst transformId eventTime schemaVersion payload =>
    cases h
    simp only [StorageCall.perform, WriterCall.toCall, Call.perform]
    obtain ⟨x, b'⟩ := b.addDatasetEdge py fs src dst transformId eventTime schemaVersion payload
    cases x <;> rfl
  | recordFieldMapping runId outputDataset inputDataset fieldMap =>
    cases h
    simp only [StorageCall.perform, WriterCall.toCall, Call.perform]
    obtain ⟨x, b'⟩ := b.recordFieldMapping fs runId outputDataset inputDataset fieldMap
    cases x <;> rfl
  | storeRunEvent runId eventType payload =>
    cases h
    simp only [StorageCall.perform, WriterCall.toCall, Call.perform]
    obtain ⟨x, b'⟩ := b.storeRunEvent py fs runId eventType payload
    cases x <;> rfl

/-- What the storage acknowledged in a call is what the history of the backend says. -/
theorem writes_ended (h : call.locked = some c) (ho : call.Ends o) :
    writes (notes (.storage call) (call.reply o)) = answered [(c.toCall, o)] ∧
      recoveredCount [(c.toCall, o)] = 0 := by
  cases ho with
  | write now item result =>
    cases h
    exact ⟨rfl, rfl⟩
  | batch now items results each =>
    cases items with
    | nil => cases h
    | cons item items =>
      cases h
      refine ⟨?_, rfl⟩
      change writes (List.zipWith .acknowledged (item :: items) results) = _
      rw [writes_zipWith]
      exact (List.append_nil _).symm
  | done call silent =>
    rw [notes_silent silent]
    exact ⟨rfl, rfl⟩
  | raised call e =>
    cases call with
    | _ => exact ⟨rfl, rfl⟩

theorem expected_ended (ho : call.Ends o) : Expected (.storage call) (call.reply o) := by
  cases ho with
  | batch now items results each => exact each
  | write now item result => trivial
  | done call silent =>
    cases call with
    | acknowledgeWritesBatch now items => exact silent.elim
    | _ => trivial
  | raised call e =>
    cases call with
    | _ => trivial

theorem pending_locked (h : call.locked = some c) (hb : Settled b) (fs : List Bool)
    (hnone : pendingIds b.db = []) : pendingIds (c.toCall.perform py fs b).2.db = [] := by
  have hother : (∀ seq id, c.toCall ≠ .skipNumbers seq id) ∧
      (∀ eventId payload, c.toCall ≠ .stagePartial eventId payload) ∧ c.toCall ≠ .recoverUncommitted := by
    cases call with
    | acknowledgeWritesBatch now items =>
      cases items with
      | nil => cases h
      | cons item items =>
        cases h
        exact ⟨nofun, nofun, nofun⟩
    | _ =>
      cases h
      exact ⟨nofun, nofun, nofun⟩
  obtain ⟨hskip, hstage, hrecover⟩ := hother
  refine List.eq_nil_iff_forall_not_mem.2 fun e he => ?_
  have hmem := pendingIds_call hb fs hskip hstage hrecover he
  rw [hnone] at hmem
  cases hmem

/-- A call counts what it notes. -/
theorem metrics_perform (fails : Bool) (ended : Outcome) (s : ServiceCall) (w : World) :
    (s.perform py fails ended w).2.metrics.eventsIngested =
        w.metrics.eventsIngested + (notes s (s.perform py fails ended w).1).countP Note.isIngested ∧
      (s.perform py fails ended w).2.metrics.eventsDuplicate =
        w.metrics.eventsDuplicate + (notes s (s.perform py fails ended w).1).countP Note.isDuplicate := by
  cases s with
  | storage call =>
    have hnone : ∀ p : Note → Bool, (∀ item result, p (.acknowledged item result) = false) →
        (notes (.storage call) (call.reply ended)).countP p = 0 := by
      intro p hp
      cases call with
      | acknowledgeWrite now item =>
        cases (StorageCall.acknowledgeWrite now item).reply ended with
        | error e => rfl
        | ok result => exact countP_zipWith hp [item] [result]
      | acknowledgeWritesBatch now items =>
        cases (StorageCall.acknowledgeWritesBatch now items).reply ended with
        | error e => rfl
        | ok results => exact countP_zipWith hp items results
      | _ => exact congrArg (List.countP p) (notes_silent (by trivial) _)
    exact ⟨congrArg (w.metrics.eventsIngested + ·) (hnone _ fun _ _ => rfl).symm,
      congrArg (w.metrics.eventsDuplicate + ·) (hnone _ fun _ _ => rfl).symm⟩
  | _ => exact ⟨rfl, rfl⟩

theorem connection_perform (fails : Bool) (ended : Outcome) (s : ServiceCall) (w : World) :
    (s.perform py fails ended w).2.connection = w.connection := by
  cases s with
  | _ => rfl

end Calls

/-! ## One reply -/

abbrev Served.Faithful (x : Served) : Prop := Exchange.Faithful Expected notes (fun _ => Accounts) Tolerable x

/-- What a reply adds to the notes of a request and to the counters. -/
structure Replied (ended : Outcome) (x x' : Served) (w w' : World) (new : List Note) : Prop where
  noted : x'.notes = x.notes ++ new
  faithful : x'.Faithful
  connection : w'.connection = w.connection
  ingested : w'.metrics.eventsIngested = w.metrics.eventsIngested + new.countP Note.isIngested
  duplicate : w'.metrics.eventsDuplicate = w.metrics.eventsDuplicate + new.countP Note.isDuplicate
  locked : ∀ c, x.next.bind ServiceCall.locked = some c → writes new = answered [(c.toCall, ended)] ∧
    recoveredCount [(c.toCall, ended)] = 0
  unlocked : x.next.bind ServiceCall.locked = none → writes new = []

section Reply
variable {py : PyLib Json} {x x' : Served} {w w' : World} {fails : Bool} {ended : Outcome}

theorem expected_perform (hchain : Chained py w.backend.session.view) {s : ServiceCall}
    (hended : ∀ call, s = .storage call → call.Ends ended) : Expected s (s.perform py fails ended w).1 := by
  cases s with
  | storage call => exact expected_ended (hended call rfl)
  | verify =>
    simp only [ServiceCall.perform]
    rw [hchain.verifyIntegrity]
    split
    · trivial
    · rfl
  | countAcknowledged =>
    simp only [ServiceCall.perform]
    split <;> trivial
  | _ => trivial

theorem replied (hchain : Chained py w.backend.session.view) (hx : x.Faithful)
    (hended : ∀ call, x.next = some (.storage call) → call.Ends ended)
    (ha : x.advance notes (ServiceCall.perform py fails ended) w = some (x', w')) :
    ∃ new, Replied ended x x' w w' new := by
  have hfaithful : x'.Faithful := by
    refine Exchange.faithful_advance (fun s hs => ?_) hx ha
    exact expected_perform hchain fun call hcall => hended call (by rw [hs, hcall])
  rcases Exchange.advance_cases ha with ⟨s, hnext, rfl, hnotes⟩ | ⟨hnext, rfl, hnotes⟩
  · obtain ⟨hingested, hduplicate⟩ := @metrics_perform py fails ended s w
    refine ⟨_, hnotes, hfaithful, connection_perform fails ended s w, hingested, hduplicate, ?_, ?_⟩
    · intro c hc
      rw [hnext, Option.bind_some] at hc
      cases s with
      | storage call => exact writes_ended hc (hended call hnext)
      | _ => cases hc
    · intro hnone
      rw [hnext, Option.bind_some] at hnone
      cases s with
      | storage call => exact writes_unlocked hnone (hended call hnext)
      | _ => rfl
  · refine ⟨[], by rwa [List.append_nil], hfaithful, rfl, rfl, rfl, fun c hc => ?_, fun _ => rfl⟩
    rw [hnext] at hc
    cases hc

end Reply

/-! ## The server -/

def allNotes (xs : List Served) : List Note := xs.flatMap Exchange.notes

/-- The call that holds the lock is the one its request waits for, and is inside on `b`. -/
inductive Locking (py : PyLib Json) (b : Backend) (s : Server) : Prop where
  | free (holder : s.holder = none) (connection : s.world.connection = ⟨b, none⟩)
  | held (i : ℕ) (x : Served) (c : WriterCall Json) (holder : s.holder = some i) (served : s.served[i]? = some x)
      (locked : x.next.bind ServiceCall.locked = some c) (inside : Inside py c b s.world.connection)

/-- `before` is the history of the database when the first process was started, `b` the backend without
the call that holds the lock. -/
structure ServerInv (app : App) (before : List (Call Json × Outcome)) (b : Backend) (s : Server) : Prop where
  history : ∃ log, Run app.py (before ++ log) b ∧
    (writes (allNotes s.exchanges)).Perm (answered log) ∧ recoveredCount log = s.recovered
  locking : Locking app.py b s
  faithful : ∀ x ∈ s.exchanges, Served.Faithful x
  nonePending : s.up = true → pendingIds b.db = []
  ingested : s.world.metrics.eventsIngested = (allNotes s.served).countP Note.isIngested
  duplicate : s.world.metrics.eventsDuplicate = (allNotes s.served).countP Note.isDuplicate

section Server
variable {app : App} {before : List (Call Json × Outcome)} {b : Backend} {s s' : Server}

theorem ServerInv.durable (h : ServerInv app before b s) :
    s.world.backend.session.durable = b.session.durable := by
  cases h.locking with
  | free holder connection => rw [World.backend, connection]
  | held i x c holder served locked inside => exact inside.unchanged.1

theorem ServerInv.chained (h : ServerInv app before b s) : Chained app.py s.world.backend.session.view := by
  obtain ⟨log, hrun, -⟩ := h.history
  cases h.locking with
  | free holder connection =>
    rw [World.backend, connection]
    exact hrun.chainInv
  | held i x c holder served locked inside => exact chained_inside hrun inside

theorem serverInv_down (hb : Run app.py before b) : ServerInv app before b (.down b) where
  history := ⟨[], by rwa [List.append_nil], .refl _, rfl⟩
  locking := .free rfl rfl
  faithful x hx := by cases hx
  nonePending hup := by cases hup
  ingested := rfl
  duplicate := rfl

theorem allNotes_append (xs ys : List Served) : allNotes (xs ++ ys) = allNotes xs ++ allNotes ys :=
  List.flatMap_append

theorem recoveredCount_append (l l' : List (Call Json × Outcome)) :
    recoveredCount (l ++ l') = recoveredCount l + recoveredCount l' := by
  induction l' using List.reverseRecOn generalizing l with
  | nil => simp only [List.append_nil, recoveredCount, Nat.add_zero]
  | append_singleton l' x ih =>
    rw [← List.append_assoc, recoveredCount_snoc, ih, recoveredCount_snoc, Nat.add_assoc]

/-- A new process: the old one's requests are over, its recovery is in the history. -/
theorem serverInv_start (h : ServerInv app before b s) (fs : List Bool) :
    ∃ b', ServerInv app before b' (s.start app.py fs) := by
  obtain ⟨log, hrun, hperm, hrecovered⟩ := h.history
  have hreopen : s.world.backend.reopen = b.reopen := by rw [Backend.reopen, h.durable, Backend.reopen]
  have hopen : Run app.py (before ++ log ++ [(.reopen, .done)]) b.reopen := .snoc .reopen [] hrun
  have hnext := Run.snoc .recoverUncommitted fs hopen
  rw [List.append_assoc, List.append_assoc] at hnext
  have hwrites : ∀ o, (∃ n, o = Outcome.recovered n) ∨ (∃ e, o = Outcome.raised e) →
      (writes (allNotes (s.past ++ s.served))).Perm
        (answered (log ++ ([(Call.reopen, Outcome.done)] ++ [(.recoverUncommitted, o)]))) := by
    intro o ho
    rw [answered_append, answered_append]
    have hnil : answered [(Call.recoverUncommitted, o)] = ([] : List (BatchWriteItem Json × _)) := by
      rcases ho with ⟨n, rfl⟩ | ⟨e, rfl⟩ <;> rfl
    rw [hnil, List.append_nil, show answered [(Call.reopen, Outcome.done)] =
      ([] : List (BatchWriteItem Json × _)) from rfl, List.append_nil]
    exact hperm
  have hall : ∀ (w : World) (up : Bool) (n : ℕ),
      Server.exchanges ⟨w, up, none, [], s.past ++ s.served, n⟩ = s.past ++ s.served :=
    fun _ _ _ => List.append_nil _
  unfold Server.start
  rw [hreopen]
  simp only [Call.perform] at hnext
  cases hr : b.reopen.recoverUncommitted app.py fs with
  | mk x b' =>
    rw [hr] at hnext
    refine ⟨b', ?_⟩
    cases x with
    | error e =>
      refine ⟨⟨_, hnext, ?_, ?_⟩, .free rfl rfl, ?_, fun hup => (Bool.false_ne_true hup).elim, rfl, rfl⟩
      · rw [hall]
        exact hwrites _ (.inr ⟨e, rfl⟩)
      · rw [recoveredCount_append, hrecovered]
        rfl
      · intro x hx
        rw [hall] at hx
        exact h.faithful x hx
    | ok n =>
      refine ⟨⟨_, hnext, ?_, ?_⟩, .free rfl rfl, ?_, fun _ => ?_, rfl, rfl⟩
      · rw [hall]
        exact hwrites _ (.inl ⟨n, rfl⟩)
      · rw [recoveredCount_append, hrecovered]
        rfl
      · intro x hx
        rw [hall] at hx
        exact h.faithful x hx
      · obtain ⟨v, heval, rfl⟩ := guarded_returned hr
        exact pendingIds_recovered hopen.journalInv heval

theorem serverInv_accept (h : ServerInv app before b s) (request : Request) :
    ServerInv app before b { s with served := s.served ++ [.begun app.respond request] } := by
  have hnotes : ∀ xs : List Served, allNotes (xs ++ [Exchange.begun app.respond request]) = allNotes xs := by
    intro xs
    rw [allNotes_append]
    exact List.append_nil _
  have hexchanges : Server.exchanges { s with served := s.served ++ [.begun app.respond request] } =
      s.exchanges ++ [Exchange.begun app.respond request] := (List.append_assoc ..).symm
  refine ⟨?_, ?_, ?_, h.nonePending, ?_, ?_⟩
  · rw [hexchanges, hnotes]
    exact h.history
  · cases h.locking with
    | free holder connection => exact .free holder connection
    | held i x c holder served locked inside =>
      have hi : i < s.served.length := (List.getElem?_eq_some_iff.1 served).1
      exact .held i x c holder (by rwa [List.getElem?_append_left hi]) locked inside
  · intro x hx
    rw [hexchanges] at hx
    rcases List.mem_append.1 hx with hx | hx
    · exact h.faithful x hx
    · rw [List.mem_singleton.1 hx]
      exact yields_respond app request
  · rw [hnotes]
    exact h.ingested
  · rw [hnotes]
    exact h.duplicate

theorem allNotes_stop (xs : List Served) : allNotes (xs.map Exchange.stop) = allNotes xs := by
  rw [allNotes, List.flatMap_map, allNotes]
  exact congrArg (fun f => xs.flatMap f) (funext fun x => Exchange.stop_notes x)

theorem serverInv_stop (h : ServerInv app before b s) :
    ServerInv app before b.reopen
      { s with world := { s.world with connection := ⟨s.world.backend.reopen, none⟩ }, up := false,
               holder := none, served := s.served.map Exchange.stop } := by
  obtain ⟨log, hrun, hperm, hrecovered⟩ := h.history
  refine ⟨⟨log ++ [(.reopen, .done)], ?_, ?_, ?_⟩, ?_, ?_, fun hup => (Bool.false_ne_true hup).elim, ?_, ?_⟩
  · rw [← List.append_assoc]
    exact .snoc .reopen [] hrun
  · rw [Server.exchanges, allNotes_append, allNotes_stop, ← allNotes_append, answered_append]
    exact hperm.trans (.of_eq (List.append_nil _).symm)
  · rw [recoveredCount_append]
    exact hrecovered
  · refine .free rfl ?_
    rw [Backend.reopen, h.durable, Backend.reopen]
  · intro x hx
    rcases List.mem_append.1 hx with hx | hx
    · exact h.faithful x (List.mem_append_left _ hx)
    · obtain ⟨y, hy, rfl⟩ := List.mem_map.1 hx
      exact Exchange.faithful_stop (h.faithful y (List.mem_append_right _ hy))
  · rw [allNotes_stop]
    exact h.ingested
  · rw [allNotes_stop]
    exact h.duplicate

/-- A request is replied to; `made` are the calls that have ended with it. -/
theorem serverInv_replied (h : ServerInv app before b s) {i : ℕ} {x x' : Served} {w w' : World}
    {holder : Option ℕ} {ended : Outcome} {new : List Note} {b' : Backend} {made : List (Call Json × Outcome)}
    (hx : s.served[i]? = some x) (hr : Replied ended x x' w w' new) (hmetrics : w.metrics = s.world.metrics)
    (hrun : ∀ log, Run app.py log b → Run app.py (log ++ made) b')
    (hanswered : writes new = answered made) (hrecovered : recoveredCount made = 0)
    (hnone : pendingIds b.db = [] → pendingIds b'.db = [])
    (hlocking : Locking app.py b' { s with world := w', holder := holder, served := s.served.set i x' }) :
    ServerInv app before b' { s with world := w', holder := holder, served := s.served.set i x' } := by
  obtain ⟨log, hlog, hperm, hcount⟩ := h.history
  have hserved : (allNotes (s.served.set i x')).Perm (allNotes s.served ++ new) := flatMap_set_perm hx hr.noted
  have hall : (allNotes (s.past ++ s.served.set i x')).Perm (allNotes s.exchanges ++ new) := by
    rw [Server.exchanges, allNotes_append, allNotes_append, List.append_assoc]
    exact hserved.append_left _
  refine ⟨⟨log ++ made, ?_, ?_, ?_⟩, hlocking, ?_, fun hup => hnone (h.nonePending hup), ?_, ?_⟩
  · rw [← List.append_assoc]
    exact hrun _ hlog
  · refine (hall.filterMap Note.write).trans ?_
    rw [List.filterMap_append, answered_append, ← hanswered]
    exact hperm.append_right _
  · rw [recoveredCount_append, hrecovered, hcount, Nat.add_zero]
  · intro y hy
    rcases List.mem_append.1 hy with hy | hy
    · exact h.faithful y (List.mem_append_left _ hy)
    · rcases List.mem_or_eq_of_mem_set hy with hy | rfl
      · exact h.faithful y (List.mem_append_right _ hy)
      · exact hr.faithful
  · rw [hserved.countP_eq, List.countP_append, ← h.ingested, ← hmetrics]
    exact hr.ingested
  · rw [hserved.countP_eq, List.countP_append, ← h.duplicate, ← hmetrics]
    exact hr.duplicate

/-- A call without the lock, or the answer. -/
theorem serverInv_reply (h : ServerInv app before b s) {i : ℕ} {fails : Bool} {x : Served}
    (hx : s.served[i]? = some x) (hnone : x.next.bind ServiceCall.locked = none)
    (hs : s.reply app fails (.acks []) i x = some s') : ServerInv app before b s' := by
  obtain ⟨⟨x', w⟩, ha, rfl⟩ := Option.map_eq_some_iff.1 hs
  have hended : ∀ call, x.next = some (.storage call) → call.Ends (.acks []) := by
    intro call hnext
    rw [hnext] at hnone
    exact ends_unlocked hnone
  have hfaithful : x.Faithful := h.faithful x (List.mem_append_right _ (List.mem_of_getElem? hx))
  obtain ⟨new, hr⟩ := replied h.chained hfaithful hended ha
  have hwrites : writes new = answered ([] : List (Call Json × Outcome)) := hr.unlocked hnone
  refine serverInv_replied h hx hr rfl (fun log hrun => by rwa [List.append_nil]) hwrites rfl id ?_
  cases h.locking with
  | free holder connection => exact .free holder (hr.connection.trans connection)
  | held j y c holder served locked inside =>
    have hne : i ≠ j := by
      rintro rfl
      obtain rfl : x = y := Option.some.inj (hx.symm.trans served)
      rw [hnone] at locked
      cases locked
    refine .held j y c holder ?_ locked ?_
    · rw [List.getElem?_set_ne hne]
      exact served
    · rw [hr.connection]
      exact inside

/-- The call that holds the lock: a statement, or its end and the reply. -/
theorem serverInv_execute (h : ServerInv app before b s) {i : ℕ} {fails : Bool} {x : Served} {r : Running}
    {c : WriterCall Json} (hx : s.served[i]? = some x) (hlocked : x.next.bind ServiceCall.locked = some c)
    (hholder : s.holder = some i) (hr : s.world.connection.running = some r)
    (hs : s.execute app fails i x r = some s') : ∃ b', ServerInv app before b' s' := by
  cases h.locking with
  | free holder connection =>
    rw [hholder] at holder
    cases holder
  | held j y c' holder served locked inside =>
    obtain rfl : i = j := Option.some.inj (hholder.symm.trans holder)
    obtain rfl : x = y := Option.some.inj (hx.symm.trans served)
    obtain rfl : c = c' := Option.some.inj (hlocked.symm.trans locked)
    unfold Server.execute at hs
    rcases inside_advance inside hr fails with ⟨ho, hinside⟩ | ⟨fs, o, ho, hover, hperform⟩
    · simp only [ho] at hs
      cases hs
      exact ⟨b, h.history, .held i x c hholder hx hlocked hinside, h.faithful, h.nonePending, h.ingested,
        h.duplicate⟩
    · simp only [ho] at hs
      obtain ⟨⟨x', w⟩, ha, rfl⟩ := Option.map_eq_some_iff.1 hs
      obtain ⟨call, hnext, hcall⟩ := storage_locked hlocked
      have hended : ∀ call, x.next = some (.storage call) → call.Ends o := by
        intro call' hnext'
        rw [hnext] at hnext'
        cases hnext'
        rw [← hperform]
        exact ends_perform hcall fs b
      have hfaithful : x.Faithful := h.faithful x (List.mem_append_right _ (List.mem_of_getElem? hx))
      have hrun : ∀ log, Run app.py log b →
          Run app.py (log ++ [(c.toCall, o)]) (c.toCall.perform app.py fs b).2 := by
        intro log hlog
        rw [← hperform]
        exact .snoc c.toCall fs hlog
      obtain ⟨log, hlog, -⟩ := h.history
      have hsettled := hlog.settled
      have hchain : Chained app.py (s.world.connection.advance fails r).backend.session.view := by
        rw [hover]
        exact (hrun _ hlog).chainInv
      obtain ⟨new, hr'⟩ := replied hchain hfaithful hended ha
      obtain ⟨hwrites, hcount⟩ := hr'.locked c hlocked
      exact ⟨_, serverInv_replied h hx hr' rfl hrun hwrites hcount (pending_locked hcall hsettled fs)
        (.free rfl (hr'.connection.trans hover))⟩

/-- A request takes the lock, or goes on with it. -/
theorem serverInv_locked (h : ServerInv app before b s) {i : ℕ} {fails : Bool} {x : Served}
    {c : WriterCall Json} (hx : s.served[i]? = some x) (hlocked : x.next.bind ServiceCall.locked = some c)
    (hs : s.locked app fails c i x = some s') : ∃ b', ServerInv app before b' s' := by
  unfold Server.locked at hs
  split at hs
  · next hholder =>
    obtain ⟨g, hg, rfl⟩ := Option.map_eq_some_iff.1 hs
    have hlocks : c.Locks app.py := by
      obtain ⟨call, -, hcall⟩ := storage_locked hlocked
      exact locks_locked hcall
    obtain ⟨-, hinside⟩ := inside_start hlocks hg
    cases h.locking with
    | free holder connection =>
      rw [connection] at hinside
      exact ⟨b, h.history, .held i x c rfl hx hlocked hinside, h.faithful, h.nonePending, h.ingested, h.duplicate⟩
    | held j y c' holder =>
      rw [hholder] at holder
      cases holder
  · next j hholder =>
    split at hs
    · next hj =>
      subst hj
      obtain ⟨r, hr, hs⟩ := Option.bind_eq_some_iff.1 hs
      exact serverInv_execute h hx hlocked hholder hr hs
    · cases hs

theorem serverInv_step (h : ServerInv app before b s) {a : ServerStep} (hs : s.step app a = some s') :
    ∃ b', ServerInv app before b' s' := by
  cases a with
  | start fs =>
    simp only [Server.step] at hs
    split at hs
    · cases hs
    · cases hs
      exact serverInv_start h fs
  | accept request =>
    simp only [Server.step] at hs
    split at hs
    · cases hs
      exact ⟨b, serverInv_accept h request⟩
    · cases hs
  | proceed i fails =>
    simp only [Server.step] at hs
    split at hs
    · obtain ⟨x, hx, hs⟩ := Option.bind_eq_some_iff.1 hs
      split at hs
      · next c hlocked => exact serverInv_locked h hx hlocked hs
      · next hnone => exact ⟨b, serverInv_reply h hx hnone hs⟩
    · cases hs
  | stop =>
    simp only [Server.step] at hs
    split at hs
    · cases hs
      exact ⟨b.reopen, serverInv_stop h⟩
    · cases hs

theorem serverInv_run {steps : List ServerStep} (h : ServerInv app before b s)
    (hs : s.run app steps = some s') : ∃ b', ServerInv app before b' s' := by
  induction steps generalizing s b with
  | nil =>
    cases hs
    exact ⟨b, h⟩
  | cons a steps ih =>
    obtain ⟨s₁, h₁, hrest⟩ := Option.bind_eq_some_iff.1 hs
    obtain ⟨b₁, hinv⟩ := serverInv_step h h₁
    exact ih hinv hrest

end Server

end LineageVault
