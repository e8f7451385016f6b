import LineageVault.Foundations.Clients
import LineageVault.Foundations.LastWriter
import LineageVault.OpenLineage.Duplicates
import LineageVault.OpenLineage.Facets

/-! # `run_events` and the ledger

An ingest fixes the place of an event in the ledger with one call and stores its run event with a later
one. Among several clients the stores may come in another order than the events in the ledger, and then
an older event stays (`runEvents_overtaken`). `runEvents_agree` says what holds as long as no store is
overtaken: none is made once `run_events` has an event that was acknowledged after all those with the
payload to be stored.
-/

namespace LineageVault
open Foundations Clients
set_option autoImplicit false

/-! ## The code -/

section Code
variable {P : Type}

/-- The text that `SELECT payload FROM run_events` finds. -/
def runEventText (db : Db) (runId eventType : Str) : Option Str :=
  (db.runEvents.find? fun row => row.runId = runId ∧ row.eventType = eventType).map RunEventRow.payload

/-- `get_run_event` -/
def Backend.getRunEvent (py : PyLib P) (b : Backend) (runId eventType : Str) : Except PyErr (Option P) :=
  if bindable [runId, eventType] then
    match runEventText b.db runId eventType with
    | some payloadText => (py.loads payloadText).map some
    | none => .ok none
  else .error .unicodeEncodeError

end Code

/-- A call of the ingestor. -/
inductive IngestCall where
  | ingest (now : ClockText) (ids : ℕ → Str) (event : RunEvent) (idempotencyKey : Option Str)
  | ingestBatch (now : ClockText) (ids : ℕ → Str) (events : List RunEvent)
      (idempotencyKeys : Option (List (Option Str)))

namespace IngestCall

def events : IngestCall → List RunEvent
  | .ingest _ _ event _ => [event]
  | .ingestBatch _ _ events _ => events

def prog (R : Rendering) : IngestCall → Client Json (List IngestResult)
  | .ingest now ids event key => do
    let result ← LineageVault.ingest R now ids event key
    return [result]
  | .ingestBatch now ids events keys => LineageVault.ingestBatch R now ids events keys

end IngestCall

/-! ## Rows of `run_events` -/

/-- Replacing the rows of one key does not change which row is found. -/
theorem find_replaced (rows : List RunEventRow) (row : RunEventRow) (r t : Str) :
    (rows.map fun q => if q.runId = row.runId ∧ q.eventType = row.eventType then row else q).find?
        (fun q => q.runId = r ∧ q.eventType = t) =
      (rows.find? fun q => q.runId = r ∧ q.eventType = t).map fun q =>
        if q.runId = row.runId ∧ q.eventType = row.eventType then row else q := by
  rw [List.find?_map]
  congr 1
  refine congrArg (fun p => List.find? p rows) (funext fun q => ?_)
  simp only [Function.comp_apply]
  split
  · next h => rw [h.1, h.2]
  · rfl

theorem runEventText_upsert (db : Db) (row : RunEventRow) (r t : Str) :
    runEventText { db with runEvents := upsertRunEvent row db.runEvents } r t =
      if row.runId = r ∧ row.eventType = t then some row.payload else runEventText db r t := by
  unfold runEventText upsertRunEvent
  dsimp only
  by_cases hkey : row.runId = r ∧ row.eventType = t
  · obtain ⟨rfl, rfl⟩ := hkey
    have hself : row.runId = row.runId ∧ row.eventType = row.eventType := ⟨rfl, rfl⟩
    rw [if_pos hself]
    cases hfound : db.runEvents.find? fun q => q.runId = row.runId ∧ q.eventType = row.eventType with
    | some q =>
      have hq : q.runId = row.runId ∧ q.eventType = row.eventType := by simpa using List.find?_some hfound
      have hany : (db.runEvents.any fun q => q.runId = row.runId ∧ q.eventType = row.eventType) = true :=
        List.any_eq_true.2 ⟨q, List.mem_of_find?_eq_some hfound, by simpa using hq⟩
      rw [if_pos hany, find_replaced, hfound, Option.map_some, Option.map_some, if_pos hq]
    | none =>
      have hany : ¬ (db.runEvents.any fun q => q.runId = row.runId ∧ q.eventType = row.eventType) = true := by
        simpa using hfound
      rw [if_neg hany, List.find?_append, hfound]
      simp
  · rw [if_neg hkey]
    by_cases hany : (db.runEvents.any fun q => q.runId = row.runId ∧ q.eventType = row.eventType) = true
    · rw [if_pos hany, find_replaced, Option.map_map]
      cases hfound : db.runEvents.find? fun q => q.runId = r ∧ q.eventType = t with
      | none => rfl
      | some q =>
        have hq : q.runId = r ∧ q.eventType = t := by simpa using List.find?_some hfound
        have hne : ¬ (q.runId = row.runId ∧ q.eventType = row.eventType) := by
          rintro ⟨h₁, h₂⟩
          exact hkey ⟨h₁ ▸ hq.1, h₂ ▸ hq.2⟩
        simp only [Option.map_some, Function.comp_apply, if_neg hne]
    · rw [if_neg hany, List.find?_append]
      have hlast : ([row].find? fun q => q.runId = r ∧ q.eventType = t) = none := by simpa using hkey
      rw [hlast, Option.or_none]

/-! ## Calls that return -/

section Calls
variable {sha256 : Str → Digest} {loads : Str → Except PyErr Json} {limit : VariableLimit} {b b' : Backend}

theorem storeRunEvent_returned {r t : Str} {payload : Json} {u : Unit}
    (h : StorageCall.perform (PyLib.json sha256 loads limit) [] (.storeRunEvent r t payload) b = (.ok u, b')) :
    bindable [r, t] = true ∧ b'.db.ledger = b.db.ledger ∧
      ∀ r' t', runEventText b'.db r' t' =
        if r = r' ∧ t = t' then some (payload.dumps true) else runEventText b.db r' t' := by
  rcases unguarded_cases [] (storeRunEventBody (PyLib.json sha256 loads limit) r t payload) b with
    ⟨e, v, hu⟩ | ⟨a, v, he, hu⟩
  · cases h.symm.trans hu
  · cases h.symm.trans hu
    obtain ⟨_, w, hs, hret⟩ := Prog.eval_stmt_cases exec he
    cases hret
    obtain ⟨hbind, rfl⟩ := upsertRunEvent_ok hs
    simp only [bindable_cons, bindable_nil, Bool.and_true, Bool.and_eq_true] at hbind
    refine ⟨?_, rfl, fun r' t' => runEventText_upsert b.db ⟨r, t, payload.dumps true⟩ r' t'⟩
    simp only [bindable_cons, bindable_nil, Bool.and_true, Bool.and_eq_true]
    exact ⟨hbind.1, hbind.2.1⟩

/-- Statements that neither touch the ledger nor the run events. -/
def Stmt.graphRow : Stmt → Prop
  | .insertEdge .. => True
  | .insertMapping .. => True
  | _ => False

theorem exec_graphRow {rows : List LedgerRow} {runEvents : List RunEventRow} (s : Stmt) (v : Store)
    (r : Reply s) (w : Store) (hs : s.graphRow) (hv : v.1.ledger = rows ∧ v.1.runEvents = runEvents)
    (h : exec s v = .ok (r, w)) : w.1.ledger = rows ∧ w.1.runEvents = runEvents := by
  cases s with
  | insertEdge =>
    obtain ⟨-, -, rfl⟩ := insertEdge_ok h
    exact hv
  | insertMapping =>
    obtain ⟨_, -, -, rfl⟩ := insertMapping_ok h
    exact hv
  | _ => exact hs.elim

theorem unguarded_graphRow {α : Type} {p : Sql α} (hp : p.Uses Stmt.graphRow) (b : Backend) :
    (b.unguarded [] p).2.db.ledger = b.db.ledger ∧ (b.unguarded [] p).2.db.runEvents = b.db.runEvents := by
  have hrun := Prog.run_keeps exec .operationalError (P := fun v => v.1.ledger = b.db.ledger ∧
    v.1.runEvents = b.db.runEvents) exec_graphRow hp [] ⟨rfl, rfl⟩
  rcases unguarded_run [] p b with ⟨e, h⟩ | ⟨a, -, h⟩
  · rw [h]
    exact hrun
  · rw [h]
    exact hrun

/-- The calls that record an edge or a mapping. -/
def StorageCall.GraphCall {P : Type} : StorageCall P → Prop
  | .addDatasetEdge .. => True
  | .recordFieldMapping .. => True
  | _ => False

theorem graphCall_frame {P : Type} (py : PyLib P) {s : StorageCall P} (hs : s.GraphCall) (b : Backend) :
    (s.perform py [] b).2.db.ledger = b.db.ledger ∧ (s.perform py [] b).2.db.runEvents = b.db.runEvents := by
  cases s with
  | addDatasetEdge src dst transformId eventTime schemaVersion payload =>
    have hbody : (addDatasetEdgeBody py src dst transformId eventTime schemaVersion payload).Uses
        Stmt.graphRow := Prog.uses_ofExcept_bind fun _ => ⟨trivial, fun _ => trivial⟩
    have h := unguarded_graphRow hbody b
    simp only [StorageCall.perform, Backend.addDatasetEdge]
    split
    · next a c hc => rw [hc] at h; exact h
    · next e c hc => rw [hc] at h; exact h
  | recordFieldMapping runId outputDataset inputDataset fieldMap =>
    exact unguarded_graphRow (uses_insertMapping (fun _ _ => trivial) fieldMap) b
  | _ => exact hs.elim

/-- What a recording call does to the ledger and to one row of `run_events`. -/
theorem recorded_row {s : StorageCall Json} (hs : (∃ r t p, s = .storeRunEvent r t p) ∨ s.GraphCall)
    {x : StorageReply s} (h : s.perform (PyLib.json sha256 loads limit) [] b = (.ok x, b')) :
    b'.db.ledger = b.db.ledger ∧ ∀ r t : Str,
      (∃ p, s = .storeRunEvent r t p ∧ runEventText b'.db r t = some (p.dumps true)) ∨
      (∀ p, s ≠ .storeRunEvent r t p) ∧ runEventText b'.db r t = runEventText b.db r t := by
  rcases hs with ⟨r₁, t₁, p, rfl⟩ | hg
  · obtain ⟨-, hledger, hstored⟩ := storeRunEvent_returned h
    refine ⟨hledger, fun r t => ?_⟩
    by_cases hkey : r₁ = r ∧ t₁ = t
    · obtain ⟨rfl, rfl⟩ := hkey
      refine .inl ⟨p, rfl, ?_⟩
      rw [hstored, if_pos ⟨rfl, rfl⟩]
    · refine .inr ⟨fun p' heq => ?_, ?_⟩
      · cases heq
        exact hkey ⟨rfl, rfl⟩
      · rw [hstored, if_neg hkey]
  · obtain ⟨hledger, hrunEvents⟩ := graphCall_frame (PyLib.json sha256 loads limit) hg b
    rw [h] at hledger hrunEvents
    refine ⟨hledger, fun r t => .inr ⟨fun p heq => ?_, ?_⟩⟩
    · rw [heq] at hg
      exact hg
    · rw [runEventText, runEventText, hrunEvents]

end Calls

/-! ## What is acknowledged -/

/-- The elements whose results are no duplicates. -/
def news {α : Type} (xs : List α) (results : List AcknowledgedWrite) : List α :=
  ((xs.zip results).filter fun x => !x.2.duplicate).map Prod.fst

/-- The row of an acknowledged payload. -/
def Recorded (row : LedgerRow) (payload : Json) : Prop := row.payload = payload.dumps true

section Acknowledged
variable {sha256 : Str → Digest} {loads : Str → Except PyErr Json} {limit : VariableLimit}

theorem news_snoc {α : Type} {xs : List α} {results : List AcknowledgedWrite} (x : α) (r : AcknowledgedWrite)
    (hlen : xs.length = results.length) :
    news (xs ++ [x]) (results ++ [r]) = news xs results ++ if r.duplicate then [] else [x] := by
  rw [news, List.zip_append hlen, List.filter_append, List.map_append]
  cases hd : r.duplicate <;> simp [news, hd]

/-- The ledger grows by the payloads of the new items, in order. -/
theorem acknowledgeBody_ledger {now : ClockText} {items : List (BatchWriteItem Json)} {v w : Store}
    {results : List AcknowledgedWrite}
    (h : (acknowledgeBody (PyLib.json sha256 loads limit) now items).eval exec v = .ok (results, w)) :
    ∃ rows, w.1.ledger = v.1.ledger ++ rows ∧
      List.Forall₂ Recorded rows ((news items results).map BatchWriteItem.payload) := by
  have hend := acknowledgeLoop_keeps
    (J := fun past u _ results => past.length = results.length ∧
      ∃ rows, u.1.ledger = v.1.ledger ++ rows ∧
        List.Forall₂ Recorded rows ((news past results).map BatchWriteItem.payload))
    ?known ?fresh [] ⟨rfl, [], by simp, .nil⟩ (acknowledgeBody_cases h)
  case known =>
    intro past item u _ results e hJ _
    obtain ⟨hlen, rows, hrows, hall⟩ := hJ
    refine ⟨by simp [hlen], rows, hrows, ?_⟩
    rw [news_snoc item _ hlen]
    simpa using hall
  case fresh =>
    intro past item u _ results t hJ _ hp _
    obtain ⟨hlen, rows, hrows, hall⟩ := hJ
    refine ⟨by simp [hlen], rows ++ [nextRow (PyLib.json sha256 loads limit) u item.eventId t], ?_, ?_⟩
    · rw [acknowledged_ledger, hrows, List.append_assoc]
    · have hrow : Recorded (nextRow (PyLib.json sha256 loads limit) u item.eventId t) item.payload :=
        (Except.ok.inj hp).symm
      rw [news_snoc item _ hlen, List.map_append]
      exact List.rel_append hall (.cons hrow .nil)
  obtain ⟨_, -, hrows⟩ := hend
  exact hrows

theorem news_payloads {events : List RunEvent} {items : List (BatchWriteItem Json)}
    (h : List.Forall₂ (fun event item => item.payload = event.modelDump) events items)
    (results : List AcknowledgedWrite) :
    (news items results).map BatchWriteItem.payload = (news events results).map RunEvent.modelDump := by
  induction h generalizing results with
  | nil => rfl
  | @cons event item events items hpayload _ ih =>
    cases results with
    | nil => rfl
    | cons r results =>
      have hrest := ih results
      simp only [news, List.zip_cons_cons, List.filter_cons] at hrest ⊢
      split
      · rw [List.map_cons, List.map_cons, List.map_cons, List.map_cons, hrest, hpayload]
      · exact hrest

end Acknowledged

/-! ## What a client does -/

section Client
variable {R : Rendering}

/-- A batch has nothing to do, or acknowledges its events in one call. -/
theorem ingestBatch_begins (now : ClockText) (ids : ℕ → Str) (events : List RunEvent)
    (idempotencyKeys : Option (List (Option Str))) :
    (∃ out, ingestBatch R now ids events idempotencyKeys = .ret out) ∨
      (∃ e, ingestBatch R now ids events idempotencyKeys = .raise e) ∨
      ∃ items, ingestBatch R now ids events idempotencyKeys =
          .stmt (.acknowledgeWritesBatch now items) (fun results => recordAll R events results) ∧
        items ≠ [] ∧
        List.Forall₂ (fun (event : RunEvent) item => item.payload = event.modelDump) events items := by
  by_cases hne : events = []
  · subst hne
    exact .inl ⟨[], rfl⟩
  · cases hitems : batchItems R ids events (ingestKeys events idempotencyKeys) 0 with
    | error e => exact .inr (.inl ⟨e, by rw [ingestBatch, if_neg (by simpa using hne), hitems]; rfl⟩)
    | ok items =>
      exact .inr (.inr ⟨items, ingestBatch_stmt hne hitems, batchItems_ne_nil hne hitems,
        (batchItems_events hitems).imp fun _ _ h => h.1⟩)

theorem issues_firstResult (out : List IngestResult) :
    (Prog.ofExcept (firstResult out) : Client Json IngestResult).Issues (fun _ => True) [] := by
  cases out with
  | nil => trivial
  | cons r out => trivial

/-- A client has nothing to do, or acknowledges its events in one call and then records the new ones. -/
theorem ingestCall_cases (c : IngestCall) :
    (∃ out, c.prog R = .ret out) ∨ (∃ e, c.prog R = .raise e) ∨
      ∃ now items k, c.prog R = .stmt (.acknowledgeWritesBatch now items) k ∧ items ≠ [] ∧
        List.Forall₂ (fun (event : RunEvent) item => item.payload = event.modelDump) c.events items ∧
        ∀ results, (k results).Issues (fun _ => True) (recordedCalls R c.events results) := by
  have hissues : ∀ events results, (recordAll R events results).Issues (fun _ => True)
      (recordedCalls R events results) :=
    fun events results => Prog.Issues.imp (fun _ _ => trivial) (issues_recordAll events results)
  cases c with
  | ingestBatch now ids events keys =>
    refine (ingestBatch_begins now ids events keys).imp_right (Or.imp_right ?_)
    rintro ⟨items, h, hne, hpayloads⟩
    exact ⟨now, items, _, h, hne, hpayloads, hissues events⟩
  | ingest now ids event key =>
    obtain ⟨keys, hkeys, -⟩ := ingest_eq R now ids event key
    rw [IngestCall.prog, hkeys]
    rcases ingestBatch_begins now ids [event] keys with ⟨out, h⟩ | ⟨e, h⟩ | ⟨items, h, hne, hpayloads⟩
    · rw [h]
      cases out with
      | nil => exact .inr (.inl ⟨_, rfl⟩)
      | cons r out => exact .inl ⟨_, rfl⟩
    · rw [h]
      exact .inr (.inl ⟨e, rfl⟩)
    · rw [h]
      refine .inr (.inr ⟨now, items, _, rfl, hne, hpayloads, fun results => ?_⟩)
      rw [← List.append_nil (recordedCalls R _ results)]
      have hrest := Prog.Issues.bind (hissues [event] results) fun out _ => issues_firstResult out
      rw [List.append_nil] at hrest
      exact Prog.Issues.bind hrest fun r _ => trivial

/-- The calls that record an event: its run event, edges and mappings. -/
theorem calls_cases {event : RunEvent} {s : StorageCall Json} (hs : s ∈ event.calls R) :
    s = .storeRunEvent (event.runId R) event.eventType.text event.modelDump ∨ s.GraphCall := by
  rcases mem_calls hs with rfl | ⟨-, -, -, ⟨outDs, -, inDs, -, hs⟩ | ⟨m, -, rfl⟩⟩
  · exact .inl rfl
  · rcases List.mem_cons.1 hs with rfl | hs
    · exact .inr trivial
    · split at hs
      · cases hs
      · rw [List.mem_singleton.1 hs]
        exact .inr trivial
  · exact .inr trivial

theorem recordedCalls_cases {events : List RunEvent} {results : List AcknowledgedWrite}
    {s : StorageCall Json} (hs : s ∈ recordedCalls R events results) :
    (∃ e ∈ news events results, s = .storeRunEvent (e.runId R) e.eventType.text e.modelDump) ∨
      s.GraphCall := by
  obtain ⟨x, hx, hs⟩ := List.mem_flatMap.1 hs
  cases hd : x.2.duplicate with
  | true =>
    rw [hd] at hs
    cases hs
  | false =>
    rw [hd] at hs
    refine (calls_cases hs).imp_left fun h => ⟨x.1, List.mem_map.2 ⟨x, List.mem_filter.2 ⟨hx, ?_⟩, rfl⟩, h⟩
    rw [hd]
    rfl

theorem mem_recordedCalls {events : List RunEvent} {results : List AcknowledgedWrite} {e : RunEvent}
    (he : e ∈ news events results) :
    .storeRunEvent (e.runId R) e.eventType.text e.modelDump ∈ recordedCalls R events results := by
  obtain ⟨x, hx, rfl⟩ := List.mem_map.1 he
  obtain ⟨hx, hd⟩ := List.mem_filter.1 hx
  have hd : x.2.duplicate = false := by simpa using hd
  refine List.mem_flatMap.2 ⟨x, hx, ?_⟩
  rw [hd]
  exact List.mem_cons_self

end Client

/-! ## Every interleaving -/

section Run
variable {ι : Type} [DecidableEq ι] (R : Rendering) (calls : ι → IngestCall)

/-- The events that were acknowledged as new, in the order of the acknowledgements. -/
def acknowledgedEvents (trace : List (Answered ι (StorageCall Json) StorageReply PyErr)) : List RunEvent :=
  trace.flatMap fun
    | ⟨i, .acknowledgeWritesBatch _ _, .ok results⟩ => news (calls i).events results
    | _ => []

/-- The payload texts of the events with this run id and type, in order. -/
def textsOf (events : List RunEvent) (runId eventType : Str) : List Str :=
  (events.filter fun e => e.runId R = runId ∧ e.eventType.text = eventType).map fun e =>
    e.modelDump.dumps true

/-- A `store_run_event` is made before any is made of an event that was acknowledged after all events
with its payload. -/
def InOrder (trace : List (Answered ι (StorageCall Json) StorageReply PyErr)) (b : Backend) :
    StorageCall Json → Prop
  | .storeRunEvent runId eventType payload =>
    ¬ LastWriter.Overtaken (textsOf R (acknowledgedEvents calls trace) runId eventType)
      (runEventText b.db runId eventType) (payload.dumps true)
  | _ => True

/-- What is so after every call; `rest` are the calls each client has still to make. -/
structure Consistent (b₀ : Backend) (trace : List (Answered ι (StorageCall Json) StorageReply PyErr))
    (qs : ι → Client Json (List IngestResult)) (b : Backend) (rest : ι → List (StorageCall Json)) :
    Prop where
  client : ∀ i, (qs i = (calls i).prog R ∧ rest i = []) ∨ (qs i).Issues (fun _ => True) (rest i)
  kinds : ∀ i, ∀ s ∈ rest i, (∃ r t p, s = .storeRunEvent r t p) ∨ s.GraphCall
  ledger : ∃ rows, b.db.ledger = b₀.db.ledger ++ rows ∧
    List.Forall₂ Recorded rows ((acknowledgedEvents calls trace).map RunEvent.modelDump)
  pending : ∀ i r t p, .storeRunEvent r t p ∈ rest i →
    p.dumps true ∈ textsOf R (acknowledgedEvents calls trace) r t
  covered : ∀ r t, LastWriter.Covered (textsOf R (acknowledgedEvents calls trace) r t)
    (runEventText b.db r t) fun y => ∃ i p, .storeRunEvent r t p ∈ rest i ∧ p.dumps true = y
  untouched : ∀ r t, textsOf R (acknowledgedEvents calls trace) r t = [] →
    runEventText b.db r t = runEventText b₀.db r t
  bound : ∀ r t, textsOf R (acknowledgedEvents calls trace) r t ≠ [] →
    bindable [r, t] = true ∨ ∃ i p, .storeRunEvent r t p ∈ rest i

variable {R calls} {b₀ b b' : Backend} {trace : List (Answered ι (StorageCall Json) StorageReply PyErr)}
  {qs : ι → Client Json (List IngestResult)} {rest : ι → List (StorageCall Json)}

theorem textsOf_append (events events' : List RunEvent) (r t : Str) :
    textsOf R (events ++ events') r t = textsOf R events r t ++ textsOf R events' r t := by
  simp only [textsOf, List.filter_append, List.map_append]

theorem mem_textsOf {events : List RunEvent} {r t y : Str} :
    y ∈ textsOf R events r t ↔
      ∃ e ∈ events, e.runId R = r ∧ e.eventType.text = t ∧ e.modelDump.dumps true = y := by
  simp only [textsOf, List.mem_map, List.mem_filter, decide_eq_true_eq, and_assoc]

/-- The texts of the new events are those that will be stored for them. -/
theorem mem_textsOf_news {events : List RunEvent} {results : List AcknowledgedWrite} {r t y : Str} :
    y ∈ textsOf R (news events results) r t ↔
      ∃ p, .storeRunEvent r t p ∈ recordedCalls R events results ∧ p.dumps true = y := by
  rw [mem_textsOf]
  constructor
  · rintro ⟨e, he, rfl, rfl, rfl⟩
    exact ⟨e.modelDump, mem_recordedCalls he, rfl⟩
  · rintro ⟨p, hs, rfl⟩
    rcases recordedCalls_cases hs with ⟨e, he, heq⟩ | hg
    · cases heq
      exact ⟨e, he, rfl, rfl, rfl⟩
    · exact hg.elim

omit [DecidableEq ι] in
theorem acknowledgedEvents_snoc (a : Answered ι (StorageCall Json) StorageReply PyErr) :
    acknowledgedEvents calls (trace ++ [a]) =
      acknowledgedEvents calls trace ++ acknowledgedEvents calls [a] := List.flatMap_append ..

theorem mem_update {l : List (StorageCall Json)} {i j : ι} {s : StorageCall Json}
    (h : s ∈ Function.update rest i l j) : s ∈ l ∨ s ∈ rest j := by
  by_cases hj : j = i
  · subst hj
    rw [Function.update_self] at h
    exact .inl h
  · rw [Function.update_of_ne hj] at h
    exact .inr h

/-- A client without calls gets some; those of the others are left. -/
theorem mem_update_of_nil {l : List (StorageCall Json)} {i j : ι} {s : StorageCall Json} (hempty : rest i = [])
    (h : s ∈ rest j) : s ∈ Function.update rest i l j := by
  by_cases hj : j = i
  · subst hj
    rw [hempty] at h
    cases h
  · rwa [Function.update_of_ne hj]

/-- The calls that are left, and the one that is made. -/
theorem mem_rest {tail : List (StorageCall Json)} {i j : ι} {s s' : StorageCall Json} (hrest : rest i = s :: tail) :
    s' ∈ rest j ↔ (j = i ∧ s' = s) ∨ s' ∈ Function.update rest i tail j := by
  by_cases hj : j = i
  · subst hj
    rw [hrest, Function.update_self, List.mem_cons, eq_self, true_and]
  · rw [Function.update_of_ne hj, or_iff_right fun h => hj h.1]

theorem client_update {l : List (StorageCall Json)} {i : ι} {p : Client Json (List IngestResult)}
    (h : ∀ j, (qs j = (calls j).prog R ∧ rest j = []) ∨ (qs j).Issues (fun _ => True) (rest j))
    (hp : p.Issues (fun _ => True) l) (j : ι) :
    (Function.update qs i p j = (calls j).prog R ∧ Function.update rest i l j = []) ∨
      (Function.update qs i p j).Issues (fun _ => True) (Function.update rest i l j) := by
  by_cases hj : j = i
  · subst hj
    rw [Function.update_self, Function.update_self]
    exact .inr hp
  · rw [Function.update_of_ne hj, Function.update_of_ne hj]
    exact h j

section Step
variable {sha256 : Str → Digest} {loads : Str → Except PyErr Json} {limit : VariableLimit} {i : ι}

/-- A client acknowledges its events. -/
theorem Consistent.acknowledge (h : Consistent R calls b₀ trace qs b rest) {now : ClockText}
    {items : List (BatchWriteItem Json)} {k : List AcknowledgedWrite → Client Json (List IngestResult)}
    {results : List AcknowledgedWrite} (hne : items ≠ [])
    (hitems : List.Forall₂ (fun (event : RunEvent) item => item.payload = event.modelDump) (calls i).events
      items)
    (hk : (k results).Issues (fun _ => True) (recordedCalls R (calls i).events results))
    (hempty : rest i = [])
    (hs : b.acknowledgeWritesBatch (PyLib.json sha256 loads limit) [] now items = (.ok results, b')) :
    Consistent R calls b₀ (trace ++ [⟨i, .acknowledgeWritesBatch now items, .ok results⟩])
      (Function.update qs i (k results)) b'
      (Function.update rest i (recordedCalls R (calls i).events results)) := by
  obtain ⟨w, he, rfl⟩ := batch_returned hne hs
  have hnew : acknowledgedEvents calls [⟨i, .acknowledgeWritesBatch now items, .ok results⟩] =
      news (calls i).events results := List.append_nil _
  have hsame : ∀ r t, runEventText w.1 r t = runEventText b.db r t := by
    intro r t
    have hframe : w.1.runEvents = b.db.runEvents :=
      congrArg (fun x => x.2.2) (acknowledgeBody_frame he)
    rw [runEventText, runEventText, hframe]
  have htexts : ∀ r t, textsOf R (acknowledgedEvents calls
      (trace ++ [⟨i, .acknowledgeWritesBatch now items, .ok results⟩])) r t =
        textsOf R (acknowledgedEvents calls trace) r t ++ textsOf R (news (calls i).events results) r t := by
    intro r t
    rw [acknowledgedEvents_snoc, hnew, textsOf_append]
  have hkeep : ∀ {j s}, s ∈ rest j → s ∈ Function.update rest i (recordedCalls R (calls i).events results) j :=
    fun hs => mem_update_of_nil hempty hs
  have hgiven : ∀ {s}, s ∈ recordedCalls R (calls i).events results →
      s ∈ Function.update rest i (recordedCalls R (calls i).events results) i := by
    intro s hs
    rwa [Function.update_self]
  refine ⟨client_update h.client hk, ?_, ?_, ?_, ?_, ?_, ?_⟩
  · intro j s hs
    rcases mem_update hs with hs | hs
    · refine (recordedCalls_cases hs).imp_left ?_
      rintro ⟨e, -, rfl⟩
      exact ⟨_, _, _, rfl⟩
    · exact h.kinds j s hs
  · obtain ⟨rows, hrows, hall⟩ := h.ledger
    obtain ⟨rows', hrows', hall'⟩ := acknowledgeBody_ledger he
    refine ⟨rows ++ rows', ?_, ?_⟩
    · rw [← List.append_assoc, ← hrows]
      exact hrows'
    · rw [acknowledgedEvents_snoc, hnew, List.map_append, ← news_payloads hitems]
      exact List.rel_append hall hall'
  · intro j r t p hs
    rw [htexts]
    rcases mem_update hs with hs | hs
    · exact List.mem_append_right _ (mem_textsOf_news.2 ⟨p, hs, rfl⟩)
    · exact List.mem_append_left _ (h.pending j r t p hs)
  · intro r t
    rw [htexts, hsame]
    refine (h.covered r t).append ?_ ?_
    · rintro y ⟨j, p, hs, hy⟩
      exact ⟨j, p, hkeep hs, hy⟩
    · intro y hy
      obtain ⟨p, hs, hp⟩ := mem_textsOf_news.1 hy
      exact ⟨i, p, hgiven hs, hp⟩
  · intro r t hnil
    rw [htexts, List.append_eq_nil_iff] at hnil
    rw [hsame]
    exact h.untouched r t hnil.1
  · intro r t hne
    rw [htexts] at hne
    by_cases hold : textsOf R (acknowledgedEvents calls trace) r t = []
    · rw [hold, List.nil_append] at hne
      obtain ⟨y, hy⟩ := List.exists_mem_of_ne_nil _ hne
      obtain ⟨p, hs, -⟩ := mem_textsOf_news.1 hy
      exact .inr ⟨i, p, hgiven hs⟩
    · refine (h.bound r t hold).imp_right ?_
      rintro ⟨j, p, hs⟩
      exact ⟨j, p, hkeep hs⟩

/-- A client makes its next call after that. -/
theorem Consistent.record (h : Consistent R calls b₀ trace qs b rest) {s : StorageCall Json}
    {tail : List (StorageCall Json)} {k : StorageReply s → Client Json (List IngestResult)} {r : StorageReply s}
    (hrest : rest i = s :: tail) (hk : (k r).Issues (fun _ => True) tail)
    (hallowed : InOrder R calls trace b s)
    (hs : s.perform (PyLib.json sha256 loads limit) [] b = (.ok r, b')) :
    Consistent R calls b₀ (trace ++ [⟨i, s, .ok r⟩]) (Function.update qs i (k r)) b'
      (Function.update rest i tail) := by
  have hkinds := h.kinds i s (by rw [hrest]; exact List.mem_cons_self)
  have hnone : acknowledgedEvents calls [⟨i, s, .ok r⟩] = [] := by
    rcases hkinds with ⟨r, t, p, rfl⟩ | hg
    · rfl
    · cases s with
      | addDatasetEdge => rfl
      | recordFieldMapping => rfl
      | _ => exact hg.elim
  have hevents : acknowledgedEvents calls (trace ++ [⟨i, s, .ok r⟩]) = acknowledgedEvents calls trace := by
    rw [acknowledgedEvents_snoc, hnone, List.append_nil]
  have hold : ∀ {j s'}, s' ∈ Function.update rest i tail j → s' ∈ rest j :=
    fun hs' => (mem_rest hrest).2 (.inr hs')
  have hleft : ∀ {j s'}, s' ∈ rest j → s' = s ∨ s' ∈ Function.update rest i tail j :=
    fun hs' => ((mem_rest hrest).1 hs').imp_left And.right
  obtain ⟨hledger, htext⟩ := recorded_row hkinds hs
  refine ⟨client_update h.client hk, fun j s' hs' => h.kinds j s' (hold hs'), ?_, ?_, ?_, ?_, ?_⟩
  · rw [hledger, hevents]
    exact h.ledger
  · intro j r' t' p hs'
    rw [hevents]
    exact h.pending j r' t' p (hold hs')
  · intro r' t'
    rw [hevents]
    rcases htext r' t' with ⟨p, rfl, hstored⟩ | ⟨hne, hsame⟩
    · rw [hstored]
      refine (h.covered r' t').store hallowed ?_
      rintro y ⟨j, p', hs', hy⟩
      rcases hleft hs' with heq | hs'
      · cases heq
        exact .inl hy.symm
      · exact .inr ⟨j, p', hs', hy⟩
    · rw [hsame]
      refine (h.covered r' t').imp ?_
      rintro y ⟨j, p', hs', hy⟩
      exact ⟨j, p', (hleft hs').resolve_left fun heq => hne p' heq.symm, hy⟩
  · intro r' t' hnil
    rw [hevents] at hnil
    rcases htext r' t' with ⟨p, rfl, -⟩ | ⟨-, hsame⟩
    · have hmem := h.pending i r' t' p (by rw [hrest]; exact List.mem_cons_self)
      rw [hnil] at hmem
      cases hmem
    · rw [hsame]
      exact h.untouched r' t' hnil
  · intro r' t' hne
    rw [hevents] at hne
    rcases h.bound r' t' hne with hbind | ⟨j, p, hs'⟩
    · exact .inl hbind
    · rcases hleft hs' with rfl | hs'
      · exact .inl (storeRunEvent_returned hs).1
      · exact .inr ⟨j, p, hs'⟩

/-- One call of any client: it raises, or what was so before is so after it. -/
theorem Consistent.step (h : Consistent R calls b₀ trace qs b rest) {s : StorageCall Json}
    {k : StorageReply s → Client Json (List IngestResult)} (hcall : qs i = .stmt s k)
    (hallowed : InOrder R calls trace b s) {r : StorageReply s}
    (hs : s.perform (PyLib.json sha256 loads limit) [] b = (.ok r, b')) :
    ∃ rest', Consistent R calls b₀ (trace ++ [⟨i, s, .ok r⟩]) (Function.update qs i (k r)) b' rest' := by
  rcases h.client i with ⟨hprog, hempty⟩ | hissues
  · rw [hcall] at hprog
    rcases ingestCall_cases (R := R) (calls i) with ⟨out, hout⟩ | ⟨e, he⟩ |
      ⟨now, items, k', hstmt, hne, hitems, hk⟩
    · cases hprog.trans hout
    · cases hprog.trans he
    · cases hprog.trans hstmt
      exact ⟨_, h.acknowledge hne hitems (hk r) hempty hs⟩
  · rw [hcall] at hissues
    cases hrest : rest i with
    | nil =>
      rw [hrest] at hissues
      exact hissues.elim
    | cons s' tail =>
      rw [hrest] at hissues
      obtain ⟨rfl, hk⟩ := hissues
      exact ⟨_, h.record hrest (hk r) hallowed hs⟩

end Step

section Whole
variable {sha256 : Str → Digest} {loads : Str → Except PyErr Json} {limit : VariableLimit}

omit [DecidableEq ι] in
theorem consistent_start : Consistent R calls b₀ [] (fun i => (calls i).prog R) b₀ fun _ => [] where
  client i := .inl ⟨rfl, rfl⟩
  kinds i s hs := (List.not_mem_nil hs).elim
  ledger := ⟨[], (List.append_nil _).symm, .nil⟩
  pending i r t p hs := (List.not_mem_nil hs).elim
  covered r t before y after hnil := by simp [acknowledgedEvents, textsOf] at hnil
  untouched r t _ := rfl
  bound r t hne := (hne rfl).elim

/-- All clients have returned, so no call is left. -/
theorem consistent_end
    (h : Interleaves (StorageCall.perform (PyLib.json sha256 loads limit) []) (InOrder R calls)
      (fun i => (calls i).prog R) b₀ trace qs b)
    (hall : ∀ i, ∃ out, qs i = .ret out) : Consistent R calls b₀ trace qs b fun _ => [] := by
  have hinv : (∃ i e, qs i = .raise e) ∨ ∃ rest, Consistent R calls b₀ trace qs b rest := by
    refine h.keeps (I := fun trace qs b => (∃ i e, qs i = .raise e) ∨
      ∃ rest, Consistent R calls b₀ trace qs b rest) (.inr ⟨_, consistent_start⟩) ?_
    intro trace qs b i s k hinv hcall hallowed
    cases hs : s.perform (PyLib.json sha256 loads limit) [] b with
    | mk answer b' =>
      cases answer with
      | error e => exact .inl ⟨i, e, by rw [Function.update_self]; rfl⟩
      | ok r =>
        rcases hinv with ⟨j, e, hj⟩ | ⟨rest, hinv⟩
        · refine .inl ⟨j, e, ?_⟩
          have hne : j ≠ i := by
            rintro rfl
            rw [hcall] at hj
            cases hj
          rwa [Function.update_of_ne hne]
        · exact .inr (hinv.step hcall hallowed hs)
  rcases hinv with ⟨i, e, hraise⟩ | ⟨rest, hinv⟩
  · obtain ⟨out, hout⟩ := hall i
    rw [hout] at hraise
    cases hraise
  · have hdone : rest = fun _ => [] := by
      funext i
      obtain ⟨out, hout⟩ := hall i
      rcases hinv.client i with ⟨-, hempty⟩ | hissues
      · exact hempty
      · rw [hout] at hissues
        cases hrest : rest i with
        | nil => rfl
        | cons s tail =>
          rw [hrest] at hissues
          exact hissues.elim
    rw [← hdone]
    exact hinv

omit [DecidableEq ι] in
/-- Where no call is left, the last acknowledged text is the stored one. -/
theorem Consistent.stored (h : Consistent R calls b₀ trace qs b fun _ => []) {r t y : Str}
    (hlast : (textsOf R (acknowledgedEvents calls trace) r t).getLast? = some y) :
    bindable [r, t] = true ∧ runEventText b.db r t = some y := by
  constructor
  · refine (h.bound r t fun hnil => ?_).resolve_right ?_
    · rw [hnil] at hlast
      cases hlast
    · rintro ⟨i, p, hs⟩
      cases hs
  · refine ((h.covered r t).imp ?_).last hlast
    rintro y ⟨i, p, hs, -⟩
    cases hs

end Whole

/-- The acknowledged events with this run id and type. -/
def ofRun (R : Rendering) (events : List RunEvent) (runId eventType : Str) : List RunEvent :=
  events.filter fun e => e.runId R = runId ∧ e.eventType.text = eventType

/-- **`run_events` agrees with the ledger where no store is overtaken.** Whatever the clients and the
interleaving of their calls, when all have returned: the ledger has grown by one row for each event that
was acknowledged as new, in the order of the acknowledgements, and for every run id and event type
`get_run_event` reads the payload text of the last of these rows with them, or, where there is none,
what it read before. -/
theorem runEvents_agree {sha256 : Str → Digest} {loads : Str → Except PyErr Json} {limit : VariableLimit}
    (h : Interleaves (StorageCall.perform (PyLib.json sha256 loads limit) []) (InOrder R calls)
      (fun i => (calls i).prog R) b₀ trace qs b)
    (hall : ∀ i, ∃ out, qs i = .ret out) :
    (∃ rows, b.db.ledger = b₀.db.ledger ++ rows ∧
      List.Forall₂ Recorded rows ((acknowledgedEvents calls trace).map RunEvent.modelDump)) ∧
    ∀ runId eventType,
      (∀ e ∈ (ofRun R (acknowledgedEvents calls trace) runId eventType).getLast?,
        b.getRunEvent (PyLib.json sha256 loads limit) runId eventType =
          (loads (e.modelDump.dumps true)).map some) ∧
      (ofRun R (acknowledgedEvents calls trace) runId eventType = [] →
        b.getRunEvent (PyLib.json sha256 loads limit) runId eventType =
          b₀.getRunEvent (PyLib.json sha256 loads limit) runId eventType) := by
  have hend := consistent_end h hall
  have htexts : ∀ r t, textsOf R (acknowledgedEvents calls trace) r t =
      (ofRun R (acknowledgedEvents calls trace) r t).map fun e => e.modelDump.dumps true :=
    fun _ _ => rfl
  refine ⟨hend.ledger, fun r t => ⟨fun e he => ?_, fun hnone => ?_⟩⟩
  · have hlast : (textsOf R (acknowledgedEvents calls trace) r t).getLast? =
        some (e.modelDump.dumps true) := by
      rw [htexts, List.getLast?_map, he]
      rfl
    obtain ⟨hbind, hstored⟩ := hend.stored hlast
    rw [Backend.getRunEvent, if_pos hbind, hstored]
    rfl
  · have hsame := hend.untouched r t (by rw [htexts, hnone]; rfl)
    rw [Backend.getRunEvent, Backend.getRunEvent, hsame]

end Run

/-! ## Two clients and one run -/

/-- Two reports of one run, each under a key of its own. -/
def twoReports : Bool → IngestCall
  | false => .ingest .fixed (fun _ => lit "e") (progress 10) (some (lit "k"))
  | true => .ingest .fixed (fun _ => lit "f") (progress 20) (some (lit "l"))

def reportText (percent : ℤ) : Str := (progress percent).modelDump.dumps true

/-- Reads the texts of the two reports. -/
def reportLib : PyLib Json :=
  .json PyLib.fixed.sha256
    (fun text => .ok (if text = reportText 10 then (progress 10).modelDump else (progress 20).modelDump)) .sqlite

theorem reportLib_older : reportLib.loads (reportText 10) = .ok (progress 10).modelDump :=
  congrArg Except.ok (if_pos rfl)

theorem reportLib_later : reportLib.loads (reportText 20) = .ok (progress 20).modelDump := by
  have hne : reportText 20 ≠ reportText 10 := by decide +kernel
  exact congrArg Except.ok (if_neg hne)

abbrev Calls : Type := List (Answered Bool (StorageCall Json) StorageReply PyErr)

/-- The reports' clients take turns. -/
def reportTurns (check : Calls → Backend → StorageCall Json → Bool) (order : List Bool) :
    Option (Calls × (Bool → Client Json (List IngestResult)) × Backend) :=
  turns (StorageCall.perform reportLib []) check [] (fun i => (twoReports i).prog .fixed) .empty order

def returned (p : Client Json (List IngestResult)) : Bool :=
  match p with
  | .ret _ => true
  | _ => false

theorem returned_ret {p : Client Json (List IngestResult)} (h : returned p = true) : ∃ out, p = .ret out := by
  cases p with
  | ret out => exact ⟨out, rfl⟩
  | raise e => cases h
  | stmt s k => cases h

/-- Both clients have returned, and what they leave passes the check. -/
def settled (left : Calls → Backend → Bool) (x : Calls × (Bool → Client Json (List IngestResult)) × Backend) :
    Bool :=
  returned (x.2.1 false) && returned (x.2.1 true) && left x.1 x.2.2

theorem reports_interleave {allowed : Calls → Backend → StorageCall Json → Prop}
    {check : Calls → Backend → StorageCall Json → Bool}
    (hcheck : ∀ trace b s, check trace b s = true → allowed trace b s) {order : List Bool}
    {left : Calls → Backend → Bool} (h : (reportTurns check order).any (settled left) = true) :
    ∃ trace qs b, Interleaves (StorageCall.perform reportLib []) allowed
      (fun i => (twoReports i).prog .fixed) .empty trace qs b ∧
      (∀ i, ∃ out, qs i = .ret out) ∧ left trace b = true := by
  obtain ⟨⟨trace, qs, b⟩, hturns, hleft⟩ := (Option.any_eq_true _ _).1 h
  simp only [settled, Bool.and_eq_true] at hleft
  refine ⟨trace, qs, b, turns_interleaves _ hcheck .nil hturns, fun i => ?_, hleft.2⟩
  cases i with
  | false => exact returned_ret hleft.1.1
  | true => exact returned_ret hleft.1.2

/-- A store that comes while the last acknowledged event of its run is its own. -/
def storesInTurn (trace : Calls) (_ : Backend) : StorageCall Json → Bool
  | .storeRunEvent runId eventType payload =>
    (textsOf .fixed (acknowledgedEvents twoReports trace) runId eventType).getLast? ==
      some (payload.dumps true)
  | _ => true

theorem inOrder_storesInTurn (trace : Calls) (b : Backend) (s : StorageCall Json)
    (h : storesInTurn trace b s = true) : InOrder .fixed twoReports trace b s := by
  cases s with
  | storeRunEvent runId eventType payload => exact LastWriter.not_overtaken_last (beq_iff_eq.1 h)
  | _ => trivial

/-- The ledger has both reports and `run_events` the later one. -/
def agreeing (trace : Calls) (b : Backend) : Bool :=
  b.db.ledger.map LedgerRow.payload == [reportText 10, reportText 20] &&
    (textsOf .fixed (acknowledgedEvents twoReports trace) (lit "r") (lit "RUNNING")).getLast? ==
      some (reportText 20)

theorem runEvents_agree_reports :
    ∃ b : Backend, b.db.ledger.map LedgerRow.payload = [reportText 10, reportText 20] ∧
      b.getRunEvent reportLib (lit "r") (lit "RUNNING") = .ok (some (progress 20).modelDump) := by
  have hturns : (reportTurns storesInTurn [false, false, true, true]).any (settled agreeing) = true := by
    decide +kernel
  obtain ⟨trace, qs, b, hrun, hall, hleft⟩ := reports_interleave inOrder_storesInTurn hturns
  obtain ⟨hledger, hlast⟩ := (Bool.and_eq_true _ _).mp hleft
  obtain ⟨e, he, htext⟩ : ∃ e ∈ (ofRun .fixed (acknowledgedEvents twoReports trace) (lit "r")
      (lit "RUNNING")).getLast?, e.modelDump.dumps true = reportText 20 := by
    rw [beq_iff_eq, textsOf, List.getLast?_map] at hlast
    exact Option.map_eq_some_iff.1 hlast
  have hread : b.getRunEvent reportLib (lit "r") (lit "RUNNING") =
      (reportLib.loads (e.modelDump.dumps true)).map some :=
    ((runEvents_agree hrun hall).2 (lit "r") (lit "RUNNING")).1 e he
  rw [htext, reportLib_later] at hread
  exact ⟨b, beq_iff_eq.1 hledger, hread⟩

/-- The ledger has both reports and `run_events` the older one. -/
def disagreeing (_ : Calls) (b : Backend) : Bool :=
  b.db.ledger.map LedgerRow.payload == [reportText 10, reportText 20] &&
    runEventText b.db (lit "r") (lit "RUNNING") == some (reportText 10)

/-- **The older report stays.** Both clients acknowledge, then the later one is the first to store. -/
theorem runEvents_overtaken :
    ∃ trace qs b, Interleaves (StorageCall.perform reportLib []) (fun _ _ _ => True)
        (fun i => (twoReports i).prog .fixed) .empty trace qs b ∧
      (∀ i, ∃ out, qs i = .ret out) ∧
      b.db.ledger.map LedgerRow.payload = [reportText 10, reportText 20] ∧
      b.getRunEvent reportLib (lit "r") (lit "RUNNING") = .ok (some (progress 10).modelDump) := by
  have hturns : (reportTurns (fun _ _ _ => true) [false, true, true, false]).any (settled disagreeing) =
      true := by decide +kernel
  obtain ⟨trace, qs, b, hrun, hall, hleft⟩ := reports_interleave (fun _ _ _ _ => trivial) hturns
  obtain ⟨hledger, htext⟩ := (Bool.and_eq_true _ _).mp hleft
  have hread : b.getRunEvent reportLib (lit "r") (lit "RUNNING") =
      (reportLib.loads (reportText 10)).map some := by
    rw [Backend.getRunEvent, if_pos (by decide), beq_iff_eq.1 htext]
  exact ⟨trace, qs, b, hrun, hall, beq_iff_eq.1 hledger, hread.trans (congrArg _ reportLib_older)⟩

end LineageVault
