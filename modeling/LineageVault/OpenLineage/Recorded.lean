import LineageVault.OpenLineage.Batch
import LineageVault.Engine.Legacy
import LineageVault.Storage.FieldImpact

/-! # What an ingest records

Which calls record an event depends on the event alone: `calls` lists them, those of
`_record_lineage` for each output and input first and those for the facets after them.
`issues_recordAll` says that a batch makes the calls of its new events, in this order.

`EngineCall` are the calls of an engine that write, and `Later` the states that any of them lead to,
under any failures, and reopening the engine.
-/

namespace LineageVault
open Foundations
set_option autoImplicit false

/-! ## The calls of an event -/

/-- `field_map` of the fields that both datasets have. -/
def matchedFields (outDs inDs : DatasetRef) : List (Str × SqlParam) :=
  ((outDs.fields.map SchemaField.name).eraseDups.filter fun k =>
    (inDs.fields.map SchemaField.name).eraseDups.contains k).map fun k => (k, SqlParam.text k)

namespace RunEvent
variable (R : Rendering) (event : RunEvent)

/-- The datasets and mappings of an event; where reading them raises, none. -/
def ins : List DatasetRef := event.datasetsIn.toOption.getD []

def outs : List DatasetRef := event.datasetsOut.toOption.getD []

def maps : List FieldMapping := (event.fieldMappings R).toOption.getD []

/-- All that is recorded of the event can be read. -/
structure Read : Prop where
  datasetsIn : event.datasetsIn = .ok event.ins
  datasetsOut : event.datasetsOut = .ok event.outs
  fieldMappings : event.ins ≠ [] → event.outs ≠ [] → event.fieldMappings R = .ok (event.maps R)

def edgeCall (outDs inDs : DatasetRef) : StorageCall Json :=
  .addDatasetEdge inDs.qualifiedName outDs.qualifiedName (event.runId R)
    event.eventTime.assumeUtc.isoformat outDs.fields.length event.modelDump

def matchCall (outDs inDs : DatasetRef) : StorageCall Json :=
  .recordFieldMapping (event.runId R) outDs.qualifiedName inDs.qualifiedName (matchedFields outDs inDs)

def pairCalls (outDs inDs : DatasetRef) : List (StorageCall Json) :=
  event.edgeCall R outDs inDs ::
    if (matchedFields outDs inDs).isEmpty then [] else [event.matchCall R outDs inDs]

end RunEvent

section Calls
variable (R : Rendering)

def mappingCall (m : FieldMapping) : StorageCall Json :=
  .recordFieldMapping m.runId m.outputDataset m.inputDataset
    (m.fieldMap.map fun entry => (entry.1, sqlParam R entry.2))

/-- The calls of `_record_lineage`. -/
def RunEvent.lineageCalls (event : RunEvent) : List (StorageCall Json) :=
  if event.ins.isEmpty || event.outs.isEmpty then []
  else
    (event.outs.flatMap fun outDs => event.ins.flatMap fun inDs => event.pairCalls R outDs inDs) ++
      (event.maps R).map (mappingCall R)

/-- The calls that record an event. -/
def RunEvent.calls (event : RunEvent) : List (StorageCall Json) :=
  .storeRunEvent (event.runId R) event.eventType.text event.modelDump ::
    if event.eventType = .complete then event.lineageCalls R else []

/-- The calls that record the new events of a batch. -/
def recordedCalls (events : List RunEvent) (results : List AcknowledgedWrite) : List (StorageCall Json) :=
  (events.zip results).flatMap fun x => if x.2.duplicate then [] else x.1.calls R

end Calls

variable {R : Rendering} {py : PyLib Json}

theorem recordPair_eq (event : RunEvent) (outDs inDs : DatasetRef) :
    recordPair R event outDs inDs = Prog.stmt (event.edgeCall R outDs inDs) fun _ =>
      if (matchedFields outDs inDs).isEmpty then Prog.ret ()
      else Prog.stmt (event.matchCall R outDs inDs) Prog.ret := by
  refine congrArg (Prog.stmt _) (funext fun _ => ?_)
  let inFields := (inDs.fields.map SchemaField.name).eraseDups
  let outFields := (outDs.fields.map SchemaField.name).eraseDups
  change (if !inFields.isEmpty && !outFields.isEmpty then
    if !(matchedFields outDs inDs).isEmpty then Prog.stmt (event.matchCall R outDs inDs) Prog.ret
    else Prog.ret () else Prog.ret () : Client Json Unit) = _
  have hnone : (!inFields.isEmpty && !outFields.isEmpty) = false → (matchedFields outDs inDs).isEmpty := by
    intro h
    rw [Bool.and_eq_false_iff] at h
    rcases h with h | h
    · have hin : (inDs.fields.map SchemaField.name).eraseDups = [] := by simpa using h
      simp [matchedFields, hin]
    · have hout : (outDs.fields.map SchemaField.name).eraseDups = [] := by simpa using h
      simp [matchedFields, hout]
  cases hboth : (!inFields.isEmpty && !outFields.isEmpty) with
  | false => rw [hnone hboth]; rfl
  | true => cases (matchedFields outDs inDs).isEmpty <;> rfl

theorem issues_recordPair (event : RunEvent) (outDs inDs : DatasetRef) :
    (recordPair R event outDs inDs).Issues (fun _ => True) (event.pairCalls R outDs inDs) := by
  rw [recordPair_eq]
  refine ⟨rfl, fun _ => ?_⟩
  split
  · trivial
  · exact ⟨rfl, fun _ => trivial⟩

theorem issues_recordLineage (event : RunEvent) :
    (recordLineage R event).Issues (fun _ => event.Read R) (event.lineageCalls R) := by
  refine Prog.issues_ofExcept_bind fun ins hins => Prog.issues_ofExcept_bind fun outs houts => ?_
  have hin : event.ins = ins := by rw [RunEvent.ins, hins]; rfl
  have hout : event.outs = outs := by rw [RunEvent.outs, houts]; rfl
  rw [RunEvent.lineageCalls, hin, hout]
  split
  · next hempty =>
    refine ⟨by rw [hin, hins], by rw [hout, houts], fun hi ho => ?_⟩
    rw [hin] at hi
    rw [hout] at ho
    simp [hi, ho] at hempty
  · refine Prog.Issues.bind (Prog.issues_forM fun outDs => Prog.issues_forM fun inDs =>
      issues_recordPair event outDs inDs) fun _ _ => Prog.issues_ofExcept_bind fun ms hms => ?_
    have hmaps : event.maps R = ms := by rw [RunEvent.maps, hms]; rfl
    rw [hmaps, List.map_eq_flatMap]
    have hread : event.Read R := ⟨by rw [hin, hins], by rw [hout, houts], fun _ _ => by rw [hmaps, hms]⟩
    refine Prog.Issues.imp (fun _ _ => hread) (Prog.issues_forM fun m => ?_)
    exact ⟨rfl, fun _ => trivial⟩

theorem issues_recordEvent (event : RunEvent) :
    (recordEvent R event).Issues (fun _ => event.eventType = .complete → event.Read R) (event.calls R) := by
  refine ⟨rfl, fun _ => ?_⟩
  dsimp only
  split
  · exact Prog.Issues.imp (fun _ h _ => h) (issues_recordLineage event)
  · next hc => exact fun h => (hc h).elim

/-- All that was to be recorded of the new events could be read. -/
def AllRead (R : Rendering) (events : List RunEvent) (results : List AcknowledgedWrite) : Prop :=
  ∀ x ∈ events.zip results, x.2.duplicate = false → x.1.eventType = .complete → x.1.Read R

theorem issues_recordAll (events : List RunEvent) (results : List AcknowledgedWrite) :
    (recordAll R events results).Issues
      (fun out => out = List.zipWith (ingestResult R) events results ∧ AllRead R events results)
      (recordedCalls R events results) := by
  induction events generalizing results with
  | nil =>
    cases results with
    | nil => exact ⟨rfl, fun x hx => (List.not_mem_nil hx).elim⟩
    | cons result results => exact Prog.issues_raise _
  | cons event events ih =>
    cases results with
    | nil => exact Prog.issues_raise _
    | cons result results =>
      have hrest : (recordAll R events results >>= fun out =>
          Prog.ret (ingestResult R event result :: out) : Client Json (List IngestResult)).Issues
          (fun out => out = List.zipWith (ingestResult R) (event :: events) (result :: results) ∧
            AllRead R events results) (recordedCalls R events results ++ []) :=
        Prog.Issues.bind (ih results) fun out hout => ⟨congrArg _ hout.1, hout.2⟩
      rw [List.append_nil] at hrest
      have hcalls : recordedCalls R (event :: events) (result :: results) =
          (if result.duplicate then [] else event.calls R) ++ recordedCalls R events results := rfl
      rw [recordAll, hcalls]
      cases hdup : result.duplicate with
      | true =>
        refine Prog.Issues.imp (fun out hout => ⟨hout.1, ?_⟩) hrest
        intro x hx hnew
        rcases List.mem_cons.1 hx with rfl | hx
        · rw [hdup] at hnew
          cases hnew
        · exact hout.2 x hx hnew
      | false =>
        refine Prog.Issues.bind (issues_recordEvent event) fun _ hread => ?_
        refine Prog.Issues.imp (fun out hout => ⟨hout.1, ?_⟩) hrest
        intro x hx
        rcases List.mem_cons.1 hx with rfl | hx
        · exact fun _ => hread
        · exact hout.2 x hx

/-! ## The ingestor under failures -/

section Ingest
variable {now : ClockText} {ids : ℕ → Str} {events : List RunEvent}
  {idempotencyKeys : Option (List (Option Str))} {event : RunEvent} {idempotencyKey : Option Str}

variable (R py now ids events idempotencyKeys) in
/-- The ingest makes no call, or the acknowledgement raises, or it returns and the rest follows. -/
theorem ingestBatch_runs (fss : List (List Bool)) (b : Backend) :
    let x := (ingestBatch R now ids events idempotencyKeys).runUnder py fss b
    (x.2 = b ∧ ∀ out, x.1 = some (.ok out) → events = [] ∧ out = []) ∨
      ∃ items fs, events ≠ [] ∧
        batchItems R ids events (ingestKeys events idempotencyKeys) 0 = .ok items ∧
        ((∃ e b', b.acknowledgeWritesBatch py fs now items = (.error e, b') ∧ x = (some (.error e), b')) ∨
          ∃ results b₁ fss', b.acknowledgeWritesBatch py fs now items = (.ok results, b₁) ∧
            x = (recordAll R events results).runUnder py fss' b₁) := by
  by_cases hne : events = []
  · subst hne
    refine .inl ⟨by simp only [ingestBatch, List.isEmpty_nil, if_true, Prog.pure_eq, Prog.drive], ?_⟩
    intro out hout
    simp only [ingestBatch, List.isEmpty_nil, if_true, Prog.pure_eq, Prog.drive] at hout
    cases hout
    exact ⟨rfl, rfl⟩
  · cases hitems : batchItems R ids events (ingestKeys events idempotencyKeys) 0 with
    | error e =>
      have hraise : ingestBatch R now ids events idempotencyKeys = Prog.raise e := by
        rw [ingestBatch, if_neg (by simpa using hne), hitems]
        rfl
      rw [hraise]
      simp only [Prog.drive]
      exact .inl ⟨trivial, fun out hout => by cases hout⟩
    | ok items =>
      rw [ingestBatch_stmt hne hitems]
      rcases Prog.drive_stmt_cases (StorageCall.perform py) fss (.acknowledgeWritesBatch now items)
        (fun results => recordAll R events results) b with h | ⟨fs, e, b', hs, h⟩ |
        ⟨fs, fss', results, b₁, hs, h⟩
      · rw [Client.runUnder, h]
        exact .inl ⟨rfl, fun out hout => by cases hout⟩
      · exact .inr ⟨items, fs, hne, rfl, .inl ⟨e, b', hs, h⟩⟩
      · exact .inr ⟨items, fs, hne, rfl, .inr ⟨results, b₁, fss', hs, h⟩⟩

variable (R py now ids events idempotencyKeys) in
/-- The same, by what the acknowledgement has done. -/
theorem ingestBatch_drive (fss : List (List Bool)) (b : Backend) :
    let x := (ingestBatch R now ids events idempotencyKeys).runUnder py fss b
    (x.2 = b ∧ ∀ out, x.1 = some (.ok out) → events = [] ∧ out = []) ∨
      ∃ s : StorageCall Json, s.edge = none ∧ s.mappings = [] ∧
        ((s.Raised b x.2 ∧ ∀ out, x.1 ≠ some (.ok out)) ∨
          ∃ results b₁ fss', s.Returned b b₁ ∧ x = (recordAll R events results).runUnder py fss' b₁) := by
  intro x
  rcases ingestBatch_runs R py now ids events idempotencyKeys fss b with h | ⟨items, fs, -, -, h⟩
  · exact .inl h
  · refine .inr ⟨.acknowledgeWritesBatch now items, rfl, rfl, ?_⟩
    rcases perform_lineage py fs (.acknowledgeWritesBatch now items) b with ⟨r, b', hp, hr⟩ |
      ⟨e, b', hp, hr⟩
    · rcases h with ⟨e, b'', hs, -⟩ | ⟨results, b₁, fss', hs, hx⟩
      · cases hs.symm.trans hp
      · cases hs.symm.trans hp
        exact .inr ⟨_, b', fss', hr, hx⟩
    · rcases h with ⟨e', b'', hs, hx⟩ | ⟨results, b₁, fss', hs, -⟩
      · cases hs.symm.trans hp
        refine .inl ⟨?_, fun out hout => ?_⟩
        · rw [show x = _ from hx]
          exact hr
        · rw [show x = _ from hx] at hout
          cases hout
      · cases hs.symm.trans hp

/-- An `ingest_batch` that returns has recorded its new events. -/
theorem ingestBatch_made {fss : List (List Bool)} {b : Backend} {out : List IngestResult}
    (h : ((ingestBatch R now ids events idempotencyKeys).runUnder py fss b).1 = some (.ok out)) :
    ∃ results, out = List.zipWith (ingestResult R) events results ∧ AllRead R events results ∧
      Made b (recordedCalls R events results)
        ((ingestBatch R now ids events idempotencyKeys).runUnder py fss b).2 := by
  rcases ingestBatch_drive R py now ids events idempotencyKeys fss b with ⟨hb, hnone⟩ |
    ⟨s, hedge, hmappings, ⟨-, hno⟩ | ⟨results, b₁, fss', hs, hrest⟩⟩
  · obtain ⟨rfl, rfl⟩ := hnone out h
    rw [hb]
    exact ⟨[], rfl, fun x hx => (List.not_mem_nil hx).elim, made_nil b⟩
  · exact (hno out h).elim
  · rw [hrest] at h ⊢
    have hfirst : Made (P := Json) b [] b₁ := by
      have hmade := (made_nil b).next hs
      refine ⟨fun e => ?_, ?_, by simp, by simp, by simp⟩
      · simpa [hedge] using hmade.graph e
      · simpa [hmappings] using hmade.mappings
    rcases runUnder_issues (fun _ _ _ _ _ hs hm => Made.next hm hs) (issues_recordAll events results)
      fss' hfirst with ⟨out', hout, ⟨rfl, hread⟩, hmade⟩ | ⟨hno, -⟩
    · rw [h] at hout
      cases hout
      exact ⟨results, rfl, hread, hmade⟩
    · exact (hno out h).elim

/-- `…[0]` -/
def firstResult : List IngestResult → Except PyErr IngestResult
  | result :: _ => .ok result
  | [] => .error .indexError

variable (R now ids event idempotencyKey) in
/-- `ingest` is a batch of one, whose key does not depend on whether an empty one is passed on. -/
theorem ingest_eq : ∃ keys,
    (ingest R now ids event idempotencyKey =
      ingestBatch R now ids [event] keys >>= fun results => Prog.ofExcept (firstResult results)) ∧
    batchItems R ids [event] (ingestKeys [event] keys) 0 =
      .ok [⟨event.resolvedKey R idempotencyKey, ids 0, event.modelDump⟩] := by
  unfold ingest
  refine ⟨_, congrArg _ (funext fun results => ?_), ?_⟩
  · cases results with
    | nil => rfl
    | cons result results => rfl
  · rcases idempotencyKey with - | (- | ⟨c, key⟩) <;> rfl

variable (R py now ids event idempotencyKey) in
theorem ingest_drive (fss : List (List Bool)) (b : Backend) :
    ∃ keys, (ingest R now ids event idempotencyKey).runUnder py fss b =
      (((ingestBatch R now ids [event] keys).runUnder py fss b).1.map fun x => x.bind firstResult,
        ((ingestBatch R now ids [event] keys).runUnder py fss b).2) := by
  obtain ⟨keys, hkeys, -⟩ := ingest_eq R now ids event idempotencyKey
  refine ⟨keys, ?_⟩
  rw [hkeys]
  exact Prog.drive_bind_ofExcept _ fss _ firstResult b

theorem zip_results (events : List RunEvent) (results : List AcknowledgedWrite) :
    events.zip (List.zipWith (ingestResult R) events results) =
      (events.zip results).map fun x => (x.1, ingestResult R x.1 x.2) := by
  induction events generalizing results with
  | nil => rfl
  | cons event events ih =>
    cases results with
    | nil => rfl
    | cons result results => exact congrArg _ (ih results)

end Ingest

/-! ## The calls of an engine -/

section Engine
variable (R py)

/-- An ingest of the event, alone or in a batch, returned that it is no duplicate. -/
inductive Ingested (event : RunEvent) (b b' : Backend) : Prop where
  | single (now : ClockText) (ids : ℕ → Str) (idempotencyKey : Option Str) (fss : List (List Bool))
      (r : IngestResult)
      (h : (ingest R now ids event idempotencyKey).runUnder py fss b = (some (.ok r), b'))
      (new : r.duplicate = false)
  | batch (now : ClockText) (ids : ℕ → Str) (events : List RunEvent)
      (idempotencyKeys : Option (List (Option Str))) (fss : List (List Bool)) (out : List IngestResult)
      (r : IngestResult)
      (h : (ingestBatch R now ids events idempotencyKeys).runUnder py fss b = (some (.ok out), b'))
      (mem : (event, r) ∈ events.zip out) (new : r.duplicate = false)

inductive EngineCall where
  | ingestSync (now : ClockText) (event : LineageEvent) (idempotencyKey : Option Str)
  | ingest (now : ClockText) (ids : ℕ → Str) (event : RunEvent) (idempotencyKey : Option Str)
  | ingestBatch (now : ClockText) (ids : ℕ → Str) (events : List RunEvent)
      (idempotencyKeys : Option (List (Option Str)))

/-- What a call leaves, whether it returns, raises or is stopped. -/
def EngineCall.after (fss : List (List Bool)) (b : Backend) : EngineCall → Backend
  | .ingestSync now event key => ((persistEvent now event key).runUnder py fss b).2
  | .ingest now ids event key => ((LineageVault.ingest R now ids event key).runUnder py fss b).2
  | .ingestBatch now ids events keys =>
    ((LineageVault.ingestBatch R now ids events keys).runUnder py fss b).2

/-- The states that calls of the engine lead to, and closing it and opening it again. -/
inductive Later (b : Backend) : Backend → Prop where
  | refl : Later b b
  | call {b' : Backend} (fss : List (List Bool)) (c : EngineCall) : Later b b' →
      Later b (c.after R py fss b')
  | reopen {b' : Backend} : Later b b' → Later b b'.reopen

end Engine

theorem Later.trans {b₁ b₂ b₃ : Backend} (h : Later R py b₁ b₂) (h' : Later R py b₂ b₃) :
    Later R py b₁ b₃ := by
  induction h' with
  | refl => exact h
  | call fss c _ ih => exact ih.call fss c
  | reopen _ ih => exact ih.reopen

theorem Ingested.later {event : RunEvent} {b b' : Backend} (h : Ingested R py event b b') : Later R py b b' := by
  cases h with
  | single now ids key fss r h new =>
    have hafter : EngineCall.after R py fss b (.ingest now ids event key) = b' := congrArg Prod.snd h
    exact hafter ▸ .call fss (.ingest now ids event key) .refl
  | batch now ids events keys fss out r h mem new =>
    have hafter : EngineCall.after R py fss b (.ingestBatch now ids events keys) = b' := congrArg Prod.snd h
    exact hafter ▸ .call fss (.ingestBatch now ids events keys) .refl

/-- What calls of the backend keep, and reopening it, holds later. -/
theorem Later.keeps {I : Backend → Prop}
    (hret : ∀ (s : StorageCall Json) b b', s.Returned b b' → I b → I b')
    (hraise : ∀ (s : StorageCall Json) b b', s.Raised b b' → I b → I b')
    (hreopen : ∀ b, I b → I b.reopen) {b b' : Backend} (h : Later R py b b') (hb : I b) : I b' := by
  induction h with
  | refl => exact hb
  | call fss c _ ih =>
    cases c with
    | ingestSync now event key => exact runUnder_keeps hret hraise fss _ ih
    | ingest now ids event key => exact runUnder_keeps hret hraise fss _ ih
    | ingestBatch now ids events keys => exact runUnder_keeps hret hraise fss _ ih
  | reopen _ ih => exact hreopen _ ih

theorem Later.stored {b b' : Backend} {row : MappingRow} (h : Later R py b b') (hb : Stored b row) :
    Stored b' row :=
  h.keeps (fun _ _ _ hs hb => hs.stored hb) (fun _ _ _ hs hb => hs.stored hb)
    (fun _ hb => ⟨hb.committed, hb.committed⟩) hb

/-- An `ingest` that returns that the event is no duplicate has recorded it. -/
theorem ingest_made {now : ClockText} {ids : ℕ → Str} {event : RunEvent} {key : Option Str}
    {fss : List (List Bool)} {b b' : Backend} {r : IngestResult}
    (h : (ingest R now ids event key).runUnder py fss b = (some (.ok r), b')) (new : r.duplicate = false) :
    Made b (event.calls R) b' ∧ (event.eventType = .complete → event.Read R) := by
  obtain ⟨keys, hkeys⟩ := ingest_drive R py now ids event key fss b
  rw [hkeys] at h
  obtain ⟨hx, rfl⟩ := Prod.mk.inj h
  obtain ⟨x, hrun, hr⟩ := Option.map_eq_some_iff.1 hx
  cases x with
  | error e => cases hr
  | ok out =>
    obtain ⟨results, rfl, hread, hmade⟩ := ingestBatch_made hrun
    cases results with
    | nil => cases hr
    | cons result results =>
      cases hr
      have hnew : result.duplicate = false := new
      have hcalls : recordedCalls R [event] (result :: results) = event.calls R := by
        simp [recordedCalls, hnew]
      rw [hcalls] at hmade
      exact ⟨hmade, hread _ List.mem_cons_self new⟩

/-- The calls of an event that was ingested have been made, and all of it was read. -/
theorem Ingested.made {event : RunEvent} {b b' : Backend} (h : Ingested R py event b b') :
    ∃ calls, Made b calls b' ∧ (∀ s ∈ event.calls R, s ∈ calls) ∧
      (event.eventType = .complete → event.Read R) := by
  cases h with
  | single now ids key fss r h new =>
    obtain ⟨hmade, hread⟩ := ingest_made h new
    exact ⟨_, hmade, fun s hs => hs, hread⟩
  | batch now ids events keys fss out r h mem new =>
    have hrun := congrArg Prod.fst h
    obtain ⟨results, rfl, hread, hmade⟩ := ingestBatch_made hrun
    rw [h] at hmade
    rw [zip_results] at mem
    obtain ⟨⟨event, result⟩, hresult, hr⟩ := List.mem_map.1 mem
    cases hr
    have hnew : result.duplicate = false := new
    refine ⟨_, hmade, fun s hs => ?_, hread _ hresult hnew⟩
    refine List.mem_flatMap.2 ⟨_, hresult, ?_⟩
    rw [hnew]
    exact hs

end LineageVault
