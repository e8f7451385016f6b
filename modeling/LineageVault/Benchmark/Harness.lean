import LineageVault.Api.ServiceRuns
import LineageVault.Python.JsonTokens
import LineageVault.Storage.Acknowledge

/-! # `benchmark/harness.py`

The threads of the pool run their tasks side by side, one call of the backend at a time, and a task may fail
anywhere. `runMode` is one run under a schedule of these calls; it has no result when something raised. The
durations, the latencies and the memory of the result are left out, and so is the number of threads but for
the check of it: tasks of more threads than there are come in more orders.

`benchmark_counts`: what a run reports as acknowledged depends on nothing but the keys that the database had
before it.
-/

namespace LineageVault
open Foundations Foundations.Prog
set_option autoImplicit false

/-! ## The code -/

inductive BenchmarkMode where
  | sqliteSingle
  | sqliteBatch
  | postgresSingle
  | postgresBatch

def BenchmarkMode.text : BenchmarkMode → Str
  | .sqliteSingle => lit "sqlite-single"
  | .sqliteBatch => lit "sqlite-batch"
  | .postgresSingle => lit "postgres-single"
  | .postgresBatch => lit "postgres-batch"

/-- `config.backend` -/
def BenchmarkMode.backend : BenchmarkMode → Str
  | .sqliteSingle => lit "sqlite"
  | .sqliteBatch => lit "sqlite"
  | .postgresSingle => lit "postgres"
  | .postgresBatch => lit "postgres"

/-- `mode.endswith("-batch")` -/
def BenchmarkMode.useBatch : BenchmarkMode → Bool
  | .sqliteBatch => true
  | .postgresBatch => true
  | _ => false

structure BenchmarkResult where
  mode : Str
  backend : Str
  events : ℤ
  workers : ℤ
  batchSize : ℤ
  acknowledgedWrites : ℕ
  integrityOk : Bool

def benchDataset (name : Str) : Dict :=
  [(lit "namespace", .str (lit "bench")), (lit "name", .str name),
    (lit "facets", .obj [(lit "schema", .obj [(lit "fields",
      .arr [.obj [(lit "name", .str (lit "id")), (lit "type", .str (lit "integer"))]])])])]

/-- `_make_event` -/
def makeEvent (now : DateTime) (i : ℕ) : RunEvent where
  eventType := .complete
  eventTime := now
  run := [(lit "runId", .str (lit "bench-" ++ natText i))]
  job := [(lit "namespace", .str (lit "bench")), (lit "name", .str (lit "load"))]
  inputs := [benchDataset (lit "src_" ++ natText (i % 50))]
  outputs := [benchDataset (lit "dst_" ++ natText (i % 50))]
  producer := defaultProducer

def benchKey (i : ℕ) : Str := lit "bench:" ++ natText i

/-- What a run gets from elsewhere: `now` and `ids` are what `datetime.now` and `uuid4` return for each
event. -/
structure Bench where
  R : Rendering
  py : PyLib Json
  clock : ClockText
  now : ℕ → DateTime
  ids : ℕ → Str

inductive BenchTask where
  | one (i : ℕ)
  | chunk (indices : List ℕ)

namespace Bench
variable (x : Bench)

def item (i : ℕ) : BatchWriteItem Json := ⟨benchKey i, x.ids i, (makeEvent (x.now i) i).modelDump⟩

def ingestOne (useBatch : Bool) (i : ℕ) : Handler Unit :=
  if useBatch then do
    let _ ← (storage (.acknowledgeWritesBatch x.clock [x.item i])).handled
    return ()
  else do
    let _ ← (ingest x.R x.clock (fun _ => x.ids i) (makeEvent (x.now i) i) (some (benchKey i))).handled
    return ()

def ingestBatchChunk (chunk : List ℕ) : Handler Unit := do
  let _ ← (storage (.acknowledgeWritesBatch x.clock (chunk.map x.item))).handled
  return ()

def task (useBatch : Bool) : BenchTask → Handler Unit
  | .one i => x.ingestOne useBatch i
  | .chunk indices => x.ingestBatchChunk indices

end Bench

/-- `range(0, stop, step)` -/
def rangeStep (stop step : ℕ) : List ℕ := (List.range ((stop + step - 1) / step)).map (· * step)

def chunks (events batchSize : ℕ) : List (List ℕ) :=
  (rangeStep events batchSize).map fun i => ((List.range events).drop i).take batchSize

/-- What is submitted to the pool, in turn. -/
def benchTasks (useBatch : Bool) (events batchSize : ℤ) : List BenchTask :=
  if useBatch && decide (1 < batchSize) then (chunks events.toNat batchSize.toNat).map .chunk
  else (List.range events.toNat).map .one

abbrev PoolTask := Exchange BenchTask Note ServiceCall ServiceReply ApiError Unit

structure Pool where
  backend : Backend
  tasks : List PoolTask

/-- A call as a whole; a task makes only calls of the storage, which hold the lock. -/
def ServiceCall.whole (py : PyLib Json) (fs : List Bool) : (s : ServiceCall) → Backend → ServiceReply s × Backend
  | .storage s, b => s.perform py fs b
  | .verify, b => (b.verifyIntegrity py, b)
  | .countAcknowledged, b => (.ok b.countAcknowledged, b)
  | .selectFields x, b => (selectMappings b.db x, b)
  | .graph, b => (b.graph, b)
  | .incIngested, b => ((), b)
  | .incDuplicate, b => ((), b)
  | .setIntegrityOk _, b => ((), b)
  | .setAcknowledgedWrites _, b => ((), b)

/-- The task `i` makes its next call, or returns. -/
def Pool.proceed (py : PyLib Json) (p : Pool) (i : ℕ) (fs : List Bool) : Option Pool :=
  (p.tasks[i]?.bind fun t => t.advance notes (ServiceCall.whole py fs) p.backend).map fun (t, b) =>
    ⟨b, p.tasks.set i t⟩

def Pool.run (py : PyLib Json) : Pool → List (ℕ × List Bool) → Option Pool
  | p, [] => some p
  | p, (i, fs) :: schedule => (p.proceed py i fs).bind fun p' => Pool.run py p' schedule

/-- `fut.result()` returns. -/
def PoolTask.finished (t : PoolTask) : Bool :=
  match t.status with
  | .answered _ => true
  | _ => false

/-- `_run_mode` after the pool; `batch_size if use_batch else 1` is what it reports. -/
def Bench.report (x : Bench) (mode : BenchmarkMode) (events workers batchSize : ℤ) (recovering : List Bool)
    (pool : Pool) : Option (BenchmarkResult × Backend) :=
  if pool.tasks.all PoolTask.finished then
    match pool.backend.recoverUncommitted x.py recovering with
    | (.error _, _) => none
    | (.ok _, b) =>
      match b.verifyIntegrity x.py with
      | .error _ => none
      | .ok ok => some (⟨mode.text, mode.backend, events, workers, cond mode.useBatch batchSize 1,
          b.countAcknowledged, ok⟩, b)
  else none

/-- `_run_mode`, where PostgreSQL is available. `b` is the database that the engine opens: for SQLite an empty
one, since the files were removed. -/
def Bench.runMode (x : Bench) (mode : BenchmarkMode) (events workers batchSize : ℤ)
    (recovering recovering' : List Bool) (schedule : List (ℕ × List Bool)) (b : Backend) :
    Option (BenchmarkResult × Backend) :=
  match b.reopen.recoverUncommitted x.py recovering with
  | (.error _, _) => none
  | (.ok _, b₁) =>
    -- `ThreadPoolExecutor` refuses other numbers
    if workers ≤ 0 then none
    else
      (Pool.run x.py ⟨b₁, (benchTasks mode.useBatch events batchSize).map
        (.begun (x.task mode.useBatch))⟩ schedule).bind (x.report mode events workers batchSize recovering')

/-! ## What is submitted -/

theorem natText_injective {i j : ℕ} (h : natText i = natText j) : i = j := by
  rw [← decimal_natText i, h, decimal_natText]

theorem benchKey_injective {i j : ℕ} (h : benchKey i = benchKey j) : i = j :=
  natText_injective (List.append_cancel_left h)

def BenchTask.indices : BenchTask → List ℕ
  | .one i => [i]
  | .chunk indices => indices

/-- The first `q` slices. -/
theorem slices_flatten (xs : List ℕ) (size q : ℕ) :
    ((List.range q).map fun j => (xs.drop (j * size)).take size).flatten = xs.take (q * size) := by
  induction q with
  | zero => simp
  | succ q ih =>
    rw [List.range_succ, List.map_append, List.flatten_append, ih, Nat.succ_mul, List.take_add]
    simp

theorem chunks_flatten (events : ℕ) {batchSize : ℕ} (h : 0 < batchSize) :
    (chunks events batchSize).flatten = List.range events := by
  rw [chunks, rangeStep, List.map_map]
  refine (slices_flatten (List.range events) batchSize _).trans (List.take_of_length_le ?_)
  rw [List.length_range]
  have hceil := Nat.lt_div_mul_add (a := events + batchSize - 1) h
  omega

/-- Each event is in one task. -/
theorem benchTasks_indices (useBatch : Bool) (events batchSize : ℤ) :
    (benchTasks useBatch events batchSize).flatMap BenchTask.indices = List.range events.toNat := by
  unfold benchTasks
  split
  · next h =>
    have hsize : 0 < batchSize.toNat := by
      have := of_decide_eq_true (Bool.and_eq_true_iff.1 h).2
      omega
    rw [List.flatMap_map, ← chunks_flatten events.toNat hsize]
    exact List.flatMap_id
  · rw [List.flatMap_map]
    exact List.flatMap_singleton' _

/-! ## What a task acknowledges -/

/-- The keys it has acknowledged when it returns. -/
def BenchTask.Acknowledges (t : BenchTask) (seen : List Note) (_ : Unit) : Prop :=
  (writes seen).map (fun a => a.1.idempotencyKey) = t.indices.map benchKey

theorem writes_keys {items : List (BatchWriteItem Json)} {results : List AcknowledgedWrite}
    (h : results.length = items.length) :
    (writes (List.zipWith .acknowledged items results)).map (fun a => a.1.idempotencyKey) =
      items.map BatchWriteItem.idempotencyKey := by
  rw [writes_zipWith]
  have hfst := List.map_fst_zip h.ge
  conv_rhs => rw [← hfst]
  rw [List.map_map]
  rfl

theorem gives_batch (x : Bench) (indices : List ℕ) :
    Handler.Gives (fun seen _ => (writes seen).map (fun a => a.1.idempotencyKey) = indices.map benchKey) []
      ((storage (.acknowledgeWritesBatch x.clock (indices.map x.item))).handled >>= fun _ => .ret ()) := by
  rw [storage, Prog.query, handled_stmt, Prog.stmt_bind]
  intro r hr
  cases r with
  | error e => trivial
  | ok results =>
    refine (writes_keys hr).trans ?_
    rw [List.map_map]
    rfl

theorem gives_ingestOne (x : Bench) (i : ℕ) :
    Handler.Gives (fun seen _ => (writes seen).map (fun a => a.1.idempotencyKey) = [benchKey i]) []
      ((ingest x.R x.clock (fun _ => x.ids i) (makeEvent (x.now i) i) (some (benchKey i))).handled >>=
        fun _ => .ret ()) := by
  have hingest : ingest x.R x.clock (fun _ => x.ids i) (makeEvent (x.now i) i) (some (benchKey i)) =
      ingestBatch x.R x.clock (fun _ => x.ids i) [makeEvent (x.now i) i] (some [some (benchKey i)]) >>=
        fun results => Prog.ofExcept (firstResult results) := by
    refine congrArg (ingestBatch _ _ _ _ _ >>= ·) (funext fun results => ?_)
    cases results with
    | nil => rfl
    | cons result results => rfl
  rw [hingest, handled_bind, Prog.bind_assoc]
  have hbatch : Handler.Gives (fun seen _ => (writes seen).map (fun a => a.1.idempotencyKey) = [benchKey i]) []
      (ingestBatch x.R x.clock (fun _ => x.ids i) [makeEvent (x.now i) i] (some [some (benchKey i)])).handled := by
    change Handler.Gives _ [] (Client.handled (.stmt (.acknowledgeWritesBatch x.clock [x.item i])
      (recordAll x.R [makeEvent (x.now i) i])))
    rw [handled_stmt]
    intro r hr
    cases r with
    | error e => trivial
    | ok results =>
      refine Prog.Yields.imp ?_ (gives_issues (issues_recordAll _ results) (silent_recordedCalls x.R _ results))
      rintro seen _ ⟨rfl, -⟩
      exact writes_keys hr
  refine hbatch.bind fun seen results h => ?_
  cases results with
  | nil => trivial
  | cons result results => exact h

theorem gives_task (x : Bench) (useBatch : Bool) (t : BenchTask) :
    Handler.Gives t.Acknowledges [] (x.task useBatch t) := by
  cases t with
  | chunk indices => exact gives_batch x indices
  | one i =>
    cases useBatch with
    | true => exact gives_batch x [i]
    | false => exact gives_ingestOne x i

/-! ## The pool -/

structure PoolInv (py : PyLib Json) (before : List (Call Json × Outcome)) (submitted : List BenchTask) (p : Pool) :
    Prop where
  history : ∃ log, Run py (before ++ log) p.backend ∧
    (writes (p.tasks.flatMap Exchange.notes)).Perm (answered log) ∧ recoveredCount log = 0
  faithful : ∀ t ∈ p.tasks, Exchange.Faithful Expected notes BenchTask.Acknowledges Tolerable t
  submitted : p.tasks.map Exchange.request = submitted
  nonePending : pendingIds p.backend.db = []

/-- What a call does to the history, and its reply. -/
structure Whole (py : PyLib Json) (log : List (Call Json × Outcome)) (b b' : Backend) (new : List Note)
    (made : List (Call Json × Outcome)) : Prop where
  run : Run py (log ++ made) b'
  answered : answered made = writes new
  recovered : recoveredCount made = 0
  nonePending : pendingIds b.db = [] → pendingIds b'.db = []

section Whole
variable {py : PyLib Json} {log : List (Call Json × Outcome)} {b b' : Backend}

theorem whole_silent (hrun : Run py log b) {new : List Note} (hnew : writes new = []) :
    Whole py log b b new [] := ⟨by rwa [List.append_nil], hnew.symm, rfl, id⟩

theorem whole_perform (hrun : Run py log b) (fs : List Bool) (s : ServiceCall) :
    Expected s (s.whole py fs b).1 ∧
      ∃ made, Whole py log b (s.whole py fs b).2 (notes s (s.whole py fs b).1) made := by
  cases s with
  | storage call =>
    cases hlocked : call.locked with
    | none =>
      obtain ⟨now, rfl⟩ := locked_eq_none hlocked
      exact ⟨rfl, [], whole_silent hrun rfl⟩
    | some c =>
      have hends := @ends_perform py call c hlocked fs b
      obtain ⟨hwrites, hrecovered⟩ := writes_ended hlocked hends
      simp only [ServiceCall.whole, perform_locked hlocked]
      exact ⟨expected_ended hends, _, .snoc c.toCall fs hrun, hwrites.symm, hrecovered,
        pending_locked hlocked hrun.settled fs⟩
  | verify =>
    refine ⟨?_, [], whole_silent hrun rfl⟩
    rw [ServiceCall.whole, hrun.chainInv.verifyIntegrity]
    rfl
  | _ => exact ⟨trivial, [], whole_silent hrun rfl⟩

/-- What one step of a task adds. -/
theorem whole_advance {t t' : PoolTask} (hrun : Run py log b) {fs : List Bool}
    (h : t.advance notes (ServiceCall.whole py fs) b = some (t', b')) :
    ∃ new made, t'.notes = t.notes ++ new ∧ Whole py log b b' new made := by
  rcases Exchange.advance_cases h with ⟨s, -, rfl, hnotes⟩ | ⟨-, rfl, hnotes⟩
  · obtain ⟨-, made, hmade⟩ := whole_perform hrun fs s
    exact ⟨_, made, hnotes, hmade⟩
  · exact ⟨[], [], by rwa [List.append_nil], whole_silent hrun rfl⟩

end Whole

section Pool
variable {py : PyLib Json} {before : List (Call Json × Outcome)} {submitted : List BenchTask} {p p' : Pool}

theorem poolInv_start (x : Bench) (useBatch : Bool) {b : Backend} (hb : Run x.py before b)
    (hnone : pendingIds b.db = []) :
    PoolInv x.py before submitted ⟨b, submitted.map (.begun (x.task useBatch))⟩ where
  history := by
    have hnotes : (submitted.map (Exchange.begun (x.task useBatch) : BenchTask → PoolTask)).flatMap
        Exchange.notes = [] := by
      rw [List.flatMap_map]
      exact List.flatMap_eq_nil_iff.2 fun t _ => rfl
    refine ⟨[], by rwa [List.append_nil], ?_, rfl⟩
    rw [hnotes]
    exact .refl _
  faithful t ht := by
    obtain ⟨q, -, rfl⟩ := List.mem_map.1 ht
    exact gives_task x useBatch q
  submitted := by
    rw [List.map_map]
    exact List.map_id _
  nonePending := hnone

theorem poolInv_proceed (h : PoolInv py before submitted p) {i : ℕ} {fs : List Bool}
    (hp : p.proceed py i fs = some p') : PoolInv py before submitted p' := by
  obtain ⟨⟨t', b⟩, hbind, rfl⟩ := Option.map_eq_some_iff.1 hp
  obtain ⟨t, ht, ha⟩ := Option.bind_eq_some_iff.1 hbind
  obtain ⟨log, hrun, hperm, hrecovered⟩ := h.history
  obtain ⟨new, made, hnoted, hmade⟩ := whole_advance hrun ha
  have hnotes : ((p.tasks.set i t').flatMap Exchange.notes).Perm (p.tasks.flatMap Exchange.notes ++ new) :=
    flatMap_set_perm ht hnoted
  refine ⟨⟨log ++ made, ?_, ?_, ?_⟩, fun u hu => ?_, ?_, hmade.nonePending h.nonePending⟩
  · rw [← List.append_assoc]
    exact hmade.run
  · refine (hnotes.filterMap Note.write).trans ?_
    rw [List.filterMap_append, answered_append, hmade.answered]
    exact hperm.append_right _
  · rw [recoveredCount_append, hmade.recovered, hrecovered]
  · rcases List.mem_or_eq_of_mem_set hu with hu | rfl
    · exact h.faithful u hu
    · exact Exchange.faithful_advance (fun s _ => (whole_perform hrun fs s).1)
        (h.faithful t (List.mem_of_getElem? ht)) ha
  · rw [List.map_set, Exchange.advance_request ha, ← h.submitted]
    refine List.ext_getElem? fun j => ?_
    rw [List.getElem?_set]
    split
    · next hij =>
      rw [← hij, List.getElem?_map, ht, List.length_map, if_pos (List.getElem?_eq_some_iff.1 ht).1]
      rfl
    · rfl

theorem poolInv_run (h : PoolInv py before submitted p) {schedule : List (ℕ × List Bool)}
    (hp : p.run py schedule = some p') : PoolInv py before submitted p' := by
  induction schedule generalizing p with
  | nil =>
    cases hp
    exact h
  | cons s schedule ih =>
    obtain ⟨i, fs⟩ := s
    obtain ⟨p₁, h₁, hrest⟩ := Option.bind_eq_some_iff.1 hp
    exact ih (poolInv_proceed h h₁) hrest

/-- Once all tasks have returned, each has acknowledged its keys. -/
theorem PoolInv.keys (h : PoolInv py before submitted p) (hdone : p.tasks.all PoolTask.finished = true) :
    (writes (p.tasks.flatMap Exchange.notes)).map (fun a => a.1.idempotencyKey) =
      (submitted.flatMap BenchTask.indices).map benchKey := by
  have hall : ∀ t ∈ p.tasks, t.request.Acknowledges t.notes () := by
    intro t ht
    have hfaithful := h.faithful t ht
    have hfinished := List.all_eq_true.1 hdone t ht
    unfold PoolTask.finished at hfinished
    split at hfinished
    · next hstatus =>
      rw [Exchange.Faithful, hstatus] at hfaithful
      exact hfaithful
    · cases hfinished
  rw [← h.submitted]
  generalize p.tasks = tasks at hall
  induction tasks with
  | nil => rfl
  | cons t tasks ih =>
    have ht : (writes t.notes).map (fun a => a.1.idempotencyKey) = t.request.indices.map benchKey :=
      hall t List.mem_cons_self
    rw [List.flatMap_cons, writes, List.filterMap_append, List.map_append, List.map_cons, List.flatMap_cons,
      List.map_append, ← ht, ← ih fun u hu => hall u (List.mem_cons_of_mem _ hu)]
    rfl

end Pool

/-! ## What is counted -/

section Counts
variable {py : PyLib Json}

/-- Of further answers, one for a key, those are original whose keys were not answered before. -/
theorem duplicate_iff {rs rs' : List AcknowledgedWrite} (h : OncePerKey (rs ++ rs'))
    (hnodup : (rs'.map AcknowledgedWrite.idempotencyKey).Nodup) {r : AcknowledgedWrite} (hr : r ∈ rs') :
    r.duplicate = false ↔ ∀ q ∈ rs, q.idempotencyKey ≠ r.idempotencyKey := by
  have hlast : (rs ++ rs').filter (fun q => q.idempotencyKey = r.idempotencyKey) =
      rs.filter (fun q => q.idempotencyKey = r.idempotencyKey) ++ [r] := by
    rw [List.filter_append, filter_eq_singleton hnodup hr]
  cases hold : rs.filter (fun q => q.idempotencyKey = r.idempotencyKey) with
  | nil =>
    rw [hold] at hlast
    refine iff_of_true (h.forKey hlast).1 fun q hq hkey => ?_
    exact List.filter_eq_nil_iff.1 hold q hq (decide_eq_true hkey)
  | cons first old =>
    rw [hold] at hlast
    obtain ⟨hdup, -⟩ := (h.forKey hlast).2 r (List.mem_append_right _ List.mem_cons_self)
    refine iff_of_false (by simp [hdup]) fun hnew => ?_
    obtain ⟨hfirst, hkey⟩ := List.mem_filter.1 (hold ▸ List.mem_cons_self (a := first))
    exact hnew first hfirst (of_decide_eq_true hkey)

/-- A key is in the table if it was answered. -/
theorem Tally.existing_iff {answers : List (BatchWriteItem Json × AcknowledgedWrite)} {n : ℕ} {v : Store}
    (h : Tally py answers n v) (k : Str) :
    existingEvent v.1 k = none ↔ ∀ q ∈ answers.map Prod.snd, q.idempotencyKey ≠ k := by
  have hnone : existingEvent v.1 k = none ↔ ∀ q ∈ v.1.idempotency, q.idempotencyKey ≠ k := by
    simp [existingEvent]
  rw [hnone]
  constructor
  · intro htable q hq
    obtain ⟨row, hrow, hkey⟩ := h.known hq
    rw [← hkey]
    exact htable row hrow
  · intro hanswers row hrow
    obtain ⟨r, hr, hkey, -⟩ := h.original hrow
    rw [← hkey]
    exact hanswers r (mem_originals.1 hr).1

/-- The keys that are not in the table. -/
def newIndices (db : Db) (events : ℤ) : List ℕ :=
  (List.range events.toNat).filter fun i => existingEvent db (benchKey i) = none

theorem newIndices_congr {db db' : Db} (h : db.idempotency = db'.idempotency) (events : ℤ) :
    newIndices db events = newIndices db' events := by
  have hexisting : existingEvent db = existingEvent db' := by
    funext k
    rw [existingEvent, existingEvent, h]
  rw [newIndices, newIndices, hexisting]

theorem originals_length {answers answers' : List (BatchWriteItem Json × AcknowledgedWrite)} {n n' : ℕ}
    {v w : Store} {events : ℤ} (hv : Tally py answers n v) (hw : Tally py (answers ++ answers') n' w)
    (hkeys : (answers'.map fun a => a.1.idempotencyKey).Perm ((List.range events.toNat).map benchKey)) :
    (originals (answers'.map Prod.snd)).length = (newIndices v.1 events).length := by
  have hresults : (answers'.map Prod.snd).map AcknowledgedWrite.idempotencyKey =
      answers'.map fun a => a.1.idempotencyKey := by
    rw [List.map_map]
    exact List.map_congr_left fun a ha => hw.keyed a (List.mem_append_right _ ha)
  have hnodup : ((answers'.map Prod.snd).map AcknowledgedWrite.idempotencyKey).Nodup := by
    rw [hresults, hkeys.nodup_iff]
    exact List.nodup_range.map fun _ _ h => benchKey_injective h
  have horder : OncePerKey (answers.map Prod.snd ++ answers'.map Prod.snd) := by
    rw [← List.map_append]
    exact hw.order
  have hfilter : originals (answers'.map Prod.snd) =
      (answers'.map Prod.snd).filter fun r => existingEvent v.1 r.idempotencyKey = none := by
    refine List.filter_congr fun r hr => ?_
    have hiff := (duplicate_iff horder hnodup hr).trans (hv.existing_iff r.idempotencyKey).symm
    cases hdup : r.duplicate with
    | false => exact (decide_eq_true (hiff.1 hdup)).symm
    | true =>
      refine (decide_eq_false fun hnone => ?_).symm
      exact Bool.false_ne_true ((hiff.2 hnone).symm.trans hdup)
  have hmap : ∀ (p : Str → Bool) (rs : List AcknowledgedWrite),
      (rs.filter fun r => p r.idempotencyKey).length =
        ((rs.map AcknowledgedWrite.idempotencyKey).filter p).length := by
    intro p rs
    rw [List.filter_map, List.length_map]
    rfl
  rw [hfilter, hmap fun k => existingEvent v.1 k = none, hresults, (hkeys.filter _).length_eq, List.filter_map,
    List.length_map]
  rfl

theorem ledger_length_of_none {v : Store} (h : JournalInv v) (hnone : pendingIds v.1 = []) :
    v.1.ledger.length = v.1.walStaging.length := by
  have hstaged : ∀ e, e ∈ ledgerIds v.1 ↔ e ∈ stagedIds v.1 := by
    intro e
    rw [h.committed, mem_committedIds]
    refine ⟨fun ⟨r, hr, he, _⟩ => List.mem_map.2 ⟨r, hr, he⟩, fun hmem => ?_⟩
    obtain ⟨r, hr, he⟩ := List.mem_map.1 hmem
    refine ⟨r, hr, he, ?_⟩
    by_contra hpending
    have hmem' : e ∈ pendingIds v.1 := mem_pendingIds.2 ⟨r, hr, he, by simpa using hpending⟩
    rw [hnone] at hmem'
    cases hmem'
  have hperm := ((List.perm_ext_iff_of_nodup h.ledgered h.staged).2 hstaged).length_eq
  simpa [ledgerIds, stagedIds] using hperm

/-- A recovery that returned, in a history. -/
theorem recover_returned {log : List (Call Json × Outcome)} {b b' : Backend} {fs : List Bool} {n : ℕ}
    (hrun : Run py log b) (h : b.recoverUncommitted py fs = (.ok n, b')) :
    Run py (log ++ [(.recoverUncommitted, .recovered n)]) b' ∧ pendingIds b'.db = [] ∧
      b'.db.idempotency = b.db.idempotency ∧ b'.db.walStaging.length = b.db.walStaging.length ∧
      (pendingIds b.db = [] → n = 0) := by
  have hnext := Run.snoc .recoverUncommitted fs hrun
  simp only [Call.perform, h] at hnext
  obtain ⟨w, heval, rfl⟩ := guarded_returned h
  refine ⟨hnext, pendingIds_recovered hrun.journalInv heval, (recoverBody_frame heval).1, ?_, fun hnone => ?_⟩
  · have hstaging : w.1.walStaging = b.db.walStaging.map StagingRow.marked := by
      rw [(recoverBody_tables hrun.journalInv heval).1]
    rw [Backend.db, hstaging, List.length_map]
  · have hpending : pending b.session.view.1.walStaging = [] := by
      have hperm := pending_map_fst_perm b.session.view.1
      rw [show pendingIds b.session.view.1 = [] from hnone] at hperm
      exact List.map_eq_nil_iff.1 (List.perm_nil.1 hperm)
    have hloop := recoverBody_cases heval
    rw [hpending] at hloop
    cases hloop
    rfl

end Counts

/-- The steps of a run that has a result. -/
theorem runMode_cases {x : Bench} {b b' : Backend} {mode : BenchmarkMode} {events workers batchSize : ℤ}
    {recovering recovering' : List Bool} {schedule : List (ℕ × List Bool)} {result : BenchmarkResult}
    (h : x.runMode mode events workers batchSize recovering recovering' schedule b = some (result, b')) :
    ∃ n b₁ pool m ok, b.reopen.recoverUncommitted x.py recovering = (.ok n, b₁) ∧
      Pool.run x.py ⟨b₁, (benchTasks mode.useBatch events batchSize).map
        (.begun (x.task mode.useBatch))⟩ schedule = some pool ∧
      pool.tasks.all PoolTask.finished = true ∧
      pool.backend.recoverUncommitted x.py recovering' = (.ok m, b') ∧
      b'.verifyIntegrity x.py = .ok ok ∧
      result = ⟨mode.text, mode.backend, events, workers, cond mode.useBatch batchSize 1, b'.countAcknowledged,
        ok⟩ := by
  unfold Bench.runMode at h
  split at h
  · cases h
  · next n b₁ hfirst =>
    split at h
    · cases h
    · obtain ⟨pool, hpool, h⟩ := Option.bind_eq_some_iff.1 h
      unfold Bench.report at h
      split at h
      · next hdone =>
        split at h
        · cases h
        · next m b₂ hlast =>
          split at h
          · cases h
          · next ok hverify =>
            cases h
            exact ⟨n, b₁, pool, m, ok, hfirst, hpool, hdone, hlast, hverify, rfl⟩
      · cases h

/-- The first recovery leaves `b₁`, and the tasks made the calls of `log`. -/
structure BenchHistory (x : Bench) (before : List (Call Json × Outcome)) (b b₁ b' : Backend) (n : ℕ)
    (log : List (Call Json × Outcome)) (events : ℤ) : Prop where
  start : Run x.py (before ++ [(.reopen, .done), (.recoverUncommitted, .recovered n)]) b₁
  nonePending : pendingIds b₁.db = []
  keys : b₁.db.idempotency = b.db.idempotency
  staging : b₁.db.walStaging.length = b.db.walStaging.length
  finish : Run x.py (before ++ [(.reopen, .done), (.recoverUncommitted, .recovered n)] ++ log ++
    [(.recoverUncommitted, .recovered 0)]) b'
  answered : ((answered log).map fun a => a.1.idempotencyKey).Perm ((List.range events.toNat).map benchKey)
  recovered : recoveredCount log = 0

section RunMode
variable {x : Bench} {before : List (Call Json × Outcome)} {b b' : Backend} {mode : BenchmarkMode}
  {events workers batchSize : ℤ} {recovering recovering' : List Bool} {schedule : List (ℕ × List Bool)}
  {result : BenchmarkResult}

theorem benchHistory (hb : Run x.py before b)
    (h : x.runMode mode events workers batchSize recovering recovering' schedule b = some (result, b')) :
    ∃ b₁ n log, BenchHistory x before b b₁ b' n log events := by
  obtain ⟨n, b₁, pool, m, ok, hfirst, hpool, hdone, hlast, -, -⟩ := runMode_cases h
  obtain ⟨hkeys, -, hstaging, -⟩ := journal_ext.1 hb.settled
  have hopen : Run x.py (before ++ [(.reopen, .done)]) b.reopen := .snoc .reopen [] hb
  obtain ⟨hrun₁, hnone₁, hkeys₁, hstaging₁, -⟩ := recover_returned hopen hfirst
  rw [List.append_assoc] at hrun₁
  have hinv := poolInv_run (poolInv_start x mode.useBatch hrun₁ hnone₁) hpool
  obtain ⟨log, hrun, hperm, hrecovered⟩ := hinv.history
  obtain ⟨hrun₂, -, -, -, hm⟩ := recover_returned hrun hlast
  obtain rfl : m = 0 := hm hinv.nonePending
  refine ⟨b₁, n, log, hrun₁, hnone₁, hkeys₁.trans hkeys, hstaging₁.trans (congrArg List.length hstaging), hrun₂, ?_,
    hrecovered⟩
  rw [← benchTasks_indices mode.useBatch events batchSize, ← hinv.keys hdone]
  exact (hperm.map _).symm

/-- **What a benchmark counts.** Whatever the database has been through before, whatever the order of the calls
of the tasks, and whatever failed before: a run that has a result has found the ledger intact, and reports as
many writes as events had been staged before it and keys `bench:i` were new to it. -/
theorem benchmark_counts (hb : Run x.py before b)
    (h : x.runMode mode events workers batchSize recovering recovering' schedule b = some (result, b')) :
    result.integrityOk = true ∧
      result.acknowledgedWrites = b.db.walStaging.length + (newIndices b.db events).length ∧
      newIndices b'.db events = [] := by
  obtain ⟨-, -, -, -, ok, -, -, -, -, hverify, rfl⟩ := runMode_cases h
  obtain ⟨b₁, n, log, hlog⟩ := benchHistory hb h
  obtain ⟨htally₁, -⟩ := hlog.start.tally
  obtain ⟨htally₂, -⟩ := hlog.finish.tally
  have hquiet : answered [(Call.recoverUncommitted, Outcome.recovered 0)] =
      ([] : List (BatchWriteItem Json × AcknowledgedWrite)) := rfl
  have hzero : recoveredCount [((Call.recoverUncommitted : Call Json), Outcome.recovered 0)] = 0 := rfl
  rw [answered_append, answered_append, hquiet, List.append_nil, recoveredCount_append, recoveredCount_append,
    hlog.recovered, hzero] at htally₂
  refine ⟨?_, ?_, List.filter_eq_nil_iff.2 fun i hi hnone => ?_⟩
  · exact Except.ok.inj (hverify.symm.trans hlog.finish.chainInv.verifyIntegrity)
  · have hledger : b₁.db.ledger.length = b.db.walStaging.length :=
      (ledger_length_of_none hlog.start.journalInv hlog.nonePending).trans hlog.staging
    have hnew : newIndices b₁.db events = newIndices b.db events := newIndices_congr hlog.keys events
    have hcount := htally₂.total
    rw [List.map_append, originals_append, List.length_append,
      originals_length htally₁ htally₂ hlog.answered] at hcount
    have htotal := htally₁.total
    have hlen : b'.db.ledger.length = b₁.db.ledger.length + (newIndices b₁.db events).length := by
      change b'.session.view.1.ledger.length =
        b₁.session.view.1.ledger.length + (newIndices b₁.session.view.1 events).length
      omega
    change b'.db.ledger.length = _
    rw [hlen, hledger, hnew]
  · have hkey : benchKey i ∈ (answered log).map fun a => a.1.idempotencyKey :=
      hlog.answered.mem_iff.2 (List.mem_map_of_mem hi)
    obtain ⟨a, ha, hak⟩ := List.mem_map.1 hkey
    have hmem := List.mem_append_right
      (answered (before ++ [(.reopen, .done), (.recoverUncommitted, .recovered n)])) ha
    refine (htally₂.existing_iff (benchKey i)).1 (of_decide_eq_true hnone) a.2 (List.mem_map_of_mem hmem) ?_
    rw [htally₂.keyed a hmem, hak]

end RunMode

def benchFixed : Bench := ⟨.fixed, PyLib.fixed, .fixed, fun _ => ⟨2025, 1, 1, 0, 0, 0, 0, some 0⟩, natText⟩

/-- The second task comes first, and returns last. -/
def benchSchedule : List (ℕ × List Bool) := [(1, []), (0, []), (0, []), (1, [])]

/-- On the database of a run that kept three events, a run of four finds one of them new. -/
theorem benchmark_counts_again :
    ∃ first b second b', benchFixed.runMode .postgresBatch 3 2 2 [] [] benchSchedule .empty = some (first, b) ∧
      benchFixed.runMode .postgresBatch 4 2 2 [] [] benchSchedule b = some (second, b') ∧
      second.acknowledgedWrites = b.db.walStaging.length + 1 := by
  have hruns : ((benchFixed.runMode .postgresBatch 3 2 2 [] [] benchSchedule .empty).bind fun r =>
      (benchFixed.runMode .postgresBatch 4 2 2 [] [] benchSchedule r.2).map fun _ =>
        (newIndices r.2.db 4).length) = some 1 := by
    decide +kernel
  obtain ⟨⟨first, b⟩, hfirst, hruns⟩ := Option.bind_eq_some_iff.1 hruns
  obtain ⟨⟨second, b'⟩, hsecond, hnew⟩ := Option.map_eq_some_iff.1 hruns
  obtain ⟨b₁, n, log, hlog⟩ := benchHistory .nil hfirst
  obtain ⟨-, hcount, -⟩ := benchmark_counts hlog.finish hsecond
  exact ⟨first, b, second, b', hfirst, hsecond, by rw [hcount, hnew]⟩

end LineageVault
