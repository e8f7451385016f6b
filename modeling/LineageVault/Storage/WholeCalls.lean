import LineageVault.Storage.Serial
import LineageVault.Storage.SharedConnection

/-! # Threads on one connection make whole calls

On a shared connection the calls of the threads go statement by statement, with readers in between, and
each of them may fail at any statement and at its commit. The call that holds the lock is `Inside`: it
has made its first statements on the backend it has found, and ends as the whole call does
(`inside_advance`). `Stands` ties the connection to a history of whole calls: the calls that have ended
are those of a history of one backend, in the order in which they took the lock.

A call that returns or raises before it takes the lock (`Locks`) is no step of the connection.
-/

namespace LineageVault
open Foundations
set_option autoImplicit false

variable {P : Type} (py : PyLib P)

namespace WriterCall

/-- The call gets as far as the lock: its payload can be serialised, its batch is not empty. -/
def Locks : WriterCall P → Prop
  | .ledger (.stagePartial _ payload) => ∃ text, payloadJson py payload = .ok text
  | .ledger (.acknowledgeWritesBatch _ items) => items ≠ []
  | _ => True

def toCall : WriterCall P → Call P
  | .ledger c => c.toCall
  | .addDatasetEdge src dst transformId eventTime schemaVersion payload =>
    .addDatasetEdge src dst transformId eventTime schemaVersion payload
  | .recordFieldMapping runId outputDataset inputDataset fieldMap =>
    .recordFieldMapping runId outputDataset inputDataset fieldMap
  | .storeRunEvent runId eventType payload => .storeRunEvent runId eventType payload

end WriterCall

/-- The calls that took the lock. -/
def begun (steps : List (ConnectionStep P)) : List (Call P) :=
  steps.filterMap fun s =>
    match s with
    | .start c => some c.toCall
    | _ => none

/-! ## A call as a whole -/

/-- What a thread gets of its call. -/
def Outcome.ofExcept : Except PyErr Outcome → Outcome
  | .ok o => o
  | .error e => .raised e

/-- The call raises on `b`, where it has written `v`. -/
def WriterCall.stopped (c : WriterCall P) (b : Backend) (v : Store) : Backend :=
  if c.guarded then { b with session := b.session.rollback }
  else { b with session := { b.session with view := v } }

/-- The call commits `v`. -/
def WriterCall.done (c : WriterCall P) (b : Backend) (v : Store) : Backend where
  session := ⟨v, v⟩
  graph := c.edge.elim b.graph fun e => addEdge e b.graph

/-- How a run of the statements of the call ends. -/
def WriterCall.ending (c : WriterCall P) (b : Backend) :
    Except PyErr Outcome × Store × List Bool → Except PyErr Outcome × Backend
  | (.error e, v, _) => (.error e, c.stopped b v)
  | (.ok o, v, fs) =>
    if fs.headD false then (.error .operationalError, c.stopped b v) else (.ok o, c.done b v)

variable {py}

/-- A call that rolls back, by its statements before the answer is made up. -/
theorem guarded_ending {c : LedgerCall P} {α : Type} {p : Sql α} {f : α → Outcome}
    (hprog : c.prog py = p >>= fun a => .ret (f a)) (fs : List Bool) (b : Backend) :
    ((WriterCall.ledger c).ending b ((c.prog py).run exec .operationalError fs b.session.view)).map
        Outcome.ofExcept id =
      match b.guarded fs p with
      | (.ok a, b') => (f a, b')
      | (.error e, b') => (.raised e, b') := by
  rw [hprog, Prog.run_bind_ret]
  simp only [Backend.guarded, Session.transaction]
  obtain ⟨x, v, fs'⟩ := p.run exec .operationalError fs b.session.view
  cases x with
  | error e => rfl
  | ok a =>
    simp only [Except.map, WriterCall.ending]
    split <;> rfl

/-- A call that does not. -/
theorem unguarded_ending {c : WriterCall P} (hc : c.guarded = false) {p : Sql Unit}
    (hprog : c.prog py = p >>= fun _ => .ret .done) (fs : List Bool) (b : Backend) :
    (c.ending b ((c.prog py).run exec .operationalError fs b.session.view)).map Outcome.ofExcept id =
      match b.unguarded fs p with
      | (.ok _, b') => (.done, { b' with graph := c.edge.elim b'.graph fun e => addEdge e b'.graph })
      | (.error e, b') => (.raised e, b') := by
  rw [hprog, Prog.run_bind_ret]
  simp only [Backend.unguarded, Session.unguarded]
  obtain ⟨x, v, fs'⟩ := p.run exec .operationalError fs b.session.view
  cases x with
  | error e => simp only [Except.map, WriterCall.ending, WriterCall.stopped, hc, if_false, Bool.false_eq_true]; rfl
  | ok a =>
    simp only [Except.map, WriterCall.ending, WriterCall.stopped, hc, if_false, Bool.false_eq_true]
    split <;> rfl

theorem perform_ledger_ending {c : LedgerCall P} (hc : (WriterCall.ledger c).Locks py) (fs : List Bool)
    (b : Backend) :
    c.toCall.perform py fs b =
      ((WriterCall.ledger c).ending b ((c.prog py).run exec .operationalError fs b.session.view)).map
        Outcome.ofExcept id := by
  cases c with
  | stagePartial eventId payload =>
    obtain ⟨text, htext⟩ := hc
    have hprog : LedgerCall.prog py (.stagePartial eventId payload) =
        stageBody eventId text >>= fun _ => .ret .done := by
      simp only [LedgerCall.prog, htext, raising, Prog.ofExcept_ok, Prog.ret_bind, Prog.pure_eq]
    rw [guarded_ending hprog]
    simp only [LedgerCall.toCall, Call.perform, Backend.stagePartial, htext]
    cases b.guarded fs (stageBody eventId text) with
    | mk x b' => cases x <;> rfl
  | acknowledgeWritesBatch now items =>
    have hne : items.isEmpty = false := List.isEmpty_eq_false_iff.2 hc
    have hprog : LedgerCall.prog py (.acknowledgeWritesBatch now items) =
        acknowledgeBody py now items >>= fun rs => .ret (.acks rs) := by
      simp only [LedgerCall.prog, hne, Bool.false_eq_true, if_false, Prog.pure_eq]
    rw [guarded_ending hprog]
    simp only [LedgerCall.toCall, Call.perform, Backend.acknowledgeWritesBatch, hne, Bool.false_eq_true,
      if_false]
    cases b.guarded fs (acknowledgeBody py now items) with
    | mk x b' => cases x <;> rfl
  | recoverUncommitted =>
    rw [guarded_ending (p := recoverBody py) (f := .recovered) rfl]
    simp only [LedgerCall.toCall, Call.perform, Backend.recoverUncommitted]
    cases b.guarded fs (recoverBody py) with
    | mk x b' => cases x <;> rfl

/-- A call of a history is the run of its statements, and its ending. -/
theorem perform_ending {c : WriterCall P} (hc : c.Locks py) (fs : List Bool) (b : Backend) :
    c.toCall.perform py fs b =
      (c.ending b ((c.prog py).run exec .operationalError fs b.session.view)).map Outcome.ofExcept id := by
  cases c with
  | ledger c => exact perform_ledger_ending hc fs b
  | addDatasetEdge src dst transformId eventTime schemaVersion payload =>
    rw [unguarded_ending (p := addDatasetEdgeBody py src dst transformId eventTime schemaVersion payload) rfl rfl]
    simp only [WriterCall.toCall, Call.perform, Backend.addDatasetEdge, WriterCall.edge]
    cases b.unguarded fs (addDatasetEdgeBody py src dst transformId eventTime schemaVersion payload) with
    | mk x b' => cases x <;> rfl
  | recordFieldMapping runId outputDataset inputDataset fieldMap =>
    rw [unguarded_ending (p := recordFieldMappingBody runId outputDataset inputDataset fieldMap) rfl rfl]
    simp only [WriterCall.toCall, Call.perform, Backend.recordFieldMapping, WriterCall.edge]
    cases b.unguarded fs (recordFieldMappingBody runId outputDataset inputDataset fieldMap) with
    | mk x b' => cases x <;> rfl
  | storeRunEvent runId eventType payload =>
    rw [unguarded_ending (p := storeRunEventBody py runId eventType payload) rfl rfl]
    simp only [WriterCall.toCall, Call.perform, Backend.storeRunEvent, WriterCall.edge]
    cases b.unguarded fs (storeRunEventBody py runId eventType payload) with
    | mk x b' => cases x <;> rfl

/-! ## The call that holds the lock -/

/-- What the call returns or raises, where it ends at its next step. -/
def Connection.outcome (g : Connection) (fails : Bool) (c : Running) : Option Outcome :=
  match c.rest with
  | .ret o => some (if fails then .raised .operationalError else o)
  | .raise e => some (.raised e)
  | .stmt s _ =>
    if fails then some (.raised .operationalError)
    else
      match exec s g.backend.session.view with
      | .ok _ => none
      | .error e => some (.raised e)

variable (py) in
/-- The call `c` has taken the lock on `b` and has made its first statements. -/
inductive Inside (c : WriterCall P) (b : Backend) (g : Connection) : Prop where
  | intro (r : Running) (n : ℕ) (v : Store) (running : g.running = some r) (locks : c.Locks py)
      (guarded : r.guarded = c.guarded) (edge : r.edge = c.edge)
      (backend : g.backend = { b with session := { b.session with view := v } })
      (steps : Prog.Steps exec (c.prog py) b.session.view n r.rest v)

section Inside
variable {g g' : Connection} {c : WriterCall P} {b : Backend} {r : Running} {n : ℕ} {v : Store}

theorem Inside.busy (h : Inside py c b g) : g.running ≠ none := by
  cases h with
  | intro r n v running =>
    rw [running]
    exact Option.some_ne_none r

/-- The file and the graph are still those that the call has found. -/
theorem Inside.unchanged (h : Inside py c b g) : g.backend.session.durable = b.session.durable ∧
    g.backend.graph = b.graph ∧ g.backend.reopen = b.reopen := by
  cases h with
  | intro r n v running locks guarded edge backend steps =>
    rw [backend]
    exact ⟨rfl, rfl, rfl⟩

theorem inside_start (hlocks : c.Locks py) (hs : g.step py (.start c) = some g') :
    g.running = none ∧ Inside py c g.backend g' := by
  simp only [Connection.step] at hs
  split at hs
  · next hr =>
    cases hs
    exact ⟨hr, .intro _ 0 g.backend.session.view rfl hlocks rfl rfl rfl .refl⟩
  · cases hs

theorem stop_eq (hguarded : r.guarded = c.guarded)
    (hb : g.backend = { b with session := { b.session with view := v } }) :
    g.stop r = ⟨c.stopped b v, none⟩ := by
  simp only [Connection.stop, WriterCall.stopped, hguarded, hb]
  split <;> rfl

theorem commit_eq (hedge : r.edge = c.edge)
    (hb : g.backend = { b with session := { b.session with view := v } }) :
    g.commit r = ⟨c.done b v, none⟩ := by
  simp only [Connection.commit, WriterCall.done, hedge, hb]

/-- A call that has made `n` statements ends as the whole call does. -/
theorem perform_ended (hlocks : c.Locks py)
    (hsteps : Prog.Steps exec (c.prog py) b.session.view n r.rest v) (fs : List Bool) :
    c.toCall.perform py (List.replicate n false ++ fs) b =
      (c.ending b (r.rest.run exec .operationalError fs v)).map Outcome.ofExcept id := by
  rw [perform_ending hlocks, hsteps.run]

/-- Where the next step ends the call and leaves what the rest of the program comes to under `fs`, it ends the
whole call. -/
theorem ends_whole (hlocks : c.Locks py) (hsteps : Prog.Steps exec (c.prog py) b.session.view n r.rest v)
    {fails : Bool} (fs : List Bool) {x : Except PyErr Outcome × Backend}
    (hx : c.ending b (r.rest.run exec .operationalError fs v) = x)
    (ho : g.outcome fails r = some (Outcome.ofExcept x.1)) (ha : g.advance fails r = ⟨x.2, none⟩) :
    ∃ fs o, g.outcome fails r = some o ∧ g.advance fails r = ⟨(c.toCall.perform py fs b).2, none⟩ ∧
      (c.toCall.perform py fs b).1 = o := by
  subst hx
  refine ⟨List.replicate n false ++ fs, _, ho, ?_, ?_⟩
  · rw [perform_ended hlocks hsteps]
    exact ha
  · rw [perform_ended hlocks hsteps]
    rfl

/-- One step of the call: a statement, or the end of the whole call. -/
theorem inside_advance (h : Inside py c b g) (hr : g.running = some r) (fails : Bool) :
    (g.outcome fails r = none ∧ Inside py c b (g.advance fails r)) ∨
      ∃ fs o, g.outcome fails r = some o ∧ g.advance fails r = ⟨(c.toCall.perform py fs b).2, none⟩ ∧
        (c.toCall.perform py fs b).1 = o := by
  cases h with
  | intro r' n v running locks guarded edge backend steps =>
    obtain rfl : r' = r := Option.some.inj (running.symm.trans hr)
    have hview : g.backend.session.view = v := by rw [backend]
    have hstop := stop_eq guarded backend
    cases hrest : r'.rest with
    | ret o =>
      cases fails with
      | true =>
        refine .inr (ends_whole locks steps [true] (x := (.error .operationalError, c.stopped b v)) ?_ ?_ hstop)
        · rw [hrest]
          rfl
        · rw [Connection.outcome, hrest]
          rfl
      | false =>
        refine .inr (ends_whole locks steps [] (x := (.ok o, c.done b v)) ?_ ?_ ?_)
        · rw [hrest]
          rfl
        · rw [Connection.outcome, hrest]
          rfl
        · rw [Connection.advance, hrest]
          exact commit_eq edge backend
    | raise e =>
      refine .inr (ends_whole locks steps [] (x := (.error e, c.stopped b v)) ?_ ?_ ?_)
      · rw [hrest]
        rfl
      · rw [Connection.outcome, hrest]
        rfl
      · rw [Connection.advance, hrest, ite_self]
        exact hstop
    | stmt s k =>
      cases fails with
      | true =>
        refine .inr (ends_whole locks steps [true] (x := (.error .operationalError, c.stopped b v)) ?_ ?_ hstop)
        · rw [hrest]
          rfl
        · rw [Connection.outcome, hrest]
          rfl
      | false =>
        cases hx : exec s v with
        | error e =>
          refine .inr (ends_whole locks steps [] (x := (.error e, c.stopped b v)) ?_ ?_ ?_)
          · simp only [hrest, Prog.run, List.headD_nil, hx]
            rfl
          · simp only [Connection.outcome, hrest, hview, hx, Bool.false_eq_true, if_false]
            rfl
          · simp only [Connection.advance, hrest, hview, hx, Bool.false_eq_true, if_false]
            exact hstop
        | ok x =>
          obtain ⟨y, w⟩ := x
          rw [hrest] at steps
          refine .inl ⟨?_, ?_⟩
          · simp only [Connection.outcome, hrest, hview, hx, Bool.false_eq_true, if_false]
          · simp only [Connection.advance, hrest, hview, hx, Bool.false_eq_true, if_false]
            refine .intro _ (n + 1) w rfl locks guarded edge ?_ (steps.snoc hx)
            rw [backend]

end Inside

/-! ## The connection between two statements -/

variable (py) in
/-- The calls that have ended went as in `log`; another may be inside, on the backend they have left. -/
inductive Stands (log : List (Call P × Outcome)) (calls : List (Call P)) (g : Connection) : Prop where
  | idle (free : g.running = none) (ended : log.map Prod.fst = calls) (run : Run py log g.backend)
  | busy (c : WriterCall P) (b : Backend) (inside : Inside py c b g)
      (ended : log.map Prod.fst ++ [c.toCall] = calls) (run : Run py log b)

section Steps
variable {log : List (Call P × Outcome)} {calls : List (Call P)} {g g' : Connection} {r : Running}

theorem stands_advance (h : Stands py log calls g) (hr : g.running = some r) (fails : Bool) :
    ∃ log', Stands py (log ++ log') calls (g.advance fails r) := by
  cases h with
  | idle free =>
    rw [free] at hr
    cases hr
  | busy c b inside ended run =>
    rcases inside_advance inside hr fails with ⟨-, hinside⟩ | ⟨fs, o, -, hover, -⟩
    · refine ⟨[], ?_⟩
      rw [List.append_nil]
      exact .busy c b hinside ended run
    · refine ⟨[(c.toCall, (c.toCall.perform py fs b).1)], ?_⟩
      rw [hover]
      refine .idle rfl ?_ (.snoc c.toCall fs run)
      rw [List.map_append, List.map_singleton, ended]

/-- One step: a call begins, goes on or ends. -/
theorem stands_step (h : Stands py log calls g) {s : ConnectionStep P}
    (hlocks : ∀ c, s = .start c → c.Locks py) (hs : g.step py s = some g') :
    ∃ log', Stands py (log ++ log') (calls ++ begun [s]) g' := by
  cases s with
  | start c =>
    obtain ⟨hfree, hinside⟩ := inside_start (hlocks c rfl) hs
    cases h with
    | idle free ended run =>
      refine ⟨[], .busy c g.backend hinside ?_ ?_⟩
      · rw [List.append_nil, ended]
        rfl
      · rwa [List.append_nil]
    | busy c' b inside => exact (inside.busy hfree).elim
  | next fails =>
    obtain ⟨r, hr, rfl⟩ := Option.map_eq_some_iff.1 hs
    have hnext := stands_advance h hr fails
    rwa [← List.append_nil calls] at hnext
  | read =>
    cases hs
    exact ⟨[], by rw [List.append_nil, show begun [ConnectionStep.read] = ([] : List (Call P)) from rfl,
      List.append_nil]; exact h⟩

theorem stands_after {steps : List (ConnectionStep P)} (h : Stands py log calls g)
    (hlocks : ∀ c, .start c ∈ steps → c.Locks py) (hs : Connection.after py steps g = some g') :
    ∃ log', Stands py (log ++ log') (calls ++ begun steps) g' := by
  induction steps generalizing log calls g with
  | nil =>
    cases hs
    refine ⟨[], ?_⟩
    rw [List.append_nil, begun, List.filterMap_nil, List.append_nil]
    exact h
  | cons s steps ih =>
    obtain ⟨g₁, hg₁, hrest⟩ := Option.bind_eq_some_iff.1 hs
    obtain ⟨log₁, h₁⟩ := stands_step h (fun c hc => hlocks c (by rw [hc]; exact List.mem_cons_self)) hg₁
    obtain ⟨log₂, h₂⟩ := ih h₁ (fun c hc => hlocks c (List.mem_cons_of_mem _ hc)) hrest
    refine ⟨log₁ ++ log₂, ?_⟩
    have hbegun : begun (s :: steps) = begun [s] ++ begun steps := by
      rw [begun, begun, begun, ← List.filterMap_append, List.singleton_append]
    rw [← List.append_assoc, hbegun, ← List.append_assoc]
    exact h₂

end Steps

/-- **Threads on one connection make whole calls.** Whatever the order of their statements, of readers
and of failures: between calls the backend is that of the history of the calls that have taken the lock,
in this order. While a call runs, the file and the graph are those of the history without it, so a
process that is killed there and started again finds what the calls before it have left. -/
theorem threads_make_whole_calls {log : List (Call P × Outcome)} {b : Backend} (hb : Run py log b)
    {steps : List (ConnectionStep P)} (hlocks : ∀ c, .start c ∈ steps → c.Locks py) {g : Connection}
    (hs : Connection.after py steps ⟨b, none⟩ = some g) :
    ∃ (made : List (Call P × Outcome)) (b' : Backend), Run py (log ++ made) b' ∧
      (g.running = none → g.backend = b' ∧ begun steps = made.map Prod.fst) ∧
      (g.running ≠ none → ∃ c, begun steps = made.map Prod.fst ++ [c]) ∧
      g.backend.session.durable = b'.session.durable ∧ g.backend.graph = b'.graph ∧
      g.backend.reopen = b'.reopen := by
  have hstart : Stands py log (log.map Prod.fst) ⟨b, none⟩ := .idle rfl rfl hb
  obtain ⟨made, h⟩ := stands_after hstart hlocks hs
  cases h with
  | idle free ended run =>
    rw [List.map_append] at ended
    exact ⟨made, g.backend, run, fun _ => ⟨rfl, (List.append_cancel_left ended).symm⟩,
      fun hbusy => (hbusy free).elim, rfl, rfl, rfl⟩
  | busy c b' inside ended run =>
    rw [List.map_append, List.append_assoc] at ended
    exact ⟨made, b', run, fun hfree => (inside.busy hfree).elim,
      fun _ => ⟨c.toCall, (List.append_cancel_left ended).symm⟩, inside.unchanged⟩

/-- The process is killed between two statements of an acknowledgement, after an edge was added. -/
def killedBetween : List (ConnectionStep Json) :=
  .start (.addDatasetEdge (lit "a") (lit "b") (lit "t") (lit "now") 1 .null) ::
    List.replicate 2 (.next false) ++
    .start (.ledger (.acknowledgeWritesBatch .fixed [⟨lit "k", lit "e", .null⟩])) ::
    List.replicate 6 (.next false) ++ [.read]

theorem threads_make_whole_calls_killed :
    ∃ g, Connection.after PyLib.fixed killedBetween ⟨.empty, none⟩ = some g ∧
      g.backend.db.ledger.length = 1 ∧ g.backend.reopen.db.ledger.length = 0 ∧
      ∃ made b', Run PyLib.fixed made b' ∧ g.backend.reopen = b'.reopen := by
  have hlen : ((Connection.after PyLib.fixed killedBetween ⟨.empty, none⟩).map fun g =>
      (g.backend.db.ledger.length, g.backend.reopen.db.ledger.length)) = some (1, 0) := by decide
  obtain ⟨g, hg, hlen⟩ := Option.map_eq_some_iff.1 hlen
  obtain ⟨hone, hzero⟩ := Prod.mk.inj hlen
  have hlocks : ∀ c, ConnectionStep.start c ∈ killedBetween → c.Locks PyLib.fixed := by
    intro c hc
    simp only [killedBetween, List.replicate, List.cons_append, List.nil_append, List.mem_cons,
      ConnectionStep.start.injEq, reduceCtorEq, List.not_mem_nil, or_false, false_or] at hc
    rcases hc with rfl | rfl
    · trivial
    · exact List.cons_ne_nil _ _
  obtain ⟨made, b', hrun, -, -, -, -, hre⟩ := threads_make_whole_calls .nil hlocks hg
  exact ⟨g, hg, hone, hzero, made, b', hrun, hre⟩

end LineageVault
