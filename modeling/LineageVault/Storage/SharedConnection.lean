import LineageVault.Python.Values
import LineageVault.Storage.History

/-! # Readers on a connection that a writer uses

The threads of a process share one `SQLiteStorageBackend` and its connection. A writing call holds the
lock from its first statement to its commit or rollback. `count_acknowledged` and `all_ledger_entries`
take no lock, and a connection sees its own uncommitted rows: a reader between two statements of a
call sees what the call has written so far, which the call may yet roll back.

`ReadsCommitted` is what a reader may expect, and `readsCommitted_iff` that it holds of a run exactly
if no reader comes between an INSERT into the ledger and the end of the call that made it.
-/

namespace LineageVault
open Foundations
set_option autoImplicit false

variable {P : Type} (py : PyLib P)

inductive WriterCall (P : Type) where
  | ledger (c : LedgerCall P)
  | addDatasetEdge (src dst transformId eventTime : Str) (schemaVersion : ℤ) (payload : P)
  | recordFieldMapping (runId outputDataset inputDataset : Str) (fieldMap : List (Str × SqlParam))
  | storeRunEvent (runId eventType : Str) (payload : P)

namespace WriterCall

/-- The call rolls back when it raises. -/
def guarded : WriterCall P → Bool
  | .ledger _ => true
  | _ => false

/-- The edge that goes into the graph after the commit. -/
def edge : WriterCall P → Option (Str × Str)
  | .addDatasetEdge src dst _ _ _ _ => some (src, dst)
  | _ => none

def prog : WriterCall P → Sql Outcome
  | .ledger c => c.prog py
  | .addDatasetEdge src dst transformId eventTime schemaVersion payload => do
    addDatasetEdgeBody py src dst transformId eventTime schemaVersion payload
    return .done
  | .recordFieldMapping runId outputDataset inputDataset fieldMap => do
    recordFieldMappingBody runId outputDataset inputDataset fieldMap
    return .done
  | .storeRunEvent runId eventType payload => do
    storeRunEventBody py runId eventType payload
    return .done

end WriterCall

/-- The call that holds the lock: the statements it has made, and the rest of it. -/
structure Running where
  guarded : Bool
  edge : Option (Str × Str)
  made : List Stmt
  rest : Sql Outcome

structure Connection where
  backend : Backend
  running : Option Running

inductive ConnectionStep (P : Type) where
  /-- a call takes the lock -/
  | start (c : WriterCall P)
  /-- the call makes its next statement, or commits; the surroundings may make either raise -/
  | next (fails : Bool)
  /-- `count_acknowledged()` and `all_ledger_entries()`, from another thread -/
  | read

namespace Connection

def opened (v : Store) : Connection := ⟨.opened v, none⟩

/-- The call raises. -/
def stop (g : Connection) (c : Running) : Connection where
  backend := if c.guarded then { g.backend with session := g.backend.session.rollback } else g.backend
  running := none

/-- The call commits and returns. -/
def commit (g : Connection) (c : Running) : Connection where
  backend :=
    { session := ⟨g.backend.session.view, g.backend.session.view⟩
      graph := c.edge.elim g.backend.graph fun e => addEdge e g.backend.graph }
  running := none

def advance (g : Connection) (fails : Bool) (c : Running) : Connection :=
  if fails then g.stop c
  else
    match c.rest with
    | .ret _ => g.commit c
    | .raise _ => g.stop c
    | .stmt s k =>
      match exec s g.backend.session.view with
      | .ok (r, w) =>
        { backend := { g.backend with session := { g.backend.session with view := w } }
          running := some { c with made := c.made ++ [s], rest := k r } }
      | .error _ => g.stop c

def step (g : Connection) : ConnectionStep P → Option Connection
  | .start c =>
    match g.running with
    | none => some { g with running := some ⟨c.guarded, c.edge, [], c.prog py⟩ }
    | some _ => none
  | .next fails => g.running.map (g.advance fails)
  | .read => some g

def after : List (ConnectionStep P) → Connection → Option Connection
  | [], g => some g
  | s :: steps, g => (g.step py s).bind (after steps)

end Connection

/-- Before step `n` of the run, a reader comes to `g`. -/
def ReadAt (v : Store) (steps : List (ConnectionStep P)) (n : ℕ) (g : Connection) : Prop :=
  steps[n]? = some .read ∧ Connection.after py (steps.take n) (.opened v) = some g

def Connection.committedLedger (g : Connection) : List LedgerRow := g.backend.session.durable.1.ledger

/-- What readers may expect of a run: what they are shown is committed, is there ever after, and the
counts do not decrease. -/
structure ReadsCommitted (v : Store) (steps : List (ConnectionStep P)) : Prop where
  entries : ∀ n g, ReadAt py v steps n g → ∀ xs, g.backend.allLedgerEntries py = .ok xs → ∀ x ∈ xs,
    ∃ r ∈ g.committedLedger, Backend.readEntry py r = .ok x
  rows : ∀ n g, ReadAt py v steps n g → ∀ r ∈ g.backend.db.ledger, r ∈ g.committedLedger
  stay : ∀ n g, ReadAt py v steps n g → ∀ m g', n ≤ m →
    Connection.after py (steps.take m) (.opened v) = some g' →
    ∀ r ∈ g.backend.db.ledger, r ∈ g'.committedLedger ∧ r ∈ g'.backend.db.ledger
  counts : ∀ n g, ReadAt py v steps n g → ∀ m g', n ≤ m → ReadAt py v steps m g' →
    g.backend.countAcknowledged ≤ g'.backend.countAcknowledged

def Stmt.ledgers : Stmt → Bool
  | .insertLedger .. => true
  | _ => false

/-- The call in progress has inserted into the ledger. -/
def Connection.Inserted (g : Connection) : Prop := ∃ c, g.running = some c ∧ ∃ s ∈ c.made, s.ledgers = true

variable {py}

/-! ## Statements and calls -/

/-- A statement inserts a row that was not there, or leaves the ledger as it was. -/
theorem exec_ledger {s : Stmt} {v w : Store} {r : Reply s} (h : exec s v = .ok (r, w)) :
    (s.ledgers = true ∧ ∃ row, w.1.ledger = v.1.ledger ++ [row] ∧ row ∉ v.1.ledger) ∨
      (s.ledgers = false ∧ w.1.ledger = v.1.ledger) := by
  cases s with
  | insertLedger e p prev d =>
    obtain ⟨-, hnew, rfl⟩ := insertLedger_ok h
    exact .inl ⟨rfl, _, rfl, fun hmem => hnew _ hmem rfl⟩
  | selectIdempotency limit keys => obtain rfl := exec_read rfl h; exact .inr ⟨rfl, rfl⟩
  | selectLastHash => obtain rfl := exec_read rfl h; exact .inr ⟨rfl, rfl⟩
  | selectPending => obtain rfl := exec_read rfl h; exact .inr ⟨rfl, rfl⟩
  | selectInLedger e => obtain rfl := exec_read rfl h; exact .inr ⟨rfl, rfl⟩
  | insertIdempotency key e now => obtain ⟨-, -, -, rfl⟩ := insertIdempotency_ok h; exact .inr ⟨rfl, rfl⟩
  | insertOrIgnoreStaging e t => obtain ⟨-, -, rfl⟩ := insertOrIgnoreStaging_ok h; exact .inr ⟨rfl, rfl⟩
  | updateCommitted e => obtain ⟨-, rfl⟩ := updateCommitted_ok h; exact .inr ⟨rfl, rfl⟩
  | insertEdge src dst transformId eventTime schemaVersion payload =>
    exact .inr ⟨rfl, (journal_ext.1 (exec_lineage _ v r w trivial rfl h)).2.1⟩
  | insertMapping runId outputDataset inputDataset outputField inputField =>
    exact .inr ⟨rfl, (journal_ext.1 (exec_lineage _ v r w trivial rfl h)).2.1⟩
  | upsertRunEvent runId eventType payload =>
    exact .inr ⟨rfl, (journal_ext.1 (exec_lineage _ v r w trivial rfl h)).2.1⟩

/-- A call that does not roll back does not insert into the ledger. -/
theorem unguarded_uses {c : WriterCall P} (h : c.guarded = false) :
    (c.prog py).Uses fun s => s.ledgers = false := by
  have hlineage : ∀ s : Stmt, s.lineage → s.ledgers = false := fun s hs => by
    cases s with
    | insertLedger e p prev d => exact hs.elim
    | _ => rfl
  cases c with
  | ledger c => cases h
  | addDatasetEdge src dst transformId eventTime schemaVersion payload =>
    exact (Prog.Uses.imp hlineage (uses_addDatasetEdge py _ _ _ _ _ _)).bind fun _ => trivial
  | recordFieldMapping runId outputDataset inputDataset fieldMap =>
    exact (Prog.Uses.imp hlineage (uses_recordFieldMapping _ _ _ _)).bind fun _ => trivial
  | storeRunEvent runId eventType payload =>
    exact (Prog.Uses.imp hlineage (uses_storeRunEvent py _ _ _)).bind fun _ => trivial

/-! ## What a reader sees -/

namespace Connection

/-- Between two statements of a call the connection shows the committed ledger, until the call inserts
into it; from then on it shows a row that is not committed. -/
structure Shows (g : Connection) : Prop where
  committed : g.committedLedger <+: g.backend.db.ledger
  clean : ¬ g.Inserted → g.backend.db.ledger = g.committedLedger
  phantom : g.Inserted → ∃ r ∈ g.backend.db.ledger, r ∉ g.committedLedger
  unguarded : ∀ c, g.running = some c → c.guarded = false →
    (c.rest.Uses fun s => s.ledgers = false) ∧ ∀ s ∈ c.made, s.ledgers = false

theorem not_inserted_idle {g : Connection} (h : g.running = none) : ¬ g.Inserted := by
  rintro ⟨c, hc, -⟩
  rw [h] at hc
  cases hc

theorem shows_idle {g : Connection} (hr : g.running = none)
    (h : g.backend.db.ledger = g.committedLedger) : g.Shows where
  committed := by simp only [h, List.prefix_rfl]
  clean _ := h
  phantom hi := (not_inserted_idle hr hi).elim
  unguarded c hc := by
    rw [hr] at hc
    cases hc

theorem shows_start {g : Connection} (h : g.Shows) (hr : g.running = none) (c : WriterCall P) :
    Shows { g with running := some ⟨c.guarded, c.edge, [], c.prog py⟩ } := by
  have hledger : g.backend.db.ledger = g.committedLedger := h.clean (not_inserted_idle hr)
  refine ⟨h.committed, fun _ => hledger, ?_, ?_⟩
  · rintro ⟨c', hc', s, hs, -⟩
    cases hc'
    cases hs
  · intro c' hc' hg
    cases hc'
    refine ⟨unguarded_uses hg, fun s hs => ?_⟩
    cases hs

theorem shows_stop {g : Connection} (h : g.Shows) {c : Running} (hr : g.running = some c) :
    (g.stop c).Shows ∧ (g.stop c).committedLedger = g.committedLedger := by
  unfold stop
  split
  · exact ⟨shows_idle rfl rfl, rfl⟩
  · next hg =>
    have hnone : ¬ g.Inserted := by
      rintro ⟨c', hc', s, hs, hledgers⟩
      rw [hr] at hc'
      cases hc'
      rw [(h.unguarded c hr (by simpa using hg)).2 s hs] at hledgers
      cases hledgers
    exact ⟨shows_idle rfl (h.clean hnone), rfl⟩

/-- The connection after a statement of the call that runs. -/
def executed (g : Connection) (c : Running) (s : Stmt) (rest : Sql Outcome) (w : Store) : Connection where
  backend := { g.backend with session := { g.backend.session with view := w } }
  running := some { c with made := c.made ++ [s], rest := rest }

theorem inserted_executed {g : Connection} {c : Running} (hr : g.running = some c) (s : Stmt)
    (rest : Sql Outcome) (w : Store) :
    (g.executed c s rest w).Inserted ↔ g.Inserted ∨ s.ledgers = true := by
  constructor
  · rintro ⟨c', hc', s', hs', hl⟩
    cases hc'
    rcases List.mem_append.1 hs' with hmade | hlast
    · exact .inl ⟨c, hr, s', hmade, hl⟩
    · rw [List.mem_singleton.1 hlast] at hl
      exact .inr hl
  · rintro (⟨c', hc', s', hs', hl⟩ | hl)
    · rw [hr] at hc'
      cases hc'
      exact ⟨_, rfl, s', List.mem_append_left _ hs', hl⟩
    · exact ⟨_, rfl, s, List.mem_append_right _ (List.mem_singleton_self s), hl⟩

theorem shows_executed {g : Connection} (h : g.Shows) {c : Running} (hr : g.running = some c) {s : Stmt}
    {k : Reply s → Sql Outcome} (hc : c.rest = .stmt s k) {r : Reply s} {w : Store}
    (hs : exec s g.backend.session.view = .ok (r, w)) : (g.executed c s (k r) w).Shows := by
  refine ⟨?_, fun hn => ?_, fun hi => ?_, fun c' hc' hg => ?_⟩
  · rcases exec_ledger hs with ⟨-, row, hw, -⟩ | ⟨-, hw⟩
    · exact h.committed.trans ⟨[row], hw.symm⟩
    · exact h.committed.trans (by simp only [executed, Backend.db, hw, List.prefix_rfl])
  · rw [inserted_executed hr, not_or] at hn
    rcases exec_ledger hs with ⟨hl, -⟩ | ⟨-, hw⟩
    · exact (hn.2 hl).elim
    · exact hw.trans (h.clean hn.1)
  · rcases exec_ledger hs with ⟨-, row, hw, hnew⟩ | ⟨hl, hw⟩
    · refine ⟨row, ?_, fun hmem => hnew (h.committed.subset hmem)⟩
      simp only [executed, Backend.db, hw, List.mem_append, List.mem_singleton, or_true]
    · rw [inserted_executed hr, hl] at hi
      obtain ⟨row, hrow, hnot⟩ := h.phantom (hi.resolve_right Bool.false_ne_true)
      exact ⟨row, by simpa only [executed, Backend.db, hw] using hrow, hnot⟩
  · cases hc'
    obtain ⟨huses, hmade⟩ := h.unguarded c hr hg
    rw [hc] at huses
    refine ⟨huses.2 r, fun s' hs' => ?_⟩
    rcases List.mem_append.1 hs' with hmem | hmem
    · exact hmade s' hmem
    · rw [List.mem_singleton.1 hmem]
      exact huses.1

theorem shows_advance {g : Connection} (h : g.Shows) {c : Running} (hr : g.running = some c)
    (fails : Bool) :
    (g.advance fails c).Shows ∧ g.committedLedger <+: (g.advance fails c).committedLedger := by
  have hstop : (g.stop c).Shows ∧ g.committedLedger <+: (g.stop c).committedLedger :=
    ⟨(shows_stop h hr).1, by simp only [(shows_stop h hr).2, List.prefix_rfl]⟩
  unfold advance
  split
  · exact hstop
  · split
    · exact ⟨shows_idle rfl rfl, h.committed⟩
    · exact hstop
    · next s k hc =>
      split
      · next r w hs => exact ⟨shows_executed h hr hc hs, List.prefix_rfl⟩
      · exact hstop

theorem shows_step {g g' : Connection} (h : g.Shows) {s : ConnectionStep P}
    (hs : g.step py s = some g') : g'.Shows ∧ g.committedLedger <+: g'.committedLedger := by
  cases s with
  | start c =>
    simp only [step] at hs
    split at hs
    · next hr =>
      cases hs
      exact ⟨shows_start h hr c, List.prefix_rfl⟩
    · cases hs
  | next fails =>
    obtain ⟨c, hr, rfl⟩ := Option.map_eq_some_iff.1 hs
    exact shows_advance h hr fails
  | read =>
    cases hs
    exact ⟨h, List.prefix_rfl⟩

theorem shows_after {steps : List (ConnectionStep P)} {g g' : Connection} (h : g.Shows)
    (hs : after py steps g = some g') : g'.Shows ∧ g.committedLedger <+: g'.committedLedger := by
  induction steps generalizing g with
  | nil =>
    cases hs
    exact ⟨h, List.prefix_rfl⟩
  | cons s steps ih =>
    obtain ⟨g₁, hg₁, hrest⟩ := Option.bind_eq_some_iff.1 hs
    have h₁ := shows_step h hg₁
    have h₂ := ih h₁.1 hrest
    exact ⟨h₂.1, h₁.2.trans h₂.2⟩

theorem shows_opened (v : Store) : (opened v).Shows := shows_idle rfl rfl

theorem after_append (xs ys : List (ConnectionStep P)) (g : Connection) :
    after py (xs ++ ys) g = (after py xs g).bind (after py ys) := by
  induction xs generalizing g with
  | nil => rfl
  | cons s xs ih =>
    simp only [List.cons_append, after, Option.bind_assoc]
    exact congrArg _ (funext fun g' => ih g')

/-- A later point of a run comes after an earlier one. -/
theorem after_take {v : Store} {steps : List (ConnectionStep P)} {n m : ℕ} {g g' : Connection}
    (hn : after py (steps.take n) (opened v) = some g)
    (hm : after py (steps.take m) (opened v) = some g') (hle : n ≤ m) :
    ∃ later, after py later g = some g' := by
  have hsplit : steps.take m = steps.take n ++ (steps.take m).drop n := by
    have h := List.take_append_drop n (steps.take m)
    rw [List.take_take, Nat.min_eq_left hle] at h
    exact h.symm
  rw [hsplit, after_append, hn] at hm
  exact ⟨_, hm⟩

end Connection

/-- **Readers see committed rows if none comes between an INSERT and the end of its call.** For every
run of calls, failures and readers on one connection: what the readers are shown is committed, stays,
and is counted in growing numbers, if and only if no reader comes after an INSERT into the ledger of a
call and before the commit or the rollback of that call. -/
theorem readsCommitted_iff (py : PyLib P) (v : Store) (steps : List (ConnectionStep P)) :
    ReadsCommitted py v steps ↔ ∀ n g, ReadAt py v steps n g → ¬ g.Inserted := by
  constructor
  · intro h n g hread hi
    have hshows := (Connection.shows_after (Connection.shows_opened v) hread.2).1
    obtain ⟨r, hr, hnot⟩ := hshows.phantom hi
    exact hnot (h.rows n g hread r hr)
  · intro h
    have hledger : ∀ n g, ReadAt py v steps n g → g.backend.db.ledger = g.committedLedger :=
      fun n g hread => (Connection.shows_after (Connection.shows_opened v) hread.2).1.clean (h n g hread)
    have hlater : ∀ n g, ReadAt py v steps n g → ∀ m g', n ≤ m →
        Connection.after py (steps.take m) (.opened v) = some g' →
        g.committedLedger <+: g'.committedLedger ∧ g'.committedLedger <+: g'.backend.db.ledger := by
      intro n g hread m g' hle hm
      obtain ⟨later, hl⟩ := Connection.after_take hread.2 hm hle
      have hshows := (Connection.shows_after (Connection.shows_opened v) hread.2).1
      have hs := Connection.shows_after hshows hl
      exact ⟨hs.2, hs.1.committed⟩
    refine ⟨fun n g hread xs hxs x hx => ?_, fun n g hread r hr => ?_, ?_, ?_⟩
    · obtain ⟨r, hr, hrx⟩ := mem_of_mapM hxs hx
      refine ⟨r, ?_, hrx⟩
      rw [← hledger n g hread]
      exact (mem_orderBySeq _ _).1 hr
    · rwa [← hledger n g hread]
    · intro n g hread m g' hle hm r hr
      rw [hledger n g hread] at hr
      have hpre := hlater n g hread m g' hle hm
      exact ⟨hpre.1.subset hr, hpre.2.subset (hpre.1.subset hr)⟩
    · intro n g hread m g' hle hread'
      have hpre := (hlater n g hread m g' hle hread'.2).1
      rw [Backend.countAcknowledged, Backend.countAcknowledged, hledger n g hread, hledger m g' hread']
      exact hpre.length_le

/-- An acknowledgement is read before its commit, and again after the commit has failed. -/
def readBetween : List (ConnectionStep Json) :=
  .start (.ledger (.acknowledgeWritesBatch .fixed [⟨lit "k", lit "e", .obj []⟩])) ::
    List.replicate 6 (.next false) ++ [.read, .next true, .read]

/-- **A reader sees a row that is rolled back.** -/
theorem reads_uncommitted :
    let v := Backend.empty.session.view
    (∃ g g', ReadAt PyLib.fixed v readBetween 7 g ∧ ReadAt PyLib.fixed v readBetween 9 g' ∧
      g.backend.countAcknowledged = 1 ∧ g'.backend.countAcknowledged = 0) ∧
    ¬ ReadsCommitted PyLib.fixed v readBetween := by
  intro v
  have hone : ((Connection.after PyLib.fixed (readBetween.take 7) (.opened v)).map fun g =>
      g.backend.countAcknowledged) = some 1 := by decide
  have hzero : ((Connection.after PyLib.fixed (readBetween.take 9) (.opened v)).map fun g =>
      g.backend.countAcknowledged) = some 0 := by decide
  obtain ⟨g, hg, hone⟩ := Option.map_eq_some_iff.1 hone
  obtain ⟨g', hg', hzero⟩ := Option.map_eq_some_iff.1 hzero
  have hread : ReadAt PyLib.fixed v readBetween 7 g := ⟨rfl, hg⟩
  have hread' : ReadAt PyLib.fixed v readBetween 9 g' := ⟨rfl, hg'⟩
  refine ⟨⟨g, g', hread, hread', hone, hzero⟩, fun h => ?_⟩
  have hle := h.counts 7 g hread 9 g' (by omega) hread'
  omega

end LineageVault
