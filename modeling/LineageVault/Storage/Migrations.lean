import Mathlib.Data.List.Infix
import Mathlib.Data.List.Nodup
import LineageVault.Foundations.Interruption
import LineageVault.Python.Text

/-! # Migrations

`_migrate` of both backends. SQLite makes each `CREATE` of a script durable at once, since `executescript`
first commits; PostgreSQL keeps them in the transaction. An attempt may fail or be killed at any statement,
also between the objects of a version and its row in `schema_migrations`, and it may be one of an older
release, which knows fewer versions.

`migrate_safe`: wherever the attempts before stopped, one that comes through completes the schema, as if
nothing had happened before it.
-/

namespace LineageVault
open Foundations
set_option autoImplicit false

/-! ## The code -/

/-- A table or an index: its name, and what its `CREATE` says after the name. -/
structure SchemaObject where
  name : Str
  definition : Str

structure Migration where
  version : ℕ
  script : List SchemaObject

/-- What the file has: objects, and the rows of `schema_migrations`. -/
structure Schema where
  objects : List SchemaObject
  versions : List (ℕ × Str)

def Schema.empty : Schema := ⟨[], []⟩

/-- `CREATE … IF NOT EXISTS` -/
def createObject (o : SchemaObject) (objects : List SchemaObject) : List SchemaObject :=
  if objects.any fun q => q.name = o.name then objects else objects ++ [o]

inductive Dialect where
  | sqlite
  | postgres
  deriving DecidableEq

structure MigrationConn where
  durable : Schema
  view : Schema
  inTransaction : Bool

def MigrationConn.opened (s : Schema) : MigrationConn := ⟨s, s, false⟩

def MigrationConn.commit (c : MigrationConn) : MigrationConn := ⟨c.view, c.view, false⟩

inductive MigrationStmt where
  | create (o : SchemaObject)
  /-- `SELECT MAX(version) FROM schema_migrations` -/
  | selectMaxVersion
  /-- the commit before the script, in `executescript` -/
  | beginScript
  | insertVersion (version : ℕ) (appliedAt : Str)
  | commit

@[reducible] def MigrationReply : MigrationStmt → Type
  | .selectMaxVersion => Option ℕ
  | _ => Unit

/-- One statement; `failing`: the surroundings make it raise. -/
def MigrationStmt.perform (d : Dialect) (failing : Bool) : (s : MigrationStmt) → MigrationConn →
    Except PyErr (MigrationReply s) × MigrationConn
  | .create o, c =>
    if failing then (.error .operationalError, c)
    else
      let view := { c.view with objects := createObject o c.view.objects }
      -- without a transaction a CREATE of SQLite is committed at once
      if d = .sqlite ∧ c.inTransaction = false then (.ok (), ⟨view, view, false⟩)
      else (.ok (), ⟨c.durable, view, true⟩)
  | .selectMaxVersion, c =>
    if failing then (.error .operationalError, c) else (.ok (c.view.versions.map Prod.fst).max?, c)
  | .beginScript, c =>
    if failing then (.error .operationalError, c)
    else (.ok (), if d = .sqlite then c.commit else c)
  | .insertVersion version appliedAt, c =>
    if failing then (.error .operationalError, c)
    else if c.view.versions.any fun row => row.1 = version then (.error .integrityError, c)
    else (.ok (), ⟨c.durable, { c.view with versions := c.view.versions ++ [(version, appliedAt)] }, true⟩)
  | .commit, c => if failing then (.error .operationalError, c) else (.ok (), c.commit)

abbrev MigrationProg := Prog MigrationStmt MigrationReply PyErr

abbrev migration (s : MigrationStmt) : MigrationProg (MigrationReply s) := Prog.query s

def versionsTable : SchemaObject where
  name := lit "schema_migrations"
  definition := lit "(version INTEGER PRIMARY KEY, applied_at TEXT NOT NULL)"

/-- The two lists differ in the type of the numbers that the database hands out. -/
def schemaScript (numbered : Str) : List SchemaObject := [
  ⟨lit "idempotency",
    lit "(idempotency_key TEXT PRIMARY KEY, event_id TEXT NOT NULL UNIQUE, created_at TEXT NOT NULL)"⟩,
  ⟨lit "ledger",
    lit "(seq " ++ numbered ++ lit ", event_id TEXT NOT NULL UNIQUE, payload TEXT NOT NULL, " ++
    lit "prev_hash TEXT NOT NULL, entry_hash TEXT NOT NULL)"⟩,
  ⟨lit "idx_ledger_event_id", lit "ON ledger(event_id)"⟩,
  ⟨lit "wal_staging",
    lit "(id " ++ numbered ++ lit ", event_id TEXT NOT NULL UNIQUE, payload TEXT NOT NULL, " ++
    lit "committed INTEGER NOT NULL DEFAULT 0)"⟩,
  ⟨lit "idx_wal_committed", lit "ON wal_staging(committed)"⟩,
  ⟨lit "dataset_edges",
    lit "(id " ++ numbered ++ lit ", src TEXT NOT NULL, dst TEXT NOT NULL, transform_id TEXT NOT NULL, " ++
    lit "event_time TEXT NOT NULL, schema_version INTEGER NOT NULL, payload TEXT NOT NULL)"⟩,
  ⟨lit "idx_edges_dst", lit "ON dataset_edges(dst)"⟩,
  ⟨lit "idx_edges_src", lit "ON dataset_edges(src)"⟩,
  ⟨lit "idx_edges_time", lit "ON dataset_edges(event_time)"⟩,
  ⟨lit "field_mappings",
    lit "(id " ++ numbered ++ lit ", run_id TEXT NOT NULL, output_dataset TEXT NOT NULL, " ++
    lit "input_dataset TEXT NOT NULL, output_field TEXT NOT NULL, input_field TEXT NOT NULL)"⟩,
  ⟨lit "idx_field_out", lit "ON field_mappings(output_dataset, output_field)"⟩,
  ⟨lit "idx_field_in", lit "ON field_mappings(input_dataset, input_field)"⟩,
  ⟨lit "run_events",
    lit "(run_id TEXT NOT NULL, event_type TEXT NOT NULL, payload TEXT NOT NULL, " ++
    lit "PRIMARY KEY (run_id, event_type))"⟩]

/-- `MIGRATIONS` and `POSTGRES_MIGRATIONS` -/
def migrations : Dialect → List Migration
  | .sqlite => [⟨1, schemaScript (lit "INTEGER PRIMARY KEY AUTOINCREMENT")⟩]
  | .postgres => [⟨1, schemaScript (lit "SERIAL PRIMARY KEY")⟩]

/-- `executescript` -/
def runScript : List SchemaObject → MigrationProg Unit
  | [] => return ()
  | o :: os => do
    migration (.create o)
    runScript os

def migrateLoop (now : Str) (current : ℕ) : List Migration → ℕ → MigrationProg ℕ
  | [], applied => return applied
  | m :: ms, applied =>
    if m.version ≤ current then migrateLoop now current ms applied
    else do
      migration .beginScript
      runScript m.script
      migration (.insertVersion m.version now)
      migrateLoop now current ms (applied + 1)

def migrate (ms : List Migration) (now : Str) : MigrationProg ℕ := do
  migration (.create versionsTable)
  let row ← migration .selectMaxVersion
  let applied ← migrateLoop now (row.getD 0) ms 0
  migration .commit
  return applied

/-- A call of `_migrate`: the versions that its release knows, the time it records, and what happens at each
of its statements. -/
structure Attempt where
  known : List Migration
  now : Str
  failing : List Bool

/-- An attempt on a file that was just opened. What it raises it rolls back, and a process that dies leaves
the same behind. -/
def Attempt.run (d : Dialect) (x : Attempt) (s : Schema) : Option (Except PyErr ℕ) × Schema :=
  let r := Prog.drive (MigrationStmt.perform d) x.failing (migrate x.known x.now) (.opened s)
  (r.1, r.2.durable)

/-- A call that nothing disturbs. -/
def migrateWhole (d : Dialect) (ms : List Migration) (now : Str) (s : Schema) : Except PyErr ℕ × Schema :=
  let r := Prog.whole (MigrationStmt.perform d) false (migrate ms now) (.opened s)
  (r.1, r.2.durable)

def afterAttempts (d : Dialect) (attempts : List Attempt) : Schema :=
  attempts.foldl (fun s x => (x.run d s).2) .empty

/-! ## The schema in order -/

/-- All objects of these versions, as they are created. -/
def objectsOf (ms : List Migration) : List SchemaObject := versionsTable :: ms.flatMap Migration.script

/-- The versions are positive and increase, and no object has the name of another. -/
structure Numbered (ms : List Migration) : Prop where
  increasing : (ms.map Migration.version).Pairwise (· < ·)
  positive : ∀ m ∈ ms, 0 < m.version
  names : ((objectsOf ms).map SchemaObject.name).Nodup

theorem migrations_numbered (d : Dialect) : Numbered (migrations d) := by
  cases d <;> exact ⟨by decide, by decide, by decide +kernel⟩

theorem objectsOf_append (ms ms' : List Migration) :
    objectsOf (ms ++ ms') = objectsOf ms ++ ms'.flatMap Migration.script := by
  simp [objectsOf]

/-- The next object of the script, which an earlier attempt may have created. -/
theorem createObject_take {os : List SchemaObject} (hos : (os.map SchemaObject.name).Nodup) {k n : ℕ}
    (hk : k ≤ n) {o : SchemaObject} (ho : os[k]? = some o) :
    createObject o (os.take n) = os.take (max n (k + 1)) := by
  unfold createObject
  rcases Nat.lt_or_ge k n with hlt | hge
  · have hmem : o ∈ os.take n := by
      refine List.mem_of_getElem? (i := k) ?_
      rw [List.getElem?_take, if_pos hlt, ho]
    rw [if_pos (List.any_eq_true.2 ⟨o, hmem, decide_eq_true rfl⟩), Nat.max_eq_left hlt]
  · obtain rfl : n = k := Nat.le_antisymm hge hk
    rw [Nat.max_eq_right (Nat.le_succ n), List.take_add_one, ho, if_neg]
    · rfl
    · rintro hany
      obtain ⟨q, hq, hname⟩ := List.any_eq_true.1 hany
      obtain ⟨i, hi⟩ := List.mem_iff_getElem?.1 hq
      rw [List.getElem?_take] at hi
      split at hi
      · next hin =>
        have hin' : (os.map SchemaObject.name)[i]? = some o.name := by
          rw [List.getElem?_map, hi, Option.map_some, of_decide_eq_true hname]
        have hnn : (os.map SchemaObject.name)[n]? = some o.name := by
          rw [List.getElem?_map, ho, Option.map_some]
        have hlt : n < (os.map SchemaObject.name).length := (List.getElem?_eq_some_iff.1 hnn).1
        exact List.nodup_iff_getElem?_ne_getElem?.1 hos i n hin hlt (hin'.trans hnn.symm)
      · cases hi

/-- What the file has when the versions of `done` are recorded, at these times, and the first `n` objects
are created. -/
structure Schema.At (ms done : List Migration) (n : ℕ) (s : Schema) : Prop where
  versions : s.versions.map Prod.fst = done.map Migration.version
  objects : s.objects = (objectsOf ms).take n
  /-- A version is recorded after its objects. -/
  enough : done ≠ [] → (objectsOf done).length ≤ n

/-- What attempts leave. -/
def Schema.Partial (ms : List Migration) (s : Schema) : Prop := ∃ done n, done <+: ms ∧ s.At ms done n

theorem partial_empty (ms : List Migration) : Schema.empty.Partial ms :=
  ⟨[], 0, List.nil_prefix, rfl, rfl, fun h => (h rfl).elim⟩

section Run
variable {ms done : List Migration} {d : Dialect} {n : ℕ} {now : Str} {c : MigrationConn}

/-- The connection inside an attempt. -/
structure MigrationConn.At (ms done : List Migration) (n : ℕ) (c : MigrationConn) : Prop where
  view : c.view.At ms done n
  durable : c.durable.Partial ms

/-- The program returns `a` on the connection `w`, and what is durable on the way is what attempts may
leave. -/
abbrev Comes (d : Dialect) (ms : List Migration) {α : Type} (p : MigrationProg α) (c : MigrationConn) (a : α)
    (w : MigrationConn) : Prop :=
  p.Through (MigrationStmt.perform d) false (fun u => u.durable.Partial ms) c a w

theorem perform_undisturbed {failing : Bool} {s : MigrationStmt} {v v' : MigrationConn}
    {r : MigrationReply s} (h : s.perform d failing v = (.ok r, v')) :
    s.perform d false v = (.ok r, v') := by
  cases failing with
  | false => exact h
  | true => cases s <;> cases h

theorem perform_raised {failing : Bool} {s : MigrationStmt} {v v' : MigrationConn} {e : PyErr}
    (h : s.perform d failing v = (.error e, v')) : v'.durable = v.durable := by
  cases failing with
  | true => cases s <;> cases h <;> rfl
  | false =>
    cases s with
    | create o =>
      simp only [MigrationStmt.perform, Bool.false_eq_true, if_false] at h
      split at h <;> cases h
    | selectMaxVersion => cases h
    | beginScript => cases h
    | insertVersion version appliedAt =>
      simp only [MigrationStmt.perform, Bool.false_eq_true, if_false] at h
      split at h <;> cases h
      rfl
    | commit => cases h

theorem create_at (hms : Numbered ms) (hdone : done <+: ms) (hc : c.At ms done n) {k : ℕ} (hk : k ≤ n)
    {o : SchemaObject} (ho : (objectsOf ms)[k]? = some o) :
    ∃ c', (MigrationStmt.create o).perform d false c = (.ok (), c') ∧ c'.At ms done (max n (k + 1)) ∧
      c'.view.versions = c.view.versions := by
  have hview : Schema.At ms done (max n (k + 1))
      { c.view with objects := createObject o c.view.objects } := by
    refine ⟨hc.view.versions, ?_, fun h => (hc.view.enough h).trans (Nat.le_max_left _ _)⟩
    rw [hc.view.objects]
    exact createObject_take hms.names hk ho
  simp only [MigrationStmt.perform, Bool.false_eq_true, if_false]
  split
  · exact ⟨_, rfl, ⟨hview, done, _, hdone, hview⟩, rfl⟩
  · exact ⟨_, rfl, ⟨hview, hc.durable⟩, rfl⟩

/-- A script whose first objects may be there. -/
theorem runScript_comes (hms : Numbered ms) (hdone : done <+: ms) {before os rest : List SchemaObject}
    (hos : objectsOf ms = before ++ os ++ rest) (hn : before.length ≤ n) (hc : c.At ms done n) :
    ∃ w, Comes d ms (runScript os) c () w ∧ w.At ms done (max n (before.length + os.length)) ∧
      w.view.versions = c.view.versions := by
  induction os generalizing before n c with
  | nil =>
    refine ⟨c, Prog.through_ret hc.durable, ?_, rfl⟩
    rw [List.length_nil, Nat.add_zero, Nat.max_eq_left hn]
    exact hc
  | cons o os ih =>
    have ho : (objectsOf ms)[before.length]? = some o := by
      rw [hos, List.append_assoc, List.getElem?_append_right (Nat.le_refl _), Nat.sub_self]
      rfl
    obtain ⟨c', hperform, hc', hversions⟩ := create_at (d := d) hms hdone hc hn ho
    have hos' : objectsOf ms = (before ++ [o]) ++ os ++ rest := by
      rw [hos]
      simp only [List.append_assoc, List.cons_append, List.nil_append]
    have hn' : (before ++ [o]).length ≤ max n (before.length + 1) := by
      rw [List.length_append]
      exact Nat.le_max_right _ _
    obtain ⟨w, hw, hat, hwversions⟩ := ih hos' hn' hc'
    refine ⟨w, Prog.Through.stmt hc.durable hperform hw, ?_, hwversions.trans hversions⟩
    have hlen : max n (before.length + (o :: os).length) =
        max (max n (before.length + 1)) ((before ++ [o]).length + os.length) := by
      simp only [List.length_append, List.length_cons, List.length_nil]
      omega
    rw [hlen]
    exact hat

/-- The next version of the code is recorded last. -/
theorem insertVersion_at (hms : Numbered ms) (now : Str) {m : Migration} (hdone : done ++ [m] <+: ms)
    (hn : (objectsOf (done ++ [m])).length ≤ n) (hc : c.At ms done n) :
    ∃ c', (MigrationStmt.insertVersion m.version now).perform d false c = (.ok (), c') ∧
      c'.At ms (done ++ [m]) n ∧ c'.view.versions = c.view.versions ++ [(m.version, now)] := by
  have hnew : ¬ c.view.versions.any fun row => row.1 = m.version := by
    intro hany
    obtain ⟨row, hrow, heq⟩ := List.any_eq_true.1 hany
    have hmem : row.1 ∈ done.map Migration.version := hc.view.versions ▸ List.mem_map_of_mem hrow
    have hsorted : ((done ++ [m]).map Migration.version).Pairwise (· < ·) :=
      hms.increasing.sublist (hdone.sublist.map _)
    rw [List.map_append, List.pairwise_append] at hsorted
    have hlt := hsorted.2.2 row.1 hmem m.version List.mem_cons_self
    exact hlt.ne (of_decide_eq_true heq)
  simp only [MigrationStmt.perform, Bool.false_eq_true, if_false, if_neg hnew]
  refine ⟨_, rfl, ⟨⟨?_, hc.view.objects, fun _ => hn⟩, hc.durable⟩, rfl⟩
  rw [List.map_append, hc.view.versions, List.map_append]
  rfl

theorem beginScript_at (hdone : done <+: ms) (hc : c.At ms done n) :
    ∃ c', MigrationStmt.beginScript.perform d false c = (.ok (), c') ∧ c'.At ms done n ∧
      c'.view.versions = c.view.versions := by
  cases d with
  | sqlite => exact ⟨_, rfl, ⟨hc.view, done, n, hdone, hc.view⟩, rfl⟩
  | postgres => exact ⟨_, rfl, hc, rfl⟩

/-- What the versions `post` make of a schema that records those of `done`. -/
structure Completes (ms done post : List Migration) (now : Str) (s s' : Schema) : Prop where
  stage : ∃ n, s'.At ms (done ++ post) n ∧ (objectsOf (done ++ post)).length ≤ n
  versions : s'.versions = s.versions ++ post.map fun m => (m.version, now)

theorem migrateLoop_comes (hms : Numbered ms) (now : Str) (applied : ℕ) {post later : List Migration}
    {current : ℕ} (hpost : ms = done ++ post ++ later) (hcurrent : ∀ m ∈ post, current < m.version)
    (hn : (objectsOf done).length ≤ n) (hc : c.At ms done n) :
    ∃ w, Comes d ms (migrateLoop now current post applied) c (applied + post.length) w ∧
      Completes ms done post now c.view w.view ∧ w.durable.Partial ms := by
  induction post generalizing done applied n c with
  | nil =>
    refine ⟨c, Prog.through_ret hc.durable, ⟨⟨n, ?_, ?_⟩, (List.append_nil _).symm⟩, hc.durable⟩
    · rw [List.append_nil]
      exact hc.view
    · rw [List.append_nil]
      exact hn
  | cons m post ih =>
    have hms' : ms = (done ++ [m]) ++ post ++ later := by
      rw [hpost]
      simp only [List.append_assoc, List.cons_append, List.nil_append]
    have hdone : done ++ [m] <+: ms := ⟨post ++ later, (List.append_assoc _ _ _).symm.trans hms'.symm⟩
    have hdone' : done <+: ms := (List.prefix_append _ _).trans hdone
    have hos : objectsOf ms = objectsOf done ++ m.script ++ (post ++ later).flatMap Migration.script := by
      rw [hms', List.append_assoc, objectsOf_append, objectsOf_append]
      simp only [List.flatMap_cons, List.flatMap_nil, List.append_nil]
    obtain ⟨c₁, h₁, hc₁, hv₁⟩ := beginScript_at (d := d) hdone' hc
    obtain ⟨c₂, h₂, hc₂, hv₂⟩ := runScript_comes (d := d) hms hdone' hos hn hc₁
    have hn₂ : (objectsOf (done ++ [m])).length ≤ max n ((objectsOf done).length + m.script.length) := by
      rw [objectsOf_append]
      simp only [List.flatMap_cons, List.flatMap_nil, List.append_nil, List.length_append]
      exact Nat.le_max_right _ _
    obtain ⟨c₃, h₃, hc₃, hv₃⟩ := insertVersion_at (d := d) hms now hdone hn₂ hc₂
    obtain ⟨w, hw, ⟨hstage, hversions⟩, hdurable⟩ := ih (applied + 1) hms'
      (fun q hq => hcurrent q (List.mem_cons_of_mem _ hq)) hn₂ hc₃
    refine ⟨w, ?_, ⟨?_, ?_⟩, hdurable⟩
    · rw [migrateLoop, if_neg (Nat.not_le.2 (hcurrent m List.mem_cons_self))]
      have hcount : applied + (m :: post).length = applied + 1 + post.length := by
        rw [List.length_cons]
        omega
      rw [hcount]
      have hrest : Comes d ms (runScript m.script >>= fun _ => migration (.insertVersion m.version now) >>=
          fun _ => migrateLoop now current post (applied + 1)) c₁ (applied + 1 + post.length) w :=
        h₂.bind (Prog.Through.stmt hc₂.durable h₃ hw)
      exact Prog.Through.stmt hc.durable h₁ hrest
    · rw [List.append_assoc] at hstage
      exact hstage
    · rw [hversions, hv₃, hv₂, hv₁, List.append_assoc]
      rfl

/-- The versions already recorded are passed over. -/
theorem migrateLoop_skip {current : ℕ} {skipped : List Migration} (h : ∀ m ∈ skipped, m.version ≤ current)
    (post : List Migration) (applied : ℕ) :
    migrateLoop now current (skipped ++ post) applied = migrateLoop now current post applied := by
  induction skipped with
  | nil => rfl
  | cons m skipped ih =>
    rw [List.cons_append, migrateLoop, if_pos (h m List.mem_cons_self)]
    exact ih fun q hq => h q (List.mem_cons_of_mem _ hq)

/-- `SELECT MAX(version)` separates the recorded versions from the others. -/
theorem current_separates (hms : Numbered ms) {post later : List Migration}
    (hpost : ms = done ++ post ++ later) :
    (∀ m ∈ done, m.version ≤ (done.map Migration.version).max?.getD 0) ∧
      ∀ m ∈ post, (done.map Migration.version).max?.getD 0 < m.version := by
  cases hmax : (done.map Migration.version).max? with
  | none =>
    have hnil : done = [] := List.map_eq_nil_iff.1 (List.max?_eq_none_iff.1 hmax)
    subst hnil
    refine ⟨(fun m hm => nomatch hm), fun m hm => hms.positive m ?_⟩
    rw [hpost]
    exact List.mem_append_left _ hm
  | some top =>
    obtain ⟨htop, hle⟩ := List.max?_eq_some_iff.1 hmax
    refine ⟨fun m hm => hle m.version (List.mem_map_of_mem hm), fun m hm => ?_⟩
    have hsorted := hms.increasing
    rw [hpost, List.append_assoc, List.map_append, List.pairwise_append] at hsorted
    exact hsorted.2.2 top htop m.version (List.mem_map_of_mem (List.mem_append_left _ hm))

/-- What a release that knows the versions `known` does to the versions `done` of all of `ms`: it adds those
after them. -/
theorem known_cases {known : List Migration} (hknown : known <+: ms) (hdone : done <+: ms) :
    ∃ skipped later, known = skipped ++ known.drop done.length ∧ (∀ m ∈ skipped, m ∈ done) ∧
      ms = done ++ known.drop done.length ++ later := by
  rcases List.prefix_or_prefix_of_prefix hknown hdone with ⟨more, rfl⟩ | ⟨post, rfl⟩
  · obtain ⟨later, rfl⟩ := hdone
    refine ⟨known, later, ?_, fun m hm => List.mem_append_left _ hm, ?_⟩
    · rw [List.drop_eq_nil_of_le (by rw [List.length_append]; exact Nat.le_add_right _ _), List.append_nil]
    · rw [List.drop_eq_nil_of_le (by rw [List.length_append]; exact Nat.le_add_right _ _), List.append_nil]
  · obtain ⟨later, rfl⟩ := hknown
    refine ⟨done, later, ?_, fun m hm => hm, ?_⟩
    · rw [List.drop_left]
    · rw [List.drop_left]

/-- An undisturbed call on what attempts left. -/
theorem migrate_comes (d : Dialect) (hms : Numbered ms) {known : List Migration} (hknown : known <+: ms)
    (now : Str) {s : Schema} (hdone : done <+: ms) (hs : s.At ms done n) :
    ∃ w, Comes d ms (migrate known now) (.opened s) (known.drop done.length).length w ∧
      Completes ms done (known.drop done.length) now s w.durable := by
  have hopened : (MigrationConn.opened s).At ms done n := ⟨hs, done, n, hdone, hs⟩
  obtain ⟨c, hcreate, hc, hversions⟩ :=
    create_at (d := d) hms hdone hopened (Nat.zero_le n) (o := versionsTable) rfl
  have hn : (objectsOf done).length ≤ max n (0 + 1) := by
    cases done with
    | nil => exact Nat.le_max_right _ _
    | cons m done => exact (hs.enough (List.cons_ne_nil _ _)).trans (Nat.le_max_left _ _)
  obtain ⟨skipped, later, hsplit, hskipped, hpost⟩ := known_cases hknown hdone
  obtain ⟨hle, hlt⟩ := current_separates hms hpost
  obtain ⟨w, hw, hcompletes, hdurable⟩ :=
    migrateLoop_comes (d := d) hms now 0 hpost hlt hn hc
  obtain ⟨n', hstage, hn'⟩ := hcompletes.stage
  have hloop : migrateLoop now ((done.map Migration.version).max?.getD 0) known 0 =
      migrateLoop now ((done.map Migration.version).max?.getD 0) (known.drop done.length) 0 := by
    conv_lhs => rw [hsplit]
    exact migrateLoop_skip (fun m hm => hle m (hskipped m hm)) _ _
  have hselect : MigrationStmt.selectMaxVersion.perform d false c =
      (.ok (done.map Migration.version).max?, c) := by
    simp only [MigrationStmt.perform, Bool.false_eq_true, if_false, hc.view.versions]
  have hcommit : Comes d ms (migration .commit >>= fun _ => return (known.drop done.length).length) w
      (known.drop done.length).length w.commit :=
    Prog.Through.stmt hdurable rfl (Prog.through_ret ⟨_, n', ⟨later, hpost.symm⟩, hstage⟩)
  rw [Nat.zero_add] at hw
  refine ⟨w.commit, ?_, ⟨n', hstage, hn'⟩, hcompletes.versions.trans ?_⟩
  · refine Prog.Through.stmt hopened.durable hcreate (Prog.Through.stmt hc.durable hselect ?_)
    have hrest : Comes d ms (migrateLoop now ((done.map Migration.version).max?.getD 0) known 0 >>=
        fun applied => migration .commit >>= fun _ => return applied) c
        (known.drop done.length).length w.commit := by
      rw [hloop]
      exact hw.bind hcommit
    exact hrest
  · rw [hversions]
    rfl

end Run

/-! ## Attempts -/

section Attempts
variable {ms done : List Migration} {n : ℕ} {s : Schema}

/-- An attempt wherever it stops, and one that returns. -/
theorem run_attempt (d : Dialect) (hms : Numbered ms) {x : Attempt} (hknown : x.known <+: ms)
    (hdone : done <+: ms) (hs : s.At ms done n) :
    (x.run d s).2.Partial ms ∧ ∀ applied s', x.run d s = (some (.ok applied), s') →
      applied = (x.known.drop done.length).length ∧
        Completes ms done (x.known.drop done.length) x.now s s' := by
  obtain ⟨w, hw, hcompletes⟩ := migrate_comes d hms hknown x.now hdone hs
  obtain ⟨hleft, hreturns⟩ := Prog.drive_through (J := Schema.Partial ms)
    (fun _ _ _ _ _ h => perform_undisturbed h) (fun _ _ _ _ _ h => perform_raised h) hw x.failing
  refine ⟨hleft, fun applied s' hrun => ?_⟩
  obtain ⟨hresult, rfl⟩ := Prod.mk.inj hrun
  obtain ⟨happlied, hend⟩ := hreturns applied _ (Prod.ext hresult rfl)
  refine ⟨happlied, ?_⟩
  rw [congrArg MigrationConn.durable hend]
  exact hcompletes

theorem afterAttempts_partial (d : Dialect) (hms : Numbered ms) {attempts : List Attempt}
    (hknown : ∀ x ∈ attempts, x.known <+: ms) : (afterAttempts d attempts).Partial ms := by
  have h : ∀ s : Schema, s.Partial ms → (attempts.foldl (fun s x => (x.run d s).2) s).Partial ms := by
    induction attempts with
    | nil => exact fun s hs => hs
    | cons x attempts ih =>
      rintro s ⟨done, n, hdone, hs⟩
      exact ih (fun y hy => hknown y (List.mem_cons_of_mem _ hy)) _
        (run_attempt d hms (hknown x List.mem_cons_self) hdone hs).1
  exact h .empty (partial_empty ms)

/-- All versions of `ms` after those recorded. -/
theorem Completes.eq {now : Str} {s' : Schema} (hdone : done <+: ms)
    (h : Completes ms done (ms.drop done.length) now s s') :
    s' = ⟨objectsOf ms, s.versions ++ (ms.drop done.length).map fun m => (m.version, now)⟩ := by
  obtain ⟨⟨n', hat, hn'⟩, hversions⟩ := h
  have hall : done ++ ms.drop done.length = ms := by
    obtain ⟨post, rfl⟩ := hdone
    rw [List.drop_left]
  have hobjects : s'.objects = objectsOf ms := by
    rw [hall] at hn'
    rw [hat.objects, List.take_of_length_le hn']
  cases s'
  exact congrArg₂ Schema.mk hobjects hversions

theorem Schema.At.recorded (hdone : done <+: ms) (hs : s.At ms done n) {m : Migration} (hm : m ∈ done)
    {o : SchemaObject} (ho : o ∈ m.script) : o ∈ s.objects := by
  have hmem : o ∈ objectsOf done := List.mem_cons_of_mem _ (List.mem_flatMap.2 ⟨m, hm, ho⟩)
  have hpre : objectsOf done <+: objectsOf ms := by
    obtain ⟨post, rfl⟩ := hdone
    exact ⟨_, (objectsOf_append _ _).symm⟩
  rw [hs.objects]
  exact (List.prefix_take_iff.2 ⟨hpre, hs.enough (List.ne_nil_of_mem hm)⟩).subset hmem

/-- Whatever stopped the attempts before, also those of older releases: the versions recorded are the first
ones, each with all its objects, and an attempt that comes through makes the rest and nothing else. -/
theorem migrate_safe (d : Dialect) {ms : List Migration} (hms : Numbered ms) (attempts : List Attempt)
    (hknown : ∀ x ∈ attempts, x.known <+: ms) :
    let s := afterAttempts d attempts
    ∃ recorded, recorded <+: ms ∧ s.versions.map Prod.fst = recorded.map Migration.version ∧
      s.objects <+: objectsOf ms ∧ (∀ m ∈ recorded, ∀ o ∈ m.script, o ∈ s.objects) ∧
      ∀ now,
        let rest := ms.drop recorded.length
        let complete := Schema.mk (objectsOf ms) (s.versions ++ rest.map fun m => (m.version, now))
        migrateWhole d ms now s = (.ok rest.length, complete) ∧
        ∀ failing applied s', Attempt.run d ⟨ms, now, failing⟩ s = (some (.ok applied), s') →
          applied = rest.length ∧ s' = complete := by
  obtain ⟨done, n, hdone, hs⟩ := afterAttempts_partial d hms hknown
  refine ⟨done, hdone, hs.versions, ?_, fun m hm o ho => hs.recorded hdone hm ho, fun now => ⟨?_, ?_⟩⟩
  · rw [hs.objects]
    exact List.take_prefix _ _
  · obtain ⟨w, hw, hcompletes⟩ := migrate_comes d hms (List.prefix_refl ms) now hdone hs
    simp only [migrateWhole, hw.1, hcompletes.eq hdone]
  · rintro failing applied s' hrun
    obtain ⟨happlied, hcompletes⟩ :=
      (run_attempt d hms (x := ⟨ms, now, failing⟩) (List.prefix_refl ms) hdone hs).2 applied s' hrun
    exact ⟨happlied, hcompletes.eq hdone⟩

/-- A first start dies after the table `ledger`, a second one fails to record the version. -/
theorem migrate_safe_killed :
    let attempts := [Attempt.mk (migrations .sqlite) (lit "t0") (List.replicate 5 false),
      ⟨migrations .sqlite, lit "t1", List.replicate 16 false ++ [true]⟩]
    (afterAttempts .sqlite (attempts.take 1)).objects = (objectsOf (migrations .sqlite)).take 3 ∧
      (afterAttempts .sqlite attempts).versions = [] ∧
      migrateWhole .sqlite (migrations .sqlite) (lit "t2") (afterAttempts .sqlite attempts) =
        (.ok 1, ⟨objectsOf (migrations .sqlite), [(1, lit "t2")]⟩) := by
  intro attempts
  have hversions : (afterAttempts .sqlite attempts).versions = [] := rfl
  obtain ⟨recorded, -, hrecorded, -, -, hnext⟩ :=
    migrate_safe .sqlite (migrations_numbered .sqlite) attempts (by simp [attempts])
  rw [hversions] at hrecorded hnext
  have hnone : recorded = [] := List.map_eq_nil_iff.1 hrecorded.symm
  subst hnone
  exact ⟨rfl, hversions, (hnext (lit "t2")).1⟩

end Attempts

end LineageVault
