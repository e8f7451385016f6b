import LineageVault.Storage.Client

/-! # A store with another journal

The calls that record lineage neither read nor write the journal: with another one, or with other keys
in it, they do the same (`run_mapStore`). An acknowledgement reads and writes nothing else, so it does
the same whatever lineage is recorded (`acknowledgeBody_rejournaled`).
-/

namespace LineageVault
open Foundations
set_option autoImplicit false

variable {P : Type} {py : PyLib P}

def rekeyed (keys : List IdempotencyRow) (v : Store) : Store := ({ v.1 with idempotency := keys }, v.2)

/-- The journal of one store, with the lineage of the other. -/
def rejournaled (w v : Store) : Store :=
  ({ v.1 with idempotency := w.1.idempotency, ledger := w.1.ledger, walStaging := w.1.walStaging }, w.2)

/-- A change that the statements on the lineage tables neither see nor touch. -/
def Beside (g : Store → Store) : Prop :=
  ∀ s v, s.lineage → exec s (g v) = (exec s v).map fun x => (x.1, g x.2)

namespace Backend

def mapStore (g : Store → Store) (b : Backend) : Backend :=
  { b with session := ⟨g b.session.durable, g b.session.view⟩ }

def rekeyed (keys : List IdempotencyRow) (b : Backend) : Backend :=
  { b with session := ⟨LineageVault.rekeyed keys b.session.durable,
      LineageVault.rekeyed keys b.session.view⟩ }

end Backend

theorem rekeyed_self {b : Backend} (hb : Settled b) : b.rekeyed b.db.idempotency = b := by
  obtain ⟨hi, -⟩ := journal_ext.1 hb
  have hd : LineageVault.rekeyed b.db.idempotency b.session.durable = b.session.durable := by
    rw [Backend.db, ← hi]
    rfl
  rw [Backend.rekeyed, hd]
  rfl

/-! ## Recording -/

theorem beside_rejournaled (w : Store) : Beside (rejournaled w) := by
  intro s v hs
  cases s with
  | insertEdge src dst transformId eventTime schemaVersion payload =>
    simp only [exec, effect]
    cases bindable [src, dst, transformId, eventTime, payload] with
    | false => rfl
    | true => cases fitsInteger schemaVersion <;> rfl
  | insertMapping runId outputDataset inputDataset outputField inputField =>
    simp only [exec, effect]
    cases bindable [runId, outputDataset, inputDataset, outputField] with
    | false => rfl
    | true => cases bindText inputField <;> rfl
  | upsertRunEvent runId eventType payload =>
    simp only [exec, effect]
    cases bindable [runId, eventType, payload] <;> rfl
  | _ => exact hs.elim

theorem rejournaled_self {w v : Store} (h : journal v = journal w) : rejournaled w v = v := by
  obtain ⟨hi, hl, hs, hn⟩ := journal_ext.1 h
  rw [rejournaled, ← hi, ← hl, ← hs, ← hn]

theorem rekeyed_eq {keys : List IdempotencyRow} {v u : Store} (h : journal u = journal v) :
    rekeyed keys u = rejournaled (rekeyed keys v) u := by
  obtain ⟨-, hl, hs, hn⟩ := journal_ext.1 h
  simp only [rekeyed, rejournaled, ← hl, ← hs, ← hn]

theorem beside_rekeyed (keys : List IdempotencyRow) : Beside (rekeyed keys) := by
  intro s v hs
  rw [rekeyed_eq rfl, beside_rejournaled _ s v hs]
  cases h : exec s v with
  | error e => rfl
  | ok x =>
    have hj : journal x.2 = journal v := exec_lineage s v x.1 x.2 hs rfl h
    simp only [Except.map, rekeyed_eq hj]

section Beside
variable {g : Store → Store} (hg : Beside g)
include hg

theorem unguarded_mapStore {α : Type} {p : Sql α} (hp : p.Uses Stmt.lineage) (fs : List Bool) (b : Backend) :
    (b.mapStore g).unguarded fs p = ((b.unguarded fs p).1, (b.unguarded fs p).2.mapStore g) := by
  have h := Session.unguarded_map exec .operationalError hg hp fs b.session
  simp only [Backend.unguarded, Backend.mapStore, h]

theorem perform_mapStore (s : StorageCall P) (b : Backend) (hs : s.records) :
    s.perform py [] (b.mapStore g) = ((s.perform py [] b).1, (s.perform py [] b).2.mapStore g) := by
  cases s with
  | acknowledgeWrite now item => exact hs.elim
  | acknowledgeWritesBatch now items => exact hs.elim
  | addDatasetEdge src dst transformId eventTime schemaVersion payload =>
    have h := unguarded_mapStore hg (uses_addDatasetEdge py src dst transformId eventTime
      schemaVersion payload) [] b
    simp only [StorageCall.perform, Backend.addDatasetEdge, h]
    obtain ⟨result, b'⟩ := b.unguarded [] (addDatasetEdgeBody py src dst transformId eventTime
      schemaVersion payload)
    cases result <;> rfl
  | recordFieldMapping runId outputDataset inputDataset fieldMap =>
    exact unguarded_mapStore hg (uses_recordFieldMapping runId outputDataset inputDataset fieldMap) [] b
  | storeRunEvent runId eventType payload =>
    exact unguarded_mapStore hg (uses_storeRunEvent py runId eventType payload) [] b

/-- **A client that only records lineage does the same after a change it does not see.** -/
theorem run_mapStore {α : Type} {p : Client P α} (hp : p.Uses StorageCall.records) (b : Backend) :
    p.run py (b.mapStore g) = ((p.run py b).1, (p.run py b).2.mapStore g) :=
  Prog.whole_map _ (fun s b hs => perform_mapStore hg s b hs) hp b

end Beside

theorem run_rekeyed {α : Type} {p : Client P α} (hp : p.Uses StorageCall.records)
    (keys : List IdempotencyRow) (b : Backend) :
    p.run py (b.rekeyed keys) = ((p.run py b).1, (p.run py b).2.rekeyed keys) :=
  run_mapStore (beside_rekeyed keys) hp b

/-! ## Acknowledging -/

theorem effect_rejournaled (v : Store) (s : Stmt) (w : Store) (hs : ¬ s.lineage) :
    effect (rejournaled w v).2 (rejournaled w v).1 s = effect w.2 w.1 s := by
  cases s with
  | insertEdge => exact (hs trivial).elim
  | insertMapping => exact (hs trivial).elim
  | upsertRunEvent => exact (hs trivial).elim
  | _ => rfl

theorem exec_rejournaled (v : Store) (s : Stmt) (w : Store) (hs : ¬ s.lineage) :
    exec s (rejournaled w v) = (exec s w).map fun x => (x.1, rejournaled x.2 v) := by
  rw [exec, effect_rejournaled v s w hs, exec]
  cases s with
  | insertEdge => exact (hs trivial).elim
  | insertMapping => exact (hs trivial).elim
  | upsertRunEvent => exact (hs trivial).elim
  | selectLastHash => rfl
  | selectPending => rfl
  | _ =>
    simp only [effect]
    split_ifs <;> rfl

section Acknowledging
variable (py) (now : ClockText)

theorem uses_acknowledgeItem (item : BatchWriteItem P) :
    (acknowledgeItem py now item).Uses fun s => ¬ s.lineage := by
  refine Prog.uses_ofExcept_bind fun text => ⟨id, fun _ => ⟨id, fun _ => ⟨id, fun _ => ?_⟩⟩⟩
  refine Prog.uses_ofExcept_bind fun text => Prog.Uses.bind ⟨id, fun _ => trivial⟩ fun prev => ?_
  exact Prog.uses_ofExcept_bind fun digest => ⟨id, fun _ => trivial⟩

theorem uses_acknowledgeLoop (items : List (BatchWriteItem P)) (existing : List (Str × Str))
    (results : List AcknowledgedWrite) :
    (acknowledgeLoop py now items existing results).Uses fun s => ¬ s.lineage := by
  induction items generalizing existing results with
  | nil => trivial
  | cons item items ih =>
    rw [acknowledgeLoop]
    split
    · exact ih _ _
    · exact (uses_acknowledgeItem py now item).bind fun _ => ih _ _

theorem uses_acknowledgeBody (items : List (BatchWriteItem P)) :
    (acknowledgeBody py now items).Uses fun s => ¬ s.lineage :=
  ⟨id, fun _ => uses_acknowledgeLoop py now items _ []⟩

/-- **An acknowledgement does the same whatever lineage is recorded**, and leaves it. -/
theorem acknowledgeBody_rejournaled (items : List (BatchWriteItem P)) (w v : Store) :
    (acknowledgeBody py now items).eval exec (rejournaled w v) =
      ((acknowledgeBody py now items).eval exec w).map fun x => (x.1, rejournaled x.2 v) :=
  Prog.eval_map exec (fun s w hs => exec_rejournaled v s w hs) (uses_acknowledgeBody py now items) w

end Acknowledging
end LineageVault
