import LineageVault.Python.SortKeys
import LineageVault.Storage.ExactlyOnce
import LineageVault.Storage.Recovery

/-! # The ledger gives back what it was given

`given log e` is what the calls of a history gave for an event: the payload of the acknowledgement that
wrote it, or of the first `stage_partial` of it. After a recovery `all_ledger_entries` has one entry for
each event that was given something, with this payload; its dictionaries come back in the order of their
keys.
-/

namespace LineageVault
open Foundations
set_option autoImplicit false

/-! ## Payloads -/

/-- A payload that is read back as it was written. -/
structure Payload (reprFloat : Str → FloatText) where
  value : Json
  distinct : value.Distinct
  readable : value.Readable reprFloat

section Payload
variable {reprFloat : Str → FloatText}

def Payload.sorted (p : Payload reprFloat) : Payload reprFloat where
  value := p.value.sorted
  distinct := (sorted_keeps reprFloat p.distinct).distinct
  readable := (sorted_keeps reprFloat p.distinct).readable p.readable

theorem Payload.sorted_same (p : Payload reprFloat) : p.sorted.value.Same p.value :=
  (sorted_keeps reprFloat p.distinct).same

/-- `json.loads`; no column holds a text that cannot be encoded. -/
def readPayload (hfloat : ReprStable reprFloat) (t : Str) : Except PyErr (Payload reprFloat) :=
  if ht : t.encodable = true then
    match h : Json.loads reprFloat t with
    | .ok j => .ok ⟨j, (loads_sound hfloat ht h).1, (loads_sound hfloat ht h).2⟩
    | .error e => .error e
  else .error .valueError

/-- The json module on these payloads. -/
def PyLib.payloads (sha256 : Str → Digest) (hfloat : ReprStable reprFloat) (limit : VariableLimit) :
    PyLib (Payload reprFloat) where
  sha256 := sha256
  dumps sortKeys p := .ok (p.value.dumps sortKeys)
  loads := readPayload hfloat
  limit := limit

theorem readPayload_dumps (hfloat : ReprStable reprFloat) (p : Payload reprFloat) :
    readPayload hfloat (p.value.dumps true) = .ok p.sorted := by
  have hread := loads_sorted p.distinct p.readable
  unfold readPayload
  rw [dif_pos (dumps_encodable true p.value)]
  split
  · next j h =>
    obtain rfl : j = p.value.sorted := Except.ok.inj (h.symm.trans hread)
    rfl
  · next e h => cases h.symm.trans hread

theorem sorted_dumps (p : Payload reprFloat) : p.sorted.value.dumps true = p.value.dumps true :=
  dumps_same p.sorted.distinct p.distinct p.sorted_same

/-- The json module reads back every such value. -/
theorem readBack_loads {p : Json} (hd : p.Distinct) (hr : p.Readable reprFloat) :
    ReadBack (Json.loads reprFloat) p :=
  ⟨p.sorted, loads_sorted hd hr, (sorted_keeps reprFloat hd).distinct,
    (sorted_keeps reprFloat hd).same⟩

end Payload

/-! ## What the calls gave -/

section Given
variable {P : Type}

def stagedBy (e : Str) : Call P × Outcome → Option P
  | (.stagePartial eventId payload, .done) => if eventId = e then some payload else none
  | _ => none

/-- The payload of the first `stage_partial` of the event that returned. -/
def firstStaged (e : Str) (log : List (Call P × Outcome)) : Option P := log.findSome? (stagedBy e)

/-- The payload of the item whose acknowledgement wrote the event. -/
def written (e : Str) (log : List (Call P × Outcome)) : Option P :=
  ((answered log).find? fun a => !a.2.duplicate && a.2.eventId = e).map fun a => a.1.payload

def given (e : Str) (log : List (Call P × Outcome)) : Option P := (written e log).or (firstStaged e log)

theorem firstStaged_snoc (e : Str) (log : List (Call P × Outcome)) (x : Call P × Outcome) :
    firstStaged e (log ++ [x]) = (firstStaged e log).or (stagedBy e x) := by
  rw [firstStaged, List.findSome?_append, List.findSome?_singleton]
  rfl

variable {py : PyLib P}

/-- What the tables have of it: `first` is what was staged, `answers` what was acknowledged. -/
structure GivenBy (py : PyLib P) (first : Str → Option P) (answers : List (BatchWriteItem P × AcknowledgedWrite))
    (v : Store) : Prop where
  staging : ∀ e p, first e = some p → e ∈ stagedIds v.1
  pending : ∀ r ∈ v.1.walStaging, r.committed = false →
    ∃ p, first r.eventId = some p ∧ payloadJson py p = .ok r.payload
  ledger : ∀ r ∈ v.1.ledger, (∃ a ∈ answers, a.2.duplicate = false ∧ a.2.eventId = r.eventId) ∨
    ∃ p, first r.eventId = some p ∧ payloadJson py p = .ok r.payload

section Steps
variable {first : Str → Option P} {answers : List (BatchWriteItem P × AcknowledgedWrite)} {v : Store}

theorem GivenBy.more (h : GivenBy py first answers v) (a : BatchWriteItem P × AcknowledgedWrite) :
    GivenBy py first (answers ++ [a]) v where
  staging := h.staging
  pending := h.pending
  ledger r hr := (h.ledger r hr).imp_left fun ⟨b, hb, hdup, he⟩ => ⟨b, List.mem_append_left _ hb, hdup, he⟩

theorem stagedIds_mark (v : Store) (e : Str) : stagedIds (committed v e).1 = stagedIds v.1 := by
  simp only [stagedIds, committed, markCommitted, List.map_map]
  refine List.map_congr_left fun r _ => ?_
  simp only [Function.comp_apply]
  split <;> rfl

theorem GivenBy.mark (h : GivenBy py first answers v) (e : Str) : GivenBy py first answers (committed v e) where
  staging e' p hp := by
    rw [stagedIds_mark]
    exact h.staging e' p hp
  pending r hr hc := by
    obtain ⟨q, hq, he, -, hp, hmark⟩ := mem_markCommitted hr
    rw [hc, eq_comm, Bool.or_eq_false_iff] at hmark
    rw [he, hp]
    exact h.pending q hq hmark.1
  ledger := h.ledger

theorem stagedIds_staged_sub {v : Store} {e t e' : Str} (h : e' ∈ stagedIds v.1) :
    e' ∈ stagedIds (staged v e t).1 := by
  simp only [staged, stagedIds] at *
  split
  · exact h
  · rw [List.map_append]
    exact List.mem_append_left _ h

/-- A row that is pending after an item was pending before it. -/
theorem pending_acknowledged {now : ClockText} {item : BatchWriteItem P} {t : Str} {r : StagingRow}
    (hr : r ∈ (acknowledged py v now item t).1.walStaging) (hc : r.committed = false) :
    r ∈ v.1.walStaging := by
  obtain ⟨q, hq, he, hid, hp, hmark⟩ := mem_markCommitted hr
  rw [hc, eq_comm, Bool.or_eq_false_iff, decide_eq_false_iff_not] at hmark
  have hrq : r = q := by
    obtain ⟨rid, re, rp, rc⟩ := r
    obtain ⟨qid, qe, qp, qc⟩ := q
    obtain ⟨hqc, -⟩ := hmark
    cases he
    cases hid
    cases hp
    cases hqc
    cases hc
    rfl
  rw [hrq]
  simp only [staged] at hq
  split at hq
  · exact hq
  · rcases List.mem_append.1 hq with hold | hnew
    · exact hold
    · exact (hmark.2 (congrArg StagingRow.eventId (List.mem_singleton.1 hnew))).elim

theorem GivenBy.fresh (h : GivenBy py first answers v) {now : ClockText} {item : BatchWriteItem P} {t : Str} :
    GivenBy py first (answers ++ [(item, ⟨item.eventId, item.idempotencyKey, true, false⟩)])
      (acknowledged py v now item t) where
  staging e p hp := by
    change e ∈ stagedIds (committed (staged (keyed v now item.idempotencyKey item.eventId) item.eventId t)
      item.eventId).1
    rw [stagedIds_mark]
    exact stagedIds_staged_sub (v := keyed v now _ _) (h.staging e p hp)
  pending r hr hc := h.pending r (pending_acknowledged hr hc) hc
  ledger r hr := by
    rw [acknowledged_ledger] at hr
    rcases List.mem_append.1 hr with hold | hnew
    · exact (h.more _).ledger r hold
    · rw [List.mem_singleton.1 hnew]
      exact .inl ⟨_, List.mem_append_right _ List.mem_cons_self, rfl, rfl⟩

theorem GivenBy.recovered (h : GivenBy py first answers v) {e t : Str} {p : P} (hp : first e = some p)
    (ht : payloadJson py p = .ok t) : GivenBy py first answers (appended py v e t) where
  staging := h.staging
  pending := h.pending
  ledger r hr := by
    rcases List.mem_append.1 hr with hold | hnew
    · exact h.ledger r hold
    · rw [List.mem_singleton.1 hnew]
      exact .inr ⟨p, hp, ht⟩

theorem GivenBy.stage (h : GivenBy py first answers v) {e t : Str} {p : P} (ht : payloadJson py p = .ok t) :
    GivenBy py (fun e' => (first e').or (if e = e' then some p else none)) answers (staged v e t) where
  staging e' q hq := by
    rcases Option.or_eq_some_iff.1 hq with hold | ⟨-, hnew⟩
    · exact stagedIds_staged_sub (h.staging e' q hold)
    · split at hnew
      · next heq => exact heq ▸ mem_stagedIds_staged
      · cases hnew
  pending r hr hc := by
    have hold : r ∈ v.1.walStaging → ∃ q, ((first r.eventId).or (if e = r.eventId then some p else none)) =
        some q ∧ payloadJson py q = .ok r.payload := fun hmem => by
      obtain ⟨q, hq, htext⟩ := h.pending r hmem hc
      exact ⟨q, by rw [hq, Option.some_or], htext⟩
    simp only [staged] at hr
    split at hr
    · exact hold hr
    · next hfresh =>
      rcases List.mem_append.1 hr with hmem | hnew
      · exact hold hmem
      · -- no row of the event, so it was not staged before
        obtain rfl := List.mem_singleton.1 hnew
        have hnone : first e = none := by
          by_contra hsome
          obtain ⟨q, hq⟩ := Option.ne_none_iff_exists'.1 hsome
          obtain ⟨r, hr, he⟩ := List.mem_map.1 (h.staging e q hq)
          exact hfresh (List.any_eq_true.2 ⟨r, hr, decide_eq_true he⟩)
        exact ⟨p, by rw [hnone, Option.none_or, if_pos rfl], ht⟩
  ledger r hr := by
    refine (h.ledger r hr).imp_right ?_
    rintro ⟨q, hq, htext⟩
    exact ⟨q, by rw [hq, Option.some_or], htext⟩

theorem GivenBy.congr {w : Store} (h : GivenBy py first answers v) (hledger : w.1.ledger = v.1.ledger)
    (hstaging : w.1.walStaging = v.1.walStaging) : GivenBy py first answers w where
  staging e p hp := by
    rw [stagedIds, hstaging]
    exact h.staging e p hp
  pending r hr := h.pending r (hstaging ▸ hr)
  ledger r hr := h.ledger r (hledger ▸ hr)

/-! ## Histories -/

/-- What json reads of a text that it wrote is written in the same way. -/
def Rewrites (py : PyLib P) : Prop :=
  ∀ p t, payloadJson py p = .ok t → ∃ q, py.loads t = .ok q ∧ payloadJson py q = .ok t

theorem givenBy_recover (hround : Rewrites py) {w : Store} {n : ℕ} (hv : GivenBy py first answers v)
    (h : (recoverBody py).eval exec v = .ok (n, w)) : GivenBy py first answers w := by
  have hend := recoverLoop_keeps (J := fun rows u _ => GivenBy py first answers u ∧
    ∀ row ∈ rows, ∃ p, first row.1 = some p ∧ payloadJson py p = .ok row.2) ?known ?fresh ⟨hv, ?_⟩
    (recoverBody_cases h)
  case known => exact fun e _ rows u _ hJ _ => ⟨hJ.1.mark e, fun row hrow => hJ.2 row (List.mem_cons_of_mem _ hrow)⟩
  case fresh =>
    intro e t rows u count payload t' hJ hl hp _ _
    obtain ⟨p, hfirst, htext⟩ := hJ.2 _ List.mem_cons_self
    obtain ⟨q, hq, hqt⟩ := hround p t htext
    obtain rfl : q = payload := Except.ok.inj (hq.symm.trans hl)
    obtain rfl : t = t' := Except.ok.inj (hqt.symm.trans hp)
    exact ⟨(hJ.1.recovered hfirst htext).mark e, fun row hrow => hJ.2 row (List.mem_cons_of_mem _ hrow)⟩
  · exact hend.1
  · intro row hrow
    obtain ⟨r, hr, hc, rfl⟩ := mem_staged_pending.1 hrow
    exact hv.pending r hr hc

theorem givenBy_acknowledge {now : ClockText} {items : List (BatchWriteItem P)} {w : Store}
    {rs : List AcknowledgedWrite} (hv : GivenBy py first answers v)
    (h : (acknowledgeBody py now items).eval exec v = .ok (rs, w)) :
    GivenBy py first (answers ++ items.zip rs) w := by
  have hend := acknowledgeLoop_keeps
    (J := fun past u _ rs => rs.length = past.length ∧ GivenBy py first (answers ++ past.zip rs) u)
    ?known ?fresh [] ⟨rfl, by simpa using hv⟩ (acknowledgeBody_cases h)
  case known =>
    intro past item u existing results e hJ _
    refine ⟨by simp [hJ.1], ?_⟩
    rw [List.zip_append hJ.1.symm, ← List.append_assoc]
    exact hJ.2.more _
  case fresh =>
    intro past item u existing results t hJ _ _ _
    refine ⟨by simp [hJ.1], ?_⟩
    rw [List.zip_append hJ.1.symm, ← List.append_assoc]
    exact hJ.2.fresh
  obtain ⟨_, -, hw⟩ := hend
  exact hw

/-- A call that stages nothing. -/
theorem givenBy_step (hround : Rewrites py) {b b' : Backend} {c : Call P} {o : Outcome}
    (hb : GivenBy py first answers b.session.view) (h : JournalStep py b c o b')
    (hno : ∀ e, stagedBy e (c, o) = none) :
    GivenBy py first (answers ++ answered [(c, o)]) b'.session.view := by
  cases h with
  | raised e settled same =>
    obtain ⟨-, hl, hs, -⟩ := journal_ext.1 same
    simpa [answered] using hb.congr hl hs
  | other noItems settled same =>
    obtain ⟨-, hl, hs, -⟩ := journal_ext.1 same
    simpa [answered] using hb.congr hl hs
  | skipped seq id =>
    have hskip : GivenBy py first answers (b.skipNumbers seq id).session.view := hb.congr rfl rfl
    simpa [answered] using hskip
  | emptyBatch now => simpa [answered] using hb
  | @stage eventId _ _ _ text eval => exact absurd (hno eventId) (by simp [stagedBy])
  | @acknowledge c now rs w ack eval => simpa [answered] using givenBy_acknowledge hb eval
  | recover eval => simpa [answered] using givenBy_recover hround hb eval

theorem stagePartial_cases (py : PyLib P) (fs : List Bool) (e : Str) (p : P) (b : Backend) :
    (∃ err, ((Call.stagePartial e p).perform py fs b).1 = .raised err) ∨
    ∃ t w, payloadJson py p = .ok t ∧ (stageBody e t).eval exec b.session.view = .ok ((), w) ∧
      (Call.stagePartial e p).perform py fs b = (.done, { b with session := ⟨w, w⟩ }) := by
  simp only [Call.perform, Backend.stagePartial]
  cases hp : payloadJson py p with
  | error err => exact .inl ⟨err, rfl⟩
  | ok t =>
    rcases guarded_cases fs (stageBody e t) b with ⟨err, h⟩ | ⟨u, w, heval, h⟩
    · exact .inl ⟨err, by simp only [h]; rfl⟩
    · exact .inr ⟨t, w, rfl, heval, by simp only [h]; rfl⟩

theorem Run.givenBy (hround : Rewrites py) {log : List (Call P × Outcome)} {b : Backend} (h : Run py log b) :
    GivenBy py (fun e => firstStaged e log) (answered log) b.session.view := by
  induction h with
  | nil => exact ⟨(fun _ _ h => nomatch h), (fun _ h => nomatch h), fun _ h => nomatch h⟩
  | @snoc log b c fs hrun ih =>
    have hstep : JournalStep py b c (c.perform py fs b).1 (c.perform py fs b).2 :=
      perform_cases c fs hrun.settled
    rw [answered_snoc]
    simp only [firstStaged_snoc]
    by_cases hno : ∀ e, stagedBy e (c, (c.perform py fs b).1) = none
    · simp only [hno, Option.or_none]
      exact givenBy_step hround ih hstep hno
    · cases c with
      | stagePartial eventId payload =>
        rcases stagePartial_cases py fs eventId payload b with ⟨err, h⟩ | ⟨t, w, ht, heval, h⟩
        · exact (hno fun e => by rw [h]; rfl).elim
        · rw [h]
          obtain ⟨-, -, rfl⟩ := stageBody_ok heval
          simpa [answered, stagedBy] using ih.stage ht
      | _ => exact (hno fun e => rfl).elim

end Steps

end Given

/-! ## The entries -/

section Entries
variable {reprFloat : Str → FloatText} {sha256 : Str → Digest} {hfloat : ReprStable reprFloat}
  {limit : VariableLimit}

theorem rewrites_payloads : Rewrites (PyLib.payloads sha256 hfloat limit) := by
  intro p t ht
  obtain rfl : p.value.dumps true = t := Except.ok.inj ht
  exact ⟨p.sorted, readPayload_dumps hfloat p, congrArg Except.ok (sorted_dumps p)⟩

theorem written_eq_some {P : Type} {e : Str} {log : List (Call P × Outcome)} {p : P} (h : written e log = some p) :
    ∃ a ∈ answered log, a.2.duplicate = false ∧ a.2.eventId = e ∧ a.1.payload = p := by
  obtain ⟨a, ha, hp⟩ := Option.map_eq_some_iff.1 h
  have hmem := List.mem_of_find?_eq_some ha
  have hprop := List.find?_some ha
  simp only [Bool.and_eq_true, Bool.not_eq_true', decide_eq_true_eq] at hprop
  exact ⟨a, hmem, hprop.1, hprop.2, hp⟩

theorem written_eq_none {P : Type} {e : Str} {log : List (Call P × Outcome)} (h : written e log = none) :
    ∀ a ∈ answered log, a.2.duplicate = false → a.2.eventId ≠ e := by
  intro a ha hdup he
  have hno := List.find?_eq_none.1 (Option.map_eq_none_iff.1 h) a ha
  simp [hdup, he] at hno

/-- The rows of the ledger, once nothing is pending. -/
theorem given_row {log : List (Call (Payload reprFloat) × Outcome)} {b : Backend}
    (h : Run (PyLib.payloads sha256 hfloat limit) log b) {r : LedgerRow} (hr : r ∈ b.db.ledger) :
    ∃ p, given r.eventId log = some p ∧ r.payload = p.value.dumps true := by
  cases hw : written r.eventId log with
  | some p =>
    obtain ⟨a, ha, hdup, he, rfl⟩ := written_eq_some hw
    obtain ⟨row, hrow, hre, htext⟩ := h.tally.1.stored a ha hdup
    have heq : row = r := List.inj_on_of_nodup_map h.journalInv.ledgered hrow hr (hre.trans he)
    exact ⟨a.1.payload, by rw [given, hw, Option.some_or], by rw [← heq]; exact (Except.ok.inj htext).symm⟩
  | none =>
    rcases (h.givenBy rewrites_payloads).ledger r hr with ⟨a, ha, hdup, he⟩ | ⟨p, hp, htext⟩
    · exact (written_eq_none hw a ha hdup he).elim
    · exact ⟨p, by rw [given, hw, Option.none_or, hp], (Except.ok.inj htext).symm⟩

theorem given_ledgered {log : List (Call (Payload reprFloat) × Outcome)} {b : Backend}
    (h : Run (PyLib.payloads sha256 hfloat limit) log b)
    (hcommitted : ∀ r ∈ b.db.walStaging, r.committed = true) {e : Str} {p : Payload reprFloat}
    (hp : given e log = some p) : e ∈ ledgerIds b.db := by
  rcases Option.or_eq_some_iff.1 hp with hw | ⟨-, hfirst⟩
  · obtain ⟨a, ha, hdup, he, -⟩ := written_eq_some hw
    obtain ⟨row, hrow, hre, -⟩ := h.tally.1.stored a ha hdup
    exact List.mem_map.2 ⟨row, hrow, hre.trans he⟩
  · obtain ⟨r, hr, he⟩ := List.mem_map.1 ((h.givenBy rewrites_payloads).staging e p hfirst)
    exact (h.journalInv.committed e).2 (mem_committedIds.2 ⟨r, hr, he, hcommitted r hr⟩)

theorem given_recover {P : Type} (e : Str) (log : List (Call P × Outcome)) (n : ℕ) :
    given e (log ++ [(.recoverUncommitted, .recovered n)]) = given e log := by
  have hanswered : answered (log ++ [(.recoverUncommitted, .recovered n)]) = answered log := by
    rw [answered_snoc]
    exact List.append_nil _
  rw [given, given, written, written, hanswered, firstStaged_snoc, stagedBy, Option.or_none]
  exact fun _ _ heq => nomatch heq

/-- **The ledger gives back what it was given.** After any history (calls with any arguments and failures,
reopenings, recoveries), a recovery returns, and `all_ledger_entries` then has exactly one entry for each
event that an acknowledged item or a returned `stage_partial` gave a payload, with this payload: the one
that was acknowledged, else the first one staged. -/
theorem ledger_reads_back {log : List (Call (Payload reprFloat) × Outcome)} {b : Backend}
    (h : Run (PyLib.payloads sha256 hfloat limit) log b) :
    ∃ n b' entries, b.recoverUncommitted (PyLib.payloads sha256 hfloat limit) [] = (.ok n, b') ∧
      b'.allLedgerEntries (PyLib.payloads sha256 hfloat limit) = .ok entries ∧
      (entries.map LedgerEntry.eventId).Nodup ∧
      (∀ e, (∃ x ∈ entries, x.eventId = e) ↔ (given e log).isSome = true) ∧
      ∀ x ∈ entries, ∃ p, given x.eventId log = some p ∧ x.payload = p.sorted ∧
        x.payload.value.Same p.value := by
  have hrows : ∀ row ∈ pending b.db.walStaging, Recoverable (PyLib.payloads sha256 hfloat limit) row := by
    intro row hrow
    obtain ⟨r, hr, -, rfl⟩ := mem_staged_pending.1 hrow
    obtain ⟨he, htext, p, -, hp⟩ := h.stagedOf r hr
    exact ⟨he, htext, rewrites_payloads p _ hp⟩
  obtain ⟨w, hrec, -, hframe, -⟩ := recoverUncommitted_rows h hrows
  have hrun : Run (PyLib.payloads sha256 hfloat limit)
      (log ++ [(.recoverUncommitted, .recovered (pending b.db.walStaging).length)])
      { b with session := ⟨w, w⟩ } := by
    have hsnoc := h.snoc .recoverUncommitted []
    rwa [Call.perform, hrec] at hsnoc
  have hcommitted : ∀ r ∈ w.1.walStaging, r.committed = true := by
    intro r hr
    rw [hframe] at hr
    obtain ⟨q, -, rfl⟩ := List.mem_map.1 hr
    rfl
  have hread : ∀ r ∈ w.1.ledger, ∃ x, Backend.readEntry (PyLib.payloads sha256 hfloat limit) r = .ok x := by
    intro r hr
    obtain ⟨p, -, htext⟩ := given_row hrun hr
    exact ⟨_, by rw [Backend.readEntry, htext]; exact congrArg (· >>= _) (readPayload_dumps hfloat p)⟩
  have hperm : (orderBySeq w.1.ledger).Perm w.1.ledger := List.perm_insertionSort _ _
  obtain ⟨entries, hentries, hids, -⟩ := mapM_ok (g := LedgerEntry.eventId) (k := LedgerRow.eventId)
    (fun _ _ hx => (readEntry_ok hx).1) (orderBySeq w.1.ledger) fun r hr => hread r (hperm.subset hr)
  have hnodup : (entries.map LedgerEntry.eventId).Nodup := by
    rw [hids, (hperm.map _).nodup_iff]
    exact hrun.journalInv.ledgered
  refine ⟨_, _, entries, hrec, hentries, hnodup, fun e => ?_, fun x hx => ?_⟩
  · have hmem : (∃ x ∈ entries, x.eventId = e) ↔ e ∈ ledgerIds w.1 := by
      rw [← List.mem_map, hids, (hperm.map _).mem_iff]
      rfl
    rw [hmem, ← given_recover]
    constructor
    · intro he
      obtain ⟨r, hr, rfl⟩ := List.mem_map.1 he
      obtain ⟨p, hp, -⟩ := given_row hrun hr
      rw [hp]
      rfl
    · intro hsome
      obtain ⟨p, hp⟩ := Option.isSome_iff_exists.1 hsome
      exact given_ledgered hrun hcommitted hp
  · obtain ⟨r, hr, hx⟩ := mem_of_mapM hentries hx
    obtain ⟨he, hpayload⟩ := readEntry_ok hx
    obtain ⟨p, hp, htext⟩ := given_row hrun (hperm.subset hr)
    have hsorted : x.payload = p.sorted := by
      rw [htext] at hpayload
      exact Except.ok.inj (hpayload.symm.trans (readPayload_dumps hfloat p))
    refine ⟨p, ?_, hsorted, hsorted ▸ p.sorted_same⟩
    rw [he, ← given_recover]
    exact hp

end Entries

/-- Every float is 1.5. -/
def readsFloat (_ : Str) : FloatText := ⟨lit "1.5", by decide⟩

theorem reprStable_readsFloat : ReprStable readsFloat :=
  fun _ => .inr ⟨⟨[], lit "1", lit ".5", []⟩, rfl, rfl⟩

def floatPayload : Payload readsFloat where
  value := .obj [(lit "b", .float (readsFloat [])), (lit "a", .str (lit "\"é"))]
  distinct := ⟨by simp [lit], trivial, trivial, trivial⟩
  readable := ⟨⟨by unfold Unpaired; decide, reprStable_readsFloat []⟩,
    ⟨by unfold Unpaired; decide, (by unfold Unpaired; decide : Unpaired (lit "\"é"))⟩, trivial⟩

def emptyPayload : Payload readsFloat := ⟨.obj [], ⟨.nil, trivial⟩, trivial⟩

def stagedFloat : List (Call (Payload readsFloat) × Outcome) × Backend :=
  history (.payloads PyLib.fixed.sha256 reprStable_readsFloat .sqlite) [] .empty
    [(.stagePartial (lit "e") floatPayload, []), (.stagePartial (lit "e") emptyPayload, []),
      (.stagePartial (lit "g") emptyPayload, [true]), (.acknowledgeWrite .fixed ⟨lit "k", lit "f", emptyPayload⟩, []),
      (.reopen, [])]

theorem ledger_reads_back_staged :
    ∃ n b' entries, stagedFloat.2.recoverUncommitted (.payloads PyLib.fixed.sha256 reprStable_readsFloat .sqlite) [] =
        (.ok n, b') ∧
      b'.allLedgerEntries (.payloads PyLib.fixed.sha256 reprStable_readsFloat .sqlite) = .ok entries ∧
      (∃ x ∈ entries, x.eventId = lit "e" ∧ x.payload = floatPayload.sorted) ∧
      ¬ ∃ x ∈ entries, x.eventId = lit "g" := by
  have hrun : Run (.payloads PyLib.fixed.sha256 reprStable_readsFloat .sqlite) stagedFloat.1 stagedFloat.2 :=
    Run.nil.history _
  have hgiven : given (lit "e") stagedFloat.1 = some floatPayload := rfl
  have hnone : given (lit "g") stagedFloat.1 = none := rfl
  obtain ⟨n, b', entries, hrec, hentries, -, hids, hpayloads⟩ := ledger_reads_back hrun
  refine ⟨n, b', entries, hrec, hentries, ?_, fun h => ?_⟩
  · obtain ⟨x, hx, he⟩ := (hids (lit "e")).2 (by rw [hgiven]; rfl)
    obtain ⟨p, hp, hsorted, -⟩ := hpayloads x hx
    rw [he, hgiven] at hp
    cases hp
    exact ⟨x, hx, he, hsorted⟩
  · have hsome := (hids (lit "g")).1 h
    rw [hnone] at hsome
    cases hsome

end LineageVault
