import LineageVault.Storage.Consistency

/-! # Each key is acknowledged once

`answered log` pairs the items of the calls that returned with their results. `Tally` ties it to the
tables: the idempotency table is the list of the results that are no duplicates, their payloads are
in the ledger, and the ledger has one row for each of them and for each recovered event.
-/

namespace LineageVault
open Foundations
set_option autoImplicit false

variable {P : Type} {py : PyLib P}

def answered (log : List (Call P × Outcome)) : List (BatchWriteItem P × AcknowledgedWrite) :=
  log.flatMap fun entry =>
    match entry.2 with
    | .acks results => entry.1.items.zip results
    | _ => []

def results {C : Type} (log : List (C × Outcome)) : List AcknowledgedWrite :=
  log.flatMap fun entry =>
    match entry.2 with
    | .acks results => results
    | _ => []

/-- The sum of what the recoveries returned. -/
def recoveredCount : List (Call P × Outcome) → ℕ
  | [] => 0
  | (_, .recovered n) :: log => n + recoveredCount log
  | _ :: log => recoveredCount log

def originals (rs : List AcknowledgedWrite) : List AcknowledgedWrite :=
  rs.filter fun r => !r.duplicate

/-! ## Results in order -/

/-- A result is original if its key is new, and otherwise a duplicate of an original one. -/
inductive OncePerKey : List AcknowledgedWrite → Prop where
  | nil : OncePerKey []
  | original {rs : List AcknowledgedWrite} {r : AcknowledgedWrite} : OncePerKey rs →
      (∀ q ∈ rs, q.idempotencyKey ≠ r.idempotencyKey) → r.duplicate = false →
      OncePerKey (rs ++ [r])
  | repeated {rs : List AcknowledgedWrite} {q r : AcknowledgedWrite} : OncePerKey rs →
      q ∈ originals rs → q.idempotencyKey = r.idempotencyKey → q.eventId = r.eventId →
      r.duplicate = true → OncePerKey (rs ++ [r])

theorem originals_append (rs rs' : List AcknowledgedWrite) :
    originals (rs ++ rs') = originals rs ++ originals rs' := List.filter_append ..

theorem mem_originals {rs : List AcknowledgedWrite} {r : AcknowledgedWrite} :
    r ∈ originals rs ↔ r ∈ rs ∧ r.duplicate = false := by
  simp [originals]

theorem OncePerKey.known {rs : List AcknowledgedWrite} (h : OncePerKey rs) {r : AcknowledgedWrite}
    (hr : r ∈ rs) : ∃ q ∈ originals rs, q.idempotencyKey = r.idempotencyKey ∧ q.eventId = r.eventId := by
  induction h with
  | nil => cases hr
  | original _ _ hd ih =>
    rw [originals_append]
    rcases List.mem_append.1 hr with hr | hr
    · obtain ⟨q, hq, he⟩ := ih hr
      exact ⟨q, List.mem_append_left _ hq, he⟩
    · obtain rfl := List.mem_singleton.1 hr
      exact ⟨r, List.mem_append_right _ (mem_originals.2 ⟨hr, hd⟩), rfl, rfl⟩
  | repeated _ hq hk he _ ih =>
    rw [originals_append]
    rcases List.mem_append.1 hr with hr | hr
    · obtain ⟨q, hq, he⟩ := ih hr
      exact ⟨q, List.mem_append_left _ hq, he⟩
    · obtain rfl := List.mem_singleton.1 hr
      exact ⟨_, List.mem_append_left _ hq, hk, he⟩

theorem OncePerKey.nodup {rs : List AcknowledgedWrite} (h : OncePerKey rs) :
    ((originals rs).map AcknowledgedWrite.idempotencyKey).Nodup := by
  induction h with
  | nil => exact .nil
  | @original rs r _ hnew hd ih =>
    have hr : originals [r] = [r] := by simp [originals, hd]
    rw [originals_append, hr, List.map_append, List.map_singleton]
    refine List.nodup_append.2 ⟨ih, List.nodup_singleton _, ?_⟩
    intro k hk k' hk' hkk
    obtain ⟨q, hq, rfl⟩ := List.mem_map.1 hk
    exact hnew q (mem_originals.1 hq).1 (hkk.trans (List.mem_singleton.1 hk'))
  | @repeated rs q r _ _ _ _ hd ih =>
    have hr : originals [r] = [] := by simp [originals, hd]
    rwa [originals_append, hr, List.append_nil]

/-- The results for one key: an original one, then its duplicates. -/
theorem OncePerKey.forKey {rs : List AcknowledgedWrite} (h : OncePerKey rs) {k : Str}
    {first : AcknowledgedWrite} {rest : List AcknowledgedWrite}
    (hf : rs.filter (fun r => r.idempotencyKey = k) = first :: rest) :
    first.duplicate = false ∧ ∀ r ∈ rest, r.duplicate = true ∧ r.eventId = first.eventId := by
  induction h generalizing rest with
  | nil => cases hf
  | @original rs r _ hnew hd ih =>
    rw [List.filter_append] at hf
    by_cases hk : r.idempotencyKey = k
    · have hnil : rs.filter (fun q => q.idempotencyKey = k) = [] := by
        simpa [List.filter_eq_nil_iff, ← hk] using hnew
      rw [hnil, List.filter_cons_of_pos (by simpa using hk)] at hf
      cases hf
      exact ⟨hd, by simp⟩
    · rw [List.filter_cons_of_neg (by simpa using hk), List.filter_nil, List.append_nil] at hf
      exact ih hf
  | @repeated rs q r hrs hq hqk he hd ih =>
    rw [List.filter_append] at hf
    by_cases hk : r.idempotencyKey = k
    · have hmem : q ∈ rs.filter fun p => p.idempotencyKey = k := by
        simpa [hqk, hk] using (mem_originals.1 hq).1
      rw [List.filter_cons_of_pos (by simpa using hk), List.filter_nil] at hf
      cases hold : rs.filter fun p => p.idempotencyKey = k with
      | nil => rw [hold] at hmem; cases hmem
      | cons f old =>
        rw [hold] at hf hmem
        cases hf
        obtain ⟨hff, hall⟩ := ih hold
        refine ⟨hff, fun p hp => ?_⟩
        rcases List.mem_append.1 hp with hp | hp
        · exact hall p hp
        · obtain rfl := List.mem_singleton.1 hp
          refine ⟨hd, he.symm.trans ?_⟩
          rcases List.mem_cons.1 hmem with rfl | hmem
          · rfl
          · exact (hall q hmem).2
    · rw [List.filter_cons_of_neg (by simpa using hk), List.filter_nil, List.append_nil] at hf
      exact ih hf

/-! ## Results and tables -/

structure Tally (py : PyLib P) (answers : List (BatchWriteItem P × AcknowledgedWrite))
    (recovered : ℕ) (v : Store) : Prop where
  keyed : ∀ a ∈ answers, a.2.idempotencyKey = a.1.idempotencyKey
  order : OncePerKey (answers.map Prod.snd)
  table : v.1.idempotency.map (fun q => (q.idempotencyKey, q.eventId)) =
    (originals (answers.map Prod.snd)).map fun r => (r.idempotencyKey, r.eventId)
  stored : ∀ a ∈ answers, a.2.duplicate = false →
    ∃ row ∈ v.1.ledger, row.eventId = a.2.eventId ∧ payloadJson py a.1.payload = .ok row.payload
  written : ∀ row ∈ v.1.ledger, ∃ payload, payloadJson py payload = .ok row.payload
  total : v.1.ledger.length = (originals (answers.map Prod.snd)).length + recovered

variable {answers : List (BatchWriteItem P × AcknowledgedWrite)} {recovered : ℕ} {v : Store}

theorem tally_empty : Tally py [] 0 (Db.empty, Numbers.zero) where
  keyed := by simp
  order := .nil
  table := rfl
  stored := by simp
  written := by simp [Db.empty]
  total := rfl

/-- A row of the table is an original result. -/
theorem Tally.original (h : Tally py answers recovered v) {q : IdempotencyRow}
    (hq : q ∈ v.1.idempotency) : ∃ r ∈ originals (answers.map Prod.snd),
      r.idempotencyKey = q.idempotencyKey ∧ r.eventId = q.eventId := by
  have hmem : (q.idempotencyKey, q.eventId) ∈
      v.1.idempotency.map fun q => (q.idempotencyKey, q.eventId) := List.mem_map.2 ⟨q, hq, rfl⟩
  rw [h.table] at hmem
  obtain ⟨r, hr, he⟩ := List.mem_map.1 hmem
  exact ⟨r, hr, congrArg Prod.fst he, congrArg Prod.snd he⟩

/-- Every key that was answered is in the table. -/
theorem Tally.known (h : Tally py answers recovered v) {r : AcknowledgedWrite}
    (hr : r ∈ answers.map Prod.snd) : ∃ q ∈ v.1.idempotency, q.idempotencyKey = r.idempotencyKey := by
  obtain ⟨o, ho, hk, -⟩ := h.order.known hr
  have hmem := List.mem_map_of_mem (f := fun r => (r.idempotencyKey, r.eventId)) ho
  rw [← h.table] at hmem
  obtain ⟨q, hq, he⟩ := List.mem_map.1 hmem
  exact ⟨q, hq, (congrArg Prod.fst he).trans hk⟩

theorem Tally.repeat (h : Tally py answers recovered v) {item : BatchWriteItem P} {e : Str}
    (hq : ∃ q ∈ v.1.idempotency, q.idempotencyKey = item.idempotencyKey ∧ q.eventId = e) :
    Tally py (answers ++ [(item, ⟨e, item.idempotencyKey, true, true⟩)]) recovered v := by
  obtain ⟨q, hq, hk, he⟩ := hq
  obtain ⟨o, ho, hok, hoe⟩ := h.original hq
  refine ⟨?_, ?_, ?_, ?_, h.written, ?_⟩
  · simpa [or_imp, forall_and] using h.keyed
  · rw [List.map_append]
    exact .repeated h.order ho (hok.trans hk) (hoe.trans he) rfl
  · rw [h.table]
    simp [originals]
  · intro a ha hd
    rcases List.mem_append.1 ha with ha | ha
    · exact h.stored a ha hd
    · cases List.mem_singleton.1 ha
      cases hd
  · rw [h.total]
    simp [originals]

theorem Tally.fresh (h : Tally py answers recovered v) {now : ClockText} {item : BatchWriteItem P}
    {t : Str} (hkey : ∀ q ∈ v.1.idempotency, q.idempotencyKey ≠ item.idempotencyKey)
    (ht : payloadJson py item.payload = .ok t) :
    Tally py (answers ++ [(item, ⟨item.eventId, item.idempotencyKey, true, false⟩)]) recovered
      (acknowledged py v now item t) where
  keyed := by simpa [or_imp, forall_and] using h.keyed
  order := by
    rw [List.map_append]
    refine .original h.order (fun r hr => ?_) rfl
    obtain ⟨q, hq, hk⟩ := h.known hr
    rw [← hk]
    exact hkey q hq
  table := by
    have ht := h.table
    simp only [acknowledged_idempotency, List.map_append, originals_append, ht]
    rfl
  stored := by
    intro a ha hd
    have hold : ∀ row ∈ v.1.ledger, row ∈ (acknowledged py v now item t).1.ledger :=
      fun row hrow => List.mem_append_left _ hrow
    rcases List.mem_append.1 ha with ha | ha
    · obtain ⟨row, hrow, he⟩ := h.stored a ha hd
      exact ⟨row, hold row hrow, he⟩
    · obtain rfl := List.mem_singleton.1 ha
      exact ⟨_, List.mem_append_right _ (List.mem_singleton_self _), rfl, ht⟩
  written := by
    intro row hrow
    rcases List.mem_append.1 hrow with hrow | hrow
    · exact h.written row hrow
    · obtain rfl := List.mem_singleton.1 hrow
      exact ⟨item.payload, ht⟩
  total := by
    have hone : (originals
        ([(item, ⟨item.eventId, item.idempotencyKey, true, false⟩)].map Prod.snd)).length = 1 := rfl
    rw [acknowledged_ledger, List.length_append, List.length_singleton, List.map_append,
      originals_append, List.length_append, hone, h.total]
    omega

/-! ## Programs -/

theorem tally_acknowledge {now : ClockText} {items : List (BatchWriteItem P)} {w : Store}
    {rs : List AcknowledgedWrite} (hv : Tally py answers recovered v)
    (h : (acknowledgeBody py now items).eval exec v = .ok (rs, w)) :
    rs.length = items.length ∧ Tally py (answers ++ items.zip rs) recovered w := by
  have hsnoc : ∀ {past : List (BatchWriteItem P)} {rs : List AcknowledgedWrite}
      (item : BatchWriteItem P) (r : AcknowledgedWrite), rs.length = past.length →
      answers ++ (past ++ [item]).zip (rs ++ [r]) = (answers ++ past.zip rs) ++ [(item, r)] := by
    intro past rs item r hlen
    rw [List.zip_append hlen.symm, ← List.append_assoc]
    rfl
  have hend := acknowledgeLoop_keeps
    (J := fun past u existing rs => rs.length = past.length ∧
      Tally py (answers ++ past.zip rs) recovered u ∧
      ∀ k e, existing.lookup k = some e →
        ∃ q ∈ u.1.idempotency, q.idempotencyKey = k ∧ q.eventId = e)
    ?known ?fresh [] ?start (acknowledgeBody_cases h)
  case known =>
    intro past item u existing rs e hJ hl
    obtain ⟨hlen, ht, hex⟩ := hJ
    refine ⟨by simp [hlen], ?_, hex⟩
    rw [hsnoc item _ hlen]
    exact ht.repeat (hex _ _ hl)
  case fresh =>
    intro past item u existing rs t hJ hl hp ha
    obtain ⟨hlen, ht, hex⟩ := hJ
    refine ⟨by simp [hlen], ?_, ?_⟩
    · rw [hsnoc item _ hlen]
      exact ht.fresh (fun q hq => (ha.unkeyed q hq).1) hp
    · intro k e hk
      rw [List.lookup_cons] at hk
      split at hk
      · next hkk =>
        cases hk
        refine ⟨_, List.mem_append_right _ (List.mem_singleton_self _), ?_, rfl⟩
        exact (beq_iff_eq.1 hkk).symm
      · obtain ⟨q, hq, he⟩ := hex k e hk
        exact ⟨q, List.mem_append_left _ hq, he⟩
  case start =>
    refine ⟨rfl, by simpa using hv, ?_⟩
    intro k e hk
    obtain ⟨l₁, l₂, hl, -⟩ := List.lookup_eq_some_iff.1 hk
    have hmem : (k, e) ∈ l₁ ++ (k, e) :: l₂ := by simp
    rw [← hl] at hmem
    simp only [List.mem_map, List.mem_filter, Prod.mk.injEq] at hmem
    obtain ⟨q, hq, he⟩ := hmem
    exact ⟨q, hq.1, he⟩
  obtain ⟨_, hlen, ht, -⟩ := hend
  exact ⟨hlen, ht⟩

theorem tally_recover {w : Store} {n : ℕ} (hv : Tally py answers recovered v)
    (h : (recoverBody py).eval exec v = .ok (n, w)) : Tally py answers (recovered + n) w := by
  have hend := recoverLoop_keeps (J := fun _ u count => Tally py answers (recovered + count) u)
    ?known ?fresh (by simpa using hv) (recoverBody_cases h)
  case known =>
    intro e _ rows u count hJ _
    exact ⟨hJ.keyed, hJ.order, hJ.table, hJ.stored, hJ.written, hJ.total⟩
  case fresh =>
    intro e _ rows u count payload t hJ _ hp _ _
    refine ⟨hJ.keyed, hJ.order, hJ.table, ?_, ?_, ?_⟩
    · intro a ha hd
      obtain ⟨row, hrow, he⟩ := hJ.stored a ha hd
      exact ⟨row, List.mem_append_left _ hrow, he⟩
    · intro row hrow
      rcases List.mem_append.1 hrow with hrow | hrow
      · exact hJ.written row hrow
      · obtain rfl := List.mem_singleton.1 hrow
        exact ⟨payload, hp⟩
    · have htotal := hJ.total
      simp only [committed, appended, List.length_append, List.length_singleton, htotal]
      omega
  exact hend

/-! ## Histories -/

theorem answered_snoc (log : List (Call P × Outcome)) (c : Call P) (o : Outcome) :
    answered (log ++ [(c, o)]) = answered log ++ answered [(c, o)] := List.flatMap_append ..

theorem results_append {C : Type} (log log' : List (C × Outcome)) :
    results (log ++ log') = results log ++ results log' := List.flatMap_append ..

theorem recoveredCount_snoc (log : List (Call P × Outcome)) (c : Call P) (o : Outcome) :
    recoveredCount (log ++ [(c, o)]) = recoveredCount log + recoveredCount [(c, o)] := by
  induction log with
  | nil => rw [List.nil_append, recoveredCount, Nat.zero_add]
  | cons entry log ih =>
    obtain ⟨c', o'⟩ := entry
    cases o' with
    | recovered n => rw [List.cons_append, recoveredCount, recoveredCount, ih, Nat.add_assoc]
    | _ => exact ih

theorem Tally.congr {w : Store} (h : Tally py answers recovered v)
    (hi : w.1.idempotency = v.1.idempotency) (hl : w.1.ledger = v.1.ledger) :
    Tally py answers recovered w :=
  ⟨h.keyed, h.order, hi ▸ h.table, hl ▸ h.stored, hl ▸ h.written, hl ▸ h.total⟩

/-- One more call. Its results belong to its items in order. -/
theorem tally_step {b b' : Backend} {c : Call P} {o : Outcome}
    (hb : Tally py answers recovered b.session.view) (h : JournalStep py b c o b') :
    Tally py (answers ++ answered [(c, o)]) (recovered + recoveredCount [(c, o)]) b'.session.view ∧
      (answered [(c, o)]).map Prod.snd = results [(c, o)] := by
  have hquiet : ∀ {c : Call P} {o : Outcome} {w : Store}, answered [(c, o)] = [] →
      recoveredCount [(c, o)] = 0 → w.1.idempotency = b.session.view.1.idempotency →
      w.1.ledger = b.session.view.1.ledger →
      Tally py (answers ++ answered [(c, o)]) (recovered + recoveredCount [(c, o)]) w := by
    intro c o w ha hr hi hl
    rw [ha, hr, List.append_nil]
    exact hb.congr hi hl
  cases h with
  | raised e settled same =>
    obtain ⟨hi, hl, -, -⟩ := journal_ext.1 same
    exact ⟨hquiet rfl rfl hi hl, rfl⟩
  | other noItems settled same =>
    obtain ⟨hi, hl, -, -⟩ := journal_ext.1 same
    exact ⟨hquiet rfl rfl hi hl, rfl⟩
  | skipped seq id => exact ⟨hquiet rfl rfl rfl rfl, rfl⟩
  | emptyBatch now => exact ⟨hquiet rfl rfl rfl rfl, rfl⟩
  | stage text eval =>
    obtain ⟨-, -, rfl⟩ := stageBody_ok eval
    exact ⟨hquiet rfl rfl rfl rfl, rfl⟩
  | @acknowledge c now rs w ack eval =>
    obtain ⟨hlen, ht⟩ := tally_acknowledge hb eval
    refine ⟨by simpa [answered, recoveredCount] using ht, ?_⟩
    simpa [answered, results] using List.map_snd_zip hlen.le
  | recover eval =>
    exact ⟨by simpa [answered, recoveredCount] using tally_recover hb eval, rfl⟩

theorem Run.tally {log : List (Call P × Outcome)} {b : Backend} (h : Run py log b) :
    Tally py (answered log) (recoveredCount log) b.session.view ∧
      (answered log).map Prod.snd = results log := by
  induction h with
  | nil => exact ⟨tally_empty, rfl⟩
  | snoc c fs hrun ih =>
    obtain ⟨ht, hr⟩ := tally_step ih.1 (perform_cases c fs hrun.settled)
    rw [answered_snoc, recoveredCount_snoc, results_append, List.map_append, ih.2, hr]
    exact ⟨ht, rfl⟩

/-! ## Reading the ledger back -/

/-- What `mapM` collects when every element succeeds. -/
theorem mapM_ok {α β γ ε : Type} {f : α → Except ε β} {g : β → γ} {k : α → γ}
    (hg : ∀ x y, f x = .ok y → g y = k x) (xs : List α) (h : ∀ x ∈ xs, ∃ y, f x = .ok y) :
    ∃ ys, xs.mapM f = .ok ys ∧ ys.map g = xs.map k ∧ ∀ x ∈ xs, ∃ y ∈ ys, f x = .ok y := by
  induction xs with
  | nil => exact ⟨[], rfl, rfl, by simp⟩
  | cons x xs ih =>
    obtain ⟨y, hy⟩ := h x (by simp)
    obtain ⟨ys, hys, hmap, hmem⟩ := ih fun z hz => h z (by simp [hz])
    refine ⟨y :: ys, by rw [List.mapM_cons, hy, hys]; rfl, ?_, fun z hz => ?_⟩
    · rw [List.map_cons, List.map_cons, hmap, hg x y hy]
    · rcases List.mem_cons.1 hz with rfl | hz
      · exact ⟨y, by simp, hy⟩
      · obtain ⟨w, hw, hf⟩ := hmem z hz
        exact ⟨w, by simp [hw], hf⟩

theorem filter_eq_singleton {α : Type} {f : α → Str} {xs : List α} (h : (xs.map f).Nodup) {x : α}
    (hx : x ∈ xs) : xs.filter (fun y => f y = f x) = [x] := by
  induction xs with
  | nil => cases hx
  | cons y xs ih =>
    obtain ⟨hy, hnd⟩ := List.nodup_cons.1 h
    rcases List.mem_cons.1 hx with rfl | hx
    · rw [List.filter_cons_of_pos (by simp)]
      refine congrArg _ (List.filter_eq_nil_iff.2 fun z hz => ?_)
      simpa using fun he => hy (List.mem_map.2 ⟨z, hz, he⟩)
    · rw [List.filter_cons_of_neg, ih hnd hx]
      simpa using fun he => hy (List.mem_map.2 ⟨x, hx, he.symm⟩)

theorem readEntry_ok {r : LedgerRow} {x : LedgerEntry P} (h : Backend.readEntry py r = .ok x) :
    x.eventId = r.eventId ∧ py.loads r.payload = .ok x.payload := by
  unfold Backend.readEntry at h
  cases hl : py.loads r.payload with
  | error e => rw [hl] at h; cases h
  | ok p => rw [hl] at h; cases h; exact ⟨rfl, rfl⟩

section Entries
variable {same : P → P → Prop}
  (hloads : ∀ p t, py.dumps true p = .ok t → ∃ q, py.loads t = .ok q ∧ same q p)
include hloads

/-- `all_ledger_entries` returns one entry for each event of the ledger, with the payload that was
written. -/
theorem allLedgerEntries_ok {b : Backend} (hd : (ledgerIds b.db).Nodup)
    (hw : ∀ row ∈ b.db.ledger, ∃ payload, payloadJson py payload = .ok row.payload) :
    ∃ entries, b.allLedgerEntries py = .ok entries ∧
      ∀ row ∈ b.db.ledger, ∀ p, payloadJson py p = .ok row.payload →
        ∃ entry, entries.filter (fun x => x.eventId = row.eventId) = [entry] ∧
          same entry.payload p := by
  have hperm : (orderBySeq b.db.ledger).Perm b.db.ledger := List.perm_insertionSort _ _
  obtain ⟨entries, he, hids, hmem⟩ := mapM_ok (f := Backend.readEntry py) (g := LedgerEntry.eventId)
    (k := LedgerRow.eventId) (fun _ _ h => (readEntry_ok h).1) (orderBySeq b.db.ledger)
    fun r hr => by
      obtain ⟨p, hp⟩ := hw r (hperm.subset hr)
      obtain ⟨q, hq, -⟩ := hloads p _ hp
      exact ⟨_, by rw [Backend.readEntry, hq]; rfl⟩
  have hnd : (entries.map LedgerEntry.eventId).Nodup := by
    rw [hids, (hperm.map _).nodup_iff]
    exact hd
  refine ⟨entries, he, fun row hrow p hp => ?_⟩
  obtain ⟨entry, hentry, hread⟩ := hmem row (hperm.mem_iff.2 hrow)
  obtain ⟨hid, hpay⟩ := readEntry_ok hread
  obtain ⟨q, hq, hsame⟩ := hloads p _ hp
  obtain rfl : entry.payload = q := Except.ok.inj (hpay.symm.trans hq)
  exact ⟨entry, by rw [← hid]; exact filter_eq_singleton hnd hentry, hsame⟩

/-- **Exactly once.** After any history: every result belongs to the item in its place and carries
its key; of the results for one key the first is original, and all others are duplicates with its
event; the ledger holds one entry for that event, with the payload of the first write; and the
ledger is as long as there are original results and recovered events. -/
theorem acknowledged_once {log : List (Call P × Outcome)} {b : Backend} (h : Run py log b) :
    (answered log).map Prod.snd = results log ∧
      (∀ a ∈ answered log, a.2.idempotencyKey = a.1.idempotencyKey) ∧
      (∀ k first rest, (answered log).filter (fun a => a.2.idempotencyKey = k) = first :: rest →
        first.2.duplicate = false ∧
          (∀ a ∈ rest, a.2.duplicate = true ∧ a.2.eventId = first.2.eventId) ∧
          ∃ entries entry, b.allLedgerEntries py = .ok entries ∧
            entries.filter (fun x => x.eventId = first.2.eventId) = [entry] ∧
            same entry.payload first.1.payload) ∧
      b.countAcknowledged = (originals (results log)).length + recoveredCount log := by
  obtain ⟨ht, hr⟩ := h.tally
  refine ⟨hr, ht.keyed, fun k first rest hf => ?_, by rw [← hr]; exact ht.total⟩
  have hf' : ((answered log).map Prod.snd).filter (fun r => r.idempotencyKey = k) =
      first.2 :: rest.map Prod.snd := by
    rw [List.filter_map]
    exact congrArg (List.map Prod.snd) hf
  obtain ⟨hfirst, hrest⟩ := ht.order.forKey hf'
  refine ⟨hfirst, fun a ha => hrest a.2 (List.mem_map_of_mem ha), ?_⟩
  have hmem : first ∈ answered log := List.mem_of_mem_filter (hf ▸ List.mem_cons_self ..)
  obtain ⟨row, hrow, he, hp⟩ := ht.stored first hmem hfirst
  obtain ⟨entries, hentries, hall⟩ := allLedgerEntries_ok hloads h.journalInv.ledgered ht.written
  obtain ⟨entry, hentry, hsame⟩ := hall row hrow _ hp
  exact ⟨entries, entry, hentries, he ▸ hentry, hsame⟩

end Entries

/-- Payloads `{"v": false}` and `{"v": true}`; a repeated key inside a batch and after a reopening,
and a staged event that is recovered. -/
theorem acknowledged_once_run :
    let text : Bool → Str := fun p => if p then lit "\x7b\"v\": true\x7d" else lit "\x7b\"v\": false\x7d"
    let py : PyLib Bool :=
      ⟨fun _ => .repeated (.scalar '1') (by decide), fun _ p => .ok (text p),
        fun t => if t = text true then .ok true else if t = text false then .ok false
          else .error .valueError, .sqlite⟩
    let now := ClockText.fixed
    let h := history py [] .empty
      [(.stagePartial (lit "s") false, []),
        (.acknowledgeWritesBatch now [⟨lit "k", lit "a", true⟩, ⟨lit "k", lit "b", false⟩], []),
        (.reopen, []), (.recoverUncommitted, []),
        (.acknowledgeWrite now ⟨lit "k", lit "c", false⟩, [])]
    h.2.countAcknowledged = 2 ∧
      ∃ entries entry, h.2.allLedgerEntries py = .ok entries ∧
        entries.filter (fun x => x.eventId = lit "a") = [entry] ∧ entry.payload = true := by
  intro text py now h
  have hloads : ∀ p t, py.dumps true p = .ok t → ∃ q, py.loads t = .ok q ∧ q = p := by
    rintro (_ | _) t ht <;> cases ht
    · exact ⟨false, by decide, rfl⟩
    · exact ⟨true, by decide, rfl⟩
  exact ⟨by decide, ((acknowledged_once hloads (Run.nil.history _)).2.2.1 (lit "k")
    (⟨lit "k", lit "a", true⟩, ⟨lit "a", lit "k", true, false⟩) _ rfl).2.2⟩

end LineageVault
