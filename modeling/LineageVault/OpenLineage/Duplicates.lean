import LineageVault.OpenLineage.Replay

/-! # What a derived key takes for one event

Without an idempotency key of its own an event is known by its run id and its type. So what is answered
as a duplicate is an event for whose run id and type an earlier one is in the ledger, with the payload of
that one (`duplicate_of_earlier`); the event itself may be another one, and is then in no ledger row
(`running_swallowed`).
-/

namespace LineageVault
open Foundations
set_option autoImplicit false

/-! ## One place of a list -/

section Place
variable {α β γ : Type} {as as' : List α} {a : α} {bs : List β} {b : β}

theorem forall₂_place {R : α → β → Prop} (h : List.Forall₂ R (as ++ a :: as') bs) :
    ∃ bs₁ b bs₂, bs = bs₁ ++ b :: bs₂ ∧ List.Forall₂ R as bs₁ ∧ R a b := by
  induction as generalizing bs with
  | nil =>
    cases h with
    | cons hab _ => exact ⟨[], _, _, rfl, .nil, hab⟩
  | cons x as ih =>
    cases h with
    | @cons _ y _ bs hxy hrest =>
      obtain ⟨bs₁, b, bs₂, rfl, hbefore, hab⟩ := ih hrest
      exact ⟨y :: bs₁, b, bs₂, rfl, .cons hxy hbefore, hab⟩

theorem zipWith_place {f : α → β → γ} {c : γ} (h : (List.zipWith f (as ++ a :: as') bs)[as.length]? = some c) :
    ∃ b, bs[as.length]? = some b ∧ c = f a b := by
  rw [List.getElem?_zipWith, List.getElem?_append_right (Nat.le_refl _), Nat.sub_self] at h
  cases hb : bs[as.length]? with
  | none =>
    rw [hb] at h
    cases h
  | some b =>
    rw [hb] at h
    exact ⟨b, rfl, (Option.some.inj h).symm⟩

theorem zip_place (h : bs[as.length]? = some b) : (as ++ a :: as').zip bs =
    as.zip (bs.take as.length) ++ (a, b) :: as'.zip (bs.drop (as.length + 1)) := by
  induction as generalizing bs with
  | nil =>
    cases bs with
    | nil => cases h
    | cons y bs =>
      cases h
      rfl
  | cons x as ih =>
    cases bs with
    | nil => cases h
    | cons y bs => exact congrArg ((x, y) :: ·) (ih h)

end Place

/-! ## Duplicates in the results of a history -/

/-- A duplicate has an original among the results before it. -/
theorem OncePerKey.earlier {rs rs' : List AcknowledgedWrite} {r : AcknowledgedWrite}
    (h : OncePerKey (rs ++ r :: rs')) (hr : r.duplicate = true) :
    ∃ q ∈ originals rs, q.idempotencyKey = r.idempotencyKey ∧ q.eventId = r.eventId := by
  induction rs' using List.reverseRecOn with
  | nil =>
    generalize hall : rs ++ [r] = all at h
    cases h with
    | nil => simp at hall
    | original _ _ hd =>
      obtain ⟨-, rfl⟩ := List.append_inj' hall rfl |>.imp_right List.singleton_inj.1
      rw [hd] at hr
      cases hr
    | @repeated rs₀ q r₀ _ hq hk he _ =>
      obtain ⟨rfl, rfl⟩ := List.append_inj' hall rfl |>.imp_right List.singleton_inj.1
      exact ⟨q, hq, hk, he⟩
  | append_singleton rs' last ih =>
    refine ih ?_
    generalize hall : rs ++ r :: (rs' ++ [last]) = all at h
    rw [← List.cons_append, ← List.append_assoc] at hall
    cases h with
    | nil => simp at hall
    | original hrs _ _ =>
      rw [List.append_inj_left' hall rfl]
      exact hrs
    | repeated hrs _ _ _ _ =>
      rw [List.append_inj_left' hall rfl]
      exact hrs

/-- The item of a duplicate is not the first one under its key. -/
theorem Tally.earlier {P : Type} {py : PyLib P} {answers answers' : List (BatchWriteItem P × AcknowledgedWrite)}
    {a : BatchWriteItem P × AcknowledgedWrite} {n : ℕ} {v : Store}
    (h : Tally py (answers ++ a :: answers') n v) (ha : a.2.duplicate = true) :
    ∃ first ∈ answers, first.1.idempotencyKey = a.1.idempotencyKey ∧
      ∃ row ∈ v.1.ledger, row.eventId = a.2.eventId ∧
        payloadJson py first.1.payload = .ok row.payload := by
  have horder := h.order
  rw [List.map_append, List.map_cons] at horder
  obtain ⟨q, hq, hk, he⟩ := horder.earlier ha
  obtain ⟨hq, hnew⟩ := mem_originals.1 hq
  obtain ⟨first, hfirst, rfl⟩ := List.mem_map.1 hq
  have hmem : first ∈ answers ++ a :: answers' := List.mem_append_left _ hfirst
  obtain ⟨row, hrow, hid, hpayload⟩ := h.stored first hmem hnew
  refine ⟨first, hfirst, ?_, row, hrow, hid.trans he, hpayload⟩
  rw [← h.keyed first hmem, hk, h.keyed a (List.mem_append_right _ List.mem_cons_self)]

/-! ## The calls of a client in a history -/

section Client
variable {P α : Type} {py : PyLib P} {log : List (Call P × Outcome)} {b : Backend}

/-- A client makes calls of the history, all of them among those it may make. -/
theorem runUnder_log {allowed : StorageCall P → Prop} (hrun : Run py log b) (fss : List (List Bool))
    {p : Client P α} (hp : p.Uses allowed) :
    ∃ log', Run py (log ++ log') (p.runUnder py fss b).2 ∧
      ∀ x ∈ log', ∃ s, allowed s ∧ x.1 = s.toCall := by
  refine Prog.drive_keeps (P := fun c => ∃ log', Run py (log ++ log') c ∧
    ∀ x ∈ log', ∃ s, allowed s ∧ x.1 = s.toCall) _ ?_ fss hp ⟨[], by rwa [List.append_nil], by simp⟩
  rintro fs s c hs ⟨log', hc, hlog'⟩
  have hsame : (s.perform py fs c).2 = (s.toCall.perform py fs c).2 := by cases s <;> rfl
  refine ⟨log' ++ [(s.toCall, (s.toCall.perform py fs c).1)], ?_, ?_⟩
  · rw [hsame, ← List.append_assoc]
    exact .snoc s.toCall fs hc
  · intro x hx
    rcases List.mem_append.1 hx with hx | hx
    · exact hlog' x hx
    · rw [List.mem_singleton.1 hx]
      exact ⟨s, hs, rfl⟩

/-- Calls that record lineage answer nothing. -/
theorem answered_records {log : List (Call P × Outcome)}
    (h : ∀ x ∈ log, ∃ s : StorageCall P, s.records ∧ x.1 = s.toCall) : answered log = [] := by
  refine List.flatMap_eq_nil_iff.2 fun x hx => ?_
  obtain ⟨s, hs, hcall⟩ := h x hx
  have hitems : x.1.items = [] := by
    rw [hcall]
    cases s with
    | acknowledgeWrite now item => exact hs.elim
    | acknowledgeWritesBatch now items => exact hs.elim
    | _ => rfl
  split
  · rw [hitems, List.zip_nil_left]
  · rfl

end Client

/-! ## Ingests without keys of their own -/

/-- `not key` -/
def Keyless : Option Str → Prop
  | some (_ :: _) => False
  | _ => True

section Unkeyed
variable (R : Rendering) (py : PyLib Json)

namespace EngineCall

/-- An OpenLineage ingest that gives no key for any event. -/
def Unkeyed : EngineCall → Prop
  | .ingestSync _ _ _ => False
  | .ingest _ _ _ key => Keyless key
  | .ingestBatch _ _ _ keys => ∀ ks, keys = some ks → ∀ key ∈ ks, Keyless key

def events : EngineCall → List RunEvent
  | .ingestSync _ _ _ => []
  | .ingest _ _ event _ => [event]
  | .ingestBatch _ _ events _ => events

end EngineCall

/-- The events that ingests without keys were given, in order, from an empty store on; a call may fail
anywhere. -/
inductive UnkeyedRun : List RunEvent → Backend → Prop where
  | nil : UnkeyedRun [] .empty
  | call {past : List RunEvent} {b : Backend} (fss : List (List Bool)) (c : EngineCall) (keyless : c.Unkeyed) :
      UnkeyedRun past b → UnkeyedRun (past ++ c.events) (c.after R py fss b)
  | reopen {past : List RunEvent} {b : Backend} : UnkeyedRun past b → UnkeyedRun past b.reopen

/-- An ingest without keys returned the result for the event; `before` are the events before it in its
batch. -/
inductive Returns (b b' : Backend) : List RunEvent → RunEvent → IngestResult → Prop where
  | single (now : ClockText) (ids : ℕ → Str) (event : RunEvent) (key : Option Str) (fss : List (List Bool))
      (r : IngestResult) (keyless : Keyless key)
      (h : (ingest R now ids event key).runUnder py fss b = (some (.ok r), b')) : Returns b b' [] event r
  | batch (now : ClockText) (ids : ℕ → Str) (before : List RunEvent) (event : RunEvent)
      (after : List RunEvent) (keys : Option (List (Option Str))) (fss : List (List Bool))
      (out : List IngestResult) (r : IngestResult) (keyless : ∀ ks, keys = some ks → ∀ key ∈ ks, Keyless key)
      (h : (ingestBatch R now ids (before ++ event :: after) keys).runUnder py fss b = (some (.ok out), b'))
      (place : out[before.length]? = some r) : Returns b b' before event r

end Unkeyed

/-! ## What the results are for -/

section Results
variable {R : Rendering} {py : PyLib Json} {log : List (Call Json × Outcome)} {b : Backend}

/-- The item of an event that has no key of its own. -/
def ItemOf (R : Rendering) (event : RunEvent) (item : BatchWriteItem Json) : Prop :=
  item.idempotencyKey = event.derivedKey R ∧ item.payload = event.modelDump

theorem resolvedKey_keyless (event : RunEvent) {key : Option Str} (h : Keyless key) :
    event.resolvedKey R key = event.derivedKey R := by
  unfold RunEvent.resolvedKey
  split
  · exact h.elim
  · rfl

theorem ingestKeys_keyless (events : List RunEvent) {idempotencyKeys : Option (List (Option Str))}
    (h : ∀ ks, idempotencyKeys = some ks → ∀ key ∈ ks, Keyless key) :
    ∀ key ∈ ingestKeys events idempotencyKeys, Keyless key := by
  intro key hkey
  unfold ingestKeys at hkey
  split at hkey
  · exact h _ rfl key hkey
  · rw [List.eq_of_mem_replicate hkey]
    trivial

theorem batchItems_itemOf {ids : ℕ → Str} {events : List RunEvent} {keys : List (Option Str)} {i : ℕ}
    {items : List (BatchWriteItem Json)} (hkeys : ∀ key ∈ keys, Keyless key)
    (h : batchItems R ids events keys i = .ok items) : List.Forall₂ (ItemOf R) events items := by
  refine (batchItems_events h).imp ?_
  rintro event item ⟨hpayload, key, hkey, hitem⟩
  exact ⟨hitem.trans (resolvedKey_keyless event (hkeys key hkey)), hpayload⟩

variable {now : ClockText} {ids : ℕ → Str} {events : List RunEvent}
  {idempotencyKeys : Option (List (Option Str))}

variable (R now ids events idempotencyKeys) in
/-- The history of an ingest: it answers nothing, or its items in turn. -/
theorem ingestBatch_log (hrun : Run py log b) (fss : List (List Bool)) :
    let x := (ingestBatch R now ids events idempotencyKeys).runUnder py fss b
    ∃ log', Run py (log ++ log') x.2 ∧
      ((answered log' = [] ∧ ∀ out, x.1 = some (.ok out) → out = []) ∨
        ∃ items results, batchItems R ids events (ingestKeys events idempotencyKeys) 0 = .ok items ∧
          answered log' = items.zip results ∧
          ∀ out, x.1 = some (.ok out) → out = List.zipWith (ingestResult R) events results) := by
  intro x
  rcases ingestBatch_runs R py now ids events idempotencyKeys fss b with ⟨hb, hnone⟩ |
    ⟨items, fs, -, hitems, hack⟩
  · refine ⟨[], ?_, .inl ⟨rfl, fun out hout => (hnone out hout).2⟩⟩
    rwa [List.append_nil, show x.2 = b from hb]
  · have hsnoc : Run py (log ++ [(.acknowledgeWritesBatch now items, _)]) _ :=
      .snoc (.acknowledgeWritesBatch now items) fs hrun
    rcases hack with ⟨e, b', hp, hx⟩ | ⟨results, b₁, fss', hp, hx⟩
    · have hx : x = (some (.error e), b') := hx
      rw [Call.perform, hp] at hsnoc
      refine ⟨[(.acknowledgeWritesBatch now items, .raised e)], ?_, .inl ⟨rfl, fun out hout => ?_⟩⟩
      · rw [hx]
        exact hsnoc
      · rw [hx] at hout
        cases hout
    · have hx : x = (recordAll R events results).runUnder py fss' b₁ := hx
      rw [Call.perform, hp] at hsnoc
      obtain ⟨log', hlog', hrecords⟩ := runUnder_log hsnoc fss' (uses_recordAll events results)
      refine ⟨(.acknowledgeWritesBatch now items, .acks results) :: log', ?_,
        .inr ⟨items, results, hitems, ?_, ?_⟩⟩
      · rw [hx, List.append_cons]
        exact hlog'
      · have hcons : answered ((.acknowledgeWritesBatch now items, Outcome.acks results) :: log') =
            items.zip results ++ answered log' := rfl
        rw [hcons, answered_records hrecords, List.append_nil]
      · intro out hout
        rw [hx] at hout
        exact recordAll_out hout

/-- Every answer of the history is to one of these events. -/
def ItemsOf (R : Rendering) (past : List RunEvent) (log : List (Call Json × Outcome)) : Prop :=
  ∀ a ∈ answered log, ∃ event ∈ past, ItemOf R event a.1

theorem answered_append (log log' : List (Call Json × Outcome)) :
    answered (log ++ log') = answered log ++ answered log' := List.flatMap_append ..

theorem ItemsOf.next {past : List RunEvent} (h : ItemsOf R past log) (hrun : Run py log b)
    (fss : List (List Bool)) (keyless : ∀ ks, idempotencyKeys = some ks → ∀ key ∈ ks, Keyless key) :
    ∃ log', Run py log' ((ingestBatch R now ids events idempotencyKeys).runUnder py fss b).2 ∧
      ItemsOf R (past ++ events) log' := by
  obtain ⟨log', hlog', hanswers⟩ := ingestBatch_log R now ids events idempotencyKeys hrun fss
  refine ⟨log ++ log', hlog', fun a ha => ?_⟩
  rw [answered_append] at ha
  rcases List.mem_append.1 ha with ha | ha
  · obtain ⟨event, hevent, hnames⟩ := h a ha
    exact ⟨event, List.mem_append_left _ hevent, hnames⟩
  · rcases hanswers with ⟨hnil, -⟩ | ⟨items, results, hitems, hzip, -⟩
    · rw [hnil] at ha
      cases ha
    · rw [hzip] at ha
      have hnames := batchItems_itemOf (ingestKeys_keyless events keyless) hitems
      obtain ⟨event, hevent, hname⟩ := forall₂_mem hnames.flip (List.of_mem_zip ha).1
      exact ⟨event, List.mem_append_right _ hevent, hname⟩

theorem ingest_keyless {event : RunEvent} {key : Option Str} (h : Keyless key) (fss : List (List Bool))
    (b : Backend) :
    (ingest R now ids event key).runUnder py fss b =
      (((ingestBatch R now ids [event] none).runUnder py fss b).1.map fun x => x.bind firstResult,
        ((ingestBatch R now ids [event] none).runUnder py fss b).2) := by
  have hbatch : ingest R now ids event key =
      ingestBatch R now ids [event] none >>= fun results => Prog.ofExcept (firstResult results) := by
    unfold ingest
    split
    · exact h.elim
    · refine congrArg (fun k => ingestBatch R now ids [event] none >>= k) (funext fun results => ?_)
      cases results with
      | nil => rfl
      | cons result results => rfl
  rw [hbatch]
  exact Prog.drive_bind_ofExcept _ fss _ firstResult b

theorem UnkeyedRun.logged {past : List RunEvent} (h : UnkeyedRun R py past b) :
    ∃ log, Run py log b ∧ ItemsOf R past log := by
  induction h with
  | nil => exact ⟨[], .nil, fun a ha => (List.not_mem_nil ha).elim⟩
  | @call past b fss c keyless _ ih =>
    obtain ⟨log, hrun, hnames⟩ := ih
    cases c with
    | ingestSync now event key => exact keyless.elim
    | ingest now ids event key =>
      rw [EngineCall.after, ingest_keyless keyless]
      exact hnames.next hrun fss fun ks hks => by cases hks
    | ingestBatch now ids events keys => exact hnames.next hrun fss keyless
  | @reopen past b _ ih =>
    obtain ⟨log, hrun, hnames⟩ := ih
    refine ⟨log ++ [(.reopen, .done)], .snoc .reopen [] hrun, fun a ha => hnames a ?_⟩
    rw [answered_append] at ha
    exact (List.mem_append.1 ha).resolve_right List.not_mem_nil

/-- `ingest` returns what the batch of its event returns. -/
theorem Returns.place {b' : Backend} {before : List RunEvent} {event : RunEvent} {r : IngestResult}
    (h : Returns R py b b' before event r) :
    ∃ now ids after keys fss out, (∀ ks, keys = some ks → ∀ key ∈ ks, Keyless key) ∧
      (ingestBatch R now ids (before ++ event :: after) keys).runUnder py fss b = (some (.ok out), b') ∧
      out[before.length]? = some r := by
  cases h with
  | batch now ids before event after keys fss out r keyless h place =>
    exact ⟨now, ids, after, keys, fss, out, keyless, h, place⟩
  | single now ids event key fss r keyless h =>
    rw [ingest_keyless keyless] at h
    obtain ⟨hx, rfl⟩ := Prod.mk.inj h
    obtain ⟨x, hrun, hr⟩ := Option.map_eq_some_iff.1 hx
    cases x with
    | error e => cases hr
    | ok out =>
      refine ⟨now, ids, [], none, fss, out, (fun ks hks => by cases hks), Prod.ext hrun rfl, ?_⟩
      cases out with
      | nil => cases hr
      | cons r' out =>
        cases hr
        rfl

end Results

theorem returns_of_result {R : Rendering} {py : PyLib Json} {b : Backend} {now : ClockText} {ids : ℕ → Str}
    {event : RunEvent} {key : Option Str} {fss : List (List Bool)} {r : IngestResult} (keyless : Keyless key)
    (h : ((ingest R now ids event key).runUnder py fss b).1 = some (.ok r)) :
    Returns R py b ((ingest R now ids event key).runUnder py fss b).2 [] event r :=
  .single now ids event key fss r keyless (Prod.ext h rfl)

section Swallowed
variable {R : Rendering} {sha256 : Str → Digest} {loads : Str → Except PyErr Json} {limit : VariableLimit}
  {b b' : Backend}
  {past before : List RunEvent} {event : RunEvent} {r : IngestResult}

/-- **A duplicate is of an earlier event with the run id and the type of the event.** In any history of
ingests without keys, and for any answer that calls an event a duplicate: an event that was ingested
before has the same run id and type, and the ledger has it, under the answered event id and with its
payload. -/
theorem duplicate_of_earlier (h : UnkeyedRun R (PyLib.json sha256 loads limit) past b)
    (hr : Returns R (PyLib.json sha256 loads limit) b b' before event r) (hdup : r.duplicate = true) :
    ∃ first ∈ past ++ before, first.runId R = event.runId R ∧ first.eventType = event.eventType ∧
      ∃ row ∈ b'.db.ledger, row.eventId = r.eventId ∧ row.payload = first.modelDump.dumps true := by
  obtain ⟨log, hrun, hnames⟩ := h.logged
  obtain ⟨now, ids, after, keys, fss, out, keyless, hbatch, hplace⟩ := hr.place
  obtain ⟨log', hlog', hanswers⟩ := ingestBatch_log R now ids (before ++ event :: after) keys hrun fss
  rw [hbatch] at hlog' hanswers
  rcases hanswers with ⟨-, hnil⟩ | ⟨items, results, hitems, hzip, hout⟩
  · rw [hnil out rfl] at hplace
    cases hplace
  · have hall := batchItems_itemOf (ingestKeys_keyless _ keyless) hitems
    obtain ⟨itemsBefore, item, itemsAfter, rfl, hbefore, hname⟩ := forall₂_place hall
    rw [hout out rfl] at hplace
    obtain ⟨result, hresult, rfl⟩ := zipWith_place hplace
    -- the answers before the one to the event
    have hanswered : answered (log ++ log') =
        (answered log ++ itemsBefore.zip (results.take itemsBefore.length)) ++
          (item, result) :: itemsAfter.zip (results.drop (itemsBefore.length + 1)) := by
      rw [hbefore.length_eq] at hresult
      rw [answered_append, hzip, zip_place hresult, List.append_assoc]
    obtain ⟨htally, -⟩ := hlog'.tally
    rw [hanswered] at htally
    obtain ⟨first, hfirst, hkey, row, hrow, hid, hpayload⟩ := htally.earlier hdup
    have hevent : ∃ e ∈ past ++ before, ItemOf R e first.1 := by
      rcases List.mem_append.1 hfirst with hfirst | hfirst
      · obtain ⟨e, he, hn⟩ := hnames first hfirst
        exact ⟨e, List.mem_append_left _ he, hn⟩
      · obtain ⟨e, he, hn⟩ := forall₂_mem hbefore.flip (List.of_mem_zip hfirst).1
        exact ⟨e, List.mem_append_right _ he, hn⟩
    obtain ⟨e, he, hn⟩ := hevent
    have hderived : e.derivedKey R = event.derivedKey R := by
      rw [← hn.1, hkey, hname.1]
    obtain ⟨hrunId, htype⟩ := derivedKey_inj hderived
    refine ⟨e, he, hrunId, htype, row, hrow, hid, ?_⟩
    rw [← hn.2]
    exact (Except.ok.inj hpayload).symm

end Swallowed

/-! ## Two reports of one run -/

/-- A RUNNING event. -/
def progress (percent : ℤ) : RunEvent :=
  { copyOf (lit "r") with
    eventType := .running
    run := [(lit "runId", .str (lit "r")), (lit "percent", .int percent)] }

def progressIngestion (percent : ℤ) : Client Json IngestResult :=
  ingest .fixed .fixed (fun _ => lit "e") (progress percent) none

/-- What the first report leaves, and then the second one. -/
def progressed : Backend :=
  ((progressIngestion 10).runUnder PyLib.fixed (List.replicate 9 []) .empty).2

def progressedAgain : Backend :=
  ((progressIngestion 20).runUnder PyLib.fixed (List.replicate 9 []) progressed).2

def progressAnswer : IngestResult := ⟨lit "e", true, true, lit "r", lit "RUNNING"⟩

theorem progress_run : UnkeyedRun .fixed PyLib.fixed [progress 10] progressed :=
  .call (List.replicate 9 []) (.ingest .fixed (fun _ => lit "e") (progress 10) none) trivial .nil

theorem progress_returns (h : ((progressIngestion 20).runUnder PyLib.fixed (List.replicate 9 [])
    progressed).1 = some (.ok progressAnswer)) :
    Returns .fixed PyLib.fixed progressed progressedAgain [] (progress 20) progressAnswer :=
  returns_of_result trivial h

theorem duplicate_of_progress :
    ∃ first ∈ [progress 10], first.runId .fixed = lit "r" ∧
      ∃ row ∈ progressedAgain.db.ledger, row.payload = first.modelDump.dumps true := by
  obtain ⟨first, hfirst, hrun, -, row, hrow, -, hpayload⟩ :=
    duplicate_of_earlier progress_run (progress_returns (by decide +kernel)) rfl
  exact ⟨first, by simpa using hfirst, hrun, row, hrow, hpayload⟩

/-- **The second report of a run is acknowledged and in no ledger row.** -/
theorem running_swallowed :
    UnkeyedRun .fixed PyLib.fixed [progress 10] progressed ∧
      Returns .fixed PyLib.fixed progressed progressedAgain [] (progress 20) progressAnswer ∧
      progressAnswer.duplicate = true ∧ progressAnswer.acknowledged = true ∧
      ∀ row ∈ progressedAgain.db.ledger, row.payload ≠ (progress 20).modelDump.dumps true :=
  ⟨progress_run, progress_returns (by decide +kernel), rfl, rfl, by decide +kernel⟩

end LineageVault
