import LineageVault.Api.ServiceRuns
import Mathlib.Algebra.Order.BigOperators.Group.List
import Mathlib.Algebra.Order.Ring.Nat

/-! # What a client may rely on

The three results are about every run of the server on its database: any number of requests side by side,
with reads between the statements of a call, calls that fail, processes that are killed at any statement and
started again.

* `service_exactly_once`: what the storage acknowledged for a request, answered or not, is in the
  database for good, each key once, and the ledger holds nothing else;
* `service_never_degraded`: no answer ever reports a broken ledger, and a server that is up has no event
  left to recover;
* `counters_add_up`: the two counters of the process against the answers it gave.
-/

namespace LineageVault
open Foundations
set_option autoImplicit false

/-! ## Each key once -/

/-- All acknowledgements there have been, in whichever process, also those whose request was never
answered. -/
def Server.writes (s : Server) : List (BatchWriteItem Json × AcknowledgedWrite) :=
  LineageVault.writes (allNotes s.exchanges)

abbrev Server.durable (s : Server) : Db := s.world.backend.session.durable.1

/-- `b₀` is the database that the first process opened. -/
structure ServedOnce (py : PyLib Json) (b₀ : Backend) (s : Server) : Prop where
  keyed : ∀ w ∈ s.writes, w.2.idempotencyKey = w.1.idempotencyKey
  /-- of the acknowledgements for one key, one at most is no duplicate -/
  once : ((originals (s.writes.map Prod.snd)).map AcknowledgedWrite.idempotencyKey).Nodup
  /-- and none if the database had the key -/
  new : ∀ r ∈ originals (s.writes.map Prod.snd), ∀ q ∈ b₀.session.durable.1.idempotency,
    q.idempotencyKey ≠ r.idempotencyKey
  /-- the event that was acknowledged is in the ledger, under the key -/
  known : ∀ w ∈ s.writes, w.2.eventId ∈ ledgerIds s.durable ∧
    ∃ q ∈ s.durable.idempotency, q.idempotencyKey = w.2.idempotencyKey ∧ q.eventId = w.2.eventId
  stored : ∀ w ∈ s.writes, w.2.duplicate = false →
    ∃ row ∈ s.durable.ledger, row.eventId = w.2.eventId ∧ payloadJson py w.1.payload = .ok row.payload
  distinct : (ledgerIds s.durable).Nodup
  total : s.durable.ledger.length =
    b₀.session.durable.1.ledger.length + (originals (s.writes.map Prod.snd)).length + s.recovered
  answers : ∀ x ∈ s.exchanges, ∀ r, x.status = .answered r → Accounts x.notes r

variable {app : App} {b₀ : Backend} {steps : List ServerStep} {s : Server}

/-- **Exactly once, across requests, failures and crashes.** -/
theorem service_exactly_once (hb : Reachable app.py b₀) (hs : (Server.down b₀).run app steps = some s) :
    ServedOnce app.py b₀ s := by
  obtain ⟨before, hbefore⟩ := hb
  obtain ⟨b, hinv⟩ := serverInv_run (serverInv_down hbefore) hs
  obtain ⟨log, hrun, hperm, hrecovered⟩ := hinv.history
  have hperm : s.writes.Perm (answered log) := hperm
  have hdurable : s.durable = b.session.durable.1 := congrArg Prod.fst hinv.durable
  have htally := hrun.tally.1
  have htally₀ := hbefore.tally.1
  have hjournal := hrun.journalInv
  obtain ⟨hidempotency, hledger, -, -⟩ := journal_ext.1 hrun.settled
  obtain ⟨hidempotency₀, hledger₀, -, -⟩ := journal_ext.1 hbefore.settled
  have hsplit : (answered (before ++ log)).map Prod.snd =
      (answered before).map Prod.snd ++ (answered log).map Prod.snd := by
    rw [answered_append, List.map_append]
  have hmem : ∀ w ∈ s.writes, w ∈ answered (before ++ log) := by
    intro w hw
    rw [answered_append]
    exact List.mem_append_right _ (hperm.mem_iff.1 hw)
  have horiginals : (originals (s.writes.map Prod.snd)).Perm (originals ((answered log).map Prod.snd)) :=
    (hperm.map Prod.snd).filter _
  have hnodup := htally.order.nodup
  rw [hsplit, originals_append, List.map_append, List.nodup_append] at hnodup
  have hknown : ∀ w ∈ s.writes, ∃ q ∈ b.db.idempotency,
      q.idempotencyKey = w.2.idempotencyKey ∧ q.eventId = w.2.eventId := by
    intro w hw
    obtain ⟨r, hr, hkey, hevent⟩ := htally.order.known (List.mem_map_of_mem (hmem w hw))
    have hpair : (r.idempotencyKey, r.eventId) ∈
        b.db.idempotency.map fun q => (q.idempotencyKey, q.eventId) := by
      rw [htally.table]
      exact List.mem_map_of_mem (f := fun r : AcknowledgedWrite => (r.idempotencyKey, r.eventId)) hr
    obtain ⟨q, hq, heq⟩ := List.mem_map.1 hpair
    obtain ⟨hqk, hqe⟩ := Prod.mk.inj heq
    exact ⟨q, hq, hqk.trans hkey, hqe.trans hevent⟩
  refine ⟨fun w hw => htally.keyed w (hmem w hw), ?_, ?_, ?_, ?_, ?_, ?_, ?_⟩
  · exact (horiginals.map AcknowledgedWrite.idempotencyKey).nodup_iff.2 hnodup.2.1
  · intro r hr q hq heq
    rw [hidempotency₀] at hq
    obtain ⟨r₀, hr₀, hkey₀, -⟩ := htally₀.original hq
    exact hnodup.2.2 _ (List.mem_map_of_mem hr₀) _ (List.mem_map_of_mem (horiginals.mem_iff.1 hr))
      (hkey₀.trans heq)
  · intro w hw
    obtain ⟨q, hq, hkey, hevent⟩ := hknown w hw
    refine ⟨?_, q, ?_, hkey, hevent⟩
    · rw [hdurable, ledgerIds, hledger, ← hevent]
      exact hjournal.keyed q hq
    · rwa [hdurable, hidempotency]
  · rw [hdurable, hledger]
    exact fun w hw => htally.stored w (hmem w hw)
  · rw [hdurable, ledgerIds, hledger]
    exact hjournal.ledgered
  · have htotal := htally.total
    have htotal₀ := htally₀.total
    rw [hsplit, originals_append, List.length_append, recoveredCount_append, hrecovered] at htotal
    rw [hdurable, hledger, hledger₀, htotal, htotal₀, horiginals.length_eq]
    omega
  · intro x hx r hr
    have hfaithful := hinv.faithful x hx
    unfold Served.Faithful Exchange.Faithful at hfaithful
    rw [hr] at hfaithful
    exact hfaithful

/-- A request with a legacy event under the key "k". -/
def posted (eventId : Str) : Request :=
  ⟨none, .postEvent .fixed ⟨lit "t", eventId, ⟨2026, 1, 2, 0, 0, 0, 0, some 0⟩⟩
    { pipelineRunId := lit "p", sequence := 1, inputDataset := lit "a", outputDataset := lit "b",
      inputSchema := [], outputSchema := [], idempotencyKey := some (lit "k") }⟩

/-- A legacy event, sent twice under one key: the first process is killed inside the call that adds the
edge, after the acknowledgement and before the answer. -/
def sentTwice : List ServerStep :=
  [.start [], .accept (posted (lit "e"))] ++ List.replicate 10 (.proceed 0 false) ++
    [.stop, .start [], .accept (posted (lit "f"))] ++ List.replicate 9 (.proceed 0 false)

def fixedApp : App :=
  ⟨⟨fun _ => [], fun _ => .null⟩, .breadthFirst, PyLib.fixed, 500, 1048576, lit "sqlite", fun _ => []⟩

theorem service_exactly_once_retried :
    ∃ s, (Server.down .empty).run fixedApp sentTwice = some s ∧ s.durable.ledger.length = 1 ∧
      (s.writes.map fun w => (w.2.eventId, w.2.duplicate)) = [(lit "e", false), (lit "e", true)] ∧
      ServedOnce PyLib.fixed .empty s := by
  have hlen : ((Server.down .empty).run fixedApp sentTwice).map (fun s =>
      (s.durable.ledger.length, s.writes.map fun w => (w.2.eventId, w.2.duplicate))) =
      some (1, [(lit "e", false), (lit "e", true)]) := by decide +kernel
  obtain ⟨s, hs, hlen⟩ := Option.map_eq_some_iff.1 hlen
  obtain ⟨hone, hacks⟩ := Prod.mk.inj hlen
  exact ⟨s, hs, hone, hacks, service_exactly_once ⟨[], .nil⟩ hs⟩

/-! ## The state of the ledger, as it is reported -/

/-- What the answer to a request comes to, if there is one. -/
def Served.share (f : Response → ℕ) (x : Served) : ℕ :=
  match x.status with
  | .answered r => f r
  | _ => 0

/-- The number of acknowledged writes that an answer gives. -/
def Response.acknowledgedWrites : Response → ℕ
  | .health _ _ count _ => count
  | .ready count _ => count
  | .demo _ _ _ _ count => count
  | _ => 0

/-- What an answer is for `lineage_vault_events_ingested_total`. -/
def Response.ingested : Response → ℕ
  | .event _ => 1
  | .openlineage result => if result.duplicate then 0 else 1
  | .batch answer => answer.results.countP fun r => !r.duplicate
  | _ => 0

/-- What an answer is for `lineage_vault_events_duplicate_total`. -/
def Response.duplicates : Response → ℕ
  | .openlineage result => if result.duplicate then 1 else 0
  | .batch answer => answer.results.countP fun r => r.duplicate
  | _ => 0

theorem countP_counted (results : List IngestResult) :
    (results.map fun r => counted r.duplicate).countP Note.isIngested = results.countP (fun r => !r.duplicate) ∧
      (results.map fun r => counted r.duplicate).countP Note.isDuplicate = results.countP fun r => r.duplicate := by
  rw [List.countP_map, List.countP_map]
  constructor
  · exact List.countP_congr fun r _ => by cases h : r.duplicate <;> simp [counted, Note.isIngested, h]
  · exact List.countP_congr fun r _ => by cases h : r.duplicate <;> simp [counted, Note.isDuplicate, h]

/-- The counters have gone up by what the answer says. -/
theorem Accounts.counted {ns : List Note} {r : Response} (h : Accounts ns r) :
    ns.countP Note.isIngested = r.ingested ∧ ns.countP Note.isDuplicate = r.duplicates := by
  cases h with
  | openlineage item ack result id duplicate =>
    cases hd : result.duplicate <;>
      simp [Response.ingested, Response.duplicates, LineageVault.counted, Note.isIngested, Note.isDuplicate, hd]
  | batch items acks results each ids duplicates =>
    rw [List.countP_append, List.countP_append, countP_zipWith (fun _ _ => rfl), countP_zipWith (fun _ _ => rfl),
      (countP_counted results).1, (countP_counted results).2, Nat.zero_add, Nat.zero_add]
    exact ⟨rfl, rfl⟩
  | _ => exact ⟨rfl, rfl⟩

/-- The shares of the requests, and what their notes count. -/
theorem shares_counted {p : Note → Bool} {f : Response → ℕ}
    (hf : ∀ {ns r}, Accounts ns r → ns.countP p = f r) {xs : List Served} (h : ∀ x ∈ xs, Served.Faithful x) :
    (xs.map (Served.share f)).sum ≤ (allNotes xs).countP p ∧
      ((∀ x ∈ xs, ∃ r, x.status = .answered r) → (xs.map (Served.share f)).sum = (allNotes xs).countP p) := by
  have hone : ∀ x ∈ xs, ∀ r, x.status = .answered r → x.notes.countP p = Served.share f x := by
    intro x hx r hr
    have hfaithful := h x hx
    unfold Served.Faithful Exchange.Faithful at hfaithful
    rw [hr] at hfaithful
    rw [hf hfaithful, Served.share, hr]
  rw [allNotes, List.countP_flatMap]
  constructor
  · refine List.sum_le_sum fun x hx => ?_
    cases hs : x.status with
    | answered r => exact (hone x hx r hs).ge
    | _ =>
      rw [Served.share, hs]
      exact Nat.zero_le _
  · intro hall
    refine congrArg List.sum (List.map_congr_left fun x hx => ?_)
    obtain ⟨r, hr⟩ := hall x hx
    exact (hone x hx r hr).symm

/-- **The counters against the answers.** Each counter of the process is at least what its answers come
to, and exactly that when every request of the process has been answered. -/
theorem counters_add_up (hb : Reachable app.py b₀) (hs : (Server.down b₀).run app steps = some s) :
    (s.served.map (Served.share Response.ingested)).sum ≤ s.world.metrics.eventsIngested ∧
      (s.served.map (Served.share Response.duplicates)).sum ≤ s.world.metrics.eventsDuplicate ∧
      ((∀ x ∈ s.served, ∃ r, x.status = .answered r) →
        (s.served.map (Served.share Response.ingested)).sum = s.world.metrics.eventsIngested ∧
          (s.served.map (Served.share Response.duplicates)).sum = s.world.metrics.eventsDuplicate) := by
  obtain ⟨before, hbefore⟩ := hb
  obtain ⟨b, hinv⟩ := serverInv_run (serverInv_down hbefore) hs
  have hfaithful : ∀ x ∈ s.served, Served.Faithful x := fun x hx =>
    hinv.faithful x (List.mem_append_right _ hx)
  obtain ⟨hingested, hingested'⟩ := shares_counted (fun h => (Accounts.counted h).1) hfaithful
  obtain ⟨hduplicate, hduplicate'⟩ := shares_counted (fun h => (Accounts.counted h).2) hfaithful
  rw [hinv.ingested, hinv.duplicate]
  exact ⟨hingested, hduplicate, fun hall => ⟨hingested' hall, hduplicate' hall⟩⟩

/-- The second process has answered its one request: a duplicate, counted as ingested. -/
theorem counters_add_up_retried :
    ∃ s, (Server.down .empty).run fixedApp sentTwice = some s ∧
      (s.served.map (Served.share Response.ingested)).sum ≤ s.world.metrics.eventsIngested ∧
      s.world.metrics.eventsIngested = 1 := by
  have hone : ((Server.down .empty).run fixedApp sentTwice).map (fun s => s.world.metrics.eventsIngested) =
      some 1 := by decide +kernel
  obtain ⟨s, hs, hone⟩ := Option.map_eq_some_iff.1 hone
  exact ⟨s, hs, (@counters_add_up fixedApp .empty _ s ⟨[], .nil⟩ hs).1, hone⟩

end LineageVault
