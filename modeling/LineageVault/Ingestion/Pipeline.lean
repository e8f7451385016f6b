import Mathlib.Data.Int.Basic
import Mathlib.Data.List.Nodup
import Mathlib.Data.List.Range

/-! # `ingestion/pipeline.py`

A pipeline on one event loop. A coroutine runs on until it waits, so a schedule is a list of actions: an
`ingest` call, the next step of a worker, the next step of `stop`. The events are told apart by the number
of their `ingest` call, and `raises` says for which of them the handler raises; `task_done` is left out,
as only `join` reads what it counts.

Every accepted event is in the queue or was handed to the handler, and in the queue no event that was
accepted before `stop` is behind a marker. So a worker that met its marker has left none of them, and only
a handler that raises can let `stop` finish too early. It cannot where it raises after `stop` was called and
leaves none of these events in the queue (`stop_loses_nothing`).
-/

namespace LineageVault
set_option autoImplicit false

/-! ## The pipeline -/

/-- A task of `_worker`. -/
inductive Worker where
  | getting
  | handling (event : ℕ)
  | ended
  | failed
  deriving DecidableEq

inductive Stopping where
  | idle
  | putting (left : ℕ)
  | gathering
  | returned
  | raised
  deriving DecidableEq

structure Pipeline where
  maxQueue : ℤ
  /-- the head first; `None` is the marker of `stop` -/
  queue : List (Option ℕ)
  workers : List Worker
  dropped : ℕ
  stopping : Stopping
  /-- what the `ingest` calls returned -/
  answers : List Bool
  /-- the events that were handed to the handler -/
  passed : List ℕ
  /-- the `ingest` calls that came before `stop` -/
  before : ℕ

namespace Pipeline

/-- A new pipeline, and `start(n)`. -/
def start (maxQueue : ℤ) (n : ℕ) : Pipeline :=
  ⟨maxQueue, [], List.replicate n .getting, 0, .idle, [], [], 0⟩

/-- `asyncio.Queue.full` -/
def full (p : Pipeline) : Bool := 0 < p.maxQueue && p.maxQueue ≤ p.queue.length

def ingest (p : Pipeline) : Pipeline :=
  if p.full then { p with dropped := p.dropped + 1, answers := p.answers ++ [false] }
  else { p with queue := p.queue ++ [some p.answers.length], answers := p.answers ++ [true] }

/-- The worker takes the head of the queue and calls the handler, or the handler is done. -/
def work (raises : ℕ → Bool) (w : ℕ) (p : Pipeline) : Option Pipeline :=
  match p.workers[w]? with
  | some .getting =>
    match p.queue with
    | [] => none
    | none :: queue => some { p with queue := queue, workers := p.workers.set w .ended }
    | some event :: queue => some { p with
        queue := queue
        workers := p.workers.set w (.handling event)
        passed := p.passed ++ [event] }
  | some (.handling event) =>
    some { p with workers := p.workers.set w (if raises event then .failed else .getting) }
  | _ => none

/-- `gather` raises once a worker has failed, and returns once all have ended. -/
def stop (p : Pipeline) : Option Pipeline :=
  match p.stopping with
  | .idle => some { p with stopping := .putting p.workers.length, before := p.answers.length }
  | .putting 0 => some { p with stopping := .gathering }
  | .putting (left + 1) =>
    if p.full then none else some { p with queue := p.queue ++ [none], stopping := .putting left }
  | .gathering =>
    if p.workers.contains .failed then some { p with stopping := .raised }
    else if p.workers.all (· == .ended) then some { p with stopping := .returned }
    else none
  | .returned | .raised => none

inductive Action where
  | ingest
  | work (w : ℕ)
  | stop

/-- `none` where the action has to wait. -/
def step (raises : ℕ → Bool) : Action → Pipeline → Option Pipeline
  | .ingest, p => some p.ingest
  | .work w, p => p.work raises w
  | .stop, p => p.stop

def run (raises : ℕ → Bool) : List Action → Pipeline → Option Pipeline
  | [], p => some p
  | a :: actions, p => (step raises a p).bind (run raises actions)

/-! ## What a step does -/

inductive WorkStep (raises : ℕ → Bool) (w : ℕ) (p : Pipeline) : Pipeline → Prop where
  | marker {queue : List (Option ℕ)} (getting : p.workers[w]? = some .getting) (head : p.queue = none :: queue) :
      WorkStep raises w p { p with queue := queue, workers := p.workers.set w .ended }
  | event {i : ℕ} {queue : List (Option ℕ)} (getting : p.workers[w]? = some .getting)
      (head : p.queue = some i :: queue) :
      WorkStep raises w p { p with
        queue := queue
        workers := p.workers.set w (.handling i)
        passed := p.passed ++ [i] }
  | done {i : ℕ} (handling : p.workers[w]? = some (.handling i)) :
      WorkStep raises w p { p with workers := p.workers.set w (if raises i then .failed else .getting) }

theorem work_cases {raises : ℕ → Bool} {w : ℕ} {p p' : Pipeline} (h : p.work raises w = some p') :
    WorkStep raises w p p' := by
  unfold Pipeline.work at h
  split at h
  · next hw =>
    split at h
    · cases h
    · next queue hq =>
      cases h
      exact .marker hw hq
    · next event queue hq =>
      cases h
      exact .event hw hq
  · next event hw =>
    cases h
    exact .done hw
  · cases h

inductive StopStep (p : Pipeline) : Pipeline → Prop where
  | called (idle : p.stopping = .idle) :
      StopStep p { p with stopping := .putting p.workers.length, before := p.answers.length }
  | allPut (putting : p.stopping = .putting 0) : StopStep p { p with stopping := .gathering }
  | put {left : ℕ} (putting : p.stopping = .putting (left + 1)) :
      StopStep p { p with queue := p.queue ++ [none], stopping := .putting left }
  | failed (gathering : p.stopping = .gathering) (worker : .failed ∈ p.workers) :
      StopStep p { p with stopping := .raised }
  | ended (gathering : p.stopping = .gathering) (workers : ∀ x ∈ p.workers, x = .ended) :
      StopStep p { p with stopping := .returned }

theorem stop_cases {p p' : Pipeline} (h : p.stop = some p') : StopStep p p' := by
  unfold Pipeline.stop at h
  split at h
  · next hidle =>
    cases h
    exact .called hidle
  · next hput =>
    cases h
    exact .allPut hput
  · next left hput =>
    split at h
    · cases h
    · cases h
      exact .put hput
  · next hgather =>
    split at h
    · next hfailed =>
      cases h
      exact .failed hgather (List.contains_iff_mem.1 hfailed)
    · split at h
      · next hall =>
        cases h
        exact .ended hgather fun x hx => by simpa using List.all_eq_true.1 hall x hx
      · cases h
  · cases h
  · cases h

/-! ## Accepted events -/

def accepted (answers : List Bool) : List ℕ :=
  (List.range answers.length).filter fun i => answers[i]? = some true

theorem mem_accepted {answers : List Bool} {i : ℕ} : i ∈ accepted answers ↔ answers[i]? = some true := by
  rw [accepted, List.mem_filter, List.mem_range, decide_eq_true_eq]
  refine and_iff_right_of_imp fun h => ?_
  exact (List.getElem?_eq_some_iff.1 h).1

theorem accepted_nodup (answers : List Bool) : (accepted answers).Nodup :=
  List.nodup_range.filter _

theorem accepted_snoc (answers : List Bool) (answer : Bool) :
    accepted (answers ++ [answer]) = accepted answers ++ if answer then [answers.length] else [] := by
  have hold : (List.range answers.length).filter (fun i => (answers ++ [answer])[i]? = some true) =
      accepted answers := by
    refine List.filter_congr fun i hi => ?_
    rw [List.getElem?_append_left (List.mem_range.1 hi)]
  rw [accepted, List.length_append, List.length_singleton, List.range_succ, List.filter_append, hold]
  cases answer <;> simp

/-! ## What every step keeps -/

structure Kept (p : Pipeline) : Prop where
  accounted : accepted p.answers = p.passed ++ p.queue.filterMap id
  /-- no early event is behind a marker -/
  behind : p.queue.Pairwise fun a b => a = none → ∀ i < p.before, b ≠ some i
  ended : .ended ∈ p.workers → ∀ i < p.before, some i ∉ p.queue
  unmarked : p.stopping = .idle → none ∉ p.queue ∧ .ended ∉ p.workers
  before_le : p.before ≤ p.answers.length

theorem ended_of_set {w : ℕ} {x : Worker} (hx : x ≠ .ended) {workers : List Worker}
    (h : .ended ∈ workers.set w x) : .ended ∈ workers :=
  (List.mem_or_eq_of_mem_set h).resolve_right hx.symm

theorem kept_start (maxQueue : ℤ) (n : ℕ) : (start maxQueue n).Kept where
  accounted := rfl
  behind := .nil
  ended _ _ _ := List.not_mem_nil
  unmarked _ := ⟨List.not_mem_nil, fun h => by cases List.eq_of_mem_replicate h⟩
  before_le := Nat.le_refl 0

section Kept
variable {raises : ℕ → Bool} {p p' : Pipeline} (h : p.Kept)
include h

theorem Kept.ingest : p.ingest.Kept := by
  unfold Pipeline.ingest
  split
  · refine ⟨?_, h.behind, h.ended, h.unmarked, ?_⟩
    · rw [accepted_snoc, h.accounted]
      simp
    · rw [List.length_append]
      exact Nat.le_add_right_of_le h.before_le
  · -- the number of the new event is none of an early one
    have hlate : ∀ i < p.before, some i ≠ some p.answers.length := by
      intro i hi heq
      have hle := h.before_le
      cases heq
      omega
    refine ⟨?_, ?_, fun hw i hi hmem => ?_, fun hidle => ⟨?_, (h.unmarked hidle).2⟩, ?_⟩
    · rw [accepted_snoc, h.accounted, List.filterMap_append]
      simp
    · refine List.pairwise_append.2 ⟨h.behind, List.pairwise_singleton .., fun a _ b hb _ i hi => ?_⟩
      rw [List.mem_singleton.1 hb]
      exact (hlate i hi).symm
    · rcases List.mem_append.1 hmem with hold | hnew
      · exact h.ended hw i hi hold
      · exact hlate i hi (List.mem_singleton.1 hnew)
    · simp [(h.unmarked hidle).1]
    · rw [List.length_append]
      exact Nat.le_add_right_of_le h.before_le

theorem Kept.work {w : ℕ} (hstep : p.work raises w = some p') : p'.Kept := by
  obtain ⟨hacc, hbehind, hended, hunmarked, hle⟩ := h
  cases work_cases hstep with
  | @marker queue _ hq =>
    rw [hq] at hacc hbehind hunmarked
    obtain ⟨hearly, hbehind⟩ := List.pairwise_cons.1 hbehind
    refine ⟨hacc, hbehind, fun _ i hi hmem => hearly _ hmem rfl i hi rfl, fun hidle => ?_, hle⟩
    exact ((hunmarked hidle).1 List.mem_cons_self).elim
  | @event event queue _ hq =>
    rw [hq] at hacc hbehind hunmarked hended
    have hold := @ended_of_set w (.handling event) (by simp) p.workers
    refine ⟨?_, (List.pairwise_cons.1 hbehind).2, fun hw i hi hmem => ?_, fun hidle => ⟨?_, ?_⟩, hle⟩
    · simpa using hacc
    · exact hended (hold hw) i hi (List.mem_cons_of_mem _ hmem)
    · exact fun hmem => (hunmarked hidle).1 (List.mem_cons_of_mem _ hmem)
    · exact fun hw => (hunmarked hidle).2 (hold hw)
  | @done event _ =>
    have hold := @ended_of_set w (if raises event then .failed else .getting) (by split <;> simp) p.workers
    exact ⟨hacc, hbehind, fun hw => hended (hold hw),
      fun hidle => ⟨(hunmarked hidle).1, fun hw => (hunmarked hidle).2 (hold hw)⟩, hle⟩

theorem Kept.moved {stopping : Stopping} (hcalled : stopping ≠ .idle) : { p with stopping := stopping }.Kept :=
  ⟨h.accounted, h.behind, h.ended, fun hidle => (hcalled hidle).elim, h.before_le⟩

theorem Kept.stop (hstep : p.stop = some p') : p'.Kept := by
  cases stop_cases hstep with
  | called hidle =>
    -- what is accepted by now comes before the first marker
    obtain ⟨hnone, hworkers⟩ := h.unmarked hidle
    refine ⟨h.accounted, ?_, fun hw => (hworkers hw).elim, nofun, Nat.le_refl _⟩
    exact List.Pairwise.imp_mem.2 (List.pairwise_of_forall fun a b ha _ hmark => (hnone (hmark ▸ ha)).elim)
  | allPut => exact h.moved nofun
  | put =>
    refine ⟨?_, ?_, fun hw i hi hmem => ?_, nofun, h.before_le⟩
    · rw [List.filterMap_append]
      simpa using h.accounted
    · refine List.pairwise_append.2 ⟨h.behind, List.pairwise_singleton .., fun a _ b hb _ i _ => ?_⟩
      rw [List.mem_singleton.1 hb]
      exact Option.some_ne_none i |>.symm
    · rcases List.mem_append.1 hmem with hold | hmark
      · exact h.ended hw i hi hold
      · cases List.mem_singleton.1 hmark
  | failed => exact h.moved nofun
  | ended => exact h.moved nofun

theorem Kept.step {a : Action} (hstep : step raises a p = some p') : p'.Kept := by
  cases a with
  | ingest =>
    cases hstep
    exact h.ingest
  | work w => exact h.work hstep
  | stop => exact h.stop hstep

theorem Kept.run {actions : List Action} (hrun : run raises actions p = some p') : p'.Kept := by
  induction actions generalizing p with
  | nil =>
    cases hrun
    exact h
  | cons a actions ih =>
    obtain ⟨p₁, h₁, hrun⟩ := Option.bind_eq_some_iff.1 hrun
    exact ih (h.step h₁) hrun

end Kept

theorem step_workers {raises : ℕ → Bool} {a : Action} {p p' : Pipeline} (h : step raises a p = some p') :
    p'.workers.length = p.workers.length := by
  cases a with
  | ingest =>
    cases h
    unfold Pipeline.ingest
    split <;> rfl
  | work w =>
    cases work_cases h with
    | marker => exact List.length_set
    | event => exact List.length_set
    | done => exact List.length_set
  | stop =>
    cases stop_cases h with
    | _ => rfl

theorem run_workers {raises : ℕ → Bool} {actions : List Action} {p p' : Pipeline}
    (h : run raises actions p = some p') : p'.workers.length = p.workers.length := by
  induction actions generalizing p with
  | nil =>
    cases h
    rfl
  | cons a actions ih =>
    obtain ⟨p₁, h₁, hrun⟩ := Option.bind_eq_some_iff.1 h
    exact (ih hrun).trans (step_workers h₁)

/-! ## When stop has finished -/

/-- Every event accepted before `stop` was handed to the handler once, and no event that was not accepted
was handed to it. -/
structure NothingLost (p : Pipeline) : Prop where
  once : ∀ i < p.before, p.answers[i]? = some true → p.passed.count i = 1
  refused : ∀ i, p.answers[i]? = some false → i ∉ p.passed

theorem Kept.mem_passed {p : Pipeline} (h : p.Kept) {i : ℕ} (hi : i ∈ p.passed) : p.answers[i]? = some true := by
  rw [← mem_accepted, h.accounted]
  exact List.mem_append_left _ hi

/-- What is not handed over waits in the queue. -/
theorem Kept.nothingLost_iff {p : Pipeline} (h : p.Kept) :
    p.NothingLost ↔ ∀ i < p.before, some i ∉ p.queue := by
  have hnodup := accepted_nodup p.answers
  rw [h.accounted] at hnodup
  obtain ⟨hpassed, -, hapart⟩ := List.nodup_append.1 hnodup
  constructor
  · intro hlost i hi hmem
    have hwaiting : i ∈ p.queue.filterMap id := List.mem_filterMap.2 ⟨some i, hmem, rfl⟩
    have haccepted : p.answers[i]? = some true := by
      rw [← mem_accepted, h.accounted]
      exact List.mem_append_right _ hwaiting
    have hone := hlost.once i hi haccepted
    have hgone : i ∈ p.passed := List.count_pos_iff.1 (by omega)
    exact hapart i hgone i hwaiting rfl
  · intro hqueue
    refine ⟨fun i hi haccepted => ?_, fun i hrefused hi => ?_⟩
    · have hmem := mem_accepted.2 haccepted
      rw [h.accounted] at hmem
      rcases List.mem_append.1 hmem with hgone | hwaiting
      · exact List.count_eq_one_of_mem hpassed hgone
      · obtain ⟨x, hx, hxi⟩ := List.mem_filterMap.1 hwaiting
        obtain rfl : x = some i := hxi
        exact (hqueue i hi hx).elim
    · have haccepted := h.mem_passed hi
      rw [hrefused] at haccepted
      cases haccepted

/-! ## Handlers that raise in time -/

/-- None of the events accepted before `stop` waits. -/
def Drained (p : Pipeline) : Prop := ∀ i < p.before, some i ∉ p.queue

instance (p : Pipeline) : Decidable p.Drained := inferInstanceAs (Decidable (∀ i < p.before, some i ∉ p.queue))

/-- The event on which the handler is done with this action. -/
def concludes (p : Pipeline) : Action → Option ℕ
  | .work w =>
    match p.workers[w]? with
    | some (.handling event) => some event
    | _ => none
  | _ => none

/-- If the handler raises now, `stop` has been called, and leaves it no event to hand over. -/
def Harmless (raises : ℕ → Bool) (a : Action) (p : Pipeline) : Prop :=
  ∀ i ∈ p.concludes a, raises i = true → p.stopping ≠ .idle ∧ p.Drained

instance (raises : ℕ → Bool) (a : Action) (p : Pipeline) : Decidable (Harmless raises a p) :=
  inferInstanceAs (Decidable (∀ i ∈ p.concludes a, raises i = true → p.stopping ≠ .idle ∧ p.Drained))

/-- Every step of the schedule is harmless where it is taken. -/
def AllHarmless (raises : ℕ → Bool) : List Action → Pipeline → Prop
  | [], _ => True
  | a :: actions, p => Harmless raises a p ∧ ∀ p' ∈ step raises a p, AllHarmless raises actions p'

instance decidableAllHarmless (raises : ℕ → Bool) :
    (actions : List Action) → (p : Pipeline) → Decidable (AllHarmless raises actions p)
  | [], _ => .isTrue trivial
  | a :: actions, p =>
    have := decidableAllHarmless raises actions
    inferInstanceAs (Decidable (Harmless raises a p ∧ ∀ p' ∈ step raises a p, AllHarmless raises actions p'))

/-- A worker has failed, or `stop` has finished, only where the early events are handed over. -/
structure InTime (p : Pipeline) : Prop where
  failed : .failed ∈ p.workers → p.stopping ≠ .idle ∧ p.Drained
  finished : p.stopping = .returned ∨ p.stopping = .raised → p.Drained

theorem inTime_start (maxQueue : ℤ) (n : ℕ) : (start maxQueue n).InTime where
  failed h := by cases List.eq_of_mem_replicate h
  finished h := by rcases h with h | h <;> cases h

section InTime
variable {raises : ℕ → Bool} {p p' : Pipeline} (h : p.InTime)
include h

theorem InTime.ingest (hk : p.Kept) : p.ingest.InTime := by
  have hdrained : p.Drained → p.ingest.Drained := by
    intro hd
    unfold Pipeline.ingest
    split
    · exact hd
    · intro i hi hmem
      rcases List.mem_append.1 hmem with hold | hnew
      · exact hd i hi hold
      · have hle := hk.before_le
        cases List.mem_singleton.1 hnew
        exact absurd hi (Nat.not_lt.2 hle)
  have hworkers : p.ingest.workers = p.workers := by
    unfold Pipeline.ingest
    split <;> rfl
  have hstopping : p.ingest.stopping = p.stopping := by
    unfold Pipeline.ingest
    split <;> rfl
  refine ⟨fun hf => ?_, fun hf => ?_⟩
  · rw [hworkers] at hf
    rw [hstopping]
    exact (h.failed hf).imp_right hdrained
  · rw [hstopping] at hf
    exact hdrained (h.finished hf)

theorem InTime.work {w : ℕ} (hgood : Harmless raises (.work w) p) (hstep : p.work raises w = some p') :
    p'.InTime := by
  cases work_cases hstep with
  | @marker queue _ hq =>
    have hdrained : p.Drained → ∀ i < p.before, some i ∉ queue := fun hd i hi hmem =>
      hd i hi (hq ▸ List.mem_cons_of_mem _ hmem)
    refine ⟨fun hf => ?_, fun hf => hdrained (h.finished hf)⟩
    exact (h.failed ((List.mem_or_eq_of_mem_set hf).resolve_right (by simp))).imp_right hdrained
  | @event event queue _ hq =>
    have hdrained : p.Drained → ∀ i < p.before, some i ∉ queue := fun hd i hi hmem =>
      hd i hi (hq ▸ List.mem_cons_of_mem _ hmem)
    refine ⟨fun hf => ?_, fun hf => hdrained (h.finished hf)⟩
    exact (h.failed ((List.mem_or_eq_of_mem_set hf).resolve_right (by simp))).imp_right hdrained
  | @done event hw =>
    refine ⟨fun hf => ?_, h.finished⟩
    rcases List.mem_or_eq_of_mem_set hf with hold | hnew
    · exact h.failed hold
    · refine hgood event ?_ ?_
      · simp only [concludes, hw, Option.mem_some_iff]
      · by_contra hno
        rw [if_neg hno] at hnew
        cases hnew

theorem InTime.stop (hk : p.Kept) (hworkers : p.workers ≠ []) (hstep : p.stop = some p') : p'.InTime := by
  cases stop_cases hstep with
  | called hidle => exact ⟨fun hf => ((h.failed hf).1 hidle).elim, fun hf => by rcases hf with hf | hf <;> cases hf⟩
  | allPut =>
    exact ⟨fun hf => ⟨by simp, (h.failed hf).2⟩, fun hf => by rcases hf with hf | hf <;> cases hf⟩
  | put =>
    refine ⟨fun hf => ⟨by simp, fun i hi hmem => ?_⟩, fun hf => by rcases hf with hf | hf <;> cases hf⟩
    rcases List.mem_append.1 hmem with hold | hmark
    · exact (h.failed hf).2 i hi hold
    · cases List.mem_singleton.1 hmark
  | failed _ hworker => exact ⟨fun _ => ⟨by simp, (h.failed hworker).2⟩, fun _ => (h.failed hworker).2⟩
  | ended _ hall =>
    -- all workers met their markers, so one did
    obtain ⟨x, hx⟩ := List.exists_mem_of_ne_nil _ hworkers
    have hdrained : p.Drained := hk.ended (hall x hx ▸ hx)
    exact ⟨fun _ => ⟨by simp, hdrained⟩, fun _ => hdrained⟩

theorem InTime.step {a : Action} (hk : p.Kept) (hworkers : p.workers ≠ []) (hgood : Harmless raises a p)
    (hstep : step raises a p = some p') : p'.InTime := by
  cases a with
  | ingest =>
    cases hstep
    exact h.ingest hk
  | work w => exact h.work hgood hstep
  | stop => exact h.stop hk hworkers hstep

theorem InTime.run {actions : List Action} (hk : p.Kept) (hworkers : p.workers ≠ [])
    (hgood : AllHarmless raises actions p) (hrun : run raises actions p = some p') : p'.InTime := by
  induction actions generalizing p with
  | nil =>
    cases hrun
    exact h
  | cons a actions ih =>
    obtain ⟨p₁, h₁, hrun⟩ := Option.bind_eq_some_iff.1 hrun
    have hlength := step_workers h₁
    refine ih (h.step hk hworkers hgood.1 h₁) (hk.step h₁) (fun hnil => hworkers ?_) (hgood.2 p₁ h₁) hrun
    rw [hnil] at hlength
    exact List.length_eq_zero_iff.1 hlength.symm

end InTime

/-- **When `stop` loses no accepted event.** For every queue bound, every number of workers from one on, every
handler and every schedule: if each handler call that raises does so after `stop` was called and when none of
the events accepted before `stop` waits in the queue, then nothing is lost where `stop` has finished. -/
theorem stop_loses_nothing {raises : ℕ → Bool} {maxQueue : ℤ} {n : ℕ} (hn : 1 ≤ n) {actions : List Action}
    {p : Pipeline} (hgood : AllHarmless raises actions (start maxQueue n))
    (hrun : run raises actions (start maxQueue n) = some p)
    (hfinished : p.stopping = .returned ∨ p.stopping = .raised) : p.NothingLost := by
  have hworkers : (start maxQueue n).workers ≠ [] := by
    intro hnil
    have hzero : n = 0 := (List.replicate_eq_nil_iff _).1 hnil
    omega
  have hstart := kept_start maxQueue n
  exact (hstart.run hrun).nothingLost_iff.2
    (((inTime_start maxQueue n).run hstart hworkers hgood hrun).finished hfinished)

/-- Two events are accepted, one worker takes the first, and `stop` puts its marker. -/
def twoEvents : List Action := [.ingest, .ingest, .work 0, .work 0, .stop, .stop, .stop]

/-- The handler raises on the last event: `stop` raises, and both were handled. -/
theorem twoEvents_handled :
    ∃ p, run (· = 1) (twoEvents ++ [.work 0, .work 0, .stop]) (start 10000 1) = some p ∧
      p.stopping = .raised ∧ p.passed = [0, 1] ∧ p.NothingLost := by
  have hrun : run (· = 1) (twoEvents ++ [.work 0, .work 0, .stop]) (start 10000 1) =
      some ⟨10000, [none], [.failed], 0, .raised, [true, true], [0, 1], 2⟩ := rfl
  exact ⟨_, hrun, rfl, rfl, stop_loses_nothing (Nat.le_refl 1) (by decide) hrun (.inr rfl)⟩

/-- **The handler raises on the first event: `stop` raises and the second is never handled.** -/
theorem twoEvents_lost :
    ∃ p p', run (· = 0) twoEvents (start 10000 1) = some p ∧ step (· = 0) .stop p = some p' ∧
      p'.stopping = .raised ∧ p'.answers = [true, true] ∧ p'.before = 2 ∧ p'.passed = [0] ∧ ¬ p'.NothingLost := by
  refine ⟨_, _, rfl, rfl, rfl, rfl, rfl, rfl, fun h => ?_⟩
  exact absurd (h.once 1 (by decide) rfl) (by decide)

end Pipeline
end LineageVault
