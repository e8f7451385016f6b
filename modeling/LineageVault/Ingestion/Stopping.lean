import LineageVault.Ingestion.Pipeline
import Mathlib.Data.List.Count

/-! # When `stop` of `ingestion/pipeline.py` comes to an end

Without further `ingest` calls the workers and `stop` have a bounded number of steps left (`remaining`). When
none is possible any more, `stop` has finished, or it waits to put a marker into a full queue that no worker
reads: every worker has ended or failed (`Hung`). This happens only after a handler raised, and nothing ends
it (`stop_finishes`).
-/

namespace LineageVault
set_option autoImplicit false

/-! ## The steps that are left -/

def Worker.busy : Worker → Bool
  | .handling _ => true
  | _ => false

/-- A marker has to be put and taken, each time in a step. -/
def Stopping.remaining (workers : ℕ) : Stopping → ℕ
  | .idle => 3 * workers + 3
  | .putting left => 3 * left + 2
  | .gathering => 1
  | .returned => 0
  | .raised => 0

/-- The markers that `stop` has still to put. -/
def Stopping.owed (workers : ℕ) : Stopping → ℕ
  | .idle => workers
  | .putting left => left
  | _ => 0

namespace Pipeline

def remaining (p : Pipeline) : ℕ :=
  2 * p.queue.length + p.workers.countP Worker.busy + p.stopping.remaining p.workers.length

/-- No worker can take a step, nor can `stop`. -/
def Stuck (raises : ℕ → Bool) (p : Pipeline) : Prop := p.stop = none ∧ ∀ w, p.work raises w = none

/-- `stop` waits in `put`, and nobody reads. -/
structure Hung (p : Pipeline) : Prop where
  putting : ∃ left, p.stopping = .putting (left + 1)
  full : p.full = true
  unread : ∀ x ∈ p.workers, x = .ended ∨ x = .failed

variable {raises : ℕ → Bool} {p p' : Pipeline}

/-! ## Counting workers -/

theorem set_split {α : Type} {xs : List α} {i : ℕ} {x : α} (h : xs[i]? = some x) :
    ∃ l r, xs = l ++ x :: r ∧ ∀ y, xs.set i y = l ++ y :: r := by
  obtain ⟨hi, rfl⟩ := List.getElem?_eq_some_iff.1 h
  refine ⟨xs.take i, xs.drop (i + 1), ?_, fun y => ?_⟩
  · rw [← List.drop_eq_getElem_cons hi, List.take_append_drop]
  · exact List.set_eq_take_append_cons_drop.trans (if_pos hi)

theorem countP_set {workers : List Worker} {w : ℕ} {x : Worker} (h : workers[w]? = some x) (f : Worker → Bool)
    (y : Worker) : (workers.set w y).countP f + (f x).toNat = workers.countP f + (f y).toNat := by
  obtain ⟨l, r, hsplit, hset⟩ := set_split h
  have hif : ∀ c : Bool, (if c = true then 1 else 0) = c.toNat := by
    intro c
    cases c <;> rfl
  rw [hset, hsplit, List.countP_append, List.countP_append, List.countP_cons, List.countP_cons, hif, hif]
  omega

theorem count_ended {workers : List Worker} {w : ℕ} {x : Worker} (h : workers[w]? = some x) (hx : x ≠ .ended)
    (y : Worker) : (workers.set w y).count .ended = workers.count .ended + (y == .ended).toNat := by
  have hcount := countP_set h (· == .ended) y
  rw [beq_false_of_ne hx] at hcount
  exact hcount

/-! ## No schedule goes on -/

theorem remaining_work {w : ℕ} (h : p.work raises w = some p') : p'.remaining < p.remaining := by
  cases work_cases h with
  | marker hw hq =>
    have hcount := countP_set hw Worker.busy .ended
    simp only [Worker.busy, Bool.toNat_false] at hcount
    simp only [remaining, hq, List.length_set, List.length_cons]
    omega
  | @event i queue hw hq =>
    have hcount := countP_set hw Worker.busy (.handling i)
    simp only [Worker.busy, Bool.toNat_false, Bool.toNat_true] at hcount
    simp only [remaining, hq, List.length_set, List.length_cons]
    omega
  | @done i hw =>
    have hcount := countP_set hw Worker.busy (if raises i then .failed else .getting)
    have hfree : Worker.busy (if raises i then .failed else .getting) = false := by
      split <;> rfl
    rw [hfree, Worker.busy, Bool.toNat_false, Bool.toNat_true] at hcount
    simp only [remaining, List.length_set]
    omega

theorem remaining_stop (h : p.stop = some p') : p'.remaining < p.remaining := by
  cases stop_cases h with
  | called hidle => simp only [remaining, hidle, Stopping.remaining]; omega
  | allPut hput => simp only [remaining, hput, Stopping.remaining]; omega
  | put hput =>
    simp only [remaining, hput, Stopping.remaining, List.length_append, List.length_singleton]
    omega
  | failed hgather => simp only [remaining, hgather, Stopping.remaining]; omega
  | ended hgather => simp only [remaining, hgather, Stopping.remaining]; omega

/-- A schedule of the workers and of `stop` alone. -/
def Quiet (actions : List Action) : Prop := ∀ a ∈ actions, a ≠ .ingest

theorem remaining_run {actions : List Action} (hquiet : Quiet actions) (h : run raises actions p = some p') :
    actions.length + p'.remaining ≤ p.remaining := by
  induction actions generalizing p with
  | nil =>
    cases h
    simp
  | cons a actions ih =>
    obtain ⟨p₁, h₁, hrest⟩ := Option.bind_eq_some_iff.1 h
    have hle := ih (fun b hb => hquiet b (List.mem_cons_of_mem _ hb)) hrest
    have hlt : p₁.remaining < p.remaining := by
      cases a with
      | ingest => exact (hquiet _ List.mem_cons_self rfl).elim
      | work w => exact remaining_work h₁
      | stop => exact remaining_stop h₁
    rw [List.length_cons]
    omega

/-! ## What every step keeps -/

structure Marked (raises : ℕ → Bool) (p : Pipeline) : Prop where
  /-- each marker of `stop` is owed, in the queue or taken -/
  markers : p.queue.count none + p.workers.count .ended + p.stopping.owed p.workers.length = p.workers.length
  failed : .failed ∈ p.workers → ∃ i ∈ p.passed, raises i = true
  handled : ∀ i, .handling i ∈ p.workers → i ∈ p.passed

theorem marked_start (maxQueue : ℤ) (n : ℕ) : (start maxQueue n).Marked raises where
  markers := by
    have hended : (List.replicate n Worker.getting).count .ended = 0 :=
      List.count_eq_zero.2 fun h => by cases List.eq_of_mem_replicate h
    simp [start, hended, Stopping.owed]
  failed h := by cases List.eq_of_mem_replicate h
  handled i h := by cases List.eq_of_mem_replicate h

theorem Marked.ingest (h : p.Marked raises) : p.ingest.Marked raises := by
  unfold Pipeline.ingest
  split
  · exact ⟨h.markers, h.failed, h.handled⟩
  · refine ⟨?_, h.failed, h.handled⟩
    rw [List.count_append]
    exact h.markers

theorem Marked.work (h : p.Marked raises) {w : ℕ} (hstep : p.work raises w = some p') : p'.Marked raises := by
  obtain ⟨hmarkers, hfailed, hhandled⟩ := h
  cases work_cases hstep with
  | @marker queue hw hq =>
    refine ⟨?_, fun hf => ?_, fun i hi => ?_⟩
    · have hcount : (p.workers.set w .ended).count .ended = p.workers.count .ended + 1 :=
        count_ended hw (by simp) .ended
      rw [hq, List.count_cons_self] at hmarkers
      simp only [List.length_set]
      omega
    · exact hfailed ((List.mem_or_eq_of_mem_set hf).resolve_right (by simp))
    · exact hhandled i ((List.mem_or_eq_of_mem_set hi).resolve_right (by simp))
  | @event i queue hw hq =>
    refine ⟨?_, fun hf => ?_, fun j hj => ?_⟩
    · have hcount : (p.workers.set w (.handling i)).count .ended = p.workers.count .ended :=
        count_ended hw (by simp) (.handling i)
      rw [hq, List.count_cons_of_ne (by simp)] at hmarkers
      simp only [List.length_set]
      omega
    · obtain ⟨j, hj, hraises⟩ := hfailed ((List.mem_or_eq_of_mem_set hf).resolve_right (by simp))
      exact ⟨j, List.mem_append_left _ hj, hraises⟩
    · rcases List.mem_or_eq_of_mem_set hj with hold | hnew
      · exact List.mem_append_left _ (hhandled j hold)
      · cases hnew
        exact List.mem_append_right _ List.mem_cons_self
  | @done i hw =>
    have hpassed : i ∈ p.passed := hhandled i (List.mem_of_getElem? hw)
    refine ⟨?_, fun hf => ?_, fun j hj => ?_⟩
    · have hcount : (p.workers.set w (if raises i then .failed else .getting)).count .ended =
          p.workers.count .ended := by
        refine (count_ended hw (by simp) _).trans ?_
        split <;> rfl
      simp only [List.length_set]
      omega
    · rcases List.mem_or_eq_of_mem_set hf with hold | hnew
      · exact hfailed hold
      · refine ⟨i, hpassed, ?_⟩
        by_contra hno
        rw [if_neg hno] at hnew
        cases hnew
    · refine hhandled j ((List.mem_or_eq_of_mem_set hj).resolve_right ?_)
      split <;> simp

theorem Marked.stop (h : p.Marked raises) (hstep : p.stop = some p') : p'.Marked raises := by
  obtain ⟨hmarkers, hfailed, hhandled⟩ := h
  cases stop_cases hstep with
  | called hidle =>
    rw [hidle] at hmarkers
    exact ⟨hmarkers, hfailed, hhandled⟩
  | allPut hput =>
    rw [hput] at hmarkers
    exact ⟨hmarkers, hfailed, hhandled⟩
  | @put left hput =>
    refine ⟨?_, hfailed, hhandled⟩
    rw [hput] at hmarkers
    simp only [Stopping.owed, List.count_append, List.count_singleton_self] at hmarkers ⊢
    omega
  | failed hgather =>
    rw [hgather] at hmarkers
    exact ⟨hmarkers, hfailed, hhandled⟩
  | ended hgather =>
    rw [hgather] at hmarkers
    exact ⟨hmarkers, hfailed, hhandled⟩

theorem Marked.run (h : p.Marked raises) {actions : List Action} (hrun : run raises actions p = some p') :
    p'.Marked raises := by
  induction actions generalizing p with
  | nil =>
    cases hrun
    exact h
  | cons a actions ih =>
    obtain ⟨p₁, h₁, hrest⟩ := Option.bind_eq_some_iff.1 hrun
    refine ih ?_ hrest
    cases a with
    | ingest =>
      cases h₁
      exact h.ingest
    | work w => exact h.work h₁
    | stop => exact h.stop h₁

/-! ## When no step is possible -/

theorem Stuck.worker (h : p.Stuck raises) {x : Worker} (hx : x ∈ p.workers) :
    (x = .getting ∧ p.queue = []) ∨ x = .ended ∨ x = .failed := by
  obtain ⟨w, hw⟩ := List.mem_iff_getElem?.1 hx
  have hwork := h.2 w
  rw [Pipeline.work, hw] at hwork
  cases x with
  | getting =>
    refine .inl ⟨rfl, ?_⟩
    rcases hq : p.queue with - | ⟨- | i, queue⟩
    · rfl
    · simp [hq] at hwork
    · simp [hq] at hwork
  | handling i => cases hwork
  | ended => exact .inr (.inl rfl)
  | failed => exact .inr (.inr rfl)

/-- A worker that reads would get the marker of some worker that has ended. -/
theorem Stuck.not_gathering (h : p.Stuck raises) (hm : p.Marked raises) : p.stopping ≠ .gathering := by
  intro hgather
  have hstop := h.1
  rw [Pipeline.stop, hgather] at hstop
  simp only at hstop
  split at hstop
  · cases hstop
  · next hfailed =>
    split at hstop
    · cases hstop
    · next hall =>
      refine hall (List.all_eq_true.2 fun x hx => ?_)
      rcases h.worker hx with ⟨-, hempty⟩ | rfl | rfl
      · have hmarkers := hm.markers
        rw [hempty, hgather] at hmarkers
        simp only [List.count_nil, Stopping.owed, Nat.zero_add, Nat.add_zero] at hmarkers
        exact beq_iff_eq.2 (List.count_eq_length.1 hmarkers x hx).symm
      · rfl
      · exact (hfailed (List.contains_iff_mem.2 hx)).elim

theorem Stuck.hung (h : p.Stuck raises) (hm : p.Marked raises) {left : ℕ} (hput : p.stopping = .putting left) :
    p.Hung ∧ .failed ∈ p.workers := by
  have hstop := h.1
  rw [Pipeline.stop, hput] at hstop
  cases left with
  | zero => cases hstop
  | succ left =>
    have hfull : p.full = true := by
      by_contra hroom
      simp [hroom] at hstop
    have hwaiting : p.queue ≠ [] := by
      intro hempty
      rw [full, hempty, Bool.and_eq_true, decide_eq_true_eq, decide_eq_true_eq] at hfull
      obtain ⟨hpos, hle⟩ := hfull
      rw [List.length_nil] at hle
      omega
    have hunread : ∀ x ∈ p.workers, x = .ended ∨ x = .failed :=
      fun x hx => (h.worker hx).resolve_left fun hget => hwaiting hget.2
    refine ⟨⟨⟨left, hput⟩, hfull, hunread⟩, ?_⟩
    by_contra hnone
    have hended : p.workers.count .ended = p.workers.length := by
      refine List.count_eq_length.2 fun x hx => ?_
      exact ((hunread x hx).resolve_right fun hf => hnone (hf ▸ hx)).symm
    have hmarkers := hm.markers
    rw [hput, hended] at hmarkers
    simp only [Stopping.owed] at hmarkers
    omega

/-- Nothing ends it: not even an `ingest`, which is refused. -/
theorem Hung.step (h : p.Hung) {a : Action} (hstep : step raises a p = some p') : p'.Hung := by
  obtain ⟨⟨left, hput⟩, hfull, hunread⟩ := h
  cases a with
  | ingest =>
    cases hstep
    rw [Pipeline.ingest, if_pos hfull]
    exact ⟨⟨left, hput⟩, hfull, hunread⟩
  | work w =>
    have hdead : ∀ x, p.workers[w]? = some x → x = .ended ∨ x = .failed :=
      fun x hx => hunread x (List.mem_of_getElem? hx)
    cases work_cases hstep with
    | marker hw => rcases hdead _ hw with h | h <;> cases h
    | event hw => rcases hdead _ hw with h | h <;> cases h
    | done hw => rcases hdead _ hw with h | h <;> cases h
  | stop =>
    simp [Pipeline.step, Pipeline.stop, hput, hfull] at hstep

theorem Hung.run (h : p.Hung) {actions : List Action} (hrun : run raises actions p = some p') : p'.Hung := by
  induction actions generalizing p with
  | nil =>
    cases hrun
    exact h
  | cons a actions ih =>
    obtain ⟨p₁, h₁, hrest⟩ := Option.bind_eq_some_iff.1 hrun
    exact ih (h.step h₁) hrest

/-- **How `stop` ends.** For every queue bound, number of workers, handler and schedule: without further
`ingest` calls only `remaining` steps are left; where none of them is possible, `stop` has finished or hangs,
and it hangs only after the handler raised on an event; and once it hangs, no schedule of any steps ends it. -/
theorem stop_finishes {maxQueue : ℤ} {n : ℕ} {actions : List Action}
    (hrun : run raises actions (start maxQueue n) = some p) :
    (∀ more p', Quiet more → run raises more p = some p' → more.length ≤ p.remaining) ∧
      (p.Stuck raises → p.stopping = .returned ∨ p.stopping = .raised ∨
        (p.Hung ∧ ∃ i ∈ p.passed, raises i = true)) ∧
      (p.Hung → ∀ more p', run raises more p = some p' → p'.Hung) := by
  have hm := (marked_start maxQueue n).run hrun
  refine ⟨fun more p' hquiet h => ?_, fun hstuck => ?_, fun hhung more p' h => hhung.run h⟩
  · have hle := remaining_run hquiet h
    omega
  · cases hstopping : p.stopping with
    | idle =>
      have hstop := hstuck.1
      rw [Pipeline.stop, hstopping] at hstop
      cases hstop
    | putting left =>
      obtain ⟨hhung, hfailed⟩ := hstuck.hung hm hstopping
      exact .inr (.inr ⟨hhung, hm.failed hfailed⟩)
    | gathering => exact (hstuck.not_gathering hm hstopping).elim
    | returned => exact .inl rfl
    | raised => exact .inr (.inl rfl)

/-- One place in the queue, one worker, which fails on the first event; the second takes the place. -/
def lastPlace : List Action := [.ingest, .work 0, .work 0, .ingest, .stop]

/-- **`stop` never finishes**, whatever happens then. -/
theorem lastPlace_hangs :
    ∃ p, run (· = 0) lastPlace (start 1 1) = some p ∧
      ∀ more p', run (· = 0) more p = some p' → p'.stopping ≠ .returned ∧ p'.stopping ≠ .raised := by
  have hrun : run (· = 0) lastPlace (start 1 1) =
      some ⟨1, [some 1], [.failed], 0, .putting 1, [true, true], [0], 2⟩ := rfl
  obtain ⟨-, hends, hforever⟩ := stop_finishes hrun
  refine ⟨_, hrun, fun more p' hmore => ?_⟩
  obtain h | h | ⟨hhung, -⟩ := hends ⟨rfl, fun w => by cases w <;> rfl⟩
  · cases h
  · cases h
  · obtain ⟨left, hput⟩ := (hforever hhung more p' hmore).putting
    rw [hput]
    simp

end Pipeline
end LineageVault
