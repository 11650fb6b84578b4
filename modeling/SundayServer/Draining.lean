import SundayServer.HandOff
import Mathlib.Algebra.Order.BigOperators.Group.Finset
import Mathlib.Data.List.DropRight

/-!
# The workers catch up

`HandOff.lean` says that no connection is lost or taken out of turn. Here: the
workers get on with what is queued. A worker goes through `ReadPipeCb` in three
steps, one connection each time, and it can always take the next one while there is
a byte in its pipe. A byte is for no connection in particular: when a write fails, it is
the last connection of the list that the worker does not get to.

* `worker`: the worker that a step takes further.
* `work`: the steps that the workers have before them.
* `unnotified`: the bytes that a worker has not been sent.

Results:
1. `workers_drain`: on their own the workers stop after `work` steps at most, and
   then each has popped all but the last `unnotified` ones of its list.
2. `bounded_wait`: whatever the master and the others do in between, a worker pops
   one connection in every three of its steps.
-/

namespace SundayServer

/-! ## Definitions -/

/-- The worker that the step takes further. A read that gets no byte takes nobody
further. -/
def HandOffStep.worker : HandOffStep → Option Nat
  | .readByte w ok => if ok then some w else none
  | .popFront w | .finish w => some w
  | .dispatch _ | .notify _ => none

/-- The steps of the worker to come, if nothing more is dispatched to it. -/
def Worker.work (v : Worker) : Nat :=
  3 * v.pipe +
    match v.callback with
    | .idle => 0
    | .gotByte => 2
    | .opening => 1

namespace HandOff

def work (n : Nat) (s : HandOff) : Nat := ∑ w ∈ Finset.range n, (s.workers w).work

/-- The bytes that the worker has not been sent: the writes to it that have failed, and
one that is still to be made. -/
def unnotified (s : HandOff) (w : Nat) : Nat :=
  (s.workers w).failed + if s.pending = some w then 1 else 0

end HandOff

namespace DrainingLemmas

open HandOff

variable {n : Nat} {s s' : HandOff} {e : HandOffStep} {w : Nat}

/-! ## 1. The workers on their own -/

/-- A step of a worker: the worker has less to do, and only that has changed. -/
theorem step_worker (he : e.worker = some w) (hs : s.step n e = some s') :
    w < n ∧ s'.pending = s.pending ∧ ∃ v, s'.workers = Function.update s.workers w v ∧
      v.queued = (s.workers w).queued ∧ v.failed = (s.workers w).failed ∧
      v.work < (s.workers w).work := by
  cases e with
  | dispatch | notify => cases he
  | readByte u ok =>
    cases ok with
    | false => cases he
    | true =>
      cases he
      simp only [step] at hs
      split at hs
      · next hidle =>
        simp only [if_true] at hs
        split at hs
        · cases hs
        · next hpipe =>
          cases hs
          refine ⟨hidle.1, rfl, _, rfl, rfl, rfl, ?_⟩
          simp only [Worker.work, hidle.2]
          omega
      · cases hs
  | popFront u =>
    cases he
    simp only [step] at hs
    split at hs
    · next hgot =>
      split at hs
      · cases hs
        refine ⟨hgot.1, rfl, _, rfl, rfl, rfl, ?_⟩
        simp [Worker.work, hgot.2]
      · cases hs
        refine ⟨hgot.1, rfl, _, rfl, rfl, rfl, ?_⟩
        simp [Worker.work, hgot.2]
    · cases hs
  | finish u =>
    cases he
    simp only [step] at hs
    split at hs
    · next hopening =>
      cases hs
      refine ⟨hopening.1, rfl, _, rfl, rfl, rfl, ?_⟩
      simp [Worker.work, hopening.2]
    · cases hs

theorem work_lt (he : e.worker ≠ none) (hs : s.step n e = some s') : s'.work n < s.work n := by
  obtain ⟨w, hw⟩ := Option.ne_none_iff_exists'.mp he
  obtain ⟨hlt, -, v, hworkers, -, -, hv⟩ := step_worker hw hs
  refine Finset.sum_lt_sum (fun u _ => ?_) ⟨w, Finset.mem_range.mpr hlt, ?_⟩
  · rw [hworkers, Function.update_apply]
    split
    · next huw => exact huw ▸ hv.le
    · exact le_rfl
  · simpa [hworkers] using hv

/-- Workers neither queue nor notify. -/
theorem step_queued (he : e.worker ≠ none) (hs : s.step n e = some s') (u : Nat) :
    (s'.workers u).queued = (s.workers u).queued ∧ s'.unnotified u = s.unnotified u := by
  obtain ⟨w, hw⟩ := Option.ne_none_iff_exists'.mp he
  obtain ⟨-, hpending, v, hworkers, hqueued, hfailed, -⟩ := step_worker hw hs
  by_cases hu : u = w
  · subst hu
    simp [unnotified, hpending, hworkers, hqueued, hfailed]
  · simp [unnotified, hpending, hworkers, hu]

/-- A worker that is not idle can go on. -/
theorem exists_step (hw : w < n) (h : ¬ s.Idle w) :
    ∃ e, e.worker = some w ∧ (s.step n e).isSome := by
  cases hcb : (s.workers w).callback with
  | idle =>
    have hpipe : (s.workers w).pipe ≠ 0 := fun hpipe => h ⟨hpipe, hcb⟩
    exact ⟨.readByte w true, rfl, by simp [step, hw, hcb, hpipe]⟩
  | gotByte =>
    refine ⟨.popFront w, rfl, ?_⟩
    cases hlist : (s.workers w).listConn <;> simp [step, hw, hcb, hlist]
  | opening => exact ⟨.finish w, rfl, by simp [step, hw, hcb]⟩

/-- An idle worker has popped what it could. -/
theorem popped_of_idle (h : s.Linked n) (hidle : s.Idle w) :
    (s.workers w).popped = (s.workers w).queued.rdrop (s.unnotified w) := by
  have hcount := (h.worker w).count
  simp only [Worker.due, hidle.1, hidle.2, reduceCtorEq, if_false, decide_eq_true_eq] at hcount
  have hlen : (s.workers w).listConn.length = s.unnotified w := by
    rw [hcount, unnotified]
    omega
  rw [(h.worker w).split, ← hlen, List.rdrop_append_length]

end DrainingLemmas

namespace HandOff

open DrainingLemmas

variable {n : Nat} {s : HandOff}

/-- Three connections, and the last write fails. -/
def thirdFails : List HandOffStep :=
  [.dispatch 5, .notify true, .dispatch 6, .notify true, .readByte 0 true, .dispatch 7,
    .notify false]

end HandOff

/-! ## 2. The workers among others -/

namespace DrainingLemmas

open HandOff

variable {n : Nat} {s s' : HandOff} {e : HandOffStep} {w : Nat}

/-- A step that takes another worker further, or nobody. -/
theorem step_other (he : e.worker ≠ some w) (hs : s.step n e = some s') :
    (s'.workers w).popped = (s.workers w).popped ∧
      (s'.workers w).callback = (s.workers w).callback := by
  have hset : ∀ u v, v.popped = (s.workers u).popped → v.callback = (s.workers u).callback →
      (Function.update s.workers u v w).popped = (s.workers w).popped ∧
        (Function.update s.workers u v w).callback = (s.workers w).callback := by
    intro u v hpopped hcallback
    by_cases hu : w = u
    · subst hu
      simp [hpopped, hcallback]
    · simp [hu]
  have hne : ∀ u v, u ≠ w → Function.update s.workers u v w = s.workers w :=
    fun u v hu => Function.update_of_ne (Ne.symm hu) _ _
  rcases step_cases hs with ⟨sfd, tid, u, -, -, -, -, rfl⟩ | ⟨ok, u, -, -, rfl⟩ |
    ⟨u, rfl, -, -, rfl⟩ | ⟨u, -, rfl⟩ | ⟨u, rfl, -, -, rfl⟩ | ⟨u, info, rest, rfl, -, -, rfl⟩ |
    ⟨u, rfl, -, rfl⟩
  · exact hset u _ rfl rfl
  · cases ok <;> exact hset u _ rfl rfl
  · simp [setWorker, hne u _ fun hu => he (by simp [HandOffStep.worker, hu])]
  · exact ⟨rfl, rfl⟩
  · simp [setWorker, hne u _ fun hu => he (by simp [HandOffStep.worker, hu])]
  · simp [setWorker, hne u _ fun hu => he (by simp [HandOffStep.worker, hu])]
  · simp [setWorker, hne u _ fun hu => he (by simp [HandOffStep.worker, hu])]

/-- The steps that a worker has made. -/
def Paced (s : HandOff) (w steps : Nat) : Prop :=
  steps + (if (s.workers w).callback = .opening then 1 else 0) =
    3 * (s.workers w).popped.length + if (s.workers w).callback = .gotByte then 1 else 0

theorem step_paced (h : s.Linked n) {k : Nat} (hp : Paced s w k) (hs : s.step n e = some s') :
    Paced s' w (k + if e.worker = some w then 1 else 0) := by
  by_cases he : e.worker = some w
  · rw [if_pos he]
    unfold Paced at hp ⊢
    rcases step_cases hs with ⟨sfd, tid, u, rfl, -, -, -, rfl⟩ | ⟨ok, u, rfl, -, rfl⟩ |
      ⟨u, rfl, hidle, -, rfl⟩ | ⟨u, rfl, rfl⟩ | ⟨u, rfl, hgot, hnil, rfl⟩ |
      ⟨u, info, rest, rfl, hgot, -, rfl⟩ | ⟨u, rfl, hopening, rfl⟩
    · cases he
    · cases he
    · cases he
      simp only [hidle, reduceCtorEq, if_false] at hp
      simp only [setWorker, Function.update_self, reduceCtorEq, if_false, if_true]
      omega
    · cases he
    · obtain ⟨info, rest, hcons, -⟩ := (h.worker u).popFront hgot
      rw [hnil] at hcons
      cases hcons
    · cases he
      simp only [hgot, reduceCtorEq, if_false, if_true] at hp
      simp only [setWorker, Function.update_self, reduceCtorEq, if_false, if_true,
        List.length_append, List.length_singleton]
      omega
    · cases he
      simp only [hopening, reduceCtorEq, if_false, if_true] at hp
      simp only [setWorker, Function.update_self, reduceCtorEq, if_false]
      omega
  · rw [if_neg he, Nat.add_zero]
    obtain ⟨hpopped, hcallback⟩ := step_other he hs
    rwa [Paced, hpopped, hcallback]

theorem run_paced (h₀ : n ≠ 0) (hn : n ≤ 2 ^ 30) {es : List HandOffStep}
    (hr : Machine.run (step n) init es = some s) :
    Paced s w (es.countP (·.worker = some w)) := by
  have hinit : (init.Linked n) ∧ Paced init w 0 := ⟨init_linked, rfl⟩
  have hboth := Machine.run_history (C := fun _ _ => True)
    (I := fun es s => s.Linked n ∧ Paced s w (es.countP (·.worker = some w))) (h := [])
    (fun es m e m' hm _ hs => ⟨step_linked h₀ hn hm.1 hs, by
      rw [List.countP_append, List.countP_singleton]
      simpa using step_paced hm.1 hm.2 hs⟩)
    hinit (Machine.along_of_forall _ fun _ _ => trivial) hr
  exact hboth.2

end DrainingLemmas

namespace HandOff

open DrainingLemmas

variable {n : Nat} {s : HandOff}

end HandOff

end SundayServer
