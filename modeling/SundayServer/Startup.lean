import SundayServer.Dispatch
import SundayServer.Lib.Machine

/-!
# The start-up rendezvous

Each worker runs `RegisterThreadInitialized`: under `init_lock_` it counts
itself and, when it is the last one, signals `init_cond_`. The master runs
`WaitForThreadRegistration`: it takes the lock and waits, once, without looking
at the count.

The steps are the critical sections, the release-and-wait of the condition
variable, a spurious wake-up and the return. A signal wakes the master only
while it is waiting.

Results:
1. `step_progress`: what every step keeps when the master waits in time and
   sleeps long enough.
2. `rendezvous`: in runs of such steps the master returns after the last worker
   and is not left waiting; and any other step leads to a state where it is
   wrong.
-/

namespace SundayServer

/-! ## Definitions -/

/-- Where the master is in `WaitForThreadRegistration`. -/
inductive Master
  /-- It has not entered `pthread_cond_wait`. -/
  | starting
  | waiting
  /-- It has been woken and has not returned. -/
  | woken
  | returned
deriving DecidableEq, Repr

/-- `init_count_`, the workers that have registered, and the master. -/
structure Startup where
  initCount : Int
  registered : List Nat
  master : Master
deriving DecidableEq, Repr

/-- The threads have been created. -/
def Startup.init : Startup := ⟨0, [], .starting⟩

/-- The atomic steps. -/
inductive StartupStep
  /-- `RegisterThreadInitialized` of the worker `i`. -/
  | register (i : Nat)
  /-- The master takes the lock, releases it and waits. -/
  | enterWait
  /-- A spurious wake-up. -/
  | wake
  /-- The master takes the lock again and returns. -/
  | leaveWait
deriving DecidableEq, Repr

namespace Startup

/-- `pthread_cond_signal`. -/
def signal : Master → Master
  | .waiting => .woken
  | m => m

/-- The step function for `thread_num_ = n`. -/
def step (n : Nat) (s : Startup) : StartupStep → Option Startup
  | .register i =>
    if i < n ∧ i ∉ s.registered then
      some { initCount := s.initCount + 1, registered := i :: s.registered,
             master := if s.initCount + 1 = toInt n then signal s.master else s.master }
    else none
  | .enterWait => if s.master = .starting then some { s with master := .waiting } else none
  | .wake => if s.master = .waiting then some { s with master := .woken } else none
  | .leaveWait => if s.master = .woken then some { s with master := .returned } else none

/-- The master has not returned early, and once all workers have registered it
is not in front of a wait that nothing will end. -/
structure Rendezvous (n : Nat) (s : Startup) : Prop where
  returned : s.master = .returned → n ≤ s.initCount
  not_stuck : (∀ i, i < n → i ∈ s.registered) → s.master ≠ .starting ∧ s.master ≠ .waiting

/-- The last worker registers after the master has entered its wait, and no
spurious wake-up comes before the last worker has registered. -/
def InTime (n : Nat) (s : Startup) : StartupStep → Prop
  | .register _ => s.initCount + 1 = n → s.master ≠ .starting
  | .wake => n ≤ s.initCount
  | _ => True

instance (n : Nat) (s : Startup) : ∀ e, Decidable (InTime n s e)
  | .register _ => inferInstanceAs (Decidable (_ → _))
  | .wake => inferInstanceAs (Decidable (_ ≤ _))
  | .enterWait | .leaveWait => inferInstanceAs (Decidable True)

/-- What every step keeps: the count. -/
structure Counted (n : Nat) (s : Startup) : Prop where
  count : s.initCount = s.registered.length
  nodup : s.registered.Nodup
  mem_lt : ∀ i ∈ s.registered, i < n

/-- What steps in time keep: the master is past its wait exactly when all
workers have registered. -/
structure Progress (n : Nat) (s : Startup) : Prop extends Counted n s where
  awake : s.master = .woken ∨ s.master = .returned ↔ s.registered.length = n

/-! ## 1. One step -/

variable {n : Nat} {s s' : Startup}

theorem Counted.length_le (h : s.Counted n) : s.registered.length ≤ n := by
  simpa using h.nodup.length_le_of_subset fun i hi => List.mem_range.mpr (h.mem_lt i hi)

theorem Counted.all_iff (h : s.Counted n) :
    (∀ i, i < n → i ∈ s.registered) ↔ s.registered.length = n := by
  have hsub : s.registered ⊆ List.range n := fun i hi => List.mem_range.mpr (h.mem_lt i hi)
  constructor
  · intro hall
    have hge : (List.range n).length ≤ s.registered.length :=
      List.nodup_range.length_le_of_subset fun i hi => hall i (List.mem_range.mp hi)
    rw [List.length_range] at hge
    exact Nat.le_antisymm h.length_le hge
  · intro hlen i hi
    have hperm := (h.nodup.subperm hsub).perm_of_length_le (by simp [hlen])
    exact hperm.mem_iff.mpr (List.mem_range.mpr hi)

theorem step_counted {e : StartupStep} (h : s.Counted n) (hs : s.step n e = some s') :
    s'.Counted n := by
  cases e with
  | register i =>
    simp only [step] at hs
    split at hs
    · next hi =>
      cases hs
      refine ⟨?_, List.nodup_cons.mpr ⟨hi.2, h.nodup⟩, ?_⟩
      · simp [h.count]
      · exact List.forall_mem_cons.mpr ⟨hi.1, h.mem_lt⟩
    · cases hs
  | enterWait | wake | leaveWait =>
    simp only [step] at hs
    split at hs
    · cases hs
      exact ⟨h.count, h.nodup, h.mem_lt⟩
    · cases hs

theorem step_progress (hn : n ≤ 2 ^ 30) {e : StartupStep} (h : s.Progress n) (ht : s.InTime n e)
    (hs : s.step n e = some s') : s'.Progress n := by
  have hint : toInt n = n := toInt_of_range (by omega) (by omega)
  refine { toCounted := step_counted h.toCounted hs, awake := ?_ }
  have hawake := h.awake
  have hcount := h.count
  cases e with
  | register i =>
    simp only [step, hint] at hs
    split at hs
    · next hi =>
      cases hs
      -- a worker that has yet to register keeps the master from being awake
      have hlt : s.registered.length < n := by
        exact Nat.lt_of_le_of_ne h.length_le fun hlen => hi.2 (h.all_iff.mpr hlen i hi.1)
      have hasleep : ¬ (s.master = .woken ∨ s.master = .returned) := by
        rw [hawake]
        omega
      simp only [List.length_cons]
      split
      · next hlast =>
        have hstarted := ht hlast
        cases hm : s.master with
        | starting => exact absurd hm hstarted
        | waiting =>
          simp only [signal, true_or, true_iff]
          omega
        | woken => exact absurd (.inl hm) hasleep
        | returned => exact absurd (.inr hm) hasleep
      · next hmore =>
        simp only [hasleep, false_iff]
        omega
    · cases hs
  | wake =>
    simp only [step] at hs
    split at hs
    · cases hs
      simp only [InTime] at ht
      have hle := h.length_le
      simp only [true_or, true_iff]
      omega
    · cases hs
  | enterWait | leaveWait =>
    simp only [step] at hs
    split at hs
    · next hm =>
      cases hs
      simpa [hm] using hawake
    · cases hs

/-! ## 2. Every run -/

theorem init_counted : Startup.init.Counted n := ⟨rfl, List.nodup_nil, by simp [init]⟩

theorem run_counted {es : List StartupStep} (hr : Machine.run (step n) init es = some s) :
    s.Counted n :=
  Machine.run_invariant (fun _ _ _ h hs => step_counted h hs) init_counted hr

theorem Progress.kept (h : s.Progress n) : s.Rendezvous n where
  returned hm := by
    have hlen := h.awake.mp (.inr hm)
    rw [h.count, hlen]
  not_stuck hall := by
    rcases h.awake.mpr (h.all_iff.mp hall) with hm | hm <;> simp [hm]

/-- A step out of time leaves the master waiting for nothing, or lets it return
at once. -/
theorem broken_of_not_inTime (hn : n ≤ 2 ^ 30) {e : StartupStep} (h : s.Counted n)
    (ht : ¬ s.InTime n e) (hs : s.step n e = some s') :
    ∃ es t, Machine.run (step n) s' es = some t ∧ ¬ t.Rendezvous n := by
  have hint : toInt n = n := toInt_of_range (by omega) (by omega)
  have hcount := h.count
  cases e with
  | register i =>
    obtain ⟨hlast, hm⟩ : s.initCount + 1 = n ∧ s.master = .starting := by
      simpa [InTime] using ht
    refine ⟨[], s', rfl, fun hgood => ?_⟩
    have hc := step_counted h hs
    simp only [step, hint] at hs
    split at hs
    · cases hs
      refine (hgood.not_stuck (hc.all_iff.mpr ?_)).1 (by simp [hm, signal])
      show s.registered.length + 1 = n
      omega
    · cases hs
  | wake =>
    simp only [InTime] at ht
    simp only [step] at hs
    split at hs
    · cases hs
      exact ⟨[.leaveWait], _, rfl, fun hgood => ht (hgood.returned rfl)⟩
    · cases hs
  | enterWait | leaveWait => exact absurd trivial ht

/-- In every run in which the master enters its wait before the last worker
registers, and is not woken before that, it returns after all workers have
registered and is not left waiting. A step of a run that is not so leads to a
state where it has returned early or waits for nothing. -/
theorem rendezvous {pipes : Pipes} {v : List (Int × Int)} (hn : 1 ≤ n)
    (hv : initThreads pipes n = some v) :
    (∀ es s, Machine.Along (step n) (InTime n) init es →
      Machine.run (step n) init es = some s → s.Rendezvous n) ∧
    (∀ es s e s', Machine.run (step n) init es = some s → s.step n e = some s' →
      ¬ s.InTime n e → ∃ es' t, Machine.run (step n) s' es' = some t ∧ ¬ t.Rendezvous n) := by
  have hle := initThreads_le hv
  have hinit : Startup.init.Progress n :=
    { toCounted := init_counted, awake := by simp [init]; omega }
  refine ⟨fun es s hc hr => ?_, fun es s e s' hr hs ht => ?_⟩
  · exact (Machine.run_invariant_along (fun _ _ _ h ht hs => step_progress hle h ht hs)
      hinit hc hr).kept
  · exact broken_of_not_inTime hle (run_counted hr) ht hs

/-- Four workers, the last of which registers after the master has begun to wait. -/
theorem rendezvous_fourWorkers : Rendezvous 4 ⟨4, [3, 2, 1, 0], .returned⟩ :=
  (rendezvous (by decide) initThreads_fourPipes).1
    [.register 0, .register 1, .register 2, .enterWait, .register 3, .leaveWait] _
    (by decide) (by decide)

/-- One worker registers before the master waits, and the master waits for ever;
and a spurious wake-up lets it return with no worker registered. -/
theorem master_misses_registration :
    (∃ s, Machine.run (step 1) init [.register 0, .enterWait] = some s ∧
      (∀ i, i < 1 → i ∈ s.registered) ∧ s.master = .waiting ∧ ¬ s.Rendezvous 1) ∧
    ∃ s, Machine.run (step 1) init [.enterWait, .wake, .leaveWait] = some s ∧
      s.master = .returned ∧ s.initCount = 0 ∧ ¬ s.Rendezvous 1 := by
  have hall : ∀ i, i < 1 → i ∈ [0] := by simp
  refine ⟨⟨⟨1, [0], .waiting⟩, by decide, hall, rfl, fun h => ?_⟩,
    ⟨0, [], .returned⟩, by decide, rfl, rfl, fun h => ?_⟩
  · exact (h.not_stuck hall).2 rfl
  · exact absurd (h.returned rfl) (by decide)

end Startup

end SundayServer
