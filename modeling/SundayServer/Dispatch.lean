import SundayServer.Utils
import Mathlib.Data.List.Nodup

/-!
# The workers and the choice among them

`InitThreads` makes `thread_num_` workers, each with a pipe, and puts them in
`vec_libevent_thread_`. `DispatchSfdToWorker` takes the next one in turn: it
computes `(last_thread_ + 1) % thread_num_`, in which `last_thread_` is an `int`
and `thread_num_` is unsigned, and looks the result up with `vector::at`.

* `Pipes`: what the system gives for each worker. A descriptor is an `int` and
  no two open descriptors have the same number.
* `initThreads`: the loop that makes the workers.
* `nextTid`, `atWorker`: the two operations that can fail.

Results:
1. `initThreads_le`: there are at most `2^30` workers.
2. `nextTid_eq`: the modulus, once the conversions are seen through.
-/

namespace SundayServer

/-- What `pipe` and `SetupThread` give for each worker: the receiving and the
sending descriptor, or a failure. -/
structure Pipes where
  setup : Nat → Option (Int × Int)
  int_range : ∀ {i p}, setup i = some p → (0 ≤ p.1 ∧ p.1 < 2 ^ 31) ∧ 0 ≤ p.2 ∧ p.2 < 2 ^ 31
  distinct : ∀ {i j p q}, setup i = some p → setup j = some q →
    (p.1 = q.1 → i = j) ∧ (p.2 = q.2 → i = j) ∧ p.1 ≠ q.2

/-- Four workers on the descriptors from 10 on. -/
def fourPipes : Pipes where
  setup i := if i < 4 then some (10 + 2 * i, 11 + 2 * i) else none
  int_range h := by
    split at h
    · cases h
      simp only
      omega
    · cases h
  distinct h h' := by
    split at h
    · split at h'
      · cases h
        cases h'
        simp only
        omega
      · cases h'
    · cases h

/-- `InitThreads` up to the creation of the threads: the descriptors of the
workers in `vec_libevent_thread_`, in order. -/
def initThreads (pipes : Pipes) : Nat → Option (List (Int × Int))
  | 0 => some []
  | i + 1 => do
    let v ← initThreads pipes i
    let fds ← pipes.setup i
    some (v ++ [fds])

/-- `(last_thread_ + 1) % thread_num_`; a division by zero ends the process. -/
def nextTid (lastThread : Int) (threadNum : Nat) : Option Int :=
  if threadNum = 0 then none
  else some (toInt (toUnsigned (toInt (lastThread + 1)) % threadNum : Nat))

/-- The worker that `vec_libevent_thread_.at(tid)` finds among `size` of them. -/
def atWorker (size : Nat) (tid : Int) : Option Nat :=
  if 0 ≤ tid ∧ tid < size then some tid.toNat else none

theorem initThreads_fourPipes :
    initThreads fourPipes 4 = some [(10, 11), (12, 13), (14, 15), (16, 17)] := by decide

/-! ## 1. The number of workers -/

theorem initThreads_spec {pipes : Pipes} {n : Nat} {v : List (Int × Int)}
    (h : initThreads pipes n = some v) :
    v.length = n ∧ ∀ i, i < n → ∃ p, pipes.setup i = some p := by
  induction n generalizing v with
  | zero =>
    cases h
    exact ⟨rfl, fun i hi => absurd hi (Nat.not_lt_zero i)⟩
  | succ n ih =>
    simp only [initThreads, Option.bind_eq_bind, Option.bind_eq_some_iff] at h
    obtain ⟨u, hu, p, hp, h⟩ := h
    cases h
    obtain ⟨hlen, hall⟩ := ih hu
    refine ⟨by simp [hlen], fun i hi => ?_⟩
    rcases Nat.lt_succ_iff_lt_or_eq.mp hi with hi | rfl
    · exact hall i hi
    · exact ⟨p, hp⟩

/-- Each worker has two descriptors of its own, and a descriptor is an `int`. -/
theorem initThreads_le {pipes : Pipes} {n : Nat} {v : List (Int × Int)}
    (h : initThreads pipes n = some v) : n ≤ 2 ^ 30 := by
  obtain ⟨-, hall⟩ := initThreads_spec h
  let p : Nat → Int × Int := fun i => (pipes.setup i).getD (0, 0)
  have hp : ∀ i ∈ List.range n, pipes.setup i = some (p i) := by
    intro i hi
    obtain ⟨q, hq⟩ := hall i (List.mem_range.mp hi)
    simp [p, hq]
  let fds := (List.range n).map (fun i => (p i).1) ++ (List.range n).map fun i => (p i).2
  have hnodup : fds.Nodup := by
    refine List.nodup_append.mpr ⟨?_, ?_, ?_⟩
    · exact List.nodup_range.map_on fun i hi j hj =>
        (pipes.distinct (hp i hi) (hp j hj)).1
    · exact List.nodup_range.map_on fun i hi j hj =>
        (pipes.distinct (hp i hi) (hp j hj)).2.1
    · rintro a ha b hb
      obtain ⟨i, hi, rfl⟩ := List.mem_map.mp ha
      obtain ⟨j, hj, rfl⟩ := List.mem_map.mp hb
      exact (pipes.distinct (hp i hi) (hp j hj)).2.2
  have hsub : fds ⊆ (List.range (2 ^ 31)).map Int.ofNat := by
    intro a ha
    have hrange : 0 ≤ a ∧ a < 2 ^ 31 := by
      rcases List.mem_append.mp ha with ha | ha
      · obtain ⟨i, hi, rfl⟩ := List.mem_map.mp ha
        exact (pipes.int_range (hp i hi)).1
      · obtain ⟨i, hi, rfl⟩ := List.mem_map.mp ha
        exact (pipes.int_range (hp i hi)).2
    refine List.mem_map.mpr ⟨a.toNat, List.mem_range.mpr (by omega), ?_⟩
    exact Int.toNat_of_nonneg hrange.1
  have hlen := hnodup.length_le_of_subset hsub
  simp only [fds, List.length_append, List.length_map, List.length_range] at hlen
  omega

/-! ## 2. The next worker -/

theorem nextTid_eq {last : Int} {n : Nat} (h₀ : n ≠ 0) (h₁ : -1 ≤ last) (h₂ : last < 2 ^ 31 - 1) :
    nextTid last n = some (toInt ((last + 1).toNat % n : Nat)) := by
  have hint : toInt (last + 1) = last + 1 := toInt_of_range (by omega) (by omega)
  have huns : toUnsigned (last + 1) = (last + 1).toNat := by
    have := toUnsigned_of_range (v := last + 1) (by omega) (by omega)
    omega
  rw [nextTid, if_neg h₀, hint, huns]

/-- The modulus is small enough to be an `int` as it is. -/
theorem toInt_mod {m n : Nat} (h₀ : n ≠ 0) (hn : n ≤ 2 ^ 31) :
    toInt (m % n : Nat) = (m % n : Nat) := by
  have hlt := Nat.mod_lt m (Nat.pos_of_ne_zero h₀)
  exact toInt_of_range (by omega) (by omega)

theorem atWorker_of_lt {size i : Nat} (h : i < size) : atWorker size i = some i := by
  have hi : (0 : Int) ≤ i ∧ (i : Int) < size := ⟨by omega, by exact_mod_cast h⟩
  rw [atWorker, if_pos hi]
  rfl

end SundayServer
