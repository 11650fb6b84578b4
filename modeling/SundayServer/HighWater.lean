import SundayServer.Ownership
import Mathlib.Data.Finset.Card

/-!
# How many connection records there are

A record is allocated when the pool was empty and is never given back to the
system: `CloseConn` puts it into `vec_freeconn_`, which doubles when it is full. So
what the process keeps does not depend on how many connections it has served, but on
how many it has had at a time. Those count that have found the pool empty and are
about to allocate a record: one that comes back meanwhile is not used for them.

* `inUse`: the connections that hold a record. `wanted`: with those openings.

Result: `high_water`.
-/

namespace SundayServer

namespace Life

/-- The connections that hold a record. -/
def inUse (s : Life) : Nat :=
  ((Finset.range s.opened).filter fun c => (s.hold c).isSome).card

/-- The records in use, and those about to be allocated. -/
def wanted (s : Life) : Nat := s.inUse + s.pending

end Life

namespace HighWaterLemmas

open Life

variable {s s' : Life} {free : List Ptr} {c : Nat} {r : Ptr} {ph : Phase}

/-- Every record is free or in use, and the list of the pool has had to grow for them. -/
structure Measured (s : Life) (free : List Ptr) : Prop where
  owns : s.Owns free
  count : free.length + s.inUse = s.records.length
  doubled : ∃ k : Nat, s.pool.freetotal = 200 * 2 ^ k
  bound : s.pool.freetotal = 200 ∨ s.pool.freetotal < 2 * s.records.length

/-! ### The connections that hold a record -/

theorem inUse_take (pool : Pool) (records : List Ptr) (r : Ptr) :
    (s.take pool records r).inUse = s.inUse + 1 := by
  have hset : ((Finset.range (s.opened + 1)).filter fun c =>
      ((s.take pool records r).hold c).isSome) =
      insert s.opened ((Finset.range s.opened).filter fun c => (s.hold c).isSome) := by
    ext c
    simp only [Life.take, Finset.mem_filter, Finset.mem_range, Finset.mem_insert,
      Function.update_apply]
    by_cases hc : c = s.opened
    · simp [hc]
    · have hlt : c < s.opened + 1 ↔ c < s.opened := by omega
      simp [hc, hlt]
  unfold inUse
  rw [show (s.take pool records r).opened = s.opened + 1 from rfl, hset,
    Finset.card_insert_of_notMem (by simp)]

theorem inUse_enter (hc : s.hold c = some (r, ph)) (ph' : Phase) :
    (s.enter c r ph').inUse = s.inUse := by
  unfold inUse
  congr 1
  refine Finset.filter_congr fun d _ => ?_
  simp only [Life.enter, Function.update_apply]
  split
  · next hd => simp [hd, hc]
  · rfl

theorem inUse_released (h : s.Owns free) (hc : s.hold c = some (r, ph))
    (hopened : s'.opened = s.opened) (hhold : s'.hold = Function.update s.hold c none) :
    s'.inUse + 1 = s.inUse := by
  have hmem : c ∈ (Finset.range s.opened).filter fun c => (s.hold c).isSome := by
    simp [h.hold_lt hc, hc]
  have hset : ((Finset.range s'.opened).filter fun d => (s'.hold d).isSome) =
      ((Finset.range s.opened).filter fun d => (s.hold d).isSome).erase c := by
    ext d
    rw [hopened, hhold]
    by_cases hd : d = c
    · simp [hd]
    · simp [hd]
  unfold inUse
  rw [hset, Finset.card_erase_add_one hmem]

/-! ### One step -/

theorem Measured.init : Measured Life.init [] where
  owns := Owns.init
  count := rfl
  doubled := ⟨0, rfl⟩
  bound := .inl rfl

/-- The records after a step, with those about to be allocated: as many as before,
unless more are wanted. -/
def Grows (s s' : Life) : Prop :=
  s'.records.length + s'.pending = max (s.records.length + s.pending) s'.wanted

theorem Measured.enter (h : Measured s free) (hc : s.hold c = some (r, ph)) (ph' : Phase) :
    Measured (s.enter c r ph') free ∧ Grows s (s.enter c r ph') := by
  have hinUse := inUse_enter hc ph'
  have hcount := h.count
  refine ⟨⟨h.owns.enter hc ph', ?_, h.doubled, h.bound⟩, ?_⟩
  · rw [hinUse]
    exact hcount
  · show s.records.length + s.pending = max _ (_ + s.pending)
    omega

/-- A record is given back: the list grows only if it is full of others. -/
theorem Measured.giveBack (h : Measured s free) (hc : s.hold c = some (r, ph))
    (hg : s.giveBack c r = some s') : Measured s' (free ++ [r]) ∧ Grows s s' := by
  obtain ⟨howns, hrecords, hopened, hhold⟩ := h.owns.giveBack hc hg
  have hinUse := inUse_released h.owns hc hopened hhold
  have hcount := h.count
  obtain ⟨hpending, hsize⟩ : s'.pending = s.pending ∧ (s'.pool.freetotal = s.pool.freetotal ∨
      s.pool.freetotal = free.length ∧ s'.pool.freetotal = s.pool.freetotal * 2) := by
    unfold Life.giveBack at hg
    split at hg
    · cases hg
    · next pool ret ha =>
      cases hg
      exact ⟨rfl, h.owns.holds.add_freetotal ha⟩
  refine ⟨⟨howns, ?_, ?_, ?_⟩, ?_⟩
  · rw [hrecords, List.length_append, List.length_singleton]
    omega
  · obtain ⟨k, hk⟩ := h.doubled
    rcases hsize with heq | ⟨-, heq⟩
    · exact ⟨k, heq.trans hk⟩
    · exact ⟨k + 1, by rw [heq, hk, pow_succ, mul_assoc]⟩
  · rw [hrecords]
    rcases hsize with heq | ⟨hfull, heq⟩
    · rw [heq]
      exact h.bound
    · right
      omega
  · rw [Grows, hrecords, hpending, Life.wanted, hpending]
    omega

/-- Every step keeps the measure, and the records grow only when more are wanted. -/
theorem Measured.step (h : Measured s free) {l : LifeStep} (hs : s.step l = some s') :
    ∃ free', Measured s' free' ∧ Grows s s' := by
  have hcount := h.count
  have hbound := h.bound
  rcases step_cases h.owns hs with ⟨pool, free', r, -, rfl, htotal, rfl, h'⟩ |
    ⟨-, rfl, rfl, h'⟩ | ⟨fresh, -, hpending, rfl, h'⟩ | ⟨c, r, -, hc, rfl, -⟩ |
    ⟨c, r, ph, -, hc, hg, -⟩ | ⟨c, r, -, hc, rfl, -⟩
  · -- a record of the list: one less is free
    have hinUse := inUse_take (s := s) pool s.records r
    rw [List.length_append, List.length_singleton] at hcount
    refine ⟨free', ⟨h', ?_, ?_, ?_⟩, ?_⟩
    · show free'.length + _ = s.records.length
      omega
    · exact htotal ▸ h.doubled
    · show pool.freetotal = 200 ∨ pool.freetotal < 2 * s.records.length
      rwa [htotal]
    · show s.records.length + s.pending = max _ (_ + s.pending)
      omega
  · -- the list is empty, so all records are in use
    refine ⟨[], ⟨h', hcount, h.doubled, hbound⟩, ?_⟩
    rw [List.length_nil] at hcount
    show s.records.length + (s.pending + 1) = max _ (s.inUse + (s.pending + 1))
    omega
  · -- the record was about to be allocated
    have hinUse : ({ s.take s.pool (fresh :: s.records) fresh with
        pending := s.pending - 1 } : Life).inUse = s.inUse + 1 :=
      inUse_take (s := s) s.pool (fresh :: s.records) fresh
    refine ⟨free, ⟨h', ?_, h.doubled, ?_⟩, ?_⟩
    · rw [hinUse]
      show _ = s.records.length + 1
      omega
    · show s.pool.freetotal = 200 ∨ s.pool.freetotal < 2 * ((s.records.length + 1 : Nat) : Int)
      omega
    · show s.records.length + 1 + (s.pending - 1) = max _ (_ + (s.pending - 1))
      rw [hinUse]
      omega
  · exact ⟨free, h.enter hc .attached⟩
  · exact ⟨_, h.giveBack hc hg⟩
  · exact ⟨free, h.enter hc .closing⟩

end HighWaterLemmas

namespace Life

open HighWaterLemmas

/-- There are as many records, with those about to be allocated, as have been wanted at a
time, and the list of the pool has 200 slots or, if it has had to grow, fewer than two
for each record. -/
theorem high_water {es : List LifeStep} {s : Life} (hr : Machine.run step .init es = some s) :
    s.records.length + s.pending = Machine.peak step wanted .init es ∧
      (s.pool.freetotal = 200 ∨ s.pool.freetotal < 2 * s.records.length) ∧
      ∃ k : Nat, s.pool.freetotal = 200 * 2 ^ k := by
  have hinv := Machine.run_history (C := fun _ _ => True)
    (I := fun es s => Machine.run Life.step .init es = some s ∧ (∃ free, Measured s free) ∧
      s.records.length + s.pending = Machine.peak Life.step wanted .init es)
    (h := []) ?_ ⟨rfl, ⟨[], .init⟩, rfl⟩ (Machine.along_of_forall _ fun _ _ => trivial) hr
  · obtain ⟨-, ⟨free, hm⟩, hpeak⟩ := hinv
    exact ⟨hpeak, hm.bound, hm.doubled⟩
  · rintro es m l m' ⟨hrun, ⟨free, hm⟩, hpeak⟩ - hs
    obtain ⟨free', hm', hgrows⟩ := hm.step hs
    refine ⟨?_, ⟨free', hm'⟩, ?_⟩
    · rw [Machine.run_concat, hrun]
      exact hs
    · rw [Machine.peak_concat hrun hs, ← hpeak]
      exact hgrows

/-- The second opening finds the list empty, and allocates a record although the first one
has come back by then. -/
theorem high_water_missed :
    ∃ s, Machine.run step .init [.getConn, .newConn 8, .getConn, .socketNew 0 true, .closeConn 0,
        .addConn 0, .newConn 16, .getConn] = some s ∧
      s.records.length + s.pending = Machine.peak step wanted .init [.getConn, .newConn 8,
        .getConn, .socketNew 0 true, .closeConn 0, .addConn 0, .newConn 16, .getConn] ∧
      (s.pool.freetotal = 200 ∨ s.pool.freetotal < 2 * s.records.length) ∧
      ∃ k : Nat, s.pool.freetotal = 200 * 2 ^ k := by
  have hsome : (Machine.run step Life.init [.getConn, .newConn 8, .getConn, .socketNew 0 true,
      .closeConn 0, .addConn 0, .newConn 16, .getConn]).isSome := by decide +kernel
  obtain ⟨s, hs⟩ := Option.isSome_iff_exists.mp hsome
  exact ⟨s, hs, high_water hs⟩

end Life

end SundayServer
