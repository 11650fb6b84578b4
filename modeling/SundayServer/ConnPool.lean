import Mathlib.Algebra.Group.Nat.Defs
import Mathlib.Algebra.Ring.Int.Defs
import Mathlib.Data.List.Basic

/-!
# The free list of connection records

`InitFreeConns`, `GetConnFromFreelist` and `AddConnToFreelist`. The list is a
vector of pointers of which the first `freecurr_` slots are in use. Slots above
keep whatever pointer was last there.

The functions return `none` where the source does not return: `vector::at` out
of range, and the doubling of `freetotal_` beyond an `int`, which the language
leaves undefined.

* `Pool.Holds`: a pool seen as the stack of the records in it.
* `get_cases`, `add_cases`: the two operations are pop and push of that stack.
* `get_isSome`, `add_isSome`: when they return.
* `get_freetotal`, `add_freetotal`: what they make of the size.
-/

namespace SundayServer

/-- The address of a `CONN`. -/
abbrev Ptr := Nat

/-- `freetotal_`, `freecurr_` and `vec_freeconn_`. -/
structure Pool where
  freetotal : Int
  freecurr : Int
  vecFreeconn : List (Option Ptr)
deriving DecidableEq, Repr

/-- `vector::at`. -/
def vecAt {α : Type} (v : List α) (i : Int) : Option α :=
  if 0 ≤ i then v[i.toNat]? else none

/-- Assignment to `vector::at`. -/
def vecSet {α : Type} (v : List α) (i : Int) (a : α) : Option (List α) :=
  if 0 ≤ i ∧ i < v.length then some (v.set i.toNat a) else none

/-- `vector::resize`: new slots are NULL. -/
def vecResize (v : List (Option Ptr)) (newsize : Nat) : List (Option Ptr) :=
  v.take newsize ++ List.replicate (newsize - v.length) none

/-- `InitFreeConns`. -/
def initFreeConns : Pool := ⟨200, 0, vecResize [] 200⟩

/-- `GetConnFromFreelist`; the pointer is NULL when the list is empty. -/
def Pool.getConnFromFreelist (p : Pool) : Option (Pool × Option Ptr) :=
  if 0 < p.freecurr then
    (vecAt p.vecFreeconn (p.freecurr - 1)).map fun conn =>
      ({ p with freecurr := p.freecurr - 1 }, conn)
  else some (p, none)

/-- `AddConnToFreelist`, with its return value. -/
def Pool.addConnToFreelist (p : Pool) (conn : Ptr) : Option (Pool × Bool) :=
  if p.freecurr < p.freetotal then
    (vecSet p.vecFreeconn p.freecurr (some conn)).map fun v =>
      ({ p with freecurr := p.freecurr + 1, vecFreeconn := v }, true)
  else
    let newsize := p.freetotal * 2
    if newsize < 2 ^ 31 then
      (vecSet (vecResize p.vecFreeconn newsize.toNat) p.freecurr (some conn)).map fun v =>
        (⟨newsize, p.freecurr + 1, v⟩, true)
    else none

/-! ## The pool as a stack -/

/-- The slots in use are those of `free`, the last of which is the next to be
taken; `freetotal_` is the size of the vector. -/
structure Pool.Holds (p : Pool) (free : List Ptr) : Prop where
  curr : p.freecurr = free.length
  total : p.freetotal = p.vecFreeconn.length
  total_pos : 0 < p.vecFreeconn.length
  total_lt : p.vecFreeconn.length < 2 ^ 31
  slots : p.vecFreeconn.take free.length = free.map some

namespace Pool.Holds

variable {p : Pool} {free : List Ptr}

theorem length_le (h : p.Holds free) : free.length ≤ p.vecFreeconn.length := by
  have hlen := congrArg List.length h.slots
  rw [List.length_take, List.length_map] at hlen
  omega

theorem slot (h : p.Holds free) {i : Nat} (hi : i < free.length) :
    p.vecFreeconn[i]? = some (some free[i]) := by
  have hget := congrArg (·[i]?) h.slots
  simpa [List.getElem?_take, hi] using hget

end Pool.Holds

namespace ConnPoolLemmas

theorem vecSet_eq {α : Type} {v w : List α} {n : Nat} {a : α} (h : vecSet v n a = some w) :
    n < v.length ∧ w = v.set n a := by
  unfold vecSet at h
  split at h
  · next hn =>
    cases h
    exact ⟨by exact_mod_cast hn.2, by simp⟩
  · cases h

theorem vecSet_isSome {α : Type} {v : List α} {n : Nat} (h : n < v.length) (a : α) :
    (vecSet v n a).isSome := by
  have hn : (0 : Int) ≤ n ∧ (n : Int) < v.length := ⟨by omega, by exact_mod_cast h⟩
  rw [vecSet, if_pos hn]
  rfl

/-- Writing the slot above the ones in use. -/
theorem take_set_succ {α : Type} {v : List α} {n : Nat} (h : n < v.length) (a : α) :
    (v.set n a).take (n + 1) = v.take n ++ [a] := by
  rw [List.take_add_one, List.take_set_of_le (Nat.le_refl n), List.getElem?_set_self h]
  rfl

/-- Growing the vector keeps its slots. -/
theorem take_vecResize {v : List (Option Ptr)} {m n : Nat} (hn : n ≤ v.length)
    (hm : v.length ≤ m) : (vecResize v m).take n = v.take n := by
  unfold vecResize
  rw [List.take_of_length_le hm, List.take_append_of_le_length hn]

theorem length_vecResize (v : List (Option Ptr)) (m : Nat) : (vecResize v m).length = m := by
  simp only [vecResize, List.length_append, List.length_take, List.length_replicate]
  omega

end ConnPoolLemmas

open ConnPoolLemmas

theorem initFreeConns_holds : initFreeConns.Holds [] where
  curr := rfl
  total := by simp [initFreeConns, length_vecResize]
  total_pos := by simp [initFreeConns, length_vecResize]
  total_lt := by simp [initFreeConns, length_vecResize]
  slots := rfl

namespace Pool.Holds

variable {p p' : Pool} {free : List Ptr}

/-- Taking from the pool: NULL and no change when it is empty, else the record
on top. -/
theorem get_cases (h : p.Holds free) {conn : Option Ptr}
    (hg : p.getConnFromFreelist = some (p', conn)) :
    (conn = none ∧ free = [] ∧ p' = p) ∨
    ∃ free' c, conn = some c ∧ free = free' ++ [c] ∧ p'.Holds free' := by
  unfold Pool.getConnFromFreelist at hg
  rcases List.eq_nil_or_concat' free with rfl | ⟨free', c, rfl⟩
  · have hcurr : ¬ 0 < p.freecurr := by simp [h.curr]
    rw [if_neg hcurr] at hg
    cases hg
    exact .inl ⟨rfl, rfl, rfl⟩
  · right
    have hlen : p.freecurr = free'.length + 1 := by simpa using h.curr
    have hslot : p.vecFreeconn[free'.length]? = some (some c) := by
      simpa using h.slot (i := free'.length) (by simp)
    have hat : vecAt p.vecFreeconn (p.freecurr - 1) = some (some c) := by
      rw [hlen, vecAt, if_pos (by omega)]
      simpa using hslot
    rw [if_pos (by omega), hat] at hg
    cases hg
    refine ⟨free', c, rfl, rfl, ?_, h.total, h.total_pos, h.total_lt, ?_⟩
    · show p.freecurr - 1 = free'.length
      omega
    · have hslots := congrArg (List.take free'.length) h.slots
      simpa [List.take_take] using hslots

theorem get_isSome (h : p.Holds free) : p.getConnFromFreelist.isSome := by
  unfold Pool.getConnFromFreelist
  split
  · next hcurr =>
    have hle := h.length_le
    have hcurr' := h.curr
    have hlt : (p.freecurr - 1).toNat < p.vecFreeconn.length := by omega
    rw [vecAt, if_pos (by omega), List.getElem?_eq_getElem hlt]
    rfl
  · rfl

/-- Adding to the pool puts the record on top; the list doubles when it is full. -/
theorem add_cases (h : p.Holds free) {c : Ptr} {ret : Bool}
    (ha : p.addConnToFreelist c = some (p', ret)) : ret = true ∧ p'.Holds (free ++ [c]) := by
  have hle := h.length_le
  have htotal := h.total
  have hlt := h.total_lt
  unfold Pool.addConnToFreelist at ha
  rw [h.curr] at ha
  split at ha
  · obtain ⟨v, hv, hp⟩ := Option.map_eq_some_iff.mp ha
    obtain ⟨hn, rfl⟩ := vecSet_eq hv
    cases hp
    refine ⟨rfl, ?_, ?_, ?_, ?_, ?_⟩
    · simp
    · simpa using htotal
    · simpa using h.total_pos
    · simpa using hlt
    · simpa [h.slots] using take_set_succ hn (some c)
  · next hfull =>
    -- the list is full, so it holds as many records as it has slots
    have hlen : p.vecFreeconn.length = free.length := by omega
    dsimp only at ha
    split at ha
    · next hsize =>
      obtain ⟨v, hv, hp⟩ := Option.map_eq_some_iff.mp ha
      obtain ⟨hn, rfl⟩ := vecSet_eq hv
      cases hp
      have hpos := h.total_pos
      rw [length_vecResize] at hn
      refine ⟨rfl, ?_, ?_, ?_, ?_, ?_⟩
      · simp
      · rw [List.length_set, length_vecResize]
        show p.freetotal * 2 = _
        omega
      · rw [List.length_set, length_vecResize]
        omega
      · rw [List.length_set, length_vecResize]
        omega
      · rw [List.length_append, List.length_singleton,
          take_set_succ (by rwa [length_vecResize]), take_vecResize (by omega) (by omega), h.slots]
        simp
    · cases ha

/-- `AddConnToFreelist` returns while there are fewer than `2^30` records. -/
theorem add_isSome (h : p.Holds free) (hlt : free.length < 2 ^ 30) (c : Ptr) :
    (p.addConnToFreelist c).isSome := by
  have hle := h.length_le
  have htotal := h.total
  have hpos := h.total_pos
  unfold Pool.addConnToFreelist
  rw [h.curr]
  split
  · rw [Option.isSome_map]
    exact vecSet_isSome (by omega) _
  · rw [if_pos (by omega), Option.isSome_map]
    exact vecSet_isSome (by rw [length_vecResize]; omega) _

theorem get_freetotal {conn : Option Ptr} (hg : p.getConnFromFreelist = some (p', conn)) :
    p'.freetotal = p.freetotal := by
  unfold Pool.getConnFromFreelist at hg
  split at hg
  · obtain ⟨q, -, hq⟩ := Option.map_eq_some_iff.mp hg
    cases hq
    rfl
  · cases hg
    rfl

/-- The list doubles only when it is full. -/
theorem add_freetotal (h : p.Holds free) {c : Ptr} {ret : Bool}
    (ha : p.addConnToFreelist c = some (p', ret)) :
    p'.freetotal = p.freetotal ∨ p.freetotal = free.length ∧ p'.freetotal = p.freetotal * 2 := by
  have hle := h.length_le
  have hcurr := h.curr
  have htotal := h.total
  unfold Pool.addConnToFreelist at ha
  split at ha
  · obtain ⟨v, -, hp⟩ := Option.map_eq_some_iff.mp ha
    cases hp
    exact .inl rfl
  · dsimp only at ha
    split at ha
    · obtain ⟨v, -, hp⟩ := Option.map_eq_some_iff.mp ha
      cases hp
      exact .inr ⟨by omega, rfl⟩
    · cases ha

end Pool.Holds

end SundayServer
