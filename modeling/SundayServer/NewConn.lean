import SundayServer.ConnPool
import Mathlib.Logic.Function.Basic

/-!
# A new connection

`ReadPipeCb` from the connection it has popped on: `InitNewConn` takes a record
from the pool or allocates one with its two buffers, and creates the
bufferevent. Each of these can fail. `ReadPipeCb` closes the socket when
`InitNewConn` returns NULL, and then reads the thread of the connection.

* `Allocs`: how the allocations of one call end.
* `initNewConn`, `freeConn`, `readPipeCb`: the three functions, with what they
  do to the memory and to the sockets.
* `Intact`: the worker survives, and nothing is lost or freed twice.

Results:
1. `initNewConn_cases`: when `InitNewConn` returns a record.
2. `intact_iff`: when the worker stays intact.
3. `cleanedUp_of_socketNew`, `freedClean_iff`: what the two clean-ups do, up to
   the read of the NULL record.
-/

namespace SundayServer

namespace NewConn

/-! ## Definitions -/

/-- The buffer pointers of a record. `unset` is what the memory of a new record
holds before it is assigned. -/
inductive CharPtr
  | unset (p : Option Ptr)
  | set (p : Option Ptr)
deriving DecidableEq, Repr

/-- The address, or NULL. -/
def CharPtr.addr : CharPtr → Option Ptr
  | unset p | set p => p

/-- The pointer has been assigned a buffer. -/
def CharPtr.Valid (p : CharPtr) : Prop := ∃ a, p = .set (some a)

/-- The two buffers of a `CONN`. -/
structure Buffers where
  rBuf : CharPtr
  wBuf : CharPtr
deriving DecidableEq, Repr

/-- What is freed, opened and closed. -/
inductive ConnEvent
  | deleteArray (p : CharPtr)
  | deleteConn (conn : Ptr)
  /-- The bufferevent of the socket, created with `BEV_OPT_CLOSE_ON_FREE`. -/
  | socketNew (sfd : Int)
  | close (sfd : Int)
deriving DecidableEq, Repr

/-- The pool, the records in memory, and the events so far. -/
structure ConnState where
  pool : Pool
  conns : Ptr → Buffers
  events : List ConnEvent

/-- How a function ends. -/
inductive Flow (α : Type)
  | returns (a : α)
  /-- An exception that nothing catches, or an index that overflows. -/
  | aborts
  /-- A field of a NULL record is read. -/
  | nullRead
deriving DecidableEq, Repr

/-- How the allocations of one call of `InitNewConn` end, in case they are made;
`none` is `std::bad_alloc`. -/
structure Allocs where
  /-- `new CONN`: the record, and what its buffer pointers hold. -/
  conn : Option (Ptr × Option Ptr × Option Ptr)
  rBuf : Option Ptr
  wBuf : Option Ptr
  /-- `bufferevent_socket_new` does not return NULL. -/
  socketNew : Bool
  /-- The free list can grow. -/
  resize : Bool
deriving DecidableEq, Repr

/-- `utils::SafeDeleteArray`. -/
def safeDeleteArray (p : CharPtr) : List ConnEvent :=
  if p.addr = none then [] else [.deleteArray p]

/-- `FreeConn`. -/
def freeConn (s : ConnState) (conn : Ptr) : ConnState :=
  { s with events := s.events ++ safeDeleteArray (s.conns conn).rBuf ++
      safeDeleteArray (s.conns conn).wBuf ++ [.deleteConn conn] }

/-- `AddConnToFreelist`, which may have to grow the list. -/
def addConn (a : Allocs) (s : ConnState) (conn : Ptr) : Option (ConnState × Bool) :=
  if s.pool.freetotal ≤ s.pool.freecurr ∧ a.resize = false then none
  else (s.pool.addConnToFreelist conn).map fun p => ({ s with pool := p.1 }, p.2)

/-- `InitNewConn` from `bufferevent_socket_new` on. -/
def attachConn (sfd : Int) (a : Allocs) (s : ConnState) (conn : Ptr) :
    ConnState × Flow (Option Ptr) :=
  if a.socketNew then
    ({ s with events := s.events ++ [.socketNew sfd] }, .returns (some conn))
  else
    match addConn a s conn with
    | none => (s, .aborts)
    | some (s, true) => (s, .returns none)
    | some (s, false) => (freeConn s conn, .returns none)

/-- `InitNewConn`. -/
def initNewConn (sfd : Int) (a : Allocs) (s : ConnState) : ConnState × Flow (Option Ptr) :=
  match s.pool.getConnFromFreelist with
  | none => (s, .aborts)
  | some (pool, some conn) => attachConn sfd a { s with pool } conn
  | some (pool, none) =>
    match a.conn with
    | none => ({ s with pool }, .aborts)  -- the exception comes before the test for NULL
    | some (conn, r, w) =>
      let s := { s with pool, conns := Function.update s.conns conn ⟨.unset r, .unset w⟩ }
      match a.rBuf with
      | none => (freeConn s conn, .returns none)
      | some r =>
        let s := { s with conns := Function.update s.conns conn ⟨.set (some r), .unset w⟩ }
        match a.wBuf with
        | none => (freeConn s conn, .returns none)
        | some w =>
          attachConn sfd a
            { s with conns := Function.update s.conns conn ⟨.set (some r), .set (some w)⟩ } conn

/-- `ReadPipeCb` for a connection that it has popped. -/
def readPipeCb (sfd : Int) (a : Allocs) (s : ConnState) : ConnState × Flow Unit :=
  if sfd ≠ 0 then
    match initNewConn sfd a s with
    | (s, .returns (some _)) => (s, .returns ())
    | (s, .returns none) =>
      -- the last line reads `conn->thread` for both results
      ({ s with events := s.events ++ [.close sfd] }, .nullRead)
    | (s, .aborts) => (s, .aborts)
    | (s, .nullRead) => (s, .nullRead)
  else (s, .returns ())

/-- The record that `InitNewConn` works on. -/
def connTaken (a : Allocs) (pool : Pool) : Option Ptr :=
  match pool.getConnFromFreelist with
  | some (_, some conn) => some conn
  | _ => a.conn.map Prod.fst

/-- The record is in the free list once, with both buffers. -/
def BackInPool (s : ConnState) (conn : Ptr) : Prop :=
  (∃ free, s.pool.Holds free ∧ free.count conn = 1) ∧
    (s.conns conn).rBuf.Valid ∧ (s.conns conn).wBuf.Valid

/-- The record has been freed, and no pointer that was not assigned. -/
def FreedClean (s : ConnState) (conn : Ptr) : Prop :=
  .deleteConn conn ∈ s.events ∧ ∀ p, .deleteArray p ∈ s.events → p.Valid

/-- What `ReadPipeCb` should leave of an opening that fails: the socket closed
once, the record in the pool or freed. -/
def CleanedUp (sfd : Int) (a : Allocs) (pool : Pool) (s : ConnState) : Prop :=
  s.events.count (.close sfd) = 1 ∧
    ∀ conn, connTaken a pool = some conn → BackInPool s conn ∨ FreedClean s conn

/-- `ReadPipeCb` returns; it has cleaned up if `InitNewConn` has failed, and left
the socket to the bufferevent if not. -/
def Intact (sfd : Int) (a : Allocs) (pool : Pool) (conns : Ptr → Buffers) : Prop :=
  (readPipeCb sfd a ⟨pool, conns, []⟩).2 = .returns () ∧
  (sfd ≠ 0 →
    if (initNewConn sfd a ⟨pool, conns, []⟩).2 matches .returns (some _) then
      .close sfd ∉ (readPipeCb sfd a ⟨pool, conns, []⟩).1.events ∧
      .socketNew sfd ∈ (readPipeCb sfd a ⟨pool, conns, []⟩).1.events
    else CleanedUp sfd a pool (readPipeCb sfd a ⟨pool, conns, []⟩).1)

/-- Every allocation that the call makes succeeds. -/
def AllocsOk (a : Allocs) (free : List Ptr) : Prop :=
  (free ≠ [] ∨ a.conn.isSome ∧ a.rBuf.isSome ∧ a.wBuf.isSome) ∧ a.socketNew = true

/-! ## 1. `InitNewConn` -/

namespace Lemmas

variable {sfd : Int} {a : Allocs} {s : ConnState} {conn : Ptr}

theorem attachConn_true (h : a.socketNew = true) :
    attachConn sfd a s conn =
      ({ s with events := s.events ++ [.socketNew sfd] }, .returns (some conn)) := by
  rw [attachConn, if_pos h]

theorem attachConn_false (h : a.socketNew = false) (c : Ptr) :
    (attachConn sfd a s conn).2 ≠ .returns (some c) := by
  rw [attachConn, if_neg (by simp [h])]
  split <;> simp

/-- A record that gets no bufferevent goes back to the pool. -/
theorem attachConn_back {free : List Ptr} (h : s.pool.Holds free) (hlen : free.length < 2 ^ 30)
    (hresize : a.resize = true) (hs : a.socketNew = false) :
    ∃ pool, attachConn sfd a s conn = ({ s with pool }, .returns none) ∧
      pool.Holds (free ++ [conn]) := by
  obtain ⟨⟨pool, ret⟩, hadd⟩ := Option.isSome_iff_exists.mp (h.add_isSome hlen conn)
  obtain ⟨rfl, hholds⟩ := h.add_cases hadd
  refine ⟨pool, ?_, hholds⟩
  simp [attachConn, hs, addConn, hresize, hadd]

end Lemmas

open Lemmas

/-- `InitNewConn` returns a record when every allocation succeeds, and only then. -/
theorem initNewConn_cases {pool : Pool} {free : List Ptr} (h : pool.Holds free) (sfd : Int)
    (a : Allocs) (conns : Ptr → Buffers) :
    (AllocsOk a free ∧ ∃ s conn, initNewConn sfd a ⟨pool, conns, []⟩ = (s, .returns (some conn)) ∧
      s.events = [.socketNew sfd]) ∨
    (¬ AllocsOk a free ∧
      ∀ conn, (initNewConn sfd a ⟨pool, conns, []⟩).2 ≠ .returns (some conn)) := by
  obtain ⟨⟨pool', taken⟩, hget⟩ := Option.isSome_iff_exists.mp h.get_isSome
  unfold initNewConn
  simp only [hget]
  rcases h.get_cases hget with ⟨rfl, rfl, -⟩ | ⟨free', c, rfl, rfl, -⟩
  · simp only [AllocsOk, ne_eq, not_true_eq_false, false_or]
    cases hconn : a.conn with
    | none => exact .inr (by simp)
    | some m =>
      obtain ⟨conn, r, w⟩ := m
      cases hr : a.rBuf with
      | none => exact .inr (by simp)
      | some r' =>
        cases hw : a.wBuf with
        | none => exact .inr (by simp)
        | some w' =>
          cases hs : a.socketNew with
          | true =>
            simp only [attachConn_true hs]
            exact .inl ⟨by simp, _, conn, rfl, rfl⟩
          | false => exact .inr ⟨by simp, attachConn_false hs⟩
  · have hfree : free' ++ [c] ≠ [] := by simp
    simp only [AllocsOk, hfree, ne_eq, not_false_eq_true, true_or, true_and]
    cases hs : a.socketNew with
    | true =>
      simp only [attachConn_true hs]
      exact .inl ⟨trivial, _, c, rfl, rfl⟩
    | false => exact .inr ⟨by simp, attachConn_false hs⟩

/-! ## 2. `ReadPipeCb` -/

/-- For every outcome of the allocations and every state of the pool, the worker
stays intact exactly when `InitNewConn` is not called or nothing in it fails. -/
theorem intact_iff {pool : Pool} {free : List Ptr} (h : pool.Holds free) (sfd : Int) (a : Allocs)
    (conns : Ptr → Buffers) :
    Intact sfd a pool conns ↔ sfd = 0 ∨ AllocsOk a free := by
  unfold Intact readPipeCb
  by_cases hsfd : sfd = 0
  · simp [hsfd]
  · simp only [ne_eq, hsfd, not_false_eq_true, if_true, true_implies, false_or]
    rcases initNewConn_cases h sfd a conns with ⟨hok, s, conn, hs, hevents⟩ | ⟨hbad, hnull⟩
    · simp [hs, hevents, hok]
    · refine iff_of_false ?_ hbad
      rintro ⟨hret, -⟩
      split at hret
      · next s' c hs =>
        exact hnull c (by rw [hs])
      all_goals cases hret

/-- The record 5 is in the pool. -/
def poolOfOne : Pool := ⟨200, 1, (vecResize [] 200).set 0 (some 5)⟩

theorem poolOfOne_holds : poolOfOne.Holds [5] where
  curr := rfl
  total := by simp [poolOfOne, ConnPoolLemmas.length_vecResize]
  total_pos := by simp [poolOfOne, ConnPoolLemmas.length_vecResize]
  total_lt := by simp [poolOfOne, ConnPoolLemmas.length_vecResize]
  slots := rfl

/-- It is enough for a connection on descriptor 7 when no memory is left. -/
theorem intact_iff_poolOfOne :
    Intact 7 ⟨none, none, none, true, true⟩ poolOfOne (fun _ => ⟨.set (some 2), .set (some 3)⟩) ↔
      (7 : Int) = 0 ∨ AllocsOk ⟨none, none, none, true, true⟩ [5] :=
  intact_iff poolOfOne_holds 7 _ _

/-- Allocations that succeed. -/
def firstAllocs : Allocs := ⟨some (1, some 98, some 99), some 2, some 3, true, true⟩

/-- Without a bufferevent the NULL record is read; without its second buffer the
record is freed with a pointer that was never assigned, and then read. -/
theorem failures_not_intact :
    (readPipeCb 7 { firstAllocs with socketNew := false }
      ⟨initFreeConns, fun _ => ⟨.unset none, .unset none⟩, []⟩).2 = .nullRead ∧
    ¬ Intact 7 { firstAllocs with socketNew := false } initFreeConns
      (fun _ => ⟨.unset none, .unset none⟩) ∧
    (readPipeCb 7 { firstAllocs with wBuf := none }
      ⟨initFreeConns, fun _ => ⟨.unset none, .unset none⟩, []⟩).1.events =
        [.deleteArray (.set (some 2)), .deleteArray (.unset (some 99)), .deleteConn 1, .close 7] ∧
    ¬ Intact 7 { firstAllocs with wBuf := none } initFreeConns
      (fun _ => ⟨.unset none, .unset none⟩) := by
  have hsocket : (readPipeCb 7 { firstAllocs with socketNew := false }
      ⟨initFreeConns, fun _ => ⟨.unset none, .unset none⟩, []⟩).2 = .nullRead := by
    decide +kernel
  have hbuffer : (readPipeCb 7 { firstAllocs with wBuf := none }
      ⟨initFreeConns, fun _ => ⟨.unset none, .unset none⟩, []⟩).2 = .nullRead := by
    decide +kernel
  refine ⟨hsocket, ?_, by decide +kernel, ?_⟩
  · rintro ⟨hret, -⟩
    rw [hsocket] at hret
    cases hret
  · rintro ⟨hret, -⟩
    rw [hbuffer] at hret
    cases hret

/-! ## 3. The clean-ups -/

namespace Lemmas

/-- A record with both buffers, put on top of a pool that does not have it. -/
theorem backInPool_of_holds {s : ConnState} {free : List Ptr} {conn : Ptr}
    (h : s.pool.Holds (free ++ [conn])) (hfree : conn ∉ free)
    (hvalid : (s.conns conn).rBuf.Valid ∧ (s.conns conn).wBuf.Valid) : BackInPool s conn := by
  refine ⟨⟨_, h, ?_⟩, hvalid⟩
  rw [List.count_append, List.count_eq_zero.mpr hfree, List.count_singleton_self]

end Lemmas

/-- When only `bufferevent_socket_new` fails, the record goes back to the pool
with its buffers, and nothing is freed. -/
theorem initNewConn_back {pool : Pool} {free : List Ptr} (h : pool.Holds free) (sfd : Int)
    {a : Allocs} {conns : Ptr → Buffers} (hnodup : free.Nodup)
    (hvalid : ∀ c ∈ free, (conns c).rBuf.Valid ∧ (conns c).wBuf.Valid)
    (hlen : free.length < 2 ^ 30) (hresize : a.resize = true)
    (halloc : free ≠ [] ∨ a.conn.isSome ∧ a.rBuf.isSome ∧ a.wBuf.isSome)
    (hs : a.socketNew = false) :
    ∃ s conn, initNewConn sfd a ⟨pool, conns, []⟩ = (s, .returns none) ∧
      connTaken a pool = some conn ∧ BackInPool s conn ∧ s.events = [] := by
  obtain ⟨⟨pool', taken⟩, hget⟩ := Option.isSome_iff_exists.mp h.get_isSome
  unfold initNewConn connTaken
  simp only [hget]
  rcases h.get_cases hget with ⟨rfl, rfl, rfl⟩ | ⟨free', c, rfl, rfl, hpool'⟩
  · simp only [ne_eq, not_true_eq_false, false_or] at halloc
    obtain ⟨hconn, hr, hw⟩ := halloc
    obtain ⟨⟨conn, r, w⟩, hconn⟩ := Option.isSome_iff_exists.mp hconn
    obtain ⟨r', hr⟩ := Option.isSome_iff_exists.mp hr
    obtain ⟨w', hw⟩ := Option.isSome_iff_exists.mp hw
    simp only [hconn, hr, hw]
    obtain ⟨pool₂, hback, hpool₂⟩ := @attachConn_back sfd a
      ⟨pool', Function.update (Function.update (Function.update conns conn ⟨.unset r, .unset w⟩)
        conn ⟨.set (some r'), .unset w⟩) conn ⟨.set (some r'), .set (some w')⟩, []⟩
      conn [] h hlen hresize hs
    refine ⟨_, conn, hback, rfl, backInPool_of_holds hpool₂ List.not_mem_nil ?_, rfl⟩
    simp [CharPtr.Valid]
  · obtain ⟨hnodup', -, hdisj⟩ := List.nodup_append.mp hnodup
    have hc : c ∉ free' := fun hmem => hdisj c hmem c (by simp) rfl
    rw [List.length_append] at hlen
    obtain ⟨pool₂, hback, hpool₂⟩ := @attachConn_back sfd a ⟨pool', conns, []⟩ c free' hpool'
      (Nat.lt_of_le_of_lt (Nat.le_add_right _ _) hlen) hresize hs
    exact ⟨_, c, hback, rfl, backInPool_of_holds hpool₂ hc (hvalid c (by simp)), rfl⟩

/-- In that case the clean-up is complete, and the NULL record is read after it. -/
theorem cleanedUp_of_socketNew {pool : Pool} {free : List Ptr} (h : pool.Holds free) {sfd : Int}
    {a : Allocs} {conns : Ptr → Buffers} (hnodup : free.Nodup)
    (hvalid : ∀ c ∈ free, (conns c).rBuf.Valid ∧ (conns c).wBuf.Valid)
    (hlen : free.length < 2 ^ 30) (hresize : a.resize = true) (hsfd : sfd ≠ 0)
    (halloc : free ≠ [] ∨ a.conn.isSome ∧ a.rBuf.isSome ∧ a.wBuf.isSome)
    (hs : a.socketNew = false) :
    CleanedUp sfd a pool (readPipeCb sfd a ⟨pool, conns, []⟩).1 ∧
      (readPipeCb sfd a ⟨pool, conns, []⟩).2 = .nullRead := by
  obtain ⟨s, conn, hinit, htaken, hback, hevents⟩ :=
    initNewConn_back h sfd hnodup hvalid hlen hresize halloc hs
  have hread : readPipeCb sfd a ⟨pool, conns, []⟩ =
      ({ s with events := s.events ++ [.close sfd] }, .nullRead) := by
    simp [readPipeCb, hsfd, hinit]
  rw [hread]
  refine ⟨⟨by simp [hevents], fun c hc => ?_⟩, rfl⟩
  obtain rfl : conn = c := by simpa [htaken] using hc
  exact .inl hback

namespace Lemmas

theorem mem_safeDeleteArray {p q : CharPtr} :
    .deleteArray q ∈ safeDeleteArray p ↔ q = p ∧ p.addr ≠ none := by
  unfold safeDeleteArray
  split <;> simp [*]

/-- `FreeConn` is clean when each pointer is NULL or has been assigned. -/
theorem freedClean_freeConn {s : ConnState} {conn : Ptr} (h : s.events = []) :
    FreedClean (freeConn s conn) conn ↔
      ((s.conns conn).rBuf.addr = none ∨ (s.conns conn).rBuf.Valid) ∧
      ((s.conns conn).wBuf.addr = none ∨ (s.conns conn).wBuf.Valid) := by
  unfold FreedClean freeConn
  simp only [h, List.nil_append, List.mem_append, List.mem_singleton, or_true, true_and,
    mem_safeDeleteArray, reduceCtorEq, or_false]
  constructor
  · exact fun hall => ⟨or_iff_not_imp_left.mpr fun hr => hall _ (.inl ⟨rfl, hr⟩),
      or_iff_not_imp_left.mpr fun hw => hall _ (.inr ⟨rfl, hw⟩)⟩
  · rintro ⟨hr, hw⟩ p (⟨rfl, hp⟩ | ⟨rfl, hp⟩)
    · exact hr.resolve_left hp
    · exact hw.resolve_left hp

end Lemmas

/-- When a buffer cannot be allocated `FreeConn` deletes pointers that nothing
has assigned, unless the memory of the new record happens to hold NULL there. -/
theorem freedClean_iff {pool : Pool} (h : pool.Holds []) (sfd : Int) {a : Allocs}
    (conns : Ptr → Buffers) {conn : Ptr} {r w : Option Ptr} (hconn : a.conn = some (conn, r, w)) :
    (a.rBuf = none →
      (FreedClean (initNewConn sfd a ⟨pool, conns, []⟩).1 conn ↔ r = none ∧ w = none)) ∧
    (a.rBuf.isSome → a.wBuf = none →
      (FreedClean (initNewConn sfd a ⟨pool, conns, []⟩).1 conn ↔ w = none)) := by
  obtain ⟨⟨pool', taken⟩, hget⟩ := Option.isSome_iff_exists.mp h.get_isSome
  obtain rfl : taken = none := by
    rcases h.get_cases hget with ⟨hnone, -, -⟩ | ⟨free', c, -, hnil, -⟩
    · exact hnone
    · simp at hnil
  unfold initNewConn
  simp only [hget, hconn]
  refine ⟨fun hr => ?_, fun hr hw => ?_⟩
  · simp only [hr]
    rw [freedClean_freeConn rfl]
    simp [CharPtr.addr, CharPtr.Valid]
  · obtain ⟨r', hr⟩ := Option.isSome_iff_exists.mp hr
    simp only [hr, hw]
    rw [freedClean_freeConn rfl]
    simp [CharPtr.addr, CharPtr.Valid]

end NewConn

end SundayServer
