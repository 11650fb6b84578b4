import SundayServer.HandOff
import SundayServer.Lib.Custody

/-!
# Who has the descriptor of a connection

`AccepCb` accepts a connection, makes it non-blocking and queues it at a worker. The
worker pops it in `ReadPipeCb` and gives it to a bufferevent, which closes it when it
is freed. On the way the descriptor passes through the list of the worker; and the
number is free for the next `accept` as soon as it is closed.

`Descriptors` is the hand-off of `HandOff.lean` with the table of the open sockets, the
master in `AccepCb` and the bufferevents of all workers. A step is a system call, a
critical section or a call of libevent.

* `held`: the sockets that somebody has yet to close.

Result: `descriptors_owned`.
-/

namespace SundayServer

open Custody

/-! ## Definitions -/

/-- Where the master is in `AccepCb`. -/
inductive Accepting
  | idle
  /-- `accept` has returned. -/
  | accepted (sfd : Int)
  /-- So has `SetSocketNoBlock`. -/
  | nonBlocking (sfd : Int)
deriving DecidableEq, Repr

/-- The process. `dropped` is history: the sockets that `ReadPipeCb` has popped and
passed over. -/
structure Descriptors where
  handOff : HandOff
  sockets : Table Int
  accepting : Accepting
  bufferevents : List Int
  dropped : List Int
  crashed : Bool

def Descriptors.init : Descriptors := ⟨.init, .empty, .idle, [], [], false⟩

/-- The atomic steps. -/
inductive DescriptorStep
  /-- `accept`, and what it returns. -/
  | accept (sfd : Int)
  | setSocketNoBlock (ok : Bool)
  /-- `DispatchSfdToWorker` up to `list_conn.push_back`. -/
  | dispatch
  /-- Its write to the pipe. -/
  | notify (ok : Bool)
  /-- The read in `ReadPipeCb`. -/
  | readByte (w : Nat) (ok : Bool)
  | popFront (w : Nat)
  /-- The rest of `ReadPipeCb`, and whether `InitNewConn` makes a bufferevent. -/
  | initNewConn (w : Nat) (ok : Bool)
  /-- `CloseConn`: `bufferevent_free`, with `BEV_OPT_CLOSE_ON_FREE`. -/
  | closeConn (sfd : Int)
deriving DecidableEq, Repr

/-- The socket that the worker has popped and not yet passed on. -/
def Worker.popping (v : Worker) : List ConnInfo :=
  if v.callback = .opening then v.popped.getLast?.toList else []

/-- The sockets that the worker has to see to. -/
def Worker.sockets (v : Worker) : List Int := (v.popping ++ v.listConn).map ConnInfo.sfd

namespace Descriptors

/-- The master is between two connections. -/
def AtRest (s : Descriptors) : Prop := s.accepting = .idle ∧ s.handOff.pending = none

instance (s : Descriptors) : Decidable s.AtRest := inferInstanceAs (Decidable (_ ∧ _))

/-- A step of the hand-off alone. -/
def link (n : Nat) (s : Descriptors) (e : HandOffStep) : Option Descriptors :=
  (s.handOff.step n e).map fun h => { s with handOff := h }

/-- The step function, for `n` workers. -/
def step (n : Nat) (s : Descriptors) (e : DescriptorStep) : Option Descriptors :=
  if s.crashed then none
  else
    match e with
    | .accept sfd =>
      if ¬ s.AtRest then none
      else if sfd = -1 then some s
      -- the lowest number that is not in use, or any other
      else if 0 ≤ sfd ∧ sfd ∉ s.sockets.opened then
        some { s with sockets := s.sockets.acquire sfd, accepting := .accepted sfd }
      else none
    | .setSocketNoBlock ok =>
      match s.accepting with
      | .accepted sfd =>
        if ok then some { s with accepting := .nonBlocking sfd }
        else some { s with sockets := s.sockets.release sfd, accepting := .idle }
      | _ => none
    | .dispatch =>
      match s.accepting with
      | .nonBlocking sfd => ({ s with accepting := .idle } : Descriptors).link n (.dispatch sfd)
      | _ => none
    | .notify ok => s.link n (.notify ok)
    | .readByte w ok => s.link n (.readByte w ok)
    | .popFront w => s.link n (.popFront w)
    | .initNewConn w ok =>
      match (s.handOff.workers w).popped.getLast? with
      | none => none
      | some info =>
        if info.sfd = 0 then
          ({ s with dropped := s.dropped ++ [info.sfd] } : Descriptors).link n (.finish w)
        else if ok then
          ({ s with bufferevents := info.sfd :: s.bufferevents } : Descriptors).link n (.finish w)
        else
          -- the record is NULL, and the last line of `ReadPipeCb` reads it
          ({ s with sockets := s.sockets.release info.sfd, crashed := true } : Descriptors).link n
            (.finish w)
    | .closeConn sfd =>
      if sfd ∈ s.bufferevents then
        some { s with sockets := s.sockets.release sfd, bufferevents := s.bufferevents.erase sfd }
      else none

/-- The master has it. -/
def atMaster (s : Descriptors) : List Int :=
  match s.accepting with
  | .idle => []
  | .accepted sfd | .nonBlocking sfd => [sfd]

/-- The workers have them. -/
def atWorkers (n : Nat) (h : HandOff) : List Int :=
  (List.range n).flatMap fun w => (h.workers w).sockets

/-- The sockets that the master, the workers and the bufferevents have, and those that
nobody will close. -/
def held (n : Nat) (s : Descriptors) : List Int :=
  s.atMaster ++ (atWorkers n s.handOff ++ (s.bufferevents ++ s.dropped))

/-- The invariant. -/
structure Inv (n : Nat) (s : Descriptors) : Prop where
  kept : Kept s.sockets (s.held n)
  dropped : ∀ sfd ∈ s.dropped, sfd = 0
  /-- A popped socket is there. -/
  popping : ∀ w, (s.handOff.workers w).callback = .opening → (s.handOff.workers w).popped ≠ []

end Descriptors

/-! ## One step -/

namespace DescriptorsLemmas

open HandOff Descriptors
open scoped List

variable {n w : Nat} {h h' : HandOff} {v : Worker}

/-- A worker gets one more socket. -/
theorem atWorkers_gain (hw : w < n) {sfd : Int}
    (hv : v.sockets.Perm (sfd :: (h.workers w).sockets)) :
    (atWorkers n (h.setWorker w v)).Perm (sfd :: atWorkers n h) := by
  obtain ⟨rest, hrest⟩ := flatMap_update hw h.workers Worker.sockets
  have hself := hrest (h.workers w)
  rw [Function.update_eq_self] at hself
  calc atWorkers n (h.setWorker w v)
    _ ~ v.sockets ++ rest := hrest v
    _ ~ sfd :: (h.workers w).sockets ++ rest := hv.append_right rest
    _ ~ sfd :: atWorkers n h := hself.symm.cons sfd

/-- A worker passes a socket on. -/
theorem atWorkers_lose (hw : w < n) {sfd : Int}
    (hv : (h.workers w).sockets.Perm (sfd :: v.sockets)) :
    (atWorkers n h).Perm (sfd :: atWorkers n (h.setWorker w v)) := by
  obtain ⟨rest, hrest⟩ := flatMap_update hw h.workers Worker.sockets
  have hself := hrest (h.workers w)
  rw [Function.update_eq_self] at hself
  calc atWorkers n h
    _ ~ (h.workers w).sockets ++ rest := hself
    _ ~ sfd :: v.sockets ++ rest := hv.append_right rest
    _ ~ sfd :: atWorkers n (h.setWorker w v) := (hrest v).symm.cons sfd

theorem atWorkers_same (hv : v.sockets = (h.workers w).sockets) :
    atWorkers n (h.setWorker w v) = atWorkers n h := by
  refine List.flatMap_congr fun u _ => ?_
  simp only [setWorker, Function.update_apply]
  split
  · next huw => rw [huw, hv]
  · rfl

/-- What a step of the hand-off does with the sockets of the workers. -/
theorem atWorkers_step {e : HandOffStep}
    (hpop : ∀ w, (h.workers w).callback = .opening → (h.workers w).popped ≠ [])
    (hs : h.step n e = some h') :
    (∀ w, (h'.workers w).callback = .opening → (h'.workers w).popped ≠ []) ∧
    ((∃ sfd, e = .dispatch sfd ∧ (atWorkers n h').Perm (sfd :: atWorkers n h)) ∨
      (∃ w info, e = .finish w ∧ (h.workers w).popped.getLast? = some info ∧
        (atWorkers n h).Perm (info.sfd :: atWorkers n h')) ∨
      (∀ sfd, e ≠ .dispatch sfd) ∧ (∀ w, e ≠ .finish w) ∧ atWorkers n h' = atWorkers n h) := by
  have hset : ∀ w v, (v.callback = .opening → v.popped ≠ []) →
      ∀ u, (Function.update h.workers w v u).callback = .opening →
        (Function.update h.workers w v u).popped ≠ [] := by
    intro w v hv u
    rw [Function.update_apply]
    split
    · exact hv
    · exact hpop u
  rcases step_cases hs with ⟨sfd, tid, w, rfl, -, -, hat, rfl⟩ | ⟨ok, w, rfl, -, rfl⟩ |
    ⟨w, rfl, hidle, -, rfl⟩ | ⟨w, rfl, rfl⟩ | ⟨w, rfl, hgot, hnil, rfl⟩ |
    ⟨w, info, rest, rfl, hgot, hcons, rfl⟩ | ⟨w, rfl, hopening, rfl⟩
  · have hw : w < n := by
      unfold atWorker at hat
      split at hat
      · cases hat
        omega
      · cases hat
    refine ⟨hset w _ (hpop w), .inl ⟨sfd, rfl, ?_⟩⟩
    refine atWorkers_gain hw ?_
    simp only [Worker.sockets, Worker.popping, List.map_append, List.map_cons, List.map_nil]
    rw [← List.append_assoc]
    exact List.perm_append_singleton _ _
  · refine ⟨hset w _ ?_, .inr (.inr ⟨by simp, by simp, ?_⟩)⟩
    · cases ok <;> exact hpop w
    · refine atWorkers_same ?_
      cases ok <;> rfl
  · refine ⟨hset w _ (by simp), .inr (.inr ⟨by simp, by simp, atWorkers_same ?_⟩)⟩
    simp [Worker.sockets, Worker.popping, hidle]
  · exact ⟨hpop, .inr (.inr ⟨by simp, by simp, rfl⟩)⟩
  · refine ⟨hset w _ (by simp), .inr (.inr ⟨by simp, by simp, atWorkers_same ?_⟩)⟩
    simp [Worker.sockets, Worker.popping, hgot]
  · refine ⟨hset w _ (by simp), .inr (.inr ⟨by simp, by simp, atWorkers_same ?_⟩)⟩
    simp [Worker.sockets, Worker.popping, hgot, hcons]
  · have hw : w < n := by
      simp only [HandOff.step] at hs
      split at hs
      · next hcond => exact hcond.1
      · cases hs
    refine ⟨hset w _ (by simp), .inr (.inl ?_)⟩
    have hlast := List.getLast?_eq_some_getLast (hpop w hopening)
    refine ⟨w, _, rfl, hlast, atWorkers_lose hw ?_⟩
    simp [Worker.sockets, Worker.popping, hopening, hlast]

variable {s s' : Descriptors}

theorem link_cases {e : HandOffStep} (hs : s.link n e = some s') :
    ∃ h', s.handOff.step n e = some h' ∧ s' = { s with handOff := h' } := by
  obtain ⟨h', hh', rfl⟩ := Option.map_eq_some_iff.mp hs
  exact ⟨h', hh', rfl⟩

/-- A step of the hand-off that moves no socket. -/
theorem inv_link {e : HandOffStep} (hi : s.Inv n) (hd : ∀ sfd, e ≠ .dispatch sfd)
    (hf : ∀ w, e ≠ .finish w) (hs : s.link n e = some s') : s'.Inv n := by
  obtain ⟨h', hh', rfl⟩ := link_cases hs
  obtain ⟨hpop, ⟨sfd, he, -⟩ | ⟨w, info, he, -⟩ | ⟨-, -, hsame⟩⟩ := atWorkers_step hi.popping hh'
  · exact absurd he (hd sfd)
  · exact absurd he (hf w)
  · have hheld : held n { s with handOff := h' } = held n s := by
      simp only [held, hsame]
      rfl
    exact ⟨hheld ▸ hi.kept, hi.dropped, hpop⟩

/-- The callback of a worker ends: the socket that it has popped goes elsewhere. -/
theorem inv_finish {w : Nat} {info : ConnInfo} (hi : s.Inv n)
    (hlast : (s.handOff.workers w).popped.getLast? = some info) {h' : HandOff}
    (hs : s.handOff.step n (.finish w) = some h') :
    (∀ w, (h'.workers w).callback = .opening → (h'.workers w).popped ≠ []) ∧
      (held n s).Perm (info.sfd :: held n { s with handOff := h' }) := by
  obtain ⟨hpop, ⟨sfd, he, -⟩ | ⟨u, info', he, hlast', hperm⟩ | ⟨-, hne, -⟩⟩ :=
    atWorkers_step hi.popping hs
  · cases he
  · cases he
    obtain rfl : info = info' := Option.some.inj (hlast.symm.trans hlast')
    refine ⟨hpop, List.perm_iff_count.mpr fun a => ?_⟩
    have hcount := hperm.count_eq a
    simp only [held, atMaster, List.count_append, List.count_cons] at hcount ⊢
    omega
  · exact absurd rfl (hne w)

theorem inv_accept (hi : s.Inv n) (hidle : s.accepting = .idle) {sfd : Int}
    (hfree : sfd ∉ s.sockets.opened) :
    Inv n { s with sockets := s.sockets.acquire sfd, accepting := .accepted sfd } := by
  refine ⟨(hi.kept.acquire hfree).of_perm (.of_eq ?_), hi.dropped, hi.popping⟩
  simp [held, atMaster, hidle]

theorem inv_setSocketNoBlock (hi : s.Inv n) {sfd : Int} (haccepted : s.accepting = .accepted sfd) :
    Inv n { s with accepting := .nonBlocking sfd } ∧
      Inv n { s with sockets := s.sockets.release sfd, accepting := .idle } := by
  have hheld : held n s = sfd :: held n { s with accepting := .idle } := by
    simp [held, atMaster, haccepted]
  have hkept := hi.kept
  rw [hheld] at hkept
  exact ⟨⟨hkept, hi.dropped, hi.popping⟩, ⟨hkept.release, hi.dropped, hi.popping⟩⟩

theorem inv_dispatch (hi : s.Inv n) {sfd : Int} (hready : s.accepting = .nonBlocking sfd)
    (hs : ({ s with accepting := .idle } : Descriptors).link n (.dispatch sfd) = some s') :
    s'.Inv n := by
  obtain ⟨h', hh', rfl⟩ := link_cases hs
  obtain ⟨hpop, ⟨sfd', he, hperm⟩ | ⟨w, info, he, -⟩ | ⟨hne, -, -⟩⟩ :=
    atWorkers_step hi.popping hh'
  · cases he
    refine ⟨hi.kept.of_perm (List.perm_iff_count.mpr fun a => ?_), hi.dropped, hpop⟩
    have hcount := hperm.count_eq a
    simp only [held, atMaster, hready, List.count_append, List.count_cons,
      List.count_nil] at hcount ⊢
    omega
  · cases he
  · exact absurd rfl (hne sfd)

/-- A popped 0 is passed over. -/
theorem inv_drop (hi : s.Inv n) {info : ConnInfo}
    (hlast : (s.handOff.workers w).popped.getLast? = some info) (hzero : info.sfd = 0)
    (hs : ({ s with dropped := s.dropped ++ [info.sfd] } : Descriptors).link n (.finish w) =
      some s') : s'.Inv n := by
  obtain ⟨h', hh', rfl⟩ := link_cases hs
  obtain ⟨hpop, hperm⟩ := inv_finish hi hlast hh'
  refine ⟨hi.kept.of_perm (List.perm_iff_count.mpr fun a => ?_), fun sfd hsfd => ?_, hpop⟩
  · have hcount := hperm.count_eq a
    simp only [held, atMaster, List.count_append, List.count_cons, List.count_nil] at hcount ⊢
    omega
  · rcases List.mem_append.mp hsfd with hsfd | hsfd
    · exact hi.dropped sfd hsfd
    · rw [List.mem_singleton.mp hsfd, hzero]

/-- `InitNewConn` makes a bufferevent. -/
theorem inv_attach (hi : s.Inv n) {info : ConnInfo}
    (hlast : (s.handOff.workers w).popped.getLast? = some info)
    (hs : ({ s with bufferevents := info.sfd :: s.bufferevents } : Descriptors).link n
      (.finish w) = some s') : s'.Inv n := by
  obtain ⟨h', hh', rfl⟩ := link_cases hs
  obtain ⟨hpop, hperm⟩ := inv_finish hi hlast hh'
  refine ⟨hi.kept.of_perm (List.perm_iff_count.mpr fun a => ?_), hi.dropped, hpop⟩
  have hcount := hperm.count_eq a
  simp only [held, atMaster, List.count_append, List.count_cons] at hcount ⊢
  omega

/-- `InitNewConn` makes none. -/
theorem inv_fail (hi : s.Inv n) {info : ConnInfo}
    (hlast : (s.handOff.workers w).popped.getLast? = some info)
    (hs : ({ s with sockets := s.sockets.release info.sfd, crashed := true } : Descriptors).link n
      (.finish w) = some s') : s'.Inv n := by
  obtain ⟨h', hh', rfl⟩ := link_cases hs
  obtain ⟨hpop, hperm⟩ := inv_finish hi hlast hh'
  exact ⟨(hi.kept.of_perm hperm).release, hi.dropped, hpop⟩

theorem inv_closeConn (hi : s.Inv n) {sfd : Int} (hmem : sfd ∈ s.bufferevents) :
    Inv n { s with sockets := s.sockets.release sfd,
                   bufferevents := s.bufferevents.erase sfd } := by
  have hperm : (held n s).Perm
      (sfd :: held n { s with bufferevents := s.bufferevents.erase sfd }) := by
    refine List.perm_iff_count.mpr fun a => ?_
    have hcount := (List.perm_cons_erase hmem).count_eq a
    simp only [held, atMaster, List.count_append, List.count_cons] at hcount ⊢
    omega
  exact ⟨(hi.kept.of_perm hperm).release, hi.dropped, hi.popping⟩

theorem step_inv {e : DescriptorStep} (hi : s.Inv n) (hs : s.step n e = some s') : s'.Inv n := by
  unfold Descriptors.step at hs
  split at hs
  · cases hs
  cases e with
  | accept sfd =>
    simp only at hs
    split at hs
    · cases hs
    · next hrest =>
      obtain ⟨hidle, -⟩ := not_not.mp hrest
      split at hs
      · cases hs
        exact hi
      · split at hs
        · next hfree =>
          cases hs
          exact inv_accept hi hidle hfree.2
        · cases hs
  | setSocketNoBlock ok =>
    simp only at hs
    split at hs
    · next sfd haccepted =>
      cases ok with
      | true =>
        cases hs
        exact (inv_setSocketNoBlock hi haccepted).1
      | false =>
        cases hs
        exact (inv_setSocketNoBlock hi haccepted).2
    · cases hs
  | dispatch =>
    simp only at hs
    split at hs
    · next sfd hready => exact inv_dispatch hi hready hs
    · cases hs
  | notify ok => exact inv_link hi (by simp) (by simp) hs
  | readByte w ok => exact inv_link hi (by simp) (by simp) hs
  | popFront w => exact inv_link hi (by simp) (by simp) hs
  | initNewConn w ok =>
    simp only at hs
    split at hs
    · cases hs
    · next info hlast =>
      split at hs
      · next hzero => exact inv_drop hi hlast hzero hs
      · split at hs
        · exact inv_attach hi hlast hs
        · exact inv_fail hi hlast hs
  | closeConn sfd =>
    simp only at hs
    split at hs
    · next hmem =>
      cases hs
      exact inv_closeConn hi hmem
    · cases hs

theorem init_inv (n : Nat) : Descriptors.init.Inv n where
  kept := by
    have hheld : held n Descriptors.init = [] := by
      simp [held, atMaster, atWorkers, Descriptors.init, HandOff.init, Worker.sockets,
        Worker.popping]
    rw [hheld]
    exact kept_empty
  dropped := by simp [Descriptors.init]
  popping := by simp [Descriptors.init, HandOff.init]

end DescriptorsLemmas

open DescriptorsLemmas

/-- Over every interleaving of the master with any number of workers, with any failures,
and with any use of the numbers that are free: each open socket is in one place, either
at the master, at a worker or in a bufferevent, nothing is closed that is not open, and
no place has a socket that is closed. The one socket that nobody may close is 0. -/
theorem descriptors_owned {n : Nat} {es : List DescriptorStep} {s : Descriptors}
    (hr : Machine.run (Descriptors.step n) .init es = some s) :
    (∀ sfd ∈ s.sockets.opened, (s.held n).count sfd = 1) ∧
      (∀ sfd ∈ s.held n, sfd ∈ s.sockets.opened) ∧ s.sockets.fault = false ∧
      (∀ sfd ∈ s.dropped, sfd = 0) ∧ s.dropped.length ≤ 1 := by
  have hi := Machine.run_invariant (fun _ _ _ hi hs => step_inv hi hs) (init_inv n) hr
  refine ⟨fun sfd => hi.kept.count, fun sfd => hi.kept.mem_iff.mpr, hi.kept.sound, hi.dropped, ?_⟩
  have hnodup : (s.held n).Nodup := hi.kept.perm.nodup_iff.mp hi.kept.nodup
  have hdropped : s.dropped.Nodup := by
    refine hnodup.sublist ?_
    simp only [Descriptors.held]
    exact ((List.sublist_append_right _ _).trans (List.sublist_append_right _ _)).trans
      (List.sublist_append_right _ _)
  have hsub : s.dropped ⊆ [0] := fun sfd hsfd => by simp [hi.dropped sfd hsfd]
  exact hdropped.length_le_of_subset hsub

/-- A connection that is closed while the next one is queued, and whose number is
given out again. -/
def closeAndReuse : List DescriptorStep :=
  [.accept 5, .setSocketNoBlock true, .dispatch, .notify true, .readByte 0 true, .popFront 0,
    .initNewConn 0 true, .accept 6, .setSocketNoBlock true, .dispatch, .closeConn 5, .notify true,
    .accept 5, .setSocketNoBlock false, .accept 5]

theorem descriptors_owned_closeAndReuse :
    ∃ s, Machine.run (Descriptors.step 4) .init closeAndReuse = some s ∧
      (∀ sfd ∈ s.sockets.opened, (s.held 4).count sfd = 1) ∧
        (∀ sfd ∈ s.held 4, sfd ∈ s.sockets.opened) ∧ s.sockets.fault = false ∧
        (∀ sfd ∈ s.dropped, sfd = 0) ∧ s.dropped.length ≤ 1 := by
  have hsome : (Machine.run (Descriptors.step 4) .init closeAndReuse).isSome := by decide +kernel
  obtain ⟨s, hs⟩ := Option.isSome_iff_exists.mp hsome
  exact ⟨s, hs, descriptors_owned hs⟩

end SundayServer
