import SundayServer.Dispatch
import SundayServer.Lib.Machine
import Mathlib.Logic.Function.Basic

/-!
# The hand-off of accepted connections

The master puts a connection in the list of the next worker and then writes one
byte to the worker's pipe. The worker reads a byte in `ReadPipeCb` and pops one
connection. The two channels are linked only by the order of these steps, and
the write may fail.

`HandOff` is the state of the master, the lists, the pipes and the callbacks,
with the history of what was queued, popped and not notified. The steps are the
critical sections and the system calls, so every interleaving of the master
with the workers is a run.

Results:
1. `step_cases`: what a step can do. `step_linked`: each list holds what was
   queued and not popped, one entry for each byte in the pipe, for a byte just
   read, for a write under way, and for a write that failed.
2. `handOff_exact`: the hand-off is round robin, and each worker pops a prefix.
3. `idle_list_iff`: the list of an idle worker is empty exactly when no write to
   it failed and none is under way.
-/

namespace SundayServer

/-! ## Definitions -/

/-- `CONN_INFO`, with the number of the connection among those accepted. -/
structure ConnInfo where
  no : Nat
  sfd : Int
deriving DecidableEq, Repr

/-- Where a worker is in `ReadPipeCb`. -/
inductive Callback
  | idle
  /-- It has read a byte and not yet popped. -/
  | gotByte
  /-- It has popped a connection and is in `InitNewConn`. -/
  | opening
deriving DecidableEq, Repr

/-- A worker. The last three fields are history. -/
structure Worker where
  listConn : List ConnInfo
  pipe : Nat
  callback : Callback
  queued : List ConnInfo
  popped : List ConnInfo
  failed : Nat
deriving DecidableEq, Repr

/-- The master and its workers. `pending` is the worker that the master has
queued a connection at and not yet notified; `accepted` and `emptyHit` are
history. -/
structure HandOff where
  lastThread : Int
  pending : Option Nat
  workers : Nat → Worker
  accepted : List ConnInfo
  emptyHit : Bool

def HandOff.init : HandOff := ⟨-1, none, fun _ => ⟨[], 0, .idle, [], [], 0⟩, [], false⟩

/-- The atomic steps. -/
inductive HandOffStep
  /-- `DispatchSfdToWorker` up to `list_conn.push_back`. -/
  | dispatch (sfd : Int)
  /-- The write to the pipe, and whether it wrote the byte. -/
  | notify (ok : Bool)
  /-- The read in `ReadPipeCb`, and whether it got a byte. -/
  | readByte (w : Nat) (ok : Bool)
  | popFront (w : Nat)
  /-- The rest of `ReadPipeCb`. -/
  | finish (w : Nat)
deriving DecidableEq, Repr

/-- The socket of the connection that a step queues. -/
def HandOffStep.dispatched : HandOffStep → Option Int
  | .dispatch sfd => some sfd
  | _ => none

namespace Worker

/-- The entries that a worker's list should hold: one for each byte in its pipe,
for each write to it that failed, for a byte that it has just read, and for a
write to it that the master has yet to do. -/
def due (v : Worker) (writing : Bool) : Nat :=
  v.pipe + v.failed + (if v.callback = .gotByte then 1 else 0) + (if writing then 1 else 0)

/-- Nothing queued at the worker is lost, and its list is as long as it should be. -/
structure Ok (v : Worker) (writing : Bool) : Prop where
  split : v.queued = v.popped ++ v.listConn
  count : v.listConn.length = v.due writing

end Worker

namespace HandOff

/-- The worker `w` becomes `v`. -/
def setWorker (s : HandOff) (w : Nat) (v : Worker) : HandOff :=
  { s with workers := Function.update s.workers w v }

/-- The step function, for `n` workers and `thread_num_ = n`. -/
def step (n : Nat) (s : HandOff) : HandOffStep → Option HandOff
  | .dispatch sfd =>
    if s.pending ≠ none then none
    else
      match nextTid s.lastThread n with
      | none => none
      | some tid =>
        match atWorker n tid with
        | none => none
        | some w =>
          let info : ConnInfo := ⟨s.accepted.length, sfd⟩
          let v := s.workers w
          some { s.setWorker w { v with listConn := v.listConn ++ [info],
                                        queued := v.queued ++ [info] } with
                 lastThread := tid, pending := some w, accepted := s.accepted ++ [info] }
  | .notify ok =>
    match s.pending with
    | none => none
    | some w =>
      let v := s.workers w
      some { s.setWorker w (if ok then { v with pipe := v.pipe + 1 }
                            else { v with failed := v.failed + 1 }) with pending := none }
  | .readByte w ok =>
    let v := s.workers w
    if w < n ∧ v.callback = .idle then
      if ok then
        if v.pipe = 0 then none
        else some (s.setWorker w { v with pipe := v.pipe - 1, callback := .gotByte })
      else some s
    else none
  | .popFront w =>
    let v := s.workers w
    if w < n ∧ v.callback = .gotByte then
      match v.listConn with
      | [] => some { s.setWorker w { v with callback := .idle } with emptyHit := true }
      | info :: rest =>
        some (s.setWorker w { v with listConn := rest, popped := v.popped ++ [info],
                                     callback := .opening })
    else none
  | .finish w =>
    let v := s.workers w
    if w < n ∧ v.callback = .opening then some (s.setWorker w { v with callback := .idle })
    else none

/-- The invariant. -/
structure Linked (n : Nat) (s : HandOff) : Prop where
  /-- `last_thread_` is the worker of the last connection. -/
  last : s.lastThread + 1 =
    if s.accepted.length = 0 then 0 else ((s.accepted.length - 1) % n + 1 : Nat)
  numbered : s.accepted.map ConnInfo.no = List.range s.accepted.length
  queued : ∀ w, (s.workers w).queued =
    if w < n then s.accepted.filter fun e => e.no % n = w else []
  worker : ∀ w, (s.workers w).Ok (s.pending = some w)
  no_empty : s.emptyHit = false

/-- The hand-off so far is round robin, in order and complete. -/
structure Exact (n : Nat) (s : HandOff) : Prop where
  numbered : s.accepted.map ConnInfo.no = List.range s.accepted.length
  queued : ∀ w, (s.workers w).queued =
    if w < n then s.accepted.filter fun e => e.no % n = w else []
  popped : ∀ w, (s.workers w).popped <+: (s.workers w).queued
  no_empty : s.emptyHit = false
  /-- The master can dispatch the next connection. -/
  dispatches : s.pending = none → ∀ sfd, (s.step n (.dispatch sfd)).isSome

/-- No byte is pending in the worker's pipe and no `ReadPipeCb` is in progress. -/
def Idle (s : HandOff) (w : Nat) : Prop :=
  (s.workers w).pipe = 0 ∧ (s.workers w).callback = .idle

/-- Every idle worker that the master is not about to notify has an empty list. -/
def NoneStranded (s : HandOff) : Prop :=
  ∀ w, s.Idle w → s.pending ≠ some w → (s.workers w).listConn = []

end HandOff

/-! ## 1. One step -/

namespace Worker.Ok

variable {v : Worker} {b : Bool}

theorem push (h : v.Ok false) (info : ConnInfo) :
    Ok { v with listConn := v.listConn ++ [info], queued := v.queued ++ [info] } true where
  split := by
    show v.queued ++ [info] = v.popped ++ (v.listConn ++ [info])
    rw [h.split, List.append_assoc]
  count := by
    have hcount := h.count
    simp only [due, List.length_append, List.length_singleton] at hcount ⊢
    simp only [Bool.false_eq_true, if_false, if_true] at hcount ⊢
    omega

theorem notify (h : v.Ok true) (ok : Bool) :
    Ok (if ok then { v with pipe := v.pipe + 1 } else { v with failed := v.failed + 1 }) false := by
  have hcount := h.count
  simp only [due, if_true] at hcount
  cases ok with
  | true =>
    refine ⟨h.split, ?_⟩
    simp only [due, if_true, Bool.false_eq_true, if_false]
    omega
  | false =>
    refine ⟨h.split, ?_⟩
    simp only [due, Bool.false_eq_true, if_false]
    omega

theorem readByte (h : v.Ok b) (hidle : v.callback = .idle) (hpipe : v.pipe ≠ 0) :
    Ok { v with pipe := v.pipe - 1, callback := .gotByte } b where
  split := h.split
  count := by
    have hcount := h.count
    simp only [due, hidle, reduceCtorEq, if_false, if_true] at hcount ⊢
    omega

/-- A byte that has been read stands for an entry of the list. -/
theorem popFront (h : v.Ok b) (hgot : v.callback = .gotByte) :
    ∃ info rest, v.listConn = info :: rest ∧
      Ok { v with listConn := rest, popped := v.popped ++ [info], callback := .opening } b := by
  have hcount := h.count
  simp only [due, hgot, if_true] at hcount
  cases hl : v.listConn with
  | nil =>
    rw [hl, List.length_nil] at hcount
    omega
  | cons info rest =>
    rw [hl, List.length_cons] at hcount
    refine ⟨info, rest, rfl, ?_, ?_⟩
    · show v.queued = v.popped ++ [info] ++ rest
      rw [h.split, hl, List.append_assoc, List.singleton_append]
    · simp only [due, reduceCtorEq, if_false]
      omega

theorem finish (h : v.Ok b) (hopening : v.callback = .opening) :
    Ok { v with callback := .idle } b where
  split := h.split
  count := by
    have hcount := h.count
    simpa only [due, hopening, reduceCtorEq, if_false] using hcount

end Worker.Ok

namespace HandOff

variable {n : Nat} {s s' : HandOff}

/-- What a step can do. -/
theorem step_cases {e : HandOffStep} (hs : s.step n e = some s') :
    (∃ sfd tid w, e = .dispatch sfd ∧ s.pending = none ∧ nextTid s.lastThread n = some tid ∧
      atWorker n tid = some w ∧
      s' = { s.setWorker w { s.workers w with
               listConn := (s.workers w).listConn ++ [⟨s.accepted.length, sfd⟩],
               queued := (s.workers w).queued ++ [⟨s.accepted.length, sfd⟩] } with
             lastThread := tid, pending := some w,
             accepted := s.accepted ++ [⟨s.accepted.length, sfd⟩] }) ∨
    (∃ ok w, e = .notify ok ∧ s.pending = some w ∧
      s' = { s.setWorker w (if ok then { s.workers w with pipe := (s.workers w).pipe + 1 }
                            else { s.workers w with failed := (s.workers w).failed + 1 }) with
             pending := none }) ∨
    (∃ w, e = .readByte w true ∧ (s.workers w).callback = .idle ∧ (s.workers w).pipe ≠ 0 ∧
      s' = s.setWorker w { s.workers w with
             pipe := (s.workers w).pipe - 1, callback := .gotByte }) ∨
    (∃ w, e = .readByte w false ∧ s' = s) ∨
    (∃ w, e = .popFront w ∧ (s.workers w).callback = .gotByte ∧ (s.workers w).listConn = [] ∧
      s' = { s.setWorker w { s.workers w with callback := .idle } with emptyHit := true }) ∨
    (∃ w info rest, e = .popFront w ∧ (s.workers w).callback = .gotByte ∧
      (s.workers w).listConn = info :: rest ∧
      s' = s.setWorker w { s.workers w with
             listConn := rest, popped := (s.workers w).popped ++ [info], callback := .opening }) ∨
    ∃ w, e = .finish w ∧ (s.workers w).callback = .opening ∧
      s' = s.setWorker w { s.workers w with callback := .idle } := by
  cases e with
  | dispatch sfd =>
    left
    simp only [step] at hs
    split at hs
    · cases hs
    · next hpending =>
      split at hs
      · cases hs
      · next tid htid =>
        split at hs
        · cases hs
        · next w hat =>
          cases hs
          exact ⟨sfd, tid, w, rfl, not_not.mp hpending, htid, hat, rfl⟩
  | notify ok =>
    right; left
    simp only [step] at hs
    split at hs
    · cases hs
    · next w hpending =>
      cases hs
      exact ⟨ok, w, rfl, hpending, rfl⟩
  | readByte w ok =>
    right; right
    simp only [step] at hs
    split at hs
    · next hidle =>
      cases ok with
      | true =>
        rw [if_pos rfl] at hs
        split at hs
        · cases hs
        · next hpipe =>
          cases hs
          exact .inl ⟨w, rfl, hidle.2, hpipe, rfl⟩
      | false =>
        cases hs
        exact .inr (.inl ⟨w, rfl, rfl⟩)
    · cases hs
  | popFront w =>
    right; right; right; right
    simp only [step] at hs
    split at hs
    · next hgot =>
      split at hs
      · next hnil =>
        cases hs
        exact .inl ⟨w, rfl, hgot.2, hnil, rfl⟩
      · next info rest hcons =>
        cases hs
        exact .inr (.inl ⟨w, info, rest, rfl, hgot.2, hcons, rfl⟩)
    · cases hs
  | finish w =>
    right; right; right; right; right; right
    simp only [step] at hs
    split at hs
    · next hopening =>
      cases hs
      exact ⟨w, rfl, hopening.2, rfl⟩
    · cases hs

/-- A step of one worker alone. -/
theorem Linked.setWorker (h : s.Linked n) {w : Nat} {v : Worker}
    (hv : v.Ok (s.pending = some w)) (hq : v.queued = (s.workers w).queued) :
    (s.setWorker w v).Linked n where
  last := h.last
  numbered := h.numbered
  queued u := by
    simp only [HandOff.setWorker, Function.update_apply]
    split
    · next huw =>
      subst huw
      rw [hq]
      exact h.queued u
    · exact h.queued u
  worker u := by
    simp only [HandOff.setWorker, Function.update_apply]
    split
    · next huw =>
      subst huw
      exact hv
    · exact h.worker u
  no_empty := h.no_empty

theorem init_linked : HandOff.init.Linked n where
  last := rfl
  numbered := rfl
  queued w := by simp [init]
  worker w := ⟨rfl, rfl⟩
  no_empty := rfl

/-- The turn of the next connection. -/
theorem Linked.tid (h : s.Linked n) (h₀ : n ≠ 0) (hn : n ≤ 2 ^ 30) :
    nextTid s.lastThread n = some ((s.accepted.length % n : Nat) : Int) ∧
      atWorker n ((s.accepted.length % n : Nat) : Int) = some (s.accepted.length % n) := by
  have hpos := Nat.pos_of_ne_zero h₀
  have hlast := h.last
  have hmod : (s.lastThread + 1).toNat % n = s.accepted.length % n := by
    rw [hlast]
    split
    · next h0 => simp [h0]
    · next h0 =>
      rw [Int.toNat_natCast, Nat.mod_add_mod, Nat.sub_add_cancel (Nat.pos_of_ne_zero h0)]
  have hrange : -1 ≤ s.lastThread ∧ s.lastThread < 2 ^ 31 - 1 := by
    split at hlast
    · omega
    · have hlt := Nat.mod_lt (s.accepted.length - 1) hpos
      omega
  refine ⟨?_, atWorker_of_lt (Nat.mod_lt _ hpos)⟩
  rw [nextTid_eq h₀ hrange.1 hrange.2, hmod, toInt_mod h₀ (by omega)]

theorem filter_snoc (accepted : List ConnInfo) (info : ConnInfo) (w : Nat) :
    (accepted ++ [info]).filter (fun e => e.no % n = w) =
      (accepted.filter fun e => e.no % n = w) ++ if info.no % n = w then [info] else [] := by
  rw [List.filter_append, List.filter_singleton]
  simp

/-- The state after a dispatch: the connection is queued at the worker whose turn it is. -/
theorem Linked.dispatch (h : s.Linked n) (h₀ : n ≠ 0) (hpending : s.pending = none) (sfd : Int) :
    let w := s.accepted.length % n
    let info : ConnInfo := ⟨s.accepted.length, sfd⟩
    Linked n { s.setWorker w { s.workers w with
                 listConn := (s.workers w).listConn ++ [info],
                 queued := (s.workers w).queued ++ [info] } with
               lastThread := (w : Nat), pending := some w, accepted := s.accepted ++ [info] } := by
  intro w info
  have hlt : w < n := Nat.mod_lt s.accepted.length (Nat.pos_of_ne_zero h₀)
  have hok := h.worker
  rw [hpending] at hok
  refine ⟨?_, ?_, ?_, ?_, h.no_empty⟩
  · simp [w]
  · simp [h.numbered, List.range_succ, info]
  · intro u
    show (Function.update s.workers w _ u).queued = _
    rw [filter_snoc, Function.update_apply]
    by_cases hu : u = w
    · subst hu
      rw [if_pos rfl, if_pos hlt, if_pos rfl]
      show _ ++ _ = _
      rw [h.queued, if_pos hlt]
    · rw [if_neg hu, if_neg (Ne.symm hu), List.append_nil]
      exact h.queued u
  · intro u
    show (Function.update s.workers w _ u).Ok _
    rw [Function.update_apply]
    by_cases hu : u = w
    · subst hu
      simpa using (hok w).push info
    · simpa [hu, Ne.symm hu] using hok u

theorem Linked.notify (h : s.Linked n) {w : Nat} (hpending : s.pending = some w) (ok : Bool) :
    Linked n { s.setWorker w (if ok then { s.workers w with pipe := (s.workers w).pipe + 1 }
                              else { s.workers w with failed := (s.workers w).failed + 1 }) with
               pending := none } := by
  have hok := h.worker
  rw [hpending] at hok
  refine ⟨h.last, h.numbered, fun u => ?_, fun u => ?_, h.no_empty⟩
  · show (Function.update s.workers w _ u).queued = _
    rw [Function.update_apply]
    split
    · next huw =>
      subst huw
      cases ok <;> exact h.queued u
    · exact h.queued u
  · show (Function.update s.workers w _ u).Ok _
    rw [Function.update_apply]
    split
    · next huw =>
      subst huw
      have hu := hok u
      simp only [decide_true] at hu
      simpa using hu.notify ok
    · next huw => simpa [Ne.symm huw] using hok u

theorem step_linked (h₀ : n ≠ 0) (hn : n ≤ 2 ^ 30) {e : HandOffStep} (h : s.Linked n)
    (hs : s.step n e = some s') : s'.Linked n := by
  rcases step_cases hs with ⟨sfd, tid, w, -, hpending, htid, hat, rfl⟩ |
    ⟨ok, w, -, hpending, rfl⟩ | ⟨w, -, hidle, hpipe, rfl⟩ | ⟨w, -, rfl⟩ |
    ⟨w, -, hgot, hnil, rfl⟩ | ⟨w, info, rest, -, hgot, hcons, rfl⟩ | ⟨w, -, hopening, rfl⟩
  · obtain ⟨htid', hat'⟩ := h.tid h₀ hn
    obtain rfl : _ = tid := Option.some.inj (htid'.symm.trans htid)
    obtain rfl : _ = w := Option.some.inj (hat'.symm.trans hat)
    exact h.dispatch h₀ hpending sfd
  · exact h.notify hpending ok
  · exact h.setWorker ((h.worker w).readByte hidle hpipe) rfl
  · exact h
  · obtain ⟨info, rest, hcons, -⟩ := (h.worker w).popFront hgot
    rw [hnil] at hcons
    cases hcons
  · obtain ⟨info', rest', hcons', hok⟩ := (h.worker w).popFront hgot
    obtain ⟨rfl, rfl⟩ := List.cons.inj (hcons.symm.trans hcons')
    exact h.setWorker hok rfl
  · exact h.setWorker ((h.worker w).finish hopening) rfl

theorem run_linked (h₀ : n ≠ 0) (hn : n ≤ 2 ^ 30) {es : List HandOffStep}
    (hr : Machine.run (step n) init es = some s) : s.Linked n :=
  Machine.run_invariant (fun _ _ _ h hs => step_linked h₀ hn h hs) init_linked hr

/-! ## 2. The hand-off -/

theorem Linked.exact (h : s.Linked n) (h₀ : n ≠ 0) (hn : n ≤ 2 ^ 30) : s.Exact n where
  numbered := h.numbered
  queued := h.queued
  popped w := ⟨_, (h.worker w).split.symm⟩
  no_empty := h.no_empty
  dispatches hpending sfd := by
    obtain ⟨htid, hat⟩ := h.tid h₀ hn
    simp only [step, hpending, htid, hat]
    rfl

theorem step_accepted {e : HandOffStep} (hs : s.step n e = some s') :
    s'.accepted.map ConnInfo.sfd = s.accepted.map ConnInfo.sfd ++ e.dispatched.toList := by
  rcases step_cases hs with ⟨sfd, tid, w, rfl, -, -, -, rfl⟩ | ⟨ok, w, rfl, -, rfl⟩ |
    ⟨w, rfl, -, -, rfl⟩ | ⟨w, rfl, rfl⟩ | ⟨w, rfl, -, -, rfl⟩ | ⟨w, info, rest, rfl, -, -, rfl⟩ |
    ⟨w, rfl, -, rfl⟩
  · simp [HandOffStep.dispatched]
  all_goals simp [setWorker, HandOffStep.dispatched]

/-- With `thread_num_` equal to the number of workers, the `k`-th connection is
queued at the worker `k % n` and nowhere else, each worker pops a prefix of what
was queued at it, and none ever finds its list empty. The connections are those
that the master has dispatched, in this order. -/
theorem handOff_exact {pipes : Pipes} {v : List (Int × Int)} (hn : 1 ≤ n)
    (hv : initThreads pipes n = some v) {es : List HandOffStep}
    (hr : Machine.run (step n) init es = some s) :
    s.Exact n ∧ s.accepted.map ConnInfo.sfd = es.filterMap HandOffStep.dispatched := by
  have hn₀ := Nat.ne_of_gt hn
  have hle := initThreads_le hv
  refine ⟨(run_linked hn₀ hle hr).exact hn₀ hle, ?_⟩
  refine Machine.run_history (C := fun _ _ => True)
    (I := fun es s => s.accepted.map ConnInfo.sfd = es.filterMap HandOffStep.dispatched)
    (h := []) ?_ rfl (Machine.along_of_forall _ fun _ _ => trivial) hr
  intro es s e s' haccepted _ hs
  rw [step_accepted hs, haccepted, List.filterMap_append]
  cases e <;> rfl

/-- Two clients are accepted, and the first worker takes its own while the
second one is being queued. -/
theorem handOff_exact_twoClients :
    ∃ s, Machine.run (step 4) init [.dispatch 5, .notify true, .dispatch 6, .readByte 0 true,
      .popFront 0, .notify true, .finish 0] = some s ∧
      s.Exact 4 ∧ s.accepted.map ConnInfo.sfd = [5, 6] := by
  have hsome : (Machine.run (step 4) init [.dispatch 5, .notify true, .dispatch 6,
      .readByte 0 true, .popFront 0, .notify true, .finish 0]).isSome := by decide +kernel
  obtain ⟨s, hs⟩ := Option.isSome_iff_exists.mp hsome
  exact ⟨s, hs, handOff_exact (by decide) initThreads_fourPipes hs⟩

/-! ## 3. Idle workers -/

theorem step_none_failed {e : HandOffStep} (h : ∀ w, (s.workers w).failed = 0)
    (he : e ≠ .notify false) (hs : s.step n e = some s') (u : Nat) : (s'.workers u).failed = 0 := by
  have hset : ∀ w v, v.failed = 0 → (Function.update s.workers w v u).failed = 0 := by
    intro w v hv
    rw [Function.update_apply]
    split
    · exact hv
    · exact h u
  rcases step_cases hs with ⟨sfd, tid, w, -, -, -, -, rfl⟩ | ⟨ok, w, rfl, -, rfl⟩ |
    ⟨w, -, -, -, rfl⟩ | ⟨w, -, rfl⟩ | ⟨w, -, -, -, rfl⟩ | ⟨w, info, rest, -, -, -, rfl⟩ |
    ⟨w, -, -, rfl⟩
  · exact hset w _ (h w)
  · cases ok with
    | true => exact hset w _ (h w)
    | false => exact absurd rfl he
  · exact hset w _ (h w)
  · exact h u
  · exact hset w _ (h w)
  · exact hset w _ (h w)
  · exact hset w _ (h w)

/-- The list of an idle worker is empty exactly when no write to it has failed
and the master is not between `push_back` and the write. So nothing is stranded
in a run in which every write succeeds. -/
theorem idle_list_iff {pipes : Pipes} {v : List (Int × Int)} (hn : 1 ≤ n)
    (hv : initThreads pipes n = some v) {es : List HandOffStep}
    (hr : Machine.run (step n) init es = some s) :
    (∀ w, s.Idle w →
      ((s.workers w).listConn = [] ↔ (s.workers w).failed = 0 ∧ s.pending ≠ some w)) ∧
    ((∀ e ∈ es, e ≠ .notify false) → s.NoneStranded) := by
  have hiff : ∀ w, s.Idle w →
      ((s.workers w).listConn = [] ↔ (s.workers w).failed = 0 ∧ s.pending ≠ some w) := by
    rintro w ⟨hpipe, hcb⟩
    have hcount := ((run_linked (Nat.ne_of_gt hn) (initThreads_le hv) hr).worker w).count
    rw [← List.length_eq_zero_iff, hcount]
    simp only [Worker.due, hpipe, hcb, reduceCtorEq, if_false, decide_eq_true_eq]
    split <;> simp_all
  refine ⟨hiff, fun hall w hidle hpending => (hiff w hidle).mpr ⟨?_, hpending⟩⟩
  have hnone : ∀ w, (s.workers w).failed = 0 :=
    Machine.run_invariant_along (I := fun s => ∀ w, (s.workers w).failed = 0)
      (fun _ _ _ h he hs => step_none_failed h he hs) (fun _ => rfl)
      (Machine.along_of_forall _ hall) hr
  exact hnone w

/-- The first write fails and the second succeeds. -/
theorem idle_list_iff_oneFailure :
    ∃ s, Machine.run (step 4) init
        [.dispatch 5, .notify false, .dispatch 6, .notify true] = some s ∧
      (s.Idle 0 →
        ((s.workers 0).listConn = [] ↔ (s.workers 0).failed = 0 ∧ s.pending ≠ some 0)) := by
  have hsome : (Machine.run (step 4) init [.dispatch 5, .notify false, .dispatch 6,
      .notify true]).isSome := by decide +kernel
  obtain ⟨s, hs⟩ := Option.isSome_iff_exists.mp hsome
  exact ⟨s, hs, (idle_list_iff (by decide) initThreads_fourPipes hs).1 0⟩

/-- A connection whose write failed stays in the list of an idle worker. -/
theorem failed_write_strands :
    ∃ s, Machine.run (step 4) init [.dispatch 5, .notify false] = some s ∧
      s.Idle 0 ∧ s.pending = none ∧ (s.workers 0).listConn = [⟨0, 5⟩] ∧ ¬ s.NoneStranded := by
  have hrun : (Machine.run (step 4) init [.dispatch 5, .notify false]).map
      (fun s => (s.workers 0, s.pending)) =
      some (⟨[⟨0, 5⟩], 0, .idle, [⟨0, 5⟩], [], 1⟩, none) := by decide +kernel
  obtain ⟨s, hs, hfinal⟩ := Option.map_eq_some_iff.mp hrun
  obtain ⟨hw, hpending⟩ := Prod.mk.inj hfinal
  have hidle : s.Idle 0 := by simp [Idle, hw]
  refine ⟨s, hs, hidle, hpending, by rw [hw], fun h => ?_⟩
  have hempty := h 0 hidle (by simp [hpending])
  rw [hw] at hempty
  cases hempty

end HandOff

end SundayServer
