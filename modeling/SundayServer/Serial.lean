import SundayServer.UserNames
import SundayServer.Lib.Mutex

/-!
# The threads under `mutex_`, one after the other

A handler holds `mutex_` from before its first statement until after its reply.
Other threads go on meanwhile: they start callbacks, and they reply where a
handler takes no lock. So every run of the threads of `UserNames.lean` can be
reordered until no other thread does anything while one holds the mutex.

* `Traced`: the threads, what each has received and has replied so far, and the
  order in which they have taken the mutex for messages.
* `Locking`: a program that takes the mutex only without it, calls the database
  only with it, and gives it up within four steps.
* `AtomicStep`: threads whose handlers run under the mutex in one step.

Results:
1. `prog_locking`: all callbacks are such programs.
2. `threads_serializable`: every run has a reordering in which the owner of the
   mutex is alone.
3. `deadlock_free`: nothing but a `write` to a client that takes no bytes stops the
   owner of the mutex; while that lasts, it keeps the mutex.
4. `threads_atomic`: every run up to a free mutex is one of handlers in one step.
-/

namespace SundayServer

/-! ## Definitions -/

/-- The thread that makes a step. -/
def WorkersStep.thread : WorkersStep → Nat
  | .read t .. | .freelist t | .lock t | .unlock t | .query t _ | .retry t | .writeSfd t => t

/-- A step that touches the mutex or the tables. -/
def WorkersStep.isGlobal : WorkersStep → Bool
  | .lock _ | .unlock _ | .query .. => true
  | .read .. | .freelist _ | .retry _ | .writeSfd _ => false

/-- The messages that a thread was given and the replies that it has sent. -/
structure Log where
  received : List Message
  sent : List Bytes
deriving DecidableEq, Repr

/-- What a step adds to the log of its thread. -/
def Workers.note (s : Workers) (l : Log) : WorkersStep → Log
  | .read _ conn peer data =>
    { l with received := l.received ++ (startRoutine conn peer data).messages }
  | .writeSfd t =>
    match s.prog t with
    | .writeSfd buf _ => { l with sent := l.sent ++ [buf] }
    | _ => l
  | _ => l

/-- The thread that takes the mutex. -/
def WorkersStep.locker : WorkersStep → Option Nat
  | .lock t => some t
  | _ => none

/-- The mutex is wanted for the pool: there is no call under it. -/
def Prog.isFreelist : Prog → Bool
  | .lock (.unlock _) => true
  | _ => false

/-- The thread that takes the mutex in a step, if it does so for a message. -/
def Workers.taker (s : Workers) : WorkersStep → List Nat
  | .lock t => if (s.prog t).isFreelist then [] else [t]
  | _ => []

/-- The threads, the log of each, and the order in which they have taken the mutex
for messages. -/
structure Traced where
  workers : Workers
  log : Nat → Log
  order : List Nat

namespace Traced

def init (db : Database) : Traced := ⟨.init db, fun _ => ⟨[], []⟩, []⟩

def owner (s : Traced) : Option Nat := s.workers.owner

def step (s : Traced) (e : WorkersStep) : Option Traced :=
  (s.workers.step e).map fun w =>
    ⟨w, Function.update s.log e.thread (s.workers.note (s.log e.thread) e),
      s.order ++ s.workers.taker e⟩

end Traced

/-- A program that uses the mutex as it should, from a point where its thread
does not hold it (0), or holds it and gives it up within that many steps. -/
def Locking : Nat → Prog → Prop
  | _, .crash => True
  | 0, .done => True
  | 0, .lock k => Locking 4 k
  | 0, .writeSfd _ k => Locking 0 k
  | _ + 1, .unlock k => Locking 0 k
  | n + 2, .query _ _ k => ∀ o, Locking (n + 1) (k o)
  | n + 2, .writeSfd _ k => Locking (n + 1) k
  | _, _ => False

/-- The thread `t` keeps to it, with `n` steps left to hold the mutex. -/
def Workers.Keeps (s : Workers) (t n : Nat) : Prop :=
  (s.owner = some t ↔ n ≠ 0) ∧ n ≤ 4 ∧ Locking n (s.prog t)

/-- All threads of a state do. -/
def Workers.Locking (s : Workers) : Prop := ∀ t, ∃ n, s.Keeps t n

/-- The rest of a handler under the mutex, up to its release, with these answers of
the database: the tables, the replies and what the thread does next. -/
def Prog.locked : Prog → List Answer → Database → Option (Database × List Bytes × Prog)
  | .unlock k, [], db => some (db, [], k)
  | .query c st k, ans :: as, db => (db.query c st.text ans).bind fun p => (k p.2).locked as p.1
  | .writeSfd buf k, as, db => (k.locked as db).map fun p => (p.1, buf :: p.2.1, p.2.2)
  | _, _, _ => none

/-- The steps when a handler runs in one. -/
inductive AtomicStep
  | read (t : Nat) (conn : Conn) (peer : InAddr) (data : Bytes)
  | freelist (t : Nat)
  | retry (t : Nat)
  /-- A reply of a handler that takes no mutex. -/
  | writeSfd (t : Nat)
  /-- A handler under the mutex, or the use of the pool. -/
  | handler (t : Nat) (as : List Answer)
deriving DecidableEq, Repr

/-- The steps on the mutex and the tables that it stands for. -/
def AtomicStep.globals : AtomicStep → List WorkersStep
  | .read .. | .freelist _ | .retry _ | .writeSfd _ => []
  | .handler t as => .lock t :: (as.map (.query t) ++ [.unlock t])

namespace Traced

/-- The thread `t` has run to the end of what it does under the mutex. -/
def finish (s : Traced) (t : Nat) (p : Database × List Bytes × Prog) : Traced :=
  { s with
    workers := ⟨p.1, none, Function.update s.workers.prog t p.2.2⟩
    log := Function.update s.log t { s.log t with sent := (s.log t).sent ++ p.2.1 } }

/-- The steps while nobody holds the mutex. -/
def atomicStep (s : Traced) : AtomicStep → Option Traced
  | .read t conn peer data => s.step (.read t conn peer data)
  | .freelist t => s.step (.freelist t)
  | .retry t => s.step (.retry t)
  | .writeSfd t => s.step (.writeSfd t)
  | .handler t as =>
    match s.workers.prog t with
    | .lock k => (k.locked as s.workers.db).map fun p =>
        { s.finish t p with order := s.order ++ s.workers.taker (.lock t) }
    | _ => none

end Traced

/-! ## 1. The callbacks -/

namespace SerialLemmas

variable {k : Prog}

theorem locking_reply (n : Nat) (str : Bytes) (h : Locking 0 k) :
    Locking (n + 2) (sendReply str (.unlock k)) := h

theorem locking_runInsert (n : Nat) (s : Statement) (h : Locking 0 k) :
    Locking (n + 3) (runInsert s k) := fun _ => locking_reply n _ h

theorem locking_insertCase (r : Request) (h : Locking 0 k) : Locking 0 (insertCase r k) := by
  show Locking 4 (if r.name ≠ ascii "0000" ∧ r.deviceId ≠ ascii "0000" then
    runInsert (.insertDevice r.name r.deviceId r.p2pId r.ip) k else lookupAndInsert r k)
  split
  · exact locking_runInsert 1 _ h
  · intro o
    beta_reduce
    split
    · trivial
    · split
      · exact locking_runInsert 0 _ h
      · exact locking_reply 1 _ h

theorem locking_selectCase (r : Request) (h : Locking 0 k) : Locking 0 (selectCase r k) := by
  intro o
  beta_reduce
  split
  · trivial
  · exact locking_reply 1 _ h

theorem locking_dispatch (r : Request) (h : Locking 0 k) : Locking 0 (dispatch r k) := by
  unfold dispatch
  split
  · exact locking_insertCase r h
  · split
    · exact locking_selectCase r h
    · split
      · exact fun _ => locking_reply 1 _ h
      · split
        · exact fun _ => h
        · exact h

theorem locking_handleAll (ms : List Message) : Locking 0 (handleAll ms) := by
  induction ms with
  | nil => trivial
  | cons m ms ih =>
    rw [handleAll_cons]
    cases m with
    | request r => exact locking_dispatch r ih
    | malformed => exact ih

end SerialLemmas

open SerialLemmas

theorem prog_locking (conn : Conn) (peer : InAddr) (data : Bytes) :
    Locking 0 (startRoutine conn peer data).prog := by
  rcases prog_cases conn peer data with ⟨hprog, -⟩ | hprog
  · rw [hprog]
    trivial
  · rw [hprog]
    exact locking_handleAll _

/-! ## 2. Any interleaving is a serial one -/

/-- What one thread sees and changes. -/
structure View where
  db : Database
  owner : Option Nat
  prog : Prog

def Workers.view (s : Workers) (t : Nat) : View := ⟨s.db, s.owner, s.prog t⟩

def Workers.setView (s : Workers) (t : Nat) (v : View) : Workers :=
  ⟨v.db, v.owner, Function.update s.prog t v.prog⟩

/-- A step, as its thread sees it. -/
def View.act (v : View) : WorkersStep → Option View
  | .read _ conn peer data =>
    match v.prog with
    | .done => some { v with prog := (startRoutine conn peer data).prog }
    | _ => none
  | .freelist _ =>
    match v.prog with
    | .done => some { v with prog := freelist }
    | _ => none
  | .lock t =>
    match v.prog, v.owner with
    | .lock k, none => some { v with owner := some t, prog := k }
    | _, _ => none
  | .unlock _ =>
    match v.prog with
    | .unlock k => some { v with owner := none, prog := k }
    | _ => none
  | .query _ ans =>
    match v.prog with
    | .query c st k => (v.db.query c st.text ans).map fun p => { v with db := p.1, prog := k p.2 }
    | _ => none
  | .retry _ =>
    match v.prog with
    | .writeSfd .. => some v
    | _ => none
  | .writeSfd _ =>
    match v.prog with
    | .writeSfd _ k => some { v with prog := k }
    | _ => none

namespace SerialLemmas

theorem step_eq (s : Workers) (e : WorkersStep) :
    s.step e = ((s.view e.thread).act e).map (s.setView e.thread) := by
  cases e with
  | read t conn peer data =>
    cases hp : s.prog t <;> simp [Workers.step, View.act, Workers.view, WorkersStep.thread, hp,
      Workers.setView, Workers.setProg]
  | freelist t =>
    cases hp : s.prog t <;> simp [Workers.step, View.act, Workers.view, WorkersStep.thread, hp,
      Workers.setView, Workers.setProg]
  | lock t =>
    cases hp : s.prog t <;> cases ho : s.owner <;>
      simp [Workers.step, View.act, Workers.view, WorkersStep.thread, hp, ho, Workers.setView,
        Workers.setProg]
  | unlock t =>
    cases hp : s.prog t <;> simp [Workers.step, View.act, Workers.view, WorkersStep.thread, hp,
      Workers.setView, Workers.setProg]
  | query t ans =>
    cases hp : s.prog t <;> simp [Workers.step, View.act, Workers.view, WorkersStep.thread, hp,
      Workers.setView, Workers.setProg, Function.comp_def]
  | retry t =>
    cases hp : s.prog t with
    | writeSfd buf k =>
      have hsame : Function.update s.prog t (.writeSfd buf k) = s.prog := by
        rw [← hp, Function.update_eq_self]
      simp [Workers.step, View.act, Workers.view, WorkersStep.thread, hp, Workers.setView, hsame]
    | _ => simp [Workers.step, View.act, Workers.view, WorkersStep.thread, hp]
  | writeSfd t =>
    cases hp : s.prog t <;> simp [Workers.step, View.act, Workers.view, WorkersStep.thread, hp,
      Workers.setView, Workers.setProg]

/-- A step of the log, too. -/
theorem traced_step {s s' : Traced} {e : WorkersStep} (h : s.step e = some s') :
    ∃ v, (s.workers.view e.thread).act e = some v ∧
      s' = ⟨s.workers.setView e.thread v,
        Function.update s.log e.thread (s.workers.note (s.log e.thread) e),
        s.order ++ s.workers.taker e⟩ := by
  obtain ⟨w, hw, rfl⟩ := Option.map_eq_some_iff.mp h
  rw [step_eq] at hw
  obtain ⟨v, hv, rfl⟩ := Option.map_eq_some_iff.mp hw
  exact ⟨v, hv, rfl⟩

/-- What a step does to the mutex and to the program of its thread. -/
theorem act_cases {v v' : View} {e : WorkersStep} {n : Nat} (h : v.act e = some v')
    (howner : v.owner = some e.thread ↔ n ≠ 0) (hv : Locking n v.prog) :
    (v'.owner = v.owner ∨ (v.owner = none ∧ v'.owner = some e.thread) ∨
      (v.owner = some e.thread ∧ v'.owner = none)) ∧
    (e.isGlobal = true → v.owner = none ∨ v.owner = some e.thread) ∧
    ∃ n', (v'.owner = some e.thread ↔ n' ≠ 0) ∧ n' ≤ max 4 n ∧
      (n ≠ 0 → (n' < n ∨ n' = n ∧ e = .retry e.thread) ∧ (n' = 0 → e = .unlock e.thread)) ∧
      Locking n' v'.prog := by
  obtain ⟨db, owner, prog⟩ := v
  cases e with
  | read t conn peer data =>
    cases prog with
    | done =>
      cases h
      cases n with
      | zero =>
        exact ⟨.inl rfl, fun hg => absurd hg Bool.false_ne_true, 0, howner, Nat.zero_le _,
          fun h0 => absurd rfl h0, prog_locking conn peer data⟩
      | succ n => exact hv.elim
    | _ => cases h
  | freelist t =>
    cases prog with
    | done =>
      cases h
      cases n with
      | zero =>
        exact ⟨.inl rfl, fun hg => absurd hg Bool.false_ne_true, 0, howner, Nat.zero_le _,
          fun h0 => absurd rfl h0, trivial⟩
      | succ n => exact hv.elim
    | _ => cases h
  | lock t =>
    cases prog with
    | lock k =>
      cases owner with
      | none =>
        cases h
        cases n with
        | zero =>
          exact ⟨.inr (.inl ⟨rfl, rfl⟩), fun _ => .inl rfl, 4, by simp [WorkersStep.thread],
            Nat.le_max_left _ _, fun h0 => absurd rfl h0, hv⟩
        | succ n => exact hv.elim
      | some u => cases h
    | _ => cases h
  | unlock t =>
    cases prog with
    | unlock k =>
      cases h
      cases n with
      | zero => exact hv.elim
      | succ n =>
        have hown := howner.mpr (Nat.succ_ne_zero n)
        exact ⟨.inr (.inr ⟨hown, rfl⟩), fun _ => .inr hown, 0, by simp, Nat.zero_le _,
          fun _ => ⟨.inl (Nat.succ_pos n), fun _ => rfl⟩, hv⟩
    | _ => cases h
  | query t ans =>
    cases prog with
    | query c st k =>
      obtain ⟨p, -, rfl⟩ := Option.map_eq_some_iff.mp h
      match n, howner, hv with
      | n + 2, howner, hv =>
        have hown := howner.mpr (Nat.succ_ne_zero _)
        exact ⟨.inl rfl, fun _ => .inr hown, n + 1, by simpa using hown, by omega,
          fun _ => ⟨.inl (Nat.lt_succ_self _), fun h0 => absurd h0 (Nat.succ_ne_zero n)⟩, hv p.2⟩
    | _ => cases h
  | retry t =>
    cases prog with
    | writeSfd buf k =>
      cases h
      exact ⟨.inl rfl, fun hg => absurd hg Bool.false_ne_true, n, howner, Nat.le_max_right _ _,
        fun h0 => ⟨.inr ⟨rfl, rfl⟩, fun hzero => absurd hzero h0⟩, hv⟩
    | _ => cases h
  | writeSfd t =>
    cases prog with
    | writeSfd buf k =>
      cases h
      match n, howner, hv with
      | 0, howner, hv =>
        exact ⟨.inl rfl, fun hg => absurd hg Bool.false_ne_true, 0, howner, Nat.zero_le _,
          fun h0 => absurd rfl h0, hv⟩
      | n + 2, howner, hv =>
        have hown := howner.mpr (Nat.succ_ne_zero _)
        exact ⟨.inl rfl, fun hg => absurd hg Bool.false_ne_true, n + 1, by simpa using hown,
          by omega,
          fun _ => ⟨.inl (Nat.lt_succ_self _), fun h0 => absurd h0 (Nat.succ_ne_zero n)⟩, hv⟩
    | _ => cases h

/-- A step that is not global looks at its own program only. -/
theorem act_local {v v' : View} {e : WorkersStep} (h : v.act e = some v')
    (he : e.isGlobal = false) :
    v' = { v with prog := v'.prog } ∧
      ∀ w : View, w.prog = v.prog → w.act e = some { w with prog := v'.prog } := by
  obtain ⟨db, owner, prog⟩ := v
  cases e with
  | read | freelist =>
    cases prog with
    | done =>
      cases h
      refine ⟨rfl, fun w hw => ?_⟩
      simp only [View.act, hw]
    | _ => cases h
  | retry t =>
    cases prog with
    | writeSfd buf k =>
      cases h
      refine ⟨rfl, fun w hw => ?_⟩
      obtain ⟨db', owner', prog'⟩ := w
      cases hw
      rfl
    | _ => cases h
  | writeSfd t =>
    cases prog with
    | writeSfd buf k =>
      cases h
      refine ⟨rfl, fun w hw => ?_⟩
      simp only [View.act, hw]
    | _ => cases h
  | lock | unlock | query => cases he

theorem note_congr {s w : Workers} {e : WorkersStep} (h : w.prog e.thread = s.prog e.thread)
    (l : Log) : w.note l e = s.note l e := by
  cases e with
  | writeSfd t =>
    have ht : w.prog t = s.prog t := h
    simp only [Workers.note, ht]
  | read | freelist | lock | unlock | query | retry => rfl

theorem taker_congr {s w : Workers} {e : WorkersStep} (h : w.prog e.thread = s.prog e.thread) :
    w.taker e = s.taker e := by
  cases e with
  | lock t =>
    have ht : w.prog t = s.prog t := h
    simp only [Workers.taker, ht]
  | read | freelist | unlock | query | retry | writeSfd => rfl

theorem taker_local {e : WorkersStep} (h : e.isGlobal = false) (s : Workers) :
    s.taker e = [] := by
  cases e with
  | lock => cases h
  | read | freelist | unlock | query | retry | writeSfd => rfl

/-- A step of one thread, for each of them: the one that makes it comes nearer to
giving the mutex up, if it holds it, and the others are as before. -/
theorem keeps_step {s s' : Traced} {e : WorkersStep} {t n : Nat} (h : s.workers.Locking)
    (hn : s.workers.Keeps t n) (hs : s.step e = some s') :
    ∃ n', s'.workers.Keeps t n' ∧
      (e.thread = t → n ≠ 0 →
        (n' < n ∨ n' = n ∧ e = .retry t) ∧ (n' = 0 → e = .unlock t)) ∧
      (e.thread ≠ t → n' = n) := by
  obtain ⟨v, hv, rfl⟩ := traced_step hs
  by_cases ht : e.thread = t
  · subst ht
    obtain ⟨howner, hle, hlock⟩ := hn
    obtain ⟨-, -, n', howner', hle', hlt, hlock'⟩ := act_cases hv howner hlock
    refine ⟨n', ⟨howner', by omega, ?_⟩, fun _ => hlt, fun hne => absurd rfl hne⟩
    show SundayServer.Locking n' (Function.update s.workers.prog e.thread v.prog e.thread)
    rwa [Function.update_self]
  · obtain ⟨m, howner, -, hlock⟩ := h e.thread
    obtain ⟨hcases, -, -⟩ := act_cases hv howner hlock
    refine ⟨n, ⟨?_, hn.2.1, ?_⟩, fun heq => absurd heq ht, fun _ => rfl⟩
    · refine .trans ?_ hn.1
      show v.owner = some t ↔ s.workers.owner = some t
      rcases hcases with hkeep | ⟨hnone, htake⟩ | ⟨hown, hgive⟩
      · rw [hkeep]
        rfl
      · have hnone' : s.workers.owner = none := hnone
        simp [hnone', htake, ht]
      · have hown' : s.workers.owner = some e.thread := hown
        simp [hown', hgive, ht]
    · show SundayServer.Locking n (Function.update s.workers.prog e.thread v.prog t)
      rw [Function.update_of_ne (Ne.symm ht)]
      exact hn.2.2

theorem traced_locking {s s' : Traced} {e : WorkersStep} (h : s.workers.Locking)
    (hs : s.step e = some s') : s'.workers.Locking := by
  intro t
  obtain ⟨n, hn⟩ := h t
  obtain ⟨n', hn', -⟩ := keeps_step h hn hs
  exact ⟨n', hn'⟩

/-- A thread without the mutex makes no global step while another holds it. -/
theorem traced_foreign {s s' : Traced} {e : WorkersStep} {t : Nat} (h : s.workers.Locking)
    (ho : s.owner = some t) (hne : e.thread ≠ t) (hs : s.step e = some s') :
    e.isGlobal = false := by
  obtain ⟨v, hv, rfl⟩ := traced_step hs
  obtain ⟨n, howner, -, hlock⟩ := h e.thread
  by_contra hglobal
  rcases (act_cases hv howner hlock).2.1 (by simpa using hglobal) with hnone | hown
  · exact absurd (hnone.symm.trans ho) (by simp)
  · exact hne (Option.some.inj (hown.symm.trans ho))

/-- A step that another thread makes after the owner's step could have been made
before it. -/
theorem traced_swap {s s₁ s₂ : Traced} {e₁ e₂ : WorkersStep} (h₁ : s.step e₁ = some s₁)
    (h₂ : s₁.step e₂ = some s₂) (hne : e₂.thread ≠ e₁.thread) (hlocal : e₂.isGlobal = false) :
    ∃ s', s.step e₂ = some s' ∧ s'.owner = s.owner ∧ s'.step e₁ = some s₂ := by
  obtain ⟨v₁, hv₁, rfl⟩ := traced_step h₁
  obtain ⟨v₂, hv₂, rfl⟩ := traced_step h₂
  obtain ⟨hprog, hact⟩ := act_local hv₂ hlocal
  -- neither step touches the program of the other thread
  have hother : Function.update s.workers.prog e₁.thread v₁.prog e₂.thread =
      s.workers.prog e₂.thread := Function.update_of_ne hne _ _
  have hown : Function.update s.workers.prog e₂.thread v₂.prog e₁.thread =
      s.workers.prog e₁.thread := Function.update_of_ne hne.symm _ _
  let w : Workers := s.workers.setView e₂.thread { s.workers.view e₂.thread with prog := v₂.prog }
  have hfirst : s.step e₂ = some ⟨w, Function.update s.log e₂.thread
      (s.workers.note (s.log e₂.thread) e₂), s.order⟩ := by
    rw [Traced.step, step_eq, hact (s.workers.view e₂.thread) hother.symm, taker_local hlocal,
      List.append_nil]
    rfl
  refine ⟨_, hfirst, rfl, ?_⟩
  have hview : w.view e₁.thread = s.workers.view e₁.thread := by
    show View.mk _ _ (Function.update s.workers.prog e₂.thread v₂.prog e₁.thread) = _
    rw [hown]
    rfl
  rw [Traced.step, step_eq, hview, hv₁]
  simp only [Option.map_some, Option.some.injEq, Traced.mk.injEq]
  refine ⟨?_, ?_, ?_⟩
  · rw [hprog]
    simp only [w, Workers.setView, Workers.view, Workers.mk.injEq, true_and]
    exact Function.update_comm hne _ _ _
  · have hnote₁ : ∀ l, (s.workers.setView e₁.thread v₁).note l e₂ = s.workers.note l e₂ :=
      note_congr hother
    have hnote₂ : ∀ l, w.note l e₁ = s.workers.note l e₁ := note_congr hown
    rw [Function.update_of_ne hne.symm, Function.update_of_ne hne, hnote₁, hnote₂]
    exact Function.update_comm hne _ _ _
  · rw [taker_local hlocal, List.append_nil, taker_congr hown]

theorem traced_disciplined : Mutex.Disciplined Traced.step Traced.owner WorkersStep.thread
    WorkersStep.isGlobal fun s => s.workers.Locking where
  keeps := traced_locking
  owner_cases h hs := by
    obtain ⟨v, hv, rfl⟩ := traced_step hs
    obtain ⟨n, howner, -, hlock⟩ := h _
    exact (act_cases hv howner hlock).1
  foreign := traced_foreign
  swap h h₁ ho h₂ hne := traced_swap h₁ h₂ hne (traced_foreign (traced_locking h h₁) ho hne h₂)

theorem init_locking (db : Database) : (Traced.init db).workers.Locking :=
  fun _ => ⟨0, by simp [Traced.init, Workers.init], Nat.zero_le _, trivial⟩

end SerialLemmas

/-- Every run of the threads, with any failures of the database, has a reordering
in which nothing comes between the taking of `mutex_` and its release. The steps
of each thread stay in order, and so do all steps on the mutex and the tables;
the tables, the programs, the messages received and the replies are the same. -/
theorem threads_serializable {db : Database} {es : List WorkersStep} {s : Traced}
    (hr : Machine.run Traced.step (Traced.init db) es = some s) :
    ∃ es', Mutex.SameOrder WorkersStep.thread WorkersStep.isGlobal es' es ∧
      Machine.Along Traced.step (Mutex.Alone Traced.owner WorkersStep.thread)
        (Traced.init db) es' ∧
      Machine.run Traced.step (Traced.init db) es' = some s :=
  Mutex.serializable traced_disciplined (init_locking db) rfl hr

/-- The order names threads that have taken the mutex, in the order in which they have. -/
theorem order_sublist {db : Database} {es : List WorkersStep} {s : Traced}
    (hr : Machine.run Traced.step (Traced.init db) es = some s) :
    s.order.Sublist (es.filterMap WorkersStep.locker) := by
  refine Machine.run_history
    (I := fun es s => s.order.Sublist (es.filterMap WorkersStep.locker)) (h := []) ?_
    List.Sublist.slnil (Machine.along_of_forall (C := fun _ => True) _ fun _ _ => trivial) hr
  intro es s e s' hsub _ hs
  obtain ⟨w, -, rfl⟩ := Option.map_eq_some_iff.mp hs
  rw [List.filterMap_append]
  refine hsub.append ?_
  cases e with
  | lock t =>
    simp only [Workers.taker]
    split
    · exact List.nil_sublist _
    · exact List.Sublist.refl _
  | read | freelist | unlock | query | retry | writeSfd => exact List.Sublist.refl _

/-- `bob` is registered by one thread. Meanwhile another one answers a message of two
fields, and closes a connection that has not sent the token. -/
def bobAndNoise : List WorkersStep :=
  [.read 0 ⟨7, 0, 0, true, 0⟩ ⟨127, 0, 0, 1⟩ Workers.bobInsert, .lock 0,
    .read 1 ⟨8, 0, 0, true, 1⟩ ⟨127, 0, 0, 1⟩ (xorKey (ascii "12345no   ise\r\n")),
    .query 0 (.runs ⟨[], none⟩), .writeSfd 1,
    .read 1 ⟨9, 0, 0, false, 1⟩ ⟨127, 0, 0, 1⟩ (ascii "12345"),
    .query 0 (.runs ⟨ascii "1", none⟩), .retry 0, .writeSfd 0, .unlock 0, .lock 1, .unlock 1]

theorem threads_serializable_bobAndNoise :
    ∃ s, Machine.run Traced.step (Traced.init ⟨[], []⟩) bobAndNoise = some s ∧
      ∃ es', Mutex.SameOrder WorkersStep.thread WorkersStep.isGlobal es' bobAndNoise ∧
        Machine.Along Traced.step (Mutex.Alone Traced.owner WorkersStep.thread)
          (Traced.init ⟨[], []⟩) es' ∧
        Machine.run Traced.step (Traced.init ⟨[], []⟩) es' = some s := by
  have hsome : (Machine.run Traced.step (Traced.init ⟨[], []⟩) bobAndNoise).isSome := by
    decide +kernel
  obtain ⟨s, hs⟩ := Option.isSome_iff_exists.mp hsome
  exact ⟨s, hs, threads_serializable hs⟩

/-! ## 3. No deadlock -/

namespace SerialLemmas

theorem run_locking {db : Database} {es : List WorkersStep} {s : Traced}
    (hr : Machine.run Traced.step (Traced.init db) es = some s) : s.workers.Locking :=
  Machine.run_invariant (fun _ _ _ h hs => traced_locking h hs) (init_locking db) hr

/-- The owner of the mutex is not at the end of a callback. -/
theorem owner_not_done {s : Workers} {t n : Nat} (h : s.Keeps t n) (ho : s.owner = some t) :
    s.prog t ≠ .done := by
  obtain ⟨howner, -, hlock⟩ := h
  obtain ⟨m, rfl⟩ := Nat.exists_eq_succ_of_ne_zero (howner.mp ho)
  intro hdone
  rw [hdone] at hlock
  exact hlock

/-- A thread that does not wait for the mutex can go on. -/
theorem step_enabled {s : Traced} {t n : Nat} (h : s.workers.Keeps t n)
    (hdone : s.workers.prog t ≠ .done) (hfree : s.owner = none ∨ s.owner = some t) :
    s.workers.prog t = .crash ∨ ∃ e, e.thread = t ∧ e ≠ .retry t ∧ (s.step e).isSome := by
  obtain ⟨howner, -, hlock⟩ := h
  cases hp : s.workers.prog t with
  | done => exact absurd hp hdone
  | crash => exact .inl rfl
  | lock k =>
    have h0 : s.workers.owner = none := by
      rw [hp] at hlock
      cases n with
      | zero => exact hfree.resolve_right fun hown => absurd rfl (howner.mp hown)
      | succ n => exact hlock.elim
    exact .inr ⟨.lock t, rfl, by simp, by simp [Traced.step, Workers.step, hp, h0]⟩
  | unlock k => exact .inr ⟨.unlock t, rfl, by simp, by simp [Traced.step, Workers.step, hp]⟩
  | query c st k =>
    exact .inr ⟨.query t .failed, rfl, by simp,
      by simp [Traced.step, Workers.step, hp, Database.query]⟩
  | writeSfd buf k =>
    exact .inr ⟨.writeSfd t, rfl, by simp, by simp [Traced.step, Workers.step, hp]⟩

/-- The owner that does not give the mutex up has fewer steps left by as many as
it has made, retries apart. -/
theorem keeps_run {s s' : Traced} {t n : Nat} {es : List WorkersStep} (h : s.workers.Locking)
    (hn : s.workers.Keeps t n) (h0 : n ≠ 0) (hr : Machine.run Traced.step s es = some s')
    (hno : .unlock t ∉ es) : (es.filter fun e => e.thread = t ∧ e ≠ .retry t).length < n := by
  induction es generalizing s n with
  | nil => exact Nat.pos_of_ne_zero h0
  | cons e es ih =>
    obtain ⟨m, hm, hr'⟩ := Option.bind_eq_some_iff.mp hr
    obtain ⟨n', hn', hown, hother⟩ := keeps_step h hn hm
    obtain ⟨hne, hno'⟩ : .unlock t ≠ e ∧ .unlock t ∉ es := by simpa [not_or] using hno
    by_cases ht : e.thread = t
    · obtain ⟨hcount, hzero⟩ := hown ht h0
      have hrest := ih (traced_locking h hm) hn' (fun h0' => hne (hzero h0').symm) hr' hno'
      rcases hcount with hlt | ⟨rfl, hretry⟩
      · rw [List.filter_cons]
        split
        · rw [List.length_cons]
          omega
        · omega
      · rw [List.filter_cons_of_neg (by simp [hretry])]
        exact hrest
    · obtain rfl := hother ht
      rw [List.filter_cons_of_neg (by simp [ht])]
      exact ih (traced_locking h hm) hn' h0 hr' hno'

/-- A retry changes nothing. -/
theorem retry_eq {s s' : Traced} {t : Nat} (hs : s.step (.retry t) = some s') : s' = s := by
  obtain ⟨w, hw, rfl⟩ := Option.map_eq_some_iff.mp hs
  simp only [Workers.step] at hw
  split at hw
  · cases hw
    simp [Workers.note, Workers.taker]
  · cases hw

/-- The owner keeps the mutex while it only retries, whatever the others do. -/
theorem owner_retries {s s' : Traced} {t : Nat} {es : List WorkersStep} (h : s.workers.Locking)
    (ho : s.owner = some t) (hr : Machine.run Traced.step s es = some s')
    (hretry : ∀ e ∈ es, e.thread = t → e = .retry t) : s'.owner = some t := by
  induction es generalizing s with
  | nil =>
    obtain rfl : s = s' := Option.some.inj hr
    exact ho
  | cons e es ih =>
    obtain ⟨m, hm, hr'⟩ := Option.bind_eq_some_iff.mp hr
    obtain ⟨he, hretry'⟩ := List.forall_mem_cons.mp hretry
    refine ih (traced_locking h hm) ?_ hr' hretry'
    by_cases ht : e.thread = t
    · rw [he ht] at hm
      rw [retry_eq hm]
      exact ho
    · -- another thread touches the mutex only while it is free
      obtain ⟨v, hv, rfl⟩ := traced_step hm
      have hlocal := traced_foreign h ho ht hm
      rw [(act_local hv hlocal).1]
      exact ho

end SerialLemmas

/-- In every reachable state a thread that has something to do can go on, or waits
for the owner of `mutex_`, and the owner can go on, unless the one that should has
read outside an object. The owner gives the mutex up with its fourth step at the
latest, whatever the others do and the database answers; retries of `write` do not
count. While its client takes no bytes it can retry any number of times, and nobody
else gets the mutex. -/
theorem deadlock_free {db : Database} {es : List WorkersStep} {s : Traced}
    (hr : Machine.run Traced.step (Traced.init db) es = some s) :
    (∀ t, s.workers.prog t ≠ .done → ∃ u, (u = t ∨ s.owner = some u) ∧
      (s.workers.prog u = .crash ∨ ∃ e, e.thread = u ∧ e ≠ .retry u ∧ (s.step e).isSome)) ∧
    (∀ t, s.owner = some t → ∀ es' s', Machine.run Traced.step s es' = some s' →
      4 ≤ (es'.filter fun e => e.thread = t ∧ e ≠ .retry t).length → .unlock t ∈ es') ∧
    ∀ t buf k, s.owner = some t → s.workers.prog t = .writeSfd buf k →
      (∀ n, Machine.run Traced.step s (List.replicate n (.retry t)) = some s) ∧
      ∀ es' s', Machine.run Traced.step s es' = some s' →
        (∀ e ∈ es', e.thread = t → e = .retry t) → s'.owner = some t := by
  have hlock := run_locking hr
  refine ⟨fun t ht => ?_, fun t ho es' s' hr' hlen => ?_, fun t buf k ho hp => ⟨fun n => ?_, ?_⟩⟩
  · cases ho : s.owner with
    | none =>
      obtain ⟨n, hn⟩ := hlock t
      exact ⟨t, .inl rfl, step_enabled hn ht (.inl ho)⟩
    | some u =>
      obtain ⟨n, hn⟩ := hlock u
      exact ⟨u, .inr rfl, step_enabled hn (owner_not_done hn ho) (.inr ho)⟩
  · obtain ⟨n, hn⟩ := hlock t
    by_contra hno
    have hlt := keeps_run hlock hn (hn.1.mp ho) hr' hno
    have hle := hn.2.1
    omega
  · have hstep : s.step (.retry t) = some s := by
      simp [Traced.step, Workers.step, hp, Workers.note, Workers.taker, WorkersStep.thread]
    induction n with
    | zero => rfl
    | succ n ih => rw [List.replicate_succ, Machine.run_cons, hstep, Option.bind_some, ih]
  · exact fun es' s' hr' hretry => owner_retries hlock ho hr' hretry

/-- One thread answers the registration of `bob`, and the other one waits for it. -/
def bobWaits : List WorkersStep :=
  [.read 0 ⟨7, 0, 0, true, 0⟩ ⟨127, 0, 0, 1⟩ Workers.bobInsert, .lock 0,
    .read 1 ⟨8, 0, 0, true, 1⟩ ⟨127, 0, 0, 1⟩ Workers.bobInsert, .query 0 (.runs ⟨[], none⟩),
    .query 0 (.runs ⟨ascii "1", none⟩), .retry 0]

theorem deadlock_free_bobWaits :
    ∃ s, Machine.run Traced.step (Traced.init ⟨[], []⟩) bobWaits = some s ∧
      (∀ t, s.workers.prog t ≠ .done → ∃ u, (u = t ∨ s.owner = some u) ∧
        (s.workers.prog u = .crash ∨ ∃ e, e.thread = u ∧ e ≠ .retry u ∧ (s.step e).isSome)) ∧
      (∀ t, s.owner = some t → ∀ es' s', Machine.run Traced.step s es' = some s' →
        4 ≤ (es'.filter fun e => e.thread = t ∧ e ≠ .retry t).length → .unlock t ∈ es') ∧
      ∀ t buf k, s.owner = some t → s.workers.prog t = .writeSfd buf k →
        (∀ n, Machine.run Traced.step s (List.replicate n (.retry t)) = some s) ∧
        ∀ es' s', Machine.run Traced.step s es' = some s' →
          (∀ e ∈ es', e.thread = t → e = .retry t) → s'.owner = some t := by
  have hsome : (Machine.run Traced.step (Traced.init ⟨[], []⟩) bobWaits).isSome := by
    decide +kernel
  obtain ⟨s, hs⟩ := Option.isSome_iff_exists.mp hsome
  exact ⟨s, hs, deadlock_free hs⟩

/-! ## 4. Handlers in one step -/

namespace SerialLemmas

/-- A step of the owner. -/
theorem owner_step {t : Nat} {s s' : Traced} {e : WorkersStep} (h : s.workers.Locking)
    (ho : s.owner = some t) (he : e.thread = t) (hs : s.step e = some s') :
    (∃ k, e = .unlock t ∧ s.workers.prog t = .unlock k ∧
      s' = s.finish t (s.workers.db, [], k)) ∨
    (∃ ans c st k p, e = .query t ans ∧ s.workers.prog t = .query c st k ∧
      s.workers.db.query c st.text ans = some p ∧
      s' = { s with workers := ⟨p.1, some t, Function.update s.workers.prog t (k p.2)⟩ }) ∨
    (e = .retry t ∧ s' = s) ∨
    (∃ buf k, e = .writeSfd t ∧ s.workers.prog t = .writeSfd buf k ∧
      s' = { s with
        workers := ⟨s.workers.db, some t, Function.update s.workers.prog t k⟩
        log := Function.update s.log t { s.log t with sent := (s.log t).sent ++ [buf] } }) := by
  subst he
  obtain ⟨v, hv, rfl⟩ := traced_step hs
  obtain ⟨n, hn⟩ := h e.thread
  have ho' : s.workers.owner = some e.thread := ho
  have hdone := owner_not_done hn ho
  cases e with
  | read t conn peer data =>
    cases hp : s.workers.prog t <;> simp only [View.act, Workers.view, WorkersStep.thread, hp] at hv
    · exact absurd hp hdone
    all_goals cases hv
  | freelist t =>
    cases hp : s.workers.prog t <;> simp only [View.act, Workers.view, WorkersStep.thread, hp] at hv
    · exact absurd hp hdone
    all_goals cases hv
  | lock t =>
    simp only [View.act, Workers.view, ho'] at hv
    split at hv
    · next heq => cases heq
    · cases hv
  | unlock t =>
    cases hp : s.workers.prog t <;> simp only [View.act, Workers.view, WorkersStep.thread, hp] at hv
    case unlock k =>
      cases hv
      refine .inl ⟨k, rfl, hp, ?_⟩
      simp [Traced.finish, Workers.setView, WorkersStep.thread, Workers.note, Workers.taker]
    all_goals cases hv
  | query t ans =>
    cases hp : s.workers.prog t <;> simp only [View.act, Workers.view, WorkersStep.thread, hp] at hv
    case query c st k =>
      obtain ⟨p, hq, rfl⟩ := Option.map_eq_some_iff.mp hv
      refine .inr (.inl ⟨ans, c, st, k, p, rfl, hp, hq, ?_⟩)
      simp [Workers.setView, WorkersStep.thread, Workers.note, Workers.taker, ho']
    all_goals cases hv
  | retry t => exact .inr (.inr (.inl ⟨rfl, retry_eq hs⟩))
  | writeSfd t =>
    cases hp : s.workers.prog t <;> simp only [View.act, Workers.view, WorkersStep.thread, hp] at hv
    case writeSfd buf k =>
      cases hv
      refine .inr (.inr (.inr ⟨buf, k, rfl, hp, ?_⟩))
      simp [Workers.setView, WorkersStep.thread, Workers.note, Workers.taker, hp, ho']
    all_goals cases hv

/-- The rest of a section is the rest of a handler. -/
theorem section_locked {t : Nat} {s s' : Traced} {sec : List WorkersStep} {e : WorkersStep}
    (h : s.workers.Locking) (ho : s.owner = some t)
    (hin : Mutex.InSection Traced.owner Traced.step WorkersStep.thread t s sec)
    (he : e.thread = t) (hr : Machine.run Traced.step s (sec ++ [e]) = some s')
    (hfree : s'.owner = none) :
    ∃ as p, (s.workers.prog t).locked as s.workers.db = some p ∧ s' = s.finish t p ∧
      (sec ++ [e]).filter WorkersStep.isGlobal = as.map (.query t) ++ [.unlock t] := by
  induction sec generalizing s with
  | nil =>
    rcases owner_step h ho he (by simpa using hr : s.step e = some s') with
      ⟨k, rfl, hp, rfl⟩ | ⟨ans, c, st, k, p, rfl, -, -, rfl⟩ | ⟨rfl, rfl⟩ | ⟨buf, k, rfl, -, rfl⟩
    · exact ⟨[], _, by rw [hp]; rfl, rfl, rfl⟩
    · cases hfree
    · exact absurd (ho.symm.trans hfree) (by simp)
    · cases hfree
  | cons e₁ sec ih =>
    obtain ⟨m, hm, hr'⟩ := Option.bind_eq_some_iff.mp hr
    obtain ⟨⟨he₁, hown⟩, hrest⟩ := hin
    have hm_owner := hown m hm
    obtain ⟨as, p, hlocked, rfl, hglobal⟩ :=
      ih (traced_locking h hm) hm_owner (hrest m hm) hr'
    rcases owner_step h ho he₁ hm with ⟨k, rfl, hp, rfl⟩ | ⟨ans, c, st, k, q, rfl, hp, hq, rfl⟩ |
      ⟨rfl, rfl⟩ | ⟨buf, k, rfl, hp, rfl⟩
    · cases hm_owner
    · refine ⟨ans :: as, p, ?_, ?_, ?_⟩
      · rw [hp]
        simpa [Prog.locked, hq] using hlocked
      · simp [Traced.finish]
      · rw [List.cons_append, List.filter_cons_of_pos rfl, hglobal]
        rfl
    · refine ⟨as, p, hlocked, rfl, ?_⟩
      rw [List.cons_append, List.filter_cons_of_neg (by simp [WorkersStep.isGlobal]), hglobal]
    · refine ⟨as, (p.1, buf :: p.2.1, p.2.2), ?_, ?_, ?_⟩
      · rw [hp]
        simp only [Prog.locked, Option.map_eq_some_iff]
        exact ⟨p, by simpa using hlocked, rfl⟩
      · simp [Traced.finish]
      · rw [List.cons_append, List.filter_cons_of_neg (by simp [WorkersStep.isGlobal]), hglobal]

/-- A step while the mutex is free. -/
theorem free_step {s s' : Traced} {e : WorkersStep} (h : s.workers.Locking)
    (ho : s.owner = none) (hs : s.step e = some s') :
    (∃ a, s.atomicStep a = some s' ∧ a.globals = [e].filter WorkersStep.isGlobal ∧
      s'.owner = none) ∨
    (∃ t k, e = .lock t ∧ s.workers.prog t = .lock k ∧
      s' = { s with
        workers := ⟨s.workers.db, some t, Function.update s.workers.prog t k⟩
        order := s.order ++ s.workers.taker (.lock t) }) := by
  obtain ⟨n, hown, -, hlock⟩ := h e.thread
  have h0 : n = 0 := by
    by_contra hn
    exact absurd ((hown.mpr hn).symm.trans ho) (by simp)
  subst h0
  have hkeep : e.isGlobal = false → s'.owner = none := by
    intro hlocal
    obtain ⟨v, hv, rfl⟩ := traced_step hs
    rw [(act_local hv hlocal).1]
    exact ho
  cases e with
  | read t conn peer data => exact .inl ⟨.read t conn peer data, hs, rfl, hkeep rfl⟩
  | freelist t => exact .inl ⟨.freelist t, hs, rfl, hkeep rfl⟩
  | retry t => exact .inl ⟨.retry t, hs, rfl, hkeep rfl⟩
  | writeSfd t => exact .inl ⟨.writeSfd t, hs, rfl, hkeep rfl⟩
  | lock t =>
    obtain ⟨v, hv, rfl⟩ := traced_step hs
    have ho' : s.workers.owner = none := ho
    cases hp : s.workers.prog t <;>
      simp only [View.act, Workers.view, WorkersStep.thread, hp, ho'] at hv
    case lock k =>
      cases hv
      refine .inr ⟨t, k, rfl, hp, ?_⟩
      simp [Workers.setView, WorkersStep.thread, Workers.note]
    all_goals cases hv
  | unlock t =>
    have hlock' : Locking 0 (s.workers.prog t) := hlock
    cases hp : s.workers.prog t <;> rw [hp] at hlock' <;>
      simp [Traced.step, Workers.step, hp] at hs
    exact hlock'.elim
  | query t ans =>
    have hlock' : Locking 0 (s.workers.prog t) := hlock
    cases hp : s.workers.prog t <;> rw [hp] at hlock' <;>
      simp [Traced.step, Workers.step, hp] at hs
    exact hlock'.elim

theorem block_atomic {s s' : Traced} {b : List WorkersStep} (h : s.workers.Locking)
    (hb : Mutex.IsBlock Traced.step Traced.owner WorkersStep.thread s b)
    (hr : Machine.run Traced.step s b = some s') :
    ∃ a, s.atomicStep a = some s' ∧ a.globals = b.filter WorkersStep.isGlobal ∧
      s'.owner = none := by
  obtain ⟨ho, sec, e, rfl, hend, hcases⟩ := hb
  have hfree := hend s' hr
  cases sec with
  | nil =>
    rcases free_step h ho (by simpa using hr : s.step e = some s') with hstep | ⟨t, k, -, -, rfl⟩
    · exact hstep
    · cases hfree
  | cons e₁ sec =>
    obtain ⟨t, hin, he⟩ := hcases.resolve_left (by simp)
    obtain ⟨m, hm, hr'⟩ := Option.bind_eq_some_iff.mp hr
    have hm_owner := hin.1.2 m hm
    rcases free_step h ho hm with ⟨-, -, -, hnone⟩ | ⟨u, k, rfl, hp, hm'⟩
    · rw [hnone] at hm_owner
      cases hm_owner
    · obtain rfl : u = t := hin.1.1
      obtain ⟨as, p, hlocked, rfl, hglobal⟩ :=
        section_locked (traced_locking h hm) hm_owner (hin.2 m hm) he hr' hfree
      subst hm'
      refine ⟨.handler u as, ?_, ?_, rfl⟩
      · simp only [Traced.atomicStep, hp, Option.map_eq_some_iff]
        exact ⟨p, by simpa using hlocked, by simp [Traced.finish]⟩
      · rw [List.cons_append, List.filter_cons_of_pos rfl, hglobal]
        rfl

theorem blocks_atomic {s s' : Traced} {bs : List (List WorkersStep)} (h : s.workers.Locking)
    (hb : Machine.Along (Machine.run Traced.step)
      (Mutex.IsBlock Traced.step Traced.owner WorkersStep.thread) s bs)
    (hr : Machine.run (Machine.run Traced.step) s bs = some s') :
    ∃ as, Machine.run Traced.atomicStep s as = some s' ∧
      as.flatMap AtomicStep.globals = bs.flatten.filter WorkersStep.isGlobal := by
  induction bs generalizing s with
  | nil => exact ⟨[], hr, rfl⟩
  | cons b bs ih =>
    obtain ⟨m, hm, hr'⟩ := Option.bind_eq_some_iff.mp hr
    obtain ⟨a, ha, hglobal, -⟩ := block_atomic h hb.1 hm
    have hlock : m.workers.Locking :=
      Machine.run_invariant (fun _ _ _ h hs => traced_locking h hs) h hm
    obtain ⟨as, has, hglobals⟩ := ih hlock (hb.2 m hm) hr'
    refine ⟨a :: as, by simp [ha, has], ?_⟩
    rw [List.flatMap_cons, List.flatten_cons, List.filter_append, hglobal, hglobals]

end SerialLemmas

/-- Every run of the threads that ends with the mutex free leads where a run leads
in which each handler takes one step: with the same steps on the mutex and the
tables in the same order, and with the same messages and replies of each thread. -/
theorem threads_atomic {db : Database} {es : List WorkersStep} {s : Traced}
    (hr : Machine.run Traced.step (Traced.init db) es = some s) (ho : s.owner = none) :
    ∃ as, Machine.run Traced.atomicStep (Traced.init db) as = some s ∧
      as.flatMap AtomicStep.globals = es.filter WorkersStep.isGlobal := by
  obtain ⟨bs, sec, ⟨-, -, hglobal⟩, hblocks, m, hm, -, hsec, hcases⟩ :=
    Mutex.serial_blocks traced_disciplined (init_locking db) rfl hr
  obtain rfl : sec = [] := by
    rcases hcases with hnil | ⟨t, -, hown⟩
    · exact hnil
    · rw [ho] at hown
      cases hown
  obtain rfl : m = s := by simpa using hsec
  obtain ⟨as, has, hglobals⟩ := blocks_atomic (init_locking db) hblocks hm
  exact ⟨as, has, by rw [hglobals, ← hglobal, List.append_nil]⟩

end SundayServer
