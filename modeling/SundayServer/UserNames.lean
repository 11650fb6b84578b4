import SundayServer.Database
import SundayServer.FieldValues
import SundayServer.Lib.Machine

/-!
# User names stay unique

Any number of worker threads run callbacks. A callback is a program of
`StartRoutine.lean`; its handlers hold `mutex_` around their calls. A step of
`Workers` is a callback that starts, a lock taken or released, one call with the
answer of the database, or one `write` of a reply, so every interleaving of the
threads with every pattern of failing calls is a run.

* `Guarded`: a program calls the database only under the lock, and inserts a
  user only when its last call has shown that the name is absent.
* `Sound`: the steps for which the lookup of the INSERT handler tells the truth.

Results:
1. `handleAll_guarded`: the callbacks are guarded, when a lookup that returns
   the empty string is taken to show absence.
2. `names_unique`: in runs of sound steps names stay unique.
3. `failed_lookup_duplicates`: a lookup that fails for a name that is present is
   followed by its insertion.
-/

namespace SundayServer

/-! ## Definitions -/

/-- The tables, the owner of `mutex_` and what each thread has yet to do. -/
structure Workers where
  db : Database
  owner : Option Nat
  prog : Nat → Prog

/-- No thread is in a callback. -/
def Workers.init (db : Database) : Workers := ⟨db, none, fun _ => .done⟩

/-- The atomic steps of the thread `t`. -/
inductive WorkersStep
  /-- It starts `start_routine` on these bytes. -/
  | read (t : Nat) (conn : Conn) (peer : InAddr) (data : Bytes)
  /-- It needs the pool, in `ReadPipeCb` or `ClientTcpErrorCb`. -/
  | freelist (t : Nat)
  | lock (t : Nat)
  | unlock (t : Nat)
  | query (t : Nat) (ans : Answer)
  /-- A `write` of `WriteSfd` that leaves something to write: `EINTR`, `EAGAIN` or a part. -/
  | retry (t : Nat)
  /-- `WriteSfd` returns. -/
  | writeSfd (t : Nat)
deriving DecidableEq, Repr

namespace Workers

/-- The thread `t` goes on with `p`. -/
def setProg (s : Workers) (t : Nat) (p : Prog) : Workers :=
  { s with prog := Function.update s.prog t p }

def step (s : Workers) : WorkersStep → Option Workers
  | .read t conn peer data =>
    match s.prog t with
    | .done => some (s.setProg t (startRoutine conn peer data).prog)
    | _ => none
  | .freelist t =>
    match s.prog t with
    | .done => some (s.setProg t SundayServer.freelist)
    | _ => none
  | .lock t =>
    match s.prog t, s.owner with
    | .lock k, none => some { s.setProg t k with owner := some t }
    | _, _ => none
  | .unlock t =>
    match s.prog t with
    | .unlock k => some { s.setProg t k with owner := none }
    | _ => none
  | .query t ans =>
    match s.prog t with
    | .query c st k =>
      (s.db.query c st.text ans).map fun p => { s.setProg t (k p.2) with db := p.1 }
    | _ => none
  | .retry t =>
    match s.prog t with
    | .writeSfd .. => some s
    | _ => none
  | .writeSfd t =>
    match s.prog t with
    | .writeSfd _ k => some (s.setProg t k)
    | _ => none

/-- At most one row for a name; calls only under the lock; and a user about to be
inserted is absent. -/
structure NamesOk (s : Workers) : Prop where
  unique : s.db.names.Nodup
  locked : ∀ t c st k, s.prog t = .query c st k → s.owner = some t
  absent : ∀ t c name passwd k, s.prog t = .query c (.insertUser name passwd) k →
    name ∉ s.db.names

/-- The fields that the statements of the message quote are safe there. -/
def FieldsSafe : Message → Prop
  | .request r => r.command = INSERT ∨ r.command = SELECT ∨ r.command = UPDATE →
      ∀ a ∈ quotedFields r, LiteralSafe a
  | .malformed => True

instance : ∀ m, Decidable (FieldsSafe m)
  | .request _ => inferInstanceAs (Decidable (_ → ∀ _ ∈ _, _))
  | .malformed => inferInstanceAs (Decidable True)

/-- The name that the next call of a program looks up for the INSERT handler. -/
def lookedUp : Prog → Option Bytes
  | .query _ (.lookupUser name) _ => some name
  | _ => none

/-- The requests of a read quote safe fields; and the lookup of the INSERT
handler fails, or gives no result set, only for a name that is absent. -/
def Sound (s : Workers) : WorkersStep → Prop
  | .read _ conn peer data => ∀ m ∈ (startRoutine conn peer data).messages, FieldsSafe m
  | .query t ans =>
    ans = .failed ∨ ans = .noResult → ∀ name ∈ lookedUp (s.prog t), name ∉ s.db.names
  | _ => True

instance (s : Workers) : ∀ e, Decidable (Sound s e)
  | .read .. => inferInstanceAs (Decidable (∀ _ ∈ _, _))
  | .query t _ => inferInstanceAs (Decidable (_ → ∀ name ∈ lookedUp (s.prog t), _))
  | .freelist _ | .lock _ | .unlock _ | .retry _ | .writeSfd _ => inferInstanceAs (Decidable True)

end Workers

/-- The name that a statement inserts into `user_info`. -/
def Statement.inserted : Statement → Option Bytes
  | .insertUser name _ => some name
  | _ => none

/-- The name that a call has shown to be absent, as the handler sees it. -/
def learnt (s : Statement) (o : Outcome) : Option Bytes :=
  match s with
  | .lookupUser name => if selectData 3 o = some [] then some name else none
  | _ => none

/-- What a program keeps to, from a point where its thread holds the lock or
not, and where it knows a name to be absent or none. -/
def Guarded : Bool → Option Bytes → Prog → Prop
  | held, _, .done => held = false
  | _, _, .crash => True
  | held, _, .lock k => held = false ∧ Guarded true none k
  | held, _, .unlock k => held = true ∧ Guarded false none k
  | held, absent, .query _ s k =>
    held = true ∧ (∀ a ∈ s.args, LiteralSafe a) ∧
      (∀ name, s.inserted = some name → absent = some name) ∧ ∀ o, Guarded true (learnt s o) (k o)
  | held, absent, .writeSfd _ k => Guarded held absent k

/-! ## 1. The callbacks are guarded -/

namespace UserNamesLemmas

open Workers

/-- At the end of a handler nothing is known any more. -/
theorem guarded_replyUnlock {absent : Option Bytes} {str : Bytes} {k : Prog}
    (h : Guarded false none k) : Guarded true absent (sendReply str (.unlock k)) := ⟨rfl, h⟩

theorem guarded_runInsert {absent : Option Bytes} {s : Statement} {k : Prog}
    (hargs : ∀ a ∈ s.args, LiteralSafe a)
    (hins : ∀ name, s.inserted = some name → absent = some name) (h : Guarded false none k) :
    Guarded true absent (runInsert s k) :=
  ⟨rfl, hargs, hins, fun _ => guarded_replyUnlock h⟩

theorem guarded_insertCase {r : Request} {k : Prog} (hc : r.command = INSERT)
    (hr : ∀ a ∈ quotedFields r, LiteralSafe a) (hip : LiteralSafe r.ip)
    (h : Guarded false none k) : Guarded false none (insertCase r k) := by
  rw [quotedFields, if_pos hc] at hr
  refine ⟨rfl, ?_⟩
  split
  · next hform =>
    rw [if_pos hform] at hr
    refine guarded_runInsert ?_ (by simp [Statement.inserted]) h
    simp only [List.forall_mem_cons] at hr
    obtain ⟨hname, hdevice, hp2p, -⟩ := hr
    simp [Statement.args, hname, hdevice, hp2p, hip]
  · next hform =>
    rw [if_neg hform] at hr
    simp only [List.forall_mem_cons] at hr
    obtain ⟨hname, hpasswd, -⟩ := hr
    refine ⟨rfl, by simpa [Statement.args] using hname, by simp [Statement.inserted], fun o => ?_⟩
    beta_reduce
    split
    · trivial
    · next strval hsel =>
      split
      · next hempty =>
        obtain rfl := List.length_eq_zero_iff.mp hempty
        refine guarded_runInsert ?_ ?_ h
        · simp [Statement.args, hname, hpasswd]
        · simp [Statement.inserted, learnt, hsel]
      · exact guarded_replyUnlock h

theorem guarded_selectCase {r : Request} {k : Prog} (hc : r.command = SELECT)
    (hr : ∀ a ∈ quotedFields r, LiteralSafe a) (h : Guarded false none k) :
    Guarded false none (selectCase r k) := by
  have hname : LiteralSafe r.name := hr _ (by simp [quotedFields, hc, INSERT, SELECT])
  refine ⟨rfl, rfl, by simpa [Statement.args] using hname, by simp [Statement.inserted],
    fun o => ?_⟩
  beta_reduce
  split
  · trivial
  · exact guarded_replyUnlock h

theorem guarded_updateCase {r : Request} {k : Prog} (hc : r.command = UPDATE)
    (hr : ∀ a ∈ quotedFields r, LiteralSafe a) (h : Guarded false none k) :
    Guarded false none (updateCase r k) := by
  have hquoted : quotedFields r = [r.passwd, r.name] := by
    simp [quotedFields, hc, INSERT, SELECT, UPDATE]
  have hname : LiteralSafe r.name := hr _ (by simp [hquoted])
  have hpasswd : LiteralSafe r.passwd := hr _ (by simp [hquoted])
  exact ⟨rfl, rfl, by simp [Statement.args, hname, hpasswd], by simp [Statement.inserted],
    fun _ => guarded_replyUnlock h⟩

theorem guarded_deleteCase {r : Request} {k : Prog} (hid : LiteralSafe r.id)
    (h : Guarded false none k) : Guarded false none (deleteCase r k) :=
  ⟨rfl, rfl, by simpa [Statement.args] using hid, by simp [Statement.inserted], fun _ => ⟨rfl, h⟩⟩

theorem guarded_dispatch {r : Request} {k : Prog} (hr : FieldsSafe (.request r))
    (hip : LiteralSafe r.ip) (hid : LiteralSafe r.id) (h : Guarded false none k) :
    Guarded false none (dispatch r k) := by
  unfold dispatch
  split
  · next hc => exact guarded_insertCase hc (hr (.inl hc)) hip h
  · split
    · next hc => exact guarded_selectCase hc (hr (.inr (.inl hc))) h
    · split
      · next hc => exact guarded_updateCase hc (hr (.inr (.inr hc))) h
      · split
        · exact guarded_deleteCase hid h
        · exact h

/-- What holds of a thread: its program is guarded, and a name it knows to be
absent is absent. -/
def ThreadOk (db : Database) (held : Bool) (p : Prog) : Prop :=
  ∃ absent, Guarded held absent p ∧ ∀ name, absent = some name → held = true ∧ name ∉ db.names

/-- A thread without the lock knows nothing about the tables. -/
theorem ThreadOk.frame {db db' : Database} {p : Prog} (h : ThreadOk db false p) :
    ThreadOk db' false p := by
  obtain ⟨absent, hg, habs⟩ := h
  exact ⟨absent, hg, fun name hname => absurd (habs name hname).1 Bool.false_ne_true⟩

theorem threadOk_of_guarded {db : Database} {held : Bool} {p : Prog} (h : Guarded held none p) :
    ThreadOk db held p := ⟨none, h, fun _ hname => by cases hname⟩

/-- The invariant. -/
structure Inv (s : Workers) : Prop where
  unique : s.db.names.Nodup
  threads : ∀ t, ThreadOk s.db (s.owner = some t) (s.prog t)

theorem Inv.threadOk {s : Workers} (h : Inv s) {t : Nat} {p : Prog} (hp : s.prog t = p) :
    ThreadOk s.db (s.owner = some t) p := hp ▸ h.threads t

/-- A step of the thread `t`: the others keep what they had, because the tables
are as they were or they are without the lock. -/
theorem Inv.update {s : Workers} (h : Inv s) {t : Nat} {p : Prog} {db : Database}
    {owner : Option Nat} (hu : db.names.Nodup) (ht : ThreadOk db (owner = some t) p)
    (howner : ∀ u, u ≠ t → (owner = some u ↔ s.owner = some u))
    (hdb : db = s.db ∨ ∀ u, u ≠ t → s.owner ≠ some u) :
    Inv ⟨db, owner, Function.update s.prog t p⟩ where
  unique := hu
  threads u := by
    show ThreadOk db (owner = some u) (Function.update s.prog t p u)
    rw [Function.update_apply]
    split
    · next hut =>
      subst hut
      exact ht
    · next hut =>
      have hold := h.threads u
      simp only [howner u hut]
      rcases hdb with rfl | hfree
      · exact hold
      · simp only [hfree u hut, decide_false] at hold ⊢
        exact hold.frame

/-- A statement that succeeds keeps names unique, if the name it inserts is absent. -/
theorem exec_unique {db : Database} {s : Statement} (h : db.names.Nodup)
    (hins : ∀ name, s.inserted = some name → name ∉ db.names) (d : Defaults) :
    (db.exec d s).1.names.Nodup := by
  cases s with
  | insertDevice name deviceId p2pId ip => exact h
  | lookupUser name => exact h
  | selectUser name => exact h
  | insertUser name passwd =>
    have hnew := hins name rfl
    simp only [Database.exec, Database.names, List.map_append, List.map_cons, List.map_nil]
    rw [← List.concat_eq_append]
    exact h.concat hnew
  | updateUser passwd name =>
    have hsame : ((db.exec d (.updateUser passwd name)).1).names = db.names := by
      simp only [Database.exec, Database.names, List.map_map]
      refine List.map_congr_left fun u _ => ?_
      simp only [Function.comp]
      split <;> rfl
    rwa [hsame]
  | deleteUser id => exact h.sublist (List.filter_sublist.map _)

/-- The lookup shows a name to be absent only when it is. -/
theorem learnt_absent {db db' : Database} {c : Call} {s : Statement} {ans : Answer} {o : Outcome}
    (hsafe : ∀ a ∈ s.args, LiteralSafe a) (hq : db.query c s.text ans = some (db', o))
    (htrue : ∀ name, s = .lookupUser name → ans = .failed ∨ ans = .noResult → name ∉ db.names)
    {name : Bytes} (hl : learnt s o = some name) : name ∉ db'.names := by
  cases s with
  | lookupUser n =>
    simp only [learnt] at hl
    split at hl
    · next hempty =>
      cases hl
      rcases query_safe hsafe hq with ⟨ha, rfl, -⟩ | ⟨ha, rfl, -⟩ | ⟨d, -, he⟩
      · exact htrue name rfl (.inl ha)
      · exact htrue name rfl (.inr ha)
      · simp only [Database.exec, Prod.mk.injEq] at he
        obtain ⟨rfl, rfl⟩ := he
        have hrows : db.userInfo.filter (·.name = name) = [] := by
          simpa using selectData_eq_nil.mp hempty
        intro hmem
        obtain ⟨u, hu, rfl⟩ := List.mem_map.mp hmem
        simpa using List.filter_eq_nil_iff.mp hrows u hu
    · cases hl
  | insertDevice | insertUser | selectUser | updateUser | deleteUser => cases hl

end UserNamesLemmas

open UserNamesLemmas

theorem freelist_guarded : Guarded false none freelist := ⟨rfl, rfl, rfl⟩

theorem handleAll_guarded {peer : InAddr} {ms : List Message}
    (hparsed : ∀ m ∈ ms, ∃ t, m = parseMessage peer t) (hsafe : ∀ m ∈ ms, Workers.FieldsSafe m) :
    Guarded false none (handleAll ms) := by
  induction ms with
  | nil => rfl
  | cons m ms ih =>
    obtain ⟨⟨t, ht⟩, hparsed'⟩ := List.forall_mem_cons.mp hparsed
    obtain ⟨hm, hsafe'⟩ := List.forall_mem_cons.mp hsafe
    have hrest := ih hparsed' hsafe'
    rw [handleAll_cons]
    cases m with
    | request r =>
      obtain ⟨hip, hid⟩ := parseMessage_safe ht.symm
      exact guarded_dispatch hm hip hid hrest
    | malformed => exact hrest

namespace Workers

variable {s s' : Workers}

/-! ## 2. Names stay unique -/

/-- A call keeps the invariant: it is made under the lock, and what it shows to be
absent is absent. -/
theorem query_inv {t : Nat} {c : Call} {st : Statement} {k : Outcome → Prog} {ans : Answer}
    {db : Database} {o : Outcome} (h : Inv s) (hp : s.prog t = .query c st k)
    (hsound : s.Sound (.query t ans)) (hq : s.db.query c st.text ans = some (db, o)) :
    Inv (({ s with db } : Workers).setProg t (k o)) := by
  obtain ⟨absent, ⟨hheld, hsafe, hins, hk⟩, habs⟩ := h.threadOk hp
  have howner : s.owner = some t := by simpa using hheld
  have hunique : db.names.Nodup := by
    rcases query_safe hsafe hq with ⟨-, rfl, -⟩ | ⟨-, rfl, -⟩ | ⟨d, -, he⟩
    · exact h.unique
    · exact h.unique
    · have hexec := exec_unique h.unique (fun name hname => (habs name (hins name hname)).2) d
      rwa [he] at hexec
  have hthread : ThreadOk db (s.owner = some t) (k o) := by
    refine ⟨learnt st o, ?_, fun name hname => ⟨hheld, ?_⟩⟩
    · rw [hheld]
      exact hk o
    · refine learnt_absent hsafe hq (fun n hn hans => ?_) hname
      subst hn
      exact hsound hans n (by simp [hp, lookedUp])
  refine h.update hunique hthread (fun _ _ => Iff.rfl) (.inr fun u hut => ?_)
  simp [howner, hut.symm]

theorem step_inv {e : WorkersStep} (h : Inv s) (hsound : s.Sound e) (hs : s.step e = some s') :
    Inv s' := by
  cases e with
  | read t conn peer data =>
    simp only [step] at hs
    split at hs
    · next hp =>
      cases hs
      obtain ⟨absent, hg, -⟩ := h.threadOk hp
      have hfree : decide (s.owner = some t) = false := hg
      refine h.update h.unique ?_ (fun _ _ => Iff.rfl) (.inl rfl)
      rw [hfree]
      refine threadOk_of_guarded ?_
      rcases prog_cases conn peer data with ⟨hprog, -⟩ | hprog
      · rw [hprog]
        exact freelist_guarded
      · rw [hprog]
        exact handleAll_guarded (fun _ => startRoutine_parsed) hsound
    · cases hs
  | freelist t =>
    simp only [step] at hs
    split at hs
    · next hp =>
      cases hs
      obtain ⟨absent, hg, -⟩ := h.threadOk hp
      have hfree : decide (s.owner = some t) = false := hg
      refine h.update h.unique ?_ (fun _ _ => Iff.rfl) (.inl rfl)
      rw [hfree]
      exact threadOk_of_guarded freelist_guarded
    · cases hs
  | lock t =>
    simp only [step] at hs
    split at hs
    · next k hp howner =>
      cases hs
      obtain ⟨absent, hg, -⟩ := h.threadOk hp
      refine h.update h.unique ?_ (fun u hut => ?_) (.inl rfl)
      · simpa using threadOk_of_guarded hg.2
      · simp [howner, hut.symm]
    · cases hs
  | unlock t =>
    simp only [step] at hs
    split at hs
    · next k hp =>
      cases hs
      obtain ⟨absent, hg, -⟩ := h.threadOk hp
      have howner : s.owner = some t := by simpa using hg.1
      refine h.update h.unique ?_ (fun u hut => ?_) (.inl rfl)
      · simpa using threadOk_of_guarded hg.2
      · simp [howner, hut.symm]
    · cases hs
  | query t ans =>
    simp only [step] at hs
    split at hs
    · next c st k hp =>
      obtain ⟨⟨db, o⟩, hq, rfl⟩ := Option.map_eq_some_iff.mp hs
      exact query_inv h hp hsound hq
    · cases hs
  | retry t =>
    simp only [step] at hs
    split at hs
    · cases hs
      exact h
    · cases hs
  | writeSfd t =>
    simp only [step] at hs
    split at hs
    · next buf k hp =>
      cases hs
      obtain ⟨absent, hg, habs⟩ := h.threadOk hp
      exact h.update h.unique ⟨absent, hg, habs⟩ (fun _ _ => Iff.rfl) (.inl rfl)
    · cases hs

theorem namesOk_of_inv (h : Inv s) : s.NamesOk where
  unique := h.unique
  locked t c st k hp := by
    obtain ⟨absent, hg, -⟩ := h.threads t
    rw [hp] at hg
    simpa using hg.1
  absent t c name passwd k hp := by
    obtain ⟨absent, hg, habs⟩ := h.threads t
    rw [hp] at hg
    exact (habs name (hg.2.2.1 name rfl)).2

/-- Over every interleaving of any number of threads and every pattern of
failing calls in which the INSERT handler's lookup fails only for names that are
absent, there is at most one row for a name, the calls are made under the lock,
and a user that is about to be inserted is absent. -/
theorem names_unique {db : Database} (hdb : db.names.Nodup) {es : List WorkersStep}
    (hc : Machine.Along step Sound (Workers.init db) es)
    (hr : Machine.run step (Workers.init db) es = some s) : s.NamesOk := by
  have hinit : Inv (Workers.init db) := ⟨hdb, fun t => threadOk_of_guarded rfl⟩
  exact namesOk_of_inv (Machine.run_invariant_along (fun _ _ _ h hc hs => step_inv h hc hs)
    hinit hc hr)

/-- A registration of `bob`: the device `0000` sends it to `user_info`. -/
def bobInsert : Bytes := xorKey (ascii "123451   bob   pw   0000   1   1   \r\n")

/-- Its request. -/
def bobRequest : Request :=
  { command := INSERT, name := ascii "bob", passwd := ascii "pw", deviceId := ascii "0000",
    p2pId := ascii "1", ip := ascii "127.0.0.1" }

/-- The lookup for `bob` fails, and there is no `bob`. -/
theorem names_unique_bobInsert :
    ∃ s, Machine.run step (Workers.init ⟨[], []⟩)
      [.read 0 ⟨7, 0, 0, true, 0⟩ ⟨127, 0, 0, 1⟩ bobInsert, .lock 0, .query 0 .failed] = some s ∧
      s.NamesOk := by
  have hsome : (Machine.run step (Workers.init ⟨[], []⟩)
      [.read 0 ⟨7, 0, 0, true, 0⟩ ⟨127, 0, 0, 1⟩ bobInsert, .lock 0, .query 0 .failed]).isSome := by
    decide +kernel
  obtain ⟨s, hs⟩ := Option.isSome_iff_exists.mp hsome
  exact ⟨s, hs, names_unique (by decide) (by decide +kernel) hs⟩

/-! ## 3. A lookup that fails -/

/-- When the lookup fails for a name that is present, the handler inserts it again. -/
theorem failed_lookup_duplicates {t : Nat} {r : Request} {k : Prog} (hp : s.prog t = insertCase r k)
    (howner : s.owner = none) (hform : ¬ (r.name ≠ ascii "0000" ∧ r.deviceId ≠ ascii "0000"))
    (hsafe : LiteralSafe r.name ∧ LiteralSafe r.passwd) (hmem : r.name ∈ s.db.names)
    (d : Defaults) :
    ∃ s', Machine.run step s [.lock t, .query t .failed, .query t (.runs d)] = some s' ∧
      ¬ s'.db.names.Nodup := by
  have hparse : parseSql (Statement.insertUser r.name r.passwd).text =
      some (.insertUser r.name r.passwd) :=
    parseSql_text (by simpa [Statement.args] using hsafe)
  let s₁ : Workers := { s.setProg t (lookupAndInsert r k) with owner := some t }
  let s₂ : Workers := s₁.setProg t (runInsert (.insertUser r.name r.passwd) k)
  let s₃ : Workers := { s₂.setProg t (sendReply (ascii "f0:ok") (.unlock k)) with
    db := (s.db.exec d (.insertUser r.name r.passwd)).1 }
  have h₁ : s.step (.lock t) = some s₁ := by
    simp only [step, hp, insertCase, howner, if_neg hform, s₁]
  have h₂ : s₁.step (.query t .failed) = some s₂ := by
    simp [step, s₁, s₂, setProg, lookupAndInsert, Database.query, selectData]
  have h₃ : s₂.step (.query t (.runs d)) = some s₃ := by
    simp [step, s₁, s₂, s₃, setProg, runInsert, Database.query, hparse, Database.exec, insertData,
      queryStatus]
  refine ⟨s₃, by simp only [Machine.run_cons, Machine.run_nil, h₁, h₂, h₃, Option.bind_some], ?_⟩
  show ¬ ((s.db.userInfo ++ [_]).map UserInfo.name).Nodup
  rw [List.map_append, List.nodup_append]
  rintro ⟨-, -, hdisj⟩
  exact hdisj r.name hmem r.name (by simp) rfl

/-- `bob` is registered, and is registered again because the lookup fails. -/
theorem bob_registered_twice :
    ∃ s, Machine.run step (Workers.init ⟨[⟨ascii "1", ascii "bob", ascii "pw", none⟩], []⟩)
      [.read 0 ⟨7, 0, 0, true, 0⟩ ⟨127, 0, 0, 1⟩ bobInsert, .lock 0, .query 0 .failed,
        .query 0 (.runs ⟨ascii "2", none⟩)] = some s ∧
      ¬ s.db.names.Nodup := by
  have hmessages : (startRoutine ⟨7, 0, 0, true, 0⟩ ⟨127, 0, 0, 1⟩ bobInsert).messages =
      [.request bobRequest] := by decide +kernel
  let s₀ := Workers.init ⟨[⟨ascii "1", ascii "bob", ascii "pw", none⟩], []⟩
  have hread : s₀.step (.read 0 ⟨7, 0, 0, true, 0⟩ ⟨127, 0, 0, 1⟩ bobInsert) =
      some (s₀.setProg 0 (insertCase bobRequest .done)) := by
    simp only [step, s₀, init, @prog_verified ⟨7, 0, 0, true, 0⟩ rfl, hmessages]
    rfl
  obtain ⟨s, hs, hdup⟩ := failed_lookup_duplicates (s := s₀.setProg 0 (insertCase bobRequest .done))
    (t := 0) (r := bobRequest) (k := .done) (by simp [setProg]) rfl (by decide +kernel)
    (by decide +kernel) (by decide +kernel) ⟨ascii "2", none⟩
  refine ⟨s, ?_, hdup⟩
  rw [Machine.run_cons, hread, Option.bind_some]
  exact hs

end Workers

end SundayServer
