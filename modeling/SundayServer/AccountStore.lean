import SundayServer.Accounts
import SundayServer.Serial

/-!
# The server as a store of accounts

What the tables are for, without rows, statements and threads: a password for each
name, and a list of devices. The threads of `Serial.lean` implement this store:
each message takes effect at once, at the moment its handler takes `mutex_`.

* `Store`: what is stored. `Store.serve`: one message.
* `Handled`: a message, the thread that handles it and the columns that an insert
  does not set. `Store.after`, `Store.replies`: messages one after the other.
* `Database.store`: what the tables stand for, when they are `WellFormed`.

Results:
1. `serve_refines`: a handler on the tables is one message on the store.
2. `accounts_linearizable`: every run of the threads answers as the store does.
-/

namespace SundayServer

/-! ## The store -/

structure Account where
  passwd : Bytes
  deviceId : Option Bytes
deriving DecidableEq, Repr

structure Store where
  account : Bytes → Option Account
  devices : List DeviceInfo

namespace Store

def setAccount (st : Store) (name : Bytes) (a : Option Account) : Store :=
  { st with account := Function.update st.account name a }

@[simp] theorem setAccount_self (st : Store) (name : Bytes) (a : Option Account) :
    (st.setAccount name a).account name = a := Function.update_self ..

@[simp] theorem setAccount_of_ne (st : Store) {name name' : Bytes} (h : name' ≠ name)
    (a : Option Account) : (st.setAccount name a).account name' = st.account name' :=
  Function.update_of_ne h ..

/-- A device is registered, or an account of a new name; it gets the device
`deviceId`. -/
def insert (st : Store) (deviceId : Option Bytes) (r : Request) : Store × List Bytes :=
  if r.name ≠ ascii "0000" ∧ r.deviceId ≠ ascii "0000" then
    ({ st with devices := st.devices ++ [⟨r.name, r.deviceId, r.p2pId, r.ip⟩] }, [ascii "f0:ok"])
  else
    match st.account r.name with
    | none => (st.setAccount r.name (some ⟨r.passwd, deviceId⟩), [ascii "f0:ok"])
    | some _ => (st, [ascii "e1:fail"])

/-- The password is compared. -/
def select (st : Store) (r : Request) : Store × List Bytes :=
  match st.account r.name with
  | none => (st, [ascii "e1:fail"])
  | some a => (st, [if r.passwd = a.passwd then ascii "f0:ok" else ascii "e3:fail"])

/-- The password of an account is changed. -/
def update (st : Store) (r : Request) : Store × List Bytes :=
  (st.setAccount r.name ((st.account r.name).map fun a => { a with passwd := r.passwd }),
    [ascii "f0:ok"])

/-- The accounts on the device with the empty name are removed. -/
def delete (st : Store) : Store × List Bytes :=
  ({ st with account := fun name => (st.account name).filter (·.deviceId ≠ some []) }, [])

/-- One message: the store after it, and the replies. -/
def serve (st : Store) (deviceId : Option Bytes) : Message → Store × List Bytes
  | .malformed => (st, [ascii "e3:fail"])
  | .request r =>
    if r.command = INSERT then st.insert deviceId r
    else if r.command = SELECT then st.select r
    else if r.command = UPDATE then st.update r
    else if r.command = DELETE then st.delete
    else (st, [ascii "e3:fail"])

end Store

/-- A message that a thread has handled. -/
structure Handled where
  thread : Nat
  message : Message
  defaults : Defaults
deriving DecidableEq, Repr

namespace Store

def next (st : Store) (e : Handled) : Store := (st.serve e.defaults.deviceId e.message).1

/-- The store after some messages. -/
def after (st : Store) (h : List Handled) : Store := h.foldl next st

/-- The replies of one thread to them. -/
def replies (st : Store) (t : Nat) : List Handled → List Bytes
  | [] => []
  | e :: h =>
    (if e.thread = t then (st.serve e.defaults.deviceId e.message).2 else []) ++
      (st.next e).replies t h

theorem after_concat (st : Store) (h : List Handled) (e : Handled) :
    st.after (h ++ [e]) = (st.after h).next e := by
  simp [after]

theorem replies_concat (st : Store) (t : Nat) (h : List Handled) (e : Handled) :
    st.replies t (h ++ [e]) = st.replies t h ++
      if e.thread = t then ((st.after h).serve e.defaults.deviceId e.message).2 else [] := by
  induction h generalizing st with
  | nil => simp [replies, after]
  | cons e₁ h ih =>
    rw [List.cons_append, replies, ih, replies, List.append_assoc]
    rfl

end Store

/-! ## The tables -/

namespace Database

/-- What the tables stand for. -/
def store (db : Database) : Store where
  account name := (db.rowsFor name).head?.map fun u => ⟨u.passwd, u.deviceId⟩
  devices := db.deviceInfo

/-- One row for a name, and passwords that SELECT can compare. -/
structure WellFormed (db : Database) : Prop where
  names : db.names.Nodup
  passwds : ∀ u ∈ db.userInfo, Ordinary u.passwd

end Database

/-- The fields that the client chooses are ordinary, and short enough for `sql`. -/
def Message.Ordinary : Message → Prop
  | .request r =>
    (∀ a ∈ [r.name, r.passwd, r.deviceId, r.p2pId], SundayServer.Ordinary a) ∧ FieldsFit r
  | .malformed => True

instance : ∀ m : Message, Decidable m.Ordinary
  | .request r => inferInstanceAs (Decidable ((∀ _ ∈ _, _) ∧ FieldsFit r))
  | .malformed => inferInstanceAs (Decidable True)

/-- The handler of the message takes the mutex. -/
def Message.locks : Message → Bool
  | .request r => r.command ∈ [INSERT, SELECT, UPDATE, DELETE]
  | .malformed => false

/-- The call runs. -/
def Answer.Runs (ans : Answer) : Prop := ∃ d, ans = .runs d

instance : ∀ ans : Answer, Decidable ans.Runs
  | .runs d => isTrue ⟨d, rfl⟩
  | .failed | .noResult | .other .. => isFalse (by simp [Answer.Runs])

/-- A read of messages with ordinary fields that fit, or a call that runs. -/
def WorkersStep.Regular : WorkersStep → Prop
  | .read _ conn peer data => ∀ m ∈ (startRoutine conn peer data).messages, m.Ordinary
  | .query _ ans => ans.Runs
  | .freelist _ | .lock _ | .unlock _ | .retry _ | .writeSfd _ => True

instance : ∀ e : WorkersStep, Decidable e.Regular
  | .read .. => inferInstanceAs (Decidable (∀ _ ∈ _, _))
  | .query _ ans => inferInstanceAs (Decidable ans.Runs)
  | .freelist _ | .lock _ | .unlock _ | .retry _ | .writeSfd _ => inferInstanceAs (Decidable True)

/-- The thread has the messages `ms` left to handle; when there are none, it may have
to use the pool. -/
def Prog.HasLeft (p : Prog) (ms : List Message) : Prop :=
  p = handleAll ms ∨ p = freelist ∧ ms = []

/-! ## 1. One handler -/

namespace AccountStoreLemmas

open AccountsLemmas

variable {db : Database} {d : Defaults} {r : Request}

theorem rowsFor_cases (h : db.names.Nodup) (name : Bytes) :
    db.rowsFor name = [] ∨ ∃ u ∈ db.userInfo, u.name = name ∧ db.rowsFor name = [u] := by
  unfold Database.rowsFor
  unfold Database.names at h
  generalize db.userInfo = us at h ⊢
  induction us with
  | nil => exact .inl rfl
  | cons u us ih =>
    rw [List.map_cons, List.nodup_cons] at h
    obtain ⟨hu, hus⟩ := h
    by_cases hname : u.name = name
    · right
      have hnone : us.filter (·.name = name) = [] := by
        refine List.filter_eq_nil_iff.mpr fun v hv hvn => hu ?_
        rw [hname, ← of_decide_eq_true hvn]
        exact List.mem_map_of_mem hv
      exact ⟨u, .head _, hname, by rw [List.filter_cons_of_pos (by simpa using hname), hnone]⟩
    · rw [List.filter_cons_of_neg (by simpa using hname)]
      rcases ih hus with hnil | ⟨v, hv, hvn, heq⟩
      · exact .inl hnil
      · exact .inr ⟨v, .tail _ hv, hvn, heq⟩

theorem store_account_eq_none : db.store.account r.name = none ↔ db.rowsFor r.name = [] := by
  simp [Database.store]

theorem store_account_of_row {u : UserInfo} (h : db.rowsFor r.name = [u]) :
    db.store.account r.name = some ⟨u.passwd, u.deviceId⟩ := by
  simp [Database.store, h]

theorem store_ext {st st' : Store} (hdevices : st.devices = st'.devices)
    (haccount : ∀ name, st.account name = st'.account name) : st = st' := by
  cases st
  cases st'
  simp only [Store.mk.injEq]
  exact ⟨funext haccount, hdevices⟩

theorem mem_names_iff {name : Bytes} : name ∈ db.names ↔ db.rowsFor name ≠ [] := by
  simp [Database.names, Database.rowsFor, List.filter_eq_nil_iff]

theorem wellFormed_insertUser (h : db.WellFormed) (habsent : db.rowsFor r.name = [])
    (hp : Ordinary r.passwd) : (db.exec d (.insertUser r.name r.passwd)).1.WellFormed where
  names := by
    have hmem : r.name ∉ db.names := fun hmem => mem_names_iff.mp hmem habsent
    show ((db.userInfo ++ [_]).map UserInfo.name).Nodup
    rw [List.map_append, List.nodup_append]
    refine ⟨h.names, List.nodup_singleton _, ?_⟩
    rintro a ha b hb rfl
    rw [List.map_singleton, List.mem_singleton] at hb
    subst hb
    exact hmem ha
  passwds u hu := by
    rcases List.mem_append.mp hu with hu | hu
    · exact h.passwds u hu
    · rw [List.mem_singleton.mp hu]
      exact hp

theorem wellFormed_updateUser (h : db.WellFormed) (hp : Ordinary r.passwd) :
    (db.exec d (.updateUser r.passwd r.name)).1.WellFormed where
  names := by
    have hnames : (db.exec d (.updateUser r.passwd r.name)).1.names = db.names := by
      simp only [Database.exec, Database.names, List.map_map]
      refine List.map_congr_left fun u _ => ?_
      simp only [Function.comp_apply]
      split <;> rfl
    rw [hnames]
    exact h.names
  passwds u hu := by
    obtain ⟨v, hv, rfl⟩ := List.mem_map.mp hu
    split
    · exact hp
    · exact h.passwds v hv

theorem wellFormed_deleteUser (h : db.WellFormed) (id : Bytes) :
    (db.exec d (.deleteUser id)).1.WellFormed where
  names := h.names.sublist (List.filter_sublist.map _)
  passwds u hu := h.passwds u (List.mem_of_mem_filter hu)

theorem store_insertUser (habsent : db.rowsFor r.name = []) :
    (db.exec d (.insertUser r.name r.passwd)).1.store =
      db.store.setAccount r.name (some ⟨r.passwd, d.deviceId⟩) := by
  refine store_ext rfl fun name => ?_
  by_cases hname : r.name = name
  · subst hname
    have hrows : (db.exec d (.insertUser r.name r.passwd)).1.rowsFor r.name =
        db.rowsFor r.name ++ [⟨d.id, r.name, r.passwd, d.deviceId⟩] := by
      simp [Database.exec, Database.rowsFor]
    simp [Database.store, Store.setAccount, hrows, habsent]
  · simp only [Database.store, Store.setAccount, rowsFor_insertUser _ _ hname,
      Function.update_of_ne (Ne.symm hname)]

theorem store_updateUser :
    (db.exec d (.updateUser r.passwd r.name)).1.store =
      db.store.setAccount r.name
        ((db.store.account r.name).map fun a => { a with passwd := r.passwd }) := by
  refine store_ext rfl fun name => ?_
  by_cases hname : r.name = name
  · subst hname
    simp [Database.store, Store.setAccount, rowsFor_updated, Function.comp_def]
  · simp only [Database.store, Store.setAccount, rowsFor_updateUser _ _ hname,
      Function.update_of_ne (Ne.symm hname)]

theorem store_deleteUser (h : db.names.Nodup) (id : Bytes) :
    (db.exec d (.deleteUser id)).1.store =
      { db.store with account := fun name =>
          (db.store.account name).filter (·.deviceId ≠ some id) } := by
  refine store_ext rfl fun name => ?_
  simp only [Database.store, rowsFor_deleteUser]
  rcases rowsFor_cases h name with hnil | ⟨u, -, -, hone⟩
  · rw [hnil]
    rfl
  · rw [hone]
    by_cases hu : u.deviceId = some id <;> simp [hu, Option.filter]

end AccountStoreLemmas

open AccountsLemmas AccountStoreLemmas

/-- The handler of the message does what the message does on the store. -/
def Refines (db : Database) (d : Defaults) (p : Prog) (served : Store × List Bytes) : Prop :=
  ∃ db', p.serve .parsed d db = some (db', served.2.map xorKey) ∧ db'.WellFormed ∧
    db'.store = served.1

namespace AccountStoreLemmas

/-- The text fits, and MySQL reads the values that it was made from. -/
def Plain (s : Statement) : Prop := s.Fits ∧ ∀ a ∈ s.args, LiteralSafe a

theorem Plain.readAs {s : Statement} (h : Plain s) : s.ReadAs s := Statement.readAs_self h.1 h.2

theorem plain_statements (hc : r.command = INSERT ∨ r.command = SELECT ∨ r.command = UPDATE)
    (hm : Message.Ordinary (.request r)) (hip : LiteralSafe r.ip) :
    ∀ s ∈ statementsOf r, Plain s := by
  intro s hs
  have hlen := (StatementSizeLemmas.statementsOf_fit_iff hc).mpr hm.2 s hs
  have hsafe : ∀ a ∈ [r.name, r.passwd, r.deviceId, r.p2pId], LiteralSafe a :=
    fun a ha => (hm.1 a ha).literalSafe
  simp only [List.forall_mem_cons] at hsafe
  obtain ⟨hname, hpasswd, hdevice, hp2p, -⟩ := hsafe
  refine ⟨Nat.lt_of_le_of_lt hlen (by decide), ?_⟩
  unfold statementsOf at hs
  split at hs
  · split at hs
    · rw [List.mem_singleton.mp hs]
      simp [Statement.args, hname, hdevice, hp2p, hip]
    · rcases List.mem_cons.mp hs with rfl | hs
      · simp [Statement.args, hname]
      · rw [List.mem_singleton.mp hs]
        simp [Statement.args, hname, hpasswd]
  · split at hs
    · rw [List.mem_singleton.mp hs]
      simp [Statement.args, hname]
    · rw [List.mem_singleton.mp hs]
      simp [Statement.args, hname, hpasswd]

/-- The statements of each command. -/
theorem plain_device (hc : r.command = INSERT)
    (hform : r.name ≠ ascii "0000" ∧ r.deviceId ≠ ascii "0000")
    (hm : Message.Ordinary (.request r)) (hip : LiteralSafe r.ip) :
    Plain (.insertDevice r.name r.deviceId r.p2pId r.ip) :=
  plain_statements (.inl hc) hm hip _ (by simp [statementsOf, hc, hform.1, hform.2])

theorem plain_user (hc : r.command = INSERT)
    (hform : ¬ (r.name ≠ ascii "0000" ∧ r.deviceId ≠ ascii "0000"))
    (hm : Message.Ordinary (.request r)) (hip : LiteralSafe r.ip) :
    Plain (.lookupUser r.name) ∧ Plain (.insertUser r.name r.passwd) := by
  have hall := plain_statements (.inl hc) hm hip
  rw [statementsOf, if_pos hc, if_neg hform] at hall
  exact ⟨hall _ (by simp), hall _ (by simp)⟩

theorem plain_select (hc : r.command = SELECT) (hm : Message.Ordinary (.request r))
    (hip : LiteralSafe r.ip) : Plain (.selectUser r.name) :=
  plain_statements (.inr (.inl hc)) hm hip _ (by simp [statementsOf, hc, INSERT, SELECT])

theorem plain_update (hc : r.command = UPDATE) (hm : Message.Ordinary (.request r))
    (hip : LiteralSafe r.ip) : Plain (.updateUser r.passwd r.name) :=
  plain_statements (.inr (.inr hc)) hm hip _
    (by simp [statementsOf, hc, INSERT, SELECT, UPDATE])

theorem plain_delete {r : Request} (hid : r.id = []) : Plain (.deleteUser r.id) := by
  rw [hid]
  exact ⟨by decide +kernel, by decide⟩

theorem refines_insert (h : db.WellFormed) (hc : r.command = INSERT)
    (hm : Message.Ordinary (.request r)) (hip : LiteralSafe r.ip) :
    Refines db d (dispatch r .done) (db.store.insert d.deviceId r) := by
  unfold Store.insert
  by_cases hform : r.name ≠ ascii "0000" ∧ r.deviceId ≠ ascii "0000"
  · rw [if_pos hform]
    have hs := plain_device hc hform hm hip
    exact ⟨_, serve_device parsed_obeys hc hform hs.readAs, ⟨h.names, h.passwds⟩, rfl⟩
  · rw [if_neg hform]
    obtain ⟨hlookup, huser⟩ := plain_user hc hform hm hip
    rcases rowsFor_cases h.names r.name with habsent | ⟨u, -, -, hone⟩
    · rw [store_account_eq_none.mpr habsent]
      exact ⟨_, serve_user_absent parsed_obeys hc hform hlookup.readAs huser.readAs habsent,
        wellFormed_insertUser h habsent (hm.1 _ (by simp)), store_insertUser habsent⟩
    · rw [store_account_of_row hone]
      exact ⟨db, serve_user_present parsed_obeys hc hform hlookup.readAs (by simp [hone]), h, rfl⟩

theorem refines_select (h : db.WellFormed) (hc : r.command = SELECT)
    (hm : Message.Ordinary (.request r)) (hip : LiteralSafe r.ip) :
    Refines db d (dispatch r .done) (db.store.select r) := by
  have hs := plain_select hc hm hip
  have hpasswd : cstr r.passwd = r.passwd := (hm.1 _ (by simp)).cstr_eq
  unfold Store.select
  rcases rowsFor_cases h.names r.name with habsent | ⟨u, hu, -, hone⟩
  · have hserve := @serve_select .parsed d db r parsed_obeys hc _ hs.readAs r.passwd
      (by simp [habsent])
    rw [if_pos habsent] at hserve
    rw [store_account_eq_none.mpr habsent]
    exact ⟨db, hserve, h, rfl⟩
  · have hread : u.readPasswd = u.passwd := by
      have hstored := h.passwds u hu
      rw [UserInfo.readPasswd, hstored.cstr_eq, hstored.afterLastRg_eq]
    have hserve := @serve_select .parsed d db r parsed_obeys hc _ hs.readAs u.passwd
      (by simpa [hone] using hread)
    rw [hpasswd, if_neg (by simp [hone])] at hserve
    rw [store_account_of_row hone]
    exact ⟨db, hserve, h, rfl⟩

end AccountStoreLemmas

/-- A handler whose statements run ends, and does on the tables what its message
does on the store, with the same replies. -/
theorem serve_refines {db : Database} {m : Message} (d : Defaults) (h : db.WellFormed)
    (hparsed : ∃ peer t, m = parseMessage peer t) (hm : m.Ordinary) :
    Refines db d (handle m .done) (db.store.serve d.deviceId m) := by
  obtain ⟨peer, t, ht⟩ := hparsed
  cases m with
  | malformed => exact ⟨db, rfl, h, rfl⟩
  | request r =>
    obtain ⟨hip, -⟩ := parseMessage_safe ht.symm
    have hid := parseMessage_id ht.symm
    simp only [handle, Store.serve]
    by_cases hinsert : r.command = INSERT
    · rw [if_pos hinsert]
      exact refines_insert h hinsert hm hip
    rw [if_neg hinsert]
    by_cases hselect : r.command = SELECT
    · rw [if_pos hselect]
      exact refines_select h hselect hm hip
    rw [if_neg hselect]
    by_cases hupdate : r.command = UPDATE
    · rw [if_pos hupdate]
      have hs := plain_update hupdate hm hip
      exact ⟨_, serve_update parsed_obeys hupdate hs.readAs,
        wellFormed_updateUser h (hm.1 _ (by simp)), store_updateUser⟩
    rw [if_neg hupdate]
    by_cases hdelete : r.command = DELETE
    · rw [if_pos hdelete]
      exact ⟨_, serve_delete parsed_obeys hdelete (readAs_delete hid),
        wellFormed_deleteUser h [], store_deleteUser h.names []⟩
    · rw [if_neg hdelete]
      exact ⟨db, serve_unknown ⟨hinsert, hselect, hupdate, hdelete⟩, h, rfl⟩

/-! ## 2. Any number of threads -/

namespace AccountStoreLemmas

variable {k : Prog}

/-! ### Handlers under the mutex -/

theorem locked_query {c : Call} {st : Statement} {f : Outcome → Prog} {as : List Answer}
    {p : Database × List Bytes × Prog} (hst : Plain st)
    (hruns : ∀ ans ∈ as, ans.Runs) (hp : (Prog.query c st f).locked as db = some p) :
    ∃ d as', (∀ ans ∈ as', ans.Runs) ∧
      (f (db.exec d st).2).locked as' (db.exec d st).1 = some p := by
  cases as with
  | nil => cases hp
  | cons ans as' =>
    obtain ⟨⟨d, rfl⟩, hruns'⟩ := List.forall_mem_cons.mp hruns
    refine ⟨d, as', hruns', ?_⟩
    simpa [Prog.locked, Database.query, parseSql_text hst.2] using hp

theorem serve_plain {c : Call} {st : Statement} (hst : Plain st) (f : Outcome → Prog) :
    (Prog.query c st f).serve .parsed d db =
      (f (db.exec d st).2).serve .parsed d (db.exec d st).1 := by
  rw [serve_query parsed_obeys hst.readAs]

theorem locked_reply {str : Bytes} {as : List Answer} {p : Database × List Bytes × Prog}
    (hp : (sendReply str (.unlock k)).locked as db = some p) : p = (db, [xorKey str], k) := by
  cases as with
  | nil => exact (Option.some.inj hp).symm
  | cons ans as => cases hp

theorem locked_runInsert {st : Statement} {as : List Answer} {p : Database × List Bytes × Prog}
    (hst : Plain st) (hruns : ∀ ans ∈ as, ans.Runs)
    (hp : (runInsert st k).locked as db = some p) :
    ∃ d, (runInsert st .done).serve .parsed d db = some (p.1, p.2.1) ∧ p.2.2 = k := by
  obtain ⟨d, as', -, hp'⟩ := locked_query hst hruns hp
  obtain rfl := locked_reply hp'
  exact ⟨d, by rw [runInsert, serve_plain hst]; rfl, rfl⟩

theorem locked_lookupAndInsert {as : List Answer} {p : Database × List Bytes × Prog}
    (hlookup : Plain (.lookupUser r.name)) (huser : Plain (.insertUser r.name r.passwd))
    (hruns : ∀ ans ∈ as, ans.Runs) (hp : (lookupAndInsert r k).locked as db = some p) :
    ∃ d, (lookupAndInsert r .done).serve .parsed d db = some (p.1, p.2.1) ∧ p.2.2 = k := by
  obtain ⟨d, as', hruns', hp'⟩ := locked_query hlookup hruns hp
  -- what the lookup gives does not depend on the defaults
  have hexec : ∀ d', db.exec d' (.lookupUser r.name) = db.exec d (.lookupUser r.name) :=
    fun _ => rfl
  split at hp'
  · cases hp'
  · next strval hsel =>
    split at hp'
    · next hempty =>
      obtain ⟨d', hd', hk⟩ := locked_runInsert huser hruns' hp'
      refine ⟨d', ?_, hk⟩
      rw [lookupAndInsert, serve_plain hlookup, hexec]
      simp only [hsel, if_pos hempty]
      exact hd'
    · next hempty =>
      obtain rfl := locked_reply hp'
      refine ⟨d, ?_, rfl⟩
      rw [lookupAndInsert, serve_plain hlookup]
      simp only [hsel, if_neg hempty]
      exact serve_reply _

theorem locked_selectCase {as : List Answer} {p : Database × List Bytes × Prog}
    (hst : Plain (.selectUser r.name)) (hruns : ∀ ans ∈ as, ans.Runs) {k' : Prog}
    (hlock : selectCase r k = .lock k') (hp : k'.locked as db = some p) :
    ∃ d, (selectCase r .done).serve .parsed d db = some (p.1, p.2.1) ∧ p.2.2 = k := by
  cases hlock
  obtain ⟨d, as', -, hp'⟩ := locked_query hst hruns hp
  refine ⟨d, ?_⟩
  rw [selectCase, Prog.serve, serve_plain hst]
  split at hp'
  · cases hp'
  · obtain rfl := locked_reply hp'
    exact ⟨rfl, rfl⟩

theorem locked_updateCase {as : List Answer} {p : Database × List Bytes × Prog}
    (hst : Plain (.updateUser r.passwd r.name)) (hruns : ∀ ans ∈ as, ans.Runs)
    {k' : Prog} (hlock : updateCase r k = .lock k') (hp : k'.locked as db = some p) :
    ∃ d, (updateCase r .done).serve .parsed d db = some (p.1, p.2.1) ∧ p.2.2 = k := by
  cases hlock
  obtain ⟨d, as', -, hp'⟩ := locked_query hst hruns hp
  obtain rfl := locked_reply hp'
  exact ⟨d, by rw [updateCase, Prog.serve, serve_plain hst]; rfl, rfl⟩

theorem locked_deleteCase {as : List Answer} {p : Database × List Bytes × Prog}
    (hst : Plain (.deleteUser r.id)) (hruns : ∀ ans ∈ as, ans.Runs) {k' : Prog}
    (hlock : deleteCase r k = .lock k') (hp : k'.locked as db = some p) :
    ∃ d, (deleteCase r .done).serve .parsed d db = some (p.1, p.2.1) ∧ p.2.2 = k := by
  cases hlock
  obtain ⟨d, as', -, hp'⟩ := locked_query hst hruns hp
  obtain rfl : p = (_, [], k) := by
    cases as' with
    | nil => exact (Option.some.inj hp').symm
    | cons ans as' => cases hp'
  exact ⟨d, by rw [deleteCase, Prog.serve, serve_plain hst]; rfl, rfl⟩

/-- A handler under the mutex does what it does on its own. -/
theorem locked_handle {m : Message} {k' : Prog} {as : List Answer}
    {p : Database × List Bytes × Prog} (hparsed : ∃ peer t, m = parseMessage peer t)
    (hm : m.Ordinary) (hlock : handle m k = .lock k') (hruns : ∀ ans ∈ as, ans.Runs)
    (hp : k'.locked as db = some p) :
    m.locks = true ∧ ∃ d, (handle m .done).serve .parsed d db = some (p.1, p.2.1) ∧ p.2.2 = k := by
  obtain ⟨peer, t, ht⟩ := hparsed
  cases m with
  | malformed => cases hlock
  | request r =>
    obtain ⟨hip, -⟩ := parseMessage_safe ht.symm
    change dispatch r k = .lock k' at hlock
    simp only [handle]
    by_cases hinsert : r.command = INSERT
    · rw [dispatch_insert hinsert] at hlock ⊢
      cases hlock
      refine ⟨by simp [Message.locks, hinsert], ?_⟩
      simp only [insertCase, Prog.serve]
      split at hp
      · next hform =>
        rw [if_pos hform]
        exact locked_runInsert (plain_device hinsert hform hm hip) hruns hp
      · next hform =>
        rw [if_neg hform]
        obtain ⟨hlookup, huser⟩ := plain_user hinsert hform hm hip
        exact locked_lookupAndInsert hlookup huser hruns hp
    by_cases hselect : r.command = SELECT
    · rw [dispatch_select hselect] at hlock ⊢
      exact ⟨by simp [Message.locks, hselect],
        locked_selectCase (plain_select hselect hm hip) hruns hlock hp⟩
    by_cases hupdate : r.command = UPDATE
    · rw [dispatch_update hupdate] at hlock ⊢
      exact ⟨by simp [Message.locks, hupdate],
        locked_updateCase (plain_update hupdate hm hip) hruns hlock hp⟩
    by_cases hdelete : r.command = DELETE
    · rw [dispatch_delete hdelete] at hlock ⊢
      exact ⟨by simp [Message.locks, hdelete],
        locked_deleteCase (plain_delete (parseMessage_id ht.symm)) hruns hlock hp⟩
    · rw [dispatch_unknown ⟨hinsert, hselect, hupdate, hdelete⟩] at hlock
      cases hlock

/-- A handler takes the mutex, or it is a reply. -/
theorem handle_cases (m : Message) (k : Prog) :
    (∃ k', handle m k = .lock k') ∨
      (handle m k = sendReply (ascii "e3:fail") k ∧ m.locks = false ∧
        ∀ d db, (handle m .done).serve .parsed d db = some (db, [xorKey (ascii "e3:fail")])) := by
  cases m with
  | malformed => exact .inr ⟨rfl, rfl, fun _ _ => rfl⟩
  | request r =>
    simp only [handle]
    by_cases hinsert : r.command = INSERT
    · exact .inl ⟨_, dispatch_insert hinsert k⟩
    by_cases hselect : r.command = SELECT
    · exact .inl ⟨_, dispatch_select hselect k⟩
    by_cases hupdate : r.command = UPDATE
    · exact .inl ⟨_, dispatch_update hupdate k⟩
    by_cases hdelete : r.command = DELETE
    · exact .inl ⟨_, dispatch_delete hdelete k⟩
    · refine .inr ⟨dispatch_unknown ⟨hinsert, hselect, hupdate, hdelete⟩ k, ?_, fun _ _ => ?_⟩
      · simp [Message.locks, hinsert, hselect, hupdate, hdelete]
      · exact serve_unknown ⟨hinsert, hselect, hupdate, hdelete⟩

/-- No handler takes the mutex for the pool. -/
theorem handle_isFreelist (m : Message) (k : Prog) : (handle m k).isFreelist = false := by
  cases m with
  | malformed => rfl
  | request r =>
    simp only [handle]
    by_cases hinsert : r.command = INSERT
    · rw [dispatch_insert hinsert]
      by_cases hform : r.name ≠ ascii "0000" ∧ r.deviceId ≠ ascii "0000"
      · rw [insertCase, if_pos hform]
        rfl
      · rw [insertCase, if_neg hform]
        rfl
    by_cases hselect : r.command = SELECT
    · rw [dispatch_select hselect]
      rfl
    by_cases hupdate : r.command = UPDATE
    · rw [dispatch_update hupdate]
      rfl
    by_cases hdelete : r.command = DELETE
    · rw [dispatch_delete hdelete]
      rfl
    · rw [dispatch_unknown ⟨hinsert, hselect, hupdate, hdelete⟩]
      rfl

/-! ### Runs of handlers in one step -/

/-- The threads have handled the messages `h`; those that take the mutex in the order
in which it was taken for them. -/
structure Linearized (db₀ : Database) (h : List Handled) (s : Traced) : Prop where
  free : s.workers.owner = none
  wellFormed : s.workers.db.WellFormed
  store_eq : s.workers.db.store = db₀.store.after h
  order_eq : (h.filter (·.message.locks)).map Handled.thread = s.order
  threads : ∀ t, ∃ ms, (s.workers.prog t).HasLeft ms ∧
    (∀ m ∈ ms, ∃ peer t, m = parseMessage peer t) ∧
    (s.log t).received = (h.filter (·.thread = t)).map Handled.message ++ ms
  sent : ∀ t, (s.log t).sent = (db₀.store.replies t h).map xorKey

variable {db₀ : Database} {h : List Handled} {s s' : Traced} {t : Nat}

/-- The thread `t` has handled one more message. -/
theorem Linearized.handled (hl : Linearized db₀ h s) {m : Message} {ms : List Message}
    (hparsed : ∀ m' ∈ m :: ms, ∃ peer t, m' = parseMessage peer t)
    (hreceived : (s.log t).received = (h.filter (·.thread = t)).map Handled.message ++ m :: ms)
    (hm : m.Ordinary) {p : Database × List Bytes × Prog}
    (hserve : (handle m .done).serve .parsed d s.workers.db = some (p.1, p.2.1))
    (hk : p.2.2 = handleAll ms) :
    Linearized db₀ (h ++ [⟨t, m, d⟩])
      { s.finish t p with order := s.order ++ if m.locks then [t] else [] } := by
  obtain ⟨db', hserve', hwf, hstore⟩ :=
    serve_refines d hl.wellFormed (hparsed m (.head _)) hm
  obtain ⟨rfl, hreplies⟩ := Prod.mk.inj (Option.some.inj (hserve.symm.trans hserve'))
  rw [hl.store_eq] at hstore hreplies
  refine ⟨rfl, hwf, ?_, ?_, fun u => ?_, fun u => ?_⟩
  · rw [Store.after_concat]
    exact hstore
  · rw [List.filter_append, List.map_append, hl.order_eq]
    cases hlocks : m.locks <;> simp [hlocks]
  · by_cases hu : u = t
    · subst hu
      refine ⟨ms, .inl ?_, fun m' hm' => hparsed m' (.tail _ hm'), ?_⟩
      · simp [Traced.finish, hk]
      · simp [Traced.finish, hreceived]
    · obtain ⟨ms', hleft, hparsed', hreceived'⟩ := hl.threads u
      refine ⟨ms', ?_, hparsed', ?_⟩
      · simpa [Traced.finish, hu] using hleft
      · simp [Traced.finish, hu, hreceived', Ne.symm hu]
  · rw [Store.replies_concat, List.map_append, ← hl.sent u]
    by_cases hu : u = t
    · subst hu
      simp [Traced.finish, hreplies]
    · simp [Traced.finish, hu, Ne.symm hu]

/-- A thread between callbacks has handled all that it has received. -/
theorem Linearized.received_of_done (hl : Linearized db₀ h s) (hp : s.workers.prog t = .done) :
    (s.log t).received = (h.filter (·.thread = t)).map Handled.message := by
  obtain ⟨ms, hleft, -, hreceived⟩ := hl.threads t
  rw [hp] at hleft
  rcases hleft with hprog | ⟨hprog, -⟩
  · cases ms with
    | nil => rw [hreceived, List.append_nil]
    | cons m ms =>
      rw [handleAll_cons] at hprog
      rcases handle_cases m (handleAll ms) with ⟨k', hlock⟩ | ⟨hreply, -, -⟩
      · rw [hlock] at hprog
        cases hprog
      · rw [hreply] at hprog
        cases hprog
  · cases hprog

/-- A callback starts: the thread has messages to handle, or uses the pool. -/
theorem Linearized.start (hl : Linearized db₀ h s) (hp : s.workers.prog t = .done) {p : Prog}
    {ms : List Message} (hleft : p.HasLeft ms)
    (hparsed : ∀ m ∈ ms, ∃ peer t, m = parseMessage peer t) :
    Linearized db₀ h { s with
      workers := s.workers.setProg t p
      log := Function.update s.log t
        { s.log t with received := (s.log t).received ++ ms } } := by
  have hreceived := hl.received_of_done hp
  refine ⟨hl.free, hl.wellFormed, hl.store_eq, hl.order_eq, fun u => ?_, fun u => ?_⟩
  · by_cases hu : u = t
    · subst hu
      refine ⟨ms, ?_, hparsed, ?_⟩
      · simpa [Workers.setProg] using hleft
      · simp [hreceived]
    · obtain ⟨ms', hleft', hparsed', hreceived'⟩ := hl.threads u
      refine ⟨ms', ?_, hparsed', ?_⟩
      · simpa [Workers.setProg, hu] using hleft'
      · simp [hu, hreceived']
  · rw [← hl.sent u]
    by_cases hu : u = t
    · subst hu
      simp
    · simp [hu]

theorem Linearized.next_read (hl : Linearized db₀ h s) {conn : Conn} {peer : InAddr}
    {data : Bytes} (hs : s.step (.read t conn peer data) = some s') : Linearized db₀ h s' := by
  simp only [Traced.step, Workers.step] at hs
  split at hs
  · next hp =>
    cases hs
    have hleft : (startRoutine conn peer data).prog.HasLeft
        (startRoutine conn peer data).messages := by
      rcases prog_cases conn peer data with hclosed | hprog
      · exact .inr hclosed
      · exact .inl hprog
    have hnext := hl.start hp hleft fun m hm => ⟨peer, startRoutine_parsed hm⟩
    simpa [WorkersStep.thread, Workers.note, Workers.taker] using hnext
  · cases hs

theorem Linearized.next_freelist (hl : Linearized db₀ h s) (hs : s.step (.freelist t) = some s') :
    Linearized db₀ h s' := by
  simp only [Traced.step, Workers.step] at hs
  split at hs
  · next hp =>
    cases hs
    have hnext := hl.start hp (.inr ⟨rfl, rfl⟩) (by simp)
    simpa [WorkersStep.thread, Workers.note, Workers.taker] using hnext
  · cases hs

/-- A message that is answered without the mutex. -/
theorem Linearized.next_writeSfd (hl : Linearized db₀ h s)
    (hordinary : ∀ t, ∀ m ∈ (s.log t).received, m.Ordinary) (hs : s.step (.writeSfd t) = some s') :
    ∃ h', Linearized db₀ h' s' := by
  obtain ⟨ms, hleft, hparsed, hreceived⟩ := hl.threads t
  rcases hleft with hprog | ⟨hprog, -⟩
  · simp only [Traced.step, Workers.step, hprog] at hs
    cases ms with
    | nil => cases hs
    | cons m ms =>
      rw [handleAll_cons] at hs hprog
      rcases handle_cases m (handleAll ms) with ⟨k', hlock⟩ | ⟨hreply, hlocks, hserve⟩
      · rw [hlock] at hs
        cases hs
      · rw [hreply] at hs hprog
        cases hs
        have hm : m.Ordinary := hordinary t m (by simp [hreceived])
        have hnext := hl.handled (p := (s.workers.db, [xorKey (ascii "e3:fail")], handleAll ms))
          hparsed hreceived hm (hserve ⟨[], none⟩ _) rfl
        refine ⟨h ++ [⟨t, m, ⟨[], none⟩⟩], ?_⟩
        convert hnext using 1
        simp only [Traced.finish, Workers.setProg, WorkersStep.thread, Workers.note, Workers.taker,
          hprog, sendReply, hl.free, hlocks]
        rfl
  · simp [Traced.step, Workers.step, hprog, freelist] at hs

/-- What a thread does under the mutex: a handler, or the use of the pool. -/
theorem Linearized.next_handler (hl : Linearized db₀ h s)
    (hordinary : ∀ t, ∀ m ∈ (s.log t).received, m.Ordinary) {as : List Answer}
    (hruns : ∀ ans ∈ as, ans.Runs) (hs : s.atomicStep (.handler t as) = some s') :
    ∃ h', Linearized db₀ h' s' := by
  obtain ⟨ms, hleft, hparsed, hreceived⟩ := hl.threads t
  rcases hleft with hprog | ⟨hprog, rfl⟩
  · simp only [Traced.atomicStep, hprog] at hs
    cases ms with
    | nil => cases hs
    | cons m ms =>
      rw [handleAll_cons] at hs hprog
      have hpool := handle_isFreelist m (handleAll ms)
      rcases handle_cases m (handleAll ms) with ⟨k', hlock⟩ | ⟨hreply, -, -⟩
      · rw [hlock] at hs
        obtain ⟨p, hp, rfl⟩ := Option.map_eq_some_iff.mp hs
        have hm : m.Ordinary := hordinary t m (by simp [hreceived])
        obtain ⟨hlocks, d, hserve, hk⟩ := locked_handle (hparsed m (.head _)) hm hlock hruns hp
        have hnext := hl.handled hparsed hreceived hm hserve hk
        have htaker : s.workers.taker (.lock t) = if m.locks then [t] else [] := by
          simp [Workers.taker, hprog, hpool, hlocks]
        rw [htaker]
        exact ⟨_, hnext⟩
      · rw [hreply] at hs
        cases hs
  · simp only [Traced.atomicStep, hprog, freelist] at hs
    obtain ⟨p, hp, rfl⟩ := Option.map_eq_some_iff.mp hs
    obtain rfl : p = (s.workers.db, [], .done) := by
      cases as with
      | nil => exact (Option.some.inj hp).symm
      | cons ans as => cases hp
    have htaker : s.workers.taker (.lock t) = [] := by
      simp [Workers.taker, hprog, freelist, Prog.isFreelist]
    refine ⟨h, rfl, hl.wellFormed, hl.store_eq, ?_, fun u => ?_, fun u => ?_⟩
    · rw [htaker, List.append_nil]
      exact hl.order_eq
    · by_cases hu : u = t
      · subst hu
        exact ⟨[], .inl (by simp [Traced.finish, handleAll]), by simp,
          by simpa [Traced.finish] using hreceived⟩
      · simpa [Traced.finish, hu] using hl.threads u
    · rw [← hl.sent u]
      by_cases hu : u = t
      · subst hu
        simp [Traced.finish]
      · simp [Traced.finish]

/-- One step while the mutex is free. -/
theorem Linearized.next (hl : Linearized db₀ h s) {a : AtomicStep}
    (hordinary : ∀ t, ∀ m ∈ (s.log t).received, m.Ordinary)
    (hruns : ∀ t as, a = .handler t as → ∀ ans ∈ as, ans.Runs) (hs : s.atomicStep a = some s') :
    ∃ h', Linearized db₀ h' s' := by
  cases a with
  | read t conn peer data => exact ⟨h, hl.next_read hs⟩
  | freelist t => exact ⟨h, hl.next_freelist hs⟩
  | retry t =>
    obtain rfl := SerialLemmas.retry_eq hs
    exact ⟨h, hl⟩
  | writeSfd t => exact hl.next_writeSfd hordinary hs
  | handler t as => exact hl.next_handler hordinary (hruns t as rfl) hs

theorem linearized_run (hl : Linearized db₀ [] s) {as : List AtomicStep}
    (hc : Machine.Along Traced.atomicStep (fun s a =>
      (∀ t, ∀ m ∈ (s.log t).received, m.Ordinary) ∧
        ∀ t bs, a = .handler t bs → ∀ ans ∈ bs, ans.Runs) s as)
    (hr : Machine.run Traced.atomicStep s as = some s') :
    ∃ h, Linearized db₀ h s' := by
  refine Machine.run_invariant_along (I := fun s => ∃ h, Linearized db₀ h s) ?_ ⟨[], hl⟩ hc hr
  rintro m a m' ⟨h, hl⟩ ⟨hordinary, hruns⟩ hs
  exact hl.next hordinary hruns hs

theorem received_ordinary (e : WorkersStep) (he : e.Regular)
    (h : ∀ t, ∀ m ∈ (s.log t).received, m.Ordinary) (hs : s.step e = some s') :
    ∀ t, ∀ m ∈ (s'.log t).received, m.Ordinary := by
  obtain ⟨w, -, rfl⟩ := Option.map_eq_some_iff.mp hs
  intro t m hm
  by_cases ht : t = e.thread
  · subst ht
    simp only [Function.update_self] at hm
    cases e with
    | read u conn peer data =>
      rcases List.mem_append.mp hm with hm | hm
      · exact h _ m hm
      · exact he m hm
    | writeSfd u =>
      simp only [Workers.note] at hm
      split at hm <;> exact h _ m hm
    | freelist | lock | unlock | query | retry => exact h _ m hm
  · exact h t m (by simpa [ht] using hm)

/-- Messages are not unreceived. -/
theorem received_back (s : Traced) (a : AtomicStep) (s' : Traced) (hs : s.atomicStep a = some s')
    (h : ∀ t, ∀ m ∈ (s'.log t).received, m.Ordinary) :
    ∀ t, ∀ m ∈ (s.log t).received, m.Ordinary := by
  have hkeep : ∀ t, ∀ m ∈ (s.log t).received, m ∈ (s'.log t).received := by
    intro t m hm
    cases a with
    | read u conn peer data =>
      obtain ⟨w, -, rfl⟩ := Option.map_eq_some_iff.mp hs
      by_cases hu : t = u
      · subst hu
        simp [WorkersStep.thread, Workers.note, hm]
      · simpa [WorkersStep.thread, hu] using hm
    | freelist u | retry u =>
      obtain ⟨w, -, rfl⟩ := Option.map_eq_some_iff.mp hs
      simpa [Workers.note] using hm
    | writeSfd u =>
      obtain ⟨w, -, rfl⟩ := Option.map_eq_some_iff.mp hs
      by_cases hu : t = u
      · subst hu
        simp only [WorkersStep.thread, Workers.note, Function.update_self]
        split <;> exact hm
      · simpa [WorkersStep.thread, hu] using hm
    | handler u as =>
      simp only [Traced.atomicStep] at hs
      split at hs
      · obtain ⟨p, -, rfl⟩ := Option.map_eq_some_iff.mp hs
        by_cases hu : t = u
        · subst hu
          simpa [Traced.finish] using hm
        · simpa [Traced.finish, hu] using hm
      · cases hs
  exact fun t m hm => h t m (hkeep t m hm)

/-- A run after which the mutex is free. -/
theorem run_linearized {db : Database} (hdb : db.WellFormed) {es : List WorkersStep}
    (hr : Machine.run Traced.step (Traced.init db) es = some s) (ho : s.owner = none)
    (hregular : ∀ e ∈ es, e.Regular) : ∃ h, Linearized db h s := by
  obtain ⟨as, has, hglobals⟩ := threads_atomic hr ho
  have hinit : Linearized db [] (Traced.init db) :=
    ⟨rfl, hdb, rfl, rfl, fun _ => ⟨[], .inl rfl, by simp, rfl⟩, fun _ => rfl⟩
  have hanswers : ∀ a ∈ as, ∀ t bs, a = .handler t bs → ∀ ans ∈ bs, ans.Runs := by
    rintro _ ha t bs rfl ans hans
    have hmem : .query t ans ∈ as.flatMap AtomicStep.globals :=
      List.mem_flatMap.mpr ⟨_, ha, by simp [AtomicStep.globals, hans]⟩
    rw [hglobals] at hmem
    exact hregular _ (List.mem_of_mem_filter hmem)
  have hordinary := Machine.run_invariant_along
    (I := fun s => ∀ t, ∀ m ∈ (s.log t).received, m.Ordinary)
    (fun _ e _ h he hs => received_ordinary e he h hs) (by simp [Traced.init])
    (Machine.along_of_forall (Traced.init db) hregular) hr
  obtain ⟨-, halong⟩ := Machine.along_of_last received_back has hordinary
  have hboth := halong.and (Machine.along_of_forall (Traced.init db) hanswers)
  exact linearized_run hinit hboth has

end AccountStoreLemmas

/-- Any number of threads, with any interleaving, answer as the store does, if the
tables are well-formed at the start, the calls run and the fields are ordinary and fit
`sql`. There is one order of all messages handled so far: the replies of each thread
are those of the store to its messages in this order, each thread has handled a first
part of what it has received, and the tables stand for the store after them. Messages
that need the mutex come in the order in which it was taken for them. -/
theorem accounts_linearizable {db : Database} (hdb : db.WellFormed) {es : List WorkersStep}
    {s : Traced} (hr : Machine.run Traced.step (Traced.init db) es = some s) (ho : s.owner = none)
    (hregular : ∀ e ∈ es, e.Regular) :
    ∃ h : List Handled,
      s.workers.db.WellFormed ∧ s.workers.db.store = db.store.after h ∧
      (∀ t, (s.log t).sent = (db.store.replies t h).map xorKey) ∧
      (∀ t, ∃ ms, (s.workers.prog t).HasLeft ms ∧
        (s.log t).received = (h.filter (·.thread = t)).map Handled.message ++ ms) ∧
      (h.filter (·.message.locks)).map Handled.thread = s.order ∧
      s.order.Sublist (es.filterMap WorkersStep.locker) := by
  obtain ⟨h, hl⟩ := run_linearized hdb hr ho hregular
  refine ⟨h, hl.wellFormed, hl.store_eq, hl.sent, fun t => ?_, hl.order_eq, order_sublist hr⟩
  obtain ⟨ms, hleft, -, hreceived⟩ := hl.threads t
  exact ⟨ms, hleft, hreceived⟩

theorem accounts_linearizable_bobAndNoise :
    ∃ s, Machine.run Traced.step (Traced.init ⟨[], []⟩) bobAndNoise = some s ∧
      ∃ h : List Handled,
        s.workers.db.WellFormed ∧ s.workers.db.store = (⟨[], []⟩ : Database).store.after h ∧
        (∀ t, (s.log t).sent = ((⟨[], []⟩ : Database).store.replies t h).map xorKey) ∧
        (∀ t, ∃ ms, (s.workers.prog t).HasLeft ms ∧
          (s.log t).received = (h.filter (·.thread = t)).map Handled.message ++ ms) ∧
        (h.filter (·.message.locks)).map Handled.thread = s.order ∧
        s.order.Sublist (bobAndNoise.filterMap WorkersStep.locker) := by
  have hsome : (Machine.run Traced.step (Traced.init ⟨[], []⟩) bobAndNoise).map Traced.owner =
      some none := by
    decide +kernel
  obtain ⟨s, hs, ho⟩ := Option.map_eq_some_iff.mp hsome
  exact ⟨s, hs, accounts_linearizable ⟨by decide, by simp⟩ hs ho (by decide +kernel)⟩

end SundayServer
