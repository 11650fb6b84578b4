import SundayServer.Replies
import SundayServer.StatementSize
import SundayServer.UserNames

/-!
# Requests against the tables

What requests do to the tables and what they are answered, one request after the
other. MySQL is a parameter: a text that it reads as one of the server's templates has
the effect that the template says, with the values read. What it makes of other texts is
left open, and a statement that `sql` does not hold ends the run.

* `MySql`, `MySql.Obeys`: the server behind `PrinterToMySQL`.
* `Prog.serve`: a callback, from its first call to its last reply. `serveStep`: one
  request.
* `Statement.ReadAs`: a statement that fits, and what MySQL reads in it.
* `Database.Accepts`: SELECT accepts a password of a name, and no other.
* `Kept`: a request that does not take the account of a name away.

Results:
1. `serve_device`, `serve_user_absent`, `serve_user_present`, `serve_select`,
   `serve_update`, `serve_delete`: one request of each kind.
2. `accepts_along_iff`: an account is there at any time during some requests exactly
   when each of them keeps it.
3. `prog_encode`: the callback on a read of one encoded message.
-/

namespace SundayServer

/-! ## Definitions -/

/-- The server: what a text does to the tables, and its outcome. A row that it adds to
`user_info` takes the columns that it does not set from the `Defaults`. -/
abbrev MySql := Defaults → Database → Bytes → Database × Outcome

namespace MySql

/-- A text that stands for a statement succeeds and has the effect of that statement. -/
def Obeys (q : MySql) : Prop :=
  ∀ d db text s, parseSql text = some s → q d db text = db.exec d s

/-- A server that does nothing with the other texts. -/
def parsed : MySql := fun d db text => ((parseSql text).map (db.exec d)).getD (db, .noResult)

/-- A server that empties the tables on them, and gives one row. -/
def wiping : MySql := fun d db text =>
  ((parseSql text).map (db.exec d)).getD (⟨[], []⟩, .rows [UserInfo.row ⟨[], [], [], none⟩])

end MySql

/-- The tables after a program and its replies; `none` if it runs out of an object. -/
def Prog.serve (q : MySql) (d : Defaults) : Prog → Database → Option (Database × List Bytes)
  | .done, db => some (db, [])
  | .crash, _ => none
  | .lock k, db | .unlock k, db => k.serve q d db
  | .query _ s k, db =>
    if s.Fits then (k (q d db s.text).2).serve q d (q d db s.text).1 else none
  | .writeSfd buf k, db => (k.serve q d db).map fun p => (p.1, buf :: p.2)

/-- A request, and what a row that it inserts does not set. -/
structure Served where
  request : Request
  defaults : Defaults
deriving DecidableEq, Repr

/-- The tables after a request. -/
def serveStep (q : MySql) (db : Database) (e : Served) : Option Database :=
  ((dispatch e.request .done).serve q e.defaults db).map Prod.fst

/-- The request comes from the parser. -/
def Served.Parsed (e : Served) : Prop := ∃ peer t, parseMessage peer t = .request e.request

/-- No separator, no control byte, no quote and no backslash. -/
def Ordinary (a : Bytes) : Prop :=
  Unambiguous a ∧ ∀ b ∈ a, 0x20 ≤ b ∧ b ≠ mysqlRules.quote ∧ b ≠ mysqlRules.esc

instance (a : Bytes) : Decidable (Ordinary a) := inferInstanceAs (Decidable (_ ∧ _))

/-- The text fits `sql`, and stands for this statement. -/
def Statement.ReadAs (s t : Statement) : Prop := s.Fits ∧ parseSql s.text = some t

instance (s t : Statement) : Decidable (s.ReadAs t) := inferInstanceAs (Decidable (_ ∧ _))

/-- What SELECT takes for the password of a row. -/
def UserInfo.readPasswd (u : UserInfo) : Bytes := afterLastRg (cstr u.passwd)

namespace Database

/-- The rows of `user_info` with this name. -/
def rowsFor (db : Database) (name : Bytes) : List UserInfo := db.userInfo.filter (·.name = name)

/-- SELECT for this name answers `f0:ok` to this password, and `e3:fail` to every
other ordinary one. -/
def Accepts (q : MySql) (db : Database) (name passwd : Bytes) : Prop :=
  ∀ r : Request, r.command = SELECT → r.name = name → Ordinary r.passwd → ∀ d,
    (dispatch r .done).serve q d db =
      some (db, [xorKey (if r.passwd = passwd then ascii "f0:ok" else ascii "e3:fail")])

/-- The name has rows, all with this password. -/
structure Holds (db : Database) (name passwd : Bytes) : Prop where
  present : db.rowsFor name ≠ []
  passwds : ∀ u ∈ db.rowsFor name, u.readPasswd = passwd

end Database

/-- The statements that the handler of the request executes on these tables. -/
def Request.statements (r : Request) (d : Defaults) (db : Database) : List Statement :=
  if r.command = INSERT then
    if r.name ≠ ascii "0000" ∧ r.deviceId ≠ ascii "0000" then
      [.insertDevice r.name r.deviceId r.p2pId r.ip]
    else
      .lookupUser r.name ::
        if (MySql.parsed d db (Statement.lookupUser r.name).text).2 = .rows [] then
          [.insertUser r.name r.passwd]
        else []
  else if r.command = SELECT then [.selectUser r.name]
  else if r.command = UPDATE then [.updateUser r.passwd r.name]
  else if r.command = DELETE then [.deleteUser r.id]
  else []

/-- MySQL can read the request's statements. An UPDATE that it reads as one of the name
sets the same password; a DELETE finds a row of the name that has not the empty
`device_id`. -/
structure Kept (name passwd : Bytes) (db : Database) (e : Served) : Prop where
  read : ∀ s ∈ e.request.statements e.defaults db, ∃ t, s.ReadAs t
  update : e.request.command = UPDATE → ∀ p,
    (Statement.updateUser e.request.passwd e.request.name).ReadAs (.updateUser p name) →
      afterLastRg (cstr p) = passwd
  delete : e.request.command = DELETE → ∃ u ∈ db.rowsFor name, u.deviceId ≠ some []

theorem Statement.readAs_self {s : Statement} (hfits : s.Fits) (h : ∀ a ∈ s.args, LiteralSafe a) :
    s.ReadAs s :=
  ⟨hfits, parseSql_text h⟩

namespace Ordinary

variable {a : Bytes}

theorem nul_free (h : Ordinary a) : 0 ∉ a := fun h0 => absurd (h.2 0 h0).1 (by decide)

theorem rg_free (h : Ordinary a) : rg ∉ a := fun hrg => absurd (h.2 rg hrg).1 (by decide)

theorem literalSafe (h : Ordinary a) : LiteralSafe a :=
  ⟨h.nul_free, plain_of_forall_ne fun b hb => (h.2 b hb).2⟩

theorem cstr_eq (h : Ordinary a) : cstr a = a := cstr_eq_self_iff.mpr h.nul_free

theorem afterLastRg_eq (h : Ordinary a) : afterLastRg a = a :=
  PasswordLemmas.afterLastRg_eq_self_iff.mpr h.rg_free

end Ordinary

/-! ## 1. One request -/

namespace AccountsLemmas

open PasswordLemmas RepliesLemmas

theorem fits_selectUser {name : Bytes} (h : (cstr name).length ≤ 986) :
    (Statement.selectUser name).Fits := by
  rw [Statement.Fits, text_length, BUFSIZE]
  simp only
  omega

theorem parsed_obeys : MySql.parsed.Obeys := by
  intro d db text s hs
  rw [MySql.parsed, hs]
  rfl

theorem wiping_obeys : MySql.wiping.Obeys := by
  intro d db text s hs
  rw [MySql.wiping, hs]
  rfl

variable {q : MySql} {d : Defaults} {db : Database} {r : Request}

theorem serve_query (hq : q.Obeys) {c : Call} {s t : Statement} (hs : s.ReadAs t)
    (k : Outcome → Prog) :
    (Prog.query c s k).serve q d db = (k (db.exec d t).2).serve q d (db.exec d t).1 := by
  rw [Prog.serve, if_pos hs.1, hq d db _ t hs.2]

theorem serve_reply (str : Bytes) :
    (sendReply str (.unlock .done)).serve q d db = some (db, [xorKey str]) := rfl

theorem serve_runInsert (hq : q.Obeys) {s t : Statement} (hs : s.ReadAs t)
    (hok : (db.exec d t).2 = .noResult) :
    (runInsert s .done).serve q d db = some ((db.exec d t).1, [xorKey (ascii "f0:ok")]) := by
  rw [runInsert, serve_query hq hs, hok]
  rfl

/-- INSERT into `device_info`. -/
theorem serve_device (hq : q.Obeys) (hc : r.command = INSERT)
    (hform : r.name ≠ ascii "0000" ∧ r.deviceId ≠ ascii "0000") {name deviceId p2pId ip : Bytes}
    (hs : (Statement.insertDevice r.name r.deviceId r.p2pId r.ip).ReadAs
      (.insertDevice name deviceId p2pId ip)) :
    (dispatch r .done).serve q d db =
      some ((db.exec d (.insertDevice name deviceId p2pId ip)).1, [xorKey (ascii "f0:ok")]) := by
  rw [dispatch_insert hc, insertCase, if_pos hform, Prog.serve, serve_runInsert hq hs rfl]

theorem readable_rows (us : List UserInfo) : Readable (.rows (us.map UserInfo.row)) := by
  intro rs hrs row hrow
  obtain rfl : us.map UserInfo.row = rs := by simpa using hrs
  obtain ⟨u, -, rfl⟩ := List.mem_map.mp hrow
  rfl

/-- INSERT into `user_info`, when the lookup finds nobody. -/
theorem serve_user_absent (hq : q.Obeys) (hc : r.command = INSERT)
    (hform : ¬ (r.name ≠ ascii "0000" ∧ r.deviceId ≠ ascii "0000")) {name name' passwd : Bytes}
    (hlookup : (Statement.lookupUser r.name).ReadAs (.lookupUser name))
    (hinsert : (Statement.insertUser r.name r.passwd).ReadAs (.insertUser name' passwd))
    (habsent : db.rowsFor name = []) :
    (dispatch r .done).serve q d db =
      some ((db.exec d (.insertUser name' passwd)).1, [xorKey (ascii "f0:ok")]) := by
  have hrows : db.exec d (.lookupUser name) =
      (db, .rows ((db.rowsFor name).map UserInfo.row)) := rfl
  rw [dispatch_insert hc, insertCase, if_neg hform, Prog.serve, lookupAndInsert,
    serve_query hq hlookup, hrows, habsent]
  exact serve_runInsert hq hinsert rfl

/-- INSERT into `user_info`, when the lookup finds somebody. -/
theorem serve_user_present (hq : q.Obeys) (hc : r.command = INSERT)
    (hform : ¬ (r.name ≠ ascii "0000" ∧ r.deviceId ≠ ascii "0000")) {name : Bytes}
    (hlookup : (Statement.lookupUser r.name).ReadAs (.lookupUser name))
    (hpresent : db.rowsFor name ≠ []) :
    (dispatch r .done).serve q d db = some (db, [xorKey (ascii "e1:fail")]) := by
  have hrows : db.exec d (.lookupUser name) =
      (db, .rows ((db.rowsFor name).map UserInfo.row)) := rfl
  rw [dispatch_insert hc, insertCase, if_neg hform, Prog.serve, lookupAndInsert,
    serve_query hq hlookup, hrows]
  obtain ⟨strval, hstrval⟩ := Option.isSome_iff_exists.mp
    (selectData_isSome (readable_rows (db.rowsFor name)))
  have hlen : strval.length ≠ 0 := by
    intro h0
    obtain rfl := List.length_eq_zero_iff.mp h0
    simpa [hpresent] using selectData_eq_nil.mp hstrval
  simp only [hstrval, if_neg hlen]
  exact serve_reply _

/-- What SELECT answers when it finds rows from which it reads one password. -/
theorem selectReply_of_rows {us : List UserInfo} {stored : Bytes} (hne : us ≠ [])
    (hall : ∀ u ∈ us, u.readPasswd = stored) (passwd : Bytes) :
    selectReply passwd (.rows (us.map UserInfo.row)) =
      some (if cstr passwd = stored then ascii "f0:ok" else ascii "e3:fail") := by
  obtain ⟨strval, hstrval⟩ := Option.isSome_iff_exists.mp
    (selectData_isSome (readable_rows us))
  obtain ⟨row, hrow, a, cell, hcell, htext⟩ := rowsText_tail (by simpa using hne) hstrval
  obtain ⟨u, hu, rfl⟩ := List.mem_map.mp hrow
  obtain rfl : u.passwd = cell := by simpa [UserInfo.row] using hcell
  have hnew : newPasswd strval = some stored := by
    rw [newPasswd_tail htext (rowsText_nul_free hstrval), ← hall u hu]
    rfl
  have hlen : strval.length ≠ 0 := by rw [htext]; simp
  simp only [selectReply, hstrval, if_pos hlen, hnew, Option.map_some, ne_eq, ite_not,
    eq_comm (a := stored)]

/-- SELECT, on rows from which it reads one password. -/
theorem serve_select (hq : q.Obeys) (hc : r.command = SELECT) {name : Bytes}
    (hs : (Statement.selectUser r.name).ReadAs (.selectUser name)) {stored : Bytes}
    (hall : ∀ u ∈ db.rowsFor name, u.readPasswd = stored) :
    (dispatch r .done).serve q d db = some (db,
      [xorKey (if db.rowsFor name = [] then ascii "e1:fail"
        else if cstr r.passwd = stored then ascii "f0:ok" else ascii "e3:fail")]) := by
  have hrows : db.exec d (.selectUser name) =
      (db, .rows ((db.rowsFor name).map UserInfo.row)) := rfl
  rw [dispatch_select hc, selectCase, Prog.serve, serve_query hq hs, hrows]
  by_cases hnil : db.rowsFor name = []
  · rw [if_pos hnil, hnil]
    rfl
  · simp only [selectReply_of_rows hnil hall, if_neg hnil]
    exact serve_reply _

/-- SELECT changes nothing. -/
theorem serve_select_db (hq : q.Obeys) (hc : r.command = SELECT) {name : Bytes}
    (hs : (Statement.selectUser r.name).ReadAs (.selectUser name)) :
    ∃ str, (dispatch r .done).serve q d db = some (db, [str]) := by
  have hrows : db.exec d (.selectUser name) =
      (db, .rows ((db.rowsFor name).map UserInfo.row)) := rfl
  rw [dispatch_select hc, selectCase, Prog.serve, serve_query hq hs, hrows]
  obtain ⟨str, hstr⟩ := Option.isSome_iff_exists.mp
    (selectReply_isSome (readable_rows (db.rowsFor name)) r.passwd)
  simp only [hstr]
  exact ⟨_, serve_reply str⟩

/-- UPDATE is always answered `f0:ok`. -/
theorem serve_update (hq : q.Obeys) (hc : r.command = UPDATE) {passwd name : Bytes}
    (hs : (Statement.updateUser r.passwd r.name).ReadAs (.updateUser passwd name)) :
    (dispatch r .done).serve q d db =
      some ((db.exec d (.updateUser passwd name)).1, [xorKey (ascii "f0:ok")]) := by
  rw [dispatch_update hc, updateCase, Prog.serve, serve_query hq hs]
  rfl

/-- DELETE is not answered. -/
theorem serve_delete (hq : q.Obeys) (hc : r.command = DELETE) {id : Bytes}
    (hs : (Statement.deleteUser r.id).ReadAs (.deleteUser id)) :
    (dispatch r .done).serve q d db = some ((db.exec d (.deleteUser id)).1, []) := by
  rw [dispatch_delete hc, deleteCase, Prog.serve, serve_query hq hs]
  rfl

/-- DELETE hands over the empty `id`. -/
theorem readAs_delete (hid : r.id = []) : (Statement.deleteUser r.id).ReadAs (.deleteUser []) := by
  rw [hid]
  exact Statement.readAs_self (by decide +kernel) (by decide)

/-- An unknown command touches no table. -/
theorem serve_unknown
    (hc : r.command ≠ INSERT ∧ r.command ≠ SELECT ∧ r.command ≠ UPDATE ∧ r.command ≠ DELETE) :
    (dispatch r .done).serve q d db = some (db, [xorKey (ascii "e3:fail")]) := by
  rw [dispatch_unknown hc]
  rfl

end AccountsLemmas

open AccountsLemmas

/-! ## 2. An account during some requests -/

namespace AccountsLemmas

variable {q : MySql} {d : Defaults} {db : Database} {name passwd : Bytes} {e : Served}

theorem rowsFor_insertUser (db : Database) (d : Defaults) {n : Bytes} (h : n ≠ name) (p : Bytes) :
    (db.exec d (.insertUser n p)).1.rowsFor name = db.rowsFor name := by
  simp [Database.exec, Database.rowsFor, h]

theorem rowsFor_updateUser (db : Database) (d : Defaults) {n : Bytes} (h : n ≠ name) (p : Bytes) :
    (db.exec d (.updateUser p n)).1.rowsFor name = db.rowsFor name := by
  simp only [Database.exec, Database.rowsFor]
  induction db.userInfo with
  | nil => rfl
  | cons u us ih =>
    by_cases hu : u.name = name
    · have hn : u.name ≠ n := fun heq => h (heq.symm.trans hu)
      simp [hu, ih, h.symm]
    · by_cases hn : u.name = n
      · simp [hn, h, ih]
      · simp [hu, hn, ih]

/-- UPDATE gives every row of the name the new password. -/
theorem rowsFor_updated (db : Database) (d : Defaults) (name passwd : Bytes) :
    (db.exec d (.updateUser passwd name)).1.rowsFor name =
      (db.rowsFor name).map fun u => { u with passwd } := by
  simp only [Database.exec, Database.rowsFor]
  induction db.userInfo with
  | nil => rfl
  | cons u us ih =>
    by_cases hu : u.name = name
    · simp [hu, ih]
    · simp [hu, ih]

theorem rowsFor_deleteUser (db : Database) (d : Defaults) (name id : Bytes) :
    (db.exec d (.deleteUser id)).1.rowsFor name =
      (db.rowsFor name).filter (·.deviceId ≠ some id) := by
  simp only [Database.exec, Database.rowsFor]
  exact List.filter_comm _ _ _

theorem readPasswd_of_updated {us : List UserInfo} {p : Bytes} :
    ∀ u ∈ us.map fun u => { u with passwd := p }, u.readPasswd = afterLastRg (cstr p) := by
  intro u hu
  obtain ⟨v, -, rfl⟩ := List.mem_map.mp hu
  rfl

theorem lookup_rows {a n : Bytes} (h : (Statement.lookupUser a).ReadAs (.lookupUser n)) :
    (MySql.parsed d db (Statement.lookupUser a).text).2 = .rows [] ↔ db.rowsFor n = [] := by
  have hrows : db.exec d (.lookupUser n) = (db, .rows ((db.rowsFor n).map UserInfo.row)) := rfl
  rw [parsed_obeys d db _ _ h.2, hrows]
  simp

/-- An INSERT adds no row of a name that has one. -/
theorem holds_insert (hc : e.request.command = INSERT) (hdb : db.Holds name passwd)
    (hread : ∀ s ∈ e.request.statements e.defaults db, ∃ t, s.ReadAs t) :
    ∃ db', db'.Holds name passwd ∧ ∀ q : MySql, q.Obeys → serveStep q db e = some db' := by
  unfold Request.statements at hread
  unfold serveStep
  rw [if_pos hc] at hread
  by_cases hform : e.request.name ≠ ascii "0000" ∧ e.request.deviceId ≠ ascii "0000"
  · rw [if_pos hform, List.forall_mem_singleton] at hread
    obtain ⟨t, ht⟩ := hread
    cases sameTemplate_of_parseSql ht.2
    refine ⟨_, ?_, fun q hq => by rw [serve_device hq hc hform ht]; rfl⟩
    exact ⟨hdb.present, hdb.passwds⟩
  rw [if_neg hform, List.forall_mem_cons] at hread
  obtain ⟨⟨t, hlookup⟩, hinsert⟩ := hread
  cases sameTemplate_of_parseSql hlookup.2 with
  | @lookupUser _ n =>
    by_cases habsent : db.rowsFor n = []
    · rw [if_pos ((lookup_rows hlookup).mpr habsent), List.forall_mem_singleton] at hinsert
      obtain ⟨t, ht⟩ := hinsert
      cases sameTemplate_of_parseSql ht.2 with
      | @insertUser _ n' _ p =>
        have hne : n' ≠ name := by
          rintro rfl
          rw [insertUser_name hlookup.2 ht.2] at hdb
          exact hdb.present habsent
        refine ⟨(db.exec e.defaults (.insertUser n' p)).1, ?_, fun q hq => by
          rw [serve_user_absent hq hc hform hlookup ht habsent]; rfl⟩
        have hrows := rowsFor_insertUser db e.defaults hne p
        exact ⟨hrows ▸ hdb.present, hrows ▸ hdb.passwds⟩
    · refine ⟨db, hdb, fun q hq => ?_⟩
      rw [serve_user_present hq hc hform hlookup habsent]
      rfl

/-- A request that keeps the account does the same to the tables whatever MySQL makes
of other texts. -/
theorem holds_step (he : e.Parsed) (hdb : db.Holds name passwd) (hk : Kept name passwd db e) :
    ∃ db', db'.Holds name passwd ∧ ∀ q : MySql, q.Obeys → serveStep q db e = some db' := by
  by_cases hinsert : e.request.command = INSERT
  · exact holds_insert hinsert hdb hk.read
  obtain ⟨peer, m, hm⟩ := he
  have hread := hk.read
  unfold Request.statements at hread
  unfold serveStep
  rw [if_neg hinsert] at hread
  by_cases hselect : e.request.command = SELECT
  · rw [if_pos hselect, List.forall_mem_singleton] at hread
    obtain ⟨t, ht⟩ := hread
    cases sameTemplate_of_parseSql ht.2
    refine ⟨db, hdb, fun q hq => ?_⟩
    obtain ⟨str, hstr⟩ := @serve_select_db q e.defaults db _ hq hselect _ ht
    rw [hstr]
    rfl
  rw [if_neg hselect] at hread
  by_cases hupdate : e.request.command = UPDATE
  · rw [if_pos hupdate, List.forall_mem_singleton] at hread
    obtain ⟨t, ht⟩ := hread
    cases sameTemplate_of_parseSql ht.2 with
    | @updateUser _ p _ n =>
      refine ⟨_, ?_, fun q hq => by rw [serve_update hq hupdate ht]; rfl⟩
      by_cases hname : n = name
      · subst hname
        have hrows := rowsFor_updated db e.defaults n p
        refine ⟨by simpa [hrows] using hdb.present, fun u hu => ?_⟩
        rw [← hk.update hupdate p ht]
        exact readPasswd_of_updated u (hrows ▸ hu)
      · have hrows := rowsFor_updateUser db e.defaults hname p
        exact ⟨hrows ▸ hdb.present, hrows ▸ hdb.passwds⟩
  rw [if_neg hupdate] at hread
  by_cases hdelete : e.request.command = DELETE
  · refine ⟨(db.exec e.defaults (.deleteUser [])).1, ?_, fun q hq => ?_⟩
    · have hrows := rowsFor_deleteUser db e.defaults name []
      obtain ⟨u, hu, hdevice⟩ := hk.delete hdelete
      refine ⟨?_, fun v hv => ?_⟩
      · rw [hrows]
        exact List.ne_nil_of_mem (List.mem_filter.mpr ⟨hu, by simpa using hdevice⟩)
      · rw [hrows] at hv
        exact hdb.passwds v (List.mem_of_mem_filter hv)
    · rw [serve_delete hq hdelete (readAs_delete (parseMessage_id hm))]
      rfl
  · refine ⟨db, hdb, fun q hq => ?_⟩
    rw [serve_unknown ⟨hinsert, hselect, hupdate, hdelete⟩]
    rfl

/-- When SELECT reads one password from all rows of a name, it accepts that one if
there is a row. -/
theorem accepts_iff (hq : q.Obeys) (hname : Ordinary name)
    (hfits : (Statement.selectUser name).Fits) (hp : Ordinary passwd)
    {stored : Bytes} (hall : ∀ u ∈ db.rowsFor name, u.readPasswd = stored) :
    db.Accepts q name passwd ↔ db.rowsFor name ≠ [] ∧ stored = passwd := by
  have hread : (Statement.selectUser name).ReadAs (.selectUser name) :=
    Statement.readAs_self hfits (by simpa [Statement.args] using hname.literalSafe)
  constructor
  · intro h
    have hok := h { command := SELECT, name, passwd } rfl rfl hp ⟨[], none⟩
    rw [serve_select hq rfl hread hall, if_pos rfl, hp.cstr_eq] at hok
    have hreply := List.cons.inj (Prod.mk.inj (Option.some.inj hok)).2 |>.1
    by_cases hnil : db.rowsFor name = []
    · rw [if_pos hnil] at hreply
      exact absurd hreply (by decide)
    · rw [if_neg hnil] at hreply
      by_cases heq : passwd = stored
      · exact ⟨hnil, heq.symm⟩
      · rw [if_neg heq] at hreply
        exact absurd hreply (by decide)
  · rintro ⟨hne, rfl⟩ r hc rfl hr d
    rw [serve_select hq hc hread hall, if_neg hne, hr.cstr_eq]

/-! ### A request that does not keep the account -/

open RepliesLemmas

/-- The program runs out of an object, or it leaves empty tables. -/
def Wiped (p : Option (Database × List Bytes)) : Prop :=
  p = none ∨ ∃ replies, p = some (⟨[], []⟩, replies)

theorem wiping_of_not_read {s : Statement} (hfits : s.Fits) (hs : ¬ ∃ t, s.ReadAs t) :
    MySql.wiping d db s.text = (⟨[], []⟩, .rows [UserInfo.row ⟨[], [], [], none⟩]) := by
  have hnone : parseSql s.text = none :=
    Option.eq_none_iff_forall_ne_some.mpr fun t ht => hs ⟨t, hfits, ht⟩
  rw [MySql.wiping, hnone]
  rfl

theorem wiped_query {c : Call} {s : Statement} {k : Outcome → Prog} (hs : ¬ ∃ t, s.ReadAs t)
    (hk : Wiped ((k (.rows [UserInfo.row ⟨[], [], [], none⟩])).serve .wiping d ⟨[], []⟩)) :
    Wiped ((Prog.query c s k).serve .wiping d db) := by
  rw [Prog.serve]
  by_cases hfits : s.Fits
  · rw [if_pos hfits, wiping_of_not_read hfits hs]
    exact hk
  · exact .inl (if_neg hfits)

theorem wiped_reply (str : Bytes) :
    Wiped ((sendReply str (.unlock .done)).serve .wiping d ⟨[], []⟩) := .inr ⟨_, rfl⟩

theorem wiped_runInsert {s : Statement} (hs : ¬ ∃ t, s.ReadAs t) :
    Wiped ((runInsert s .done).serve .wiping d db) :=
  wiped_query hs (wiped_reply _)

theorem wiped_insert {r : Request} {s : Statement} (hc : r.command = INSERT)
    (hmem : s ∈ r.statements d db) (hs : ¬ ∃ t, s.ReadAs t) :
    Wiped ((dispatch r .done).serve .wiping d db) := by
  unfold Request.statements at hmem
  rw [if_pos hc] at hmem
  rw [dispatch_insert hc, insertCase, Prog.serve]
  by_cases hform : r.name ≠ ascii "0000" ∧ r.deviceId ≠ ascii "0000"
  · rw [if_pos hform, List.mem_singleton] at hmem
    rw [if_pos hform]
    exact wiped_runInsert (hmem ▸ hs)
  rw [if_neg hform] at hmem
  rw [if_neg hform]
  by_cases hlookup : ∃ t, (Statement.lookupUser r.name).ReadAs t
  · have huser := (List.mem_cons.mp hmem).resolve_left fun heq => hs (heq ▸ hlookup)
    obtain ⟨t, ht⟩ := hlookup
    by_cases hrows : (MySql.parsed d db (Statement.lookupUser r.name).text).2 = .rows []
    · rw [if_pos hrows, List.mem_singleton] at huser
      have hexec : (db.exec d t).2 = .rows [] := by
        rw [← hrows, parsed_obeys d db _ _ ht.2]
      rw [lookupAndInsert, serve_query wiping_obeys ht, hexec]
      exact wiped_runInsert (huser ▸ hs)
    · rw [if_neg hrows] at huser
      cases huser
  · -- the row that the lookup is given ends the handler
    exact wiped_query hlookup (wiped_reply _)

theorem wiped_of_not_read {r : Request} {s : Statement} (hmem : s ∈ r.statements d db)
    (hs : ¬ ∃ t, s.ReadAs t) : Wiped ((dispatch r .done).serve .wiping d db) := by
  by_cases hinsert : r.command = INSERT
  · exact wiped_insert hinsert hmem hs
  unfold Request.statements at hmem
  rw [if_neg hinsert] at hmem
  by_cases hselect : r.command = SELECT
  · rw [if_pos hselect, List.mem_singleton] at hmem
    rw [dispatch_select hselect, selectCase, Prog.serve]
    refine wiped_query (hmem ▸ hs) ?_
    obtain ⟨str, hstr⟩ : ∃ str,
        selectReply r.passwd (.rows [UserInfo.row ⟨[], [], [], none⟩]) = some str :=
      Option.isSome_iff_exists.mp
        (selectReply_isSome (readable_rows [⟨[], [], [], none⟩]) r.passwd)
    simp only [hstr]
    exact wiped_reply _
  rw [if_neg hselect] at hmem
  by_cases hupdate : r.command = UPDATE
  · rw [if_pos hupdate, List.mem_singleton] at hmem
    rw [dispatch_update hupdate, updateCase, Prog.serve]
    exact wiped_query (hmem ▸ hs) (wiped_reply _)
  rw [if_neg hupdate] at hmem
  by_cases hdelete : r.command = DELETE
  · rw [if_pos hdelete, List.mem_singleton] at hmem
    rw [dispatch_delete hdelete, deleteCase, Prog.serve]
    exact wiped_query (hmem ▸ hs) (.inr ⟨[], rfl⟩)
  · rw [if_neg hdelete] at hmem
    cases hmem

/-- The account is lost by a request that does not keep it, if MySQL empties the tables
on a text that it cannot read. -/
theorem not_accepts_of_not_kept (hname : Ordinary name)
    (hfits : (Statement.selectUser name).Fits) (hp : Ordinary passwd) (he : e.Parsed)
    (hk : ¬ Kept name passwd db e) {db' : Database}
    (hstep : serveStep .wiping db e = some db') : ¬ db'.Accepts .wiping name passwd := by
  obtain ⟨⟨db₁, replies⟩, hserve, rfl⟩ := Option.map_eq_some_iff.mp hstep
  have habsent : ∀ {db₂ : Database}, db₂.rowsFor name = [] → ¬ db₂.Accepts .wiping name passwd := by
    intro db₂ hnil h
    have hall : ∀ u ∈ db₂.rowsFor name, u.readPasswd = passwd := by simp [hnil]
    exact ((accepts_iff wiping_obeys hname hfits hp hall).mp h).1 hnil
  by_cases hread : ∀ s ∈ e.request.statements e.defaults db, ∃ t, s.ReadAs t
  · by_cases hupdate : e.request.command = UPDATE ∧ ∃ p,
        (Statement.updateUser e.request.passwd e.request.name).ReadAs (.updateUser p name) ∧
          afterLastRg (cstr p) ≠ passwd
    · obtain ⟨hcommand, p, hs, hpasswd⟩ := hupdate
      rw [serve_update wiping_obeys hcommand hs] at hserve
      obtain ⟨rfl, -⟩ := Prod.mk.inj (Option.some.inj hserve)
      intro h
      refine hpasswd ((accepts_iff wiping_obeys hname hfits hp ?_).mp h).2
      rw [rowsFor_updated]
      exact readPasswd_of_updated
    · have hdelete : ¬ (e.request.command = DELETE →
          ∃ u ∈ db.rowsFor name, u.deviceId ≠ some []) := fun hdelete =>
        hk ⟨hread, fun hcommand p hs => not_not.mp fun hne => hupdate ⟨hcommand, p, hs, hne⟩,
          hdelete⟩
      obtain ⟨hcommand, hnone⟩ := Classical.not_imp.mp hdelete
      obtain ⟨peer, m, hm⟩ := he
      rw [serve_delete wiping_obeys hcommand (readAs_delete (parseMessage_id hm))] at hserve
      obtain ⟨rfl, -⟩ := Prod.mk.inj (Option.some.inj hserve)
      refine habsent ?_
      have hrows := rowsFor_deleteUser db e.defaults name []
      refine hrows.trans (List.filter_eq_nil_iff.mpr fun u hu hne => hnone ⟨u, hu, ?_⟩)
      simpa using hne
  · simp only [not_forall] at hread
    obtain ⟨s, hmem, hs⟩ := hread
    rcases wiped_of_not_read hmem hs with hnone | ⟨replies', hempty⟩
    · rw [hnone] at hserve
      cases hserve
    · obtain ⟨rfl, -⟩ := Prod.mk.inj (Option.some.inj (hempty.symm.trans hserve))
      exact habsent rfl

end AccountsLemmas

/-- The account can be logged into at any time during some requests, whatever MySQL
makes of texts that are no template, exactly when each request keeps it. -/
theorem accepts_along_iff {name passwd : Bytes} (hname : Ordinary name)
    (hfits : (Statement.selectUser name).Fits) (hp : Ordinary passwd) {db : Database}
    (hdb : db.Holds name passwd) {es : List Served} (hes : ∀ e ∈ es, e.Parsed) :
    (∀ q : MySql, q.Obeys → ∀ es₁, es₁ <+: es →
      ∃ db₁, Machine.run (serveStep q) db es₁ = some db₁ ∧ db₁.Accepts q name passwd) ↔
    Machine.Along (serveStep .parsed) (Kept name passwd) db es := by
  have hnow : ∀ {db' : Database}, db'.Holds name passwd → ∀ q : MySql, q.Obeys →
      db'.Accepts q name passwd := fun hdb' q hq =>
    (accepts_iff hq hname hfits hp hdb'.passwds).mpr ⟨hdb'.present, rfl⟩
  induction es generalizing db with
  | nil =>
    refine iff_of_true (fun q hq es₁ hes₁ => ⟨db, ?_, hnow hdb q hq⟩) trivial
    rw [List.prefix_nil.mp hes₁]
    rfl
  | cons e es ih =>
    obtain ⟨he, hparsed⟩ := List.forall_mem_cons.mp hes
    constructor
    · intro h
      have hk : Kept name passwd db e := by
        by_contra hk
        obtain ⟨db₁, hrun, haccepts⟩ := h .wiping wiping_obeys [e] (by simp)
        have hstep : serveStep .wiping db e = some db₁ := by simpa using hrun
        exact not_accepts_of_not_kept hname hfits hp he hk hstep haccepts
      obtain ⟨db', hdb', hstep⟩ := holds_step he hdb hk
      refine ⟨hk, fun db₁ hdb₁ => ?_⟩
      obtain rfl := Option.some.inj ((hstep .parsed parsed_obeys).symm.trans hdb₁)
      refine (ih hdb' hparsed).mp fun q hq es₁ hes₁ => ?_
      obtain ⟨db₂, hrun, haccepts⟩ := h q hq (e :: es₁) (by simpa using hes₁)
      rw [Machine.run_cons, hstep q hq, Option.bind_some] at hrun
      exact ⟨db₂, hrun, haccepts⟩
    · rintro ⟨hk, halong⟩ q hq es₁ hes₁
      obtain ⟨db', hdb', hstep⟩ := holds_step he hdb hk
      cases es₁ with
      | nil => exact ⟨db, rfl, hnow hdb q hq⟩
      | cons e₁ es₁ =>
        obtain ⟨rfl, htail⟩ := List.cons_prefix_cons.mp hes₁
        have halong' := halong db' (hstep .parsed parsed_obeys)
        rw [Machine.run_cons, hstep q hq, Option.bind_some]
        exact (ih hdb' hparsed).mpr halong' q hq es₁ htail

/-- A login of `amy`. -/
def amyLogin : Served :=
  ⟨{ command := SELECT, name := ascii "amy", passwd := ascii "pw" }, ⟨[], none⟩⟩

theorem amyLogin_parsed : amyLogin.Parsed :=
  ⟨⟨127, 0, 0, 1⟩, encodeMessage [ascii "2", ascii "amy", ascii "pw"], by decide +kernel⟩

/-! ## 3. A read of one message -/

/-- On a verified connection the callback handles the request that the client encoded. -/
theorem prog_encode {conn : Conn} (hv : conn.isVerify = true) {peer : InAddr}
    {fields : List Bytes} {r : Request} (hr : messageOf peer fields = .request r)
    (h : ∀ f ∈ fields, Unambiguous f) :
    (startRoutine conn peer (xorKey (encodeStream [fields]))).prog = dispatch r .done := by
  have hne : fields ≠ [] := by
    rintro rfl
    cases hr
  rw [prog_verified hv, startRoutine_verified hv, xorKey_xorKey,
    messagesOf_encode peer (by simpa using hne) (by simpa using h)]
  simp [handleAll, hr, handle]

end SundayServer
