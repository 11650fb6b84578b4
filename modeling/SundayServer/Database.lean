import SundayServer.StartRoutine

/-!
# What the database does

The tables the server uses, and what MySQL does with a statement text: it reads
the text under its literal rules, recognises one of the server's templates with
the values of its literals, and runs it. Names are compared byte by byte.

* `parseSql`: the template and the values that a text stands for.
* `Database.exec`: the effect and the result of each template.
* `Database.query`: one call. It may fail, it may give no result set (a query
  only), or it runs. A text that is no template may do anything.

Results:
1. `parseSql_text`: a text made from safe values stands for its statement.
2. `sameTemplate_of_parseSql`: a text made from any values stands for a statement of
   its own template, or for none.
3. `query_safe`: what a call on a text made from safe values can do.
-/

namespace SundayServer

/-! ## Tables -/

/-- A row of `user_info`: the three columns the server reads, and the one that
`delete` compares. -/
structure UserInfo where
  id : Bytes
  name : Bytes
  passwd : Bytes
  deviceId : Option Bytes
deriving DecidableEq, Repr

/-- A row of `device_info`. -/
structure DeviceInfo where
  name : Bytes
  deviceId : Bytes
  p2pId : Bytes
  ipAddress : Bytes
deriving DecidableEq, Repr

structure Database where
  userInfo : List UserInfo
  deviceInfo : List DeviceInfo
deriving DecidableEq, Repr

/-- The columns that an insert into `user_info` does not set. -/
structure Defaults where
  id : Bytes
  deviceId : Option Bytes
deriving DecidableEq, Repr

/-- The result of `SELECT *`. -/
def UserInfo.row (u : UserInfo) : Row := [some u.id, some u.name, some u.passwd, u.deviceId]

namespace Database

def names (db : Database) : List Bytes := db.userInfo.map UserInfo.name

/-- The effect of a statement that succeeds, and its result. -/
def exec (d : Defaults) (db : Database) : Statement → Database × Outcome
  | .insertDevice name deviceId p2pId ip =>
    ({ db with deviceInfo := db.deviceInfo ++ [⟨name, deviceId, p2pId, ip⟩] }, .noResult)
  | .lookupUser name | .selectUser name =>
    (db, .rows ((db.userInfo.filter (·.name = name)).map UserInfo.row))
  | .insertUser name passwd =>
    ({ db with userInfo := db.userInfo ++ [⟨d.id, name, passwd, d.deviceId⟩] }, .noResult)
  | .updateUser passwd name =>
    ({ db with userInfo := db.userInfo.map fun u =>
        if u.name = name then { u with passwd } else u }, .noResult)
  | .deleteUser id =>
    ({ db with userInfo := db.userInfo.filter (·.deviceId ≠ some id) }, .noResult)

end Database

/-! ## Texts -/

/-- The values of the literals among some tokens. -/
def literals (ts : List (Literal.Tok UInt8)) : List Bytes :=
  ts.filterMap fun
    | .lit v => some v
    | .chr _ => none

/-- The templates with that many placeholders, filled with the values. -/
def candidates : List Bytes → List Statement
  | [a] => [.lookupUser a, .selectUser a, .deleteUser a]
  | [a, b] => [.insertUser a b, .updateUser a b]
  | [a, b, c, d] => [.insertDevice a b c d]
  | _ => []

/-- The statement that a text stands for. -/
def parseSql (text : Bytes) : Option Statement :=
  (mysqlLex text).bind fun ts => (candidates (literals ts)).find? fun s => s.meant = ts

/-- How a call ends. -/
inductive Answer
  /-- `mysql_query` fails. -/
  | failed
  /-- `mysql_store_result` returns NULL. -/
  | noResult
  | runs (d : Defaults)
  /-- Anything, for a text that is no template. -/
  | other (db : Database) (o : Outcome)
deriving DecidableEq, Repr

/-- One call: the database after it and the outcome. A failing call changes nothing. -/
def Database.query (db : Database) (c : Call) (text : Bytes) : Answer → Option (Database × Outcome)
  | .failed => some (db, .failed)
  | .noResult => if c = .selectData then some (db, .noResult) else none
  | .runs d => (parseSql text).map (db.exec d)
  | .other db' o => if parseSql text = none then some (db', o) else none

/-! ## 1. Texts made from safe values -/

namespace DatabaseLemmas

theorem literals_tokens (q : Bytes) (l : List (Bytes × Bytes)) :
    literals (Literal.tokens q l) = l.map Prod.fst := by
  have hchr : ∀ q : Bytes, literals (q.map .chr) = [] := by
    intro q
    simp [literals]
  induction l generalizing q with
  | nil => exact hchr q
  | cons p l ih =>
    obtain ⟨v, q'⟩ := p
    have happ : ∀ ts us, literals (ts ++ us) = literals ts ++ literals us := by
      intro ts us
      simp [literals]
    have hlit : ∀ ts, literals (.lit v :: ts) = v :: literals ts := fun ts => rfl
    rw [Literal.tokens, happ, hchr, hlit, ih, List.nil_append, List.map_cons]

theorem literals_meant (s : Statement) : literals s.meant = s.args := by
  rw [Statement.meant, literals_tokens, s.slots_args]

theorem lead_length (s : Statement) : s.lead.length =
    match s with
    | .insertDevice .. => 73
    | .lookupUser _ => 37
    | .insertUser .. => 50
    | .selectUser _ => 35
    | .updateUser .. => 28
    | .deleteUser _ => 40 := by
  cases s <;> simp only [Statement.lead] <;> decide +kernel

/-- The number of tokens tells the templates with as many placeholders apart. -/
theorem meant_length (s : Statement) : s.meant.length =
    match s with
    | .insertDevice .. => 81
    | .lookupUser _ => 38
    | .insertUser .. => 54
    | .selectUser _ => 36
    | .updateUser .. => 44
    | .deleteUser _ => 41 := by
  cases s <;>
    simp only [Statement.meant, Statement.slots, Literal.tokens, List.length_append,
      List.length_map, List.length_cons, List.length_nil, lead_length] <;>
    decide +kernel

end DatabaseLemmas

open DatabaseLemmas

theorem parseSql_text {s : Statement} (h : ∀ a ∈ s.args, LiteralSafe a) :
    parseSql s.text = some s := by
  unfold parseSql
  rw [s.lex_text_iff.mpr h, Option.bind_some, literals_meant]
  have hne : ∀ {t u : Statement}, t.meant.length ≠ u.meant.length → ¬ t.meant = u.meant :=
    fun hlen heq => hlen (congrArg List.length heq)
  cases s with
  | insertDevice name deviceId p2pId ip => simp [Statement.args, candidates]
  | lookupUser name => simp [Statement.args, candidates]
  | insertUser name passwd => simp [Statement.args, candidates]
  | selectUser name =>
    have h₁ := @hne (.lookupUser name) (.selectUser name) (by simp [meant_length])
    simp [Statement.args, candidates, h₁]
  | updateUser passwd name =>
    have h₁ := @hne (.insertUser passwd name) (.updateUser passwd name) (by simp [meant_length])
    simp [Statement.args, candidates, h₁]
  | deleteUser id =>
    have h₁ := @hne (.lookupUser id) (.deleteUser id) (by simp [meant_length])
    have h₂ := @hne (.selectUser id) (.deleteUser id) (by simp [meant_length])
    simp [Statement.args, candidates, h₁, h₂]

/-! ## 2. Texts of any values -/

/-- The same template, with other values. -/
inductive Statement.SameTemplate : Statement → Statement → Prop
  | insertDevice {name name' deviceId deviceId' p2pId p2pId' ip ip' : Bytes} :
    SameTemplate (.insertDevice name deviceId p2pId ip) (.insertDevice name' deviceId' p2pId' ip')
  | lookupUser {name name' : Bytes} : SameTemplate (.lookupUser name) (.lookupUser name')
  | insertUser {name name' passwd passwd' : Bytes} :
    SameTemplate (.insertUser name passwd) (.insertUser name' passwd')
  | selectUser {name name' : Bytes} : SameTemplate (.selectUser name) (.selectUser name')
  | updateUser {passwd passwd' name name' : Bytes} :
    SameTemplate (.updateUser passwd name) (.updateUser passwd' name')
  | deleteUser {id id' : Bytes} : SameTemplate (.deleteUser id) (.deleteUser id')

namespace DatabaseLemmas

theorem lex_of_parseSql {text : Bytes} {t : Statement} (h : parseSql text = some t) :
    mysqlLex text = some t.meant := by
  obtain ⟨ts, hlex, hfind⟩ := Option.bind_eq_some_iff.mp h
  have hmeant : t.meant = ts := by simpa using List.find?_some hfind
  rw [hlex, hmeant]

/-- The tokens of a text from its first value on. -/
theorem lex_first {s : Statement} {a q : Bytes} {l : List (Bytes × Bytes)}
    (hs : s.slots = (a, q) :: l) :
    mysqlLex s.text = (Literal.lex mysqlRules (some []) (cstr a ++ mysqlRules.quote ::
      Literal.render mysqlRules q (l.map (Prod.map cstr id)))).map (s.lead.map .chr ++ ·) := by
  rw [mysqlLex, s.text_eq_render, hs, List.map_cons, Prod.map_apply, id_eq, Literal.render,
    Literal.lex_text mysqlRules fun hq => (s.lead_free _ hq).2 rfl, Literal.lex, if_pos rfl]

/-- The tokens of a text that stands for a statement, up to its first value. -/
theorem lex_first_of_parseSql {s t : Statement} {a q b q' : Bytes} {l l' : List (Bytes × Bytes)}
    (hs : s.slots = (a, q) :: l) (ht : t.slots = (b, q') :: l') (h : parseSql s.text = some t) :
    s.lead = t.lead ∧
      Literal.lex mysqlRules (some []) (cstr a ++ mysqlRules.quote ::
        Literal.render mysqlRules q (l.map (Prod.map cstr id))) =
          some (.lit b :: Literal.tokens q' l') := by
  have hlex := lex_of_parseSql h
  rw [lex_first hs, Statement.meant, ht, Literal.tokens] at hlex
  obtain ⟨us, hus, htokens⟩ := Option.map_eq_some_iff.mp hlex
  obtain ⟨w, us', rfl⟩ := Literal.lex_some_cases mysqlRules hus (Option.some_ne_none _)
  obtain ⟨hlead, rfl, rfl⟩ := Literal.chr_append_lit_inj htokens
  exact ⟨hlead, hus⟩

end DatabaseLemmas

/-- The text in front of the first quote tells the templates apart, whatever the
values are. -/
theorem sameTemplate_of_parseSql {s t : Statement} (h : parseSql s.text = some t) :
    s.SameTemplate t := by
  obtain ⟨a, q, l, hs⟩ : ∃ a q l, s.slots = (a, q) :: l := by cases s <;> exact ⟨_, _, _, rfl⟩
  obtain ⟨b, q', l', ht⟩ : ∃ b q l, t.slots = (b, q) :: l := by cases t <;> exact ⟨_, _, _, rfl⟩
  have hlead := (lex_first_of_parseSql hs ht h).1
  have hlen : s.lead.length = t.lead.length := congrArg List.length hlead
  cases s <;> cases t <;> first
    | constructor
    | simp [lead_length] at hlen

/-- The INSERT of a user has the name that the lookup looked for. -/
theorem insertUser_name {a p name name' passwd : Bytes}
    (hlookup : parseSql (Statement.lookupUser a).text = some (.lookupUser name))
    (hinsert : parseSql (Statement.insertUser a p).text = some (.insertUser name' passwd)) :
    name' = name := by
  have hvalue := (lex_first_of_parseSql rfl rfl hlookup).2
  have hfirst := (lex_first_of_parseSql rfl rfl hinsert).2
  have hcomma : ascii "," = [0x2c] := by decide
  rw [Literal.lex_value mysqlRules hvalue (by simp [Literal.render, hcomma, mysqlRules])] at hfirst
  obtain ⟨us, -, htokens⟩ := Option.map_eq_some_iff.mp hfirst
  exact (Literal.Tok.lit.inj (List.cons.inj htokens).1).symm

/-! ## 3. One call -/

/-- On a text made from safe values a call leaves the tables alone, or runs the
statement. -/
theorem query_safe {s : Statement} (h : ∀ a ∈ s.args, LiteralSafe a) {db db' : Database} {c : Call}
    {ans : Answer} {o : Outcome} (hq : db.query c s.text ans = some (db', o)) :
    (ans = .failed ∧ db' = db ∧ o = .failed) ∨ (ans = .noResult ∧ db' = db ∧ o = .noResult) ∨
    ∃ d, ans = .runs d ∧ db.exec d s = (db', o) := by
  unfold Database.query at hq
  split at hq
  · cases hq
    exact .inl ⟨rfl, rfl, rfl⟩
  · split at hq
    · cases hq
      exact .inr (.inl ⟨rfl, rfl, rfl⟩)
    · cases hq
  · next d =>
    rw [parseSql_text h] at hq
    exact .inr (.inr ⟨d, rfl, by simpa using hq⟩)
  · rw [parseSql_text h] at hq
    cases hq

end SundayServer
