import SundayServer.Lib.Machine
import SundayServer.StartRoutine

/-!
# The thread-per-connection server

`start_routine` of `server.cpp`: a thread reads the requests of its connection
and answers them one after the other. Its character loop fills `name` and
`passwd`, counts spaces to tell them apart, and none of these variables is reset
between two requests. Neither is `strval`, which an unknown command leaves alone
and sends.

* `Session`: the variables of the thread. `scan`: the character loop.
* `respond`: one turn of the request loop; `none` is undefined behaviour.
* `ClientRequest`: a request as the client writes it.
* `expected`: the statement and the reply that belong to a request.
* `Room`: the counter and the arrays have room for the request.
* `Separate`: the requests that what is left of earlier ones does not reach.

Results:
1. `scanRequest_request`: the character loop on a request.
2. `independent_iff`: all requests of a connection.
-/

namespace SundayServer

namespace ThreadServer

/-! ## The server -/

/-- The statements, with the values of their placeholders. -/
inductive Query
  | insert (name passwd : Bytes)
  | select (name : Bytes)
  | update (name passwd : Bytes) (id : Int)
  | delete (id : Int)
deriving DecidableEq, Repr

/-- The text handed to `PrinterToMySQL`. `%d` is `%s` of the decimal text. -/
def Query.text : Query → Bytes
  | insert name passwd =>
    sprintf (ascii "insert into 3d_user(name,passwd) values('%s','%s')") [name, passwd]
  | select name => sprintf (ascii "SELECT * FROM 3d_user where name = '%s'") [name]
  | update name passwd id =>
    sprintf (ascii "update 3d_user set name = '%s',passwd='%s' where id = '%s'")
      [name, passwd, ascii (toString id)]
  | delete id => sprintf (ascii "delete from 3d_user where id = '%s'") [ascii (toString id)]

/-- The variables of the thread, without `id`, which stays 0. -/
structure Session where
  reqBuf : Bytes
  name : Bytes
  passwd : Bytes
  strval : Bytes
  count : Int
  command : Int
deriving DecidableEq, Repr

/-- A new connection. -/
def Session.start (reqBuf : Bytes) : Session := ⟨reqBuf, [], [], [], 0, 0⟩

/-- The body of the character loop after the first byte. -/
def scanChar (s : Session) (c : UInt8) : Option Session :=
  if c = 0x20 then
    -- the count of an `int` cannot go on from its largest value
    if s.count + 1 < 2 ^ 31 then some { s with count := s.count + 1 } else none
  else if s.count < 4 ∧ 0 < s.count then some { s with name := s.name ++ [c] }
  else some { s with passwd := s.passwd ++ [c] }

/-- The character loop; `none` when it runs past the array. -/
def scan : Bytes → Session → Option Session
  | [], _ => none
  | c :: rest, s => if c = 0 then some s else (scanChar s c).bind (scan rest)

/-- The loop from the start of the buffer. -/
def scanRequest (s : Session) : Option Session :=
  match s.reqBuf with
  | [] => none
  | c :: rest => if c = 0 then some s else scan rest { s with command := atoi s.reqBuf }

/-- What a request makes the thread do: the call, if there is one, and the bytes
it writes to the socket. -/
structure Output where
  executed : Option (Call × Query)
  reply : Bytes
deriving DecidableEq, Repr

/-- `sprintf` into `sql`; `none` when the text and its NUL do not fit. -/
def Query.print (q : Query) : Option Bytes :=
  if q.text.length < BUFSIZE then some q.text else none

/-- `switch(command)`, when the database answers a text as `answer` says. -/
def switchCommand (answer : Bytes → Outcome) (s : Session) :
    Option (Session × Option (Call × Query)) :=
  if s.command = INSERT then
    (Query.insert s.name s.passwd).print.map fun _ =>
      -- what InsertData returns is only logged
      ({ s with strval := ascii "ok" }, some (.insertData, .insert s.name s.passwd))
  else if s.command = SELECT then
    (Query.select s.name).print.bind fun sql => (selectData 3 (answer sql)).map fun strval =>
      ({ s with strval }, some (.selectData, .select s.name))
  else if s.command = UPDATE then
    (Query.update s.name s.passwd 0).print.map fun _ =>
      ({ s with strval := ascii "ok" }, some (.updateData, .update s.name s.passwd 0))
  else if s.command = DELETE then
    (Query.delete 0).print.map fun _ =>
      ({ s with strval := ascii "ok" }, some (.deleteData, .delete 0))
  else some (s, none)

/-- One turn of the request loop, when `read` delivers these bytes. -/
def respond (answer : Bytes → Outcome) (s : Session) (data : Bytes) :
    Option (Session × Output) :=
  (scanRequest { s with reqBuf := data ++ s.reqBuf.drop data.length }).bind fun s =>
    (switchCommand answer s).bind fun p =>
      -- `reqBuf[bytes] = 0` is written past an array that `read` has filled
      if data.length < BUFSIZE then
        some ({ p.1 with reqBuf := p.1.reqBuf.set data.length 0 }, ⟨p.2, p.1.strval⟩)
      else none

/-! ## Requests -/

/-- One command digit, three spaces, a name, three spaces and a password. -/
structure ClientRequest where
  command : UInt8
  name : Bytes
  passwd : Bytes
  digit : isDigit command
  name_free : ∀ b ∈ name, b ≠ 0 ∧ b ≠ 0x20
  passwd_free : ∀ b ∈ passwd, b ≠ 0 ∧ b ≠ 0x20

namespace ClientRequest

def text (q : ClientRequest) : Bytes :=
  q.command :: (SPACE3 ++ (q.name ++ (SPACE3 ++ q.passwd)))

/-- The value of the command digit. -/
def value (q : ClientRequest) : Int := q.command.toNat - 0x30

end ClientRequest

/-- The statement of a command, if it has one. -/
def statement (command : Int) (name passwd : Bytes) : Option (Call × Query) :=
  if command = INSERT then some (.insertData, .insert name passwd)
  else if command = SELECT then some (.selectData, .select name)
  else if command = UPDATE then some (.updateData, .update name passwd 0)
  else if command = DELETE then some (.deleteData, .delete 0)
  else none

/-- The reply to a statement: the rows of SELECT, `ok` otherwise. -/
def replyTo (answer : Bytes → Outcome) (p : Call × Query) : Option Bytes :=
  if p.1 = .selectData then selectData 3 (answer p.2.text) else some (ascii "ok")

/-- A statement is answered with its reply, a command without one with what
`strval` holds. -/
def answered (answer : Bytes → Outcome) (strval : Bytes) : Option (Call × Query) → Option Output
  | none => some ⟨none, strval⟩
  | some p => (replyTo answer p).map fun reply => ⟨some p, reply⟩

namespace ClientRequest

/-- The statement with the fields of the request. -/
def statement (q : ClientRequest) : Option (Call × Query) :=
  ThreadServer.statement q.value q.name q.passwd

end ClientRequest

/-- The statement with the fields of the request, and the reply that a new
connection sends for it. -/
def expected (answer : Bytes → Outcome) (q : ClientRequest) : Option Output :=
  answered answer [] q.statement

/-- A request, the bytes of the same `read` after its NUL, and what the database
answers. -/
structure Exchange where
  request : ClientRequest
  rest : Bytes
  answer : Bytes → Outcome
  fits : (request.text ++ 0 :: rest).length ≤ BUFSIZE

/-- What `read` delivers. -/
def Exchange.data (e : Exchange) : Bytes := e.request.text ++ 0 :: e.rest

/-- One request of a connection. -/
def step (s : Session) (e : Exchange) : Option Session :=
  (respond e.answer s e.data).map Prod.fst

/-- Whatever the database answers, the request is handled as its own. -/
def Independent (s : Session) (e : Exchange) : Prop :=
  ∀ answer, (respond answer s e.data).map Prod.snd = expected answer e.request

/-- The counter, `reqBuf` with its terminator and `sql` have room for the request. -/
def Room (s : Session) (e : Exchange) : Prop :=
  s.count + 6 < 2 ^ 31 ∧ e.data.length < BUFSIZE ∧
    ∀ p ∈ e.request.statement, p.2.text.length < BUFSIZE

instance (s : Session) (e : Exchange) : Decidable (Room s e) := by
  unfold Room
  infer_instance

/-- What is left of earlier requests does not reach this one: there are none, or
the command uses no field, or its fields are what the variables hold already. -/
def Separate (s : Session) (e : Exchange) : Prop :=
  s.count = 0 ∨
    if e.request.value = INSERT ∨ e.request.value = UPDATE then
      s.name = [] ∧ s.passwd = [] ∧ e.request.name = []
    else if e.request.value = SELECT then s.name = e.request.name
    else if e.request.value = DELETE then True
    else s.strval = []

instance (s : Session) (e : Exchange) : Decidable (Separate s e) := by
  unfold Separate
  infer_instance

/-! ## 1. The character loop -/

namespace Session

/-- Where the loop puts the bytes of a word. -/
def putWord (s : Session) (t : Bytes) : Session :=
  if s.count < 4 ∧ 0 < s.count then { s with name := s.name ++ t }
  else { s with passwd := s.passwd ++ t }

/-- The variables after the loop has read a request. -/
def scanned (s : Session) (q : ClientRequest) : Session :=
  if s.count = 0 then
    { s with name := s.name ++ q.name, passwd := s.passwd ++ q.passwd, count := s.count + 6 }
  else { s with passwd := s.passwd ++ q.name ++ q.passwd, count := s.count + 6 }

end Session

open Session

theorem scan_word {t : Bytes} (h : ∀ b ∈ t, b ≠ 0 ∧ b ≠ 0x20) (rest : Bytes) (s : Session) :
    scan (t ++ rest) s = scan rest (s.putWord t) := by
  induction t generalizing s with
  | nil => simp [putWord]
  | cons b t ih =>
    obtain ⟨⟨h0, hspace⟩, ht⟩ := List.forall_mem_cons.mp h
    rw [List.cons_append, scan, if_neg h0, scanChar, if_neg hspace]
    by_cases hname : s.count < 4 ∧ 0 < s.count
    · simp [hname, ih ht, putWord]
    · simp [hname, ih ht, putWord]

theorem scan_space (rest : Bytes) (s : Session) :
    scan (0x20 :: rest) s =
      if s.count + 1 < 2 ^ 31 then scan rest { s with count := s.count + 1 } else none := by
  have h0 : (0x20 : UInt8) ≠ 0 := by decide
  rw [scan, if_neg h0, scanChar, if_pos rfl]
  split <;> rfl

/-- Three spaces, counted as far as an `int` goes. -/
theorem scan_space3 (rest : Bytes) (s : Session) :
    scan (SPACE3 ++ rest) s =
      if s.count + 3 < 2 ^ 31 then scan rest { s with count := s.count + 3 } else none := by
  show scan (0x20 :: 0x20 :: 0x20 :: rest) s = _
  simp only [scan_space]
  by_cases h : s.count + 3 < 2 ^ 31
  · rw [if_pos (by omega), if_pos (by omega), if_pos (by omega), if_pos h]
    simp only [Int.add_assoc, Int.reduceAdd]
  · rw [if_neg h]
    split
    · split
      · rw [if_neg (by omega)]
      · rfl
    · rfl

/-- The loop on a request: it reads to the NUL unless the count overflows. -/
theorem scan_request {s : Session} (hc : s.count = 0 ∨ 6 ≤ s.count) (q : ClientRequest)
    (rest : Bytes) :
    scan (SPACE3 ++ (q.name ++ (SPACE3 ++ (q.passwd ++ 0 :: rest)))) s =
      if s.count + 6 < 2 ^ 31 then some (s.scanned q) else none := by
  have hnul : ∀ t : Session, scan (0 :: rest) t = some t := fun t => rfl
  rw [scan_space3]
  by_cases h3 : s.count + 3 < 2 ^ 31
  · rw [if_pos h3, scan_word q.name_free, scan_space3]
    have hcount : (putWord { s with count := s.count + 3 } q.name).count = s.count + 3 := by
      unfold putWord
      split <;> rfl
    rw [hcount]
    simp only [Int.add_assoc, Int.reduceAdd]
    by_cases hall : s.count + 6 < 2 ^ 31
    · rw [if_pos hall, if_pos hall, scan_word q.passwd_free, hnul]
      congr 1
      rcases hc with h0 | h6
      · simp [putWord, scanned, h0]
      · have hname : ¬ (s.count + 3 < 4 ∧ 0 < s.count + 3) := by omega
        have hpasswd : ¬ (s.count + 6 < 4 ∧ 0 < s.count + 6) := by omega
        have hne : s.count ≠ 0 := by omega
        simp [putWord, scanned, hname, hpasswd, hne]
    · rw [if_neg hall, if_neg hall]
  · rw [if_neg h3, if_neg (by omega)]

theorem atoi_digit {c : UInt8} (h : isDigit c) (rest : Bytes) :
    atoi (c :: 0x20 :: rest) = c.toNat - 0x30 := by
  obtain ⟨hlo, hhi⟩ : 0x30 ≤ c ∧ c ≤ 0x39 := by simpa [isDigit] using h
  have hlo' : 0x30 ≤ c.toNat := UInt8.le_iff_toNat_le.mp hlo
  have hhi' : c.toNat ≤ 0x39 := UInt8.le_iff_toNat_le.mp hhi
  have hne : ∀ b : UInt8, b < 0x30 → c ≠ b := by
    rintro b hb rfl
    exact absurd (UInt8.lt_iff_toNat_lt.mp hb) (Nat.not_lt_of_le hlo')
  have hcstr : cstr (c :: 0x20 :: rest) = c :: 0x20 :: cstr rest := by
    simp [cstr, hne 0 (by decide)]
  have hspace : isSpace c = false := by
    have h13 : ¬ c ≤ 13 := fun hle => absurd (UInt8.le_iff_toNat_le.mp (UInt8.le_trans hlo hle))
      (by decide)
    simp [isSpace, hne 0x20 (by decide), h13]
  have hleading : leadingInt (c :: 0x20 :: cstr rest) = some ((c.toNat - 0x30 : Nat) : Int) := by
    have hstop : isDigit 0x20 = false := by decide
    simp [leadingInt, hne 0x2d (by decide), hne 0x2b (by decide), h, hstop, digitsValue]
  rw [atoi, hcstr, List.dropWhile_cons_of_neg (by simp [hspace]), hleading, Option.getD_some, clamp,
    Int.min_eq_right (by omega), Int.max_eq_right (by omega), toInt_of_range (by omega) (by omega)]
  omega

/-- The whole loop on what `read` delivers. -/
theorem scanRequest_request {s : Session} (hc : s.count = 0 ∨ 6 ≤ s.count) (e : Exchange)
    (old : Bytes) :
    scanRequest { s with reqBuf := e.data ++ old } =
      if s.count + 6 < 2 ^ 31 then
        some (({ s with reqBuf := e.data ++ old, command := e.request.value } : Session).scanned
          e.request)
      else none := by
  have h0 : e.request.command ≠ 0 := by
    intro h
    have hd := e.request.digit
    rw [h] at hd
    cases hd
  have hdata : e.data ++ old = e.request.command :: (SPACE3 ++ (e.request.name ++ (SPACE3 ++
      (e.request.passwd ++ 0 :: (e.rest ++ old))))) := by
    simp [Exchange.data, ClientRequest.text]
  have hatoi : atoi (e.data ++ old) = e.request.value := by
    rw [hdata]
    exact atoi_digit e.request.digit _
  unfold scanRequest
  simp only [hdata, if_neg h0] at hatoi ⊢
  rw [hatoi]
  exact @scan_request ⟨_, s.name, s.passwd, s.strval, s.count, e.request.value⟩ hc e.request _

/-! ## 2. The requests of a connection -/

/-- Before the first request the variables are empty; after one the count has
left the values at which `name` is filled. -/
def Session.Between (s : Session) : Prop :=
  (s.count = 0 ∧ s.name = [] ∧ s.passwd = [] ∧ s.strval = []) ∨ 6 ≤ s.count

theorem Session.Between.count {s : Session} (h : s.Between) : s.count = 0 ∨ 6 ≤ s.count :=
  h.imp And.left id

theorem between_start (reqBuf : Bytes) : (start reqBuf).Between := .inl ⟨rfl, rfl, rfl, rfl⟩

theorem scanned_with (s : Session) (q : ClientRequest) (reqBuf : Bytes) (command : Int) :
    ({ s with reqBuf, command } : Session).scanned q = { s.scanned q with reqBuf, command } := by
  unfold Session.scanned
  simp only
  split <;> rfl

theorem scanned_rest (s : Session) (q : ClientRequest) :
    (s.scanned q).strval = s.strval ∧ (s.scanned q).count = s.count + 6 := by
  unfold Session.scanned
  split <;> exact ⟨rfl, rfl⟩

theorem print_map {α : Type} (q : Query) (f : Bytes → α) :
    q.print.map f = if q.text.length < BUFSIZE then some (f q.text) else none := by
  unfold Query.print
  split <;> rfl

theorem print_bind {α : Type} (q : Query) (f : Bytes → Option α) :
    q.print.bind f = if q.text.length < BUFSIZE then f q.text else none := by
  unfold Query.print
  split <;> rfl

/-- `switch(command)` by the statement of the command. -/
theorem switchCommand_eq (answer : Bytes → Outcome) (s : Session) :
    switchCommand answer s =
      match statement s.command s.name s.passwd with
      | none => some (s, none)
      | some p =>
        if p.2.text.length < BUFSIZE then
          (replyTo answer p).map fun strval => ({ s with strval }, some p)
        else none := by
  unfold switchCommand statement
  simp only [print_map, print_bind]
  split
  · rfl
  · split
    · rfl
    · split
      · rfl
      · split
        · rfl
        · rfl

/-- A turn of the request loop, after the character loop. -/
theorem respond_request {s : Session} (h : s.Between) (answer : Bytes → Outcome) (e : Exchange) :
    respond answer s e.data =
      if s.count + 6 < 2 ^ 31 then
        (switchCommand answer { s.scanned e.request with
            reqBuf := e.data ++ s.reqBuf.drop e.data.length, command := e.request.value }).bind
          fun p =>
            if e.data.length < BUFSIZE then
              some ({ p.1 with reqBuf := p.1.reqBuf.set e.data.length 0 }, ⟨p.2, p.1.strval⟩)
            else none
      else none := by
  rw [respond, scanRequest_request h.count, scanned_with]
  split <;> rfl

/-- What `switch(command)` executes, and what `strval` holds after it. -/
theorem switchCommand_output (answer : Bytes → Outcome) (s : Session) :
    (switchCommand answer s).map (fun p => (⟨p.2, p.1.strval⟩ : Output)) =
      if ∀ p ∈ statement s.command s.name s.passwd, p.2.text.length < BUFSIZE then
        answered answer s.strval (statement s.command s.name s.passwd)
      else none := by
  rw [switchCommand_eq]
  cases statement s.command s.name s.passwd with
  | none => simp [answered]
  | some p =>
    by_cases htext : p.2.text.length < BUFSIZE
    · simp only [htext, if_true, answered, Option.mem_def, Option.some.injEq, forall_eq',
        Option.map_map]
      rfl
    · simp [htext]

/-- What a request is answered, by the variables after the character loop. -/
theorem respond_output {s : Session} (h : s.Between) (answer : Bytes → Outcome) (e : Exchange) :
    (respond answer s e.data).map Prod.snd =
      let executed := statement e.request.value (s.scanned e.request).name
        (s.scanned e.request).passwd
      if s.count + 6 < 2 ^ 31 ∧ e.data.length < BUFSIZE ∧
          ∀ p ∈ executed, p.2.text.length < BUFSIZE then
        answered answer s.strval executed
      else none := by
  rw [respond_request h]
  by_cases hcount : s.count + 6 < 2 ^ 31
  · rw [if_pos hcount]
    by_cases hdata : e.data.length < BUFSIZE
    · have hout := switchCommand_output answer { s.scanned e.request with
          reqBuf := e.data ++ s.reqBuf.drop e.data.length, command := e.request.value }
      simp only [hdata, if_true, Option.map_bind, Function.comp_def, Option.map_some]
      simp only [hcount, true_and, ← (scanned_rest s e.request).1]
      rw [← hout]
      exact Option.map_eq_bind.symm
    · simp [hdata]
  · rw [if_neg hcount]
    exact (if_neg fun hroom => hcount hroom.1).symm

theorem step_count {s s' : Session} {e : Exchange} (h : s.Between) (hs : step s e = some s') :
    s'.count = s.count + 6 := by
  obtain ⟨p, hp, rfl⟩ := Option.map_eq_some_iff.mp hs
  rw [respond_request h, switchCommand_eq] at hp
  split at hp
  · obtain ⟨t, ht, hp⟩ := Option.bind_eq_some_iff.mp hp
    split at hp
    · cases hp
      split at ht
      · cases ht
        exact (scanned_rest s e.request).2
      · split at ht
        · obtain ⟨strval, -, rfl⟩ := Option.map_eq_some_iff.mp ht
          exact (scanned_rest s e.request).2
        · cases ht
    · cases hp
  · cases hp

theorem step_between {s s' : Session} {e : Exchange} (h : s.Between) (hs : step s e = some s') :
    s'.Between := by
  have hnext := step_count h hs
  rcases h.count with h0 | h6
  · exact .inr (by omega)
  · exact .inr (by omega)

/-- After the character loop `name` holds the request's name when it is the first,
or held it before. -/
theorem scanned_name_iff {s : Session} (h : s.Between) (q : ClientRequest) :
    (s.scanned q).name = q.name ↔ s.count = 0 ∨ s.name = q.name := by
  rcases h with ⟨h0, hn, -, -⟩ | h6
  · simp [Session.scanned, h0, hn]
  · have hne : s.count ≠ 0 := by omega
    simp [Session.scanned, hne]

/-- A later request leaves its name in `passwd`. -/
theorem scanned_fields_iff {s : Session} (h : s.Between) (q : ClientRequest) :
    (s.scanned q).name = q.name ∧ (s.scanned q).passwd = q.passwd ↔
      s.count = 0 ∨ s.name = [] ∧ s.passwd = [] ∧ q.name = [] := by
  rw [scanned_name_iff h]
  rcases h with ⟨h0, hn, hp, -⟩ | h6
  · simp [Session.scanned, h0, hp]
  · have hne : s.count ≠ 0 := by omega
    simp only [Session.scanned, hne, if_false, false_or, List.append_left_eq_self,
      List.append_eq_nil_iff]
    constructor
    · rintro ⟨hn, hp, hq⟩
      exact ⟨hn.trans hq, hp, hq⟩
    · rintro ⟨hn, hp, hq⟩
      exact ⟨hn.trans hq.symm, hp, hq⟩

theorem Session.Between.strval_iff {s : Session} (h : s.Between) :
    s.strval = [] ↔ s.count = 0 ∨ s.strval = [] := by
  rcases h with ⟨h0, -, -, hs⟩ | h6
  · simp [h0, hs]
  · have hne : s.count ≠ 0 := by omega
    simp [hne]

/-- The statement of a request is its own when the variables held nothing that
the command uses. -/
theorem separate_iff {s : Session} (h : s.Between) (e : Exchange) :
    Separate s e ↔
      statement e.request.value (s.scanned e.request).name (s.scanned e.request).passwd =
          e.request.statement ∧
        (e.request.statement = none → s.strval = []) := by
  have hname := scanned_name_iff h e.request
  have hfields := scanned_fields_iff h e.request
  unfold Separate ClientRequest.statement statement
  by_cases hinsert : e.request.value = INSERT
  · simp [hinsert, hfields]
  by_cases hselect : e.request.value = SELECT
  · have hother : ¬ (e.request.value = INSERT ∨ e.request.value = UPDATE) := by
      rw [hselect]
      decide
    simp only [if_neg hinsert, if_pos hselect, if_neg hother]
    simp [hname]
  by_cases hupdate : e.request.value = UPDATE
  · have hother : e.request.value = INSERT ∨ e.request.value = UPDATE := .inr hupdate
    simp only [if_neg hinsert, if_neg hselect, if_pos hupdate, if_pos hother]
    simp [hfields]
  have hother : ¬ (e.request.value = INSERT ∨ e.request.value = UPDATE) :=
    not_or.mpr ⟨hinsert, hupdate⟩
  -- DELETE takes no field, and only an unknown command answers with `strval`
  by_cases hdelete : e.request.value = DELETE
  · simp [if_neg hinsert, if_neg hselect, if_neg hupdate, if_neg hother, if_pos hdelete]
  · simp only [if_neg hinsert, if_neg hselect, if_neg hupdate, if_neg hother, if_neg hdelete]
    simp [← h.strval_iff]

/-- Against a database without results every request is answered. -/
theorem answered_ne_none (strval : Bytes) (st : Option (Call × Query)) :
    answered (fun _ => .noResult) strval st ≠ none := by
  cases st with
  | none => simp [answered]
  | some p =>
    by_cases hsel : p.1 = .selectData
    · simp [answered, replyTo, hsel, selectData]
    · simp [answered, replyTo, hsel]

/-- What is answered shows the statement, and `strval` where there is none. -/
theorem answered_inj {strval : Bytes} {st st' : Option (Call × Query)}
    (h : answered (fun _ => .noResult) strval st = answered (fun _ => .noResult) [] st') :
    st = st' ∧ (st' = none → strval = []) := by
  have hexec : ∀ (t : Bytes) (o : Option (Call × Query)) (out : Output),
      answered (fun _ => .noResult) t o = some out → out.executed = o := by
    intro t o out ho
    cases o with
    | none =>
      cases ho
      rfl
    | some p =>
      obtain ⟨reply, -, rfl⟩ := Option.map_eq_some_iff.mp ho
      rfl
  obtain ⟨out, hout⟩ := Option.ne_none_iff_exists'.mp (answered_ne_none [] st')
  have heq : st = st' := (hexec _ _ _ (h.trans hout)).symm.trans (hexec _ _ _ hout)
  refine ⟨heq, fun hnone => ?_⟩
  subst heq hnone
  simpa [answered] using h

/-- One request. A database without results tells apart what the executed
statement and the reply do not. -/
theorem independent_iff_separate {s : Session} (h : s.Between) (e : Exchange) :
    Independent s e ↔ Room s e ∧ Separate s e := by
  rw [separate_iff h]
  unfold Independent Room expected
  simp only [respond_output h]
  constructor
  · intro hall
    have hnone := hall fun _ => .noResult
    split at hnone
    · next hroom =>
      have hst : statement e.request.value (s.scanned e.request).name
            (s.scanned e.request).passwd = e.request.statement ∧
          (e.request.statement = none → s.strval = []) := answered_inj hnone
      exact ⟨hst.1 ▸ hroom, hst⟩
    · exact absurd hnone.symm (answered_ne_none _ _)
  · rintro ⟨hroom, hst, hstrval⟩ answer
    rw [hst, if_pos hroom]
    cases hq : e.request.statement with
    | none => rw [hstrval hq]
    | some p => rfl

/-- For every sequence of requests on one connection and every behaviour of the
database, all requests are handled as their own exactly when there is room for
each and none is reached by what the earlier ones leave. -/
theorem independent_iff (reqBuf : Bytes) (es : List Exchange) :
    Machine.Along step Independent (start reqBuf) es ↔
      Machine.Along step (fun s e => Room s e ∧ Separate s e) (start reqBuf) es :=
  Machine.along_congr (fun _ _ _ => step_between) (fun _ e h => independent_iff_separate h e)
    (between_start reqBuf)

/-- Requests `1   bob   pw`, `9   a   b` and `2   amy   pw`, against empty tables. -/
def insertBob : Exchange :=
  ⟨⟨0x31, ascii "bob", ascii "pw", by decide +kernel, by decide +kernel, by decide +kernel⟩, [],
    fun _ => .rows [], by decide +kernel⟩

def unknown : Exchange :=
  ⟨⟨0x39, ascii "a", ascii "b", by decide +kernel, by decide +kernel, by decide +kernel⟩, [],
    fun _ => .rows [], by decide +kernel⟩

def selectAmy : Exchange :=
  ⟨⟨0x32, ascii "amy", ascii "pw", by decide +kernel, by decide +kernel, by decide +kernel⟩, [],
    fun _ => .rows [], by decide +kernel⟩

/-- What the thread does for the last of these requests. -/
def lastOutput (front : List Exchange) (e : Exchange) : Option Output :=
  (Machine.run step (start []) front).bind fun s => (respond e.answer s e.data).map Prod.snd

/-- An unknown command gets the reply of the request before it, and a SELECT asks
for the name of the first request. -/
theorem leftovers_reach_requests :
    lastOutput [insertBob] unknown = some ⟨none, ascii "ok"⟩ ∧
    expected unknown.answer unknown.request = some ⟨none, []⟩ ∧
    lastOutput [insertBob, unknown] selectAmy =
      some ⟨some (.selectData, .select (ascii "bob")), []⟩ ∧
    expected selectAmy.answer selectAmy.request =
      some ⟨some (.selectData, .select (ascii "amy")), []⟩ ∧
    ¬ Machine.Along step Independent (start []) [insertBob, unknown, selectAmy] := by
  have hreply : lastOutput [insertBob] unknown = some ⟨none, ascii "ok"⟩ := by decide +kernel
  have hown : expected unknown.answer unknown.request = some ⟨none, []⟩ := by decide +kernel
  refine ⟨hreply, hown, by decide +kernel, by decide +kernel, fun h => ?_⟩
  obtain ⟨-, hrest⟩ := h
  cases hs : step (start []) insertBob with
  | none => simp [lastOutput, hs] at hreply
  | some s =>
    have hsame := (hrest s hs).1 unknown.answer
    simp only [lastOutput, Machine.run_cons, hs, Machine.run_nil, Option.bind_some] at hreply
    rw [hreply, hown] at hsame
    exact absurd hsame (by decide +kernel)

end ThreadServer

end SundayServer
