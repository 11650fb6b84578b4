import SundayServer.Printer
import SundayServer.Statement

/-!
# `CWorkerThread::start_routine`

The read callback of a connection: one `bufferevent_read` of at most `BUFSIZE`
bytes, the XOR, the token test, the two-stage split and one handler for each
message.

* `Request`, `Message`, `parseMessage`, `messagesOf`: the parser. A message is
  a request or `malformed` (neither three nor six fields).
* `Prog`: what the handlers do, step by step: take and release `mutex_`, hand a
  statement to `PrinterToMySQL` and look at the outcome, write a reply. A
  handler gets the rest of the message loop as its continuation.
* `startRoutine`: the callback itself, on the connection record.
* `Prog.effects`: the calls and replies of a program for given outcomes.
-/

namespace SundayServer

/-! ## The record of a connection -/

/-- `CONN`, without its buffers and the TLS client that the callback does not use. -/
structure Conn where
  sfd : Int
  rlen : Int
  wlen : Int
  isVerify : Bool
  thread : Nat
deriving DecidableEq, Repr

/-- The IPv4 address `getpeername` reports. -/
structure InAddr where
  a : UInt8
  b : UInt8
  c : UInt8
  d : UInt8
deriving DecidableEq, Repr

/-- The digits of a byte. -/
def byteText (b : UInt8) : Bytes :=
  if b < 10 then [0x30 + b]
  else if b < 100 then [0x30 + b / 10, 0x30 + b % 10]
  else [0x30 + b / 100, 0x30 + b / 10 % 10, 0x30 + b % 10]

/-- `inet_ntoa`. -/
def inetNtoa (addr : InAddr) : Bytes :=
  byteText addr.a ++ [0x2e] ++ byteText addr.b ++ [0x2e] ++ byteText addr.c ++ [0x2e] ++
    byteText addr.d

/-! ## Parsing -/

/-- The variables the message loop fills from `vec_command`. `id` is declared
and never assigned. -/
structure Request where
  command : Int
  name : Bytes
  passwd : Bytes
  deviceId : Bytes := []
  p2pId : Bytes := []
  ip : Bytes := []
  id : Bytes := []
deriving DecidableEq, Repr

/-- One element of `vec_str`, after its split. -/
inductive Message
  | request (r : Request)
  | malformed
deriving DecidableEq, Repr

/-- The loop body up to the switch: drop the token, split at three spaces, take
the six-field or the three-field form. -/
def parseMessage (peer : InAddr) (m : Bytes) : Message :=
  match splitData (m.drop TOKEN_LENGTH) SPACE3 [] with
  | [command, name, passwd, deviceId, p2pId, _] =>
    .request { command := atoi command, name, passwd, deviceId, p2pId, ip := inetNtoa peer }
  | [command, name, passwd] => .request { command := atoi command, name, passwd }
  | _ => .malformed

/-- The messages of one read: none unless it has both a CRLF and three spaces. -/
def messagesOf (peer : InAddr) (strRecv : Bytes) : List Message :=
  if findCRLF strRecv && findSPACE strRecv then
    (splitData strRecv CRLF []).map (parseMessage peer)
  else []

/-! ## The handlers -/

/-- The entry points of `PrinterToMySQL` that `start_routine` calls. -/
inductive Call
  | selectData
  | insertData
  | updateData
  | deleteData
deriving DecidableEq, Repr

/-- What is left to do of a callback. -/
inductive Prog
  | done
  /-- The code reads outside an object or through NULL here. -/
  | crash
  /-- `boost::mutex::scoped_lock Lock(mutex_)`. -/
  | lock (k : Prog)
  /-- The end of the scope of that lock. -/
  | unlock (k : Prog)
  | query (c : Call) (s : Statement) (k : Outcome → Prog)
  /-- `SocketOperate::WriteSfd(conn->sfd, ...)`; its result is not looked at. -/
  | writeSfd (buf : Bytes) (k : Prog)

/-- A reply: XOR with the key, then `WriteSfd`. -/
def sendReply (str : Bytes) (k : Prog) : Prog := .writeSfd (xorKey str) k

/-- The end of the INSERT handler, from `InsertData` on. -/
def runInsert (s : Statement) (k : Prog) : Prog :=
  .query .insertData s fun o =>
    sendReply (if insertData o = 0 then ascii "f0:ok" else ascii "e2:fail") (.unlock k)

/-- INSERT into `user_info`: look the name up first. -/
def lookupAndInsert (r : Request) (k : Prog) : Prog :=
  .query .selectData (.lookupUser r.name) fun o =>
    match selectData 3 o with
    | none => .crash
    | some strval =>
      if strval.length = 0 then runInsert (.insertUser r.name r.passwd) k
      else sendReply (ascii "e1:fail") (.unlock k)

/-- `case INSERT`. -/
def insertCase (r : Request) (k : Prog) : Prog :=
  .lock <|
    if r.name ≠ ascii "0000" ∧ r.deviceId ≠ ascii "0000" then
      runInsert (.insertDevice r.name r.deviceId r.p2pId r.ip) k
    else lookupAndInsert r k

/-- `while(*p != 0x06) p--`, from index `i` of the string; `none` when it leaves
the string at its front. -/
def scanBack (p : Bytes) : Nat → Option Nat
  | 0 => if p[0]? = some rg then some 0 else none
  | i + 1 => if p[i + 1]? = some rg then some (i + 1) else scanBack p i

/-- The password the SELECT handler reads off the end of `strval`: scan back
from `strlen(p) - 3`, take what follows and erase its last two bytes. -/
def newPasswd (strval : Bytes) : Option Bytes :=
  let p := cstr strval
  if p.length < 3 then none
  else (scanBack p (p.length - 3)).map fun i => (p.drop (i + 1)).dropLast.dropLast

/-- The reply of the SELECT handler to the outcome of its query. -/
def selectReply (passwd : Bytes) (o : Outcome) : Option Bytes :=
  match selectData 3 o with
  | none => none
  | some strval =>
    if strval.length ≠ 0 then
      (newPasswd strval).map fun stored =>
        if stored ≠ cstr passwd then ascii "e3:fail" else ascii "f0:ok"
    else some (ascii "e1:fail")

/-- `case SELECT`. -/
def selectCase (r : Request) (k : Prog) : Prog :=
  .lock <| .query .selectData (.selectUser r.name) fun o =>
    match selectReply r.passwd o with
    | none => .crash
    | some str => sendReply str (.unlock k)

/-- `case UPDATE`. -/
def updateCase (r : Request) (k : Prog) : Prog :=
  .lock <| .query .updateData (.updateUser r.passwd r.name) fun o =>
    sendReply (if updateData o = 0 then ascii "f0:ok" else ascii "e3:fail") (.unlock k)

/-- `case DELETE`. The reply is compiled out. -/
def deleteCase (r : Request) (k : Prog) : Prog :=
  .lock <| .query .deleteData (.deleteUser r.id) fun _ => .unlock k

/-- `enum COMMAND`. -/
def INSERT : Int := 1
def SELECT : Int := 2
def UPDATE : Int := 3
def DELETE : Int := 4

/-- `switch(command)`. -/
def dispatch (r : Request) (k : Prog) : Prog :=
  if r.command = INSERT then insertCase r k
  else if r.command = SELECT then selectCase r k
  else if r.command = UPDATE then updateCase r k
  else if r.command = DELETE then deleteCase r k
  else sendReply (ascii "e3:fail") k

/-- One turn of the message loop. -/
def handle : Message → Prog → Prog
  | .request r, k => dispatch r k
  | .malformed, k => sendReply (ascii "e3:fail") k

/-- The message loop. -/
def handleAll (ms : List Message) : Prog := ms.foldr handle .done

/-! ## The callback -/

/-- What a callback leaves: the record, whether `CloseConn` was called, and the
messages that the loop handles. -/
structure ReadResult where
  conn : Conn
  closed : Bool
  messages : List Message
deriving DecidableEq, Repr

/-- `CWorkerThread::start_routine` on the bytes `bufferevent_read` delivers. -/
def startRoutine (conn : Conn) (peer : InAddr) (data : Bytes) : ReadResult :=
  let readbuf := xorKey data
  if TOKEN_LENGTH ≤ readbuf.length ∧ conn.isVerify = false then
    let conn := { conn with isVerify := true }
    if readbuf.take TOKEN_LENGTH ≠ TOKEN_STR then ⟨conn, true, []⟩
    else ⟨conn, false, messagesOf peer readbuf⟩
  else ⟨conn, false, messagesOf peer readbuf⟩

/-- `GetConnFromFreelist` or `AddConnToFreelist`, which take `mutex_`; the pool itself
is in `ConnPool.lean`. -/
def freelist : Prog := .lock (.unlock .done)

/-- What the callback does after the token test: `CloseConn`, or the message loop. -/
def ReadResult.prog (r : ReadResult) : Prog := if r.closed then freelist else handleAll r.messages

/-! ## The calls and replies of a program -/

/-- What a program does to the outside. -/
inductive Effect
  | query (c : Call) (s : Statement)
  | write (buf : Bytes)
deriving DecidableEq, Repr

/-- The calls and replies of a program, when the `n`-th call has the outcome `o n`. -/
def Prog.effects : Prog → (Nat → Outcome) → List Effect
  | .done, _ | .crash, _ => []
  | .lock k, o | .unlock k, o => k.effects o
  | .query c s k, o => .query c s :: (k (o 0)).effects fun n => o (n + 1)
  | .writeSfd buf k, o => .write buf :: k.effects o

/-! ## Basic facts -/

section Dispatch

variable {r : Request}

theorem dispatch_insert (hc : r.command = INSERT) (k : Prog) : dispatch r k = insertCase r k :=
  if_pos hc

theorem dispatch_select (hc : r.command = SELECT) (k : Prog) : dispatch r k = selectCase r k := by
  have hother : r.command ≠ INSERT := by
    rw [hc]
    decide
  rw [dispatch, if_neg hother, if_pos hc]

theorem dispatch_update (hc : r.command = UPDATE) (k : Prog) : dispatch r k = updateCase r k := by
  have hother : r.command ≠ INSERT ∧ r.command ≠ SELECT := by
    rw [hc]
    decide
  rw [dispatch, if_neg hother.1, if_neg hother.2, if_pos hc]

theorem dispatch_delete (hc : r.command = DELETE) (k : Prog) : dispatch r k = deleteCase r k := by
  have hother : r.command ≠ INSERT ∧ r.command ≠ SELECT ∧ r.command ≠ UPDATE := by
    rw [hc]
    decide
  rw [dispatch, if_neg hother.1, if_neg hother.2.1, if_neg hother.2.2, if_pos hc]

theorem dispatch_unknown
    (hc : r.command ≠ INSERT ∧ r.command ≠ SELECT ∧ r.command ≠ UPDATE ∧ r.command ≠ DELETE)
    (k : Prog) : dispatch r k = sendReply (ascii "e3:fail") k := by
  rw [dispatch, if_neg hc.1, if_neg hc.2.1, if_neg hc.2.2.1, if_neg hc.2.2.2]

end Dispatch

/-- A handler runs before the rest of the loop does anything. -/
theorem handleAll_cons (m : Message) (ms : List Message) :
    handleAll (m :: ms) = handle m (handleAll ms) := rfl

/-- The read starts with the token. -/
def HasToken (data : Bytes) : Prop := (xorKey data).take TOKEN_LENGTH = TOKEN_STR

instance (data : Bytes) : Decidable (HasToken data) := inferInstanceAs (Decidable (_ = _))

/-- The callback makes a database call or sends a reply, for some answers of the
database. -/
def ReadResult.Acts (r : ReadResult) : Prop := ∃ o, r.prog.effects o ≠ []

theorem startRoutine_verified {conn : Conn} (h : conn.isVerify = true) (peer : InAddr)
    (data : Bytes) :
    startRoutine conn peer data = ⟨conn, false, messagesOf peer (xorKey data)⟩ := by
  simp [startRoutine, h]

theorem prog_verified {conn : Conn} (h : conn.isVerify = true) (peer : InAddr) (data : Bytes) :
    (startRoutine conn peer data).prog = handleAll (startRoutine conn peer data).messages := by
  rw [startRoutine_verified h]
  rfl

/-- The callback gives the record back and has no message, or it handles its messages. -/
theorem prog_cases (conn : Conn) (peer : InAddr) (data : Bytes) :
    ((startRoutine conn peer data).prog = freelist ∧
        (startRoutine conn peer data).messages = []) ∨
      (startRoutine conn peer data).prog = handleAll (startRoutine conn peer data).messages := by
  simp only [startRoutine]
  split
  · split
    · exact .inl ⟨rfl, rfl⟩
    · exact .inr rfl
  · exact .inr rfl

theorem plain_of_forall_ne {v : Bytes}
    (h : ∀ b ∈ v, b ≠ mysqlRules.quote ∧ b ≠ mysqlRules.esc) : Literal.plain mysqlRules v := by
  induction v with
  | nil => rfl
  | cons b v ih =>
    obtain ⟨⟨hq, he⟩, hv⟩ := List.forall_mem_cons.mp h
    exact Literal.plain_append mysqlRules (Literal.plain_singleton mysqlRules hq he) (ih hv)

theorem byteText_digit {b c : UInt8} (hc : c ∈ byteText b) :
    0x30 ≤ c.toNat ∧ c.toNat ≤ 0x39 := by
  have hb := b.toNat_lt
  unfold byteText at hc
  split at hc
  · next h =>
    have h10 : b.toNat < 10 := UInt8.lt_iff_toNat_lt.mp h
    obtain rfl : c = 0x30 + b := by simpa using hc
    simp only [UInt8.toNat_add, UInt8.reduceToNat]
    omega
  · split at hc
    · next h =>
      have h100 : b.toNat < 100 := UInt8.lt_iff_toNat_lt.mp h
      obtain rfl | rfl : c = 0x30 + b / 10 ∨ c = 0x30 + b % 10 := by simpa using hc
      all_goals
        simp only [UInt8.toNat_add, UInt8.toNat_div, UInt8.toNat_mod, UInt8.reduceToNat]
        omega
    · obtain rfl | rfl | rfl :
          c = 0x30 + b / 100 ∨ c = 0x30 + b / 10 % 10 ∨ c = 0x30 + b % 10 := by
        simpa using hc
      all_goals
        simp only [UInt8.toNat_add, UInt8.toNat_div, UInt8.toNat_mod, UInt8.reduceToNat]
        omega

theorem byteText_safe (b : UInt8) :
    ∀ c ∈ byteText b, c ≠ 0 ∧ c ≠ mysqlRules.quote ∧ c ≠ mysqlRules.esc := by
  intro c hc
  obtain ⟨hlo, hhi⟩ := byteText_digit hc
  refine ⟨?_, ?_, ?_⟩
  all_goals
    rintro rfl
    revert hlo hhi
    decide

theorem inetNtoa_safe (addr : InAddr) : LiteralSafe (inetNtoa addr) := by
  have hall : ∀ c ∈ inetNtoa addr, c ≠ 0 ∧ c ≠ mysqlRules.quote ∧ c ≠ mysqlRules.esc := by
    have hdot : (0x2e : UInt8) ≠ 0 ∧ 0x2e ≠ mysqlRules.quote ∧ 0x2e ≠ mysqlRules.esc := by decide
    intro c hc
    simp only [inetNtoa, List.mem_append, List.mem_singleton] at hc
    rcases hc with (((((h | rfl) | h) | rfl) | h) | rfl) | h
    all_goals first | exact hdot | exact byteText_safe _ c h
  exact ⟨fun h0 => (hall 0 h0).1 rfl, plain_of_forall_ne fun b hb => (hall b hb).2⟩

/-- The fields that the client does not choose. -/
theorem parseMessage_safe {peer : InAddr} {m : Bytes} {r : Request}
    (h : parseMessage peer m = .request r) : LiteralSafe r.ip ∧ LiteralSafe r.id := by
  have hnil : LiteralSafe [] := ⟨List.not_mem_nil, rfl⟩
  unfold parseMessage at h
  split at h
  · cases h
    exact ⟨inetNtoa_safe peer, hnil⟩
  · cases h
    exact ⟨hnil, hnil⟩
  · cases h

/-- `id` is never assigned. -/
theorem parseMessage_id {peer : InAddr} {m : Bytes} {r : Request}
    (h : parseMessage peer m = .request r) : r.id = [] := by
  unfold parseMessage at h
  split at h <;> cases h <;> rfl

/-- A read that is too short for the token is too short for a request: it would
need three spaces and, apart from them, a CRLF. -/
theorem messagesOf_short (peer : InAddr) {s : Bytes} (h : s.length < TOKEN_LENGTH) :
    messagesOf peer s = [] := by
  unfold messagesOf
  rw [if_neg]
  intro hboth
  obtain ⟨hcrlf, hspace⟩ := Bool.and_eq_true_iff.mp hboth
  have hsp : SPACE3.countP (fun b => b = 0x20) ≤ s.countP (fun b => b = 0x20) :=
    (findSPACE_iff.mp hspace).sublist.countP_le
  have hcr : CRLF.countP (fun b => ¬ b = 0x20) ≤ s.countP (fun b => ¬ b = 0x20) :=
    (findCRLF_iff.mp hcrlf).sublist.countP_le
  have hlen : s.length = s.countP (fun b => b = 0x20) + s.countP (fun b => ¬ b = 0x20) := by
    simpa using List.length_eq_countP_add_countP (l := s) (fun b => b = (0x20 : UInt8))
  have h3 : SPACE3.countP (fun b => b = 0x20) = 3 := by decide
  have h2 : CRLF.countP (fun b => ¬ b = 0x20) = 2 := by decide
  simp only [TOKEN_LENGTH] at h
  omega

/-- The loop handles the messages of the read, or none. -/
theorem startRoutine_messages (conn : Conn) (peer : InAddr) (data : Bytes) :
    (startRoutine conn peer data).messages = [] ∨
      (startRoutine conn peer data).messages = messagesOf peer (xorKey data) := by
  unfold startRoutine
  simp only
  split
  · split
    · exact .inl rfl
    · exact .inr rfl
  · exact .inr rfl

/-- Every message that the loop handles comes from the parser, and stands in the
read with its CRLF. -/
theorem startRoutine_infix {conn : Conn} {peer : InAddr} {data : Bytes} {m : Message}
    (h : m ∈ (startRoutine conn peer data).messages) :
    ∃ t, m = parseMessage peer t ∧ t ++ CRLF <:+: xorKey data := by
  rcases startRoutine_messages conn peer data with heq | heq
  · rw [heq] at h
    cases h
  · rw [heq, messagesOf] at h
    split at h
    · obtain ⟨ts, r, hts, hsplit⟩ := splitData_splits CRLF_ne_nil (xorKey data) []
      rw [hts, List.nil_append] at h
      obtain ⟨t, ht, rfl⟩ := List.mem_map.mp h
      exact ⟨t, rfl, hsplit.mem_infix ht⟩
    · cases h

theorem startRoutine_parsed {conn : Conn} {peer : InAddr} {data : Bytes} {m : Message}
    (h : m ∈ (startRoutine conn peer data).messages) : ∃ t, m = parseMessage peer t := by
  obtain ⟨t, ht, -⟩ := startRoutine_infix h
  exact ⟨t, ht⟩

/-- What the token test of one read does. -/
theorem startRoutine_cases (conn : Conn) (peer : InAddr) (data : Bytes) :
    let r := startRoutine conn peer data
    (conn.isVerify = true ∧ r.conn = conn ∧ r.closed = false) ∨
    (conn.isVerify = false ∧ data.length < TOKEN_LENGTH ∧ r.conn = conn ∧ r.closed = false ∧
      ¬ r.Acts) ∨
    (conn.isVerify = false ∧ TOKEN_LENGTH ≤ data.length ∧
      r.conn = { conn with isVerify := true } ∧
      (HasToken data ∧ r.closed = false ∨ ¬ HasToken data ∧ r.closed = true ∧ ¬ r.Acts)) := by
  have hnil : ∀ {c b}, ¬ (⟨c, b, []⟩ : ReadResult).Acts := by
    rintro c b ⟨o, h⟩
    cases b <;> exact h rfl
  cases hv : conn.isVerify with
  | true => exact .inl ⟨rfl, by simp [startRoutine, hv], by simp [startRoutine, hv]⟩
  | false =>
    right
    by_cases hlen : TOKEN_LENGTH ≤ data.length
    · right
      by_cases ht : HasToken data
      · refine ⟨rfl, hlen, ?_, .inl ⟨ht, ?_⟩⟩ <;>
          simp [startRoutine, hv, hlen, show (xorKey data).take TOKEN_LENGTH = TOKEN_STR from ht]
      · have hr : startRoutine conn peer data = ⟨{ conn with isVerify := true }, true, []⟩ := by
          have ht' : ¬ (xorKey data).take TOKEN_LENGTH = TOKEN_STR := ht
          simp [startRoutine, hv, hlen, ht']
        rw [hr]
        exact ⟨rfl, hlen, rfl, .inr ⟨ht, rfl, hnil⟩⟩
    · left
      have hr : startRoutine conn peer data = ⟨conn, false, []⟩ := by
        have hshort := messagesOf_short peer (s := xorKey data)
          (by simpa using Nat.lt_of_not_le hlen)
        simp [startRoutine, hlen, hshort]
      rw [hr]
      exact ⟨rfl, Nat.lt_of_not_le hlen, rfl, rfl, hnil⟩

end SundayServer
