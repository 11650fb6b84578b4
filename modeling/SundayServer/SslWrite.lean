import SundayServer.SslRead
import SundayServer.Lib.Machine

/-!
# The write path of `ssl.cpp`

A client of `ssl.cpp` has two queues: `encrypt_buf`, plaintext that waits for
`SSL_write`, and `write_buf`, encrypted bytes that wait for the socket. The bytes
of `write_buf` come from the output BIO, in `do_encrypt` and in `on_read_cb`.

* `Session`: the queues, and all bytes that have gone past their ends so far.
* `Turn`: the answers of OpenSSL in one turn of `do_encrypt`.
* `encryptLoop`, `doEncrypt`, `doSockRead`, `doSockWrite`: the functions.
* `SessionStep`: a call of one of them, with the answers it gets.

Results:
1. `queues_keep`: over any calls nothing is lost, doubled or put out of order.
2. `encryptLoop_ends`: how long the loop of `do_encrypt` goes on, and when all of
   the plaintext has been taken. `encryptLoop_spins`: it waits for the peer by
   calling `SSL_write` again and again.
-/

namespace SundayServer

namespace Ssl

/-! ## Definitions -/

/-- `client.encrypt_buf` and `client.write_buf`; the plaintext that was queued
(`sent`) and that `SSL_write` has taken (`accepted`); the encrypted bytes that
`BIO_read` has given (`produced`) and that `write` has taken (`written`). -/
structure Session where
  encryptBuf : Bytes
  writeBuf : Bytes
  sent : Bytes
  accepted : Bytes
  produced : Bytes
  written : Bytes
deriving DecidableEq, Repr

/-- After `ssl_client_init`. -/
def Session.init : Session := ⟨[], [], [], [], [], []⟩

/-- What `BIO_read` gives until it gives nothing, that last return value, and what
`BIO_should_retry` says to it. -/
structure Drain where
  chunks : List Chunk
  last : Int
  retry : Bool
  last_le : last ≤ 0

/-- What the calls of one turn return: `SSL_write`, `SSL_get_error`, and the drain of
the output BIO if something was written. -/
structure Turn where
  n : Int
  error : SslError
  drain : Drain

namespace Session

/-- `send_unencrypted_bytes`. -/
def sendUnencryptedBytes (buf : Bytes) (s : Session) : Session :=
  { s with encryptBuf := s.encryptBuf ++ buf, sent := s.sent ++ buf }

/-- `SSL_write` takes `n` bytes, and the rest is moved to the front. -/
def sslWrite (n : Nat) (s : Session) : Session :=
  { s with
    encryptBuf := s.encryptBuf.drop n
    accepted := s.accepted ++ s.encryptBuf.take n }

/-- A chunk of the output BIO, and `queue_encrypted_bytes`. -/
def bioRead (c : Chunk) (s : Session) : Session :=
  { s with writeBuf := s.writeBuf ++ c.val, produced := s.produced ++ c.val }

/-- `do { n = BIO_read(..); .. } while (n > 0)`. -/
def drain (d : Drain) (s : Session) : Session := d.chunks.foldl (fun s c => s.bioRead c) s

/-- `do_stdin_read`, with what `read` puts into `buf`. -/
def doStdinRead (buf : Option Chunk) (s : Session) : Session :=
  match buf with
  | some c => s.sendUnencryptedBytes c.val
  | none => s

end Session

/-- How a turn of the loop of `do_encrypt` ends. -/
inductive EncryptTurn
  | again (s : Session)
  | returns (ret : Int) (s : Session)
deriving DecidableEq

/-- The client at its end. -/
def EncryptTurn.session : EncryptTurn → Session
  | .again s | .returns _ s => s

/-- The body of the loop of `do_encrypt`. After a drain the variable `n` holds what
the last `BIO_read` has returned. -/
def encryptTurn (t : Turn) (s : Session) : EncryptTurn :=
  if 0 < t.n then
    let s := (s.sslWrite t.n.toNat).drain t.drain
    if t.drain.retry = false then .returns (-1) s
    else if getSslstatus t.error = .fail then .returns (-1) s
    else if t.drain.last = 0 then .returns 0 s
    else .again s
  else if getSslstatus t.error = .fail then .returns (-1) s
  else if t.n = 0 then .returns 0 s
  else .again s

/-- Where the loop of `do_encrypt` is after some turns. -/
inductive EncryptRun
  | running (s : Session)
  | returns (ret : Int) (s : Session) (rest : List Turn)

/-- `while (client.encrypt_len > 0)`. `SSL_write` is given the length as an `int`, and
takes no more than it is given. -/
def encryptLoop (s : Session) : List Turn → Option EncryptRun
  | [] => some (if s.encryptBuf = [] then .returns 0 s [] else .running s)
  | t :: ts =>
    if s.encryptBuf = [] then some (.returns 0 s (t :: ts))
    else if 0 < t.n ∧ toInt s.encryptBuf.length < t.n then none
    else
      match encryptTurn t s with
      | .again s => encryptLoop s ts
      | .returns ret s => some (.returns ret s ts)

/-- `do_encrypt`. -/
def doEncrypt (finished : Bool) (s : Session) (ts : List Turn) : Option EncryptRun :=
  if finished then encryptLoop s ts else some (.returns 0 s ts)

/-- The chunks that the calls of `BIO_read` yield. -/
def bioChunks (as : List Answer) : List Bytes :=
  as.filterMap fun
    | .bioRead (.bytes c) => some c.val
    | _ => none

/-- `do_sock_read`, with what `read` returns and what OpenSSL answers to `on_read_cb`:
the return value and the client. -/
def doSockRead (n : Int) (as : List Answer) (s : Session) : Option (Int × Session) :=
  if n ≤ 0 then if as = [] then some (-1, s) else none
  else if DEFAULT_BUF_SIZE < n then none
  else
    match onReadCb n.toNat (.start tmpbuf s.writeBuf) as with
    | some (.returns ret st []) =>
      some (ret, { s with
        writeBuf := st.writeBuf
        produced := s.produced ++ (bioChunks as).flatten })
    | _ => none

/-- `do_sock_write`, with what `write` returns. -/
def doSockWrite (n : Int) (s : Session) : Option (Int × Session) :=
  if n ≤ 0 then some (-1, s)
  else if s.writeBuf.length < n then none
  else
    some (0, { s with
      writeBuf := s.writeBuf.drop n.toNat
      written := s.written ++ s.writeBuf.take n.toNat })

/-- A call on the client, and the answers it gets. -/
inductive SessionStep
  | sendUnencryptedBytes (buf : Bytes)
  | doStdinRead (buf : Option Chunk)
  | doEncrypt (finished : Bool) (ts : List Turn)
  | doSockRead (n : Int) (as : List Answer)
  | doSockWrite (n : Int)

namespace Session

/-- The client after a call that returns. -/
def step (s : Session) : SessionStep → Option Session
  | .sendUnencryptedBytes buf => some (s.sendUnencryptedBytes buf)
  | .doStdinRead buf => some (s.doStdinRead buf)
  | .doEncrypt finished ts =>
    match doEncrypt finished s ts with
    | some (.returns _ s' []) => some s'
    | _ => none
  | .doSockRead n as => (doSockRead n as s).map Prod.snd
  | .doSockWrite n => (doSockWrite n s).map Prod.snd

/-- What has gone into a queue is what has come out of it and what is in it. -/
structure Keeps (s : Session) : Prop where
  encrypt : s.sent = s.accepted ++ s.encryptBuf
  write : s.produced = s.written ++ s.writeBuf

end Session

/-! ## 1. The queues -/

namespace SslWriteLemmas

variable {s : Session}

theorem keeps_send (h : s.Keeps) (buf : Bytes) : (s.sendUnencryptedBytes buf).Keeps where
  encrypt := by simp [Session.sendUnencryptedBytes, h.encrypt]
  write := h.write

theorem keeps_sslWrite (h : s.Keeps) (n : Nat) : (s.sslWrite n).Keeps where
  encrypt := by simp [Session.sslWrite, h.encrypt]
  write := h.write

theorem keeps_bioRead (h : s.Keeps) (c : Chunk) : (s.bioRead c).Keeps where
  encrypt := h.encrypt
  write := by simp [Session.bioRead, h.write]

theorem keeps_drain (h : s.Keeps) (d : Drain) : (s.drain d).Keeps := by
  unfold Session.drain
  induction d.chunks generalizing s with
  | nil => exact h
  | cons c cs ih => exact ih (keeps_bioRead h c)

theorem encryptTurn_session (t : Turn) (s : Session) :
    (encryptTurn t s).session =
      if 0 < t.n then (s.sslWrite t.n.toNat).drain t.drain else s := by
  unfold encryptTurn
  by_cases hn : 0 < t.n
  · simp only [if_pos hn]
    split
    · rfl
    · split
      · rfl
      · split <;> rfl
  · simp only [if_neg hn]
    split
    · rfl
    · split <;> rfl

theorem keeps_turn (h : s.Keeps) (t : Turn) : (encryptTurn t s).session.Keeps := by
  rw [encryptTurn_session]
  split
  · exact keeps_drain (keeps_sslWrite h _) _
  · exact h

theorem keeps_encryptLoop {ts rest : List Turn} {ret : Int} {s' : Session} (h : s.Keeps)
    (hr : encryptLoop s ts = some (.returns ret s' rest)) : s'.Keeps := by
  induction ts generalizing s with
  | nil =>
    simp only [encryptLoop, Option.some.injEq] at hr
    split at hr <;> cases hr
    exact h
  | cons t ts ih =>
    unfold encryptLoop at hr
    split at hr
    · cases hr
      exact h
    · split at hr
      · cases hr
      · have hturn := keeps_turn h t
        split at hr
        · next heq =>
          rw [heq] at hturn
          exact ih hturn hr
        · next heq =>
          rw [heq] at hturn
          cases hr
          exact hturn

/-! ### The queue in `on_read_cb` -/

/-- A part of the run from the answers `as` on adds to the queue what it reads from
the output BIO. -/
def Queues (as : List Answer) (buf : Bytes) (s : ReadState) (rest : List Answer) : Prop :=
  ∃ chunks, bioChunks as = chunks ++ bioChunks rest ∧ s.writeBuf = buf ++ chunks.flatten

theorem Queues.trans {as mid rest : List Answer} {buf : Bytes} {s s' : ReadState}
    (h : Queues as buf s mid) (h' : Queues mid s.writeBuf s' rest) : Queues as buf s' rest := by
  obtain ⟨cs, hcs, hs⟩ := h
  obtain ⟨cs', hcs', hs'⟩ := h'
  exact ⟨cs ++ cs', by rw [hcs, hcs', List.append_assoc], by simp [hs', hs]⟩

theorem queues_refl (as : List Answer) (s : ReadState) : Queues as s.writeBuf s as :=
  ⟨[], rfl, by simp⟩

theorem readLoop_queues {s s' : ReadState} {as rest : List Answer}
    (h : readLoop s as = some (s', rest)) : Queues as s.writeBuf s' rest := by
  fun_induction readLoop s as with
  | case1 s c as ih => exact ih h
  | case2 s as =>
    cases h
    exact queues_refl _ _
  | case3 => cases h

theorem drainLoop_queues {s s' : ReadState} {as rest : List Answer} {ok : Bool}
    (h : drainLoop s as = some (s', ok, rest)) : Queues as s.writeBuf s' rest := by
  fun_induction drainLoop s as with
  | case1 s c as ih =>
    obtain ⟨cs, hcs, hs⟩ := ih h
    refine ⟨c.val :: cs, by simpa [bioChunks] using hcs, ?_⟩
    simpa [queueEncryptedBytes] using hs
  | case2 s retry as =>
    cases h
    exact queues_refl _ _
  | case3 => cases h

theorem doSslHandshake_queues {s s' : ReadState} {as rest : List Answer} {status : SslStatus}
    (h : doSslHandshake s as = some (s', status, rest)) : Queues as s.writeBuf s' rest := by
  unfold doSslHandshake at h
  split at h
  · split at h
    · obtain ⟨⟨t, ok, rest'⟩, hdrain, hp⟩ := Option.map_eq_some_iff.mp h
      cases hp
      have hqueues := drainLoop_queues hdrain
      exact hqueues
    · cases h
      exact queues_refl _ s
  · cases h

theorem finishHandshake_queues {s : ReadState} {as : List Answer} {p : Pass}
    (h : finishHandshake s as = some p) : Queues as s.writeBuf p.state p.rest := by
  unfold finishHandshake at h
  split at h
  · cases h
    exact queues_refl _ s
  · obtain ⟨⟨t, status, rest⟩, hshake, h⟩ := Option.bind_eq_some_iff.mp h
    have hqueues := doSslHandshake_queues hshake
    split at h
    · next heq =>
      cases heq
      cases h
      exact hqueues
    · next heq =>
      cases heq
      split at h <;> cases h <;> exact hqueues
    · cases h
  · cases h

theorem readPlaintext_queues {s : ReadState} {as : List Answer} {p : Pass}
    (h : readPlaintext s as = some p) : Queues as s.writeBuf p.state p.rest := by
  obtain ⟨⟨t, rest⟩, hread, h⟩ := Option.bind_eq_some_iff.mp h
  have hqueues := readLoop_queues hread
  split at h
  · next heq =>
    cases heq
    split at h
    · cases h
      exact hqueues
    · obtain ⟨⟨u, ok, rest'⟩, hdrain, rfl⟩ := Option.map_eq_some_iff.mp h
      have hdrained := drainLoop_queues hdrain
      have hall := hqueues.trans hdrained
      cases ok with
      | true => exact hall
      | false => exact hall
    · cases h
      exact hqueues
  · cases h

/-- One part after the other. -/
theorem andThen_queues {o : Option Pass} {k : ReadState → List Answer → Option Pass}
    {as : List Answer} {buf : Bytes} (ho : ∀ p, o = some p → Queues as buf p.state p.rest)
    (hk : ∀ s rest q, k s rest = some q → Queues rest s.writeBuf q.state q.rest)
    {q : Pass} (h : Pass.andThen o k = some q) : Queues as buf q.state q.rest := by
  obtain ⟨p, hp, h⟩ := Option.bind_eq_some_iff.mp h
  have hfirst := ho p hp
  split at h
  · next s rest => exact hfirst.trans (hk s rest q h)
  · cases h
    exact hfirst

theorem onReadLoop_queues {fuel len : Nat} {s : ReadState} {as : List Answer} {p : Pass}
    (h : onReadLoop fuel len s as = some p) : Queues as s.writeBuf p.state p.rest := by
  induction fuel generalizing len s as p with
  | zero => cases h
  | succ fuel ih =>
    unfold onReadLoop at h
    split at h
    · cases h
      exact queues_refl as s
    · split at h
      · next n as =>
        split at h
        · cases h
          exact queues_refl as s
        · split at h
          · cases h
          · have hbody : ∀ q, Pass.andThen (finishHandshake s as) readPlaintext = some q →
                Queues as s.writeBuf q.state q.rest := fun q hq =>
              andThen_queues (fun r hr => finishHandshake_queues hr)
                (fun _ _ _ hr => readPlaintext_queues hr) hq
            have hrest : Queues as s.writeBuf p.state p.rest :=
              andThen_queues hbody (fun _ _ _ hr => ih hr) h
            exact hrest
      · cases h

theorem keeps_sockRead {n ret : Int} {as : List Answer} {s' : Session} (h : s.Keeps)
    (hr : doSockRead n as s = some (ret, s')) : s'.Keeps := by
  unfold doSockRead at hr
  split at hr
  · split at hr <;> cases hr
    exact h
  · split at hr
    · cases hr
    · split at hr
      · next st hread =>
        obtain ⟨chunks, hchunks, hbuf⟩ := onReadLoop_queues hread
        cases hr
        have hall : bioChunks as = chunks := hchunks.trans (List.append_nil chunks)
        refine ⟨h.encrypt, ?_⟩
        show s.produced ++ (bioChunks as).flatten = s.written ++ st.writeBuf
        rw [show st.writeBuf = s.writeBuf ++ chunks.flatten from hbuf, hall, h.write,
          List.append_assoc]
      · cases hr

theorem keeps_sockWrite {n ret : Int} {s' : Session} (h : s.Keeps)
    (hr : doSockWrite n s = some (ret, s')) : s'.Keeps := by
  unfold doSockWrite at hr
  split at hr
  · cases hr
    exact h
  · split at hr
    · cases hr
    · cases hr
      exact ⟨h.encrypt, by simp [h.write]⟩

theorem keeps_step {e : SessionStep} {s' : Session} (h : s.Keeps) (hs : s.step e = some s') :
    s'.Keeps := by
  cases e with
  | sendUnencryptedBytes buf =>
    cases hs
    exact keeps_send h buf
  | doStdinRead buf =>
    cases hs
    cases buf with
    | none => exact h
    | some c => exact keeps_send h c.val
  | doEncrypt finished ts =>
    simp only [Session.step] at hs
    split at hs
    · next ret t hrun =>
      cases hs
      unfold doEncrypt at hrun
      split at hrun
      · exact keeps_encryptLoop h hrun
      · cases hrun
        exact h
    · cases hs
  | doSockRead n as =>
    obtain ⟨⟨ret, t⟩, hread, rfl⟩ := Option.map_eq_some_iff.mp hs
    exact keeps_sockRead h hread
  | doSockWrite n =>
    obtain ⟨⟨ret, t⟩, hwrite, rfl⟩ := Option.map_eq_some_iff.mp hs
    exact keeps_sockWrite h hwrite

end SslWriteLemmas

open SslWriteLemmas

/-- Over any calls in any order, whatever OpenSSL, the socket and the terminal answer:
`SSL_write` has been given the plaintext that was queued, byte for byte and in order,
up to what is still in `encrypt_buf`; and the socket the encrypted bytes, up to what is
still in `write_buf`. -/
theorem queues_keep {es : List SessionStep} {s : Session}
    (hr : Machine.run Session.step .init es = some s) :
    s.sent = s.accepted ++ s.encryptBuf ∧ s.produced = s.written ++ s.writeBuf := by
  have hinit : Session.init.Keeps := ⟨rfl, rfl⟩
  have h := Machine.run_invariant (fun _ _ _ h hs => keeps_step h hs) hinit hr
  exact ⟨h.encrypt, h.write⟩

/-- Plaintext that is encrypted in two calls of `SSL_write`, and written in part. -/
def twoWrites : List SessionStep :=
  [.sendUnencryptedBytes (ascii "abc"),
    .doEncrypt true [⟨2, .none, ⟨[recordAb], -1, true, by decide⟩⟩,
      ⟨1, .none, ⟨[recordC], -1, true, by decide⟩⟩],
    .doSockWrite 1, .doSockRead 7 (passAnswers 7 [recordAb]), .doSockWrite 2]

theorem queues_keep_twoWrites :
    ∃ s, Machine.run Session.step .init twoWrites = some s ∧
      s.sent = s.accepted ++ s.encryptBuf ∧ s.produced = s.written ++ s.writeBuf := by
  have hsome : (Machine.run Session.step .init twoWrites).isSome := by decide +kernel
  obtain ⟨s, hs⟩ := Option.isSome_iff_exists.mp hsome
  exact ⟨s, hs, queues_keep hs⟩

/-! ## 2. The loop of `do_encrypt` -/

/-- The turns in which `SSL_write` has taken nothing and the loop goes on. -/
def waits (ts : List Turn) : Nat := ts.countP (·.n < 0)

/-- A turn that ends the loop with an error. -/
def Turn.Fails (t : Turn) : Prop :=
  getSslstatus t.error = .fail ∨ 0 < t.n ∧ t.drain.retry = false

/-- A turn that ends the loop without one: `SSL_write`, or the last `BIO_read` after
it, has returned 0. -/
def Turn.Stops (t : Turn) : Prop := t.n = 0 ∨ 0 < t.n ∧ t.drain.last = 0

namespace SslWriteLemmas

variable {s s' : Session} {t : Turn}

theorem drain_encryptBuf (d : Drain) (s : Session) : (s.drain d).encryptBuf = s.encryptBuf := by
  unfold Session.drain
  induction d.chunks generalizing s with
  | nil => rfl
  | cons c cs ih => exact ih (s.bioRead c)

/-- A turn of the loop. -/
theorem encryptTurn_cases (t : Turn) (s : Session) :
    (∃ s', encryptTurn t s = .again s' ∧
      (0 < t.n ∧ s'.encryptBuf = s.encryptBuf.drop t.n.toNat ∨ t.n < 0 ∧ s' = s)) ∨
    (∃ s', encryptTurn t s = .returns 0 s' ∧ t.Stops) ∨
    (∃ s', encryptTurn t s = .returns (-1) s' ∧ t.Fails) := by
  unfold encryptTurn
  by_cases hn : 0 < t.n
  · simp only [if_pos hn]
    split
    · next hretry => exact .inr (.inr ⟨_, rfl, .inr ⟨hn, hretry⟩⟩)
    · split
      · next hfail => exact .inr (.inr ⟨_, rfl, .inl hfail⟩)
      · split
        · next hlast => exact .inr (.inl ⟨_, rfl, .inr ⟨hn, hlast⟩⟩)
        · exact .inl ⟨_, rfl, .inl ⟨hn, drain_encryptBuf _ _⟩⟩
  · simp only [if_neg hn]
    split
    · next hfail => exact .inr (.inr ⟨_, rfl, .inl hfail⟩)
    · split
      · next h0 => exact .inr (.inl ⟨_, rfl, .inl h0⟩)
      · next h0 => exact .inl ⟨_, rfl, .inr ⟨by omega, rfl⟩⟩

/-- A turn that is not the last one uses up a byte or is a wait. -/
theorem encryptTurn_again (hne : s.encryptBuf ≠ []) (h : encryptTurn t s = .again s')
    (ts : List Turn) :
    s'.encryptBuf.length + waits ts + 1 ≤ s.encryptBuf.length + waits (t :: ts) := by
  have hpos := List.length_pos_iff.mpr hne
  rcases encryptTurn_cases t s with ⟨s₁, heq, hcase⟩ | ⟨s₁, heq, -⟩ | ⟨s₁, heq, -⟩
  · obtain rfl : s₁ = s' := EncryptTurn.again.inj (heq.symm.trans h)
    rcases hcase with ⟨hn, hbuf⟩ | ⟨hn, rfl⟩
    · have hwaits : waits (t :: ts) = waits ts := by
        rw [waits, List.countP_cons_of_neg (by simpa using hn.le), waits]
      rw [hbuf, hwaits, List.length_drop]
      omega
    · have hwaits : waits (t :: ts) = waits ts + 1 := by
        rw [waits, List.countP_cons_of_pos (by simpa using hn), waits]
      rw [hwaits, ← Nat.add_assoc]
  · rw [h] at heq
    cases heq
  · rw [h] at heq
    cases heq

/-- What the loop does with a turn. -/
theorem encryptLoop_cons {ts : List Turn} {r : EncryptRun} (h : encryptLoop s (t :: ts) = some r) :
    (s.encryptBuf = [] ∧ r = .returns 0 s (t :: ts)) ∨
    (s.encryptBuf ≠ [] ∧ ∃ s', encryptTurn t s = .again s' ∧ encryptLoop s' ts = some r) ∨
    (∃ ret s', r = .returns ret s' ts ∧ (ret = 0 ∧ t.Stops ∨ ret = -1 ∧ t.Fails)) := by
  unfold encryptLoop at h
  split at h
  · next hnil =>
    cases h
    exact .inl ⟨hnil, rfl⟩
  · next hne =>
    split at h
    · cases h
    · rcases encryptTurn_cases t s with ⟨s', heq, -⟩ | ⟨s', heq, hstop⟩ | ⟨s', heq, hfail⟩
      · rw [heq] at h
        exact .inr (.inl ⟨hne, s', heq, h⟩)
      · rw [heq] at h
        cases h
        exact .inr (.inr ⟨0, s', rfl, .inl ⟨rfl, hstop⟩⟩)
      · rw [heq] at h
        cases h
        exact .inr (.inr ⟨-1, s', rfl, .inr ⟨rfl, hfail⟩⟩)

theorem encryptLoop_running {ts : List Turn} (h : encryptLoop s ts = some (.running s')) :
    s'.encryptBuf ≠ [] ∧ ts.length + s'.encryptBuf.length ≤ s.encryptBuf.length + waits ts := by
  induction ts generalizing s with
  | nil =>
    simp only [encryptLoop, Option.some.injEq] at h
    split at h
    · cases h
    · next hne =>
      cases h
      exact ⟨hne, by simp⟩
  | cons t ts ih =>
    rcases encryptLoop_cons h with ⟨-, hr⟩ | ⟨hne, s₁, hturn, hloop⟩ | ⟨_, _, hr, -⟩
    · cases hr
    · obtain ⟨hne', hlen⟩ := ih hloop
      have hturn := encryptTurn_again hne hturn ts
      refine ⟨hne', ?_⟩
      rw [List.length_cons]
      omega
    · cases hr

theorem encryptLoop_returns {ts rest : List Turn} {ret : Int}
    (h : encryptLoop s ts = some (.returns ret s' rest)) :
    ret = 0 ∧ s'.encryptBuf = [] ∨
      ∃ pre t, ts = pre ++ t :: rest ∧ (ret = 0 ∧ t.Stops ∨ ret = -1 ∧ t.Fails) := by
  induction ts generalizing s with
  | nil =>
    simp only [encryptLoop, Option.some.injEq] at h
    split at h
    · next hnil =>
      cases h
      exact .inl ⟨rfl, hnil⟩
    · cases h
  | cons t ts ih =>
    rcases encryptLoop_cons h with ⟨hnil, hr⟩ | ⟨-, s₁, -, hloop⟩ | ⟨_, _, hr, hlast⟩
    · cases hr
      exact .inl ⟨rfl, hnil⟩
    · rcases ih hloop with hdone | ⟨pre, u, rfl, hu⟩
      · exact .inl hdone
      · exact .inr ⟨t :: pre, u, rfl, hu⟩
    · cases hr
      exact .inr ⟨[], t, rfl, hlast⟩

end SslWriteLemmas

/-- The loop goes on for as many turns as there are bytes, and for those in which
`SSL_write` has taken nothing. When it ends without an error all of the plaintext has
been taken, or a call has returned 0; otherwise its last turn has failed. -/
theorem encryptLoop_ends {s : Session} {ts : List Turn} {r : EncryptRun}
    (h : encryptLoop s ts = some r) :
    (∀ s', r = .running s' → s'.encryptBuf ≠ [] ∧
      ts.length + s'.encryptBuf.length ≤ s.encryptBuf.length + waits ts) ∧
    ∀ ret s' rest, r = .returns ret s' rest →
      ret = 0 ∧ s'.encryptBuf = [] ∨
        ∃ pre t, ts = pre ++ t :: rest ∧ (ret = 0 ∧ t.Stops ∨ ret = -1 ∧ t.Fails) := by
  refine ⟨fun s' hr => ?_, fun ret s' rest hr => ?_⟩
  · subst hr
    exact encryptLoop_running h
  · subst hr
    exact encryptLoop_returns h

/-- Two bytes are taken, and then the peer has to answer first. -/
theorem encryptLoop_ends_wantRead :
    ∃ ts r, encryptLoop (Session.init.sendUnencryptedBytes (ascii "abc")) ts = some r ∧
      ts.length = 2 ∧
      (∀ s', r = .running s' → s'.encryptBuf ≠ [] ∧ ts.length + s'.encryptBuf.length ≤
        (Session.init.sendUnencryptedBytes (ascii "abc")).encryptBuf.length + waits ts) ∧
      ∀ ret s' rest, r = .returns ret s' rest →
        ret = 0 ∧ s'.encryptBuf = [] ∨
          ∃ pre t, ts = pre ++ t :: rest ∧ (ret = 0 ∧ t.Stops ∨ ret = -1 ∧ t.Fails) := by
  have hsome : (encryptLoop (Session.init.sendUnencryptedBytes (ascii "abc"))
      [⟨2, .none, ⟨[recordAb], -1, true, by decide⟩⟩,
        ⟨-1, .wantRead, ⟨[], 0, true, by decide⟩⟩]).isSome := by
    decide +kernel
  obtain ⟨r, hr⟩ := Option.isSome_iff_exists.mp hsome
  exact ⟨_, r, hr, rfl, encryptLoop_ends hr⟩

/-- While `SSL_write` waits for the peer the loop goes on with nothing changed, for any
number of turns. -/
theorem encryptLoop_spins {s : Session} (h : s.encryptBuf ≠ []) {ts : List Turn}
    (hts : ∀ t ∈ ts, t.n < 0 ∧ getSslstatus t.error = .wantIo) :
    encryptLoop s ts = some (.running s) := by
  induction ts with
  | nil => rw [encryptLoop, if_neg h]
  | cons t ts ih =>
    obtain ⟨⟨hn, hwant⟩, hts'⟩ := List.forall_mem_cons.mp hts
    have hturn : encryptTurn t s = .again s := by
      have hpos : ¬ 0 < t.n := by omega
      have h0 : t.n ≠ 0 := by omega
      simp [encryptTurn, hpos, h0, hwant]
    rw [encryptLoop, if_neg h, if_neg (by omega), hturn]
    exact ih hts'

end Ssl

end SundayServer
