import SundayServer.Utils

/-!
# The read path of `ssl.cpp`

`on_read_cb` feeds the encrypted bytes to the input BIO and takes the plaintext
out with `SSL_read`, at most `DEFAULT_BUF_SIZE` bytes a call.
`print_unencrypted_data` copies each chunk to the front of the caller's buffer and
sets its length, where `queue_encrypted_bytes` appends.

The calls of OpenSSL are answered by a list, in the order of the calls; a list
with an answer that does not fit its call belongs to no run.

* `Answer`: what one call of OpenSSL returns.
* `readLoop`, `drainLoop`: the two inner loops.
* `onReadCb`: the function.
* `chunksOf`: the plaintext that the calls of `SSL_read` have yielded.

Results:
1. `onReadCb_holds`: the caller's buffer holds the last chunk.
2. `plaintext_iff`: when it holds all of them. `onReadLoop_fuel`: the outer loop
   ends.
-/

namespace SundayServer

namespace Ssl

/-! ## Definitions -/

/-- `#define DEFAULT_BUF_SIZE 1024`. -/
def DEFAULT_BUF_SIZE : Nat := 1024

/-- The bytes that one call puts into `buf[DEFAULT_BUF_SIZE]`. -/
abbrev Chunk := { b : Bytes // 0 < b.length ∧ b.length ≤ DEFAULT_BUF_SIZE }

/-- A buffer of the caller that has room for a chunk. -/
abbrev OutBuf := { b : Bytes // DEFAULT_BUF_SIZE ≤ b.length }

/-- What `SSL_read` and `BIO_read` return. -/
inductive ReadReturn
  | bytes (c : Chunk)
  /-- A value that is not positive; it only goes to `SSL_get_error`. -/
  | failed
deriving DecidableEq

/-- What `SSL_get_error` returns. -/
inductive SslError
  | none
  | wantWrite
  | wantRead
  | zeroReturn
  | syscall
  | other
deriving DecidableEq, Repr

/-- `enum sslstatus`. -/
inductive SslStatus
  | ok
  | wantIo
  | fail
deriving DecidableEq, Repr

/-- What one call of OpenSSL returns. -/
inductive Answer
  | bioWrite (n : Int)
  | isInitFinished (finished : Bool)
  | doHandshake
  | getError (e : SslError)
  | sslRead (r : ReadReturn)
  | bioRead (r : ReadReturn)
  | bioShouldRetry (retry : Bool)
deriving DecidableEq

/-- The caller's buffer and the length of what is in it, and `client.write_buf`. -/
structure ReadState where
  bufout : OutBuf
  lenout : Nat
  writeBuf : Bytes
  lenout_le : lenout ≤ bufout.val.length
deriving DecidableEq

/-- A call of `on_read_cb`, as `do_sock_read` makes it. -/
def ReadState.start (bufout : OutBuf) (writeBuf : Bytes) : ReadState :=
  ⟨bufout, 0, writeBuf, Nat.zero_le _⟩

/-- `bufout[0..lenout)`. -/
def ReadState.output (s : ReadState) : Bytes := s.bufout.val.take s.lenout

/-- `get_sslstatus`. -/
def getSslstatus : SslError → SslStatus
  | .none => .ok
  | .wantWrite | .wantRead => .wantIo
  | .zeroReturn | .syscall | .other => .fail

/-- `print_unencrypted_data`. -/
def printUnencryptedData (buf : Chunk) (s : ReadState) : ReadState where
  bufout := ⟨buf.val ++ s.bufout.val.drop buf.val.length, by
    rw [List.length_append, List.length_drop]
    exact s.bufout.property.trans (by omega)⟩
  lenout := buf.val.length
  writeBuf := s.writeBuf
  lenout_le := by simp

/-- `queue_encrypted_bytes`. -/
def queueEncryptedBytes (buf : Chunk) (s : ReadState) : ReadState :=
  { s with writeBuf := s.writeBuf ++ buf.val }

/-- `do { n = SSL_read(..); .. } while (n > 0)`. -/
def readLoop (s : ReadState) : List Answer → Option (ReadState × List Answer)
  | .sslRead (.bytes c) :: as => readLoop (printUnencryptedData c s) as
  | .sslRead .failed :: as => some (s, as)
  | _ => none

/-- `do { n = BIO_read(..); .. } while (n > 0)`; false when it returns early. -/
def drainLoop (s : ReadState) : List Answer → Option (ReadState × Bool × List Answer)
  | .bioRead (.bytes c) :: as => drainLoop (queueEncryptedBytes c s) as
  | .bioRead .failed :: .bioShouldRetry retry :: as => some (s, retry, as)
  | _ => none

/-- `do_ssl_handshake`. -/
def doSslHandshake (s : ReadState) : List Answer → Option (ReadState × SslStatus × List Answer)
  | .doHandshake :: .getError e :: as =>
    if getSslstatus e = .wantIo then
      (drainLoop s as).map fun p => (p.1, if p.2.1 then .wantIo else .fail, p.2.2)
    else some (s, getSslstatus e, as)
  | _ => none

/-- How a part of the loop body ends, and the answers that are left. -/
inductive Pass
  | goOn (s : ReadState) (rest : List Answer)
  | returns (ret : Int) (s : ReadState) (rest : List Answer)
deriving DecidableEq

def Pass.state : Pass → ReadState
  | goOn s _ | returns _ s _ => s

def Pass.rest : Pass → List Answer
  | goOn _ rest | returns _ _ rest => rest

/-- What comes next, unless the function has returned. -/
def Pass.andThen (p : Option Pass) (k : ReadState → List Answer → Option Pass) : Option Pass :=
  p.bind fun
    | .goOn s rest => k s rest
    | .returns ret s rest => some (.returns ret s rest)

/-- The part that finishes the handshake. -/
def finishHandshake (s : ReadState) : List Answer → Option Pass
  | .isInitFinished true :: as => some (.goOn s as)
  | .isInitFinished false :: as =>
    (doSslHandshake s as).bind fun
      | (s, .fail, as) => some (.returns (-1) s as)
      | (s, _, .isInitFinished finished :: as) =>
        -- what is left of `src` is not written then
        if finished then some (.goOn s as) else some (.returns 0 s as)
      | _ => none
  | _ => none

/-- The part that reads the plaintext. -/
def readPlaintext (s : ReadState) (as : List Answer) : Option Pass :=
  (readLoop s as).bind fun
    | (s, .getError e :: as) =>
      match getSslstatus e with
      | .ok => some (.goOn s as)
      | .wantIo => (drainLoop s as).map fun p =>
          if p.2.1 then .goOn p.1 p.2.2 else .returns (-1) p.1 p.2.2
      | .fail => some (.returns (-1) s as)
    | _ => none

/-- `while (len > 0)`. `BIO_write` takes no more than it is given. -/
def onReadLoop : Nat → Nat → ReadState → List Answer → Option Pass
  | 0, _, _, _ => none
  | fuel + 1, len, s, as =>
    if len = 0 then some (.returns 0 s as)
    else
      match as with
      | .bioWrite n :: as =>
        if n ≤ 0 then some (.returns (-1) s as)
        -- not an answer of `BIO_write`
        else if len < n then none
        else Pass.andThen (Pass.andThen (finishHandshake s as) readPlaintext)
          (onReadLoop fuel (len - n).toNat)
      | _ => none

/-- `on_read_cb` on `len` bytes. -/
def onReadCb (len : Nat) (s : ReadState) (as : List Answer) : Option Pass :=
  onReadLoop (len + 1) len s as

/-- The chunks that the calls of `SSL_read` yield. -/
def chunksOf (as : List Answer) : List Bytes :=
  as.filterMap fun
    | .sslRead (.bytes c) => some c.val
    | _ => none

/-- `bufout[0..lenout)` is the last of these chunks; nothing, when there is none. -/
def ReadState.Holds (s : ReadState) (chunks : List Bytes) : Prop :=
  s.output = chunks.getLast?.getD []

/-- A part of the run from the answers `as` on: with the chunks that it has read
the buffer holds the last of all chunks. -/
def Pass.Holds (as : List Answer) (past : List Bytes) (p : Pass) : Prop :=
  ∃ chunks, chunksOf as = chunks ++ chunksOf p.rest ∧ p.state.Holds (past ++ chunks)

/-! ## 1. What the buffer holds -/

namespace SslReadLemmas

@[simp] theorem output_print (c : Chunk) (s : ReadState) :
    (printUnencryptedData c s).output = c.val := List.take_left

theorem output_length (s : ReadState) : s.output.length = s.lenout := by
  rw [ReadState.output, List.length_take, Nat.min_eq_left s.lenout_le]

theorem holds_print (c : Chunk) (s : ReadState) (past : List Bytes) :
    (printUnencryptedData c s).Holds (past ++ [c.val]) := by
  simp [ReadState.Holds]

theorem readLoop_holds {s s' : ReadState} {as rest : List Answer} {past : List Bytes}
    (hs : s.Holds past) (h : readLoop s as = some (s', rest)) :
    ∃ chunks, chunksOf as = chunks ++ chunksOf rest ∧ s'.Holds (past ++ chunks) := by
  fun_induction readLoop s as generalizing past with
  | case1 s c as ih =>
    obtain ⟨chunks, hchunks, hlast⟩ := ih (holds_print c s past) h
    refine ⟨c.val :: chunks, ?_, by simpa using hlast⟩
    simpa [chunksOf] using hchunks
  | case2 s as =>
    cases h
    exact ⟨[], rfl, by simpa using hs⟩
  | case3 => cases h

/-- The drain of the output BIO leaves the buffer alone. -/
theorem drainLoop_output {s s' : ReadState} {as rest : List Answer} {ok : Bool}
    (h : drainLoop s as = some (s', ok, rest)) :
    chunksOf as = chunksOf rest ∧ s'.output = s.output := by
  fun_induction drainLoop s as with
  | case1 s c as ih =>
    obtain ⟨hchunks, hout⟩ := ih h
    exact ⟨by simpa [chunksOf] using hchunks, hout⟩
  | case2 s retry as =>
    cases h
    exact ⟨rfl, rfl⟩
  | case3 => cases h

theorem doSslHandshake_output {s s' : ReadState} {as rest : List Answer} {status : SslStatus}
    (h : doSslHandshake s as = some (s', status, rest)) :
    chunksOf as = chunksOf rest ∧ s'.output = s.output := by
  unfold doSslHandshake at h
  split at h
  · split at h
    · obtain ⟨⟨t, ok, rest'⟩, hdrain, hp⟩ := Option.map_eq_some_iff.mp h
      cases hp
      have hsame := drainLoop_output hdrain
      exact hsame
    · cases h
      exact ⟨rfl, rfl⟩
  · cases h

/-- Parts that read nothing. -/
theorem holds_of_output {s s' : ReadState} {as rest : List Answer} {past : List Bytes}
    (hs : s.Holds past) (h : chunksOf as = chunksOf rest ∧ s'.output = s.output) :
    ∃ chunks, chunksOf as = chunks ++ chunksOf rest ∧ s'.Holds (past ++ chunks) :=
  ⟨[], h.1, by rw [List.append_nil, ReadState.Holds, h.2, hs]⟩

theorem finishHandshake_holds {s : ReadState} {as : List Answer} {past : List Bytes} {p : Pass}
    (hs : s.Holds past) (h : finishHandshake s as = some p) : p.Holds as past := by
  unfold finishHandshake at h
  split at h
  · cases h
    exact holds_of_output hs ⟨rfl, rfl⟩
  · obtain ⟨⟨t, status, rest⟩, hshake, h⟩ := Option.bind_eq_some_iff.mp h
    have hsame := doSslHandshake_output hshake
    split at h
    · next heq =>
      cases heq
      cases h
      exact holds_of_output hs hsame
    · next heq =>
      cases heq
      split at h <;> cases h <;> exact holds_of_output hs hsame
    · cases h
  · cases h

theorem readPlaintext_holds {s : ReadState} {as : List Answer} {past : List Bytes} {p : Pass}
    (hs : s.Holds past) (h : readPlaintext s as = some p) : p.Holds as past := by
  obtain ⟨⟨t, rest⟩, hread, h⟩ := Option.bind_eq_some_iff.mp h
  have hlast := readLoop_holds hs hread
  split at h
  · next heq =>
    cases heq
    split at h
    · cases h
      exact hlast
    · obtain ⟨⟨u, ok, rest'⟩, hdrain, rfl⟩ := Option.map_eq_some_iff.mp h
      obtain ⟨chunks, hchunks, ht⟩ := hlast
      obtain ⟨hrest, hout⟩ := drainLoop_output hdrain
      have hu : u.Holds (past ++ chunks) := hout.trans ht
      have hall : chunksOf as = chunks ++ chunksOf rest' := by
        rw [hchunks, ← hrest]
        rfl
      cases ok with
      | true => exact ⟨chunks, hall, hu⟩
      | false => exact ⟨chunks, hall, hu⟩
    · cases h
      exact hlast
  · cases h

/-- One part after the other. -/
theorem andThen_holds {o : Option Pass} {k : ReadState → List Answer → Option Pass}
    {as : List Answer} {past : List Bytes} (ho : ∀ p, o = some p → p.Holds as past)
    (hk : ∀ (s : ReadState) (rest : List Answer) (all : List Bytes) (q : Pass), s.Holds all →
      k s rest = some q → q.Holds rest all)
    {q : Pass} (h : Pass.andThen o k = some q) : q.Holds as past := by
  obtain ⟨p, hp, h⟩ := Option.bind_eq_some_iff.mp h
  have hfirst := ho p hp
  split at h
  · next s rest =>
    obtain ⟨chunks, hchunks, hs⟩ := hfirst
    obtain ⟨chunks', hchunks', ht⟩ := hk s rest _ q hs h
    have hall : chunksOf as = chunks ++ chunks' ++ chunksOf q.rest := by
      rw [hchunks, List.append_assoc, ← hchunks']
      rfl
    refine ⟨chunks ++ chunks', hall, ?_⟩
    rwa [← List.append_assoc]
  · cases h
    exact hfirst

theorem onReadLoop_holds {fuel len : Nat} {s : ReadState} {as : List Answer} {past : List Bytes}
    {p : Pass} (hs : s.Holds past) (h : onReadLoop fuel len s as = some p) : p.Holds as past := by
  induction fuel generalizing len s as past p with
  | zero => cases h
  | succ fuel ih =>
    unfold onReadLoop at h
    split at h
    · cases h
      exact holds_of_output hs ⟨rfl, rfl⟩
    · split at h
      · next n as =>
        split at h
        · cases h
          exact holds_of_output hs ⟨rfl, rfl⟩
        · split at h
          · cases h
          · have hbody : ∀ q, Pass.andThen (finishHandshake s as) readPlaintext = some q →
                q.Holds as past := fun q hq =>
              andThen_holds (fun r hr => finishHandshake_holds hs hr)
                (fun _ _ _ _ ht hr => readPlaintext_holds ht hr) hq
            have hrest : p.Holds as past := andThen_holds hbody (fun _ _ _ _ ht hr => ih ht hr) h
            exact hrest
      · cases h

end SslReadLemmas

open SslReadLemmas

/-- After a run the buffer holds the last chunk that it has read. -/
theorem onReadCb_holds {len : Nat} {bufout : OutBuf} {writeBuf : Bytes} {as : List Answer}
    {ret : Int} {s : ReadState}
    (h : onReadCb len (.start bufout writeBuf) as = some (.returns ret s [])) :
    s.Holds (chunksOf as) := by
  have hstart : (ReadState.start bufout writeBuf).Holds [] := List.take_zero
  obtain ⟨chunks, hchunks, hs⟩ := onReadLoop_holds hstart h
  have hall : chunksOf as = chunks := hchunks.trans (List.append_nil chunks)
  rw [hall]
  exact hs

/-! ## 2. When nothing is lost -/

namespace SslReadLemmas

theorem chunksOf_ne_nil {as : List Answer} {c : Bytes} (h : c ∈ chunksOf as) : c ≠ [] := by
  obtain ⟨a, -, ha⟩ := List.mem_filterMap.mp h
  split at ha
  · next chunk =>
    cases ha
    exact List.length_pos_iff.mp chunk.property.1
  · cases ha

/-- The last of some chunks is all of them only when there is one at most. -/
theorem last_eq_flatten_iff {cs : List Bytes} (h : ∀ c ∈ cs, c ≠ []) :
    cs.getLast?.getD [] = cs.flatten ↔ cs.length ≤ 1 := by
  rcases List.eq_nil_or_concat' cs with rfl | ⟨init, c, rfl⟩
  · simp
  · have hinit : init.flatten = [] ↔ init = [] := by
      -- no chunk is empty, so the ones before the last are lost unless there are none
      refine ⟨fun hnil => List.eq_nil_iff_forall_not_mem.mpr fun d hd => ?_, fun hnil => by
        rw [hnil, List.flatten_nil]⟩
      exact h d (List.mem_append_left _ hd) (List.flatten_eq_nil_iff.mp hnil d hd)
    have hlast : c = init.flatten ++ c ↔ init.flatten = [] := by
      rw [List.self_eq_append_left]
    simp [hlast, hinit]

end SslReadLemmas

/-- `BIO_write` has taken a byte at least, so the loop makes one pass for a byte at
most: the fuel is enough. -/
theorem onReadLoop_fuel {fuel fuel' len : Nat} (h : len < fuel) (h' : len < fuel')
    (s : ReadState) (as : List Answer) :
    onReadLoop fuel len s as = onReadLoop fuel' len s as := by
  induction fuel generalizing fuel' len s as with
  | zero => exact absurd h (Nat.not_lt_zero _)
  | succ fuel ih =>
    cases fuel' with
    | zero => exact absurd h' (Nat.not_lt_zero _)
    | succ fuel' =>
      unfold onReadLoop
      split
      · rfl
      · split
        · next n as =>
          split
          · rfl
          · split
            · rfl
            · next hn hle =>
              have hloop : onReadLoop fuel (len - n).toNat = onReadLoop fuel' (len - n).toNat := by
                funext t rest
                exact ih (by omega) (by omega) t rest
              rw [hloop]
        · rfl

/-- For every run that returns 0, with any answers of OpenSSL: the buffer holds all
of the plaintext exactly when one call of `SSL_read` at most has yielded some. -/
theorem plaintext_iff {len : Nat} {bufout : OutBuf} {writeBuf : Bytes} {as : List Answer}
    {s : ReadState} (h : onReadCb len (.start bufout writeBuf) as = some (.returns 0 s [])) :
    (s.output = (chunksOf as).flatten ∧ s.lenout = (chunksOf as).flatten.length) ↔
      (chunksOf as).length ≤ 1 := by
  rw [← last_eq_flatten_iff fun c => chunksOf_ne_nil, ← onReadCb_holds h]
  refine ⟨And.left, fun hall => ⟨hall, ?_⟩⟩
  rw [← hall, output_length]

/-- The buffer of `do_sock_read`. -/
def tmpbuf : OutBuf := ⟨List.replicate DEFAULT_BUF_SIZE 0, by simp⟩

/-- One pass of the loop on a connection whose handshake is over: `SSL_read` yields
these chunks and then asks for more input. -/
def passAnswers (n : Int) (chunks : List Chunk) : List Answer :=
  [.bioWrite n, .isInitFinished true] ++ chunks.map (fun c => .sslRead (.bytes c)) ++
    [.sslRead .failed, .getError .wantRead, .bioRead .failed, .bioShouldRetry true]

/-- Two records. -/
def recordAb : Chunk := ⟨ascii "ab", by decide +kernel⟩

def recordC : Chunk := ⟨ascii "c", by decide +kernel⟩

/-- A record whose bytes come in two segments. -/
theorem plaintext_iff_oneRecord :
    ∃ s, onReadCb 7 (.start tmpbuf []) (passAnswers 3 [] ++ passAnswers 4 [recordAb]) =
        some (.returns 0 s []) ∧
      ((s.output = (chunksOf (passAnswers 3 [] ++ passAnswers 4 [recordAb])).flatten ∧
        s.lenout = (chunksOf (passAnswers 3 [] ++ passAnswers 4 [recordAb])).flatten.length) ↔
      (chunksOf (passAnswers 3 [] ++ passAnswers 4 [recordAb])).length ≤ 1) := by
  have hrun : onReadCb 7 (.start tmpbuf []) (passAnswers 3 [] ++ passAnswers 4 [recordAb]) =
      some (.returns 0 (printUnencryptedData recordAb (.start tmpbuf [])) []) := by decide +kernel
  exact ⟨_, hrun, plaintext_iff hrun⟩

/-- Two records in one segment: the first is lost. -/
theorem first_record_lost :
    ∃ s, onReadCb 7 (.start tmpbuf []) (passAnswers 7 [recordAb, recordC]) =
        some (.returns 0 s []) ∧
      s.output = ascii "c" ∧ s.lenout = 1 ∧
      (chunksOf (passAnswers 7 [recordAb, recordC])).flatten = ascii "abc" ∧
      ¬ s.output = (chunksOf (passAnswers 7 [recordAb, recordC])).flatten := by
  refine ⟨printUnencryptedData recordC (printUnencryptedData recordAb (.start tmpbuf [])), ?_⟩
  decide +kernel

end Ssl

end SundayServer
