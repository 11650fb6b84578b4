import SundayServer.Utils

/-!
# `SocketOperate::WriteSfd`

The loop that writes a buffer to a socket. Each call of `write` accepts some of
the bytes it is given or fails, and the loop goes on from the first byte that
has not been accepted. It gives up only on an error other than `EINTR` and
`EAGAIN`.

* `WriteCall`: one call, the range it passes and how it ended.
* `writeSfd`: the return value and the calls, for a sequence of results.
* `acceptedBytes`: what the socket has taken, call after call.

Result: `writeSfd_delivers`.
-/

namespace SundayServer

/-! ## Definitions -/

/-- How one call of `write` ends. -/
inductive WriteResult
  | accepted (len : Nat)
  | error (errno : Int)
deriving DecidableEq, Repr

def EINTR : Int := 4

def EAGAIN : Int := 11

/-- The call `write(sfd, buf + offset, count)`. -/
structure WriteCall where
  offset : Int
  count : Int
  result : WriteResult
deriving DecidableEq, Repr

/-- The loop of `WriteSfd`. It is `none` when the results end before the loop
does, or when a call accepts more bytes than it is given. -/
def writeLoop (bufLen : Int) : Int → List WriteResult → Option (Bool × List WriteCall)
  | writeLen, [] => if writeLen < bufLen then none else some (true, [])
  | writeLen, r :: rs =>
    if writeLen < bufLen then
      let call : WriteCall := ⟨writeLen, bufLen - writeLen, r⟩
      match r with
      | .error errno =>
        if errno = EINTR then (writeLoop bufLen writeLen rs).map fun p => (p.1, call :: p.2)
        else if errno = EAGAIN then (writeLoop bufLen writeLen rs).map fun p => (p.1, call :: p.2)
        else some (false, [call])
      | .accepted len =>
        if len ≤ bufLen - writeLen then
          (writeLoop bufLen (toInt (writeLen + len)) rs).map fun p => (p.1, call :: p.2)
        else none
    else some (true, [])

/-- `SocketOperate::WriteSfd`. -/
def writeSfd (bufLen : Int) (results : List WriteResult) : Option (Bool × List WriteCall) :=
  writeLoop bufLen 0 results

/-- The bytes that the socket takes from `buf` in one call. -/
def WriteCall.taken (buf : Bytes) (c : WriteCall) : Bytes :=
  match c.result with
  | .accepted len => (buf.drop c.offset.toNat).take len
  | .error _ => []

/-- The bytes that the socket takes, in order. -/
def acceptedBytes (buf : Bytes) (calls : List WriteCall) : Bytes := calls.flatMap (·.taken buf)

/-- The call passes some bytes, all of them in `buf[0..bufLen)`. -/
def WriteCall.InRange (bufLen : Int) (c : WriteCall) : Prop :=
  0 ≤ c.offset ∧ 0 < c.count ∧ c.offset + c.count ≤ bufLen

/-- The call failed with an error that the loop does not retry. -/
def WriteCall.Fatal (c : WriteCall) : Prop :=
  ∃ errno, c.result = .error errno ∧ errno ≠ EINTR ∧ errno ≠ EAGAIN

/-- What the loop does from `writeLen` on: all that is left of the buffer when
it returns true; a part of it, and a fatal error last, when it returns false. -/
structure Delivered (buf : Bytes) (bufLen writeLen : Int) (ret : Bool)
    (calls : List WriteCall) : Prop where
  all : ret = true →
    acceptedBytes buf calls = (buf.take bufLen.toNat).drop writeLen.toNat
  part : ret = false →
    acceptedBytes buf calls <+: (buf.take bufLen.toNat).drop writeLen.toNat ∧
    (acceptedBytes buf calls).length < ((buf.take bufLen.toNat).drop writeLen.toNat).length
  last : ret = false → ∃ c, calls.getLast? = some c ∧ c.Fatal
  in_range : ∀ c ∈ calls, c.InRange bufLen

/-! ## The loop -/

namespace Delivered

variable {buf : Bytes} {bufLen writeLen : Int} {ret : Bool} {calls : List WriteCall}

/-- The loop has reached the end of the buffer. -/
theorem finish (h : ¬ writeLen < bufLen) : Delivered buf bufLen writeLen true [] where
  all _ := by
    have hlen : (buf.take bufLen.toNat).length ≤ writeLen.toNat := by
      rw [List.length_take]
      omega
    rw [List.drop_of_length_le hlen]
    rfl
  part h := by cases h
  last h := by cases h
  in_range := by simp

/-- A fatal error. -/
theorem giveUp (h₀ : 0 ≤ writeLen) (hlt : writeLen < bufLen) (hbuf : bufLen ≤ buf.length)
    {errno : Int} (hintr : errno ≠ EINTR) (hagain : errno ≠ EAGAIN) :
    Delivered buf bufLen writeLen false [⟨writeLen, bufLen - writeLen, .error errno⟩] where
  all h := by cases h
  part _ := by
    have hnil : acceptedBytes buf [⟨writeLen, bufLen - writeLen, .error errno⟩] = [] := rfl
    rw [hnil]
    refine ⟨List.nil_prefix, ?_⟩
    rw [List.length_drop, List.length_take, List.length_nil]
    omega
  last _ := ⟨_, rfl, errno, rfl, hintr, hagain⟩
  in_range := by
    intro c hc
    obtain rfl := List.mem_singleton.mp hc
    exact ⟨h₀, Int.sub_pos.mpr hlt, by simp⟩

/-- What is left of the buffer, before and after `len` more bytes are accepted. -/
theorem left_cut (h₀ : 0 ≤ writeLen) {len : Nat} (hlen : len ≤ bufLen - writeLen) :
    (buf.take bufLen.toNat).drop writeLen.toNat =
      (buf.drop writeLen.toNat).take len ++
        (buf.take bufLen.toNat).drop (writeLen + len).toNat := by
  have hnat : (writeLen + len).toNat = writeLen.toNat + len := by omega
  have htake : (buf.drop writeLen.toNat).take len =
      ((buf.take bufLen.toNat).drop writeLen.toNat).take len := by
    rw [List.drop_take, List.take_take, Nat.min_eq_left (by omega)]
  rw [hnat, ← List.drop_drop, htake, List.take_append_drop]

/-- A call that accepts `len` bytes (none, when it is interrupted), and then the
rest of the loop. -/
theorem next (h₀ : 0 ≤ writeLen) (hlt : writeLen < bufLen) {r : WriteResult} {len : Nat}
    (htaken : WriteCall.taken buf ⟨writeLen, bufLen - writeLen, r⟩ =
      (buf.drop writeLen.toNat).take len)
    (hlen : len ≤ bufLen - writeLen) (h : Delivered buf bufLen (writeLen + len) ret calls) :
    Delivered buf bufLen writeLen ret (⟨writeLen, bufLen - writeLen, r⟩ :: calls) where
  all hret := by
    rw [left_cut h₀ hlen, ← h.all hret, ← htaken]
    rfl
  part hret := by
    obtain ⟨hpre, hlt'⟩ := h.part hret
    have hcons : acceptedBytes buf (⟨writeLen, bufLen - writeLen, r⟩ :: calls) =
        (buf.drop writeLen.toNat).take len ++ acceptedBytes buf calls := by
      rw [← htaken]
      rfl
    rw [hcons, left_cut h₀ hlen]
    refine ⟨(List.prefix_append_right_inj _).mpr hpre, ?_⟩
    rw [List.length_append, List.length_append]
    exact Nat.add_lt_add_left hlt' _
  last hret := by
    obtain ⟨c, hc, hfatal⟩ := h.last hret
    exact ⟨c, by rw [List.getLast?_cons, hc]; rfl, hfatal⟩
  in_range := by
    refine List.forall_mem_cons.mpr ⟨⟨h₀, Int.sub_pos.mpr hlt, ?_⟩, h.in_range⟩
    show writeLen + (bufLen - writeLen) ≤ bufLen
    omega

end Delivered

theorem writeLoop_delivered {buf : Bytes} {bufLen : Int} (hbuf : bufLen ≤ buf.length)
    (hint : bufLen < 2 ^ 31) {results : List WriteResult} {writeLen : Int} (h₀ : 0 ≤ writeLen)
    {ret : Bool} {calls : List WriteCall}
    (h : writeLoop bufLen writeLen results = some (ret, calls)) :
    Delivered buf bufLen writeLen ret calls := by
  induction results generalizing writeLen calls with
  | nil =>
    unfold writeLoop at h
    split at h
    · cases h
    · next hend =>
      cases h
      exact .finish hend
  | cons r rs ih =>
    unfold writeLoop at h
    split at h
    · next hlt =>
      -- an interrupted call is a call that accepts nothing
      have hretry : ∀ errno, (writeLoop bufLen writeLen rs).map
          (fun p => (p.1, (⟨writeLen, bufLen - writeLen, .error errno⟩ : WriteCall) :: p.2)) =
            some (ret, calls) → Delivered buf bufLen writeLen ret calls := by
        intro errno hmap
        obtain ⟨⟨ret', calls'⟩, hrest, hp⟩ := Option.map_eq_some_iff.mp hmap
        cases hp
        have hdel := ih h₀ hrest
        rw [← Int.add_zero writeLen] at hdel
        have hnothing : ((0 : Nat) : Int) ≤ bufLen - writeLen := by omega
        exact .next h₀ hlt rfl hnothing hdel
      cases r with
      | error errno =>
        simp only at h
        split at h
        · exact hretry errno h
        · next hintr =>
          split at h
          · exact hretry errno h
          · next hagain =>
            cases h
            exact .giveUp h₀ hlt hbuf hintr hagain
      | accepted len =>
        simp only at h
        split at h
        · next hlen =>
          obtain ⟨⟨ret', calls'⟩, hrest, hp⟩ := Option.map_eq_some_iff.mp h
          cases hp
          rw [toInt_of_range (by omega) (by omega)] at hrest
          exact .next h₀ hlt rfl hlen (ih (by omega) hrest)
        · cases h
    · next hend =>
      cases h
      exact .finish hend

/-! ## The call -/

/-- For every sequence of results on which `WriteSfd` returns: when it returns
true the socket has taken exactly `buf[0..bufLen)`; when it returns false a
strict prefix of it, and the last call failed for good. Every call passes a
range inside the buffer. -/
theorem writeSfd_delivers {buf : Bytes} {bufLen : Int} (hbuf : bufLen ≤ buf.length)
    (hint : bufLen < 2 ^ 31) {results : List WriteResult} {ret : Bool} {calls : List WriteCall}
    (h : writeSfd bufLen results = some (ret, calls)) :
    (ret = true → acceptedBytes buf calls = buf.take bufLen.toNat) ∧
    (ret = false →
      (∃ c, calls.getLast? = some c ∧ c.Fatal) ∧
      acceptedBytes buf calls <+: buf.take bufLen.toNat ∧
      acceptedBytes buf calls ≠ buf.take bufLen.toNat) ∧
    ∀ c ∈ calls, c.InRange bufLen := by
  have hdel : Delivered buf bufLen 0 ret calls :=
    writeLoop_delivered hbuf hint (Int.le_refl 0) h
  refine ⟨hdel.all, fun hret => ⟨hdel.last hret, ?_⟩, hdel.in_range⟩
  obtain ⟨hpre, hlt⟩ := hdel.part hret
  exact ⟨hpre, fun heq => Nat.ne_of_lt hlt (congrArg List.length heq)⟩

/-- A short write, a full socket buffer and the rest. -/
theorem writeSfd_delivers_shortWrite :
    writeSfd 5 [.accepted 2, .error EAGAIN, .accepted 3] =
      some (true, [⟨0, 5, .accepted 2⟩, ⟨2, 3, .error EAGAIN⟩, ⟨2, 3, .accepted 3⟩]) ∧
    acceptedBytes (ascii "f0:ok") [⟨0, 5, .accepted 2⟩, ⟨2, 3, .error EAGAIN⟩,
      ⟨2, 3, .accepted 3⟩] = ascii "f0:ok" := by
  have hrun : writeSfd 5 [.accepted 2, .error EAGAIN, .accepted 3] =
      some (true, [⟨0, 5, .accepted 2⟩, ⟨2, 3, .error EAGAIN⟩, ⟨2, 3, .accepted 3⟩]) := by
    decide
  exact ⟨hrun, (@writeSfd_delivers (ascii "f0:ok") 5 (by decide) (by decide) _ _ _ hrun).1 rfl⟩

end SundayServer
