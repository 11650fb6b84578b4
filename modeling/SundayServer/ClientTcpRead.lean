import SundayServer.Lib.Machine
import SundayServer.Utils
import Mathlib.Data.List.DropRight

/-!
# `ClientTcpReadCb`

The read callback that keeps what it has not consumed in the record of the
connection: it appends what `bufferevent_read` delivers to `rBuf`, tests and
removes the token, echoes the messages that are complete and moves the rest to
the front.

The split looks for the two bytes CRLF, while `find_last_of` finds the last byte
that is either of them; and messages are looked for in a buffer that is still
too short for the token.

* `RBuf`, `readAt`, `writeAt`, `memmove`: the array and the ranges touched in it.
* `clientTcpReadCb`: the callback.
* `Echoes`: what has been echoed and kept after some received bytes.
* `Consumed`: the chunks that the two searches agree on.

Results:
1. `clientTcpReadCb_inBounds`: no callback leaves the array.
   `clientTcpReadCb_cases`: one callback, on what the buffer holds.
2. `echoes_iff`: all chunks of a run.
-/

namespace SundayServer

/-! ## Definitions -/

/-- `#define DATA_BUFFER_SIZE 2048`. -/
def DATA_BUFFER_SIZE : Nat := 2048

/-- An array of `DATA_BUFFER_SIZE` bytes. -/
abbrev RBuf := { b : Bytes // b.length = DATA_BUFFER_SIZE }

/-- The range of `n` bytes from `off` on lies in the array. -/
def InArray (off n : Int) : Prop := 0 ≤ off ∧ 0 ≤ n ∧ off + n ≤ DATA_BUFFER_SIZE

instance (off n : Int) : Decidable (InArray off n) := inferInstanceAs (Decidable (_ ∧ _ ∧ _))

/-- The string made from a range; `none` when the range leaves the array. -/
def readAt (b : RBuf) (off n : Int) : Option Bytes :=
  if InArray off n then some ((b.val.drop off.toNat).take n.toNat) else none

/-- Bytes stored from `off` on. -/
def writeAt (b : RBuf) (off : Int) (data : Bytes) : Option RBuf :=
  if h : InArray off data.length then
    some ⟨b.val.take off.toNat ++ data ++ b.val.drop (off.toNat + data.length), by
      obtain ⟨h₁, -, h₃⟩ := h
      simp only [List.length_append, List.length_take, List.length_drop, b.property]
      omega⟩
  else none

/-- `memmove(b, b + src, n)`. -/
def memmove (b : RBuf) (src n : Int) : Option RBuf :=
  (readAt b src n).bind (writeAt b 0)

/-- `find_last_of`: the position of the last byte that is one of `set`. -/
def findLastOf (set : Bytes) : Bytes → Option Nat
  | [] => none
  | b :: s =>
    match findLastOf set s with
    | some i => some (i + 1)
    | none => if b ∈ set then some 0 else none

/-- The fields of a connection that the callback uses, and what it has echoed. -/
structure ReadConn where
  rBuf : RBuf
  rlen : Int
  isVerify : Bool
  closed : Bool
  echoed : List Bytes
deriving DecidableEq

namespace ReadConn

/-- A new connection; the array holds anything. -/
def start (mem : RBuf) : ReadConn := ⟨mem, 0, false, false, []⟩

/-- `bufferevent_read` has delivered a chunk. -/
def receive (s : ReadConn) (chunk : Bytes) : Option ReadConn :=
  (writeAt s.rBuf s.rlen chunk).map fun rBuf => { s with rBuf, rlen := s.rlen + chunk.length }

/-- The token test. -/
def verifyToken (s : ReadConn) : Option ReadConn :=
  if TOKEN_LENGTH ≤ s.rlen ∧ s.isVerify = false then
    (readAt s.rBuf 0 TOKEN_LENGTH).bind fun strVerify =>
      if strVerify ≠ TOKEN_STR then some { s with isVerify := true, closed := true }
      else
        let rlen := s.rlen - TOKEN_LENGTH
        (memmove s.rBuf TOKEN_LENGTH rlen).map fun rBuf =>
          { s with isVerify := true, rBuf, rlen }
  else some s

/-- The echo of the messages in the buffer. -/
def echoMessages (s : ReadConn) : Option ReadConn :=
  (readAt s.rBuf 0 s.rlen).bind fun strRecv =>
    if findCRLF strRecv then
      let len : Int := match findLastOf CRLF strRecv with
        | some i => i + 1
        | none => 0
      (memmove s.rBuf len (DATA_BUFFER_SIZE - len)).map fun rBuf =>
        { s with rBuf, rlen := s.rlen - len, echoed := s.echoed ++ splitData strRecv CRLF [] }
    else some s

/-- `ClientTcpReadCb`, when `bufferevent_read` delivers this chunk. -/
def clientTcpReadCb (s : ReadConn) (chunk : Bytes) : Option ReadConn :=
  if s.closed = false ∧ chunk.length ≤ DATA_BUFFER_SIZE - s.rlen then
    if 0 < chunk.length then
      ((s.receive chunk).bind verifyToken).bind fun s =>
        if s.closed then some s else s.echoMessages
    else s.echoMessages
  else none

/-- The bytes `rBuf[0..rlen)`. -/
def buffered (s : ReadConn) : Bytes := s.rBuf.val.take s.rlen.toNat

/-- What the callbacks should have done after the bytes `received`: echoed nothing
before the token; closed the connection when it is not the token; else echoed
the messages after it, and kept what follows the last of them. -/
def Echoes (received : Bytes) (s : ReadConn) : Prop :=
  if received.length < TOKEN_LENGTH then s.echoed = []
  else if received.take TOKEN_LENGTH ≠ TOKEN_STR then s.closed = true ∧ s.echoed = []
  else s.closed = false ∧ Split.Splits CRLF (received.drop TOKEN_LENGTH) s.echoed s.buffered

/-- The last CR or LF of a text that has a CRLF belongs to one. -/
def EndsClean (text : Bytes) : Prop :=
  findCRLF text → CRLF <:+ text.rdropWhile (· ∉ CRLF)

instance (text : Bytes) : Decidable (EndsClean text) :=
  inferInstanceAs (Decidable (_ → _ <:+ _))

/-- A chunk on which the search for messages and `find_last_of` agree, and which
completes no message before the token. -/
def Consumed (s : ReadConn) (chunk : Bytes) : Prop :=
  let text := s.buffered ++ chunk
  if s.isVerify then EndsClean text
  else if text.length < TOKEN_LENGTH then ¬ findCRLF text
  else text.take TOKEN_LENGTH = TOKEN_STR → EndsClean (text.drop TOKEN_LENGTH)

instance (s : ReadConn) (chunk : Bytes) : Decidable (s.Consumed chunk) := by
  unfold Consumed
  infer_instance

/-- `0 <= rlen <= DATA_BUFFER_SIZE`. -/
def InBounds (s : ReadConn) : Prop := 0 ≤ s.rlen ∧ s.rlen ≤ DATA_BUFFER_SIZE

end ReadConn

/-! ## The array -/

namespace ClientTcpReadLemmas

theorem readAt_front (b : RBuf) {n : Int} (h₀ : 0 ≤ n) (h : n ≤ DATA_BUFFER_SIZE) :
    readAt b 0 n = some (b.val.take n.toNat) := by
  rw [readAt, if_pos ⟨Int.le_refl 0, h₀, by omega⟩]
  rfl

theorem writeAt_spec (b : RBuf) {off : Int} {data : Bytes} (h₀ : 0 ≤ off)
    (h : off + data.length ≤ DATA_BUFFER_SIZE) :
    ∃ b', writeAt b off data = some b' ∧
      b'.val.take (off.toNat + data.length) = b.val.take off.toNat ++ data := by
  rw [writeAt, dif_pos ⟨h₀, by omega, h⟩]
  refine ⟨_, rfl, ?_⟩
  have hlen : (b.val.take off.toNat).length = off.toNat := by
    rw [List.length_take, b.property]
    omega
  show (b.val.take off.toNat ++ data ++ b.val.drop _).take _ = _
  exact List.take_left' (by rw [List.length_append, hlen])

/-- What is moved to the front. -/
theorem memmove_spec (b : RBuf) {src n : Int} (h₀ : 0 ≤ src) (hn : 0 ≤ n)
    (h : src + n ≤ DATA_BUFFER_SIZE) :
    ∃ b', memmove b src n = some b' ∧
      b'.val.take n.toNat = (b.val.drop src.toNat).take n.toNat := by
  have hlen : ((b.val.drop src.toNat).take n.toNat).length = n.toNat := by
    rw [List.length_take, List.length_drop, b.property]
    omega
  obtain ⟨b', hb', htake⟩ := @writeAt_spec b 0 ((b.val.drop src.toNat).take n.toNat)
    (Int.le_refl 0) (by rw [hlen]; omega)
  refine ⟨b', ?_, ?_⟩
  · rw [memmove, readAt, if_pos ⟨h₀, hn, h⟩, Option.bind_some, hb']
  · simpa [hlen] using htake

theorem rtakeWhile_tail {p : UInt8 → Bool} {u v : Bytes} {c : UInt8} (hc : p c = false)
    (hv : ∀ b ∈ v, p b) : (u ++ c :: v).rtakeWhile p = v := by
  unfold List.rtakeWhile
  rw [List.reverse_append, List.reverse_cons, List.append_assoc,
    List.takeWhile_append_of_pos (by simpa using hv)]
  simp [hc]

theorem findLastOf_eq_none {set s : Bytes} (h : findLastOf set s = none) : ∀ b ∈ s, b ∉ set := by
  induction s with
  | nil => simp
  | cons b s ih =>
    unfold findLastOf at h
    split at h
    · cases h
    · next hs =>
      split at h
      · cases h
      · next hb => exact List.forall_mem_cons.mpr ⟨hb, ih hs⟩

/-- What follows the last byte of the set. -/
theorem drop_findLastOf {set s : Bytes} {i : Nat} (h : findLastOf set s = some i) :
    i < s.length ∧ s.drop (i + 1) = s.rtakeWhile (· ∉ set) := by
  have hcut : i < s.length ∧ (∀ b ∈ s.drop (i + 1), b ∉ set) ∧ ∃ b ∈ set, s[i]? = some b := by
    induction s generalizing i with
    | nil => cases h
    | cons b s ih =>
      unfold findLastOf at h
      split at h
      · next j hj =>
        cases h
        obtain ⟨hlt, hall, c, hc, hget⟩ := ih hj
        exact ⟨by simpa using hlt, by simpa using hall, c, hc, by simpa using hget⟩
      · next hs =>
        split at h
        · next hb =>
          cases h
          exact ⟨by simp, by simpa using findLastOf_eq_none hs, b, hb, rfl⟩
        · cases h
  obtain ⟨hlt, hall, c, hc, hget⟩ := hcut
  refine ⟨hlt, ?_⟩
  have hs : s = s.take i ++ c :: s.drop (i + 1) := by
    obtain ⟨_, rfl⟩ := List.getElem?_eq_some_iff.mp hget
    rw [← List.drop_eq_getElem_cons, List.take_append_drop]
  conv_rhs => rw [hs]
  exact (rtakeWhile_tail (by simpa using hc) (by simpa using hall)).symm

/-- A text that has a CRLF has a last CR or LF. -/
theorem findLastOf_isSome {s : Bytes} (h : findCRLF s) : (findLastOf CRLF s).isSome := by
  cases hl : findLastOf CRLF s with
  | some i => rfl
  | none =>
    have hmem : 0x0d ∈ s := (findCRLF_iff.mp h).subset (by decide)
    exact absurd (by decide) (findLastOf_eq_none hl _ hmem)

/-- What follows the last CR or LF is the remainder of the split exactly when
that byte ends a CRLF. -/
theorem rest_iff_endsClean {s r : Bytes} {ts : List Bytes} (h : Split.Splits CRLF s ts r)
    (hs : findCRLF s) : s.rtakeWhile (· ∉ CRLF) = r ↔ CRLF <:+ s.rdropWhile (· ∉ CRLF) := by
  have hcut := List.rdropWhile_append_rtakeWhile (p := fun b => decide (b ∉ CRLF)) (l := s)
  constructor
  · intro hr
    rw [hr] at hcut
    have hjoin := h.join
    rw [← hcut] at hjoin
    have hts : (ts.map (· ++ CRLF)).flatten = s.rdropWhile (· ∉ CRLF) :=
      List.append_cancel_right hjoin
    rw [← hts]
    rcases List.eq_nil_or_concat' ts with rfl | ⟨init, t, rfl⟩
    · cases h with
      | rest hn => exact absurd (findCRLF_iff.mp hs) hn
    · rw [List.map_append, List.flatten_append, List.map_singleton, List.flatten_singleton]
      exact (List.suffix_append t CRLF).trans (List.suffix_append _ _)
  · intro hend
    obtain ⟨us, r', -, hsplit⟩ := splitData_splits CRLF_ne_nil (s.rdropWhile (· ∉ CRLF)) []
    obtain rfl : r' = [] := hsplit.rest_nil crlf_borderless hend
    have hrest : ¬ CRLF <:+: s.rtakeWhile (· ∉ CRLF) := by
      intro hin
      have hmem : 0x0d ∈ s.rtakeWhile (· ∉ CRLF) := hin.subset (by decide)
      have hnot : (0x0d : UInt8) ∉ CRLF := by simpa using List.mem_rtakeWhile_imp hmem
      exact hnot (by decide)
    have hall := hsplit.append (.rest hrest)
    rw [hcut] at hall
    exact (hall.unique h).2

end ClientTcpReadLemmas

/-! ## 1. One callback -/

namespace ReadConn

open ClientTcpReadLemmas

variable {s s' : ReadConn}

theorem length_buffered (h : s.InBounds) : (s.buffered.length : Int) = s.rlen := by
  obtain ⟨h₀, h₁⟩ := h
  rw [buffered, List.length_take, s.rBuf.property]
  omega

theorem receive_spec (h : s.InBounds) {chunk : Bytes}
    (hc : chunk.length ≤ DATA_BUFFER_SIZE - s.rlen) :
    ∃ s', s.receive chunk = some s' ∧ s'.InBounds ∧ s'.buffered = s.buffered ++ chunk ∧
      s'.isVerify = s.isVerify ∧ s'.closed = s.closed ∧ s'.echoed = s.echoed := by
  obtain ⟨h₀, h₁⟩ := h
  obtain ⟨b, hb, htake⟩ := @writeAt_spec s.rBuf s.rlen chunk h₀ (by omega)
  refine ⟨{ s with rBuf := b, rlen := s.rlen + chunk.length }, by simp [receive, hb], ⟨?_, ?_⟩, ?_,
    rfl, rfl, rfl⟩
  · show 0 ≤ s.rlen + chunk.length
    omega
  · show s.rlen + chunk.length ≤ DATA_BUFFER_SIZE
    omega
  · show b.val.take (s.rlen + chunk.length).toNat = _
    rw [show (s.rlen + chunk.length).toNat = s.rlen.toNat + chunk.length by omega, htake]
    rfl

/-- Moving what follows the first `n` buffered bytes to the front. -/
theorem memmove_buffered (h : s.InBounds) {n m : Int} (h₀ : 0 ≤ n) (hn : n ≤ s.rlen)
    (hm : s.rlen - n ≤ m) (hmax : n + m ≤ DATA_BUFFER_SIZE) :
    ∃ b, memmove s.rBuf n m = some b ∧
      b.val.take (s.rlen - n).toNat = s.buffered.drop n.toNat := by
  obtain ⟨hlo, hhi⟩ := h
  obtain ⟨b, hb, htake⟩ := memmove_spec s.rBuf h₀ (show 0 ≤ m by omega) hmax
  refine ⟨b, hb, ?_⟩
  have hle : (s.rlen - n).toNat ≤ m.toNat := by omega
  calc b.val.take (s.rlen - n).toNat
      = (b.val.take m.toNat).take (s.rlen - n).toNat := by
        rw [List.take_take, Nat.min_eq_left hle]
    _ = (s.rBuf.val.drop n.toNat).take (s.rlen - n).toNat := by
        rw [htake, List.take_take, Nat.min_eq_left hle]
    _ = s.buffered.drop n.toNat := by
        rw [buffered, List.drop_take]
        congr 1
        omega

/-- The token test leaves a verified connection and a short buffer alone, closes
the connection, or removes the token. -/
theorem verifyToken_cases (h : s.InBounds) :
    ∃ s', s.verifyToken = some s' ∧ s'.InBounds ∧ s'.echoed = s.echoed ∧
      (((s.isVerify = true ∨ s.buffered.length < TOKEN_LENGTH) ∧ s' = s) ∨
        s.isVerify = false ∧ TOKEN_LENGTH ≤ s.buffered.length ∧ s'.isVerify = true ∧
          (s.buffered.take TOKEN_LENGTH ≠ TOKEN_STR ∧ s'.closed = true ∨
            s.buffered.take TOKEN_LENGTH = TOKEN_STR ∧ s'.closed = s.closed ∧
              s'.buffered = s.buffered.drop TOKEN_LENGTH)) := by
  have hlen := length_buffered h
  unfold verifyToken
  split
  · next hgate =>
    obtain ⟨htoken, hv⟩ := hgate
    have hread : readAt s.rBuf 0 TOKEN_LENGTH = some (s.buffered.take TOKEN_LENGTH) := by
      rw [readAt_front _ (by decide) (by decide), buffered, List.take_take,
        Nat.min_eq_left (by omega)]
      rfl
    rw [hread, Option.bind_some]
    split
    · next hbad => exact ⟨_, rfl, h, rfl, .inr ⟨hv, by omega, rfl, .inl ⟨hbad, rfl⟩⟩⟩
    · next hgood =>
      obtain ⟨b, hb, htake⟩ := @memmove_buffered s h TOKEN_LENGTH (s.rlen - TOKEN_LENGTH)
        (by decide) htoken (Int.le_refl _) (by have := h.2; omega)
      refine ⟨{ s with isVerify := true, rBuf := b, rlen := s.rlen - TOKEN_LENGTH },
        by simp [hb], ⟨?_, ?_⟩, rfl,
        .inr ⟨hv, by omega, rfl, .inr ⟨not_not.mp hgood, rfl, htake⟩⟩⟩
      · show 0 ≤ s.rlen - TOKEN_LENGTH
        omega
      · show s.rlen - TOKEN_LENGTH ≤ DATA_BUFFER_SIZE
        have := h.2
        omega
  · next hgate =>
    refine ⟨s, rfl, h, rfl, .inl ⟨?_, rfl⟩⟩
    cases hv : s.isVerify with
    | true => exact .inl rfl
    | false =>
      have hshort : ¬ (TOKEN_LENGTH : Int) ≤ s.rlen := fun hle => hgate ⟨hle, hv⟩
      exact .inr (by omega)

/-- The echo does nothing without a CRLF; else it echoes the messages and keeps
what follows the last CR or LF. -/
theorem echoMessages_cases (h : s.InBounds) :
    ∃ s', s.echoMessages = some s' ∧ s'.InBounds ∧ s'.isVerify = s.isVerify ∧
      s'.closed = s.closed ∧
      (¬ findCRLF s.buffered ∧ s' = s ∨
        findCRLF s.buffered ∧ s'.echoed = s.echoed ++ splitData s.buffered CRLF [] ∧
          s'.buffered = s.buffered.rtakeWhile (· ∉ CRLF)) := by
  have hlen := length_buffered h
  unfold echoMessages
  rw [readAt_front _ h.1 h.2, Option.bind_some]
  show ∃ s', (if findCRLF s.buffered then _ else _) = some s' ∧ _
  split
  · next hcrlf =>
    obtain ⟨i, hi⟩ := Option.isSome_iff_exists.mp (findLastOf_isSome hcrlf)
    obtain ⟨hlt, hdrop⟩ := drop_findLastOf hi
    obtain ⟨b, hb, htake⟩ := @memmove_buffered s h (i + 1) (DATA_BUFFER_SIZE - (i + 1))
      (by omega) (by omega) (by have := h.2; omega) (by omega)
    have hi' : findLastOf CRLF (s.rBuf.val.take s.rlen.toNat) = some i := hi
    refine ⟨{ s with rBuf := b, rlen := s.rlen - (i + 1),
                     echoed := s.echoed ++ splitData s.buffered CRLF [] },
      by simp only [hi', hb, Option.map_some]; rfl, ⟨?_, ?_⟩, rfl, rfl, .inr ⟨hcrlf, rfl, ?_⟩⟩
    · show 0 ≤ s.rlen - (i + 1)
      omega
    · show s.rlen - (i + 1) ≤ DATA_BUFFER_SIZE
      have := h.2
      omega
    · rw [← hdrop]
      exact htake
  · next hcrlf => exact ⟨s, rfl, h, rfl, rfl, .inl ⟨hcrlf, rfl⟩⟩

/-- A chunk that fits is handled inside the array, whatever it holds. -/
theorem clientTcpReadCb_inBounds (h : s.InBounds) (hopen : s.closed = false) {chunk : Bytes}
    (hfit : chunk.length ≤ DATA_BUFFER_SIZE - s.rlen) :
    ∃ s', s.clientTcpReadCb chunk = some s' ∧ s'.InBounds := by
  unfold clientTcpReadCb
  rw [if_pos ⟨hopen, hfit⟩]
  split
  · obtain ⟨s₁, hs₁, hbounds₁, -⟩ := receive_spec h hfit
    obtain ⟨s₂, hs₂, hbounds₂, -⟩ := verifyToken_cases hbounds₁
    obtain ⟨s₃, hs₃, hbounds₃, -⟩ := echoMessages_cases hbounds₂
    rw [hs₁, Option.bind_some, hs₂, Option.bind_some]
    split
    · exact ⟨s₂, rfl, hbounds₂⟩
    · exact ⟨s₃, hs₃, hbounds₃⟩
  · obtain ⟨s', hs', hbounds, -⟩ := echoMessages_cases h
    exact ⟨s', hs', hbounds⟩

/-- A callback: the chunk is appended, the token is tested, and the messages are
echoed unless the connection has been closed. -/
theorem clientTcpReadCb_cases (h : s.InBounds)
    (hgate : s.isVerify = true ∨ s.buffered.length < TOKEN_LENGTH) {chunk : Bytes}
    (hs : s.clientTcpReadCb chunk = some s') :
    s.closed = false ∧ ∃ s₁ s₂ : ReadConn, s₁.InBounds ∧ s₁.buffered = s.buffered ++ chunk ∧
      s₁.isVerify = s.isVerify ∧ s₁.closed = s.closed ∧ s₁.echoed = s.echoed ∧
      s₁.verifyToken = some s₂ ∧
      (s₂.closed = true ∧ s' = s₂ ∨ s₂.closed = false ∧ s₂.echoMessages = some s') := by
  unfold clientTcpReadCb at hs
  split at hs
  · next hopen =>
    obtain ⟨hclosed, hfit⟩ := hopen
    refine ⟨hclosed, ?_⟩
    split at hs
    · obtain ⟨s₁, hs₁, hbounds, hbuf, hv, hc, he⟩ := receive_spec h hfit
      rw [hs₁, Option.bind_some] at hs
      obtain ⟨s₂, hs₂, hs⟩ := Option.bind_eq_some_iff.mp hs
      refine ⟨s₁, s₂, hbounds, hbuf, hv, hc, he, hs₂, ?_⟩
      split at hs
      · next hc₂ =>
        cases hs
        exact .inl ⟨hc₂, rfl⟩
      · next hc₂ => exact .inr ⟨by simpa using hc₂, hs⟩
    · next hempty =>
      have hnil : chunk = [] := by simpa using hempty
      obtain ⟨s₂, hs₂, -, -, hcases⟩ := verifyToken_cases h
      obtain rfl : s₂ = s := by
        rcases hcases with ⟨-, heq⟩ | ⟨hv, hlen, -⟩
        · exact heq
        · exact absurd hgate (by simp [hv, hlen])
      exact ⟨s₂, s₂, h, by simp [hnil], rfl, rfl, rfl, hs₂, .inr ⟨hclosed, hs⟩⟩
  · cases hs

/-! ## 2. Runs -/

/-- The echo after a text of which the buffer holds the remainder and what has
been received since. -/
theorem echo_splits (h : s.InBounds) {w r chunk : Bytes}
    (hw : Split.Splits CRLF w s.echoed r) (hb : s.buffered = r ++ chunk) :
    ∃ s', s.echoMessages = some s' ∧ s'.InBounds ∧ s'.isVerify = s.isVerify ∧
      s'.closed = s.closed ∧
      (Split.Splits CRLF (w ++ chunk) s'.echoed s'.buffered ↔ EndsClean s.buffered) := by
  obtain ⟨s', hs', hbounds, hv, hc, hcases⟩ := echoMessages_cases h
  refine ⟨s', hs', hbounds, hv, hc, ?_⟩
  rcases hcases with ⟨hno, rfl⟩ | ⟨hcrlf, he, hbuf⟩
  · -- the remainder grows by the chunk
    refine iff_of_true ?_ fun hcrlf => absurd hcrlf hno
    have hrest := hw.extend (.rest fun hin => hno (findCRLF_iff.mpr (hb ▸ hin)))
    rwa [List.append_nil, ← hb] at hrest
  · obtain ⟨ts, r', hts, hsplit⟩ := splitData_splits CRLF_ne_nil s.buffered []
    rw [List.nil_append] at hts
    have hall : Split.Splits CRLF (w ++ chunk) (s.echoed ++ ts) r' := hw.extend (hb ▸ hsplit)
    have hclean : s'.buffered = r' ↔ EndsClean s.buffered := by
      rw [hbuf, rest_iff_endsClean hsplit hcrlf]
      exact ⟨fun hend _ => hend, fun hend => hend hcrlf⟩
    rw [← hclean, he, hts]
    constructor
    · exact fun hs => (hs.unique hall).2
    · rintro rfl
      exact hall

/-- What holds while every chunk has been consumed. -/
structure Kept (received : Bytes) (s : ReadConn) : Prop where
  inBounds : s.InBounds
  short : received.length < TOKEN_LENGTH → s.buffered = received ∧ s.isVerify = false ∧
    s.closed = false ∧ s.echoed = [] ∧ ¬ findCRLF received
  bad : TOKEN_LENGTH ≤ received.length → received.take TOKEN_LENGTH ≠ TOKEN_STR →
    s.closed = true ∧ s.echoed = []
  good : TOKEN_LENGTH ≤ received.length → received.take TOKEN_LENGTH = TOKEN_STR →
    s.isVerify = true ∧ s.closed = false ∧
      Split.Splits CRLF (received.drop TOKEN_LENGTH) s.echoed s.buffered

theorem kept_start (mem : RBuf) : Kept [] (start mem) where
  inBounds := ⟨Int.le_refl 0, Int.natCast_nonneg _⟩
  short _ := ⟨rfl, rfl, rfl, rfl, by decide⟩
  bad h := absurd h (by decide)
  good h := absurd h (by decide)

/-- Before the token is complete the callback echoes what it should not exactly
when there is a CRLF. -/
theorem echo_short {text : Bytes} (hlen : text.length < TOKEN_LENGTH) (h : s.InBounds)
    (hbuf : s.buffered = text) (hv : s.isVerify = false) (hc : s.closed = false)
    (he : s.echoed = []) (hs : s.echoMessages = some s') :
    (Echoes text s' ↔ ¬ findCRLF text) ∧ (¬ findCRLF text → Kept text s') := by
  obtain ⟨t, ht, -, -, -, hcases⟩ := echoMessages_cases h
  obtain rfl : s' = t := by simpa [hs] using ht
  rw [Echoes, if_pos hlen]
  rw [hbuf] at hcases
  rcases hcases with ⟨hno, rfl⟩ | ⟨hcrlf, hecho, -⟩
  · exact ⟨iff_of_true he hno, fun _ => ⟨h, fun _ => ⟨hbuf, hv, hc, he, hno⟩,
      fun hle => absurd hlen (Nat.not_lt_of_le hle), fun hle => absurd hlen (Nat.not_lt_of_le hle)⟩⟩
  · refine ⟨iff_of_false ?_ fun hno => hno hcrlf, fun hno => absurd hcrlf hno⟩
    obtain ⟨ts, r, hts, hsplit⟩ := splitData_splits CRLF_ne_nil text []
    rw [hecho, he, hts]
    cases hsplit with
    | rest hn => exact absurd (findCRLF_iff.mp hcrlf) hn
    | cut _ _ => simp

/-- A connection that does not start with the token is closed. -/
theorem closed_bad {text : Bytes} (hlen : TOKEN_LENGTH ≤ text.length)
    (hbad : text.take TOKEN_LENGTH ≠ TOKEN_STR) (h : s.InBounds) (hc : s.closed = true)
    (he : s.echoed = []) : Echoes text s ∧ Kept text s := by
  refine ⟨?_, h, fun hlt => absurd hlt (Nat.not_lt_of_le hlen), fun _ _ => ⟨hc, he⟩,
    fun _ hgood => absurd hgood hbad⟩
  rw [Echoes, if_neg (Nat.not_lt_of_le hlen), if_pos hbad]
  exact ⟨hc, he⟩

/-- After the token the callback does what it should exactly when the last CR or
LF in the buffer ends a CRLF. -/
theorem echo_good {text w r chunk : Bytes} (hlen : TOKEN_LENGTH ≤ text.length)
    (hgood : text.take TOKEN_LENGTH = TOKEN_STR) (htext : text.drop TOKEN_LENGTH = w ++ chunk)
    (h : s.InBounds) (hv : s.isVerify = true) (hc : s.closed = false)
    (hw : Split.Splits CRLF w s.echoed r) (hbuf : s.buffered = r ++ chunk)
    (hs : s.echoMessages = some s') :
    (Echoes text s' ↔ EndsClean s.buffered) ∧ (EndsClean s.buffered → Kept text s') := by
  obtain ⟨t, ht, hbounds, hv', hc', hsplit⟩ := echo_splits h hw hbuf
  obtain rfl : s' = t := by simpa [hs] using ht
  rw [hc] at hc'
  rw [hv] at hv'
  rw [Echoes, if_neg (Nat.not_lt_of_le hlen), if_neg (by simpa using hgood), htext, hsplit]
  refine ⟨and_iff_right hc', fun hclean => ⟨hbounds, fun hlt => absurd hlt (Nat.not_lt_of_le hlen),
    fun _ hbad => absurd hgood hbad, fun _ _ => ⟨hv', hc', ?_⟩⟩⟩
  rw [htext]
  exact hsplit.mpr hclean

/-- One callback does what it should exactly when its chunk is consumed, and then
goes on keeping what it should. -/
theorem step_echoes {received chunk : Bytes} (h : Kept received s)
    (hs : s.clientTcpReadCb chunk = some s') :
    (Echoes (received ++ chunk) s' ↔ s.Consumed chunk) ∧
    (s.Consumed chunk → Kept (received ++ chunk) s') := by
  by_cases hlen : received.length < TOKEN_LENGTH
  · obtain ⟨hbuf, hv, -, he, -⟩ := h.short hlen
    obtain ⟨hc, s₁, s₂, hb₁, hbuf₁, hv₁, hc₁, he₁, hs₂, hend⟩ :=
      clientTcpReadCb_cases h.inBounds (.inr (hbuf ▸ hlen)) hs
    rw [hbuf] at hbuf₁
    rw [hv] at hv₁
    rw [hc] at hc₁
    rw [he] at he₁
    obtain ⟨t, ht, hb₂, he₂, htoken⟩ := verifyToken_cases hb₁
    obtain rfl : s₂ = t := by simpa [hs₂] using ht
    rw [he₁] at he₂
    simp only [Consumed, hv, hbuf, Bool.false_eq_true, if_false]
    rw [hbuf₁] at htoken
    rcases htoken with ⟨hshort, rfl⟩ | ⟨-, hlong, hv₂, ⟨hbad, hc₂⟩ | ⟨hgood, hc₂, hbuf₂⟩⟩
    · -- the token is not complete
      have hshort' := hshort.resolve_left (by simp [hv₁])
      rw [if_pos hshort']
      exact echo_short hshort' hb₁ hbuf₁ hv₁ hc₁ he₁ (hend.resolve_left (by simp [hc₁])).2
    · -- it is complete with this chunk, and wrong
      rw [if_neg (Nat.not_lt_of_le hlong)]
      obtain rfl := (hend.resolve_right (by simp [hc₂])).2
      obtain ⟨hecho, hkept⟩ := closed_bad hlong hbad hb₂ hc₂ he₂
      exact ⟨iff_of_true hecho fun hgood => absurd hgood hbad, fun _ => hkept⟩
    · -- or right
      rw [if_neg (Nat.not_lt_of_le hlong), forall_prop_of_true hgood, ← hbuf₂]
      have hw : Split.Splits CRLF [] s₂.echoed [] := by
        rw [he₂]
        exact .rest (by decide)
      exact echo_good hlong hgood (List.nil_append _).symm hb₂ hv₂ (hc₂.trans hc₁) hw hbuf₂
        (hend.resolve_left (by simp [hc₂, hc₁])).2
  · -- it had come before
    have hlong := Nat.le_of_not_lt hlen
    have hlong' : TOKEN_LENGTH ≤ (received ++ chunk).length := by
      rw [List.length_append]
      exact Nat.le_add_right_of_le hlong
    have htake : (received ++ chunk).take TOKEN_LENGTH = received.take TOKEN_LENGTH :=
      List.take_append_of_le_length hlong
    have hgood : received.take TOKEN_LENGTH = TOKEN_STR := by
      by_contra hbad
      have hc := (h.bad hlong hbad).1
      simp [clientTcpReadCb, hc] at hs
    obtain ⟨hv, -, hw⟩ := h.good hlong hgood
    obtain ⟨hc, s₁, s₂, hb₁, hbuf₁, hv₁, hc₁, he₁, hs₂, hend⟩ :=
      clientTcpReadCb_cases h.inBounds (.inl hv) hs
    obtain rfl : s₁ = s₂ := by simpa [verifyToken, hv₁, hv] using hs₂
    simp only [Consumed, hv, if_true]
    rw [← hbuf₁]
    rw [← he₁] at hw
    exact echo_good hlong' (htake.trans hgood) (List.drop_append_of_le_length hlong) hb₁
      (hv₁.trans hv) (hc₁.trans hc) hw hbuf₁ (hend.resolve_left (by simp [hc₁, hc])).2

/-- The same for the callbacks of a run, from a state that has kept what it should. -/
theorem run_echoes {received : Bytes} {chunks : List Bytes} (h : Kept received s)
    (hr : (Machine.run clientTcpReadCb s chunks).isSome) :
    (∀ front t, front ≠ [] → front <+: chunks → Machine.run clientTcpReadCb s front = some t →
      Echoes (received ++ front.flatten) t) ↔
    Machine.Along clientTcpReadCb Consumed s chunks := by
  induction chunks generalizing s received with
  | nil => exact iff_of_true (fun _ _ hne hpre => absurd (List.prefix_nil.mp hpre) hne) trivial
  | cons c cs ih =>
    cases hs : s.clientTcpReadCb c with
    | none => simp [hs] at hr
    | some t =>
      have hr' : (Machine.run clientTcpReadCb t cs).isSome := by simpa [hs] using hr
      obtain ⟨hecho, hkept⟩ := step_echoes h hs
      constructor
      · intro hall
        have hc : s.Consumed c := by
          refine hecho.mp ?_
          simpa using hall [c] t (by simp) (by simp) (by simp [hs])
        refine ⟨hc, fun t' ht' => ?_⟩
        obtain rfl : t = t' := by simpa [hs] using ht'
        refine (ih (hkept hc) hr').mp fun front u hne hpre hu => ?_
        simpa using hall (c :: front) u (by simp) (by simpa using hpre) (by simpa [hs] using hu)
      · rintro ⟨hc, hrest⟩ front u hne hpre hu
        obtain ⟨front', rfl, hpre'⟩ : ∃ front', front = c :: front' ∧ front' <+: cs := by
          cases front with
          | nil => exact absurd rfl hne
          | cons d front' =>
            obtain ⟨rfl, hpre'⟩ := List.cons_prefix_cons.mp hpre
            exact ⟨front', rfl, hpre'⟩
        have hu' : Machine.run clientTcpReadCb t front' = some u := by simpa [hs] using hu
        by_cases hnil : front' = []
        · subst hnil
          obtain rfl : t = u := by simpa using hu'
          simpa using hecho.mpr hc
        · simpa using (ih (hkept hc) hr').mpr (hrest t hs) front' u hnil hpre' hu'

/-- For every way of cutting a stream into chunks, every callback leaves what it
should exactly when each chunk is consumed. -/
theorem echoes_iff (mem : RBuf) {chunks : List Bytes}
    (h : (Machine.run clientTcpReadCb (start mem) chunks).isSome) :
    (∀ front s, front <+: chunks → Machine.run clientTcpReadCb (start mem) front = some s →
      Echoes front.flatten s) ↔
    Machine.Along clientTcpReadCb Consumed (start mem) chunks := by
  rw [← run_echoes (kept_start mem) h]
  refine ⟨fun hall front s _ => hall front s, fun hall front s hpre hs => ?_⟩
  by_cases hnil : front = []
  · subst hnil
    obtain rfl : start mem = s := by simpa using hs
    exact rfl
  · exact hall front s hnil hpre hs

/-- An array of zeroes. -/
def zeroes : RBuf := ⟨List.replicate DATA_BUFFER_SIZE 0, List.length_replicate⟩

theorem echoes_iff_twoChunks :
    (∀ front s, front <+: [ascii "12345ab\r", ascii "\nc"] →
      Machine.run clientTcpReadCb (start zeroes) front = some s → Echoes front.flatten s) ↔
    Machine.Along clientTcpReadCb Consumed (start zeroes) [ascii "12345ab\r", ascii "\nc"] :=
  echoes_iff zeroes (by decide +kernel)

/-- A CR that is read with the message before it is lost; and a message is echoed
although the token has not come. -/
theorem echo_goes_wrong :
    (∃ s, Machine.run clientTcpReadCb (start zeroes) [ascii "12345ab\r\nc\r"] = some s ∧
      s.echoed = [ascii "ab"] ∧ s.buffered = [] ∧ ¬ Echoes (ascii "12345ab\r\nc\r") s) ∧
    ∃ s, Machine.run clientTcpReadCb (start zeroes) [ascii "a\r\n"] = some s ∧
      s.echoed = [ascii "a"] ∧ ¬ Echoes (ascii "a\r\n") s := by
  have hlost : (Machine.run clientTcpReadCb (start zeroes) [ascii "12345ab\r\nc\r"]).map
      (fun s => (s.echoed, s.buffered)) = some ([ascii "ab"], []) := by decide +kernel
  have hearly : (Machine.run clientTcpReadCb (start zeroes) [ascii "a\r\n"]).map
      (fun s => s.echoed) = some [ascii "a"] := by decide +kernel
  obtain ⟨s, hs, hfields⟩ := Option.map_eq_some_iff.mp hlost
  obtain ⟨hecho, hbuf⟩ := Prod.mk.inj hfields
  obtain ⟨t, ht, hecho'⟩ := Option.map_eq_some_iff.mp hearly
  refine ⟨⟨s, hs, hecho, hbuf, fun h => ?_⟩, t, ht, hecho', fun h => ?_⟩
  · rw [Echoes, if_neg (by decide), if_neg (by decide), hecho, hbuf] at h
    exact absurd h.2.join (by decide)
  · rw [Echoes, if_pos (by decide), hecho'] at h
    cases h

end ReadConn

end SundayServer
