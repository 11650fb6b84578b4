import SundayServer.ClientTcpRead

/-!
# The bounds of `rBuf`

`rlen` grows by what `bufferevent_read` returns, shrinks by the token and by what
the messages take up, and is the offset or the length of every range that the
callback hands out.

* `Touch`: a call that is given a part of `rBuf`, and the ranges it touches.
* `touches`: the calls of one callback, in order.
* `atEcho`, `consumedLen`: the record when the string is built from it, and how
  much of it the messages take up.

Results:
1. `clientTcpReadCb_isSome_iff`, `clientTcpReadCb_atEcho`: the model of the callback
   checks these ranges, and takes up this much.
2. `receive_bounds`: all callbacks of a connection.
-/

namespace SundayServer

/-! ## Definitions -/

/-- The calls that are given a part of `rBuf`. -/
inductive Touch
  /-- `bufferevent_read(bev, rBuf + off, n)` -/
  | recv (off n : Int)
  /-- `std::string(rBuf, n)` -/
  | string (n : Int)
  /-- `memmove(rBuf, rBuf + src, n)` -/
  | memmove (src n : Int)
deriving DecidableEq, Repr

/-- The ranges that a call touches, each an offset and a length. -/
def Touch.ranges : Touch → List (Int × Int)
  | recv off n => [(off, n)]
  | string n => [(0, n)]
  | memmove src n => [(src, n), (0, n)]

/-- Every range lies in the array. -/
def Touch.Inside (t : Touch) : Prop := ∀ r ∈ t.ranges, InArray r.1 r.2

/-- `str_recv.find_last_of(CRLF) + 1`. -/
def consumedLen (strRecv : Bytes) : Int :=
  match findLastOf CRLF strRecv with
  | some i => i + 1
  | none => 0

namespace ReadConn

/-- A connection that `InitNewConn` has opened. It leaves `isVerify` and the
bytes of `rBuf` as the record has them. -/
def opened (mem : RBuf) (isVerify : Bool) : ReadConn := ⟨mem, 0, isVerify, false, []⟩

/-- The calls of the token test. -/
def verifyTouches (s : ReadConn) : List Touch :=
  if TOKEN_LENGTH ≤ s.rlen ∧ s.isVerify = false then
    .string TOKEN_LENGTH ::
      if readAt s.rBuf 0 TOKEN_LENGTH = some TOKEN_STR then
        [.memmove TOKEN_LENGTH (s.rlen - TOKEN_LENGTH)]
      else []
  else []

/-- The calls of the echo. -/
def echoTouches (s : ReadConn) : List Touch :=
  .string s.rlen ::
    match readAt s.rBuf 0 s.rlen with
    | some strRecv =>
      if findCRLF strRecv then
        [.memmove (consumedLen strRecv) (DATA_BUFFER_SIZE - consumedLen strRecv)]
      else []
    | none => []

/-- The record after `bufferevent_read` and the token test, unless the connection
has been closed. -/
def atEcho (s : ReadConn) (chunk : Bytes) : Option ReadConn :=
  if 0 < chunk.length then
    ((s.receive chunk).bind verifyToken).bind fun s => if s.closed then none else some s
  else some s

/-- The calls of `ClientTcpReadCb`, when `bufferevent_read` delivers this chunk. -/
def touches (s : ReadConn) (chunk : Bytes) : List Touch :=
  .recv s.rlen (DATA_BUFFER_SIZE - s.rlen) ::
    (if 0 < chunk.length then ((s.receive chunk).map verifyTouches).getD [] else []) ++
      ((s.atEcho chunk).map echoTouches).getD []

end ReadConn

/-! ## 1. One callback -/

namespace ReadConn

open ClientTcpReadLemmas

variable {s : ReadConn}

theorem inside_string {n : Int} (h₀ : 0 ≤ n) (h : n ≤ DATA_BUFFER_SIZE) :
    (Touch.string n).Inside := by
  simp only [Touch.Inside, Touch.ranges, List.forall_mem_singleton]
  exact ⟨Int.le_refl 0, h₀, by omega⟩

theorem inside_memmove {src n : Int} (h₀ : 0 ≤ src) (hn : 0 ≤ n) (h : src + n ≤ DATA_BUFFER_SIZE) :
    (Touch.memmove src n).Inside := by
  simp only [Touch.Inside, Touch.ranges]
  refine List.forall_mem_cons.mpr ⟨⟨h₀, hn, h⟩, List.forall_mem_singleton.mpr ?_⟩
  exact ⟨Int.le_refl 0, hn, by omega⟩

/-- The messages take up no more than what is looked at. -/
theorem consumedLen_le (strRecv : Bytes) :
    0 ≤ consumedLen strRecv ∧ consumedLen strRecv ≤ strRecv.length := by
  unfold consumedLen
  split
  · next i hi =>
    have hlt := (drop_findLastOf hi).1
    omega
  · omega

theorem verifyTouches_inside (h : s.InBounds) : ∀ t ∈ s.verifyTouches, t.Inside := by
  obtain ⟨h₀, h₁⟩ := h
  unfold verifyTouches
  split
  · next hgate =>
    refine List.forall_mem_cons.mpr ⟨inside_string (by decide) (by decide), ?_⟩
    split
    · exact List.forall_mem_singleton.mpr
        (inside_memmove (by decide) (by omega) (by omega))
    · exact List.forall_mem_nil _
  · exact List.forall_mem_nil _

theorem echoTouches_inside (h : s.InBounds) : ∀ t ∈ s.echoTouches, t.Inside := by
  refine List.forall_mem_cons.mpr ⟨inside_string h.1 h.2, ?_⟩
  have hlen := length_buffered h
  rw [readAt_front _ h.1 h.2]
  show ∀ t ∈ (if findCRLF s.buffered then
    [Touch.memmove (consumedLen s.buffered) (DATA_BUFFER_SIZE - consumedLen s.buffered)]
    else []), t.Inside
  obtain ⟨hc₀, hc₁⟩ := consumedLen_le s.buffered
  obtain ⟨h₀, h₁⟩ := h
  split
  · exact List.forall_mem_singleton.mpr (inside_memmove hc₀ (by omega) (by omega))
  · exact List.forall_mem_nil _

/-- The record at the echo is in bounds again. -/
theorem atEcho_inBounds (h : s.InBounds) {chunk : Bytes}
    (hfit : chunk.length ≤ DATA_BUFFER_SIZE - s.rlen) {s₁ : ReadConn}
    (hs : s.atEcho chunk = some s₁) : s₁.InBounds := by
  unfold atEcho at hs
  split at hs
  · obtain ⟨t, ht, hbounds, -⟩ := receive_spec h hfit
    obtain ⟨u, hu, hbounds', -⟩ := verifyToken_cases hbounds
    rw [ht, Option.bind_some, hu, Option.bind_some] at hs
    split at hs
    · cases hs
    · cases hs
      exact hbounds'
  · cases hs
    exact h

/-- The callback ends with the echo of that record, and takes up `consumedLen`. -/
theorem clientTcpReadCb_atEcho (hopen : s.closed = false) {chunk : Bytes}
    (hfit : chunk.length ≤ DATA_BUFFER_SIZE - s.rlen) {s₁ : ReadConn}
    (hs : s.atEcho chunk = some s₁) :
    s.clientTcpReadCb chunk = s₁.echoMessages ∧
      ∀ s', s₁.echoMessages = some s' →
        s'.rlen = s₁.rlen ∨ s'.rlen = s₁.rlen - consumedLen s₁.buffered := by
  constructor
  · unfold atEcho at hs
    rw [clientTcpReadCb, if_pos ⟨hopen, hfit⟩]
    split at hs
    · next hpos =>
      obtain ⟨t, ht, hs⟩ := Option.bind_eq_some_iff.mp hs
      rw [if_pos hpos, ht, Option.bind_some]
      split at hs
      · cases hs
      · next hc =>
        cases hs
        rw [if_neg hc]
    · next hpos =>
      cases hs
      rw [if_neg hpos]
  · intro s' hs'
    obtain ⟨strRecv, hread, hs'⟩ := Option.bind_eq_some_iff.mp hs'
    split at hs'
    · obtain ⟨b, -, rfl⟩ := Option.map_eq_some_iff.mp hs'
      have hbuf : strRecv = s₁.buffered := by
        unfold readAt at hread
        split at hread
        · cases hread
          rfl
        · cases hread
      subst hbuf
      exact .inr rfl
    · cases hs'
      exact .inl rfl

theorem touches_inside (h : s.InBounds) {chunk : Bytes}
    (hfit : chunk.length ≤ DATA_BUFFER_SIZE - s.rlen) : ∀ t ∈ s.touches chunk, t.Inside := by
  intro t ht
  rcases List.mem_append.mp ht with ht | ht
  · rcases List.mem_cons.mp ht with rfl | ht
    · obtain ⟨h₀, h₁⟩ := h
      simp only [Touch.Inside, Touch.ranges, List.forall_mem_singleton]
      exact ⟨h₀, by omega, by omega⟩
    · split at ht
      · obtain ⟨s₁, hs₁, hbounds, -⟩ := receive_spec h hfit
        rw [hs₁] at ht
        exact verifyTouches_inside hbounds t ht
      · cases ht
  · cases hs : s.atEcho chunk with
    | none =>
      rw [hs] at ht
      cases ht
    | some s₁ =>
      rw [hs] at ht
      exact echoTouches_inside (atEcho_inBounds h hfit hs) t ht

/-- A chunk is handled exactly when every range that the callback touches lies in
the array: there is no range that the model of the callback overlooks. -/
theorem clientTcpReadCb_isSome_iff (hopen : s.closed = false) {chunk : Bytes}
    (hfit : chunk.length ≤ DATA_BUFFER_SIZE - s.rlen) :
    (s.clientTcpReadCb chunk).isSome ↔ ∀ t ∈ s.touches chunk, t.Inside := by
  constructor
  · intro hsome
    suffices h₀ : 0 ≤ s.rlen from touches_inside ⟨h₀, by omega⟩ hfit
    obtain ⟨s', hs'⟩ := Option.isSome_iff_exists.mp hsome
    rw [clientTcpReadCb, if_pos ⟨hopen, hfit⟩] at hs'
    split at hs'
    · obtain ⟨t, ht, -⟩ := Option.bind_eq_some_iff.mp hs'
      obtain ⟨u, hu, -⟩ := Option.bind_eq_some_iff.mp ht
      obtain ⟨b, hb, -⟩ := Option.map_eq_some_iff.mp hu
      unfold writeAt at hb
      split at hb
      · next harr => exact harr.1
      · cases hb
    · obtain ⟨strRecv, hread, -⟩ := Option.bind_eq_some_iff.mp hs'
      unfold readAt at hread
      split at hread
      · next harr => exact harr.2.1
      · cases hread
  · intro hall
    -- the range of `bufferevent_read` alone puts `rlen` in bounds
    have hrecv : (Touch.recv s.rlen (DATA_BUFFER_SIZE - s.rlen)).Inside :=
      hall _ (List.mem_append_left _ (List.mem_cons_self))
    obtain ⟨h₀, h₁, -⟩ := hrecv _ (List.mem_singleton_self _)
    obtain ⟨s', hs', -⟩ := @clientTcpReadCb_inBounds s ⟨h₀, Int.sub_nonneg.mp h₁⟩ hopen _ hfit
    rw [hs']
    rfl

/-! ## 2. All callbacks of a connection -/

theorem opened_inBounds (mem : RBuf) (isVerify : Bool) : (opened mem isVerify).InBounds :=
  ⟨Int.le_refl 0, Int.natCast_nonneg DATA_BUFFER_SIZE⟩

theorem step_inBounds (h : s.InBounds) {chunk : Bytes} {s' : ReadConn}
    (hs : s.clientTcpReadCb chunk = some s') : s'.InBounds := by
  have hgate : s.closed = false ∧ chunk.length ≤ DATA_BUFFER_SIZE - s.rlen := by
    by_contra hno
    rw [clientTcpReadCb, if_neg hno] at hs
    cases hs
  obtain ⟨t, ht, hbounds⟩ := clientTcpReadCb_inBounds h hgate.1 hgate.2
  obtain rfl : t = s' := by simpa [ht] using hs
  exact hbounds

/-- After any callbacks on an opened connection `rlen` is in bounds, and whatever
`bufferevent_read` delivers next, the callback touches `rBuf` only inside its
bytes, takes up no more than `rlen`, and ends with `rlen` in bounds. -/
theorem receive_bounds (mem : RBuf) (isVerify : Bool) {chunks : List Bytes} {s : ReadConn}
    (h : Machine.run clientTcpReadCb (opened mem isVerify) chunks = some s) :
    s.InBounds ∧
    ∀ chunk : Bytes, s.closed = false → chunk.length ≤ DATA_BUFFER_SIZE - s.rlen →
      (∀ t ∈ s.touches chunk, t.Inside) ∧
      (∀ s₁ : ReadConn, s.atEcho chunk = some s₁ → consumedLen s₁.buffered ≤ s₁.rlen) ∧
      ∃ s', s.clientTcpReadCb chunk = some s' ∧ s'.InBounds := by
  have hs : s.InBounds :=
    Machine.run_invariant (fun _ _ _ hi hs => step_inBounds hi hs) (opened_inBounds mem isVerify) h
  refine ⟨hs, fun chunk hopen hfit => ⟨touches_inside hs hfit, fun s₁ hs₁ => ?_,
    clientTcpReadCb_inBounds hs hopen hfit⟩⟩
  rw [← length_buffered (atEcho_inBounds hs hfit hs₁)]
  exact (consumedLen_le s₁.buffered).2

/-- The token and a message cut in two. -/
theorem receive_bounds_twoChunks :
    ∃ s : ReadConn, Machine.run clientTcpReadCb (opened zeroes false)
        [ascii "12345ab\r", ascii "\nc"] = some s ∧ s.InBounds ∧
      ∀ chunk : Bytes, s.closed = false → chunk.length ≤ DATA_BUFFER_SIZE - s.rlen →
        (∀ t ∈ s.touches chunk, t.Inside) ∧
        (∀ s₁ : ReadConn, s.atEcho chunk = some s₁ → consumedLen s₁.buffered ≤ s₁.rlen) ∧
        ∃ s', s.clientTcpReadCb chunk = some s' ∧ s'.InBounds := by
  have hrun : (Machine.run clientTcpReadCb (opened zeroes false)
      [ascii "12345ab\r", ascii "\nc"]).isSome := by decide +kernel
  obtain ⟨s, hs⟩ := Option.isSome_iff_exists.mp hrun
  exact ⟨s, hs, receive_bounds zeroes false hs⟩

end ReadConn

end SundayServer
