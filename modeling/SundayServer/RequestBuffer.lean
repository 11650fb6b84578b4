import SundayServer.ThreadServer

/-!
# The request buffer of the thread-per-connection server

`start_routine` of `server.cpp` scans `reqBuf` up to a NUL, which has to be among
the bytes that `read` has delivered, and writes a NUL after these bytes when the
scan is over. A failed `read` is logged, and the turn goes on with a count of -1.

* `ReadCall`: what `read` returns.
* `accesses`: the places of `reqBuf` that one turn of the request loop touches.
* `requestTurn`: what the turn leaves in `reqBuf`.
* `Safe`: the turn stays in the array and in the request.
* `Terminated`: the results of `read` that a turn is safe for.

Results:
1. `safe_iff`: one turn. `respond_reqBuf`: the turn is that of the request loop.
2. `requestBuffer_iff`: all turns of a connection.
-/

namespace SundayServer

namespace ThreadServer

/-! ## Definitions -/

/-- The array `reqBuf`. -/
abbrev ReqBuf := { b : Bytes // b.length = BUFSIZE }

/-- What `read(connfd, reqBuf, sizeof(reqBuf))` returns. -/
inductive ReadCall
  /-- -1 -/
  | error
  /-- 0 -/
  | eof
  | data (bytes : Bytes) (h : 0 < bytes.length ∧ bytes.length ≤ BUFSIZE)
deriving DecidableEq

/-- The value of `bytes`. -/
def ReadCall.count : ReadCall → Int
  | error => -1
  | eof => 0
  | data bytes _ => bytes.length

/-- The array after `read`. -/
def ReqBuf.fill (buf : ReqBuf) : ReadCall → ReqBuf
  | .error | .eof => buf
  | .data bytes h => ⟨bytes ++ buf.val.drop bytes.length, by
      rw [List.length_append, List.length_drop, buf.property]
      exact Nat.add_sub_cancel' h.2⟩

/-- An access to `reqBuf`. -/
inductive Access
  | load (i : Nat)
  | store (i : Int)
deriving DecidableEq, Repr

def Access.index : Access → Int
  | load i => i
  | store i => i

/-- The places that `while (*p != 0)` reads, from place `i` on. -/
def scanLoads : Nat → Bytes → List Nat
  | i, [] => [i]
  | i, c :: rest => if c = 0 then [i] else i :: scanLoads (i + 1) rest

/-- One byte for a sign, if there is one. -/
def signSpan (s : Bytes) : Nat := if s.head? = some 0x2d ∨ s.head? = some 0x2b then 1 else 0

/-- The length of the white space, the sign and the digits that `atoi` goes over. -/
def atoiSpan (s : Bytes) : Nat :=
  let t := s.dropWhile isSpace
  (s.takeWhile isSpace).length + signSpan t +
    ((t.drop (signSpan t)).takeWhile isDigit).length

/-- The places that `atoi(reqBuf)` reads. -/
def atoiLoads (s : Bytes) : List Nat := List.range (atoiSpan s + 1)

/-- The places of `reqBuf` that a turn of the request loop touches. A scan that
leaves the array is not followed further. -/
def accesses (buf : ReqBuf) (r : ReadCall) : List Access :=
  if r.count = 0 then []
  else
    let b := (buf.fill r).val
    (if b.head? = some 0 then [] else (atoiLoads b).map .load) ++ (scanLoads 0 b).map .load ++
      -- the terminator is written after the scan
      if 0 ∈ b then [.store r.count] else []

/-- What the turn leaves in the array; `none` when the thread ends, and when the
turn leaves the array. -/
def requestTurn (buf : ReqBuf) (r : ReadCall) : Option ReqBuf :=
  if r.count = 0 then none
  else if 0 ∈ (buf.fill r).val ∧ 0 ≤ r.count ∧ r.count < BUFSIZE then
    some ⟨(buf.fill r).val.set r.count.toNat 0, by rw [List.length_set, (buf.fill r).property]⟩
  else none

/-- The turn touches only the array, and reads only what `read` has delivered. -/
def Safe (buf : ReqBuf) (r : ReadCall) : Prop :=
  (∀ a ∈ accesses buf r, 0 ≤ a.index ∧ a.index < BUFSIZE) ∧
    ∀ i : Nat, .load i ∈ accesses buf r → i < r.count

/-- The end of the connection, or a NUL among the bytes delivered and a free place
after them. -/
def ReadCall.Terminated : ReadCall → Prop
  | error => False
  | eof => True
  | data bytes _ => 0 ∈ bytes ∧ bytes.length < BUFSIZE

/-! ## 1. One turn -/

namespace RequestBufferLemmas

theorem cstr_append {u : Bytes} (h : 0 ∉ u) (v : Bytes) : cstr (u ++ v) = u ++ cstr v := by
  unfold cstr
  refine List.takeWhile_append_of_pos fun b hb => ?_
  have hne : b ≠ 0 := fun h0 => h (h0 ▸ hb)
  simpa using hne

theorem length_cstr_lt {s : Bytes} (h : 0 ∈ s) : (cstr s).length < s.length := by
  refine Nat.lt_of_le_of_ne (cstr_prefix_self s).length_le fun hlen => ?_
  exact cstr_eq_self_iff.mp ((cstr_prefix_self s).eq_of_length hlen) h

/-- The C string ends in the front part of a text exactly when a NUL is there. -/
theorem length_cstr_append_lt {u v : Bytes} : (cstr (u ++ v)).length < u.length ↔ 0 ∈ u := by
  constructor
  · intro hlt
    by_contra h0
    rw [cstr_append h0, List.length_append] at hlt
    exact absurd hlt (Nat.not_lt_of_le (Nat.le_add_right _ _))
  · intro h0
    have hlt := length_cstr_lt h0
    have hfront : cstr (u ++ v) = cstr u := by
      unfold cstr at hlt ⊢
      rw [List.takeWhile_append, if_neg (Nat.ne_of_lt hlt)]
    rwa [hfront]

theorem mem_scanLoads {b : Bytes} {i j : Nat} :
    j ∈ scanLoads i b ↔ i ≤ j ∧ j ≤ i + (cstr b).length := by
  induction b generalizing i with
  | nil => simp [scanLoads, cstr]; omega
  | cons c rest ih =>
    unfold scanLoads
    split
    · next h0 =>
      simp [cstr, h0]
      omega
    · next h0 =>
      have hcons : cstr (c :: rest) = c :: cstr rest := by simp [cstr, h0]
      rw [List.mem_cons, ih, hcons, List.length_cons]
      omega

theorem take_signSpan (s : Bytes) :
    (s.take (signSpan s)).length = signSpan s ∧ 0 ∉ s.take (signSpan s) := by
  unfold signSpan
  split
  · next hhead =>
    cases s with
    | nil => simp at hhead
    | cons c rest =>
      refine ⟨rfl, fun h0 => ?_⟩
      obtain rfl : 0 = c := by simpa using h0
      simp at hhead
  · exact ⟨rfl, List.not_mem_nil⟩

/-- `atoi` stops at the NUL at the latest. -/
theorem atoiSpan_le (s : Bytes) : atoiSpan s ≤ (cstr s).length := by
  let t := s.dropWhile isSpace
  let front := s.takeWhile isSpace ++ t.take (signSpan t) ++
    (t.drop (signSpan t)).takeWhile isDigit
  have hs : s = front ++ (t.drop (signSpan t)).dropWhile isDigit := by
    rw [List.append_assoc, List.takeWhile_append_dropWhile, List.append_assoc,
      List.take_append_drop, List.takeWhile_append_dropWhile]
  have hspan : atoiSpan s = front.length := by
    rw [List.length_append, List.length_append, (take_signSpan t).1]
    rfl
  have hblank : 0 ∉ s.takeWhile isSpace := fun h0 =>
    absurd (List.mem_takeWhile_imp h0) (by decide)
  have hdigit : 0 ∉ (t.drop (signSpan t)).takeWhile isDigit := fun h0 =>
    absurd (List.mem_takeWhile_imp h0) (by decide)
  have hfree : 0 ∉ front := by simp [front, hblank, (take_signSpan t).2, hdigit]
  rw [hspan]
  conv_rhs => rw [hs, cstr_append hfree, List.length_append]
  exact Nat.le_add_right _ _

/-- A turn reads up to the first NUL of the array. -/
theorem load_mem_accesses {buf : ReqBuf} {r : ReadCall} {i : Nat} :
    .load i ∈ accesses buf r ↔ r.count ≠ 0 ∧ i ≤ (cstr (buf.fill r).val).length := by
  unfold accesses
  split
  · next hc => simp [hc]
  · next hc =>
    have hstore : .load i ∉ (if 0 ∈ (buf.fill r).val then [Access.store r.count] else []) := by
      split <;> simp
    have hscan : .load i ∈ (scanLoads 0 (buf.fill r).val).map Access.load ↔
        i ≤ (cstr (buf.fill r).val).length := by
      simp [mem_scanLoads]
    simp only [List.mem_append, hstore, or_false, hscan, ne_eq, hc, not_false_eq_true, true_and]
    refine or_iff_right_of_imp fun hatoi => ?_
    split at hatoi
    · cases hatoi
    · have hle : i ≤ atoiSpan (buf.fill r).val := by
        simpa [atoiLoads, Nat.lt_succ_iff] using hatoi
      exact hle.trans (atoiSpan_le _)

theorem store_mem_accesses {buf : ReqBuf} {r : ReadCall} {i : Int} :
    .store i ∈ accesses buf r ↔ r.count ≠ 0 ∧ 0 ∈ (buf.fill r).val ∧ i = r.count := by
  unfold accesses
  split
  · next hc => simp [hc]
  · next hc =>
    have hload : .store i ∉ (if (buf.fill r).val.head? = some 0 then []
        else (atoiLoads (buf.fill r).val).map Access.load) := by
      split <;> simp
    by_cases h0 : 0 ∈ (buf.fill r).val
    · simp [hload, h0, hc]
    · simp [hload, h0]

theorem count_data_ne_zero {bytes : Bytes} (h : 0 < bytes.length ∧ bytes.length ≤ BUFSIZE) :
    (ReadCall.data bytes h).count ≠ 0 := Int.natCast_ne_zero_iff_pos.mpr h.1

end RequestBufferLemmas

open RequestBufferLemmas

/-- A turn after which the thread goes on is safe exactly when `read` has delivered
a NUL and left a place for the terminator. -/
theorem safe_iff (buf : ReqBuf) {r : ReadCall} (hr : r ≠ .eof) : Safe buf r ↔ r.Terminated := by
  cases r with
  | eof => exact absurd rfl hr
  | error =>
    refine iff_of_false ?_ id
    rintro ⟨-, hread⟩
    -- the array is scanned although nothing has been delivered
    have h0 := hread 0 (load_mem_accesses.mpr ⟨by decide, Nat.zero_le _⟩)
    exact absurd h0 (by decide)
  | data bytes h =>
    have hcount := count_data_ne_zero h
    constructor
    · rintro ⟨harray, hread⟩
      -- the last place that is read holds the NUL
      have hlast := hread _ (load_mem_accesses.mpr ⟨hcount, Nat.le_refl _⟩)
      have h0 : 0 ∈ bytes := length_cstr_append_lt.mp (Int.ofNat_lt.mp hlast)
      have hstore := harray _ (store_mem_accesses.mpr
        ⟨hcount, List.mem_append_left _ h0, rfl⟩)
      exact ⟨h0, Int.ofNat_lt.mp hstore.2⟩
    · rintro ⟨h0, hlt⟩
      have hend : (cstr (buf.fill (.data bytes h)).val).length < bytes.length :=
        length_cstr_append_lt.mpr h0
      refine ⟨fun a ha => ?_, fun i hi => ?_⟩
      · cases a with
        | load i =>
          have hi := (load_mem_accesses.mp ha).2
          exact ⟨Int.natCast_nonneg i, Int.ofNat_lt.mpr (by omega)⟩
        | store i =>
          obtain ⟨-, -, rfl⟩ := store_mem_accesses.mp ha
          exact ⟨Int.natCast_nonneg _, Int.ofNat_lt.mpr hlt⟩
      · have hle := (load_mem_accesses.mp hi).2
        exact Int.ofNat_lt.mpr (Nat.lt_of_le_of_lt hle hend)

namespace RequestBufferLemmas

/-- A turn on a request with a NUL in the array and a place for the terminator. -/
theorem requestTurn_data {buf : ReqBuf} {bytes : Bytes}
    (h : 0 < bytes.length ∧ bytes.length ≤ BUFSIZE) (h0 : 0 ∈ (buf.fill (.data bytes h)).val)
    (hlt : bytes.length < BUFSIZE) :
    (requestTurn buf (.data bytes h)).map Subtype.val =
      some ((bytes ++ buf.val.drop bytes.length).set bytes.length 0) := by
  rw [requestTurn, if_neg (count_data_ne_zero h),
    if_pos ⟨h0, Int.natCast_nonneg _, Int.ofNat_lt.mpr hlt⟩]
  rfl

theorem scanChar_reqBuf {s t : Session} {c : UInt8} (h : scanChar s c = some t) :
    t.reqBuf = s.reqBuf := by
  unfold scanChar at h
  split at h
  · split at h <;> cases h
    rfl
  · split at h <;> cases h <;> rfl

theorem scan_some {b : Bytes} {s t : Session} (h : scan b s = some t) :
    0 ∈ b ∧ t.reqBuf = s.reqBuf := by
  induction b generalizing s with
  | nil => cases h
  | cons c rest ih =>
    unfold scan at h
    split at h
    · next h0 =>
      cases h
      exact ⟨h0 ▸ List.mem_cons_self, rfl⟩
    · obtain ⟨u, hu, hrest⟩ := Option.bind_eq_some_iff.mp h
      obtain ⟨h0, hbuf⟩ := ih hrest
      exact ⟨List.mem_cons_of_mem _ h0, hbuf.trans (scanChar_reqBuf hu)⟩

theorem scanRequest_some {s t : Session} (h : scanRequest s = some t) :
    0 ∈ s.reqBuf ∧ t.reqBuf = s.reqBuf := by
  unfold scanRequest at h
  split at h
  · cases h
  · next c rest hbuf =>
    split at h
    · next h0 =>
      cases h
      exact ⟨by simp [hbuf, h0], rfl⟩
    · obtain ⟨h0, hsame⟩ := scan_some h
      exact ⟨by simp [hbuf, h0], hsame⟩

theorem switchCommand_reqBuf {answer : Bytes → Outcome} {s : Session}
    {p : Session × Option (Call × Query)} (h : switchCommand answer s = some p) :
    p.1.reqBuf = s.reqBuf := by
  rw [switchCommand_eq] at h
  split at h
  · cases h
    rfl
  · split at h
    · obtain ⟨strval, -, rfl⟩ := Option.map_eq_some_iff.mp h
      rfl
    · cases h

end RequestBufferLemmas

/-- A request that the loop answers leaves in `reqBuf` what the turn does. -/
theorem respond_reqBuf {answer : Bytes → Outcome} {s s' : Session} {out : Output} {bytes : Bytes}
    (hbuf : s.reqBuf.length = BUFSIZE) (hlen : 0 < bytes.length ∧ bytes.length ≤ BUFSIZE)
    (h : respond answer s bytes = some (s', out)) :
    (requestTurn ⟨s.reqBuf, hbuf⟩ (.data bytes hlen)).map Subtype.val = some s'.reqBuf := by
  obtain ⟨t, ht, h⟩ := Option.bind_eq_some_iff.mp h
  obtain ⟨p, hp, h⟩ := Option.bind_eq_some_iff.mp h
  obtain ⟨h0, hsame⟩ := scanRequest_some ht
  split at h
  · next hlt =>
    cases h
    rw [@requestTurn_data ⟨s.reqBuf, hbuf⟩ bytes hlen h0 hlt, switchCommand_reqBuf hp, hsame]
  · cases h

/-! ## 2. All turns of a connection -/

theorem requestTurn_isSome {buf : ReqBuf} {r : ReadCall} (hr : r ≠ .eof) (h : r.Terminated) :
    (requestTurn buf r).isSome := by
  cases r with
  | eof => exact absurd rfl hr
  | error => exact h.elim
  | data bytes hlen =>
    have hturn := @requestTurn_data buf bytes hlen (List.mem_append_left _ h.1) h.2
    rw [← Option.isSome_map (f := Subtype.val), hturn]
    rfl

/-- For every sequence of results of `read`, all turns stay in the array and in
their request exactly when, up to the end of the connection, each `read` delivers
a NUL and leaves a place for the terminator. -/
theorem requestBuffer_iff (buf : ReqBuf) (rs : List ReadCall) :
    Machine.Along requestTurn Safe buf rs ↔ ∀ r ∈ rs.takeWhile (· ≠ .eof), r.Terminated := by
  induction rs generalizing buf with
  | nil => simp [Machine.Along]
  | cons r rs ih =>
    by_cases hr : r = .eof
    · -- the thread ends, whatever follows
      subst hr
      have hsafe : Safe buf .eof := by simp [Safe, accesses, ReadCall.count]
      simp [Machine.Along, hsafe, requestTurn, ReadCall.count]
    · rw [List.takeWhile_cons_of_pos (by simpa using hr), List.forall_mem_cons, Machine.Along,
        safe_iff buf hr]
      refine and_congr_right fun hterm => ?_
      obtain ⟨buf', hbuf'⟩ := Option.isSome_iff_exists.mp (@requestTurn_isSome buf r hr hterm)
      simp only [hbuf', Option.some.injEq, forall_eq']
      exact ih buf'

/-- An array without a NUL. -/
def noNul : ReqBuf := ⟨List.replicate BUFSIZE 0x79, List.length_replicate⟩

/-- A request of `bob` with NULs up to the end of the array, as `client.cpp`
sends it. -/
def fullRead : ReadCall :=
  .data (ascii "2   bob   pw" ++ List.replicate 1012 0) (by decide +kernel)

/-- A request of `bob` without a NUL. -/
def bareRead : ReadCall := .data (ascii "2   bob   pw") (by decide +kernel)

/-- A failed `read` stores before the array, and one that fills it behind; without
a NUL the scan leaves the request, and here the array too. -/
theorem accesses_outside :
    Access.store (-1) ∈ accesses ⟨List.replicate BUFSIZE 0, List.length_replicate⟩ .error ∧
    Access.store 1024 ∈ accesses noNul fullRead ∧
    Access.load 12 ∈ accesses noNul bareRead ∧ Access.load 1024 ∈ accesses noNul bareRead ∧
    ¬ Machine.Along requestTurn Safe noNul [fullRead] := by
  have hstore : Access.store 1024 ∈ accesses noNul fullRead := by decide +kernel
  refine ⟨by decide +kernel, hstore, by decide +kernel, by decide +kernel, fun h => ?_⟩
  exact absurd (h.1.1 _ hstore).2 (by decide)

end ThreadServer

end SundayServer
