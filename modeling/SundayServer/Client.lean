import SundayServer.RequestBuffer
import Mathlib.Data.List.Chain

/-!
# The client of the thread-per-connection server

`main` of `client.cpp`: each line that is typed is read with `fgets` into `reqBuf`, the
newline is replaced by a NUL, and the whole array is written to the server, whatever the
length of the line.

* `fgets`, `chop`: the line in the array.
* `State.turn`: what the loop does with the next line. `State.step`: with the result of
  `write` and of `read`.
* `Line`: a line that is sent as it was typed.

Results:
1. `typed_sent`: the server gets the lines that were typed.
2. `messages_overrun`: which deliveries of what the client sends the server survives.
3. `tails_resent`: what follows a line is left of the lines before.
-/

namespace SundayServer

namespace Client

open ThreadServer

/-! ## Definitions -/

/-- The bytes that `fgets` takes: up to `n`, and none after a newline. -/
def readLine : Nat → Bytes → Bytes
  | 0, _ => []
  | _ + 1, [] => []
  | n + 1, c :: rest => if c = 0x0a then [c] else c :: readLine n rest

theorem readLine_length_le (n : Nat) (stdin : Bytes) : (readLine n stdin).length ≤ n := by
  induction n generalizing stdin with
  | zero => simp [readLine]
  | succ n ih =>
    cases stdin with
    | nil => simp [readLine]
    | cons c rest =>
      rw [readLine]
      split
      · simp
      · simpa using ih rest

/-- `fgets(reqBuf, sizeof(reqBuf), stdin)`: the array and the input after it, or NULL at
the end of the input. -/
def fgets (buf : ReqBuf) (stdin : Bytes) : Option (ReqBuf × Bytes) :=
  if stdin = [] then none
  else
    let line := readLine (BUFSIZE - 1) stdin
    some (⟨line ++ 0 :: buf.val.drop (line.length + 1), by
      have hle : line.length + 1 ≤ BUFSIZE :=
        Nat.add_le_of_le_sub (by decide) (readLine_length_le _ _)
      rw [List.length_append, List.length_cons, List.length_drop, buf.property]
      omega⟩, stdin.drop line.length)

/-- `z = strlen(reqBuf); if (z > 0 && reqBuf[--z] == '\n') reqBuf[z] = 0;`, with `z`
after it. -/
def chop (buf : ReqBuf) : ReqBuf × Nat :=
  let z := (cstr buf.val).length
  if z = 0 then (buf, 0)
  else if buf.val[z - 1]? = some 0x0a then
    (⟨buf.val.set (z - 1) 0, by rw [List.length_set, buf.property]⟩, z - 1)
  else (buf, z - 1)

/-- `tolower`. -/
def lower (c : UInt8) : UInt8 := if 0x41 ≤ c ∧ c ≤ 0x5a then c + 0x20 else c

/-- What is left of the standard input, and `reqBuf`. `sent` is history: the arrays that
have been written. -/
structure State where
  stdin : Bytes
  reqBuf : ReqBuf
  sent : List ReqBuf
  ended : Bool

def State.start (stdin : Bytes) (reqBuf : ReqBuf) : State := ⟨stdin, reqBuf, [], false⟩

/-- What the loop does with the next line. -/
inductive Turn
  /-- `fgets` returns NULL. -/
  | eof
  /-- `continue` -/
  | blank (s : State)
  | quit
  /-- It has come to `write`. -/
  | request (s : State)

def State.turn (s : State) : Turn :=
  match fgets s.reqBuf s.stdin with
  | none => .eof
  | some (typed, stdin) =>
    let (reqBuf, z) := chop typed
    if z = 0 then .blank { s with stdin, reqBuf }
    else if (cstr reqBuf.val).map lower = (ascii "QUIT").map lower then .quit
    else .request { s with stdin, reqBuf }

/-- One turn of the loop. -/
inductive Step
  | blank
  /-- `write` fails. -/
  | writeFails
  /-- `write` takes the array, and `read` returns this. -/
  | exchange (reply : ReadCall)
deriving DecidableEq

/-- The loop goes on after an answer; `buf[nbytes] = 0` needs a place for the NUL. -/
def State.step (s : State) (e : Step) : Option State :=
  if s.ended then none
  else
    match s.turn, e with
    | .blank s', .blank => some s'
    | .request s', .writeFails => some { s' with ended := true }
    | .request s', .exchange reply =>
      let s'' := { s' with sent := s'.sent ++ [s'.reqBuf] }
      match reply with
      | .error | .eof => some { s'' with ended := true }
      | .data bytes _ => if bytes.length < BUFSIZE then some s'' else none
    | _, _ => none

/-- A line that the client takes for a request. -/
structure Line (l : Bytes) : Prop where
  ne_nil : l ≠ []
  plain : ∀ b ∈ l, b ≠ 0 ∧ b ≠ 0x0a
  fits : l.length + 2 ≤ BUFSIZE
  not_quit : l.map lower ≠ (ascii "QUIT").map lower

/-- An answer after which the loop goes on. -/
def Answers (r : ReadCall) : Prop := ∃ bytes h, r = .data bytes h ∧ bytes.length < BUFSIZE

/-- The array `m'` is that of `m` behind its line and two more bytes: the NUL in the place
of the newline, and the NUL of `fgets`. -/
def SameTail (m m' : ReqBuf) : Prop :=
  m'.val.drop ((cstr m'.val).length + 2) = m.val.drop ((cstr m'.val).length + 2)

/-! ## 1. One line -/

namespace ClientLemmas

theorem cstr_append_zero (t rest : Bytes) : cstr (t ++ 0 :: rest) = cstr t := by
  induction t with
  | nil => rfl
  | cons c t ih =>
    simp only [cstr] at ih
    simp only [cstr, List.cons_append, List.takeWhile_cons, ih]

/-- A newline is the last byte of a line. -/
theorem readLine_dropLast (n : Nat) (stdin : Bytes) :
    0x0a ∉ (readLine n stdin).dropLast := by
  induction n generalizing stdin with
  | zero => simp [readLine]
  | succ n ih =>
    cases stdin with
    | nil => simp [readLine]
    | cons c rest =>
      rw [readLine]
      split
      · simp
      · next hc =>
        cases hrest : readLine n rest with
        | nil => simp
        | cons d ds =>
          have hnot := ih rest
          rw [hrest] at hnot
          rw [List.dropLast_cons_cons, List.mem_cons]
          exact fun hmem => hmem.elim (fun heq => hc heq.symm) hnot

theorem readLine_subset (n : Nat) (stdin : Bytes) : readLine n stdin ⊆ stdin := by
  induction n generalizing stdin with
  | zero => simp [readLine]
  | succ n ih =>
    cases stdin with
    | nil => simp [readLine]
    | cons c rest =>
      rw [readLine]
      split
      · simp
      · exact List.cons_subset_cons c (ih rest)

/-- A whole line and its newline. -/
theorem readLine_line {l : Bytes} (h : 0x0a ∉ l) {n : Nat} (hn : l.length < n) (rest : Bytes) :
    readLine n (l ++ 0x0a :: rest) = l ++ [0x0a] := by
  induction l generalizing n with
  | nil =>
    obtain ⟨n, rfl⟩ := Nat.exists_eq_succ_of_ne_zero (Nat.ne_zero_of_lt hn)
    simp [readLine]
  | cons c l ih =>
    obtain ⟨n, rfl⟩ := Nat.exists_eq_succ_of_ne_zero (Nat.ne_zero_of_lt hn)
    obtain ⟨hc, hl⟩ := not_or.mp (mt List.mem_cons.mpr h)
    rw [List.cons_append, readLine, if_neg (Ne.symm hc), ih hl (by simpa using hn)]
    rfl

/-- The three ways of `chop`: an empty text, one with a newline at its end, and one
without. -/
theorem chop_cases (buf : ReqBuf) :
    (cstr buf.val = [] ∧ chop buf = (buf, 0)) ∨
    (∃ t rest, cstr buf.val = t ++ [0x0a] ∧ buf.val = t ++ 0x0a :: rest ∧
      (chop buf).1.val = t ++ 0 :: rest ∧ (chop buf).2 = t.length) ∨
    ∃ t c, cstr buf.val = t ++ [c] ∧ c ≠ 0x0a ∧ chop buf = (buf, t.length) := by
  rcases List.eq_nil_or_concat' (cstr buf.val) with hnil | ⟨t, c, hc⟩
  · exact .inl ⟨hnil, by simp [chop, hnil]⟩
  · right
    obtain ⟨rest, hrest⟩ := cstr_prefix_self buf.val
    rw [hc] at hrest
    have hsplit : buf.val = t ++ c :: rest := by simpa using hrest.symm
    have hz : (cstr buf.val).length - 1 = t.length := by simp [hc]
    have hpos : (cstr buf.val).length ≠ 0 := by simp [hc]
    have hget : buf.val[t.length]? = some c := by simp [hsplit]
    by_cases hnl : c = 0x0a
    · subst hnl
      refine .inl ⟨t, rest, hc, hsplit, ?_, ?_⟩
      · simp only [chop, hz, hpos, hget, if_false, if_true]
        rw [hsplit, List.set_append_right _ _ (Nat.le_refl _), Nat.sub_self, List.set_cons_zero]
      · simp only [chop, hz, hpos, hget, if_false, if_true]
    · refine .inr ⟨t, c, hc, hnl, ?_⟩
      simp [chop, hz, hpos, hget, hnl]

/-- What `fgets` has read is a C string of at most so many bytes. -/
theorem fgets_some {buf typed : ReqBuf} {stdin rest : Bytes}
    (h : fgets buf stdin = some (typed, rest)) :
    ∃ line, line = readLine (BUFSIZE - 1) stdin ∧
      typed.val = line ++ 0 :: buf.val.drop (line.length + 1) ∧
      rest = stdin.drop line.length := by
  unfold fgets at h
  split at h
  · cases h
  · cases h
    exact ⟨_, rfl, rfl, rfl⟩

theorem turn_line {l rest : Bytes} (hl : Line l) {s : State} (hs : s.stdin = l ++ 0x0a :: rest) :
    ∃ m : ReqBuf, s.turn = .request { s with stdin := rest, reqBuf := m } ∧ cstr m.val = l := by
  have h0 : 0 ∉ l := fun hmem => (hl.plain _ hmem).1 rfl
  have hnl : 0x0a ∉ l := fun hmem => (hl.plain _ hmem).2 rfl
  have hfits := hl.fits
  have hline : readLine (BUFSIZE - 1) s.stdin = l ++ [0x0a] := by
    rw [hs, readLine_line hnl (by omega)]
  have hne : s.stdin ≠ [] := by simp [hs]
  have hsome : (fgets s.reqBuf s.stdin).isSome := by
    unfold fgets
    rw [if_neg hne]
    rfl
  obtain ⟨⟨typed, stdin⟩, hf⟩ := Option.isSome_iff_exists.mp hsome
  obtain ⟨line, hl', htyped, hstdin⟩ := fgets_some hf
  rw [hline] at hl'
  subst hl'
  obtain rfl : stdin = rest := by
    have hsplit : l ++ 0x0a :: rest = l ++ [0x0a] ++ rest := by simp
    rw [hstdin, hs, hsplit, List.drop_left]
  have hcstr : cstr typed.val = l ++ [0x0a] := by
    rw [htyped, cstr_append_zero]
    exact cstr_eq_self_iff.mpr (by simp [h0])
  rcases chop_cases typed with ⟨hnil, -⟩ | ⟨t, rest', hc, hsplit, hchop, hz⟩ | ⟨t, c, hc, hne', -⟩
  · simp [hnil] at hcstr
  · obtain rfl : t = l := List.append_cancel_right (hc.symm.trans hcstr)
    have hcut : cstr (chop typed).1.val = t := by
      rw [hchop, cstr_append_zero]
      exact cstr_eq_self_iff.mpr h0
    refine ⟨(chop typed).1, ?_, hcut⟩
    have hpos : t.length ≠ 0 := mt List.length_eq_zero_iff.mp hl.ne_nil
    simp only [State.turn, hf, hz, hpos, hcut, hl.not_quit, if_false]
  · have hlast := (List.append_inj' (hc.symm.trans hcstr) rfl).2
    exact absurd (List.cons.inj hlast).1 hne'

theorem step_line {l rest : Bytes} (hl : Line l) {s : State} (hs : s.stdin = l ++ 0x0a :: rest)
    (hended : s.ended = false) {r : ReadCall} (hr : Answers r) :
    ∃ m : ReqBuf, s.step (.exchange r) =
      some { s with stdin := rest, reqBuf := m, sent := s.sent ++ [m] } ∧ cstr m.val = l := by
  obtain ⟨bytes, h, rfl, hlt⟩ := hr
  obtain ⟨m, hturn, hm⟩ := turn_line hl hs
  exact ⟨m, by simp [State.step, hended, hturn, hlt], hm⟩

theorem run_lines {lines : List Bytes} (hlines : ∀ l ∈ lines, Line l) {replies : List ReadCall}
    (hlen : replies.length = lines.length) (hreplies : ∀ r ∈ replies, Answers r) {rest : Bytes}
    {s : State} (hs : s.stdin = lines.flatMap (· ++ [0x0a]) ++ rest) (hended : s.ended = false) :
    ∃ s', Machine.run State.step s (replies.map .exchange) = some s' ∧ s'.stdin = rest ∧
      s'.sent.map (cstr ·.val) = s.sent.map (cstr ·.val) ++ lines := by
  induction lines generalizing replies s with
  | nil =>
    obtain rfl := List.length_eq_zero_iff.mp hlen
    exact ⟨s, rfl, by simpa using hs, by simp⟩
  | cons l lines ih =>
    cases replies with
    | nil => cases hlen
    | cons r replies =>
      obtain ⟨hl, hlines⟩ := List.forall_mem_cons.mp hlines
      obtain ⟨hr, hreplies⟩ := List.forall_mem_cons.mp hreplies
      have hs : s.stdin = l ++ 0x0a :: (lines.flatMap (· ++ [0x0a]) ++ rest) := by
        simpa using hs
      obtain ⟨m, hstep, hm⟩ := step_line hl hs hended hr
      have hlen : replies.length = lines.length := by simpa using hlen
      obtain ⟨s', hrun, hstdin, hsent⟩ := ih hlines hlen hreplies
        (s := { s with stdin := _, reqBuf := m, sent := s.sent ++ [m] }) rfl hended
      refine ⟨s', ?_, hstdin, ?_⟩
      · rw [List.map_cons, Machine.run_cons, hstep]
        exact hrun
      · simp [hsent, hm]

end ClientLemmas

open ClientLemmas

/-- Lines that the client takes for requests are what it sends, in order, as long as it
is answered. -/
theorem typed_sent {lines : List Bytes} (hlines : ∀ l ∈ lines, Line l) {replies : List ReadCall}
    (hlen : replies.length = lines.length) (hreplies : ∀ r ∈ replies, Answers r) (rest : Bytes)
    (buf : ReqBuf) :
    ∃ s, Machine.run State.step (.start (lines.flatMap (· ++ [0x0a]) ++ rest) buf)
        (replies.map .exchange) = some s ∧
      s.stdin = rest ∧ s.sent.map (cstr ·.val) = lines := by
  obtain ⟨s, hr, hstdin, hsent⟩ := run_lines hlines hlen hreplies
    (s := .start (lines.flatMap (· ++ [0x0a]) ++ rest) buf) rfl rfl
  exact ⟨s, hr, hstdin, by simpa [State.start] using hsent⟩

/-- An array of zeros. -/
def zeros : ReqBuf := ⟨List.replicate BUFSIZE 0, List.length_replicate ..⟩

/-- The server's `ok`. -/
def okReply : ReadCall := .data (ascii "ok") (by decide)

theorem typed_sent_twoLines :
    ∃ s, Machine.run State.step (.start ([ascii "1   bob   pw", ascii "2   bob"].flatMap
        (· ++ [0x0a]) ++ []) zeros) ([okReply, okReply].map .exchange) = some s ∧
      s.stdin = [] ∧ s.sent.map (cstr ·.val) = [ascii "1   bob   pw", ascii "2   bob"] := by
  have hlines : ∀ l ∈ [ascii "1   bob   pw", ascii "2   bob"], Line l := by
    intro l hl
    rcases List.mem_pair.mp hl with rfl | rfl
    · exact ⟨by decide, by decide +kernel, by decide, by decide⟩
    · exact ⟨by decide, by decide +kernel, by decide, by decide⟩
  have hok : Answers okReply := ⟨_, _, rfl, by decide⟩
  exact typed_sent hlines rfl (by simp [hok]) [] zeros

/-! ## 2. What the server does with a message -/

namespace ClientLemmas

/-- Only the last byte of the text can be a newline. -/
theorem typed_newline_last {buf typed : ReqBuf} {stdin rest : Bytes}
    (h : fgets buf stdin = some (typed, rest)) {t : Bytes} {c : UInt8}
    (hc : cstr typed.val = t ++ [c]) : 0x0a ∉ t := by
  obtain ⟨line, hline, htyped, -⟩ := fgets_some h
  have htext : t ++ [c] <+: line := by
    rw [← hc, htyped, cstr_append_zero]
    exact cstr_prefix_self _
  obtain ⟨w, hw⟩ := htext
  intro hnl
  have hlast : 0x0a ∈ line.dropLast := by
    rw [← hw, List.append_assoc, List.dropLast_append_of_ne_nil (by simp)]
    exact List.mem_append_left _ hnl
  rw [hline] at hlast
  exact readLine_dropLast _ _ hlast

/-- What is written is a C string that is not empty and has no newline. -/
theorem turn_request {s s' : State} (h : s.turn = .request s') :
    s'.sent = s.sent ∧ 0 ∈ s'.reqBuf.val ∧ cstr s'.reqBuf.val ≠ [] ∧
      0x0a ∉ cstr s'.reqBuf.val := by
  unfold State.turn at h
  split at h
  · cases h
  · next typed stdin hf =>
    obtain ⟨line, -, htyped, -⟩ := fgets_some hf
    simp only at h
    split at h
    · cases h
    · next hz =>
      split at h
      · cases h
      · cases h
        refine ⟨rfl, ?_⟩
        rcases chop_cases typed with ⟨-, hchop⟩ | ⟨t, rest, hc, hsplit, hchop, hlen⟩ |
          ⟨t, c, hc, hne, hchop⟩
        · simp [hchop] at hz
        · have h0 : 0 ∉ t := fun hmem =>
            zero_not_mem_cstr typed.val (hc ▸ List.mem_append_left _ hmem)
          have hcut : cstr (chop typed).1.val = t := by
            rw [hchop, cstr_append_zero]
            exact cstr_eq_self_iff.mpr h0
          rw [hlen] at hz
          refine ⟨by simp [hchop], ?_, ?_⟩
          · rw [hcut]
            exact fun hnil => hz (by simp [hnil])
          · rw [hcut]
            exact typed_newline_last hf hc
        · rw [hchop]
          refine ⟨by simp [htyped], by simp [hc], ?_⟩
          rw [hc, List.mem_append, List.mem_singleton]
          exact fun hmem => hmem.elim (typed_newline_last hf hc) fun heq => hne heq.symm

theorem turn_blank {s s' : State} (h : s.turn = .blank s') : s'.sent = s.sent := by
  unfold State.turn at h
  split at h
  · cases h
  · simp only at h
    split at h
    · cases h
      rfl
    · split at h <;> cases h

theorem step_running {s s' : State} {e : Step} (hs : s.step e = some s') : s.ended = false := by
  unfold State.step at hs
  split at hs
  · cases hs
  · next h => simpa using h

/-- What a turn leaves: after a blank line, at the end of the session, or after one more
message. -/
theorem step_cases {s s' : State} {e : Step} (hs : s.step e = some s') :
    s.turn = .blank s' ∨
    (∃ t, s.turn = .request t ∧ s' = { t with ended := true }) ∨
    ∃ t ended, s.turn = .request t ∧ s' = { t with sent := t.sent ++ [t.reqBuf], ended } := by
  unfold State.step at hs
  split at hs
  · cases hs
  · split at hs
    · next t hturn =>
      cases hs
      exact .inl hturn
    · next t hturn =>
      cases hs
      exact .inr (.inl ⟨t, hturn, rfl⟩)
    · next t reply hturn =>
      right; right
      cases reply with
      | error | eof =>
        cases hs
        exact ⟨t, true, hturn, rfl⟩
      | data bytes h =>
        simp only at hs
        split at hs
        · cases hs
          exact ⟨t, t.ended, hturn, rfl⟩
        · cases hs
    · cases hs

end ClientLemmas

/-- What the client sends is a line and a NUL in front of whatever the array holds. The
server stays in its own array if it gets the NUL and does not get the whole message: a
message that arrives as it was written is too long for it. -/
theorem messages_overrun {stdin : Bytes} {start : ReqBuf} {es : List Step} {s : State}
    (hr : Machine.run State.step (.start stdin start) es = some s) :
    ∀ m ∈ s.sent, 0 ∈ m.val ∧ cstr m.val ≠ [] ∧ 0x0a ∉ cstr m.val ∧
      ∀ (buf : ReqBuf) (n : Nat) h,
        Safe buf (.data (m.val.take n) h) ↔ (cstr m.val).length < n ∧ n < BUFSIZE := by
  have hinv := Machine.run_invariant
    (I := fun s : State => ∀ m ∈ s.sent, 0 ∈ m.val ∧ cstr m.val ≠ [] ∧ 0x0a ∉ cstr m.val)
    (fun s e s' hall hs => ?_) (by simp [State.start]) hr
  · intro m hm
    obtain ⟨h0, hne, hnl⟩ := hinv m hm
    refine ⟨h0, hne, hnl, fun buf n h => ?_⟩
    rw [safe_iff buf (by simp)]
    have htake : (m.val.take n).length < BUFSIZE ↔ n < BUFSIZE := by
      rw [List.length_take, m.property]
      omega
    have hnul : 0 ∈ m.val.take n ↔ (cstr m.val).length < n := by
      have hlt := RequestBufferLemmas.length_cstr_lt h0
      have hiff := RequestBufferLemmas.length_cstr_append_lt (u := m.val.take n) (v := m.val.drop n)
      rw [List.take_append_drop, List.length_take, m.property] at hiff
      rw [m.property] at hlt
      rw [← hiff]
      omega
    exact and_congr hnul htake
  · rcases step_cases hs with hturn | ⟨t, hturn, rfl⟩ | ⟨t, ended, hturn, rfl⟩
    · rwa [turn_blank hturn]
    · rwa [(turn_request hturn).1]
    · obtain ⟨hsent, hmessage⟩ := turn_request hturn
      intro m hm
      rcases List.mem_append.mp hm with hm | hm
      · exact hall m (hsent ▸ hm)
      · rw [List.mem_singleton.mp hm]
        exact hmessage

/-- A line, an empty one and a shorter one. -/
def threeLines : Bytes := ascii "1   bob   pw\n\n2   bob\n"

theorem messages_overrun_threeLines :
    ∃ s, Machine.run State.step (.start threeLines zeros)
        [.exchange okReply, .blank, .exchange okReply] = some s ∧
      ∀ m ∈ s.sent, 0 ∈ m.val ∧ cstr m.val ≠ [] ∧ 0x0a ∉ cstr m.val ∧
        ∀ (buf : ReqBuf) (n : Nat) h,
          Safe buf (.data (m.val.take n) h) ↔ (cstr m.val).length < n ∧ n < BUFSIZE := by
  have hsome : (Machine.run State.step (.start threeLines zeros)
      [.exchange okReply, .blank, .exchange okReply]).isSome := by decide +kernel
  obtain ⟨s, hs⟩ := Option.isSome_iff_exists.mp hsome
  exact ⟨s, hs, messages_overrun hs⟩

/-! ## 3. What is left of earlier lines -/

namespace ClientLemmas

theorem drop_eq_of_le {α : Type} {l l' : List α} {i k : Nat} (h : l.drop i = l'.drop i)
    (hik : i ≤ k) : l.drop k = l'.drop k := by
  obtain ⟨d, rfl⟩ := Nat.exists_eq_add_of_le hik
  rw [← List.drop_drop, ← List.drop_drop, h]

theorem chop_tail (buf : ReqBuf) :
    (cstr buf.val).length ≤ (chop buf).2 + 1 ∧
      (cstr buf.val).length ≤ (cstr (chop buf).1.val).length + 1 ∧
      (chop buf).1.val.drop (cstr buf.val).length = buf.val.drop (cstr buf.val).length := by
  rcases chop_cases buf with ⟨hnil, hchop⟩ | ⟨t, rest, hc, hsplit, hchop, hlen⟩ |
    ⟨t, c, hc, -, hchop⟩
  · simp [hchop, hnil]
  · have h0 : 0 ∉ t := fun hmem => zero_not_mem_cstr buf.val (hc ▸ List.mem_append_left _ hmem)
    have hcut : cstr (chop buf).1.val = t := by
      rw [hchop, cstr_append_zero]
      exact cstr_eq_self_iff.mpr h0
    rw [hcut, hc, hlen, hchop, hsplit]
    simp
  · simp [hchop, hc]

/-- A turn on input without a NUL leaves alone what is behind the line. -/
theorem turn_tail {s : State} (h0 : 0 ∉ s.stdin) {typed : ReqBuf} {stdin : Bytes}
    (hf : fgets s.reqBuf s.stdin = some (typed, stdin)) :
    0 ∉ stdin ∧ ∀ k, (cstr typed.val).length < k →
      (chop typed).1.val.drop k = s.reqBuf.val.drop k := by
  obtain ⟨line, rfl, htyped, rfl⟩ := fgets_some hf
  have hline : cstr typed.val = readLine (BUFSIZE - 1) s.stdin := by
    rw [htyped, cstr_append_zero]
    exact cstr_eq_self_iff.mpr fun hmem => h0 (readLine_subset _ _ hmem)
  refine ⟨fun hmem => h0 (List.mem_of_mem_drop hmem), fun k hk => ?_⟩
  obtain ⟨-, -, htail⟩ := chop_tail typed
  rw [drop_eq_of_le htail hk.le]
  refine drop_eq_of_le ?_ (Nat.succ_le_of_lt hk)
  rw [hline, htyped, List.drop_append, Nat.succ_sub (Nat.le_refl _), Nat.sub_self]
  simp

/-- The next message, or what a blank line leaves. -/
theorem turn_kept {s : State} (h0 : 0 ∉ s.stdin) (s' : State) :
    (s.turn = .blank s' → 0 ∉ s'.stdin ∧ s'.reqBuf.val.drop 2 = s.reqBuf.val.drop 2) ∧
      (s.turn = .request s' → 0 ∉ s'.stdin ∧
        s'.reqBuf.val.drop ((cstr s'.reqBuf.val).length + 2) =
          s.reqBuf.val.drop ((cstr s'.reqBuf.val).length + 2)) := by
  unfold State.turn
  split
  · exact ⟨fun h => (by cases h), fun h => (by cases h)⟩
  · next typed stdin hf =>
    obtain ⟨hstdin, htail⟩ := turn_tail h0 hf
    obtain ⟨hz, hcut, -⟩ := chop_tail typed
    simp only
    split
    · next hzero =>
      refine ⟨fun h => ?_, fun h => (by cases h)⟩
      cases h
      exact ⟨hstdin, htail 2 (by omega)⟩
    · split
      · exact ⟨fun h => (by cases h), fun h => (by cases h)⟩
      · refine ⟨fun h => (by cases h), fun h => ?_⟩
        cases h
        refine ⟨hstdin, htail _ ?_⟩
        show (cstr typed.val).length < (cstr (chop typed).1.val).length + 2
        omega

end ClientLemmas

/-- As long as no NUL is typed, a message repeats the one before it behind its line and two
more bytes, and the first one what was in the array when the client started. So what has
been typed once is sent again with every shorter line. -/
theorem tails_resent {stdin : Bytes} (h0 : 0 ∉ stdin) {start : ReqBuf} {es : List Step}
    {s : State} (hr : Machine.run State.step (.start stdin start) es = some s) :
    (start :: s.sent).IsChain SameTail := by
  have hinv := Machine.run_invariant
    (I := fun s : State => 0 ∉ s.stdin ∧ (start :: s.sent).IsChain SameTail ∧
      (s.ended = false → ∀ m ∈ (start :: s.sent).getLast?, s.reqBuf.val.drop 2 = m.val.drop 2))
    (fun s e s' hi hs => ?_) ⟨h0, by simp [State.start], by simp [State.start]⟩ hr
  · exact hinv.2.1
  · obtain ⟨hstdin, hchain, hlast⟩ := hi
    have hlast := hlast (step_running hs)
    have hkept := turn_kept hstdin
    rcases step_cases hs with hturn | ⟨t, hturn, rfl⟩ | ⟨t, ended, hturn, rfl⟩
    · obtain ⟨hstdin', htail⟩ := (hkept s').1 hturn
      rw [turn_blank hturn, htail]
      exact ⟨hstdin', hchain, fun _ => hlast⟩
    · obtain ⟨hstdin', -⟩ := (hkept t).2 hturn
      obtain ⟨hsent, -⟩ := turn_request hturn
      exact ⟨hstdin', by rwa [hsent], fun h => (by cases h)⟩
    · obtain ⟨hstdin', htail⟩ := (hkept t).2 hturn
      obtain ⟨hsent, -⟩ := turn_request hturn
      refine ⟨hstdin', ?_, fun _ m hm => ?_⟩
      · rw [hsent, ← List.cons_append]
        refine hchain.append (List.isChain_singleton _) fun m hm m' hm' => ?_
        obtain rfl : t.reqBuf = m' := by simpa using hm'
        exact htail.trans (drop_eq_of_le (hlast m hm) (Nat.le_add_left _ _))
      · have hm : m ∈ (start :: t.sent ++ [t.reqBuf]).getLast? := hm
        rw [List.getLast?_concat] at hm
        cases hm
        rfl

theorem tails_resent_threeLines :
    ∃ s, Machine.run State.step (.start threeLines zeros)
        [.exchange okReply, .blank, .exchange okReply] = some s ∧
      (zeros :: s.sent).IsChain SameTail := by
  have hsome : (Machine.run State.step (.start threeLines zeros)
      [.exchange okReply, .blank, .exchange okReply]).isSome := by decide +kernel
  obtain ⟨s, hs⟩ := Option.isSome_iff_exists.mp hsome
  exact ⟨s, hs, tails_resent (by decide) hs⟩

end Client

end SundayServer
