import SundayServer.Password

/-!
# The replies to a read

A client pairs replies with requests by their order. `start_routine` sends a
reply from eight places of its message loop, and the reply to a DELETE is
compiled out. A message with a wrong number of fields is answered `e3:fail` in the
loop, but the loop is skipped when the read has no three spaces.

* `Prog.outputs`: what a program does, unless it formats a statement that `sql` does
  not hold, or follows a NULL cell.
* `Turns`: the turns of the loop, each with the outcomes of its own calls.
* `OneReplyEach`: one reply for each message of a read, and nothing else.
* `Message.GetsReply`, `ReadAnswered`: when a message, and a whole read, is answered.

Results:
1. `handle_turn`: one turn of the loop, whatever comes after it.
2. `getsReply_iff`: which messages are answered.
3. `replies_in_order`: which reads are answered message by message.
-/

namespace SundayServer

/-! ## Definitions -/

/-- The replies among some effects. -/
def repliesOf (es : List Effect) : List Bytes :=
  es.filterMap fun
    | .write buf => some buf
    | .query .. => none

/-- The number of calls among some effects. -/
def callsOf (es : List Effect) : Nat :=
  es.countP fun
    | .query .. => true
    | .write _ => false

/-- The calls and replies of a program, when the `n`-th call has the outcome `o n`;
`none` if it runs out of an object on the way. -/
def Prog.outputs : Prog → (Nat → Outcome) → Option (List Effect)
  | .done, _ => some []
  | .crash, _ => none
  | .lock k, o | .unlock k, o => k.outputs o
  | .query c s k, o =>
    -- `sprintf` writes past the end of `sql`
    if s.Fits then ((k (o 0)).outputs fun n => o (n + 1)).map (.query c s :: ·) else none
  | .writeSfd buf k, o => (k.outputs o).map (.write buf :: ·)

/-- The effects of the handlers of some messages, one after the other. The calls of
each take up the outcomes where those before it have stopped. -/
inductive Turns : (Nat → Outcome) → List Message → List (List Effect) → Prop
  | nil {o : Nat → Outcome} : Turns o [] []
  | cons {o : Nat → Outcome} {m : Message} {ms : List Message} {es : List Effect}
      {turns : List (List Effect)} :
      (handle m .done).outputs o = some es → Turns (fun n => o (callsOf es + n)) ms turns →
      Turns o (m :: ms) (es :: turns)

/-- The messages of a read. -/
def readMessages (peer : InAddr) (data : Bytes) : List Message :=
  (splitData (xorKey data) CRLF []).map (parseMessage peer)

/-- The callback does what the handlers of the CRLF-terminated messages of the read do,
in their order, and nothing else, and each of them sends one reply. -/
def OneReplyEach (conn : Conn) (peer : InAddr) (data : Bytes) (o : Nat → Outcome) : Prop :=
  ∃ turns, (startRoutine conn peer data).prog.outputs o = some turns.flatten ∧
    Turns o (readMessages peer data) turns ∧ ∀ es ∈ turns, (repliesOf es).length = 1

/-- The first three cells of each row are there and not NULL. -/
def Readable (o : Outcome) : Prop :=
  ∀ rs, o = .rows rs → ∀ row ∈ rs, (cellsText 3 row).isSome

/-- What `SelectData` turns into the empty string. -/
def Outcome.NoRows (o : Outcome) : Prop := o = .failed ∨ o = .noResult ∨ o = .rows []

instance (o : Outcome) : Decidable o.NoRows := inferInstanceAs (Decidable (_ ∨ _ ∨ _))

namespace Message

/-- The number of calls its handler makes. -/
def calls (o : Nat → Outcome) : Message → Nat
  | .malformed => 0
  | .request r =>
    if r.command = INSERT then
      if r.name ≠ ascii "0000" ∧ r.deviceId ≠ ascii "0000" then 1
      else if (o 0).NoRows then 2 else 1
    else if r.command = SELECT ∨ r.command = UPDATE ∨ r.command = DELETE then 1
    else 0

/-- The message is not a DELETE, the texts that its handler formats fit `sql`, and
the rows that it looks at can be read. -/
def GetsReply (o : Nat → Outcome) : Message → Prop
  | .malformed => True
  | .request r =>
    if r.command = INSERT then
      if r.name ≠ ascii "0000" ∧ r.deviceId ≠ ascii "0000" then
        (Statement.insertDevice r.name r.deviceId r.p2pId r.ip).Fits
      else
        (Statement.lookupUser r.name).Fits ∧ Readable (o 0) ∧
          ((o 0).NoRows → (Statement.insertUser r.name r.passwd).Fits)
    else if r.command = SELECT then (Statement.selectUser r.name).Fits ∧ Readable (o 0)
    else if r.command = UPDATE then (Statement.updateUser r.passwd r.name).Fits
    else r.command ≠ DELETE

end Message

/-- Each message is answered, with the outcomes of its own calls. -/
def AllAnswered : (Nat → Outcome) → List Message → Prop
  | _, [] => True
  | o, m :: ms => m.GetsReply o ∧ AllAnswered (fun n => o (m.calls o + n)) ms

/-- The read has no message, or it has three spaces and each message is answered. -/
def ReadAnswered (peer : InAddr) (data : Bytes) (o : Nat → Outcome) : Prop :=
  readMessages peer data = [] ∨
    (findSPACE (xorKey data) ∧ AllAnswered o (readMessages peer data))

/-! ## The strings of `SelectData` -/

namespace RepliesLemmas

theorem cellsText_nul_free {cnum : Nat} {row : Row} {text : Bytes}
    (h : cellsText cnum row = some text) : 0 ∉ text := by
  induction cnum generalizing row text with
  | zero =>
    cases h
    exact List.not_mem_nil
  | succ cnum ih =>
    match row with
    | [] | none :: _ => simp [cellsText] at h
    | some cell :: row =>
      obtain ⟨rest, hrest, rfl⟩ := Option.map_eq_some_iff.mp h
      have hcell : 0 ∉ cstr cell := fun h0 => by simpa using List.mem_takeWhile_imp h0
      have hsep : (0 : UInt8) ≠ rg := by decide
      simp [hcell, hsep, ih hrest]

/-- The last of the three cells stands between two `0x06`. -/
theorem cellsText_tail {row : Row} {text : Bytes} (h : cellsText 3 row = some text) :
    ∃ a cell, row[2]? = some (some cell) ∧ text = a ++ rg :: cstr cell ++ [rg] := by
  match row with
  | [] | [none] | none :: _ :: _ | [some _] | [some _, none] | some _ :: none :: _ :: _
  | [some _, some _] | some _ :: some _ :: none :: _ => simp [cellsText] at h
  | some id :: some name :: some passwd :: row =>
    have htext : cstr id ++ [rg] ++ (cstr name ++ [rg] ++ (cstr passwd ++ [rg])) = text := by
      simpa [cellsText] using h
    exact ⟨cstr id ++ [rg] ++ cstr name, passwd, rfl, by simp [← htext]⟩

theorem rowsText_nul_free {rs : List Row} {text : Bytes} (h : rowsText 3 rs = some text) :
    0 ∉ text := by
  induction rs generalizing text with
  | nil =>
    cases h
    exact List.not_mem_nil
  | cons row rs ih =>
    simp only [rowsText, Option.bind_eq_bind, Option.bind_eq_some_iff, Option.some.injEq] at h
    obtain ⟨cells, hcells, rest, hrest, rfl⟩ := h
    have hsep : (0 : UInt8) ≠ cg := by decide
    simp [cellsText_nul_free hcells, hsep, ih hrest]

/-- So it does in the text of the last row, which ends the string. -/
theorem rowsText_tail {rs : List Row} {text : Bytes} (hne : rs ≠ [])
    (h : rowsText 3 rs = some text) :
    ∃ row ∈ rs, ∃ a cell, row[2]? = some (some cell) ∧
      text = a ++ rg :: cstr cell ++ [rg, cg] := by
  induction rs generalizing text with
  | nil => exact absurd rfl hne
  | cons row rs ih =>
    simp only [rowsText, Option.bind_eq_bind, Option.bind_eq_some_iff, Option.some.injEq] at h
    obtain ⟨cells, hcells, rest, hrest, rfl⟩ := h
    by_cases hrs : rs = []
    · subst hrs
      cases hrest
      obtain ⟨a, cell, hcell, rfl⟩ := cellsText_tail hcells
      exact ⟨row, .head _, a, cell, hcell, by simp⟩
    · obtain ⟨row', hrow', a, cell, hcell, rfl⟩ := ih hrs hrest
      exact ⟨row', .tail _ hrow', cells ++ [cg] ++ a, cell, hcell, by simp⟩

theorem rowsText_isSome {rs : List Row} (h : ∀ row ∈ rs, (cellsText 3 row).isSome) :
    (rowsText 3 rs).isSome := by
  induction rs with
  | nil => rfl
  | cons row rs ih =>
    obtain ⟨hrow, hrs⟩ := List.forall_mem_cons.mp h
    obtain ⟨cells, hcells⟩ := Option.isSome_iff_exists.mp hrow
    obtain ⟨rest, hrest⟩ := Option.isSome_iff_exists.mp (ih hrs)
    simp [rowsText, hcells, hrest]

theorem cellsText_isSome_of_rowsText {rs : List Row} (h : (rowsText 3 rs).isSome) :
    ∀ row ∈ rs, (cellsText 3 row).isSome := by
  induction rs with
  | nil => simp
  | cons row rs ih =>
    obtain ⟨text, htext⟩ := Option.isSome_iff_exists.mp h
    simp only [rowsText, Option.bind_eq_bind, Option.bind_eq_some_iff] at htext
    obtain ⟨cells, hcells, rest, hrest, -⟩ := htext
    exact List.forall_mem_cons.mpr ⟨by rw [hcells]; rfl, ih (by rw [hrest]; rfl)⟩

theorem selectData_isSome_iff {o : Outcome} : (selectData 3 o).isSome ↔ Readable o := by
  cases o with
  | failed | noResult => exact iff_of_true rfl fun rs hrs => by cases hrs
  | rows rs =>
    constructor
    · rintro h rs' hrs
      obtain rfl := Outcome.rows.inj hrs
      exact cellsText_isSome_of_rowsText h
    · intro h
      exact rowsText_isSome (h rs rfl)

theorem selectData_isSome {o : Outcome} (h : Readable o) : (selectData 3 o).isSome :=
  selectData_isSome_iff.mpr h

/-- The backward scan of the SELECT handler stays in the string. -/
theorem selectReply_isSome {o : Outcome} (h : Readable o) (passwd : Bytes) :
    (selectReply passwd o).isSome := by
  obtain ⟨strval, hstrval⟩ := Option.isSome_iff_exists.mp (selectData_isSome h)
  unfold selectReply
  rw [hstrval]
  simp only
  split
  · next hlen =>
    cases o with
    | failed | noResult =>
      cases hstrval
      exact absurd rfl hlen
    | rows rs =>
      have hne : rs ≠ [] := by
        rintro rfl
        cases hstrval
        exact hlen rfl
      obtain ⟨-, -, a, cell, -, htext⟩ := rowsText_tail hne hstrval
      rw [newPasswd_tail htext (rowsText_nul_free hstrval)]
      rfl
  · rfl

theorem selectReply_isSome_iff {o : Outcome} {passwd : Bytes} :
    (selectReply passwd o).isSome ↔ Readable o := by
  refine ⟨fun h => selectData_isSome_iff.mp ?_, fun h => selectReply_isSome h passwd⟩
  unfold selectReply at h
  split at h
  · cases h
  · next hstrval =>
    rw [hstrval]
    rfl

theorem selectData_length_eq_zero {o : Outcome} {strval : Bytes}
    (h : selectData 3 o = some strval) : strval.length = 0 ↔ o.NoRows := by
  rw [Outcome.NoRows, ← selectData_eq_nil, h, Option.some.injEq, List.length_eq_zero_iff]

/-! ## Programs -/

variable {o : Nat → Outcome} {r : Request}

/-- The program `p`, before any other, does what it does alone. -/
def Turn (p : Prog → Prog) : Prop :=
  ∀ k o, (p k).outputs o = ((p .done).outputs o).bind fun es =>
    (k.outputs fun n => o (callsOf es + n)).map (es ++ ·)

/-- A reply, and the end of the handler. -/
theorem turn_sendReply (str : Bytes) : Turn (sendReply str) := by
  intro k o
  simp [sendReply, Prog.outputs, callsOf]

theorem turn_sendReply_unlock (str : Bytes) : Turn fun k => sendReply str (.unlock k) := by
  intro k o
  simp [sendReply, Prog.outputs, callsOf]

theorem turn_unlock : Turn .unlock := by
  intro k o
  simp [Prog.outputs, callsOf]

theorem turn_crash : Turn fun _ => .crash := fun _ _ => rfl

theorem turn_lock {p : Prog → Prog} (h : Turn p) : Turn fun k => .lock (p k) := h

/-- A call, and what the handler does with its outcome. -/
theorem turn_query {c : Call} {s : Statement} {p : Prog → Outcome → Prog}
    (h : ∀ out, Turn fun k => p k out) : Turn fun k => .query c s (p k) := by
  intro k o
  simp only [Prog.outputs]
  split
  · rw [h (o 0), Option.map_bind, Option.bind_map]
    refine Option.bind_congr fun es _ => ?_
    simp [callsOf, Function.comp_def, Nat.add_right_comm]
  · rfl

theorem turn_runInsert (s : Statement) : Turn (runInsert s) :=
  turn_query fun _ => turn_sendReply_unlock _

theorem turn_insertCase (r : Request) : Turn (insertCase r) := by
  refine turn_lock ?_
  split
  · exact turn_runInsert _
  · refine turn_query fun out => ?_
    cases selectData 3 out with
    | none => exact turn_crash
    | some strval =>
      simp only
      split
      · exact turn_runInsert _
      · exact turn_sendReply_unlock _

theorem turn_selectCase (r : Request) : Turn (selectCase r) := by
  refine turn_lock (turn_query fun out => ?_)
  cases selectReply r.passwd out with
  | none => exact turn_crash
  | some str => exact turn_sendReply_unlock str

theorem turn_updateCase (r : Request) : Turn (updateCase r) :=
  turn_lock (turn_query fun _ => turn_sendReply_unlock _)

theorem turn_deleteCase (r : Request) : Turn (deleteCase r) :=
  turn_lock (turn_query fun _ => turn_unlock)

end RepliesLemmas

open RepliesLemmas

/-! ## 1. One turn of the loop -/

theorem handle_turn (m : Message) : Turn (handle m) := by
  cases m with
  | malformed => exact turn_sendReply _
  | request r =>
    show Turn (dispatch r)
    unfold dispatch
    split
    · exact turn_insertCase r
    · split
      · exact turn_selectCase r
      · split
        · exact turn_updateCase r
        · split
          · exact turn_deleteCase r
          · exact turn_sendReply _

/-- The turns of the loop, one after the other. -/
theorem handleAll_outputs {ms : List Message} {o : Nat → Outcome} {es : List Effect} :
    (handleAll ms).outputs o = some es ↔ ∃ turns, Turns o ms turns ∧ es = turns.flatten := by
  induction ms generalizing o es with
  | nil =>
    constructor
    · intro h
      exact ⟨[], .nil, (Option.some.inj h).symm⟩
    · rintro ⟨turns, hturns, rfl⟩
      cases hturns
      rfl
  | cons m ms ih =>
    rw [handleAll_cons, handle_turn m, Option.bind_eq_some_iff]
    constructor
    · rintro ⟨es₁, hfirst, h⟩
      obtain ⟨es₂, hrest, rfl⟩ := Option.map_eq_some_iff.mp h
      obtain ⟨turns, hturns, rfl⟩ := ih.mp hrest
      exact ⟨es₁ :: turns, .cons hfirst hturns, rfl⟩
    · rintro ⟨turns, hturns, rfl⟩
      cases hturns with
      | @cons _ _ _ es₁ turns hfirst hrest =>
        exact ⟨es₁, hfirst, by rw [ih.mpr ⟨turns, hrest, rfl⟩]; rfl⟩

/-! ## 2. One message -/

namespace RepliesLemmas

/-- The program goes through, with so many calls and replies. -/
def Ends (p : Prog) (o : Nat → Outcome) (calls replies : Nat) : Prop :=
  ∃ es, p.outputs o = some es ∧ callsOf es = calls ∧ (repliesOf es).length = replies

theorem ends_query_iff {c : Call} {s : Statement} {k : Outcome → Prog} {calls replies : Nat} :
    Ends (.query c s k) o calls replies ↔
      s.Fits ∧ ∃ n, calls = n + 1 ∧ Ends (k (o 0)) (fun n => o (n + 1)) n replies := by
  unfold Ends
  simp only [Prog.outputs]
  split
  · next hfits =>
    rw [and_iff_right hfits]
    simp only [Option.map_eq_some_iff]
    constructor
    · rintro ⟨-, ⟨es, hes, rfl⟩, rfl, rfl⟩
      exact ⟨callsOf es, by simp [callsOf], es, hes, rfl, by simp [repliesOf]⟩
    · rintro ⟨n, rfl, es, hes, rfl, rfl⟩
      exact ⟨_, ⟨es, hes, rfl⟩, by simp [callsOf], by simp [repliesOf]⟩
  · next hfits => simp [hfits]

theorem ends_of_outputs {p : Prog} {es : List Effect} (h : p.outputs o = some es)
    {calls replies : Nat} :
    Ends p o calls replies ↔ calls = callsOf es ∧ replies = (repliesOf es).length := by
  constructor
  · rintro ⟨es', hes', rfl, rfl⟩
    obtain rfl := Option.some.inj (h.symm.trans hes')
    exact ⟨rfl, rfl⟩
  · rintro ⟨rfl, rfl⟩
    exact ⟨es, h, rfl, rfl⟩

theorem ends_lock_iff {k : Prog} {calls replies : Nat} :
    Ends (.lock k) o calls replies ↔ Ends k o calls replies := Iff.rfl

theorem ends_sendReply_iff {str : Bytes} {calls : Nat} :
    Ends (sendReply str (.unlock .done)) o calls 1 ↔ calls = 0 := by
  have hout : (sendReply str (.unlock .done)).outputs o = some [.write (xorKey str)] := rfl
  rw [ends_of_outputs hout]
  exact and_iff_left rfl

theorem ends_runInsert_iff {s : Statement} {calls : Nat} :
    Ends (runInsert s .done) o calls 1 ↔ s.Fits ∧ calls = 1 := by
  rw [runInsert, ends_query_iff]
  simp only [ends_sendReply_iff, exists_eq_right, Nat.zero_add]

theorem not_ends_crash {calls replies : Nat} : ¬ Ends .crash o calls replies := by
  rintro ⟨es, hes, -⟩
  cases hes

theorem ends_lookupAndInsert_iff {calls : Nat} :
    Ends (lookupAndInsert r .done) o calls 1 ↔
      (Statement.lookupUser r.name).Fits ∧ Readable (o 0) ∧
        if (o 0).NoRows then (Statement.insertUser r.name r.passwd).Fits ∧ calls = 2
        else calls = 1 := by
  rw [lookupAndInsert, ends_query_iff, ← selectData_isSome_iff]
  refine and_congr_right fun _ => ?_
  cases hstrval : selectData 3 (o 0) with
  | none => simp [not_ends_crash]
  | some strval =>
    simp only [selectData_length_eq_zero hstrval, Option.isSome_some, true_and]
    split
    · simp only [ends_runInsert_iff]
      constructor
      · rintro ⟨n, rfl, hfits, rfl⟩
        exact ⟨hfits, rfl⟩
      · rintro ⟨hfits, rfl⟩
        exact ⟨1, rfl, hfits, rfl⟩
    · simp only [ends_sendReply_iff, exists_eq_right, Nat.zero_add]

theorem ends_selectCase_iff {calls : Nat} :
    Ends (selectCase r .done) o calls 1 ↔
      ((Statement.selectUser r.name).Fits ∧ Readable (o 0)) ∧ calls = 1 := by
  rw [selectCase, ends_lock_iff, ends_query_iff, ← @selectReply_isSome_iff _ r.passwd, and_assoc]
  refine and_congr_right fun _ => ?_
  cases selectReply r.passwd (o 0) with
  | none => simp [not_ends_crash]
  | some str => simp only [ends_sendReply_iff, exists_eq_right, Nat.zero_add, Option.isSome_some,
      true_and]

theorem ends_updateCase_iff {calls : Nat} :
    Ends (updateCase r .done) o calls 1 ↔
      (Statement.updateUser r.passwd r.name).Fits ∧ calls = 1 := by
  rw [updateCase, ends_lock_iff, ends_query_iff]
  simp only [ends_sendReply_iff, exists_eq_right, Nat.zero_add]

/-- The reply to a DELETE is missing. -/
theorem not_ends_deleteCase {calls : Nat} : ¬ Ends (deleteCase r .done) o calls 1 := by
  rw [deleteCase, ends_lock_iff, ends_query_iff]
  rintro ⟨-, n, -, es, hes, -, hreplies⟩
  obtain rfl : [] = es := Option.some.inj hes
  cases hreplies

theorem ends_format_iff {calls : Nat} :
    Ends (sendReply (ascii "e3:fail") .done) o calls 1 ↔ calls = 0 := by
  have hout : (sendReply (ascii "e3:fail") .done).outputs o =
      some [.write (xorKey (ascii "e3:fail"))] := rfl
  rw [ends_of_outputs hout]
  exact and_iff_left rfl

theorem ends_dispatch_iff {calls : Nat} :
    Ends (dispatch r .done) o calls 1 ↔
      Message.GetsReply o (.request r) ∧ calls = Message.calls o (.request r) := by
  simp only [Message.GetsReply, Message.calls]
  by_cases hinsert : r.command = INSERT
  · rw [dispatch_insert hinsert, if_pos hinsert, if_pos hinsert, insertCase, ends_lock_iff]
    split
    · exact ends_runInsert_iff
    · rw [ends_lookupAndInsert_iff]
      by_cases hrows : (o 0).NoRows
      · simp [hrows, and_assoc]
      · simp [hrows, and_assoc]
  rw [if_neg hinsert, if_neg hinsert]
  by_cases hselect : r.command = SELECT
  · rw [dispatch_select hselect, if_pos hselect, if_pos (.inl hselect)]
    exact ends_selectCase_iff
  rw [if_neg hselect]
  by_cases hupdate : r.command = UPDATE
  · rw [dispatch_update hupdate, if_pos hupdate, if_pos (.inr (.inl hupdate))]
    exact ends_updateCase_iff
  rw [if_neg hupdate]
  by_cases hdelete : r.command = DELETE
  · rw [dispatch_delete hdelete]
    exact iff_of_false not_ends_deleteCase fun h => h.1 hdelete
  · rw [dispatch_unknown ⟨hinsert, hselect, hupdate, hdelete⟩, ends_format_iff,
      if_neg (by simp [hselect, hupdate, hdelete]), and_iff_right hdelete]

theorem ends_handle_iff {m : Message} {calls : Nat} :
    Ends (handle m .done) o calls 1 ↔ m.GetsReply o ∧ calls = m.calls o := by
  cases m with
  | malformed => exact ends_format_iff.trans (and_iff_right trivial).symm
  | request r => exact ends_dispatch_iff

end RepliesLemmas

theorem getsReply_iff {m : Message} {o : Nat → Outcome} :
    (∃ es, (handle m .done).outputs o = some es ∧ (repliesOf es).length = 1) ↔ m.GetsReply o := by
  constructor
  · rintro ⟨es, hes, hone⟩
    exact (ends_handle_iff.mp ⟨es, hes, rfl, hone⟩).1
  · intro h
    obtain ⟨es, hes, -, hone⟩ := ends_handle_iff.mpr ⟨h, rfl⟩
    exact ⟨es, hes, hone⟩

/-! ## 3. A read -/

namespace RepliesLemmas

theorem allAnswered_iff {ms : List Message} {o : Nat → Outcome} :
    (∃ turns, Turns o ms turns ∧ ∀ es ∈ turns, (repliesOf es).length = 1) ↔ AllAnswered o ms := by
  induction ms generalizing o with
  | nil => exact iff_of_true ⟨[], .nil, by simp⟩ trivial
  | cons m ms ih =>
    rw [AllAnswered, ← ih]
    constructor
    · rintro ⟨turns, hturns, hone⟩
      cases hturns with
      | @cons _ _ _ es turns hfirst hrest =>
        obtain ⟨hone₁, hone⟩ := List.forall_mem_cons.mp hone
        obtain ⟨hreply, hcalls⟩ := ends_handle_iff.mp ⟨es, hfirst, rfl, hone₁⟩
        rw [← hcalls]
        exact ⟨hreply, turns, hrest, hone⟩
    · rintro ⟨hreply, turns, hrest, hone⟩
      obtain ⟨es, hes, hcalls, hone₁⟩ := ends_handle_iff.mpr ⟨hreply, rfl⟩
      rw [← hcalls] at hrest
      exact ⟨es :: turns, .cons hes hrest, List.forall_mem_cons.mpr ⟨hone₁, hone⟩⟩

/-- Where nothing is sent no reply is due. -/
theorem messages_nil {ms : List Message} {o : Nat → Outcome} {turns : List (List Effect)}
    (h : Turns o ms turns) (hone : ∀ es ∈ turns, (repliesOf es).length = 1)
    (hnil : turns.flatten = []) : ms = [] := by
  cases h with
  | nil => rfl
  | @cons _ _ _ es turns _ _ =>
    have hes : es = [] := (List.append_eq_nil_iff.mp hnil).1
    have hone₁ := hone es (.head _)
    rw [hes] at hone₁
    cases hone₁

/-- The messages that the loop handles. -/
theorem startRoutine_readMessages {conn : Conn} (hv : conn.isVerify = true) (peer : InAddr)
    (data : Bytes) :
    (startRoutine conn peer data).messages =
      if findSPACE (xorKey data) then readMessages peer data else [] := by
  rw [startRoutine_verified hv, messagesOf]
  by_cases hcrlf : findCRLF (xorKey data) = true
  · rw [hcrlf, Bool.true_and]
    rfl
  · -- without a CRLF there is no message to split
    have hnone : readMessages peer data = [] := by
      rw [readMessages, splitData_eq CRLF_ne_nil (.rest fun hin => hcrlf (findCRLF_iff.mpr hin))]
      rfl
    simp [hcrlf, hnone]

end RepliesLemmas

/-- A read on a verified connection is answered message by message exactly when there
is none in it, or it has three spaces and every message is answered. -/
theorem replies_in_order {conn : Conn} (hv : conn.isVerify = true) (peer : InAddr) (data : Bytes)
    (o : Nat → Outcome) : OneReplyEach conn peer data o ↔ ReadAnswered peer data o := by
  unfold OneReplyEach ReadAnswered
  rw [prog_verified hv, startRoutine_readMessages hv]
  by_cases hspace : findSPACE (xorKey data) = true
  · rw [if_pos hspace, and_iff_right hspace, ← allAnswered_iff]
    constructor
    · rintro ⟨turns, -, hturns, hone⟩
      exact .inr ⟨turns, hturns, hone⟩
    · rintro (hnil | ⟨turns, hturns, hone⟩)
      · rw [hnil]
        exact ⟨[], rfl, .nil, by simp⟩
      · exact ⟨turns, handleAll_outputs.mpr ⟨turns, hturns, rfl⟩, hturns, hone⟩
  · rw [if_neg hspace]
    constructor
    · rintro ⟨turns, hout, hturns, hone⟩
      exact .inl (messages_nil hturns hone (Option.some.inj hout).symm)
    · rintro (hnil | ⟨hspace', -⟩)
      · rw [hnil]
        exact ⟨[], rfl, .nil, by simp⟩
      · exact absurd hspace' hspace

/-- A login of `bob` and a message of one field. -/
def loginAndNoise : Bytes := xorKey (ascii "123452   bob   pw   \r\n12345noise\r\n")

/-- The row of `bob`. -/
def bobRows : Outcome := .rows [[some (ascii "1"), some (ascii "bob"), some (ascii "pw")]]

theorem replies_in_order_loginAndNoise :
    OneReplyEach ⟨7, 0, 0, true, 0⟩ ⟨127, 0, 0, 1⟩ loginAndNoise (fun _ => bobRows) ↔
      ReadAnswered ⟨127, 0, 0, 1⟩ loginAndNoise fun _ => bobRows :=
  replies_in_order rfl _ _ _

/-- The message of one field is answered beside the login, and not on its own. A DELETE
is not answered either, and a login whose row has no password is not even handled. -/
theorem unanswered_messages :
    (startRoutine ⟨7, 0, 0, true, 0⟩ ⟨127, 0, 0, 1⟩ loginAndNoise).prog.outputs
      (fun _ => bobRows) = some [.query .selectData (.selectUser (ascii "bob")),
        .write (xorKey (ascii "f0:ok")), .write (xorKey (ascii "e3:fail"))] ∧
    (startRoutine ⟨7, 0, 0, true, 0⟩ ⟨127, 0, 0, 1⟩
      (xorKey (ascii "12345noise\r\n"))).prog.outputs (fun _ => .noResult) = some [] ∧
    ¬ OneReplyEach ⟨7, 0, 0, true, 0⟩ ⟨127, 0, 0, 1⟩ (xorKey (ascii "12345noise\r\n"))
      (fun _ => .noResult) ∧
    (startRoutine ⟨7, 0, 0, true, 0⟩ ⟨127, 0, 0, 1⟩
      (xorKey (ascii "123454   bob   pw   \r\n"))).prog.outputs (fun _ => .noResult) =
        some [.query .deleteData (.deleteUser [])] ∧
    (startRoutine ⟨7, 0, 0, true, 0⟩ ⟨127, 0, 0, 1⟩
      (xorKey (ascii "123452   bob   pw   \r\n"))).prog.outputs
        (fun _ => .rows [[some (ascii "1"), some (ascii "bob"), none]]) = none := by
  have hnoise : readMessages ⟨127, 0, 0, 1⟩ (xorKey (ascii "12345noise\r\n")) =
      [.malformed] := by
    decide +kernel
  have hnone : (startRoutine ⟨7, 0, 0, true, 0⟩ ⟨127, 0, 0, 1⟩
      (xorKey (ascii "12345noise\r\n"))).prog.outputs (fun _ => .noResult) = some [] := by
    decide +kernel
  refine ⟨by decide +kernel, hnone, ?_, by decide +kernel, by decide +kernel⟩
  rintro ⟨turns, hout, hturns, hone⟩
  rw [hnone] at hout
  have hnil := messages_nil hturns hone (Option.some.inj hout).symm
  rw [hnoise] at hnil
  cases hnil

end SundayServer
