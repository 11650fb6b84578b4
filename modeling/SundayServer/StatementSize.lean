import SundayServer.Encoding
import SundayServer.FieldValues

/-!
# The statement texts and the array `sql`

`start_routine` reads at most `BUFSIZE` bytes and formats the statements of a
request into an array of `BUFSIZE` bytes. The texts around the fields make a
statement longer than the message it comes from.

* `StatementsFit`: every statement the handler may execute leaves room for the
  terminating NUL.
* `FieldsFit`: the lengths of fields, up to their first NUL, for which they do.

Results:
1. `text_length`: the length of each statement text.
2. `statementsFit_iff`: which requests fit.
3. `statementsFit_of_short`: the requests of a read of at most 948 bytes do.
-/

namespace SundayServer

/-! ## Definitions -/

/-- Whatever the database answers, each text that is formatted leaves room in
`sql` for its NUL. -/
def StatementsFit (r : Request) : Prop :=
  ∀ o c s, .query c s ∈ (dispatch r .done).effects o → s.text.length ≤ BUFSIZE - 1

/-- The fields that a statement of the request holds are short enough for it. -/
def FieldsFit (r : Request) : Prop :=
  if r.command = INSERT then
    if r.name ≠ ascii "0000" ∧ r.deviceId ≠ ascii "0000" then
      (cstr r.name).length + (cstr r.deviceId).length + (cstr r.p2pId).length +
        (cstr r.ip).length ≤ 938
    else (cstr r.name).length + (cstr r.passwd).length ≤ 967
  else if r.command = SELECT then (cstr r.name).length ≤ 986
  else if r.command = UPDATE then (cstr r.passwd).length + (cstr r.name).length ≤ 977
  else True

instance (r : Request) : Decidable (FieldsFit r) := by
  unfold FieldsFit
  infer_instance

/-! ## 1. Lengths -/

theorem text_length (s : Statement) : s.text.length =
    match s with
    | .insertDevice name deviceId p2pId ip =>
      85 + (cstr name).length + (cstr deviceId).length + (cstr p2pId).length + (cstr ip).length
    | .lookupUser name => 39 + (cstr name).length
    | .insertUser name passwd => 56 + (cstr name).length + (cstr passwd).length
    | .selectUser name => 37 + (cstr name).length
    | .updateUser passwd name => 46 + (cstr passwd).length + (cstr name).length
    | .deleteUser id => 42 + (cstr id).length := by
  have hlead : s.lead.length = match s with
      | .insertDevice .. => 73
      | .lookupUser _ => 37
      | .insertUser .. => 50
      | .selectUser _ => 35
      | .updateUser .. => 28
      | .deleteUser _ => 40 := by
    cases s <;> simp only [Statement.lead] <;> decide +kernel
  have hcomma : (ascii ",").length = 1 := by decide
  have hparen : (ascii ")").length = 1 := by decide
  have hwhere : (ascii " where name = ").length = 14 := by decide
  rw [s.text_eq_render]
  cases s <;>
    simp only [Statement.slots, List.map_cons, List.map_nil, Prod.map, id, Literal.render,
      List.length_append, List.length_cons, List.length_nil, hcomma, hparen, hwhere] at hlead ⊢ <;>
    omega

/-! ## 2. Requests -/

namespace StatementSizeLemmas

theorem query_deleteCase_iff {r : Request} {s : Statement} :
    (∃ o c, .query c s ∈ (deleteCase r .done).effects o) ↔ s = .deleteUser r.id := by
  simp only [deleteCase, Prog.effects, List.mem_cons, Effect.query.injEq]
  constructor
  · rintro ⟨o, c, ⟨-, h⟩ | h⟩
    · exact h
    · cases h
  · rintro rfl
    exact ⟨fun _ => .noResult, .deleteData, .inl ⟨rfl, rfl⟩⟩

/-- The commands without statements from the fields: DELETE, whose only value is
the empty `id`, and the unknown ones, which execute nothing. -/
theorem statementsFit_other {r : Request} (hid : r.id = [])
    (hc : ¬ (r.command = INSERT ∨ r.command = SELECT ∨ r.command = UPDATE)) :
    StatementsFit r := by
  intro o c s hq
  obtain ⟨h₁, h₂, h₃⟩ : r.command ≠ INSERT ∧ r.command ≠ SELECT ∧ r.command ≠ UPDATE := by
    simpa [not_or] using hc
  by_cases h₄ : r.command = DELETE
  · rw [dispatch_delete h₄] at hq
    obtain rfl := query_deleteCase_iff.mp ⟨o, c, hq⟩
    rw [text_length, hid]
    decide
  · rw [dispatch_unknown ⟨h₁, h₂, h₃, h₄⟩] at hq
    simp [sendReply, Prog.effects] at hq

/-- The commands whose statements are made of fields, one text at a time. -/
theorem statementsFit_iff_statementsOf {r : Request}
    (hc : r.command = INSERT ∨ r.command = SELECT ∨ r.command = UPDATE) :
    StatementsFit r ↔ ∀ s ∈ statementsOf r, s.text.length ≤ BUFSIZE - 1 := by
  constructor
  · intro hfit s hs
    obtain ⟨o, c, hq⟩ := (query_dispatch_iff hc).mpr hs
    exact hfit o c s hq
  · intro hfit o c s hq
    exact hfit s ((query_dispatch_iff hc).mp ⟨o, c, hq⟩)

theorem statementsOf_fit_iff {r : Request}
    (hc : r.command = INSERT ∨ r.command = SELECT ∨ r.command = UPDATE) :
    (∀ s ∈ statementsOf r, s.text.length ≤ BUFSIZE - 1) ↔ FieldsFit r := by
  have hbuf : BUFSIZE - 1 = 1023 := rfl
  unfold statementsOf FieldsFit
  split
  · split
    · simp only [List.forall_mem_singleton, text_length]
      omega
    · -- the longer of the two texts decides, and that is the INSERT one
      simp only [List.forall_mem_cons, List.not_mem_nil, false_implies, implies_true, and_true,
        text_length]
      omega
  · split
    · simp only [List.forall_mem_singleton, text_length]
      omega
    · next h₁ h₂ =>
      rw [if_pos ((hc.resolve_left h₁).resolve_left h₂)]
      simp only [List.forall_mem_singleton, text_length]
      omega

theorem fieldsFit_other {r : Request}
    (hc : ¬ (r.command = INSERT ∨ r.command = SELECT ∨ r.command = UPDATE)) : FieldsFit r := by
  obtain ⟨h₁, h₂, h₃⟩ : r.command ≠ INSERT ∧ r.command ≠ SELECT ∧ r.command ≠ UPDATE := by
    simpa [not_or] using hc
  rw [FieldsFit, if_neg h₁, if_neg h₂, if_neg h₃]
  trivial

/-- A request that has been parsed, with its `id` still empty. -/
theorem fit_iff_of_parsed {peer : InAddr} {m : Bytes} {r : Request}
    (h : parseMessage peer m = .request r) : StatementsFit r ↔ FieldsFit r := by
  by_cases hc : r.command = INSERT ∨ r.command = SELECT ∨ r.command = UPDATE
  · exact (statementsFit_iff_statementsOf hc).trans (statementsOf_fit_iff hc)
  · exact iff_of_true (statementsFit_other (parseMessage_id h) hc) (fieldsFit_other hc)

/-- The fields stand in the message, each with three spaces after it. -/
theorem fields_length_le {peer : InAddr} {m : Bytes} {r : Request}
    (h : parseMessage peer m = .request r) :
    (r.deviceId = [] ∧ r.p2pId = [] ∧ r.ip = [] ∧
      r.name.length + r.passwd.length + 14 ≤ m.length) ∨
    (r.ip = inetNtoa peer ∧
      r.name.length + r.passwd.length + r.deviceId.length + r.p2pId.length + 23 ≤ m.length) := by
  obtain ⟨ts, rest, hts, hsplit⟩ := splitData_splits SPACE3_ne_nil (m.drop TOKEN_LENGTH) []
  have hjoin := congrArg List.length hsplit.join
  rw [List.length_append, List.length_drop] at hjoin
  have hspace : SPACE3.length = 3 := rfl
  have htoken : TOKEN_LENGTH = 5 := rfl
  unfold parseMessage at h
  split at h
  · next command name passwd deviceId p2pId _ hfields =>
    obtain rfl : ts = _ := by simpa using hts.symm.trans hfields
    cases h
    refine .inr ⟨rfl, ?_⟩
    simp only [List.map_cons, List.map_nil, List.flatten_cons, List.flatten_nil,
      List.length_append, List.length_nil, hspace, htoken] at hjoin ⊢
    omega
  · next command name passwd hfields =>
    obtain rfl : ts = _ := by simpa using hts.symm.trans hfields
    cases h
    refine .inl ⟨rfl, rfl, rfl, ?_⟩
    simp only [List.map_cons, List.map_nil, List.flatten_cons, List.flatten_nil,
      List.length_append, List.length_nil, hspace, htoken] at hjoin ⊢
    omega
  · cases h

theorem byteText_length_le (b : UInt8) : (byteText b).length ≤ 3 := by
  unfold byteText
  repeat' split
  all_goals simp

theorem inetNtoa_length_le (addr : InAddr) : (inetNtoa addr).length ≤ 15 := by
  have ha := byteText_length_le addr.a
  have hb := byteText_length_le addr.b
  have hc := byteText_length_le addr.c
  have hd := byteText_length_le addr.d
  simp only [inetNtoa, List.length_append, List.length_singleton]
  omega

theorem length_cstr_le (s : Bytes) : (cstr s).length ≤ s.length := (cstr_prefix_self s).length_le

end StatementSizeLemmas

open StatementSizeLemmas

/-- For every request of a read, the statements it may execute fit `sql` exactly
when its fields are short enough. -/
theorem statementsFit_iff {conn : Conn} {peer : InAddr} {data : Bytes} {r : Request}
    (h : .request r ∈ (startRoutine conn peer data).messages) :
    StatementsFit r ↔ FieldsFit r := by
  obtain ⟨m, hm⟩ := startRoutine_parsed h
  exact fit_iff_of_parsed hm.symm

/-- A login of `bob`. -/
def shortLogin : Bytes := xorKey (encodeStream [[ascii "2", ascii "bob", ascii "pw"]])

theorem statementsFit_iff_shortLogin :
    StatementsFit { command := SELECT, name := ascii "bob", passwd := ascii "pw" } ↔
      FieldsFit { command := SELECT, name := ascii "bob", passwd := ascii "pw" } :=
  @statementsFit_iff ⟨7, 0, 0, true, 0⟩ ⟨127, 0, 0, 1⟩ shortLogin _ (by decide +kernel)

/-- A name of a thousand letters. -/
def longName : Bytes := List.replicate 1000 0x61

theorem longName_length : longName.length = 1000 := List.length_replicate

theorem longName_unambiguous : Unambiguous longName := by
  have hfree : ∀ d : Bytes, (∃ b ∈ d, b ≠ 0x61) → ¬ d <:+: longName := by
    rintro d ⟨b, hb, hne⟩ hin
    exact hne (List.eq_of_mem_replicate (hin.subset hb))
  refine ⟨hfree CRLF ⟨0x0d, by decide⟩, hfree SPACE3 ⟨0x20, by decide⟩, fun hlast => ?_⟩
  have hmem := List.mem_of_getLast? hlast
  exact absurd (List.eq_of_mem_replicate hmem) (by decide)

/-- A login with that name. -/
def longLogin : Bytes := xorKey (encodeStream [[ascii "2", longName, ascii "pw"]])

/-- It is a read of 1019 bytes, and its statement has 1037. -/
theorem longLogin_not_fit :
    longLogin.length = 1019 ∧ longLogin.length ≤ BUFSIZE ∧
    ∃ r, .request r ∈ (startRoutine ⟨7, 0, 0, true, 0⟩ ⟨127, 0, 0, 1⟩ longLogin).messages ∧
      ¬ StatementsFit r := by
  have hfields : ∀ fields ∈ [[ascii "2", longName, ascii "pw"]], ∀ f ∈ fields, Unambiguous f := by
    simp only [List.forall_mem_singleton, List.forall_mem_cons]
    exact ⟨by decide, longName_unambiguous, by decide⟩
  have hread : .request { command := SELECT, name := longName, passwd := ascii "pw" } ∈
      (startRoutine ⟨7, 0, 0, true, 0⟩ ⟨127, 0, 0, 1⟩ longLogin).messages := by
    rw [startRoutine_verified rfl, longLogin, xorKey_xorKey,
      messagesOf_encode _ (by simp) hfields]
    exact List.mem_singleton.mpr rfl
  have hlength : longLogin.length = 1019 := by
    have htoken : TOKEN_STR.length = 5 := rfl
    have hspace : SPACE3.length = 3 := rfl
    have hcrlf : CRLF.length = 2 := rfl
    have hcommand : (ascii "2").length = 1 := rfl
    have hpasswd : (ascii "pw").length = 2 := rfl
    simp only [longLogin, xorKey_length, encodeStream, encodeMessage, List.flatMap_cons,
      List.flatMap_nil, List.length_append, List.length_nil, longName_length, htoken, hspace,
      hcrlf, hcommand, hpasswd]
  refine ⟨hlength, ?_, _, hread, ?_⟩
  · rw [hlength]
    decide
  · intro hfit
    have hq : .query .selectData (.selectUser longName) ∈ (dispatch
        { command := SELECT, name := longName, passwd := ascii "pw" } .done).effects
        fun _ => .noResult := .head _
    have hlen := hfit _ _ _ hq
    have hcstr : cstr longName = longName := cstr_eq_self_iff.mpr fun h0 =>
      absurd (List.eq_of_mem_replicate h0) (by decide)
    rw [text_length] at hlen
    simp only [hcstr, longName_length, BUFSIZE] at hlen
    omega

/-! ## 3. Short reads -/

/-- Every statement of a read of at most 948 bytes fits. -/
theorem statementsFit_of_short {conn : Conn} {peer : InAddr} {data : Bytes}
    (hlen : data.length ≤ 948) {r : Request}
    (h : .request r ∈ (startRoutine conn peer data).messages) : StatementsFit r := by
  obtain ⟨m, hm, hin⟩ := startRoutine_infix h
  rw [fit_iff_of_parsed hm.symm]
  have hle := hin.length_le
  rw [List.length_append, xorKey_length, show CRLF.length = 2 from rfl] at hle
  have hname := length_cstr_le r.name
  have hpasswd := length_cstr_le r.passwd
  have hdevice := length_cstr_le r.deviceId
  have hp2p := length_cstr_le r.p2pId
  have hip := length_cstr_le r.ip
  have hpeer := inetNtoa_length_le peer
  have hfields := fields_length_le hm.symm
  unfold FieldsFit
  split
  · split
    · rcases hfields with ⟨hd, hp, hi, hsum⟩ | ⟨hi, hsum⟩
      · rw [hd, List.length_nil] at hdevice
        rw [hp, List.length_nil] at hp2p
        rw [hi, List.length_nil] at hip
        rw [hd, hp, hi]
        omega
      · rw [hi] at hip ⊢
        omega
    · omega
  · split
    · omega
    · split
      · omega
      · trivial

end SundayServer
