import SundayServer.StartRoutine

/-!
# Request fields inside statement texts

The handlers put the fields of a request between quotes with `'%s'` and escape
nothing. This file says for which requests every statement that is handed to
`PrinterToMySQL` still has the tokens of its template, with each literal equal
to its field.

* `templatesOf`: the templates of a command with the fields of the request.
* `FieldsKept`: every statement the handler may execute is one of them and
  lexes as meant.
* `quotedFields`: the fields that some statement of the request quotes.

Result: `fieldsKept_iff`.
-/

namespace SundayServer

/-- The templates of INSERT, SELECT and UPDATE, filled with the request's fields. -/
def templatesOf (r : Request) : List Statement :=
  if r.command = INSERT then
    [.insertDevice r.name r.deviceId r.p2pId r.ip, .lookupUser r.name,
      .insertUser r.name r.passwd]
  else if r.command = SELECT then [.selectUser r.name]
  else [.updateUser r.passwd r.name]

/-- Whatever the database answers, each statement of the request is one of its
templates and its text has the tokens of that template. -/
def FieldsKept (r : Request) : Prop :=
  ∀ o c s, .query c s ∈ (dispatch r .done).effects o →
    s ∈ templatesOf r ∧ mysqlLex s.text = some s.meant

/-- The fields that the statements of the request put between quotes. -/
def quotedFields (r : Request) : List Bytes :=
  if r.command = INSERT then
    if r.name ≠ ascii "0000" ∧ r.deviceId ≠ ascii "0000" then [r.name, r.deviceId, r.p2pId]
    else [r.name, r.passwd]
  else if r.command = SELECT then [r.name]
  else [r.passwd, r.name]

/-- The statements that the handler of INSERT, SELECT or UPDATE may execute. -/
def statementsOf (r : Request) : List Statement :=
  if r.command = INSERT then
    if r.name ≠ ascii "0000" ∧ r.deviceId ≠ ascii "0000" then
      [.insertDevice r.name r.deviceId r.p2pId r.ip]
    else [.lookupUser r.name, .insertUser r.name r.passwd]
  else if r.command = SELECT then [.selectUser r.name]
  else [.updateUser r.passwd r.name]

/-! ## The statements of a handler -/

namespace FieldValuesLemmas

@[simp] theorem query_mem_sendReply {c : Call} {s : Statement} {str : Bytes} {k : Prog}
    {o : Nat → Outcome} :
    .query c s ∈ (sendReply str k).effects o ↔ .query c s ∈ k.effects o := by
  simp [sendReply, Prog.effects]

@[simp] theorem query_mem_runInsert {c : Call} {s t : Statement} {o : Nat → Outcome} :
    .query c s ∈ (runInsert t .done).effects o ↔ c = .insertData ∧ s = t := by
  simp [runInsert, Prog.effects]

theorem query_insertCase_iff {r : Request} {s : Statement} :
    (∃ o c, .query c s ∈ (insertCase r .done).effects o) ↔
      if r.name ≠ ascii "0000" ∧ r.deviceId ≠ ascii "0000" then
        s = .insertDevice r.name r.deviceId r.p2pId r.ip
      else s = .lookupUser r.name ∨ s = .insertUser r.name r.passwd := by
  simp only [insertCase, Prog.effects]
  split
  · constructor
    · rintro ⟨o, c, h⟩
      exact (query_mem_runInsert.mp h).2
    · intro h
      exact ⟨fun _ => .noResult, .insertData, query_mem_runInsert.mpr ⟨rfl, h⟩⟩
  · simp only [lookupAndInsert, Prog.effects, List.mem_cons, Effect.query.injEq]
    constructor
    · rintro ⟨o, c, ⟨-, h⟩ | h⟩
      · exact .inl h
      · split at h
        · simp [Prog.effects] at h
        · split at h
          · exact .inr (query_mem_runInsert.mp h).2
          · simp [Prog.effects] at h
    · rintro (rfl | rfl)
      · exact ⟨fun _ => .noResult, .selectData, .inl ⟨rfl, rfl⟩⟩
      · exact ⟨fun _ => .noResult, .insertData, .inr (by simp [selectData])⟩

theorem query_selectCase_iff {r : Request} {s : Statement} :
    (∃ o c, .query c s ∈ (selectCase r .done).effects o) ↔ s = .selectUser r.name := by
  simp only [selectCase, Prog.effects, List.mem_cons, Effect.query.injEq]
  constructor
  · rintro ⟨o, c, ⟨-, h⟩ | h⟩
    · exact h
    · split at h <;> simp [Prog.effects] at h
  · rintro rfl
    exact ⟨fun _ => .noResult, .selectData, .inl ⟨rfl, rfl⟩⟩

theorem query_updateCase_iff {r : Request} {s : Statement} :
    (∃ o c, .query c s ∈ (updateCase r .done).effects o) ↔
      s = .updateUser r.passwd r.name := by
  simp only [updateCase, Prog.effects, List.mem_cons, Effect.query.injEq]
  constructor
  · rintro ⟨o, c, ⟨-, h⟩ | h⟩
    · exact h
    · simp [Prog.effects] at h
  · rintro rfl
    exact ⟨fun _ => .noResult, .updateData, .inl ⟨rfl, rfl⟩⟩

end FieldValuesLemmas

open FieldValuesLemmas

/-! ## The statement texts -/

/-- `statementsOf` is exact: for some answers of the database each of them is executed. -/
theorem query_dispatch_iff {r : Request} {s : Statement}
    (hc : r.command = INSERT ∨ r.command = SELECT ∨ r.command = UPDATE) :
    (∃ o c, .query c s ∈ (dispatch r .done).effects o) ↔ s ∈ statementsOf r := by
  unfold dispatch statementsOf
  rcases hc with hc | hc | hc
  · simp only [hc, if_true, query_insertCase_iff]
    split <;> simp
  · simp [hc, INSERT, SELECT, query_selectCase_iff]
  · simp [hc, INSERT, SELECT, UPDATE, query_updateCase_iff]

theorem statementsOf_subset (r : Request) : ∀ s ∈ statementsOf r, s ∈ templatesOf r := by
  intro s hs
  unfold statementsOf at hs
  unfold templatesOf
  split at hs
  · next hi =>
    rw [if_pos hi]
    split at hs <;> simp at hs ⊢ <;> tauto
  · next hi =>
    rwa [if_neg hi]

theorem statementsOf_args {r : Request} (hip : LiteralSafe r.ip) :
    (∀ s ∈ statementsOf r, ∀ a ∈ s.args, LiteralSafe a) ↔
      ∀ a ∈ quotedFields r, LiteralSafe a := by
  unfold statementsOf quotedFields
  split
  · split
    · simp [Statement.args, hip]
    · simp [Statement.args]
  · split <;> simp [Statement.args]

/-- For a request that the parser delivers, every statement keeps its template
and its field values exactly when the fields it quotes are safe. -/
theorem fieldsKept_iff {peer : InAddr} {m : Bytes} {r : Request}
    (hp : parseMessage peer m = .request r)
    (hc : r.command = INSERT ∨ r.command = SELECT ∨ r.command = UPDATE) :
    FieldsKept r ↔ ∀ a ∈ quotedFields r, LiteralSafe a := by
  rw [← statementsOf_args (parseMessage_safe hp).1]
  constructor
  · intro h s hs
    obtain ⟨o, c, hq⟩ := (query_dispatch_iff hc).mpr hs
    exact s.lex_text_iff.mp (h o c s hq).2
  · intro h o c s hq
    have hs := (query_dispatch_iff hc).mp ⟨o, c, hq⟩
    exact ⟨statementsOf_subset r s hs, s.lex_text_iff.mpr (h s hs)⟩

/-- A login whose name holds a quote. -/
def quoteLogin : Bytes := ascii "123452   o'hara   pw   "

/-- Its request. -/
def quoteRequest : Request := { command := SELECT, name := ascii "o'hara", passwd := ascii "pw" }

theorem fieldsKept_iff_quoteLogin :
    FieldsKept quoteRequest ↔ ∀ a ∈ quotedFields quoteRequest, LiteralSafe a :=
  @fieldsKept_iff ⟨127, 0, 0, 1⟩ quoteLogin quoteRequest (by decide +kernel) (.inr (.inl rfl))

/-- The quote ends the literal of the name and the statement's last quote opens
one that nothing closes. -/
theorem quoteLogin_not_kept :
    parseMessage ⟨127, 0, 0, 1⟩ quoteLogin = .request quoteRequest ∧
    mysqlLex (Statement.selectUser (ascii "o'hara")).text = none ∧ ¬ FieldsKept quoteRequest := by
  have hlex : mysqlLex (Statement.selectUser (ascii "o'hara")).text = none := by decide +kernel
  refine ⟨by decide +kernel, hlex, fun h => ?_⟩
  have hkept := (h (fun _ => .noResult) .selectData (.selectUser (ascii "o'hara"))
    (by simp [dispatch, quoteRequest, selectCase, Prog.effects, INSERT, SELECT])).2
  rw [hlex] at hkept
  cases hkept

end SundayServer
