import SundayServer.Lib.Literal
import SundayServer.Utils

/-!
# The statement texts and MySQL's literal rules

`Statement` lists the six `sprintf` calls of `start_routine`, each with the
`std::string` values put in its placeholders, in their order. `Statement.text`
is what `sprintf` writes: `c_str()` cuts a value at its first NUL, and nothing
escapes it. `sprintf` does not know the size of the array `sql`; `Statement.Fits` says
which texts it holds.

`mysqlRules` are the rules of a single-quoted literal: two quotes stand for
one, and a backslash pair for what the manual's table of escape sequences says
(`\%` and `\_` stand for themselves, a pair that is not in the table for its
second character).

Result: `Statement.lex_text_iff`: a statement lexes as its template with its values
exactly when every value is `LiteralSafe`.
-/

namespace SundayServer

/-- `sprintf` with `%s` conversions. -/
def sprintf : Bytes → List Bytes → Bytes
  | [], _ => []
  | [c], _ => [c]
  | c :: d :: f, args =>
    if c = 0x25 ∧ d = 0x73 then
      match args with
      | [] => sprintf f []
      | a :: args => cstr a ++ sprintf f args
    else c :: sprintf (d :: f) args

/-- The statements of `start_routine`, with the values of their placeholders. -/
inductive Statement
  /-- INSERT, when neither `name` nor `device_id` is `"0000"`. -/
  | insertDevice (name deviceId p2pId ip : Bytes)
  /-- INSERT, the test whether the user is in the table. -/
  | lookupUser (name : Bytes)
  /-- INSERT, after that test. -/
  | insertUser (name passwd : Bytes)
  | selectUser (name : Bytes)
  | updateUser (passwd name : Bytes)
  | deleteUser (id : Bytes)
deriving DecidableEq, Repr

namespace Statement

def format : Statement → Bytes
  | insertDevice .. => ascii
    "insert delayed into device_info(name,device_id,p2p_id,ip_address) values('%s','%s','%s','%s')"
  | lookupUser _ => ascii "SELECT * FROM user_info where name = '%s'"
  | insertUser .. => ascii "insert delayed into user_info(name,passwd) values('%s','%s')"
  | selectUser _ => ascii "SELECT * FROM user_info where name='%s'"
  | updateUser .. => ascii "update user_info set passwd='%s' where name = '%s'"
  | deleteUser _ => ascii "delete from user_info where device_id = '%s'"

def args : Statement → List Bytes
  | insertDevice name deviceId p2pId ip => [name, deviceId, p2pId, ip]
  | lookupUser name => [name]
  | insertUser name passwd => [name, passwd]
  | selectUser name => [name]
  | updateUser passwd name => [passwd, name]
  | deleteUser id => [id]

/-- The text handed to `PrinterToMySQL`. -/
def text (s : Statement) : Bytes := sprintf s.format s.args

/-- The text and its NUL have room in `sql[BUFSIZE]`. -/
def Fits (s : Statement) : Prop := s.text.length < BUFSIZE

instance (s : Statement) : Decidable s.Fits := inferInstanceAs (Decidable (_ < _))

/-- The text of the template before its first quote. -/
def lead : Statement → Bytes
  | insertDevice .. => ascii
    "insert delayed into device_info(name,device_id,p2p_id,ip_address) values("
  | lookupUser _ => ascii "SELECT * FROM user_info where name = "
  | insertUser .. => ascii "insert delayed into user_info(name,passwd) values("
  | selectUser _ => ascii "SELECT * FROM user_info where name="
  | updateUser .. => ascii "update user_info set passwd="
  | deleteUser _ => ascii "delete from user_info where device_id = "

/-- Each value with the text of the template after its closing quote. -/
def slots : Statement → List (Bytes × Bytes)
  | insertDevice name deviceId p2pId ip =>
    [(name, ascii ","), (deviceId, ascii ","), (p2pId, ascii ","), (ip, ascii ")")]
  | lookupUser name => [(name, [])]
  | insertUser name passwd => [(name, ascii ","), (passwd, ascii ")")]
  | selectUser name => [(name, [])]
  | updateUser passwd name => [(passwd, ascii " where name = "), (name, [])]
  | deleteUser id => [(id, [])]

/-- The tokens of the template with one literal for each placeholder, whose
value is the placeholder's `std::string`. -/
def meant (s : Statement) : List (Literal.Tok UInt8) := Literal.tokens s.lead s.slots

end Statement

/-- What a backslash and the byte after it stand for inside a literal. -/
def mysqlUnescape (c : UInt8) : Bytes :=
  if c = 0x30 then [0]              -- \0
  else if c = 0x62 then [0x08]      -- \b
  else if c = 0x6e then [0x0a]      -- \n
  else if c = 0x72 then [0x0d]      -- \r
  else if c = 0x74 then [0x09]      -- \t
  else if c = 0x5a then [0x1a]      -- \Z
  else if c = 0x25 then [0x5c, c]   -- \%
  else if c = 0x5f then [0x5c, c]   -- \_
  else [c]

theorem mysqlUnescape_cases (c : UInt8) :
    (mysqlUnescape c).length = 1 ∨ mysqlUnescape c = [0x5c, c] := by
  unfold mysqlUnescape
  repeat' split
  all_goals simp

/-- The single-quoted literals of MySQL. -/
def mysqlRules : Literal.Rules UInt8 where
  quote := 0x27
  esc := 0x5c
  unescape := mysqlUnescape
  quote_ne_esc := by decide
  unescape_length c := by
    rcases mysqlUnescape_cases c with h | h
    · omega
    · simp [h]
  unescape_two c h := by
    rcases mysqlUnescape_cases c with h' | h'
    · omega
    · exact h'

/-- The tokens of a statement text. -/
def mysqlLex (text : Bytes) : Option (List (Literal.Tok UInt8)) := Literal.lex mysqlRules none text

/-- The format of a placeholder between its quotes and of the text after it. -/
def placeholder (p : Bytes × Bytes) : Bytes := 0x27 :: 0x25 :: 0x73 :: 0x27 :: p.2

/-- A value that `'%s'` turns into the literal of that value: no NUL, no quote,
and a backslash only before `%` or `_`. -/
def LiteralSafe (a : Bytes) : Prop := 0 ∉ a ∧ Literal.plain mysqlRules a = true

instance (a : Bytes) : Decidable (LiteralSafe a) :=
  inferInstanceAs (Decidable (0 ∉ a ∧ Literal.plain mysqlRules a = true))

theorem sprintf_text {q : Bytes} (hq : 0x25 ∉ q) (f : Bytes) (args : List Bytes) :
    sprintf (q ++ f) args = q ++ sprintf f args := by
  induction q with
  | nil => rfl
  | cons c q ih =>
    obtain ⟨hc, hq'⟩ : 0x25 ≠ c ∧ 0x25 ∉ q := by simpa using hq
    have ih := ih hq'
    cases hs : q ++ f with
    | nil =>
      obtain ⟨rfl, rfl⟩ := List.append_eq_nil_iff.mp hs
      simp [sprintf]
    | cons d s =>
      rw [hs] at ih
      simp [sprintf, hs, hc.symm, ih]

theorem sprintf_placeholder (f a : Bytes) (args : List Bytes) :
    sprintf (0x27 :: 0x25 :: 0x73 :: 0x27 :: f) (a :: args) =
      0x27 :: (cstr a ++ sprintf (0x27 :: f) args) := by
  simp [sprintf]

/-- A template filled by `sprintf`. -/
theorem sprintf_template {q : Bytes} {l : List (Bytes × Bytes)} (hq : 0x25 ∉ q)
    (hl : ∀ p ∈ l, 0x25 ∉ p.2) :
    sprintf (q ++ l.flatMap placeholder) (l.map Prod.fst) =
      Literal.render mysqlRules q (l.map (Prod.map cstr id)) := by
  induction l generalizing q with
  | nil => simpa [Literal.render, sprintf] using sprintf_text hq [] []
  | cons p l ih =>
    obtain ⟨a, q'⟩ := p
    obtain ⟨hq', hl'⟩ : 0x25 ∉ q' ∧ ∀ p ∈ l, 0x25 ∉ p.2 := List.forall_mem_cons.mp hl
    have hquote : 0x25 ∉ 0x27 :: q' := by simpa using hq'
    calc sprintf (q ++ ((a, q') :: l).flatMap placeholder) (((a, q') :: l).map Prod.fst)
        = q ++ sprintf (0x27 :: 0x25 :: 0x73 :: 0x27 :: (q' ++ l.flatMap placeholder))
            (a :: l.map Prod.fst) := sprintf_text hq _ _
      _ = q ++ 0x27 :: (cstr a ++ sprintf (0x27 :: q' ++ l.flatMap placeholder)
            (l.map Prod.fst)) := by rw [sprintf_placeholder, List.cons_append]
      _ = q ++ 0x27 :: (cstr a ++ 0x27 :: sprintf (q' ++ l.flatMap placeholder)
            (l.map Prod.fst)) := by rw [sprintf_text hquote, sprintf_text hq', List.cons_append]
      _ = Literal.render mysqlRules q (((a, q') :: l).map (Prod.map cstr id)) := by
          rw [ih hq' hl']
          rfl

namespace Statement

theorem slots_args (s : Statement) : s.slots.map Prod.fst = s.args := by
  cases s <;> rfl

/-- The format of the source is the template with `'%s'` in each place. -/
theorem format_eq (s : Statement) : s.format = s.lead ++ s.slots.flatMap placeholder := by
  cases s <;> simp only [format, lead, slots, placeholder, List.flatMap_cons, List.flatMap_nil] <;>
    decide +kernel

/-- The texts of the templates hold no percent sign and no quote. -/
theorem lead_free (s : Statement) : ∀ b ∈ s.lead, b ≠ 0x25 ∧ b ≠ mysqlRules.quote := by
  cases s <;> simp only [lead] <;> decide +kernel

theorem slots_free (s : Statement) : ∀ p ∈ s.slots, ∀ b ∈ p.2, b ≠ 0x25 ∧ b ≠ mysqlRules.quote := by
  cases s <;> simp only [slots, List.forall_mem_cons] <;> decide +kernel

/-- `sprintf` fills the template, each value cut at its first NUL. -/
theorem text_eq_render (s : Statement) :
    s.text = Literal.render mysqlRules s.lead (s.slots.map (Prod.map cstr id)) := by
  unfold text
  rw [format_eq, ← slots_args]
  exact sprintf_template (fun h => (s.lead_free _ h).1 rfl)
    fun p hp h => (s.slots_free p hp _ h).1 rfl

theorem separated_slots (s : Statement) : Literal.Separated mysqlRules s.lead s.slots := by
  have hlead : mysqlRules.quote ∉ s.lead := fun h => (s.lead_free _ h).2 rfl
  have hslot : ∀ p ∈ s.slots, mysqlRules.quote ∉ p.2 := fun p hp h => (s.slots_free p hp _ h).2 rfl
  cases s with
  | insertDevice name deviceId p2pId ip =>
    simp only [slots, List.forall_mem_cons] at hslot
    obtain ⟨h₁, h₂, h₃, h₄, -⟩ := hslot
    exact ⟨hlead, fun _ => by decide, h₁, fun _ => by decide, h₂, fun _ => by decide, h₃,
      fun h => absurd rfl h, h₄⟩
  | insertUser name passwd | updateUser passwd name =>
    simp only [slots, List.forall_mem_cons] at hslot
    obtain ⟨h₁, h₂, -⟩ := hslot
    exact ⟨hlead, fun _ => by decide, h₁, fun h => absurd rfl h, h₂⟩
  | lookupUser name | selectUser name | deleteUser id =>
    exact ⟨hlead, fun h => absurd rfl h, List.not_mem_nil⟩

/-- A statement text lexes as its template with the placeholders' values
exactly when each value is safe. -/
theorem lex_text_iff (s : Statement) :
    mysqlLex s.text = some s.meant ↔ ∀ a ∈ s.args, LiteralSafe a := by
  unfold mysqlLex meant
  rw [text_eq_render, Literal.lex_render_iff mysqlRules cstr_prefix_self s.separated_slots,
    ← slots_args]
  simp only [List.forall_mem_map, LiteralSafe, cstr_eq_self_iff]

end Statement

end SundayServer
