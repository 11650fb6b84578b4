import SundayServer.StartRoutine
import Mathlib.Data.List.DropRight

/-!
# The password check of the SELECT handler

`SelectData` writes each cell and a `0x06` after it, and a `0x05` after each
row. The handler reads the stored password off the end of that string: it scans
back to the last `0x06` but one and drops two bytes. Neither side escapes, and
the comparison takes the request's password as a C string.

* `UserRow`: a row of three cells that are not NULL and hold no NUL.
* `afterLastRg`: what the backward scan finds of a stored password.
* `CheckExact`: the handler answers `f0:ok` to the stored password and
  `e3:fail` to every other one.

Results:
1. `newPasswd_rowsText`: the scan stays in the string, and what it finds.
2. `checkExact_iff`: for which passwords the check is exact.
-/

namespace SundayServer

/-! ## Definitions -/

/-- A row of `user_info` whose three cells are C strings. -/
structure UserRow where
  id : Bytes
  name : Bytes
  passwd : Bytes
  nul_free : 0 ∉ id ∧ 0 ∉ name ∧ 0 ∉ passwd

/-- The row as `mysql_fetch_row` returns it. -/
def UserRow.row (u : UserRow) : Row := [some u.id, some u.name, some u.passwd]

/-- The part of a stored password after its last `0x06`. -/
def afterLastRg (stored : Bytes) : Bytes := stored.rtakeWhile (· ≠ rg)

/-- The handler sends one reply: `f0:ok` when the request's password is the
stored one, `e3:fail` otherwise. -/
def CheckExact (r : Request) (us : List UserRow) (stored : Bytes) : Prop :=
  (selectCase r .done).effects (fun _ => .rows (us.map UserRow.row)) =
    [.query .selectData (.selectUser r.name),
      .write (xorKey (if r.passwd = stored then ascii "f0:ok" else ascii "e3:fail"))]

/-- The passwords for which the check is exact: a stored one without `0x06`
against anything but itself followed by a NUL, and a stored one with `0x06`
against anything but itself and the C string after that byte. -/
def Distinguished (passwd stored : Bytes) : Prop :=
  (rg ∉ stored → ¬ stored ++ [0] <+: passwd) ∧
  (rg ∈ stored → passwd ≠ stored ∧ cstr passwd ≠ afterLastRg stored)

instance (passwd stored : Bytes) : Decidable (Distinguished passwd stored) :=
  inferInstanceAs (Decidable ((_ → _) ∧ (_ → _)))

/-! ## The string of `SelectData` and the scan over it -/

namespace PasswordLemmas

/-- The text of one row. -/
def rowText (u : UserRow) : Bytes :=
  u.id ++ [rg] ++ (u.name ++ [rg] ++ (u.passwd ++ [rg])) ++ [cg]

theorem cellsText_row (u : UserRow) :
    cellsText 3 u.row = some (u.id ++ [rg] ++ (u.name ++ [rg] ++ (u.passwd ++ [rg]))) := by
  obtain ⟨hid, hname, hpasswd⟩ := u.nul_free
  simp [UserRow.row, cellsText, cstr_eq_self_iff.mpr hid, cstr_eq_self_iff.mpr hname,
    cstr_eq_self_iff.mpr hpasswd]

theorem selectData_rows (us : List UserRow) :
    selectData 3 (.rows (us.map UserRow.row)) = some (us.flatMap rowText) := by
  unfold selectData
  induction us with
  | nil => rfl
  | cons u us ih => simp [rowsText, cellsText_row, ih, rowText]

theorem zero_not_mem_rows (us : List UserRow) : 0 ∉ us.flatMap rowText := by
  rw [List.mem_flatMap]
  rintro ⟨u, -, h⟩
  obtain ⟨hid, hname, hpasswd⟩ := u.nul_free
  have hsep : (0 : UInt8) ≠ rg ∧ (0 : UInt8) ≠ cg := by decide
  simp [rowText, hid, hname, hpasswd, hsep] at h

/-- The last cell stands between a `0x06` and the two separators that the
handler drops. -/
theorem rows_tail {us : List UserRow} {stored : Bytes} (hne : us ≠ [])
    (hall : ∀ u ∈ us, u.passwd = stored) :
    ∃ a, us.flatMap rowText = a ++ rg :: stored ++ [rg, cg] := by
  obtain ⟨init, u, rfl⟩ := (List.eq_nil_or_concat' us).resolve_left hne
  have hu : u.passwd = stored := hall u (by simp)
  subst hu
  exact ⟨init.flatMap rowText ++ (u.id ++ [rg] ++ u.name), by simp [rowText]⟩

/-- The last `0x06` before the end of a cell that follows one. -/
theorem exists_last_rg (a stored : Bytes) :
    ∃ b, a ++ rg :: stored = b ++ rg :: afterLastRg stored := by
  unfold afterLastRg
  induction stored using List.reverseRecOn with
  | nil => exact ⟨a, rfl⟩
  | append_singleton s c ih =>
    by_cases hc : c = rg
    · subst hc
      refine ⟨a ++ rg :: s, ?_⟩
      rw [List.rtakeWhile_concat_neg _ _ _ (by simp)]
      simp
    · obtain ⟨b, hb⟩ := ih
      refine ⟨b, ?_⟩
      rw [List.rtakeWhile_concat_pos _ _ _ (by simpa using hc), ← List.cons_append,
        ← List.append_assoc, hb]
      simp

theorem rg_not_mem_afterLastRg (stored : Bytes) : rg ∉ afterLastRg stored := by
  intro h
  simpa using List.mem_rtakeWhile_imp h

theorem afterLastRg_eq_self_iff {stored : Bytes} : afterLastRg stored = stored ↔ rg ∉ stored := by
  constructor
  · intro h hmem
    exact rg_not_mem_afterLastRg stored (h.symm ▸ hmem)
  · intro h
    refine List.rtakeWhile_eq_self_iff.mpr fun b hb => ?_
    simpa using fun hbg : b = rg => h (hbg ▸ hb)

theorem scanBack_hit {p : Bytes} {i : Nat} (h : p[i]? = some rg) : scanBack p i = some i := by
  cases i <;> simp [scanBack, h]

/-- The scan from the end of a stretch without `0x06` stops at the `0x06` in
front of it. -/
theorem scanBack_eq (a : Bytes) {t : Bytes} (rest : Bytes) (ht : rg ∉ t) {n : Nat}
    (hn : n ≤ t.length) :
    scanBack (a ++ rg :: t ++ rest) (a.length + n) = some a.length := by
  induction n with
  | zero => exact scanBack_hit (by simp)
  | succ n ih =>
    have hget : (a ++ rg :: t ++ rest)[a.length + (n + 1)]? = t[n]? := by
      rw [List.append_assoc, List.getElem?_append_right (by omega)]
      simp [List.getElem?_append_left (Nat.lt_of_succ_le hn)]
    have hmiss : t[n]? ≠ some rg := fun h => ht (List.mem_of_getElem? h)
    rw [← Nat.add_assoc, scanBack, Nat.add_assoc, hget, if_neg hmiss]
    exact ih (Nat.le_of_succ_le hn)

end PasswordLemmas

open PasswordLemmas

/-! ## 1. The decoded password -/

/-- On a text that ends in a cell after a `0x06` and its two separators, the
backward scan stays in the string. -/
theorem newPasswd_tail {a stored text : Bytes} (h : text = a ++ rg :: stored ++ [rg, cg])
    (h0 : 0 ∉ text) : newPasswd text = some (afterLastRg stored) := by
  have hcstr := cstr_eq_self_iff.mpr h0
  obtain ⟨b, hb⟩ := exists_last_rg a stored
  rw [hb] at h
  subst h
  have hscan := scanBack_eq b [rg, cg] (rg_not_mem_afterLastRg stored) (Nat.le_refl _)
  have hlen : (b ++ rg :: afterLastRg stored ++ [rg, cg]).length - 3 =
      b.length + (afterLastRg stored).length := by
    simp only [List.length_append, List.length_cons, List.length_nil]
    omega
  have hdrop : (b ++ rg :: afterLastRg stored ++ [rg, cg]).drop (b.length + 1) =
      afterLastRg stored ++ [rg] ++ [cg] := by
    rw [List.append_assoc, List.drop_append]
    simp
  unfold newPasswd
  simp only [hcstr]
  rw [if_neg (by simp; omega), hlen, hscan, Option.map_some, hdrop, List.dropLast_concat,
    List.dropLast_concat]

/-- On rows that all hold the password `stored`, the backward scan finds the part
of `stored` after its last `0x06`. -/
theorem newPasswd_rowsText {us : List UserRow} {stored : Bytes} (hne : us ≠ [])
    (hall : ∀ u ∈ us, u.passwd = stored) :
    newPasswd (us.flatMap rowText) = some (afterLastRg stored) := by
  obtain ⟨a, ha⟩ := rows_tail hne hall
  exact newPasswd_tail ha (zero_not_mem_rows us)

namespace PasswordLemmas

theorem selectReply_rows {us : List UserRow} {stored : Bytes} (hne : us ≠ [])
    (hall : ∀ u ∈ us, u.passwd = stored) (passwd : Bytes) :
    selectReply passwd (.rows (us.map UserRow.row)) =
      some (if afterLastRg stored = cstr passwd then ascii "f0:ok" else ascii "e3:fail") := by
  obtain ⟨a, ha⟩ := rows_tail hne hall
  have hlen : (us.flatMap rowText).length ≠ 0 := by rw [ha]; simp
  simp only [selectReply, selectData_rows, if_pos hlen, newPasswd_rowsText hne hall,
    Option.map_some, ne_eq, ite_not]

theorem ok_ne_fail : xorKey (ascii "f0:ok") ≠ xorKey (ascii "e3:fail") := by decide

/-- A C string is the whole string, or a NUL follows it. -/
theorem cstr_cases (s : Bytes) : cstr s = s ∨ cstr s ++ [0] <+: s := by
  induction s with
  | nil => exact .inl rfl
  | cons b s ih =>
    by_cases hb : b = 0
    · subst hb
      exact .inr ⟨s, rfl⟩
    · have hcons : cstr (b :: s) = b :: cstr s := by simp [cstr, hb]
      rw [hcons]
      rcases ih with h | h
      · exact .inl (by rw [h])
      · exact .inr ((List.prefix_cons_inj b).mpr h)

theorem cstr_eq_iff {passwd stored : Bytes} (h0 : 0 ∉ stored) :
    cstr passwd = stored ↔ passwd = stored ∨ stored ++ [0] <+: passwd := by
  constructor
  · rintro rfl
    exact (cstr_cases passwd).imp Eq.symm id
  · rintro (rfl | ⟨rest, rfl⟩)
    · exact cstr_eq_self_iff.mpr h0
    · unfold cstr
      rw [List.append_assoc, List.takeWhile_append_of_pos]
      · simp
      · intro b hb
        simpa using fun hb0 : b = 0 => h0 (hb0 ▸ hb)

/-- What the check compares, against what it should compare. -/
theorem distinguished_iff {passwd stored : Bytes} (h0 : 0 ∉ stored) :
    (afterLastRg stored = cstr passwd ↔ passwd = stored) ↔ Distinguished passwd stored := by
  unfold Distinguished
  by_cases hrg : rg ∈ stored
  · have hlast : afterLastRg stored ≠ stored := fun h => afterLastRg_eq_self_iff.mp h hrg
    simp only [hrg, not_true_eq_false, false_implies, true_implies, true_and]
    constructor
    · intro h
      have hne : passwd ≠ stored := by
        rintro rfl
        exact hlast ((h.mpr rfl).trans (cstr_eq_self_iff.mpr h0))
      exact ⟨hne, fun hc => hne (h.mp hc.symm)⟩
    · rintro ⟨hne, hc⟩
      exact ⟨fun h => absurd h.symm hc, fun h => absurd h hne⟩
  · rw [afterLastRg_eq_self_iff.mpr hrg, eq_comm (a := stored), cstr_eq_iff h0]
    simp only [hrg, not_false_eq_true, true_implies, false_implies, and_true]
    constructor
    · rintro h ⟨rest, hrest⟩
      have heq : passwd = stored := h.mp (.inr ⟨rest, hrest⟩)
      -- the NUL would be in the stored password
      subst heq
      simp at hrest
    · intro h
      exact ⟨fun h' => h'.resolve_right h, .inl⟩

end PasswordLemmas

/-! ## 2. The check -/

/-- For rows that all hold the password `stored`, the backward scan stays in the
string, and the handler's answer is exact exactly for distinguished passwords. -/
theorem checkExact_iff {us : List UserRow} {stored : Bytes} (hne : us ≠ [])
    (hall : ∀ u ∈ us, u.passwd = stored) (r : Request) :
    (∃ strval, selectData 3 (.rows (us.map UserRow.row)) = some strval ∧
      (newPasswd strval).isSome) ∧
    (CheckExact r us stored ↔ Distinguished r.passwd stored) := by
  refine ⟨⟨_, selectData_rows us, by simp [newPasswd_rowsText hne hall]⟩, ?_⟩
  have h0 : 0 ∉ stored := by
    obtain ⟨u, hu⟩ := List.exists_mem_of_ne_nil us hne
    exact hall u hu ▸ u.nul_free.2.2
  rw [← distinguished_iff h0]
  unfold CheckExact
  simp only [selectCase, Prog.effects, selectReply_rows hne hall, sendReply, List.cons.injEq,
    Effect.write.injEq, true_and, and_true]
  by_cases h₁ : afterLastRg stored = cstr r.passwd <;> by_cases h₂ : r.passwd = stored
  · rw [if_pos h₁, if_pos h₂]
    simp [h₁, h₂]
  · rw [if_pos h₁, if_neg h₂]
    simp [h₁, h₂, ok_ne_fail]
  · rw [if_neg h₁, if_pos h₂]
    exact iff_of_false ok_ne_fail.symm fun h => h₁ (h.mpr h₂)
  · rw [if_neg h₁, if_neg h₂]
    simp [h₁, h₂]

/-- `bob`, whose password is `pw`. -/
def bobRow : UserRow := ⟨ascii "1", ascii "bob", ascii "pw", by decide⟩

/-- A login of `bob` whose password goes on after a NUL. -/
def nulLogin : Bytes := ascii "123452   bob   pw" ++ [0] ++ ascii "x   "

/-- Its request. -/
def nulRequest : Request :=
  { command := SELECT, name := ascii "bob", passwd := ascii "pw" ++ [0] ++ ascii "x" }

theorem checkExact_iff_nulLogin :
    CheckExact nulRequest [bobRow] (ascii "pw") ↔ Distinguished nulRequest.passwd (ascii "pw") :=
  (checkExact_iff (by simp) (fun u hu => by rw [List.mem_singleton.mp hu]; rfl) nulRequest).2

/-- A password that is not the stored one is answered `f0:ok`. -/
theorem nulLogin_accepted :
    parseMessage ⟨127, 0, 0, 1⟩ nulLogin = .request nulRequest ∧
    nulRequest.passwd ≠ ascii "pw" ∧
    (selectCase nulRequest .done).effects (fun _ => .rows [bobRow.row]) =
      [.query .selectData (.selectUser (ascii "bob")), .write (xorKey (ascii "f0:ok"))] ∧
    ¬ CheckExact nulRequest [bobRow] (ascii "pw") := by
  unfold CheckExact
  decide +kernel

end SundayServer
