import SundayServer.Utils

/-!
# `PrinterToMySQL`: what a call returns

`Outcome` is what MySQL does with one statement: `mysql_query` fails, or it
succeeds and `mysql_store_result` returns NULL or a list of rows. A cell is
`none` for SQL NULL.

`selectData` is the string `SelectData` builds, `none` when the code reads a
cell that is NULL or outside the row. The other three calls only look at the
result of `mysql_query`.
-/

namespace SundayServer

/-- A row of a result set, one `char *` for each column. -/
abbrev Row := List (Option Bytes)

/-- What MySQL does with one statement. -/
inductive Outcome
  /-- `mysql_query` returned a value other than 0. -/
  | failed
  /-- `mysql_store_result` returned NULL. -/
  | noResult
  | rows (rs : List Row)
deriving DecidableEq, Repr

/-- `char rg = 0x06`. -/
def rg : UInt8 := 0x06

/-- `char cg = {0x05}`. -/
def cg : UInt8 := 0x05

/-- The loop over the first `Cnum` cells of a row: each cell, then `rg`. -/
def cellsText : Nat → Row → Option Bytes
  | 0, _ => some []
  | cnum + 1, some cell :: row => (cellsText cnum row).map (cstr cell ++ [rg] ++ ·)
  | _ + 1, _ => none

/-- The loop over the rows: the cells of each, then `cg`. -/
def rowsText (cnum : Nat) : List Row → Option Bytes
  | [] => some []
  | row :: rs => do
    let cells ← cellsText cnum row
    let rest ← rowsText cnum rs
    some (cells ++ [cg] ++ rest)

/-- `PrinterToMySQL::SelectData`. A failed query, a NULL result and a result
without rows all give the empty string. -/
def selectData (cnum : Nat) : Outcome → Option Bytes
  | .failed => some []
  | .noResult => some []
  | .rows rs => rowsText cnum rs

/-- The calls that only report whether `mysql_query` failed. -/
def queryStatus (o : Outcome) : Int := if o = .failed then 1 else 0

/-- `PrinterToMySQL::InsertData`. -/
def insertData (o : Outcome) : Int := queryStatus o

/-- `PrinterToMySQL::UpdateData`. -/
def updateData (o : Outcome) : Int := queryStatus o

/-- `PrinterToMySQL::DeleteData`. -/
def deleteData (o : Outcome) : Int := queryStatus o

/-- Every row that is read gives at least its separator, so only an empty result
is empty. -/
theorem rowsText_eq_nil {cnum : Nat} {rs : List Row} (h : rowsText cnum rs = some []) :
    rs = [] := by
  cases rs with
  | nil => rfl
  | cons row rs =>
    simp only [rowsText, Option.bind_eq_bind, Option.bind_eq_some_iff] at h
    obtain ⟨cells, -, rest, -, h⟩ := h
    simp at h

/-- `SelectData` returns the empty string for no rows, a failed query and a
NULL result, and for nothing else. -/
theorem selectData_eq_nil {cnum : Nat} {o : Outcome} :
    selectData cnum o = some [] ↔ o = .failed ∨ o = .noResult ∨ o = .rows [] := by
  cases o with
  | failed => simp [selectData]
  | noResult => simp [selectData]
  | rows rs =>
    simp only [selectData, reduceCtorEq, false_or, Outcome.rows.injEq]
    constructor
    · exact rowsText_eq_nil
    · rintro rfl
      rfl

end SundayServer
