import SundayServer.Password

/-!
# The text of a result

`SelectData` writes each cell and a `0x06` after it, and a `0x05` after each row; its
comments have the two the other way around. `SplitData` can take such a text apart, at
`0x05` and then each row at `0x06`. The SELECT handler does not do that: it scans back
from the end of the text.

* `readCells`: the cells of a row that `SelectData` copies.
* `resultFields`: a text taken apart.
* `lastField`: the last cell that is found so.

Results:
1. `resultFields_iff`: when the cells come back.
2. `newPasswd_iff`: when the scan finds the last one of them.
-/

namespace SundayServer

/-! ## Definitions -/

/-- The first `Cnum` cells of a row, as C strings. -/
def readCells (cnum : Nat) (row : Row) : List Bytes :=
  (row.take cnum).map fun cell => cstr (cell.getD [])

/-- The text of rows of cells. -/
def resultText (rows : List (List Bytes)) : Bytes :=
  rows.flatMap fun cells => cells.flatMap (· ++ [rg]) ++ [cg]

/-- The text taken apart again. -/
def resultFields (text : Bytes) : List (List Bytes) :=
  (splitData text [cg] []).map fun row => splitData row [rg] []

def lastField (text : Bytes) : Option Bytes := (resultFields text).getLast?.bind List.getLast?

/-! ## What `SelectData` writes -/

namespace ResultTextLemmas

theorem cellsText_some {cnum : Nat} {row : Row} {text : Bytes}
    (h : cellsText cnum row = some text) :
    text = (readCells cnum row).flatMap (· ++ [rg]) ∧ (readCells cnum row).length = cnum := by
  induction cnum generalizing row text with
  | zero =>
    obtain rfl : [] = text := Option.some.inj h
    simp [readCells]
  | succ n ih =>
    cases row with
    | nil => cases h
    | cons cell row =>
      cases cell with
      | none => cases h
      | some cell =>
        obtain ⟨rest, hrest, rfl⟩ := Option.map_eq_some_iff.mp h
        obtain ⟨rfl, hlen⟩ := ih hrest
        have hcons : readCells (n + 1) (some cell :: row) = cstr cell :: readCells n row := rfl
        rw [hcons, List.flatMap_cons, List.length_cons, hlen]
        exact ⟨rfl, rfl⟩

theorem rowsText_some {cnum : Nat} {rs : List Row} {text : Bytes}
    (h : rowsText cnum rs = some text) :
    text = resultText (rs.map (readCells cnum)) ∧
      ∀ row ∈ rs, (readCells cnum row).length = cnum := by
  induction rs generalizing text with
  | nil =>
    obtain rfl : [] = text := Option.some.inj h
    simp [resultText]
  | cons row rs ih =>
    simp only [rowsText, Option.bind_eq_bind, Option.bind_eq_some_iff] at h
    obtain ⟨cells, hcells, rest, hrest, htext⟩ := h
    obtain ⟨rfl, hlen⟩ := cellsText_some hcells
    obtain ⟨rfl, hall⟩ := ih hrest
    cases htext
    exact ⟨rfl, List.forall_mem_cons.mpr ⟨hlen, hall⟩⟩

theorem sep_ne_nil (c : UInt8) : [c] ≠ [] := List.cons_ne_nil c []

/-- What is written of the cells of a row has a `0x05` where a cell has one. -/
theorem cg_mem_cells {cells : List Bytes} :
    cg ∈ cells.flatMap (· ++ [rg]) ↔ ∃ cell ∈ cells, cg ∈ cell := by
  have hne : cg ≠ rg := by decide
  simp [List.mem_flatMap, hne]

theorem splitData_cells {cells : List Bytes} (h : ∀ cell ∈ cells, rg ∉ cell) :
    splitData (cells.flatMap (· ++ [rg])) [rg] [] = cells := by
  refine splitData_eq (sep_ne_nil rg) (.of_tokens (sep_ne_nil rg) fun cell hcell => ?_) []
  exact Split.firstAt_singleton_iff.mpr (h cell hcell)

/-- Taking apart a text whose first row is cut off whole. -/
theorem resultFields_append {row : Bytes} (hrow : cg ∉ row) (text : Bytes) :
    resultFields (row ++ [cg] ++ text) = splitData row [rg] [] :: resultFields text := by
  obtain ⟨ts, r, hts, hsplit⟩ := splitData_splits (sep_ne_nil cg) text []
  have hcut := Split.Splits.cut (Split.firstAt_singleton_iff.mpr hrow) hsplit
  rw [resultFields, resultFields, splitData_eq (sep_ne_nil cg) hcut, hts]
  rfl

/-- A row that comes back has no `0x05`: it would have been cut short, and then its cells
do not fit. -/
theorem cg_not_mem_of_resultFields {cells : List Bytes} {text : Bytes} {rows : List (List Bytes)}
    (h : resultFields (cells.flatMap (· ++ [rg]) ++ [cg] ++ text) = cells :: rows) :
    cg ∉ cells.flatMap (· ++ [rg]) := by
  obtain ⟨ts, r, hts, hsplit⟩ := splitData_splits (sep_ne_nil cg)
    (cells.flatMap (· ++ [rg]) ++ [cg] ++ text) []
  rw [resultFields, hts, List.nil_append] at h
  generalize he : cells.flatMap (· ++ [rg]) ++ [cg] ++ text = whole at hsplit
  cases hsplit with
  | rest _ => cases h
  | @cut t u _ ts hfirst hrest =>
    obtain ⟨hcells, -⟩ := List.cons.inj h
    have hle : t.length ≤ (cells.flatMap (· ++ [rg])).length :=
      Split.Splits.firstAt_length_le hfirst he.symm
    obtain ⟨ts', r', hts', hsplit'⟩ := splitData_splits (sep_ne_nil rg) t []
    obtain rfl : ts' = cells := by simpa using hts'.symm.trans hcells
    have hge : (ts'.flatMap (· ++ [rg])).length ≤ t.length := by
      rw [← hsplit'.join, List.flatMap_def, List.length_append]
      exact Nat.le_add_right _ _
    rw [List.append_assoc, List.append_assoc] at he
    obtain ⟨heq, -⟩ := List.append_inj he (Nat.le_antisymm hge hle)
    rw [heq]
    exact Split.firstAt_singleton_iff.mp hfirst

theorem rg_not_mem_of_splitData {s : Bytes} {cells : List Bytes}
    (h : splitData s [rg] [] = cells) : ∀ cell ∈ cells, rg ∉ cell := by
  obtain ⟨ts, r, hts, hsplit⟩ := splitData_splits (sep_ne_nil rg) s []
  obtain rfl : ts = cells := by simpa using hts.symm.trans h
  exact fun cell hcell => Split.firstAt_singleton_iff.mp (hsplit.firstAt hcell)

theorem resultFields_resultText {rows : List (List Bytes)} :
    resultFields (resultText rows) = rows ↔
      ∀ cells ∈ rows, ∀ cell ∈ cells, rg ∉ cell ∧ cg ∉ cell := by
  induction rows with
  | nil => simp [resultText, resultFields, splitData, splitLoop, Split.find]
  | cons cells rows ih =>
    have hcons : resultText (cells :: rows) =
        cells.flatMap (· ++ [rg]) ++ [cg] ++ resultText rows := rfl
    rw [hcons, List.forall_mem_cons]
    constructor
    · intro h
      have hcg := cg_not_mem_of_resultFields h
      rw [resultFields_append hcg] at h
      obtain ⟨hcells, hrows⟩ := List.cons.inj h
      refine ⟨fun cell hcell => ⟨rg_not_mem_of_splitData hcells cell hcell, ?_⟩, ih.mp hrows⟩
      exact fun hmem => hcg (cg_mem_cells.mpr ⟨cell, hcell, hmem⟩)
    · rintro ⟨hcells, hrows⟩
      have hcg : cg ∉ cells.flatMap (· ++ [rg]) := by
        rw [cg_mem_cells]
        rintro ⟨cell, hcell, hmem⟩
        exact (hcells cell hcell).2 hmem
      rw [resultFields_append hcg, splitData_cells fun cell hcell => (hcells cell hcell).1,
        ih.mpr hrows]

end ResultTextLemmas

open ResultTextLemmas

/-! ## 1. Reading all of it -/

/-- The rows come back, each with the cells that were copied of it, exactly when no cell
that is copied has one of the two separators. -/
theorem resultFields_iff {cnum : Nat} {rs : List Row} {text : Bytes}
    (h : selectData cnum (.rows rs) = some text) :
    resultFields text = rs.map (readCells cnum) ↔
      ∀ row ∈ rs, ∀ cell ∈ readCells cnum row, rg ∉ cell ∧ cg ∉ cell := by
  obtain ⟨rfl, -⟩ := rowsText_some h
  rw [resultFields_resultText]
  simp only [List.forall_mem_map]

/-- Two accounts, and a password with a `0x06`, which comes back as two cells. -/
def twoRows : List Row :=
  [[some (ascii "1"), some (ascii "amy"), some (ascii "x")],
    [some (ascii "2"), some (ascii "bob"), some [0x70, rg, 0x71]]]

theorem resultFields_iff_twoRows :
    ∃ text, selectData 3 (.rows twoRows) = some text ∧
      (resultFields text = twoRows.map (readCells 3) ↔
        ∀ row ∈ twoRows, ∀ cell ∈ readCells 3 row, rg ∉ cell ∧ cg ∉ cell) ∧
      resultFields text ≠ twoRows.map (readCells 3) := by
  have hsome : (selectData 3 (.rows twoRows)).isSome := by decide
  obtain ⟨text, htext⟩ := Option.isSome_iff_exists.mp hsome
  have hiff := resultFields_iff htext
  refine ⟨text, htext, hiff, fun hback => ?_⟩
  have hclean := hiff.mp hback
  revert hclean
  decide

/-! ## 2. Reading from the end -/

namespace ResultTextLemmas

theorem zero_not_mem_resultText {rows : List (List Bytes)}
    (h : ∀ cells ∈ rows, ∀ cell ∈ cells, 0 ∉ cell) : 0 ∉ resultText rows := by
  have hsep : (0 : UInt8) ≠ rg ∧ (0 : UInt8) ≠ cg := by decide
  intro h0
  simp only [resultText, List.mem_flatMap, List.mem_append, List.mem_singleton, hsep.1, hsep.2,
    or_false] at h0
  obtain ⟨cells, hcells, cell, hcell, h0⟩ := h0
  exact h cells hcells cell hcell h0

theorem zero_not_mem_readCells {cnum : Nat} {row : Row} :
    ∀ cell ∈ readCells cnum row, 0 ∉ cell := by
  intro cell hcell
  obtain ⟨c, -, rfl⟩ := List.mem_map.mp hcell
  exact zero_not_mem_cstr _

/-- Taking the text apart, seen from its end. -/
theorem lastField_tail (a stored : Bytes) :
    lastField (a ++ rg :: stored ++ [rg, cg]) =
      some (((a ++ rg :: stored).rtakeWhile (· ≠ cg)).rtakeWhile (· ≠ rg)) := by
  have htext : a ++ rg :: stored ++ [rg, cg] = a ++ rg :: stored ++ [rg] ++ [cg] := by simp
  obtain ⟨ts, r, hts, hsplit⟩ := splitData_splits (sep_ne_nil cg)
    (a ++ rg :: stored ++ [rg] ++ [cg]) []
  have hrow := hsplit.getLast?_singleton
  rw [List.rtakeWhile_concat_pos _ _ _ (by decide)] at hrow
  obtain ⟨us, r', hus, hsplit'⟩ := splitData_splits (sep_ne_nil rg)
    ((a ++ rg :: stored).rtakeWhile (· ≠ cg) ++ [rg]) []
  rw [lastField, resultFields, htext, hts, List.nil_append, List.getLast?_map, hrow,
    Option.map_some, Option.bind_some, hus, List.nil_append, hsplit'.getLast?_singleton]

/-- What stands after the last `0x06` is cut short only by a `0x05`. -/
theorem rtakeWhile_rtakeWhile_iff {b w : Bytes} (hw : rg ∉ w) :
    ((b ++ rg :: w).rtakeWhile (· ≠ cg)).rtakeWhile (· ≠ rg) = w ↔ cg ∉ w := by
  have hrg : ∀ c ∈ w, decide (c ≠ rg) = true := fun c hc =>
    decide_eq_true fun h => hw (h ▸ hc)
  constructor
  · intro h hcg
    have hcut : (b ++ rg :: w).rtakeWhile (· ≠ cg) = w.rtakeWhile (· ≠ cg) := by
      rw [List.append_cons, Split.rtakeWhile_append_of_exists ⟨cg, hcg, by simp⟩]
    rw [hcut] at h
    have hmem : cg ∈ w.rtakeWhile (· ≠ cg) :=
      (List.rtakeWhile_suffix (p := (· ≠ rg)) _).subset (h.symm ▸ hcg)
    simpa using List.mem_rtakeWhile_imp hmem
  · intro hcg
    have hall : ∀ c ∈ rg :: w, decide (c ≠ cg) = true := by
      refine List.forall_mem_cons.mpr ⟨by decide, fun c hc => ?_⟩
      exact decide_eq_true fun h => hcg (h ▸ hc)
    rw [Split.rtakeWhile_append_of_forall hall, List.append_cons,
      Split.rtakeWhile_append_of_forall hrg, List.rtakeWhile_concat_neg _ _ _ (by simp),
      List.nil_append]

end ResultTextLemmas

/-- For at least two columns: the scan of the SELECT handler finds what follows the last
`0x06` of the last cell, and that is the last cell of the text taken apart exactly when it
has no `0x05`. -/
theorem newPasswd_iff {cnum : Nat} (hcnum : 2 ≤ cnum) {rs : List Row} {row : Row} {text : Bytes}
    (h : selectData cnum (.rows (rs ++ [row])) = some text) {cells : List Bytes} {cell : Bytes}
    (hrow : readCells cnum row = cells ++ [cell]) :
    newPasswd text = some (afterLastRg cell) ∧
      (lastField text = newPasswd text ↔ cg ∉ afterLastRg cell) := by
  obtain ⟨htext, hlen⟩ := rowsText_some h
  -- there is a cell before the last one
  have hcells : cells ≠ [] := by
    rintro rfl
    have hone := hlen row (by simp)
    rw [hrow, List.length_append, List.length_nil, List.length_singleton] at hone
    omega
  obtain ⟨front, before, rfl⟩ := (List.eq_nil_or_concat' cells).resolve_left hcells
  have htail : text = resultText (rs.map (readCells cnum)) ++ front.flatMap (· ++ [rg]) ++ before ++
      rg :: cell ++ [rg, cg] := by
    rw [htext, List.map_append, List.map_singleton, hrow]
    simp [resultText]
  have hzero : 0 ∉ text := by
    rw [htext]
    refine zero_not_mem_resultText fun cells hcells => ?_
    obtain ⟨q, -, rfl⟩ := List.mem_map.mp hcells
    exact zero_not_mem_readCells
  have hscan := newPasswd_tail htail hzero
  refine ⟨hscan, ?_⟩
  obtain ⟨b, hb⟩ := PasswordLemmas.exists_last_rg
    (resultText (rs.map (readCells cnum)) ++ front.flatMap (· ++ [rg]) ++ before) cell
  rw [hscan, htail, lastField_tail, hb, Option.some.injEq]
  exact rtakeWhile_rtakeWhile_iff (PasswordLemmas.rg_not_mem_afterLastRg cell)

theorem newPasswd_iff_twoRows :
    ∃ text, selectData 3 (.rows twoRows) = some text ∧ newPasswd text = some [0x71] ∧
      lastField text = some [0x71] := by
  have hsome : (selectData 3 (.rows twoRows)).isSome := by decide
  obtain ⟨text, htext⟩ := Option.isSome_iff_exists.mp hsome
  have hrows : twoRows = [[some (ascii "1"), some (ascii "amy"), some (ascii "x")]] ++
      [[some (ascii "2"), some (ascii "bob"), some [0x70, rg, 0x71]]] := rfl
  have hcells : readCells 3 [some (ascii "2"), some (ascii "bob"), some [0x70, rg, 0x71]] =
      [ascii "2", ascii "bob"] ++ [[0x70, rg, 0x71]] := by decide
  have hafter : afterLastRg [0x70, rg, 0x71] = [0x71] := by decide
  obtain ⟨hscan, hlast⟩ := newPasswd_iff (by decide) (hrows ▸ htext) hcells
  rw [hafter] at hscan hlast
  exact ⟨text, htext, hscan, (hlast.mpr (by decide)).trans hscan⟩

end SundayServer
