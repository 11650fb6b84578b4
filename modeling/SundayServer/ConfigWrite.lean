import SundayServer.Config
import SundayServer.Lib.Lines
import Mathlib.Data.Nat.Digits.Defs
import Mathlib.Logic.Relation

/-!
# Writing a configuration and reading it again

The other half of `ConfigFile`: `operator<<` writes `key = value` for every key of
`myContents` in order, `add` and `remove` change it. A value may have several lines
in the file; `operator>>` puts them together again.

* `ConfigMap`: `std::map<std::string, std::string>`.
* `KeyOk`, `ValueOk`: what a key or a value has to be to survive a file.

Results:
1. `operatorIn_ok`: everything that is read from a file is such.
2. `write_read_iff`: what is written is read again exactly when it is such.
3. `steps_write_read`: what a program puts together from files and numbers is
   such. `add_write_read`: a number goes through a file.
-/

namespace SundayServer

/-! ## Definitions -/

/-- `std::map<std::string, std::string>`. -/
abbrev ConfigMap := Std.TreeMap Bytes Bytes

namespace ConfigMap

/-- What `find` sees of it. -/
def contents (m : ConfigMap) : Contents := fun key => m[key]?

/-- `add(key, value)`, with the text of the value. -/
def add (m : ConfigMap) (key value : Bytes) : ConfigMap := m.insert (trim key) (trim value)

/-- `remove(key)`; `none` when it erases past the end. -/
def remove (m : ConfigMap) (key : Bytes) : Option ConfigMap :=
  if key ∈ m then some (m.erase key) else none

/-- `operator<<(os, cf)`. -/
def operatorOut (m : ConfigMap) : Bytes :=
  m.toList.flatMap fun p => p.1 ++ ascii " " ++ [0x3d] ++ ascii " " ++ p.2 ++ [0x0a]

theorem contents_insert (m : ConfigMap) (key value : Bytes) :
    contents (m.insert key value) = Function.update m.contents key (some value) := by
  funext k
  rw [contents, Std.TreeMap.getElem?_insert]
  by_cases hk : k = key
  · subst hk
    rw [if_pos Std.ReflCmp.compare_self, Function.update_self]
  · have hne : ¬ compare key k = .eq := fun heq => hk (Std.LawfulEqCmp.eq_of_compare heq).symm
    rw [if_neg hne, Function.update_of_ne hk]
    rfl

end ConfigMap

/-- One line, without a delimiter and a comment sign, and no blanks around it. -/
structure KeyOk (key : Bytes) : Prop where
  trimmed : trim key = key
  delim : 0x3d ∉ key
  comm : 0x23 ∉ key
  line : 0x0a ∉ key

/-- A line that goes on with a value: not blank, and without a delimiter. -/
def GoesOn (line : Bytes) : Prop := trim line ≠ [] ∧ 0x3d ∉ line

instance (line : Bytes) : Decidable (GoesOn line) := inferInstanceAs (Decidable (_ ∧ _))

/-- No comment sign, no blanks around it, and lines that go on. -/
structure ValueOk (value : Bytes) : Prop where
  trimmed : trim value = value
  comm : 0x23 ∉ value
  goesOn : Lines.Continued 0x0a GoesOn value

/-- All keys and values are such. -/
def Contents.Ok (cf : Contents) : Prop :=
  ∀ key value, cf key = some value → KeyOk key ∧ ValueOk value

/-- `ost << n` for an `int`. -/
def intText (n : Int) : Bytes :=
  (if n < 0 then ascii "-" else []) ++
    (if n = 0 then ascii "0" else (Nat.digits 10 n.natAbs).reverse.map fun d => 0x30 + d.toUInt8)

/-- The steps of a program that uses a `ConfigFile`: it reads a file, adds a number
or a text that is fit for one, or removes a key. -/
inductive ConfigMap.Step : ConfigMap → ConfigMap → Prop
  | read {m m' : ConfigMap} (file : Bytes) : m'.contents = operatorIn file m.contents → Step m m'
  | addInt {m : ConfigMap} (key : Bytes) (n : Int) :
    KeyOk (trim key) → Step m (m.add key (intText n))
  | addString {m : ConfigMap} (key value : Bytes) :
    KeyOk (trim key) → ValueOk (trim value) → Step m (m.add key value)
  | remove {m m' : ConfigMap} (key : Bytes) : m.remove key = some m' → Step m m'

example :
    (((∅ : ConfigMap).add (ascii "b ") (ascii "1\n 2")).add (ascii "a")
      (intText (-12))).operatorOut = ascii "a = -12\nb = 1\n 2\n" := by decide +kernel

/-! ## 1. What is read -/

namespace ConfigWriteLemmas

theorem trim_eq_strip (s : Bytes) : trim s = Lines.strip isSpace s := rfl

theorem trim_subset (s : Bytes) : trim s ⊆ s := Lines.strip_subset s

theorem not_mem_cutComment (line : Bytes) : 0x23 ∉ cutComment line :=
  fun h => by simpa using List.mem_takeWhile_imp h

theorem cutComment_subset (line : Bytes) : cutComment line ⊆ line :=
  (List.takeWhile_prefix _).subset

theorem getline_line (is : Stream) {str : Bytes} (h : 0x0a ∉ str) : 0x0a ∉ (getline is str).2 := by
  unfold getline
  split
  · exact h
  · split
    · exact fun hmem => by simpa using List.mem_takeWhile_imp hmem
    · next hnil => exact fun hmem => by simpa using List.dropWhile_eq_nil_iff.mp hnil _ hmem

theorem goesOn_append {l b : Bytes} (hdelim : 0x3d ∉ b) (h : GoesOn l) : GoesOn (l ++ b) := by
  refine ⟨fun hnil => h.1 ?_, by simp [h.2, hdelim]⟩
  rw [trim_eq_strip, Lines.strip_eq_nil_iff] at hnil ⊢
  exact fun a ha => hnil a (List.mem_append_left _ ha)

theorem goesOn_of_concat (l : Bytes) (c : UInt8) (hc : isSpace c) (h : GoesOn (l ++ [c])) :
    GoesOn l := by
  obtain ⟨hne, hdelim⟩ := h
  rw [trim_eq_strip, Lines.strip_append_blank hc] at hne
  exact ⟨hne, fun hmem => hdelim (List.mem_append_left _ hmem)⟩

theorem valueLoop_ok {fuel : Nat} {is is' : Stream} {line nextline line' nextline' : Bytes}
    (h : valueLoop fuel is line nextline = some (is', line', nextline'))
    (hcomm : 0x23 ∉ line) (hon : Lines.Continued 0x0a GoesOn line) (hnext : 0x0a ∉ nextline) :
    0x23 ∉ line' ∧ Lines.Continued 0x0a GoesOn line' ∧ 0x0a ∉ nextline' := by
  induction fuel generalizing is line nextline with
  | zero => cases h
  | succ fuel ih =>
    have hread := getline_line is hnext
    have hcut : 0x0a ∉ cutComment (getline is nextline).2 :=
      fun hmem => hread (cutComment_subset _ hmem)
    unfold valueLoop at h
    split at h
    · cases h
      exact ⟨hcomm, hon, hnext⟩
    · simp only at h
      split at h
      · cases h
        exact ⟨hcomm, hon, hread⟩
      · split at h
        · cases h
          exact ⟨hcomm, hon, hcut⟩
        · next hdelim =>
          refine ih h ?_ ?_ hcut
          · split
            · simp [hcomm, not_mem_cutComment]
            · simp [hcomm, not_mem_cutComment]
          · split
            · next hblank =>
              rw [List.append_assoc]
              exact (Lines.continued_line hcut).mpr ⟨hon, hblank, hdelim⟩
            · exact hon.append hcut fun l hl => goesOn_append hdelim hl

theorem keyOk_trim {line : Bytes} (hcomm : 0x23 ∉ line) (hline : 0x0a ∉ line) :
    KeyOk (trim (line.takeWhile (· ≠ 0x3d))) where
  trimmed := Lines.strip_strip _
  delim := fun h => by simpa using List.mem_takeWhile_imp (trim_subset _ h)
  comm := fun h => hcomm ((List.takeWhile_prefix _).subset (trim_subset _ h))
  line := fun h => hline ((List.takeWhile_prefix _).subset (trim_subset _ h))

theorem valueOk_trim {value : Bytes} (hcomm : 0x23 ∉ value)
    (hon : Lines.Continued 0x0a GoesOn value) : ValueOk (trim value) where
  trimmed := Lines.strip_strip _
  comm := fun h => hcomm (trim_subset _ h)
  goesOn := hon.strip goesOn_of_concat

theorem ok_update {cf : Contents} (h : Contents.Ok cf) {key value : Bytes} (hkey : KeyOk key)
    (hvalue : ValueOk value) : Contents.Ok (Function.update cf key (some value)) := by
  intro k v hkv
  by_cases hk : k = key
  · subst hk
    rw [Function.update_self] at hkv
    obtain rfl := Option.some.inj hkv
    exact ⟨hkey, hvalue⟩
  · rw [Function.update_of_ne hk] at hkv
    exact h k v hkv

theorem readLoop_ok {fuel : Nat} {is : Stream} {nextline : Bytes} {cf cf' : Contents}
    (h : readLoop fuel is nextline cf = some cf') (hcf : Contents.Ok cf) (hnext : 0x0a ∉ nextline) :
    Contents.Ok cf' := by
  induction fuel generalizing is nextline cf with
  | zero => cases h
  | succ fuel ih =>
    unfold readLoop at h
    split at h
    · cases h
      exact hcf
    · have hturn : 0x0a ∉ (turnLine is nextline).2 := by
        unfold turnLine
        split
        · exact hnext
        · exact getline_line is List.not_mem_nil
      have hline : 0x0a ∉ cutComment (turnLine is nextline).2 :=
        fun hmem => hturn (cutComment_subset _ hmem)
      have hcomm := not_mem_cutComment (turnLine is nextline).2
      simp only at h
      split at h
      · have hsub : ((cutComment (turnLine is nextline).2).dropWhile (· ≠ 0x3d)).tail ⊆
            cutComment (turnLine is nextline).2 :=
          List.Subset.trans (List.tail_subset _) (List.dropWhile_suffix _).subset
        split at h
        · cases h
        · next is' value nextline' hvalue =>
          obtain ⟨hcomm', hon', hnext'⟩ := valueLoop_ok hvalue (fun hmem => hcomm (hsub hmem))
            (Lines.continued_of_not_mem fun hmem => hline (hsub hmem)) List.not_mem_nil
          exact ih h (ok_update hcf (keyOk_trim hcomm hline) (valueOk_trim hcomm' hon')) hnext'
      · exact ih h hcf List.not_mem_nil

end ConfigWriteLemmas

open ConfigWriteLemmas

/-- What is read from any file is fit to be written. -/
theorem operatorIn_ok (file : Bytes) {cf : Contents} (h : Contents.Ok cf) :
    Contents.Ok (operatorIn file cf) := by
  obtain ⟨cf', hcf'⟩ := Option.isSome_iff_exists.mp (operatorIn_total file cf)
  rw [operatorIn, hcf']
  exact readLoop_ok hcf' h List.not_mem_nil

/-! ## 2. What is written -/

namespace ConfigWriteLemmas

/-- A stream in front of these lines. -/
def onLines (ls : List Bytes) : Stream := ⟨Lines.unlines 0x0a ls, false, false⟩

/-- The stream and the string after the next `getline`. -/
def ahead : List Bytes → Stream × Bytes
  | [] => (⟨[], true, true⟩, [])
  | l :: ls => (onLines ls, l)

theorem getline_onLines {ls : List Bytes} (h : ∀ l ∈ ls.head?, 0x0a ∉ l) (str : Bytes) :
    getline (onLines ls) str = ahead ls := by
  cases ls with
  | nil => rfl
  | cons l ls =>
    have hl := h l rfl
    simp only [getline, onLines, Lines.unlines_cons, Lines.takeWhile_line hl,
      Lines.dropWhile_line hl]
    rfl

/-- The next line, if there is one, has a delimiter. -/
def Stops (ls : List Bytes) : Prop := ∀ l ∈ ls.head?, 0x0a ∉ l ∧ 0x3d ∈ l ∧ 0x23 ∉ l

theorem cutComment_eq_self {line : Bytes} (h : 0x23 ∉ line) : cutComment line = line :=
  List.takeWhile_eq_self_iff.mpr fun _ ha => decide_eq_true fun heq => h (heq ▸ ha)

theorem trim_ne_nil_of_delim {line : Bytes} (h : 0x3d ∈ line) : trim line ≠ [] := by
  rw [trim_eq_strip, ne_eq, Lines.strip_eq_nil_iff]
  exact fun hall => absurd (hall _ h) (by decide)

/-- The value goes on over the lines `vs`. -/
theorem valueLoop_lines {vs rest : List Bytes} {fuel : Nat} (hfuel : vs.length < fuel)
    (hvs : ∀ v ∈ vs, 0x0a ∉ v ∧ GoesOn v ∧ 0x23 ∉ v) (hrest : Stops rest)
    (line nextline : Bytes) :
    valueLoop fuel (onLines (vs ++ rest)) line nextline =
      some ((ahead rest).1, line ++ vs.flatMap (0x0a :: ·), (ahead rest).2) := by
  induction vs generalizing fuel line nextline with
  | nil =>
    obtain ⟨fuel, rfl⟩ := Nat.exists_eq_succ_of_ne_zero (Nat.pos_iff_ne_zero.mp hfuel)
    rw [List.nil_append, valueLoop, getline_onLines fun l hl => (hrest l hl).1]
    cases rest with
    | nil => simp [onLines, ahead, trim]
    | cons l ls =>
      obtain ⟨-, hdelim, hcomm⟩ := hrest l rfl
      simp [onLines, ahead, trim_ne_nil_of_delim hdelim, cutComment_eq_self hcomm, hdelim]
  | cons v vs ih =>
    obtain ⟨⟨hline, ⟨hblank, hdelim⟩, hcomm⟩, hvs'⟩ := List.forall_mem_cons.mp hvs
    obtain ⟨fuel, rfl⟩ := Nat.exists_eq_succ_of_ne_zero (Nat.ne_zero_of_lt hfuel)
    rw [List.cons_append, valueLoop, getline_onLines (by simpa using hline)]
    have hfuel' : vs.length < fuel := by simpa using hfuel
    have hnext := ih hfuel' hvs' (line ++ [0x0a] ++ v) v
    simpa [onLines, ahead, hblank, cutComment_eq_self hcomm, hdelim] using hnext

/-- The outer loop is about to read these lines. -/
def At (ls : List Bytes) (is : Stream) (nextline : Bytes) : Prop :=
  turnLine is nextline = ahead ls ∧ (is.fail ∧ nextline = [] ↔ ls = [])

theorem at_ahead {ls : List Bytes} (h : Stops ls) : At ls (ahead ls).1 (ahead ls).2 := by
  cases ls with
  | nil => exact ⟨rfl, by simp [ahead]⟩
  | cons l ls =>
    obtain ⟨-, hdelim, -⟩ := h l rfl
    have hne : l ≠ [] := List.ne_nil_of_mem hdelim
    exact ⟨by simp [turnLine, ahead, hne], by simp [ahead, hne]⟩

/-- What `operator<<` writes for a key. -/
def entryText (p : Bytes × Bytes) : Bytes :=
  p.1 ++ ascii " " ++ [0x3d] ++ ascii " " ++ p.2 ++ [0x0a]

/-- The first line of an entry. -/
def entryLine (key f : Bytes) : Bytes := key ++ [0x20] ++ 0x3d :: 0x20 :: f

theorem entryLine_spec {key f : Bytes} (hkey : KeyOk key) (hf : 0x0a ∉ f ∧ 0x23 ∉ f) :
    0x0a ∉ entryLine key f ∧ 0x3d ∈ entryLine key f ∧ 0x23 ∉ entryLine key f := by
  simp [entryLine, hkey.line, hkey.comm, hf]

/-- A turn of the outer loop on an entry. -/
theorem readLoop_entry {key value f : Bytes} {vs rest : List Bytes} (hkey : KeyOk key)
    (hvalue : ValueOk value) (hf : 0x0a ∉ f ∧ 0x23 ∉ f)
    (hvs : ∀ v ∈ vs, 0x0a ∉ v ∧ GoesOn v ∧ 0x23 ∉ v) (heq : value = f ++ vs.flatMap (0x0a :: ·))
    (hrest : Stops rest) {is : Stream} {nextline : Bytes}
    (hat : At (entryLine key f :: (vs ++ rest)) is nextline) (fuel : Nat) (cf : Contents) :
    readLoop (fuel + 1) is nextline cf =
      readLoop fuel (ahead rest).1 (ahead rest).2 (Function.update cf key (some value)) := by
  obtain ⟨hturn, hgo⟩ := hat
  obtain ⟨-, hmem, hcomm⟩ := entryLine_spec hkey hf
  have hdelim : 0x3d ∉ key ++ [0x20] := by simp [hkey.delim]
  have hkeyText : (entryLine key f).takeWhile (· ≠ 0x3d) = key ++ [0x20] :=
    Lines.takeWhile_line hdelim _
  have hvalueText : (entryLine key f).dropWhile (· ≠ 0x3d) = 0x3d :: 0x20 :: f :=
    Lines.dropWhile_line hdelim _
  have hfuel : vs.length < (onLines (vs ++ rest)).weight + 1 := by
    have hlen := Lines.length_le_unlines (0x0a : UInt8) (vs ++ rest)
    simp only [List.length_append] at hlen
    simp only [Stream.weight, onLines, Bool.false_eq_true, if_false]
    omega
  have hblank : isSpace 0x20 = true := by decide
  have htrim_key : trim (key ++ [0x20]) = key := by
    rw [trim_eq_strip, Lines.strip_append_blank hblank]
    exact hkey.trimmed
  have htrim_value : trim (0x20 :: f ++ vs.flatMap (0x0a :: ·)) = value := by
    rw [List.cons_append, trim_eq_strip, Lines.strip_blank_cons hblank, ← heq]
    exact hvalue.trimmed
  rw [readLoop, if_neg (by simp [hgo])]
  simp only [hturn, ahead, cutComment_eq_self hcomm, if_pos hmem, hkeyText, hvalueText,
    List.tail_cons, valueLoop_lines hfuel hvs hrest, htrim_key, htrim_value]

/-- The entries, one after the other. -/
def stored (l : List (Bytes × Bytes)) (cf : Contents) : Contents :=
  l.foldl (fun cf p => Function.update cf p.1 (some p.2)) cf

theorem flatMap_newline (vs : List Bytes) :
    vs.flatMap (0x0a :: ·) ++ [0x0a] = 0x0a :: Lines.unlines 0x0a vs := by
  induction vs with
  | nil => rfl
  | cons v vs ih => simp [ih]

/-- What is written for some entries is lines, which the outer loop reads as these. -/
theorem readLoop_entries {l : List (Bytes × Bytes)} (h : ∀ p ∈ l, KeyOk p.1 ∧ ValueOk p.2) :
    ∃ ls, l.flatMap entryText = Lines.unlines 0x0a ls ∧ Stops ls ∧
      ∀ is nextline fuel cf, l.length < fuel → At ls is nextline →
        readLoop fuel is nextline cf = some (stored l cf) := by
  induction l with
  | nil =>
    refine ⟨[], rfl, by simp [Stops], fun is nextline fuel cf hfuel hat => ?_⟩
    obtain ⟨fuel, rfl⟩ := Nat.exists_eq_succ_of_ne_zero (Nat.pos_iff_ne_zero.mp hfuel)
    rw [readLoop, if_pos (hat.2.mpr rfl)]
    rfl
  | cons p l ih =>
    obtain ⟨⟨hkey, hvalue⟩, hl⟩ := List.forall_mem_cons.mp h
    obtain ⟨rest, htext, hrest, hread⟩ := ih hl
    obtain ⟨f, vs, heq, hf, hvs⟩ := hvalue.goesOn.lines
    have hcomm : 0x23 ∉ f ++ vs.flatMap (0x0a :: ·) := heq ▸ hvalue.comm
    have hfirst : 0x0a ∉ f ∧ 0x23 ∉ f := ⟨hf, fun hmem => hcomm (List.mem_append_left _ hmem)⟩
    have hothers : ∀ v ∈ vs, 0x0a ∉ v ∧ GoesOn v ∧ 0x23 ∉ v := fun v hv =>
      ⟨(hvs v hv).1, (hvs v hv).2, fun hmem => hcomm (List.mem_append_right _
        (List.mem_flatMap.mpr ⟨v, hv, List.mem_cons_of_mem _ hmem⟩))⟩
    refine ⟨entryLine p.1 f :: (vs ++ rest), ?_, ?_, ?_⟩
    · have hvalueText : p.2 ++ [0x0a] = f ++ 0x0a :: Lines.unlines 0x0a vs := by
        rw [heq, List.append_assoc, flatMap_newline]
      have hspace : ascii " " = [0x20] := by decide
      have hentry : entryText p = entryLine p.1 f ++ 0x0a :: Lines.unlines 0x0a vs := by
        rw [entryText, List.append_assoc _ p.2, hvalueText, hspace]
        simp [entryLine]
      rw [List.flatMap_cons, htext, hentry, Lines.unlines_cons, Lines.unlines_append]
      simp
    · rintro _ ⟨⟩
      exact entryLine_spec hkey hfirst
    · intro is nextline fuel cf hfuel hat
      obtain ⟨fuel, rfl⟩ := Nat.exists_eq_succ_of_ne_zero (Nat.ne_zero_of_lt hfuel)
      rw [readLoop_entry hkey hvalue hfirst hothers heq hrest hat]
      exact hread _ _ fuel _ (by simpa using hfuel) (at_ahead hrest)

/-- A file of such lines is read from the start. -/
theorem readLoop_start {ls : List Bytes} (h : Stops ls) {fuel : Nat} {cf cf' : Contents}
    (hread : ∀ is nextline, At ls is nextline → ∀ n, fuel ≤ n →
      readLoop n is nextline cf = some cf') :
    readLoop (fuel + 1) (onLines ls) [] cf = some cf' := by
  cases ls with
  | nil =>
    rw [readLoop]
    exact hread _ _ ⟨rfl, by simp [onLines]⟩ fuel le_rfl
  | cons l ls =>
    refine hread _ _ ⟨?_, by simp [onLines]⟩ _ (Nat.le_succ fuel)
    rw [turnLine, if_neg (by simp)]
    exact getline_onLines (fun l' hl' => (h l' hl').1) []

theorem stored_concat (l : List (Bytes × Bytes)) (p : Bytes × Bytes) (cf : Contents) :
    stored (l ++ [p]) cf = Function.update (stored l cf) p.1 (some p.2) := by
  simp [stored]

theorem stored_of_mem {l : List (Bytes × Bytes)} (h : l.Pairwise fun p q => p.1 ≠ q.1)
    (cf : Contents) {key value : Bytes} (hmem : (key, value) ∈ l) :
    stored l cf key = some value := by
  induction l using List.reverseRecOn with
  | nil => cases hmem
  | append_singleton l p ih =>
    obtain ⟨hl, -, hne⟩ := List.pairwise_append.mp h
    rw [stored_concat]
    rcases List.mem_append.mp hmem with hmem | hmem
    · have hkey : key ≠ p.1 := hne _ hmem p (by simp)
      rw [Function.update_of_ne hkey]
      exact ih hl hmem
    · obtain rfl := List.mem_singleton.mp hmem
      exact Function.update_self ..

theorem stored_of_not_mem {l : List (Bytes × Bytes)} {key : Bytes} (h : ∀ p ∈ l, p.1 ≠ key)
    (cf : Contents) : stored l cf key = cf key := by
  induction l generalizing cf with
  | nil => rfl
  | cons p l ih =>
    obtain ⟨hp, hl⟩ := List.forall_mem_cons.mp h
    rw [stored, List.foldl_cons]
    exact (ih hl _).trans (Function.update_of_ne hp.symm _ _)

/-- The entries of a map are its contents. -/
theorem stored_toList (m : ConfigMap) : stored m.toList (fun _ => none) = m.contents := by
  have hdistinct : m.toList.Pairwise fun p q => p.1 ≠ q.1 :=
    Std.TreeMap.distinct_keys_toList.imp fun {p q} hne (heq : p.1 = q.1) =>
      hne (heq ▸ Std.ReflCmp.compare_self)
  funext key
  cases hm : m[key]? with
  | none =>
    rw [ConfigMap.contents, hm]
    refine stored_of_not_mem (fun p hp heq => ?_) _
    have hget := Std.TreeMap.mem_toList_iff_getElem?_eq_some.mp hp
    rw [heq, hm] at hget
    cases hget
  | some value =>
    rw [ConfigMap.contents, hm]
    exact stored_of_mem hdistinct _ (Std.TreeMap.mem_toList_iff_getElem?_eq_some.mpr hm)

theorem length_le_entries (l : List (Bytes × Bytes)) : l.length ≤ (l.flatMap entryText).length := by
  induction l with
  | nil => exact Nat.zero_le _
  | cons p l ih =>
    simp only [List.flatMap_cons, List.length_append, List.length_cons, entryText]
    omega

theorem read_of_ok {m : ConfigMap} (h : Contents.Ok m.contents) :
    operatorIn m.operatorOut (fun _ => none) = m.contents := by
  obtain ⟨ls, htext, hstops, hread⟩ := readLoop_entries (l := m.toList) fun p hp =>
    h p.1 p.2 (Std.TreeMap.mem_toList_iff_getElem?_eq_some.mp hp)
  have hfile : m.operatorOut = Lines.unlines 0x0a ls := htext
  have hlen : m.toList.length ≤ m.operatorOut.length := length_le_entries m.toList
  have hloop : readLoop (2 * m.operatorOut.length + 5) (onLines ls) [] (fun _ => none) =
      some m.contents := by
    refine readLoop_start hstops fun is nextline hat n hn => ?_
    rw [hread is nextline n _ (by omega) hat, stored_toList]
  have hstream : (⟨m.operatorOut, false, false⟩ : Stream) = onLines ls := by
    rw [hfile]
    rfl
  rw [operatorIn, hstream, hloop]
  rfl

end ConfigWriteLemmas

/-- A configuration that is written and read again comes back exactly when its keys
and values are fit for it. -/
theorem write_read_iff (m : ConfigMap) :
    operatorIn m.operatorOut (fun _ => none) = m.contents ↔ Contents.Ok m.contents := by
  refine ⟨fun h => ?_, read_of_ok⟩
  rw [← h]
  exact operatorIn_ok _ (by simp [Contents.Ok])

/-- A blank line ends a value. -/
example : operatorIn ((∅ : ConfigMap).add (ascii "a") (ascii "x\n\ny")).operatorOut
    (fun _ => none) (ascii "a") = some (ascii "x") := by decide +kernel

/-- What a file stores over the contents of a map is the contents of a map. -/
theorem operatorIn_contents (file : Bytes) (m : ConfigMap) :
    ∃ m' : ConfigMap, m'.contents = operatorIn file m.contents := by
  have hloop : ∀ fuel is nextline (m : ConfigMap) cf',
      readLoop fuel is nextline m.contents = some cf' → ∃ m' : ConfigMap, m'.contents = cf' := by
    intro fuel
    induction fuel with
    | zero =>
      intro is nextline m cf' h
      cases h
    | succ fuel ih =>
      intro is nextline m cf' h
      unfold readLoop at h
      split at h
      · cases h
        exact ⟨m, rfl⟩
      · simp only at h
        split at h
        · split at h
          · cases h
          · rw [← ConfigMap.contents_insert] at h
            exact ih _ _ _ _ h
        · exact ih _ _ _ _ h
  obtain ⟨cf', hcf'⟩ := Option.isSome_iff_exists.mp (operatorIn_total file m.contents)
  rw [operatorIn, hcf']
  exact hloop _ _ _ _ _ hcf'

/-! ## 3. Numbers -/

namespace ConfigWriteLemmas

theorem digit_byte :
    ∀ d < 10, isDigit (0x30 + d.toUInt8) ∧ (0x30 + d.toUInt8).toNat - 0x30 = d := by
  decide

/-- The characters of a number. -/
theorem intText_mem {n : Int} {b : UInt8} (h : b ∈ intText n) : b = 0x2d ∨ isDigit b := by
  unfold intText at h
  rcases List.mem_append.mp h with h | h
  · split at h
    · exact .inl (by simpa [ascii] using h)
    · cases h
  · right
    split at h
    · obtain rfl : b = 0x30 := by simpa [ascii] using h
      decide
    · obtain ⟨d, hd, rfl⟩ := List.mem_map.mp h
      exact (digit_byte d (Nat.digits_lt_base (by decide) (List.mem_reverse.mp hd))).1

theorem digitsValue_map {ds : List Nat} (h : ∀ d ∈ ds, d < 10) :
    digitsValue (ds.reverse.map fun d => 0x30 + d.toUInt8) = Nat.ofDigits 10 ds := by
  unfold digitsValue
  rw [List.foldl_map, List.foldl_reverse]
  induction ds with
  | nil => rfl
  | cons d ds ih =>
    obtain ⟨hd, hds⟩ := List.forall_mem_cons.mp h
    rw [List.foldr_cons, ih hds, (digit_byte d hd).2, Nat.ofDigits_cons]
    omega

theorem intText_ne_nil (n : Int) : intText n ≠ [] := by
  unfold intText
  have hzero : ascii "0" ≠ [] := by decide
  by_cases h0 : n = 0
  · simp [h0, hzero]
  · simp [h0]

theorem leadingInt_intText (n : Int) : leadingInt (intText n) = some n := by
  have hminus : ascii "-" = [0x2d] := by decide
  by_cases h0 : n = 0
  · subst h0
    decide
  · let ds := (Nat.digits 10 n.natAbs).reverse.map fun d => 0x30 + d.toUInt8
    have hlt : ∀ d ∈ Nat.digits 10 n.natAbs, d < 10 := fun d => Nat.digits_lt_base (by decide)
    have hvalue : digitsValue ds = n.natAbs := by
      rw [digitsValue_map hlt, Nat.ofDigits_digits]
    have hdigits : ∀ b ∈ ds, isDigit b = true := by
      intro b hb
      obtain ⟨d, hd, rfl⟩ := List.mem_map.mp hb
      exact (digit_byte d (hlt d (List.mem_reverse.mp hd))).1
    have htake : ds.takeWhile isDigit = ds := List.takeWhile_eq_self_iff.mpr hdigits
    have hne : ds ≠ [] := by
      simp [ds, h0]
    by_cases hneg : n < 0
    · have htext : intText n = 0x2d :: ds := by simp [intText, hneg, h0, hminus, ds]
      simp only [leadingInt, htext, List.head?_cons, if_true, true_or, List.tail_cons, htake,
        if_neg hne, hvalue]
      simp only [Option.some.injEq]
      omega
    · have htext : intText n = ds := by simp [intText, hneg, h0, ds]
      have hhead : ds.head? ≠ some 0x2d ∧ ds.head? ≠ some 0x2b := by
        constructor
        all_goals
          intro heq
          exact absurd (hdigits _ (List.mem_of_head? heq)) (by decide)
      simp only [leadingInt, htext, hhead.1, hhead.2, or_self, if_false, htake, if_neg hne, hvalue]
      simp only [Option.some.injEq]
      omega

theorem intText_not_space {n : Int} {b : UInt8} (h : b ∈ intText n) : isSpace b = false := by
  rcases intText_mem h with rfl | hdigit
  · decide
  · simp only [isDigit, isSpace, Bool.and_eq_true, decide_eq_true_eq, UInt8.le_iff_toNat_le,
      ← UInt8.toNat_inj, Bool.or_eq_false_iff, Bool.and_eq_false_iff, decide_eq_false_iff_not,
      UInt8.reduceToNat] at hdigit ⊢
    omega

theorem trim_intText (n : Int) : trim (intText n) = intText n :=
  Lines.strip_eq_self
    (fun a ha => by simp [intText_not_space (List.mem_of_head? ha)])
    (fun a ha => by simp [intText_not_space (List.mem_of_getLast? ha)])

theorem valueOk_intText (n : Int) : ValueOk (intText n) where
  trimmed := trim_intText n
  comm := fun h => by
    rcases intText_mem h with heq | hdigit
    · exact absurd heq (by decide)
    · exact absurd hdigit (by decide)
  goesOn := Lines.continued_of_not_mem fun h => by
    rcases intText_mem h with heq | hdigit
    · exact absurd heq (by decide)
    · exact absurd hdigit (by decide)

/-- `read<int>` on the text of a number. -/
theorem readInt_intText {cf : Contents} {key : Bytes} {n : Int} (h : cf key = some (intText n))
    (hlo : -2 ^ 31 ≤ n) (hhi : n < 2 ^ 31) (value junk : Int) : readInt cf key value junk = n := by
  have hdrop : (intText n).dropWhile isSpace = intText n := by
    cases htext : intText n with
    | nil => rfl
    | cons b s =>
      have hb : b ∈ intText n := by rw [htext]; exact List.mem_cons_self
      exact List.dropWhile_cons_of_neg (by simp [intText_not_space hb])
  simp only [readInt, h, hdrop, if_neg (intText_ne_nil n), leadingInt_intText, Option.getD_some,
    clamp]
  omega

end ConfigWriteLemmas

theorem contents_remove {m m' : ConfigMap} {key : Bytes} (h : m.remove key = some m') :
    m'.contents = Function.update m.contents key none := by
  unfold ConfigMap.remove at h
  split at h
  · cases h
    funext k
    rw [ConfigMap.contents, Std.TreeMap.getElem?_erase]
    by_cases hk : k = key
    · subst hk
      rw [if_pos Std.ReflCmp.compare_self, Function.update_self]
    · have hne : ¬ compare key k = .eq := fun heq => hk (Std.LawfulEqCmp.eq_of_compare heq).symm
      rw [if_neg hne, Function.update_of_ne hk]
      rfl
  · cases h

theorem step_ok {m m' : ConfigMap} (h : Contents.Ok m.contents) (hs : ConfigMap.Step m m') :
    Contents.Ok m'.contents := by
  cases hs with
  | read file heq =>
    rw [heq]
    exact operatorIn_ok file h
  | addInt key n hkey =>
    rw [ConfigMap.add, ConfigMap.contents_insert, trim_intText]
    exact ok_update h hkey (valueOk_intText n)
  | addString key value hkey hvalue =>
    rw [ConfigMap.add, ConfigMap.contents_insert]
    exact ok_update h hkey hvalue
  | remove key hrem =>
    rw [contents_remove hrem]
    intro k v hkv
    by_cases hk : k = key
    · subst hk
      simp at hkv
    · rw [Function.update_of_ne hk] at hkv
      exact h k v hkv

/-- Whatever files a program has read into a configuration, and whatever numbers and
fit texts it has added and keys it has removed: it can be written and read again. -/
theorem steps_write_read {m : ConfigMap} (h : Relation.ReflTransGen ConfigMap.Step ∅ m) :
    operatorIn m.operatorOut (fun _ => none) = m.contents := by
  refine read_of_ok ?_
  induction h with
  | refl => simp [Contents.Ok, ConfigMap.contents]
  | tail _ hs ih => exact step_ok ih hs

theorem keyOk_port : KeyOk (trim (ascii "remote.listen.port")) :=
  ⟨by decide +kernel, by decide +kernel, by decide +kernel, by decide +kernel⟩

/-- A file of two keys, and a port. -/
theorem steps_write_read_port :
    ∃ m : ConfigMap, m.contents (ascii "worker.thread.num") = some (ascii "8") ∧
      operatorIn m.operatorOut (fun _ => none) = m.contents := by
  obtain ⟨m, hm⟩ := operatorIn_contents (ascii "worker.thread.num = 8 # workers\nb = 1\n  2\n") ∅
  refine ⟨m.add (ascii "remote.listen.port") (intText 12006), ?_,
    steps_write_read (.tail (.single (.read _ hm)) (.addInt _ 12006 keyOk_port))⟩
  rw [ConfigMap.add, ConfigMap.contents_insert, Function.update_of_ne (by decide +kernel), hm]
  decide +kernel

/-- A number that is added is read again after the configuration has gone through a
file, and so are all other keys. -/
theorem add_write_read {m : ConfigMap} (h : Contents.Ok m.contents) {key : Bytes}
    (hkey : KeyOk (trim key)) {n : Int} (hlo : -2 ^ 31 ≤ n) (hhi : n < 2 ^ 31) :
    (∀ value junk,
      readInt (operatorIn (m.add key (intText n)).operatorOut fun _ => none) (trim key) value junk =
        n) ∧
    ∀ k, k ≠ trim key →
      operatorIn (m.add key (intText n)).operatorOut (fun _ => none) k = m.contents k := by
  rw [read_of_ok (step_ok h (.addInt key n hkey)), ConfigMap.add, ConfigMap.contents_insert,
    trim_intText]
  refine ⟨fun value junk => ?_, fun k hk => Function.update_of_ne hk _ _⟩
  exact readInt_intText (Function.update_self ..) hlo hhi value junk

theorem add_write_read_port :
    (∀ value junk,
      readInt (operatorIn ((∅ : ConfigMap).add (ascii "remote.listen.port")
        (intText (-1))).operatorOut fun _ => none) (trim (ascii "remote.listen.port")) value junk =
        -1) ∧
    ∀ k, k ≠ trim (ascii "remote.listen.port") →
      operatorIn ((∅ : ConfigMap).add (ascii "remote.listen.port") (intText (-1))).operatorOut
        (fun _ => none) k = (∅ : ConfigMap).contents k :=
  add_write_read (by simp [Contents.Ok, ConfigMap.contents]) keyOk_port (by decide) (by decide)

end SundayServer
