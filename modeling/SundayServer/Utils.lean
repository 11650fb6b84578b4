import SundayServer.Lib.Split
import Mathlib.Data.List.TakeWhile
import Mathlib.Data.UInt

/-!
# Bytes, C strings and the helpers of `utils.h`

A `std::string` is a list of bytes. A C string stops at its first NUL byte
(`cstr`). The constants are those of `defines.h` and of `worker_threads.cc`.

`utils::SplitData` is the find/erase loop of the source, run on fuel
(`splitLoop`). `splitLoop_splits` says that it computes the leftmost split of
`Lib/Split.lean`, and `splitLoop_total` that the length of the string is fuel
enough for every delimiter that is not empty. `splitData_leftmost` puts the two
together; `splitLoop_empty` is the delimiter on which the loop never ends.
-/

namespace SundayServer

abbrev Bytes := List UInt8

/-- The bytes of an ASCII text. -/
def ascii (s : String) : Bytes := s.toList.map fun c => c.toNat.toUInt8

/-- `c_str()` read as a C string: the bytes before the first NUL. -/
def cstr (s : Bytes) : Bytes := s.takeWhile (· ≠ 0)

/-- `#define CRLF "\r\n"`. -/
def CRLF : Bytes := [0x0d, 0x0a]

/-- The three spaces between two fields. -/
def SPACE3 : Bytes := [0x20, 0x20, 0x20]

/-- `#define TOKEN_LENGTH 5`. -/
def TOKEN_LENGTH : Nat := 5

/-- `#define TOKEN_STR "12345"`. -/
def TOKEN_STR : Bytes := ascii "12345"

/-- `#define BUFSIZE 1024`. -/
def BUFSIZE : Nat := 1024

/-- `readbuf[i] ^= key` with `key = 0xff`, over a whole buffer. -/
def xorKey (s : Bytes) : Bytes := s.map (· ^^^ 0xff)

theorem xorKey_xorKey (s : Bytes) : xorKey (xorKey s) = s := by
  simp only [xorKey, List.map_map]
  conv_rhs => rw [← List.map_id s]
  refine List.map_congr_left fun b _ => ?_
  show (b ^^^ 0xff) ^^^ 0xff = b
  rw [UInt8.xor_assoc, UInt8.xor_self, UInt8.xor_zero]

@[simp] theorem xorKey_length (s : Bytes) : (xorKey s).length = s.length := by simp [xorKey]

@[simp] theorem xorKey_append (s t : Bytes) : xorKey (s ++ t) = xorKey s ++ xorKey t := by
  simp [xorKey]

theorem cstr_prefix_self (s : Bytes) : cstr s <+: s := List.takeWhile_prefix _

theorem cstr_eq_self_iff {s : Bytes} : cstr s = s ↔ 0 ∉ s := by
  unfold cstr
  rw [List.takeWhile_eq_self_iff]
  constructor
  · intro h h0
    simpa using h 0 h0
  · intro h b hb
    have : b ≠ 0 := fun h0 => h (h0 ▸ hb)
    simpa using this

theorem zero_not_mem_cstr (s : Bytes) : 0 ∉ cstr s := fun hmem => by
  have hne := List.mem_takeWhile_imp hmem
  simp at hne

/-! ## Integers -/

/-- The conversion of a value to a 32-bit `int`. -/
def toInt (v : Int) : Int := v.bmod (2 ^ 32)

/-- The conversion of a value to a 32-bit `unsigned int`. -/
def toUnsigned (v : Int) : Nat := (v % 2 ^ 32).toNat

theorem toInt_of_range {v : Int} (h₁ : -2 ^ 31 ≤ v) (h₂ : v < 2 ^ 31) : toInt v = v := by
  unfold toInt
  exact Int.bmod_eq_of_le (by omega) (by omega)

theorem toUnsigned_of_range {v : Int} (h₁ : 0 ≤ v) (h₂ : v < 2 ^ 32) :
    (toUnsigned v : Int) = v := by
  unfold toUnsigned
  rw [Int.emod_eq_of_lt h₁ h₂, Int.toNat_of_nonneg h₁]

/-- `isspace` in the "C" locale. -/
def isSpace (b : UInt8) : Bool := b = 0x20 || (9 ≤ b && b ≤ 13)

def isDigit (b : UInt8) : Bool := 0x30 ≤ b && b ≤ 0x39

/-- The value of a run of decimal digits. -/
def digitsValue (ds : Bytes) : Nat := ds.foldl (fun n d => 10 * n + (d.toNat - 0x30)) 0

/-- An optional sign and the decimal digits after it; `none` when no digit follows. -/
def leadingInt (s : Bytes) : Option Int :=
  let neg := s.head? = some 0x2d
  let s := if neg ∨ s.head? = some 0x2b then s.tail else s
  let ds := s.takeWhile isDigit
  if ds = [] then none else some (if neg then -(digitsValue ds : Int) else digitsValue ds)

/-- `v` moved into the range `[lo, hi]`. -/
def clamp (lo hi v : Int) : Int := max lo (min hi v)

/-- `atoi`: `strtol` (which stays inside a 64-bit `long`) converted to `int`. -/
def atoi (s : Bytes) : Int :=
  toInt (clamp (-2 ^ 63) (2 ^ 63 - 1) ((leadingInt ((cstr s).dropWhile isSpace)).getD 0))

/-! ## `utils.h` -/

/-- The loop of `SplitData`: find the delimiter, push what stands before it,
erase up to its end. -/
def splitLoop (delimiter : Bytes) : Nat → Bytes → List Bytes → Option (List Bytes)
  | 0, _, _ => none
  | fuel + 1, s, vecData =>
    match Split.find delimiter s with
    | none => some vecData
    | some pos =>
      splitLoop delimiter fuel (s.drop (pos + delimiter.length)) (vecData ++ [s.take pos])

/-- `utils::SplitData`. -/
def splitData (str delimiter : Bytes) (vecData : List Bytes) : List Bytes :=
  (splitLoop delimiter (str.length + 1) str vecData).getD vecData

/-- `utils::FindCRLF`. -/
def findCRLF (s : Bytes) : Bool := (Split.find CRLF s).isSome

/-- `utils::FindSPACE`. -/
def findSPACE (s : Bytes) : Bool := (Split.find SPACE3 s).isSome

theorem splitLoop_splits {d s : Bytes} {v w : List Bytes} {fuel : Nat}
    (h : splitLoop d fuel s v = some w) : ∃ ts r, w = v ++ ts ∧ Split.Splits d s ts r := by
  induction fuel generalizing s v with
  | zero => cases h
  | succ fuel ih =>
    simp only [splitLoop] at h
    split at h
    · next hf =>
      cases h
      exact ⟨[], s, by simp, .rest (Split.find_eq_none hf)⟩
    · next pos hf =>
      obtain ⟨hcut, hfirst⟩ := Split.find_cut hf
      obtain ⟨ts, r, rfl, hs⟩ := ih h
      have hsplit := Split.Splits.cut hfirst hs
      rw [← hcut] at hsplit
      exact ⟨s.take pos :: ts, r, by simp, hsplit⟩

theorem splitLoop_total {d : Bytes} (hd : d ≠ []) (s : Bytes) (v : List Bytes) (fuel : Nat)
    (hfuel : s.length < fuel) : (splitLoop d fuel s v).isSome := by
  induction fuel generalizing s v with
  | zero => exact absurd hfuel (Nat.not_lt_zero _)
  | succ fuel ih =>
    simp only [splitLoop]
    split
    · rfl
    · next pos hf =>
      refine ih _ _ ?_
      have hlen := congrArg List.length (Split.find_cut hf).1
      -- the loop goes on with less, as the delimiter is not empty
      have hpos := List.length_pos_iff.mpr hd
      simp only [List.length_append, List.length_drop, List.length_take] at hlen ⊢
      omega

/-- `SplitData` appends the tokens of the leftmost split. -/
theorem splitData_splits {d : Bytes} (hd : d ≠ []) (s : Bytes) (v : List Bytes) :
    ∃ ts r, splitData s d v = v ++ ts ∧ Split.Splits d s ts r := by
  obtain ⟨w, hw⟩ := Option.isSome_iff_exists.mp
    (splitLoop_total hd s v (s.length + 1) (Nat.lt_succ_self _))
  obtain ⟨ts, r, rfl, hs⟩ := splitLoop_splits hw
  exact ⟨ts, r, by simp [splitData, hw], hs⟩

theorem splitData_eq {d s : Bytes} {ts : List Bytes} {r : Bytes} (hd : d ≠ [])
    (h : Split.Splits d s ts r) (v : List Bytes) : splitData s d v = v ++ ts := by
  obtain ⟨ts', r', hts, hs⟩ := splitData_splits hd s v
  rw [hts, (hs.unique h).1]

/-- The tokens of a string: each is followed by the delimiter, which does not
occur before that place nor in what is left. -/
def Tokens (str delimiter : Bytes) (ts : List Bytes) : Prop :=
  ∃ rest, (ts.map (· ++ delimiter)).flatten ++ rest = str ∧ ¬ delimiter <:+: rest ∧
    ∀ t ∈ ts, Split.FirstAt delimiter t

theorem tokens_iff {str delimiter : Bytes} {ts : List Bytes} :
    Tokens str delimiter ts ↔ ∃ rest, Split.Splits delimiter str ts rest :=
  exists_congr fun _ => Split.splits_iff.symm

/-- For every string, every delimiter that is not empty and every initial vector,
the loop ends, and appends the tokens of the string, which are unique. -/
theorem splitData_leftmost {delimiter : Bytes} (hd : delimiter ≠ []) (str : Bytes)
    (vecData : List Bytes) :
    ∃ ts, splitData str delimiter vecData = vecData ++ ts ∧
      (∀ fuel, str.length < fuel →
        splitLoop delimiter fuel str vecData = some (vecData ++ ts)) ∧
      Tokens str delimiter ts ∧ ∀ ts', Tokens str delimiter ts' → ts' = ts := by
  obtain ⟨ts, rest, hts, hsplit⟩ := splitData_splits hd str vecData
  refine ⟨ts, hts, fun fuel hfuel => ?_, tokens_iff.mpr ⟨rest, hsplit⟩, fun ts' hts' => ?_⟩
  · obtain ⟨w, hw⟩ := Option.isSome_iff_exists.mp (splitLoop_total hd str vecData fuel hfuel)
    obtain ⟨us, r, rfl, hus⟩ := splitLoop_splits hw
    rw [hw, (hus.unique hsplit).1]
  · obtain ⟨r, hr⟩ := tokens_iff.mp hts'
    exact (hr.unique hsplit).1

/-- Four spaces: the delimiter is cut off at the first of them. -/
theorem splitData_leftmost_fourSpaces :
    ∃ ts, splitData (ascii "a    b   ") SPACE3 [ascii "x"] = [ascii "x"] ++ ts ∧
      (∀ fuel, (ascii "a    b   ").length < fuel →
        splitLoop SPACE3 fuel (ascii "a    b   ") [ascii "x"] = some ([ascii "x"] ++ ts)) ∧
      Tokens (ascii "a    b   ") SPACE3 ts ∧
      ∀ ts', Tokens (ascii "a    b   ") SPACE3 ts' → ts' = ts :=
  splitData_leftmost (by decide) _ _

example : splitData (ascii "a    b   ") SPACE3 [] = [ascii "a", ascii " b"] := by decide +kernel

/-- The empty delimiter is found at the front for ever. -/
theorem splitLoop_empty (fuel : Nat) (s : Bytes) (v : List Bytes) :
    splitLoop [] fuel s v = none := by
  have hfind : ∀ t : Bytes, Split.find [] t = some 0 := fun t => by cases t <;> rfl
  induction fuel generalizing v with
  | zero => rfl
  | succ fuel ih =>
    simp only [splitLoop, hfind, List.take_zero, List.length_nil, Nat.add_zero, List.drop_zero]
    exact ih _

@[simp] theorem CRLF_ne_nil : CRLF ≠ [] := by decide

@[simp] theorem SPACE3_ne_nil : SPACE3 ≠ [] := by decide

theorem crlf_borderless : Split.Borderless CRLF := by
  rintro x hx hs
  have hlen := hx.length_le
  match x, hlen with
  | [], _ => exact .inl rfl
  | [a], _ =>
    -- one byte would have to be both CR and LF
    have h₁ : a = 0x0d := by simpa [CRLF] using hx
    subst h₁
    exact absurd hs (by decide)
  | a :: b :: t, hlen => exact .inr (hx.eq_of_length (Nat.le_antisymm hlen (by simp [CRLF])))

theorem findCRLF_iff {s : Bytes} : findCRLF s ↔ CRLF <:+: s := Split.find_isSome_iff

theorem findSPACE_iff {s : Bytes} : findSPACE s ↔ SPACE3 <:+: s := Split.find_isSome_iff

end SundayServer
