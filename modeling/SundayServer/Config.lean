import SundayServer.Utils
import Mathlib.Data.List.DropRight
import Mathlib.Logic.Function.Basic

/-!
# Configuration files and settings

`ConfigFile` (of `config_file.h`) as the server uses it: built without a file,
so the delimiter is `=`, the comment sign `#` and the sentry empty. There is one
for the whole process, and `operator>>` stores into it what it reads.

* `Stream`, `getline`: an input stream. After the last line `getline` still
  succeeds once the end is seen, and on a stream that is no longer good it
  fails and leaves its string as it was.
* `valueLoop`, `readLoop`, `operatorIn`: the two loops of `operator>>`, on fuel.
* `readInt`: `read<int>`. The variable that an empty value is read into is never
  set; its contents are a parameter (`junk`).
* `settingsAndPrint`: the three settings.

Results: `operatorIn_total`, the loops end; `operatorIn_overlay`, what they store.
-/

namespace SundayServer

/-! ## Streams -/

/-- What is left of the input, and the two state bits. -/
structure Stream where
  rest : Bytes
  eof : Bool
  fail : Bool
deriving DecidableEq, Repr

/-- `std::getline(is, str)`. -/
def getline (is : Stream) (str : Bytes) : Stream × Bytes :=
  if is.eof ∨ is.fail then ({ is with fail := true }, str)
  else
    match is.rest.dropWhile (· ≠ 0x0a) with
    | _ :: rest => ({ is with rest }, is.rest.takeWhile (· ≠ 0x0a))
    | [] => (⟨[], true, is.rest = []⟩, is.rest)

/-- Steps that `getline` can still take before the stream has failed. -/
def Stream.weight (is : Stream) : Nat :=
  if is.fail then 0 else if is.eof then 1 else is.rest.length + 2

theorem getline_weight {is : Stream} (h : is.fail = false) (str : Bytes) :
    (getline is str).1.weight < is.weight := by
  unfold getline
  cases he : is.eof with
  | true => simp [Stream.weight, h, he]
  | false =>
    simp only [h, Bool.false_eq_true, or_self, if_false]
    split
    · next b rest hrest =>
      have hlen := congrArg List.length (List.takeWhile_append_dropWhile
        (p := (· ≠ (0x0a : UInt8))) (l := is.rest))
      rw [hrest] at hlen
      simp only [List.length_append, List.length_cons] at hlen
      simp only [Stream.weight, h, he, Bool.false_eq_true, if_false]
      omega
    · simp only [Stream.weight, h, he, Bool.false_eq_true, if_false]
      split
      · omega
      · simp

/-! ## `operator>>` -/

/-- `myContents`. -/
abbrev Contents := Bytes → Option Bytes

/-- `ConfigFile::trim`. -/
def trim (s : Bytes) : Bytes := (s.dropWhile isSpace).rdropWhile isSpace

/-- `line.substr(0, line.find("#"))`. -/
def cutComment (line : Bytes) : Bytes := line.takeWhile (· ≠ 0x23)

/-- The inner loop: the value goes on over the next lines until a blank line, a
line with a delimiter or the end of the stream. -/
def valueLoop : Nat → Stream → Bytes → Bytes → Option (Stream × Bytes × Bytes)
  | 0, _, _, _ => none
  | fuel + 1, is, line, nextline =>
    if is.fail then some (is, line, nextline)
    else
      let (is, nextline) := getline is nextline
      if trim nextline = [] then some (is, line, nextline)
      else
        let nextline := cutComment nextline
        if 0x3d ∈ nextline then some (is, line, nextline)
        else
          let line := if trim nextline ≠ [] then line ++ [0x0a] else line
          valueLoop fuel is (line ++ nextline) nextline

/-- The line of a turn of the outer loop: the one read ahead, or a new one. -/
def turnLine (is : Stream) (nextline : Bytes) : Stream × Bytes :=
  if nextline ≠ [] then (is, nextline) else getline is []

/-- The outer loop, one line at a time. -/
def readLoop : Nat → Stream → Bytes → Contents → Option Contents
  | 0, _, _, _ => none
  | fuel + 1, is, nextline, cf =>
    if is.fail ∧ nextline = [] then some cf
    else
      let (is, line) := turnLine is nextline
      let line := cutComment line
      if 0x3d ∈ line then
        let key := line.takeWhile (· ≠ 0x3d)
        let value := (line.dropWhile (· ≠ 0x3d)).tail
        match valueLoop (is.weight + 1) is value [] with
        | none => none
        | some (is, value, nextline) =>
          readLoop fuel is nextline (Function.update cf (trim key) (some (trim value)))
      else readLoop fuel is [] cf

/-- `operator>>(is, cf)` on a file with these contents. -/
def operatorIn (file : Bytes) (cf : Contents) : Contents :=
  (readLoop (2 * file.length + 5) ⟨file, false, false⟩ [] cf).getD cf

/-- The inner loop ends; it has taken something from the stream, or it has not
run and left its string alone. -/
theorem valueLoop_total {fuel : Nat} {is : Stream} (h : is.weight < fuel) (line nextline : Bytes) :
    ∃ is' line' nextline', valueLoop fuel is line nextline = some (is', line', nextline') ∧
      (is'.weight < is.weight ∨ is' = is ∧ nextline' = nextline) := by
  induction fuel generalizing is line nextline with
  | zero => exact absurd h (Nat.not_lt_zero _)
  | succ fuel ih =>
    unfold valueLoop
    cases hfail : is.fail with
    | true => exact ⟨is, line, nextline, rfl, .inr ⟨rfl, rfl⟩⟩
    | false =>
      have hlt := getline_weight hfail nextline
      simp only [Bool.false_eq_true, if_false]
      split
      · exact ⟨_, _, _, rfl, .inl hlt⟩
      · split
        · exact ⟨_, _, _, rfl, .inl hlt⟩
        · have hfuel : (getline is nextline).1.weight < fuel := by omega
          obtain ⟨is', line', nextline', heq, hw⟩ :=
            ih hfuel _ (cutComment (getline is nextline).2)
          refine ⟨is', line', nextline', heq, .inl ?_⟩
          rcases hw with hw | ⟨rfl, -⟩
          · omega
          · exact hlt

/-- What the next turn of the outer loop may still take. -/
def turnWeight (is : Stream) (nextline : Bytes) : Nat :=
  2 * is.weight + if nextline = [] then 0 else 1

/-- A turn uses up the line that was read ahead, or takes from the stream. -/
theorem turnLine_weight {is : Stream} {nextline : Bytes} (h : ¬ (is.fail ∧ nextline = [])) :
    2 * (turnLine is nextline).1.weight < turnWeight is nextline := by
  unfold turnLine turnWeight
  by_cases hnl : nextline = []
  · have hfail : is.fail = false := by
      cases hf : is.fail with
      | true => exact absurd ⟨hf, hnl⟩ h
      | false => rfl
    have hlt := getline_weight hfail []
    simp only [hnl, ne_eq, not_true_eq_false, if_false, if_true]
    omega
  · simp only [hnl, ne_eq, not_false_eq_true, if_true, if_false]
    omega

/-- The outer loop ends. -/
theorem readLoop_total {fuel : Nat} {is : Stream} {nextline : Bytes}
    (h : turnWeight is nextline < fuel) (cf : Contents) :
    (readLoop fuel is nextline cf).isSome := by
  induction fuel generalizing is nextline cf with
  | zero => exact absurd h (Nat.not_lt_zero _)
  | succ fuel ih =>
    unfold readLoop
    split
    · rfl
    · next hgo =>
      have hturn := turnLine_weight hgo
      simp only
      split
      · obtain ⟨is', value, next, heq, hw⟩ :=
          valueLoop_total (Nat.lt_succ_self (turnLine is nextline).1.weight)
            ((cutComment (turnLine is nextline).2).dropWhile (· ≠ 0x3d)).tail []
        rw [heq]
        refine ih ?_ _
        unfold turnWeight
        rcases hw with hw | ⟨rfl, rfl⟩
        · split <;> omega
        · simp only [if_true]
          omega
      · refine ih ?_ _
        simp only [turnWeight, if_true]
        omega

theorem operatorIn_total (file : Bytes) (cf : Contents) :
    (readLoop (2 * file.length + 5) ⟨file, false, false⟩ [] cf).isSome :=
  readLoop_total (by simp [turnWeight, Stream.weight]; omega) cf

/-! ## What a file stores -/

/-- The contents `g` over the contents `cf`. -/
def overlay (g cf : Contents) : Contents := fun key => (g key).or (cf key)

theorem update_overlay (g cf : Contents) (key value : Bytes) :
    Function.update (overlay g cf) key (some value) =
      overlay (Function.update g key (some value)) cf := by
  funext k
  by_cases hk : k = key
  · simp [overlay, hk]
  · simp [overlay, hk]

theorem readLoop_overlay (fuel : Nat) (is : Stream) (nextline : Bytes) (g cf : Contents) :
    readLoop fuel is nextline (overlay g cf) =
      (readLoop fuel is nextline g).map fun g' => overlay g' cf := by
  induction fuel generalizing is nextline g with
  | zero => rfl
  | succ fuel ih =>
    unfold readLoop
    split
    · rfl
    · simp only
      split
      · split
        · rfl
        · rw [update_overlay, ih]
      · rw [ih]

/-- A file overwrites the keys that it stores and no others. -/
theorem operatorIn_overlay (file : Bytes) (cf : Contents) :
    operatorIn file cf = overlay (operatorIn file fun _ => none) cf := by
  obtain ⟨g, hg⟩ := Option.isSome_iff_exists.mp (operatorIn_total file fun _ => none)
  have hcf : cf = overlay (fun _ => none) cf := by
    funext key
    rfl
  conv_lhs => rw [hcf]
  simp only [operatorIn, readLoop_overlay, hg, Option.map_some, Option.getD_some]

/-! ## Settings -/

/-- `ConfigFile::read<int>(key, value)`: digits are read as far as they go, a
text without digits gives 0, and a number that is too large the largest or
smallest `int`. -/
def readInt (cf : Contents) (key : Bytes) (value junk : Int) : Int :=
  match cf key with
  | none => value
  | some s =>
    let s := s.dropWhile isSpace
    if s = [] then junk else clamp (-2 ^ 31) (2 ^ 31 - 1) ((leadingInt s).getD 0)

/-- `CGlobalSettings`. -/
structure Settings where
  remoteListenPort : Int
  threadNum : Nat
  clientHeartbeatTimeout : Int
deriving DecidableEq, Repr

/-- The values of the three uninitialised variables of `string_as_T`. -/
structure Junk where
  port : Int
  num : Int
  timeout : Int
deriving DecidableEq, Repr

/-- `SettingsAndPrint`. -/
def settingsAndPrint (cf : Contents) (junk : Junk) : Settings where
  remoteListenPort := readInt cf (ascii "remote.listen.port") 12006 junk.port
  threadNum := toUnsigned (readInt cf (ascii "worker.thread.num") 4 junk.num)
  clientHeartbeatTimeout := readInt cf (ascii "client.heartbeat.timeout.s") 70 junk.timeout

example : (settingsAndPrint (operatorIn (ascii "worker.thread.num = 8 # workers\n") fun _ => none)
    ⟨0, 0, 0⟩) = ⟨12006, 8, 70⟩ := by decide +kernel

end SundayServer
