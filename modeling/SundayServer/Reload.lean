import SundayServer.Config
import SundayServer.Dispatch
import SundayServer.Lib.Machine

/-!
# Dispatching across configuration reloads

`InitThreads` makes as many workers as the first configuration says. `SigUsr`
reads the configuration again and `SettingsAndPrint` stores every setting, the
number of workers too, while `vec_libevent_thread_` keeps its size.

A step of `MasterState` is a dispatch or a reload. Either may end the process: a
dispatch by its modulus or by `vector::at`, a reload by `exit` when it cannot
open the file.

* `threadNums`: the values of `thread_num_` over a sequence of reloads.
* `SafeFor`: no dispatch fails, wherever dispatches come among the reloads.

Result: `safeFor_iff`.
-/

namespace SundayServer

/-! ## Definitions -/

/-- What a dispatch or a reload reads. `size` is the size of `vec_libevent_thread_`. -/
structure MasterState where
  contents : Contents
  settings : Settings
  lastThread : Int
  size : Nat

/-- A reload: the file (`none` when it cannot be opened) and what the variables
of `string_as_T` hold. -/
structure Reload where
  file : Option Bytes
  junk : Junk
deriving DecidableEq, Repr

inductive MasterStep
  | dispatch
  | sigUsr (r : Reload)
deriving DecidableEq, Repr

namespace MasterState

/-- The server after `InitThreads` with the first configuration, when that
completes with all workers. -/
def start (pipes : Pipes) (file : Bytes) (junk : Junk) : Option MasterState :=
  let contents := operatorIn file fun _ => none
  let settings := settingsAndPrint contents junk
  (initThreads pipes settings.threadNum).map fun v => ⟨contents, settings, -1, v.length⟩

/-- `DispatchSfdToWorker` up to `last_thread_ = tid`. -/
def dispatch (s : MasterState) : Option MasterState :=
  match nextTid s.lastThread s.settings.threadNum with
  | none => none
  | some tid => (atWorker s.size tid).map fun _ => { s with lastThread := tid }

/-- `SigUsr`: `InitConfigure`, then `SettingsAndPrint`. -/
def sigUsr (s : MasterState) (r : Reload) : Option MasterState :=
  r.file.map fun file =>
    let contents := operatorIn file s.contents
    { s with contents, settings := settingsAndPrint contents r.junk }

def step (s : MasterState) : MasterStep → Option MasterState
  | .dispatch => s.dispatch
  | .sigUsr r => s.sigUsr r

/-- The values of `thread_num_`, now and after each of the reloads in turn. -/
def threadNums (s : MasterState) : List Reload → List Nat
  | [] => [s.settings.threadNum]
  | r :: rs =>
    s.settings.threadNum ::
      match s.sigUsr r with
      | none => []
      | some s' => s'.threadNums rs

/-- The reloads among the steps of a run. -/
def reloads (es : List MasterStep) : List Reload :=
  es.filterMap fun
    | .dispatch => none
    | .sigUsr r => some r

/-- Wherever dispatches come among these reloads, each dispatch finds a worker. -/
def SafeFor (s : MasterState) (rs : List Reload) : Prop :=
  ∀ es s', reloads es <+: rs → Machine.run step s es = some s' → s'.dispatch.isSome

/-! ## One dispatch -/

/-- The last worker is one of the vector, or there is none yet, and the vector
is small enough for an `int` index. -/
structure InRange (s : MasterState) : Prop where
  last_ge : -1 ≤ s.lastThread
  last_lt : s.lastThread < s.size
  size_le : s.size ≤ 2 ^ 30

variable {s s' : MasterState}

theorem start_inRange {pipes : Pipes} {file : Bytes} {junk : Junk}
    (h : start pipes file junk = some s) : s.InRange ∧ s.lastThread = -1 := by
  obtain ⟨v, hv, rfl⟩ := Option.map_eq_some_iff.mp h
  have hlen := (initThreads_spec hv).1
  have hle := initThreads_le hv
  refine ⟨⟨Int.le_refl _, ?_, by rwa [hlen]⟩, rfl⟩
  show (-1 : Int) < v.length
  omega

/-- The index that the modulus gives, before it is looked up. -/
theorem InRange.tid (h : s.InRange) (h₀ : s.settings.threadNum ≠ 0) :
    nextTid s.lastThread s.settings.threadNum =
      some (((s.lastThread + 1).toNat % s.settings.threadNum : Nat) : Int) := by
  obtain ⟨hge, hlt, hle⟩ := h
  rw [nextTid_eq h₀ hge (by omega)]
  have hmod := Nat.mod_le (s.lastThread + 1).toNat s.settings.threadNum
  rw [toInt_of_range (by omega) (by omega)]

/-- A number of workers from one to the size of the vector is safe. -/
theorem InRange.dispatch (h : s.InRange) (h₁ : 1 ≤ s.settings.threadNum)
    (h₂ : s.settings.threadNum ≤ s.size) :
    ∃ last, s.dispatch = some { s with lastThread := last } ∧
      ({ s with lastThread := last } : MasterState).InRange := by
  have h₀ := Nat.ne_of_gt h₁
  have hlt := Nat.mod_lt (s.lastThread + 1).toNat h₁
  refine ⟨((s.lastThread + 1).toNat % s.settings.threadNum : Nat), ?_, ?_, ?_, h.size_le⟩
  · unfold MasterState.dispatch
    simp only [h.tid h₀, atWorker_of_lt (Nat.lt_of_lt_of_le hlt h₂), Option.map_some]
  · simp only
    omega
  · simp only
    omega

theorem dispatch_zero (h₀ : s.settings.threadNum = 0) : s.dispatch = none := by
  simp [MasterState.dispatch, nextTid, h₀]

/-- With a number of workers above the size of the vector, the dispatches go on
to the end of the vector and fail there. -/
theorem InRange.dispatch_fails (h : s.InRange) (hbig : s.size < s.settings.threadNum) :
    ∃ k t, Machine.run step s (List.replicate k .dispatch) = some t ∧ t.dispatch = none := by
  obtain ⟨d, hd⟩ : ∃ d : Nat, (d : Int) = s.size - (s.lastThread + 1) :=
    ⟨(s.size - (s.lastThread + 1)).toNat, by have := h.last_lt; omega⟩
  have hge := h.last_ge
  induction d generalizing s with
  | zero =>
    refine ⟨0, s, rfl, ?_⟩
    have hnat : (s.lastThread + 1).toNat = s.size := by omega
    simp only [MasterState.dispatch, h.tid (by omega), hnat, Nat.mod_eq_of_lt hbig]
    simp [atWorker]
  | succ d ih =>
    have hlt : (s.lastThread + 1).toNat < s.size := by omega
    have htid : ((s.lastThread + 1).toNat % s.settings.threadNum : Nat) = s.lastThread + 1 := by
      rw [Nat.mod_eq_of_lt (by omega)]
      omega
    have hdisp : s.dispatch = some { s with lastThread := s.lastThread + 1 } := by
      simp only [MasterState.dispatch, h.tid (by omega), htid]
      rw [show s.lastThread + 1 = ((s.lastThread + 1).toNat : Int) by omega, atWorker_of_lt hlt]
      rfl
    obtain ⟨k, t, hrun, hfail⟩ := ih (s := { s with lastThread := s.lastThread + 1 })
      ⟨by simp only; omega, by simp only; omega, h.size_le⟩ hbig (by simp only; omega)
      (by simp only; omega)
    refine ⟨k + 1, t, ?_, hfail⟩
    rw [List.replicate_succ, Machine.run_cons]
    simp only [step, hdisp, Option.bind_some]
    exact hrun

/-! ## Every run -/

theorem threadNum_mem (s : MasterState) (rs : List Reload) :
    s.settings.threadNum ∈ s.threadNums rs := by
  cases rs <;> simp [threadNums]

theorem sigUsr_inRange {r : Reload} (h : s.InRange) (hr : s.sigUsr r = some s') :
    s'.InRange ∧ s'.size = s.size ∧ s'.lastThread = s.lastThread := by
  obtain ⟨file, -, rfl⟩ := Option.map_eq_some_iff.mp hr
  exact ⟨⟨h.last_ge, h.last_lt, h.size_le⟩, rfl, rfl⟩

/-- The numbers to come depend on the settings and on the contents of the
configuration alone. -/
theorem threadNums_congr {t : MasterState} (hc : t.contents = s.contents)
    (hs : t.settings = s.settings) (rs : List Reload) : t.threadNums rs = s.threadNums rs := by
  induction rs generalizing s t with
  | nil => simp [threadNums, hs]
  | cons r rs ih =>
    simp only [threadNums, hs, List.cons.injEq, true_and, sigUsr, hc]
    cases r.file with
    | none => rfl
    | some file => exact ih rfl rfl

theorem safeFor_of_threadNums (h : s.InRange) {rs : List Reload}
    (hall : ∀ t ∈ s.threadNums rs, 1 ≤ t ∧ t ≤ s.size) : s.SafeFor rs := by
  intro es
  induction es generalizing s rs with
  | nil =>
    intro s' _ hr
    obtain rfl : s = s' := by simpa using hr
    obtain ⟨h₁, h₂⟩ := hall _ (s.threadNum_mem rs)
    obtain ⟨last, hd, -⟩ := h.dispatch h₁ h₂
    simp [hd]
  | cons e es ih =>
    intro s' hpre hr
    rw [Machine.run_cons] at hr
    cases e with
    | dispatch =>
      obtain ⟨h₁, h₂⟩ := hall _ (s.threadNum_mem rs)
      obtain ⟨last, hd, hrange⟩ := h.dispatch h₁ h₂
      simp only [step, hd, Option.bind_some] at hr
      have hsame : threadNums { s with lastThread := last } rs = s.threadNums rs :=
        @threadNums_congr s { s with lastThread := last } rfl rfl rs
      refine ih hrange (fun m hm => ?_) s' hpre hr
      rw [hsame] at hm
      exact hall m hm
    | sigUsr r =>
      obtain ⟨rs', rfl, hpre'⟩ : ∃ rs', rs = r :: rs' ∧ reloads es <+: rs' := by
        cases rs with
        | nil => simp [reloads] at hpre
        | cons q rs' =>
          obtain ⟨rfl, hpre'⟩ : r = q ∧ reloads es <+: rs' := by
            simpa [reloads, List.cons_prefix_cons] using hpre
          exact ⟨rs', rfl, hpre'⟩
      cases hs : s.sigUsr r with
      | none => simp [step, hs] at hr
      | some t =>
        simp only [step, hs, Option.bind_some] at hr
        obtain ⟨hrange, hsize, -⟩ := sigUsr_inRange h hs
        refine ih hrange (fun m hm => ?_) s' hpre' hr
        rw [hsize]
        exact hall m (by simp [threadNums, hs, hm])

/-- The present number of workers is not one that every dispatch survives. -/
theorem exists_failing_now (h : s.InRange)
    (hbad : ¬ (1 ≤ s.settings.threadNum ∧ s.settings.threadNum ≤ s.size)) (rs : List Reload) :
    ∃ es t, reloads es <+: rs ∧ Machine.run step s es = some t ∧ t.dispatch = none := by
  by_cases h₀ : s.settings.threadNum = 0
  · exact ⟨[], s, by simp [reloads], rfl, dispatch_zero h₀⟩
  · obtain ⟨k, t, hrun, hfail⟩ := h.dispatch_fails (by omega)
    exact ⟨_, t, by simp [reloads], hrun, hfail⟩

theorem exists_failing (h : s.InRange) {rs : List Reload} {m : Nat}
    (hm : m ∈ s.threadNums rs) (hbad : ¬ (1 ≤ m ∧ m ≤ s.size)) :
    ∃ es t, reloads es <+: rs ∧ Machine.run step s es = some t ∧ t.dispatch = none := by
  induction rs generalizing s with
  | nil =>
    obtain rfl : m = s.settings.threadNum := by simpa [threadNums] using hm
    exact exists_failing_now h hbad []
  | cons r rs ih =>
    rcases List.mem_cons.mp hm with rfl | hm
    · exact exists_failing_now h hbad _
    · cases hs : s.sigUsr r with
      | none => simp [hs] at hm
      | some t =>
        rw [hs] at hm
        obtain ⟨hrange, hsize, -⟩ := sigUsr_inRange h hs
        obtain ⟨es, u, hpre, hrun, hfail⟩ := ih hrange hm (by rwa [hsize])
        refine ⟨.sigUsr r :: es, u, ?_, ?_, hfail⟩
        · simpa [reloads, List.cons_prefix_cons] using hpre
        · simpa [step, hs] using hrun

/-- For any first configuration with which `InitThreads` completes and any
reloads, every dispatch finds a worker, wherever dispatches come among the
reloads, exactly when the first configuration and each reload leave a number of
workers from one to the number that were made. -/
theorem safeFor_iff {pipes : Pipes} {file : Bytes} {junk : Junk}
    (h : start pipes file junk = some s) (rs : List Reload) :
    s.SafeFor rs ↔ ∀ t ∈ s.threadNums rs, 1 ≤ t ∧ t ≤ s.size := by
  obtain ⟨hrange, -⟩ := start_inRange h
  constructor
  · intro hsafe m hm
    by_contra hbad
    obtain ⟨es, t, hpre, hrun, hfail⟩ := exists_failing hrange hm hbad
    have hsome := hsafe es t hpre hrun
    rw [hfail] at hsome
    cases hsome
  · exact safeFor_of_threadNums hrange

/-- A reload that asks for eight workers. -/
def eightWorkers : Reload := ⟨some (ascii "worker.thread.num = 8\n"), ⟨0, 0, 0⟩⟩

theorem safeFor_iff_eightWorkers :
    ∃ s, start fourPipes [] ⟨0, 0, 0⟩ = some s ∧
      (s.SafeFor [eightWorkers] ↔ ∀ t ∈ s.threadNums [eightWorkers], 1 ≤ t ∧ t ≤ s.size) := by
  have hsome : (start fourPipes [] ⟨0, 0, 0⟩).isSome := by decide +kernel
  obtain ⟨s, hs⟩ := Option.isSome_iff_exists.mp hsome
  exact ⟨s, hs, safeFor_iff hs _⟩

/-- Four workers, a reload that asks for eight, and the fifth dispatch. -/
theorem fifth_dispatch_fails :
    ∃ s, start fourPipes [] ⟨0, 0, 0⟩ = some s ∧ ¬ s.SafeFor [eightWorkers] := by
  have hrun : ((start fourPipes [] ⟨0, 0, 0⟩).bind fun s => Machine.run step s
      [.sigUsr eightWorkers, .dispatch, .dispatch, .dispatch, .dispatch]).map
      (fun t => t.dispatch.isSome) = some false := by decide +kernel
  obtain ⟨t, ht, hfail⟩ := Option.map_eq_some_iff.mp hrun
  obtain ⟨s, hs, hst⟩ := Option.bind_eq_some_iff.mp ht
  refine ⟨s, hs, fun hsafe => ?_⟩
  have hsome := hsafe _ t (by simp [reloads]) hst
  rw [hfail] at hsome
  cases hsome

end MasterState

end SundayServer
