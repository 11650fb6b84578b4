import SundayServer.Reload

/-!
# The heartbeat timeout across reloads

`SigUsr` reloads the configuration to refresh the connection timeout. Every file
is read into the one `ConfigFile` of the process, which nothing clears, so a key
that the new file lacks keeps the value of an older file.

* `storedBy`, `lastStored`: what one file, or the last of several that has the
  key, stores under it.
* `timeoutOf`: how a stored value is read.
* `ReloadFresh`: a reload leaves the timeout that a new process would have.

Result: `reloadFresh_iff`.
-/

namespace SundayServer

/-! ## Definitions -/

def heartbeatKey : Bytes := ascii "client.heartbeat.timeout.s"

/-- What a file stores under the key. -/
def storedBy (file : Bytes) : Option Bytes := operatorIn file (fun _ => none) heartbeatKey

/-- What the files leave under the key, read one after the other. -/
def lastStored (files : List Bytes) : Option Bytes :=
  files.foldl (fun v file => (storedBy file).or v) none

/-- The timeout that a stored value gives. An empty value gives whatever the
variable of `string_as_T` holds. -/
def timeoutOf : Option Bytes → Option Int
  | none => some 70
  | some s =>
    let s := s.dropWhile isSpace
    if s = [] then none else some (clamp (-2 ^ 31) (2 ^ 31 - 1) ((leadingInt s).getD 0))

namespace MasterState

/-- Reloading the file leaves the timeout of a new process that reads it,
whatever uninitialised variables hold in either. -/
def ReloadFresh (s : MasterState) (file : Bytes) : Prop :=
  ∀ junk junk' t, s.sigUsr ⟨some file, junk⟩ = some t →
    t.settings.clientHeartbeatTimeout =
      (settingsAndPrint (operatorIn file fun _ => none) junk').clientHeartbeatTimeout

/-- The files that the reloads of a run read. -/
def filesOf (es : List MasterStep) : List Bytes := (reloads es).filterMap Reload.file

end MasterState

/-! ## The contents of the configuration -/

namespace HeartbeatLemmas

open MasterState

theorem timeout_eq (cf : Contents) (junk : Junk) :
    (settingsAndPrint cf junk).clientHeartbeatTimeout =
      (timeoutOf (cf heartbeatKey)).getD junk.timeout := by
  show readInt cf heartbeatKey 70 junk.timeout = _
  unfold readInt timeoutOf
  cases cf heartbeatKey with
  | none => rfl
  | some v =>
    simp only
    split <;> rfl

theorem operatorIn_key (file : Bytes) (cf : Contents) :
    operatorIn file cf heartbeatKey = (storedBy file).or (cf heartbeatKey) := by
  rw [operatorIn_overlay]
  rfl

theorem lastStored_concat (files : List Bytes) (file : Bytes) :
    lastStored (files ++ [file]) = (storedBy file).or (lastStored files) := by
  simp [lastStored]

/-- One step: a reload adds its file, a dispatch reads none. -/
theorem step_contents {s s' : MasterState} {e : MasterStep} {files : List Bytes}
    (h : s.contents heartbeatKey = lastStored files) (hs : step s e = some s') :
    s'.contents heartbeatKey = lastStored (files ++ filesOf [e]) := by
  cases e with
  | dispatch =>
    have hsame : s'.contents = s.contents := by
      simp only [step, MasterState.dispatch] at hs
      split at hs
      · cases hs
      · obtain ⟨_, -, rfl⟩ := Option.map_eq_some_iff.mp hs
        rfl
    rw [hsame, h]
    simp [filesOf, reloads]
  | sigUsr r =>
    obtain ⟨file, hfile, rfl⟩ := Option.map_eq_some_iff.mp hs
    have hfiles : filesOf [.sigUsr r] = [file] := by simp [filesOf, reloads, hfile]
    rw [hfiles, lastStored_concat, ← h]
    exact operatorIn_key file s.contents

/-- Two readings agree whatever the variables hold when both are determined. -/
theorem forall_getD_iff {x y : Option Int} :
    (∀ a b, x.getD a = y.getD b) ↔ ∃ t, x = some t ∧ y = some t := by
  constructor
  · intro h
    cases x with
    | none =>
      -- the variable of the first reading is free to be another value
      have h0 := h (y.getD 0 + 1) 0
      simp at h0
    | some t =>
      cases y with
      | none =>
        have h1 := h 0 (t + 1)
        simp at h1
      | some u => exact ⟨t, rfl, congrArg some (h 0 0).symm⟩
  · rintro ⟨t, rfl, rfl⟩ a b
    rfl

end HeartbeatLemmas

open HeartbeatLemmas

namespace MasterState

/-- After a run the key has the value of the last file that stores it. -/
theorem run_contents {pipes : Pipes} {file : Bytes} {junk : Junk} {s s' : MasterState}
    (h : start pipes file junk = some s) {es : List MasterStep}
    (hr : Machine.run step s es = some s') :
    s'.contents heartbeatKey = lastStored (file :: filesOf es) := by
  have hstart : s.contents heartbeatKey = lastStored (file :: filesOf []) := by
    obtain ⟨v, -, rfl⟩ := Option.map_eq_some_iff.mp h
    show operatorIn file (fun _ => none) heartbeatKey = _
    simp [lastStored, filesOf, reloads, storedBy]
  refine Machine.run_history (C := fun _ _ => True)
    (I := fun es s => s.contents heartbeatKey = lastStored (file :: filesOf es))
    (fun es t e t' ht _ hstep => ?_) hstart (Machine.along_of_forall s fun _ _ => trivial) hr
  have hnext := step_contents ht hstep
  rw [hnext]
  simp [filesOf, reloads]

/-! ## A reload -/

/-- For every first configuration and every run of dispatches and reloads, a
reload leaves the timeout of a new process exactly when its file stores a value
that is not blank, or stores none and what the earlier files leave is read as
the default. -/
theorem reloadFresh_iff {pipes : Pipes} {first : Bytes} {junk : Junk} {s s' : MasterState}
    (h : start pipes first junk = some s) {es : List MasterStep}
    (hr : Machine.run step s es = some s') (file : Bytes) :
    s'.ReloadFresh file ↔
      if (storedBy file).isSome then (timeoutOf (storedBy file)).isSome
      else timeoutOf (lastStored (first :: filesOf es)) = some 70 := by
  have hfresh : s'.ReloadFresh file ↔ ∀ a b,
      (timeoutOf ((storedBy file).or (lastStored (first :: filesOf es)))).getD a =
        (timeoutOf (storedBy file)).getD b := by
    have hreload : ∀ j, ∃ t, s'.sigUsr ⟨some file, j⟩ = some t ∧
        t.settings.clientHeartbeatTimeout =
          (timeoutOf ((storedBy file).or (lastStored (first :: filesOf es)))).getD j.timeout := by
      intro j
      refine ⟨_, rfl, ?_⟩
      rw [← run_contents h hr, ← operatorIn_key]
      exact timeout_eq _ j
    have hnew := fun j => timeout_eq (operatorIn file fun _ => none) j
    constructor
    · intro hf a b
      obtain ⟨t, ht, htimeout⟩ := hreload ⟨0, 0, a⟩
      have heq := hf ⟨0, 0, a⟩ ⟨0, 0, b⟩ t ht
      rwa [htimeout, hnew] at heq
    · intro hf j j' t ht
      obtain ⟨t', ht', htimeout⟩ := hreload j
      obtain rfl : t = t' := by simpa [ht] using ht'
      rw [htimeout, hnew]
      exact hf _ _
  rw [hfresh, forall_getD_iff]
  cases storedBy file with
  | none => simp [timeoutOf]
  | some v => simp [Option.isSome_iff_exists]

/-- A file that sets the timeout, and one in which the line is a comment. -/
def setTimeout : Bytes := ascii "client.heartbeat.timeout.s = 10\n"

def noTimeout : Bytes := ascii "# client.heartbeat.timeout.s = 10\n"

theorem reloadFresh_iff_noTimeout :
    ∃ s, start fourPipes setTimeout ⟨0, 0, 0⟩ = some s ∧
      (s.ReloadFresh noTimeout ↔
        if (storedBy noTimeout).isSome then (timeoutOf (storedBy noTimeout)).isSome
        else timeoutOf (lastStored (setTimeout :: filesOf [])) = some 70) := by
  have hsome : (start fourPipes setTimeout ⟨0, 0, 0⟩).isSome := by decide +kernel
  obtain ⟨s, hs⟩ := Option.isSome_iff_exists.mp hsome
  exact ⟨s, hs, reloadFresh_iff hs rfl noTimeout⟩

/-- The reload leaves ten seconds; a new process has the default. -/
theorem reload_keeps_old_timeout :
    ∃ s t, start fourPipes setTimeout ⟨0, 0, 0⟩ = some s ∧
      s.sigUsr ⟨some noTimeout, ⟨0, 0, 0⟩⟩ = some t ∧
      t.settings.clientHeartbeatTimeout = 10 ∧
      (settingsAndPrint (operatorIn noTimeout fun _ => none) ⟨0, 0, 0⟩).clientHeartbeatTimeout =
        70 ∧
      ¬ s.ReloadFresh noTimeout := by
  have hrun : ((start fourPipes setTimeout ⟨0, 0, 0⟩).bind fun s =>
      s.sigUsr ⟨some noTimeout, ⟨0, 0, 0⟩⟩).map (·.settings.clientHeartbeatTimeout) = some 10 := by
    decide +kernel
  have hnew : (settingsAndPrint (operatorIn noTimeout fun _ => none)
      ⟨0, 0, 0⟩).clientHeartbeatTimeout = 70 := by decide +kernel
  obtain ⟨t, ht, htimeout⟩ := Option.map_eq_some_iff.mp hrun
  obtain ⟨s, hs, hst⟩ := Option.bind_eq_some_iff.mp ht
  refine ⟨s, t, hs, hst, htimeout, hnew, fun hfresh => ?_⟩
  have heq := hfresh _ ⟨0, 0, 0⟩ t hst
  rw [htimeout, hnew] at heq
  cases heq

end MasterState

end SundayServer
