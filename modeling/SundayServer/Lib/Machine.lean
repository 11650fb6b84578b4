import Mathlib.Data.Option.Basic
import Mathlib.Data.List.Basic

/-!
# Runs of a labelled step function

A machine is a partial step function `step : σ → ε → Option σ`: the label of a
step holds every choice that is not the state's own (which party moves, what
the environment answers), and `none` says that the step is not enabled. A run
is the fold of a list of labels.

* `run`: the state a list of labels leads to.
* `Along`: a condition on every step of a run.
* `run_invariant`, `run_invariant_along`: what one step preserves, a run
  preserves; `run_history`: the same for what depends on the labels so far.
* `along_congr`: conditions that agree step by step agree along a run.
* `along_of_last`: what no step can bring about holds all along, if at the end.
* `length_le_of_lt`: steps that lower a measure come to an end.
* `peak`: the largest value that a quantity has had.
-/

namespace Machine

variable {σ ε : Type*} (step : σ → ε → Option σ)

/-- The state after the labels `es`, when each step in turn is enabled. -/
def run : σ → List ε → Option σ
  | s, [] => some s
  | s, e :: es => (step s e).bind fun s' => run s' es

/-- Every step of the run of `es` from `s` meets `C` in the state it starts from. -/
def Along (C : σ → ε → Prop) : σ → List ε → Prop
  | _, [] => True
  | s, e :: es => C s e ∧ ∀ s', step s e = some s' → Along C s' es

/-- The largest value of `f` in the states of a run. -/
def peak (f : σ → Nat) : σ → List ε → Nat
  | s, [] => f s
  | s, e :: es => max (f s) ((step s e).elim 0 fun s' => peak f s' es)

/-- `Along` on concrete labels is found by running them. -/
instance decidableAlong (C : σ → ε → Prop) [∀ s e, Decidable (C s e)] :
    ∀ (s : σ) (es : List ε), Decidable (Along step C s es)
  | _, [] => isTrue trivial
  | s, e :: es =>
    match h : step s e with
    | none => decidable_of_iff (C s e) (by simp [Along, h])
    | some s' =>
      have := decidableAlong C s' es
      decidable_of_iff (C s e ∧ Along step C s' es) (by simp [Along, h])

@[simp] theorem run_nil (s : σ) : run step s [] = some s := rfl

@[simp] theorem run_cons (s : σ) (e : ε) (es : List ε) :
    run step s (e :: es) = (step s e).bind fun s' => run step s' es := rfl

variable {step}

theorem run_append (s : σ) (es₁ es₂ : List ε) :
    run step s (es₁ ++ es₂) = (run step s es₁).bind fun m => run step m es₂ := by
  induction es₁ generalizing s with
  | nil => rfl
  | cons e es₁ ih =>
    rw [List.cons_append, run_cons, run_cons, Option.bind_assoc]
    exact Option.bind_congr fun s' _ => ih s'

theorem run_concat (s : σ) (es : List ε) (e : ε) :
    run step s (es ++ [e]) = (run step s es).bind fun m => step m e := by
  rw [run_append]
  exact Option.bind_congr fun m _ => by simp [run]

/-- A condition on both parts of a run is one on the whole run. -/
theorem Along.append {C : σ → ε → Prop} {s m : σ} {es₁ es₂ : List ε} (h₁ : Along step C s es₁)
    (hr : run step s es₁ = some m) (h₂ : Along step C m es₂) : Along step C s (es₁ ++ es₂) := by
  induction es₁ generalizing s with
  | nil =>
    obtain rfl : s = m := by simpa using hr
    exact h₂
  | cons e es₁ ih =>
    refine ⟨h₁.1, fun s' hs' => ih (h₁.2 s' hs') ?_⟩
    simpa [hs'] using hr

/-- After a run that stops nothing is left to check. -/
theorem Along.append_of_none {C : σ → ε → Prop} {s : σ} {es₁ es₂ : List ε}
    (h₁ : Along step C s es₁) (hr : run step s es₁ = none) : Along step C s (es₁ ++ es₂) := by
  induction es₁ generalizing s with
  | nil => cases hr
  | cons e es₁ ih =>
    refine ⟨h₁.1, fun s' hs' => ih (h₁.2 s' hs') ?_⟩
    simpa [hs'] using hr

theorem along_append {C : σ → ε → Prop} {s m : σ} {es₁ es₂ : List ε}
    (h : Along step C s (es₁ ++ es₂)) (hr : run step s es₁ = some m) :
    Along step C s es₁ ∧ Along step C m es₂ := by
  induction es₁ generalizing s with
  | nil =>
    obtain rfl : s = m := by simpa using hr
    exact ⟨trivial, h⟩
  | cons e es₁ ih =>
    obtain ⟨hc, hrest⟩ := h
    simp only [run_cons] at hr
    cases hs : step s e with
    | none => rw [hs] at hr; cases hr
    | some t =>
      rw [hs] at hr
      obtain ⟨h₁, h₂⟩ := ih (hrest t hs) hr
      refine ⟨⟨hc, fun t' ht' => ?_⟩, h₂⟩
      obtain rfl : t = t' := by simpa [hs] using ht'
      exact h₁

/-- An invariant of a state and of the labels that led to it, kept by every step
that meets `C`, holds after every run whose steps all meet `C`. -/
theorem run_history {C : σ → ε → Prop} {I : List ε → σ → Prop}
    (hstep : ∀ h s e s', I h s → C s e → step s e = some s' → I (h ++ [e]) s')
    {h : List ε} {s s' : σ} {es : List ε} (h₀ : I h s) (hc : Along step C s es)
    (hr : run step s es = some s') : I (h ++ es) s' := by
  induction es generalizing s h with
  | nil =>
    obtain rfl : s = s' := by simpa using hr
    simpa using h₀
  | cons e es ih =>
    simp only [run_cons] at hr
    cases hs : step s e with
    | none => rw [hs] at hr; cases hr
    | some t =>
      rw [hs] at hr
      have hrest := ih (hstep h s e t h₀ hc.1 hs) (hc.2 t hs) hr
      rwa [List.append_assoc, List.singleton_append] at hrest

/-- An invariant that every step meeting `C` keeps holds after every run whose
steps all meet `C`. -/
theorem run_invariant_along {C : σ → ε → Prop} {I : σ → Prop}
    (hstep : ∀ s e s', I s → C s e → step s e = some s' → I s')
    {s s' : σ} {es : List ε} (h₀ : I s) (hc : Along step C s es)
    (hr : run step s es = some s') : I s' :=
  run_history (I := fun _ => I) (h := []) (fun _ => hstep) h₀ hc hr

/-- A condition on the labels alone. -/
theorem along_of_forall {C : ε → Prop} (s : σ) {es : List ε} (h : ∀ e ∈ es, C e) :
    Along step (fun _ => C) s es := by
  induction es generalizing s with
  | nil => trivial
  | cons e es ih =>
    obtain ⟨he, hes⟩ := List.forall_mem_cons.mp h
    exact ⟨he, fun s' _ => ih s' hes⟩

theorem Along.and {C D : σ → ε → Prop} {s : σ} {es : List ε} (hc : Along step C s es)
    (hd : Along step D s es) : Along step (fun s e => C s e ∧ D s e) s es := by
  induction es generalizing s with
  | nil => trivial
  | cons e es ih => exact ⟨⟨hc.1, hd.1⟩, fun s' hs' => ih (hc.2 s' hs') (hd.2 s' hs')⟩

/-- What holds at the end of a run, and before a step whenever after it, holds
all along. -/
theorem along_of_last {P : σ → Prop} (hstep : ∀ s e s', step s e = some s' → P s' → P s)
    {s s' : σ} {es : List ε} (hr : run step s es = some s') (h : P s') :
    P s ∧ Along step (fun s _ => P s) s es := by
  induction es generalizing s with
  | nil =>
    obtain rfl : s = s' := by simpa using hr
    exact ⟨h, trivial⟩
  | cons e es ih =>
    obtain ⟨m, hm, hr'⟩ := Option.bind_eq_some_iff.mp hr
    obtain ⟨hpm, halong⟩ := ih hr'
    have hps := hstep s e m hm hpm
    refine ⟨hps, hps, fun n hn => ?_⟩
    obtain rfl : m = n := Option.some.inj (hm.symm.trans hn)
    exact halong

/-- Two conditions that agree in the states of an invariant agree along every run. -/
theorem along_congr {C D : σ → ε → Prop} {I : σ → Prop}
    (hstep : ∀ s e s', I s → step s e = some s' → I s') (hcd : ∀ s e, I s → (C s e ↔ D s e))
    {s : σ} {es : List ε} (h₀ : I s) : Along step C s es ↔ Along step D s es := by
  induction es generalizing s with
  | nil => exact Iff.rfl
  | cons e es ih =>
    exact and_congr (hcd s e h₀) (forall₂_congr fun s' hs' => ih (hstep s e s' h₀ hs'))

/-- An invariant that every step keeps holds after every run. -/
theorem run_invariant {I : σ → Prop} (hstep : ∀ s e s', I s → step s e = some s' → I s')
    {s s' : σ} {es : List ε} (h₀ : I s) (hr : run step s es = some s') : I s' :=
  run_invariant_along (C := fun _ _ => True) (fun s e s' hi _ hs => hstep s e s' hi hs)
    h₀ (along_of_forall s fun _ _ => trivial) hr

theorem peak_concat {f : σ → Nat} {s m s' : σ} {es : List ε} {e : ε}
    (hr : run step s es = some m) (hs : step m e = some s') :
    peak step f s (es ++ [e]) = max (peak step f s es) (f s') := by
  induction es generalizing s with
  | nil =>
    cases hr
    simp [peak, hs]
  | cons e₁ es ih =>
    obtain ⟨t, ht, hr⟩ := Option.bind_eq_some_iff.mp hr
    simp [peak, ht, ih hr, Nat.max_assoc]

/-- Steps that lower a measure are at most as many as it says. -/
theorem length_le_of_lt {C : ε → Prop} {μ : σ → Nat}
    (hstep : ∀ s e s', C e → step s e = some s' → μ s' < μ s) {s s' : σ} {es : List ε}
    (hc : ∀ e ∈ es, C e) (hr : run step s es = some s') : es.length + μ s' ≤ μ s := by
  induction es generalizing s with
  | nil =>
    cases hr
    simp
  | cons e es ih =>
    obtain ⟨m, hm, hr⟩ := Option.bind_eq_some_iff.mp hr
    have hlt := hstep s e m (hc e (.head _)) hm
    have hle := ih (fun e he => hc e (.tail _ he)) hr
    rw [List.length_cons]
    omega

end Machine
