import SundayServer.Lib.Machine
import Mathlib.Data.List.Perm.Basic

/-!
# Machines with one lock

A machine whose steps belong to threads, and a lock that at most one thread
owns at a time. A thread may step while another one owns the lock, but such a
step touches only what is its own. Then it can be made before the owner took
the lock, and a run can be reordered until nothing comes between the taking of
the lock and its release.

* `Disciplined`: what the machine has to keep to.
* `IsBlock`: a step that leaves the lock free, or all steps of one thread from
  taking the lock to its release.
* `Alone`: the step is made by the owner of the lock, if there is one.

Results:
1. `swap_section`: a step of another thread moves before the owner's steps.
2. `serial_blocks`: every run can be reordered into blocks and the section of the
   present owner, and keeps the order of each thread's steps and of the global
   steps. `serializable`: each owner is alone in it.
-/

namespace Mutex

variable {σ ε τ : Type*}

/-- While a thread owns the lock it makes every step. -/
def Alone (owner : σ → Option τ) (thread : ε → τ) (s : σ) (e : ε) : Prop :=
  ∀ t, owner s = some t → thread e = t

instance [DecidableEq τ] (owner : σ → Option τ) (thread : ε → τ) (s : σ) (e : ε) :
    Decidable (Alone owner thread s e) :=
  match h : owner s with
  | none => isTrue fun t ht => absurd (h.symm.trans ht) (by simp)
  | some u => decidable_of_iff (thread e = u) (by simp [Alone, h])

/-- The discipline, in the states of an invariant `I`. A step that is not
`isGlobal` touches only what its thread owns. -/
structure Disciplined (step : σ → ε → Option σ) (owner : σ → Option τ) (thread : ε → τ)
    (isGlobal : ε → Bool) (I : σ → Prop) : Prop where
  keeps : ∀ {s e s'}, I s → step s e = some s' → I s'
  /-- A step leaves the lock alone, takes it when it is free, or gives up its own. -/
  owner_cases : ∀ {s e s'}, I s → step s e = some s' →
    owner s' = owner s ∨ (owner s = none ∧ owner s' = some (thread e)) ∨
      (owner s = some (thread e) ∧ owner s' = none)
  foreign : ∀ {s e s' t}, I s → owner s = some t → thread e ≠ t → step s e = some s' →
    isGlobal e = false
  /-- A step of another thread commutes with the step of the owner before it. -/
  swap : ∀ {s e₁ s₁ e₂ s₂}, I s → step s e₁ = some s₁ → owner s₁ = some (thread e₁) →
    step s₁ e₂ = some s₂ → thread e₂ ≠ thread e₁ →
    ∃ s', step s e₂ = some s' ∧ owner s' = owner s ∧ step s' e₁ = some s₂

/-- The steps of one thread from taking the lock on, up to which it keeps it. -/
def InSection (owner : σ → Option τ) (step : σ → ε → Option σ) (thread : ε → τ) (t : τ) :
    σ → List ε → Prop :=
  Machine.Along step fun s e => thread e = t ∧ ∀ s', step s e = some s' → owner s' = some t

variable {step : σ → ε → Option σ} {owner : σ → Option τ} {thread : ε → τ} {isGlobal : ε → Bool}
  {I : σ → Prop}

theorem alone_of_free {s : σ} (h : owner s = none) (e : ε) : Alone owner thread s e := by
  intro t ht
  rw [h] at ht
  cases ht

/-! ## 1. Moving a step -/

theorem InSection.thread_eq {t : τ} {m s : σ} {es : List ε}
    (h : InSection owner step thread t m es) (hr : Machine.run step m es = some s) :
    ∀ e ∈ es, thread e = t := by
  induction es generalizing m with
  | nil => simp
  | cons e es ih =>
    obtain ⟨m', hm', hr'⟩ := Option.bind_eq_some_iff.mp hr
    exact List.forall_mem_cons.mpr ⟨h.1.1, ih (h.2 m' hm') hr'⟩

/-- A section that has begun has the lock. -/
theorem InSection.owner_eq {t : τ} {m s : σ} {es : List ε}
    (h : InSection owner step thread t m es) (hr : Machine.run step m es = some s)
    (hne : es ≠ []) : owner s = some t := by
  induction es generalizing m with
  | nil => exact absurd rfl hne
  | cons e es ih =>
    obtain ⟨m', hm', hr'⟩ := Option.bind_eq_some_iff.mp hr
    by_cases hnil : es = []
    · subst hnil
      obtain rfl : m' = s := by simpa using hr'
      exact h.1.2 m' hm'
    · exact ih (h.2 m' hm') hr' hnil

/-- In a section the owner is alone. -/
theorem InSection.alone {t : τ} {m : σ} {es : List ε} (h : InSection owner step thread t m es)
    (hm : owner m = none ∨ owner m = some t) :
    Machine.Along step (Alone owner thread) m es := by
  induction es generalizing m with
  | nil => trivial
  | cons e es ih =>
    refine ⟨fun u hu => ?_, fun m' hm' => ih (h.2 m' hm') (.inr (h.1.2 m' hm'))⟩
    rcases hm with hm | hm
    · rw [hm] at hu
      cases hu
    · rw [hm] at hu
      exact h.1.1.trans (Option.some.inj hu)

/-- A step of another thread, made at the end of a section, can be made before it. -/
theorem swap_section (h : Disciplined step owner thread isGlobal I) {t : τ} {m s s' : σ}
    {es : List ε} {e : ε} (hi : I m) (hsec : InSection owner step thread t m es)
    (hr : Machine.run step m es = some s) (hs : owner s = some t) (he : step s e = some s')
    (hne : thread e ≠ t) :
    ∃ m', step m e = some m' ∧ owner m' = owner m ∧ Machine.run step m' es = some s' ∧
      InSection owner step thread t m' es := by
  induction es generalizing m with
  | nil =>
    obtain rfl : m = s := by simpa using hr
    refine ⟨s', he, ?_, rfl, trivial⟩
    rcases h.owner_cases hi he with hsame | ⟨hnone, -⟩ | ⟨hown, -⟩
    · exact hsame
    · rw [hs] at hnone
      cases hnone
    · exact absurd (Option.some.inj (hown.symm.trans hs)) hne
  | cons e₁ es ih =>
    obtain ⟨m₁, hm₁, hr₁⟩ := Option.bind_eq_some_iff.mp hr
    obtain ⟨⟨hthread, howner⟩, hrest⟩ := hsec
    have hm₁_owner := howner m₁ hm₁
    obtain ⟨m₁', hstep, hsame, hrun, hsec'⟩ := ih (h.keeps hi hm₁) (hrest m₁ hm₁) hr₁
    obtain ⟨m', hfirst, hm', hsecond⟩ :=
      h.swap hi hm₁ (hthread.symm ▸ hm₁_owner) hstep (hthread.symm ▸ hne)
    refine ⟨m', hfirst, hm', by simp [hsecond, hrun], ⟨hthread, fun n hn => ?_⟩, fun n hn => ?_⟩
    · obtain rfl : m₁' = n := by simpa [hsecond] using hn
      exact hsame.trans hm₁_owner
    · obtain rfl : m₁' = n := by simpa [hsecond] using hn
      exact hsec'

/-! ## 2. Whole runs -/

/-- A step at a free lock that leaves it free, or a section with the release of
the lock. -/
def IsBlock (step : σ → ε → Option σ) (owner : σ → Option τ) (thread : ε → τ) (m : σ)
    (b : List ε) : Prop :=
  owner m = none ∧ ∃ sec e, b = sec ++ [e] ∧
    (∀ s, Machine.run step m b = some s → owner s = none) ∧
    (sec = [] ∨ ∃ t, InSection owner step thread t m sec ∧ thread e = t)

theorem isBlock_single {m s : σ} {e : ε} (hm : owner m = none) (hs : step m e = some s)
    (hfree : owner s = none) : IsBlock step owner thread m [e] := by
  refine ⟨hm, [], e, rfl, fun n hn => ?_, .inl rfl⟩
  obtain rfl : s = n := by simpa [hs] using hn
  exact hfree

theorem InSection.isBlock {t : τ} {m s : σ} {sec : List ε} {e : ε} (hm : owner m = none)
    (h : InSection owner step thread t m sec) (he : thread e = t)
    (hr : Machine.run step m (sec ++ [e]) = some s) (hfree : owner s = none) :
    IsBlock step owner thread m (sec ++ [e]) := by
  refine ⟨hm, sec, e, rfl, fun n hn => ?_, .inr ⟨t, h, he⟩⟩
  obtain rfl : s = n := Option.some.inj (hr.symm.trans hn)
  exact hfree

/-- What the steps of a run have been reordered to so far: blocks, up to a free
lock, and the section of the present owner. -/
structure Reordered (step : σ → ε → Option σ) (owner : σ → Option τ) (thread : ε → τ)
    (s₀ : σ) (bs : List (List ε)) (sec : List ε) (s : σ) : Prop where
  blocks : Machine.Along (Machine.run step) (IsBlock step owner thread) s₀ bs
  last : ∃ m, Machine.run (Machine.run step) s₀ bs = some m ∧ owner m = none ∧
    Machine.run step m sec = some s ∧
    (sec = [] ∨ ∃ t, InSection owner step thread t m sec ∧ owner s = some t)

theorem run_flatten (s : σ) (bs : List (List ε)) :
    Machine.run step s bs.flatten = Machine.run (Machine.run step) s bs := by
  induction bs generalizing s with
  | nil => rfl
  | cons b bs ih =>
    rw [List.flatten_cons, Machine.run_append, Machine.run_cons]
    exact Option.bind_congr fun m _ => ih m

/-- In a block the owner is alone. -/
theorem IsBlock.alone {m : σ} {b : List ε} (h : IsBlock step owner thread m b) :
    Machine.Along step (Alone owner thread) m b := by
  obtain ⟨hfree, sec, e, rfl, -, hcases⟩ := h
  rcases hcases with rfl | ⟨t, hin, he⟩
  · exact ⟨alone_of_free hfree e, fun _ _ => trivial⟩
  · cases hr : Machine.run step m sec with
    | none => exact (hin.alone (.inl hfree)).append_of_none hr
    | some n =>
      refine (hin.alone (.inl hfree)).append hr ⟨?_, fun _ _ => trivial⟩
      intro u hu
      by_cases hsec : sec = []
      · subst hsec
        obtain rfl : m = n := by simpa using hr
        exact alone_of_free hfree e u hu
      · exact he.trans (Option.some.inj ((hin.owner_eq hr hsec).symm.trans hu))

theorem alone_of_blocks {s : σ} {bs : List (List ε)}
    (h : Machine.Along (Machine.run step) (IsBlock step owner thread) s bs) :
    Machine.Along step (Alone owner thread) s bs.flatten := by
  induction bs generalizing s with
  | nil => trivial
  | cons b bs ih =>
    rw [List.flatten_cons]
    cases hr : Machine.run step s b with
    | none => exact h.1.alone.append_of_none hr
    | some m => exact h.1.alone.append hr (ih (h.2 m hr))

/-- The whole of it is a run, in which every owner is alone. -/
theorem Reordered.run {s₀ s : σ} {bs : List (List ε)} {sec : List ε}
    (h : Reordered step owner thread s₀ bs sec s) :
    Machine.run step s₀ (bs.flatten ++ sec) = some s ∧
      Machine.Along step (Alone owner thread) s₀ (bs.flatten ++ sec) := by
  obtain ⟨hblocks, m, hm, hfree, hsec, hcases⟩ := h
  rw [← run_flatten] at hm
  refine ⟨by rw [Machine.run_append, hm, Option.bind_some, hsec],
    (alone_of_blocks hblocks).append hm ?_⟩
  rcases hcases with rfl | ⟨t, hin, -⟩
  · trivial
  · exact hin.alone (.inl hfree)

/-- A block at the end of the others. -/
theorem Reordered.concat {s₀ m m' s : σ} {bs : List (List ε)} {b sec : List ε}
    (hblocks : Machine.Along (Machine.run step) (IsBlock step owner thread) s₀ bs)
    (hm : Machine.run (Machine.run step) s₀ bs = some m) (hb : IsBlock step owner thread m b)
    (hm' : Machine.run step m b = some m') (hfree : owner m' = none)
    (hsec : Machine.run step m' sec = some s)
    (hcases : sec = [] ∨ ∃ t, InSection owner step thread t m' sec ∧ owner s = some t) :
    Reordered step owner thread s₀ (bs ++ [b]) sec s := by
  refine ⟨hblocks.append hm ⟨hb, fun _ _ => trivial⟩, m', ?_, hfree, hsec, hcases⟩
  rw [Machine.run_concat, hm, Option.bind_some, hm']

/-- The steps of each thread and the global steps, in order. -/
def SameOrder [DecidableEq τ] (thread : ε → τ) (isGlobal : ε → Bool) (es' es : List ε) : Prop :=
  es'.Perm es ∧ (∀ t, es'.filter (thread · = t) = es.filter (thread · = t)) ∧
    es'.filter isGlobal = es.filter isGlobal

section

variable [DecidableEq τ]

theorem SameOrder.concat {es' es : List ε} (h : SameOrder thread isGlobal es' es) (e : ε) :
    SameOrder thread isGlobal (es' ++ [e]) (es ++ [e]) := by
  obtain ⟨hperm, hthread, hglobal⟩ := h
  refine ⟨hperm.append_right _, fun t => ?_, ?_⟩
  · rw [List.filter_append, List.filter_append, hthread t]
  · rw [List.filter_append, List.filter_append, hglobal]

/-- A local step moves over the steps of another thread. -/
theorem SameOrder.move {es pre sec : List ε} {t : τ}
    (h : SameOrder thread isGlobal (pre ++ sec) es) (hsec : ∀ e ∈ sec, thread e = t) {e : ε}
    (he : thread e ≠ t) (hlocal : isGlobal e = false) :
    SameOrder thread isGlobal (pre ++ [e] ++ sec) (es ++ [e]) := by
  obtain ⟨hperm, hthread, hglobal⟩ := h
  refine ⟨?_, fun u => ?_, ?_⟩
  · rw [List.append_assoc]
    refine .trans ?_ (hperm.append_right [e])
    rw [List.append_assoc]
    have hswap : ([e] ++ sec).Perm (sec ++ [e]) := List.perm_append_comm
    exact hswap.append_left pre
  · have hu := hthread u
    rw [List.filter_append] at hu
    simp only [List.filter_append, ← hu]
    by_cases heu : thread e = u
    · have hnone : sec.filter (thread · = u) = [] := by
        refine List.filter_eq_nil_iff.mpr fun a ha => ?_
        have hne : t ≠ u := fun htu => he (heu.trans htu.symm)
        simpa [hsec a ha] using hne
      rw [hnone, List.append_nil, List.append_nil]
    · have hnone : [e].filter (thread · = u) = [] := by simp [heu]
      rw [hnone, List.append_nil, List.append_nil]
  · rw [List.filter_append] at hglobal
    simp only [List.filter_append, ← hglobal]
    simp [hlocal]

section Next

variable {s₀ m s s' : σ} {es : List ε} {bs : List (List ε)} {sec : List ε} {e : ε}

/-- The lock is free; the step may take it. -/
theorem Reordered.next_free (h : Disciplined step owner thread isGlobal I) (hi : I m)
    (hblocks : Machine.Along (Machine.run step) (IsBlock step owner thread) s₀ bs)
    (hm : Machine.run (Machine.run step) s₀ bs = some m) (hfree : owner m = none)
    (hsame : SameOrder thread isGlobal bs.flatten es) (hs : step m e = some s') :
    ∃ bs' sec', Reordered step owner thread s₀ bs' sec' s' ∧
      SameOrder thread isGlobal (bs'.flatten ++ sec') (es ++ [e]) := by
  have hone : Machine.run step m [e] = some s' := by simp [hs]
  rcases h.owner_cases hi hs with hkeep | ⟨-, htake⟩ | ⟨hown, -⟩
  · have hfree' := hkeep.trans hfree
    refine ⟨bs ++ [[e]], [],
      .concat hblocks hm (isBlock_single hfree hs hfree') hone hfree' rfl (.inl rfl), ?_⟩
    simpa using hsame.concat e
  · refine ⟨bs, [e], ⟨hblocks, m, hm, hfree, hone,
      .inr ⟨thread e, ⟨⟨rfl, fun n hn => ?_⟩, fun _ _ => trivial⟩, htake⟩⟩, hsame.concat e⟩
    obtain rfl : s' = n := by simpa [hs] using hn
    exact htake
  · rw [hfree] at hown
    cases hown

/-- A step of the owner, which may give the lock up. -/
theorem Reordered.next_owner (h : Disciplined step owner thread isGlobal I) (hi : I s)
    (hblocks : Machine.Along (Machine.run step) (IsBlock step owner thread) s₀ bs)
    (hm : Machine.run (Machine.run step) s₀ bs = some m) (hfree : owner m = none)
    (hsec : Machine.run step m sec = some s)
    (hin : InSection owner step thread (thread e) m sec) (ho : owner s = some (thread e))
    (hsame : SameOrder thread isGlobal (bs.flatten ++ sec) es) (hs : step s e = some s') :
    ∃ bs' sec', Reordered step owner thread s₀ bs' sec' s' ∧
      SameOrder thread isGlobal (bs'.flatten ++ sec') (es ++ [e]) := by
  have hlonger : Machine.run step m (sec ++ [e]) = some s' := by
    rw [Machine.run_concat, hsec, Option.bind_some, hs]
  rcases h.owner_cases hi hs with hkeep | ⟨hnone, -⟩ | ⟨-, hgive⟩
  · have howner : owner s' = some (thread e) := hkeep.trans ho
    refine ⟨bs, sec ++ [e], ⟨hblocks, m, hm, hfree, hlonger, .inr ⟨_, ?_, howner⟩⟩, ?_⟩
    · refine hin.append hsec ⟨⟨rfl, fun n hn => ?_⟩, fun _ _ => trivial⟩
      obtain rfl : s' = n := by simpa [hs] using hn
      exact howner
    · rw [← List.append_assoc]
      exact hsame.concat e
  · rw [ho] at hnone
    cases hnone
  · refine ⟨bs ++ [sec ++ [e]], [],
      .concat hblocks hm (hin.isBlock hfree rfl hlonger hgive) hlonger hgive rfl (.inl rfl), ?_⟩
    simpa using hsame.concat e

/-- A step of another thread goes before the section. -/
theorem Reordered.next_other (h : Disciplined step owner thread isGlobal I) (him : I m)
    (his : I s) (hblocks : Machine.Along (Machine.run step) (IsBlock step owner thread) s₀ bs)
    (hm : Machine.run (Machine.run step) s₀ bs = some m) (hfree : owner m = none)
    (hsec : Machine.run step m sec = some s) {t : τ} (hin : InSection owner step thread t m sec)
    (ho : owner s = some t) (hthread : thread e ≠ t)
    (hsame : SameOrder thread isGlobal (bs.flatten ++ sec) es) (hs : step s e = some s') :
    ∃ bs' sec', Reordered step owner thread s₀ bs' sec' s' ∧
      SameOrder thread isGlobal (bs'.flatten ++ sec') (es ++ [e]) := by
  obtain ⟨m', hm', howner, hrun, hin'⟩ := swap_section h him hin hsec ho hs hthread
  have hfree' := howner.trans hfree
  have hkeep : owner s' = some t := by
    rcases h.owner_cases his hs with hkeep | ⟨hnone, -⟩ | ⟨hown, -⟩
    · exact hkeep.trans ho
    · rw [ho] at hnone
      cases hnone
    · exact absurd (Option.some.inj (hown.symm.trans ho)) hthread
  have hone : Machine.run step m [e] = some m' := by simp [hm']
  refine ⟨bs ++ [[e]], sec, .concat hblocks hm (isBlock_single hfree hm' hfree') hone hfree' hrun
    (.inr ⟨t, hin', hkeep⟩), ?_⟩
  simpa using hsame.move (hin.thread_eq hsec) hthread (h.foreign his ho hthread hs)

/-- One more step. -/
theorem Reordered.next (h : Disciplined step owner thread isGlobal I) (hi₀ : I s₀)
    (hre : Reordered step owner thread s₀ bs sec s)
    (hsame : SameOrder thread isGlobal (bs.flatten ++ sec) es) (hs : step s e = some s') :
    ∃ bs' sec', Reordered step owner thread s₀ bs' sec' s' ∧
      SameOrder thread isGlobal (bs'.flatten ++ sec') (es ++ [e]) := by
  obtain ⟨hblocks, m, hm, hfree, hsec, hcases⟩ := hre
  have him : I m := Machine.run_invariant (fun _ _ _ hi hstep => h.keeps hi hstep) hi₀
    ((run_flatten s₀ bs).trans hm)
  have his : I s := Machine.run_invariant (fun _ _ _ hi hstep => h.keeps hi hstep) him hsec
  rcases hcases with rfl | ⟨t, hin, ho⟩
  · obtain rfl : m = s := by simpa using hsec
    rw [List.append_nil] at hsame
    exact next_free h him hblocks hm hfree hsame hs
  · by_cases hthread : thread e = t
    · subst hthread
      exact next_owner h his hblocks hm hfree hsec hin ho hsame hs
    · exact next_other h him his hblocks hm hfree hsec hin ho hthread hsame hs

end Next

/-- Every run from a free lock can be reordered into blocks and the section of the
present owner; it leads to the same state. -/
theorem serial_blocks (h : Disciplined step owner thread isGlobal I) {s₀ s : σ} (hi : I s₀)
    (hfree : owner s₀ = none) {es : List ε} (hr : Machine.run step s₀ es = some s) :
    ∃ bs sec, SameOrder thread isGlobal (bs.flatten ++ sec) es ∧
      Reordered step owner thread s₀ bs sec s := by
  have hstart : ∃ bs sec, SameOrder thread isGlobal (bs.flatten ++ sec) [] ∧
      Reordered step owner thread s₀ bs sec s₀ :=
    ⟨[], [], ⟨.refl _, fun _ => rfl, rfl⟩, trivial, s₀, rfl, hfree, rfl, .inl rfl⟩
  refine Machine.run_history (C := fun _ _ => True)
    (I := fun es s => ∃ bs sec, SameOrder thread isGlobal (bs.flatten ++ sec) es ∧
      Reordered step owner thread s₀ bs sec s) ?_ hstart
    (Machine.along_of_forall s₀ fun _ _ => trivial) hr
  rintro es m e m' ⟨bs, sec, hsame, hre⟩ - hs
  obtain ⟨bs', sec', hre', hsame'⟩ := hre.next h hi hsame hs
  exact ⟨bs', sec', hsame', hre'⟩

/-- In the reordered run every owner is alone. -/
theorem serializable (h : Disciplined step owner thread isGlobal I) {s₀ s : σ} (hi : I s₀)
    (hfree : owner s₀ = none) {es : List ε} (hr : Machine.run step s₀ es = some s) :
    ∃ es', SameOrder thread isGlobal es' es ∧
      Machine.Along step (Alone owner thread) s₀ es' ∧ Machine.run step s₀ es' = some s := by
  obtain ⟨bs, sec, hsame, hre⟩ := serial_blocks h hi hfree hr
  obtain ⟨hrun, halone⟩ := hre.run
  exact ⟨_, hsame, halone, hrun⟩

end

end Mutex
