import Mathlib.Data.List.DropRight
import Mathlib.Data.List.TakeWhile

/-!
# Lines of a text, and blanks around them

A text over any alphabet. `strip` takes the blanks off both ends. With a newline
`nl` in the alphabet, `List.splitOn nl` gives the lines of a text, and `unlines`
puts a newline after each line.

* `Continued`: a condition on every line after the first one.

Results:
1. `strip_strip`, `strip_append_blank`, `strip_blank_cons`.
2. `takeWhile_line`, `dropWhile_line`: the first line and the rest.
3. `continued_line`, `Continued.append`, `Continued.strip`: what keeps the
   condition. `Continued.lines`: the lines of such a text.
-/

namespace Lines

variable {α : Type*} {p : α → Bool} {nl : α}

/-! ## 1. Blanks -/

/-- A text without the blanks at its ends. -/
def strip (p : α → Bool) (s : List α) : List α := (s.dropWhile p).rdropWhile p

theorem strip_eq_nil_iff {s : List α} : strip p s = [] ↔ ∀ a ∈ s, p a := by
  unfold strip
  rw [List.rdropWhile_eq_nil_iff]
  constructor
  · intro h a ha
    rw [← List.takeWhile_append_dropWhile (p := p) (l := s)] at ha
    rcases List.mem_append.mp ha with ha | ha
    · exact List.mem_takeWhile_imp ha
    · exact h a ha
  · exact fun h a ha => h a ((List.dropWhile_suffix p).subset ha)

theorem strip_append_blank {a : α} (h : p a) (s : List α) : strip p (s ++ [a]) = strip p s := by
  by_cases hs : ∀ b ∈ s, p b
  · rw [strip_eq_nil_iff.mpr hs, strip_eq_nil_iff]
    intro b hb
    rcases List.mem_append.mp hb with hb | hb
    · exact hs b hb
    · rw [List.mem_singleton.mp hb]
      exact h
  · have hne : ¬ (s.dropWhile p).isEmpty := by
      simpa [List.dropWhile_eq_nil_iff] using hs
    unfold strip
    rw [List.dropWhile_append, if_neg (by simpa using hne), List.rdropWhile_concat_pos p _ _ h]

theorem strip_blank_cons {a : α} (h : p a) (s : List α) : strip p (a :: s) = strip p s := by
  simp [strip, h]

/-- A text that starts and ends with something else. -/
theorem strip_eq_self {s : List α} (hfirst : ∀ a ∈ s.head?, ¬ p a)
    (hlast : ∀ a ∈ s.getLast?, ¬ p a) : strip p s = s := by
  unfold strip
  have hdrop : s.dropWhile p = s := by
    cases s with
    | nil => rfl
    | cons a s => exact List.dropWhile_cons_of_neg (hfirst a rfl)
  rw [hdrop, List.rdropWhile_eq_self_iff]
  exact fun hs => hlast _ (List.getLast?_eq_some_getLast hs)

theorem strip_strip (s : List α) : strip p (strip p s) = strip p s := by
  refine strip_eq_self (fun a ha => ?_) fun a ha => ?_
  · -- the first character stays when the end is cut off
    have hne : (s.dropWhile p).head? = some a := by
      obtain ⟨t, ht⟩ := List.rdropWhile_prefix p (l := s.dropWhile p)
      rw [← ht, List.head?_append_of_ne_nil]
      · exact ha
      · rintro hnil
        rw [strip, hnil] at ha
        cases ha
    have hnot := List.head?_dropWhile_not p s
    rw [hne] at hnot
    simpa using hnot
  · have hs : strip p s ≠ [] := by
      rintro hnil
      rw [hnil] at ha
      cases ha
    have hnot := List.rdropWhile_last_not p (s.dropWhile p) hs
    rw [List.getLast?_eq_some_getLast hs] at ha
    obtain rfl := Option.some.inj ha
    exact hnot

theorem strip_subset (s : List α) : strip p s ⊆ s :=
  fun _ ha => (List.dropWhile_suffix p).subset ((List.rdropWhile_prefix p _).subset ha)

/-! ## 2. Lines with a newline after each -/

/-- The lines, each with its newline. -/
def unlines (nl : α) (ls : List (List α)) : List α := ls.flatMap (· ++ [nl])

@[simp] theorem unlines_nil : unlines nl [] = [] := rfl

@[simp] theorem unlines_cons (l : List α) (ls : List (List α)) :
    unlines nl (l :: ls) = l ++ nl :: unlines nl ls := by
  simp [unlines]

theorem unlines_append (ls ms : List (List α)) :
    unlines nl (ls ++ ms) = unlines nl ls ++ unlines nl ms := by
  simp [unlines]

theorem length_le_unlines (nl : α) (ls : List (List α)) : ls.length ≤ (unlines nl ls).length := by
  induction ls with
  | nil => simp
  | cons l ls ih =>
    simp only [unlines_cons, List.length_cons, List.length_append]
    omega

variable [DecidableEq α]

theorem takeWhile_line {l : List α} (h : nl ∉ l) (s : List α) :
    (l ++ nl :: s).takeWhile (· ≠ nl) = l := by
  have hl : ∀ a ∈ l, decide (a ≠ nl) = true := fun a ha =>
    decide_eq_true fun heq => h (heq ▸ ha)
  rw [List.takeWhile_append_of_pos hl]
  simp

theorem dropWhile_line {l : List α} (h : nl ∉ l) (s : List α) :
    (l ++ nl :: s).dropWhile (· ≠ nl) = nl :: s := by
  have hl : ∀ a ∈ l, decide (a ≠ nl) = true := fun a ha =>
    decide_eq_true fun heq => h (heq ▸ ha)
  rw [List.dropWhile_append_of_pos hl]
  simp

/-! ## 3. The lines after the first -/

/-- Every line after the first satisfies `P`. -/
def Continued (nl : α) (P : List α → Prop) (s : List α) : Prop := ∀ l ∈ (s.splitOn nl).tail, P l

instance (P : List α → Prop) [DecidablePred P] (s : List α) : Decidable (Continued nl P s) :=
  inferInstanceAs (Decidable (∀ _ ∈ _, _))

variable {P : List α → Prop}

theorem continued_of_not_mem {s : List α} (h : nl ∉ s) : Continued nl P s := by
  simp [Continued, List.splitOn_eq_singleton h]

theorem continued_line {s b : List α} (h : nl ∉ b) :
    Continued nl P (s ++ nl :: b) ↔ Continued nl P s ∧ P b := by
  unfold Continued
  rw [List.splitOn_append_cons_self, List.splitOn_eq_singleton h,
    List.tail_append_of_ne_nil (List.splitOn_ne_nil nl s)]
  simp [or_imp, forall_and]

/-- A text has one line, or it ends with a newline and one more. -/
theorem exists_last_line (nl : α) (s : List α) :
    nl ∉ s ∨ ∃ a b, s = a ++ nl :: b ∧ nl ∉ b := by
  induction s with
  | nil => exact .inl List.not_mem_nil
  | cons c s ih =>
    rcases ih with hs | ⟨a, b, rfl, hb⟩
    · by_cases hc : nl = c
      · exact .inr ⟨[], s, by rw [hc]; rfl, hs⟩
      · exact .inl (by simp [hc, hs])
    · exact .inr ⟨c :: a, b, rfl, hb⟩

theorem Continued.append {s b : List α} (h : Continued nl P s) (hb : nl ∉ b)
    (hP : ∀ l, P l → P (l ++ b)) : Continued nl P (s ++ b) := by
  rcases exists_last_line nl s with hs | ⟨a, l, rfl, hl⟩
  · exact continued_of_not_mem (by simp [hs, hb])
  · obtain ⟨ha, hPl⟩ := (continued_line hl).mp h
    rw [List.append_assoc, List.cons_append]
    exact (continued_line (by simp [hl, hb])).mpr ⟨ha, hP l hPl⟩

theorem Continued.of_cons {c : α} {s : List α} (h : Continued nl P (c :: s)) :
    Continued nl P s := by
  unfold Continued at h ⊢
  rw [List.splitOn_cons_eq_if_modifyHead] at h
  split at h
  · exact fun l hl => h l (List.mem_of_mem_tail hl)
  · cases hs : s.splitOn nl with
    | nil => exact absurd hs (List.splitOn_ne_nil nl s)
    | cons l ls => simpa [hs] using h

theorem Continued.of_concat {c : α} {s : List α} (h : Continued nl P (s ++ [c]))
    (hP : ∀ l, P (l ++ [c]) → P l) : Continued nl P s := by
  by_cases hc : c = nl
  · subst hc
    exact ((continued_line List.not_mem_nil).mp h).1
  · rcases exists_last_line nl s with hs | ⟨a, l, rfl, hl⟩
    · exact continued_of_not_mem hs
    · rw [List.append_assoc, List.cons_append] at h
      obtain ⟨ha, hPl⟩ := (continued_line (by simp [hl, Ne.symm hc])).mp h
      exact (continued_line hl).mpr ⟨ha, hP l hPl⟩

theorem not_mem_of_mem_splitOn {s l : List α} (h : l ∈ s.splitOn nl) : nl ∉ l := by
  induction s generalizing l with
  | nil =>
    rw [List.splitOn_nil, List.mem_singleton] at h
    rw [h]
    exact List.not_mem_nil
  | cons c s ih =>
    rw [List.splitOn_cons_eq_if_modifyHead] at h
    split at h
    · rcases List.mem_cons.mp h with rfl | h
      · exact List.not_mem_nil
      · exact ih h
    · next hc =>
      cases hs : s.splitOn nl with
      | nil => exact absurd hs (List.splitOn_ne_nil nl s)
      | cons f ls =>
        rw [hs] at h
        rcases List.mem_cons.mp h with rfl | h
        · have hf := ih (by rw [hs]; exact List.mem_cons_self)
          have hne : nl ≠ c := fun heq => hc (by simp [heq])
          simp [hf, hne]
        · exact ih (by rw [hs]; exact List.mem_cons_of_mem _ h)

/-- The first line and the others, each after a newline. -/
theorem Continued.lines {s : List α} (h : Continued nl P s) :
    ∃ (f : List α) (vs : List (List α)), s = f ++ vs.flatMap (nl :: ·) ∧ nl ∉ f ∧
      ∀ v ∈ vs, nl ∉ v ∧ P v := by
  unfold Continued at h
  have hs : [nl].intercalate (s.splitOn nl) = s := List.intercalate_splitOn nl
  have hmem : ∀ l ∈ s.splitOn nl, nl ∉ l := fun l hl => not_mem_of_mem_splitOn hl
  cases hsplit : s.splitOn nl with
  | nil => exact absurd hsplit (List.splitOn_ne_nil nl s)
  | cons f vs =>
    rw [hsplit] at h hs hmem
    refine ⟨f, vs, ?_, hmem f (.head _), fun v hv => ⟨hmem v (.tail _ hv), h v hv⟩⟩
    rw [← hs]
    clear hs h hmem hsplit
    induction vs generalizing f with
    | nil => simp
    | cons v vs ih =>
      rw [List.intercalate_cons_cons, ih, List.flatMap_cons]
      simp

theorem Continued.strip {s : List α} (h : Continued nl P s)
    (hP : ∀ l c, p c → P (l ++ [c]) → P l) : Continued nl P (strip p s) := by
  have hfront : Continued nl P (s.dropWhile p) := by
    induction s with
    | nil => exact h
    | cons c s ih =>
      by_cases hc : p c
      · rw [List.dropWhile_cons_of_pos hc]
        exact ih h.of_cons
      · rw [List.dropWhile_cons_of_neg hc]
        exact h
  unfold Lines.strip
  generalize s.dropWhile p = u at hfront ⊢
  induction u using List.reverseRecOn with
  | nil => exact hfront
  | append_singleton t c ih =>
    by_cases hc : p c
    · rw [List.rdropWhile_concat_pos p _ _ hc]
      exact ih (hfront.of_concat fun l => hP l c hc)
    · rw [List.rdropWhile_concat_neg p _ _ hc]
      exact hfront

end Lines
