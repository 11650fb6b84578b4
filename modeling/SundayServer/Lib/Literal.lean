import Mathlib.Data.List.Induction

/-!
# Quoted literals in a statement text

A statement language whose literals stand between two quotes. Inside a literal
a doubled quote stands for one quote, and an escape character together with the
character after it stands for what `Rules.unescape` says.

* `lex`: the text as a list of tokens, a character outside every literal or a
  literal with its decoded value.
* `render`, `tokens`: a template filled with values between quotes, and the
  tokens it is meant to have.
* `lex_render`: values that are plain (no quote, and no escape that changes
  the value) fill a template as meant.
* `lex_render_iff`: and no other values do, even when each value is cut short
  before it is put between its quotes. The proof counts: a literal never
  decodes to more than it is long.
* `lex_value`: what a value decodes to does not depend on the template around it.
-/

namespace Literal

variable {α : Type*}

/-- The literal rules of a statement language. An escape pair decodes to at
most two characters, and to two only when it stands for itself. -/
structure Rules (α : Type*) where
  quote : α
  esc : α
  unescape : α → List α
  quote_ne_esc : quote ≠ esc
  unescape_length : ∀ c, (unescape c).length ≤ 2
  unescape_two : ∀ c, (unescape c).length = 2 → unescape c = [esc, c]

/-- A token: a character outside every literal, or a literal with its value. -/
inductive Tok (α : Type*)
  | chr (a : α)
  | lit (v : List α)
deriving DecidableEq, Repr

variable (R : Rules α)

/-- The tokens of a text. The first argument is `none` outside every literal
and `some v` inside one of which `v` has been decoded. A literal that is not
closed has no tokens. -/
def lex [DecidableEq α] : Option (List α) → List α → Option (List (Tok α))
  | none, [] => some []
  | some _, [] => none
  | none, a :: s =>
    if a = R.quote then lex (some []) s else (lex none s).map (.chr a :: ·)
  | some v, [a] => if a = R.quote then some [.lit v] else none
  | some v, a :: b :: s =>
    if a = R.quote then
      if b = R.quote then lex (some (v ++ [R.quote])) s
      else (lex none (b :: s)).map (.lit v :: ·)
    else if a = R.esc then lex (some (v ++ R.unescape b)) s
    else lex (some (v ++ [a])) (b :: s)

/-- A value that stands for itself between quotes: it has no quote, and every
escape character in it belongs to a pair that stands for itself. -/
def plain [DecidableEq α] : List α → Bool
  | [] => true
  | [a] => a ≠ R.quote ∧ a ≠ R.esc
  | a :: b :: s =>
    if a = R.quote then false
    else if a = R.esc then decide (R.unescape b = [R.esc, b]) && plain s
    else plain (b :: s)

/-! ## Templates -/

/-- The text `q` followed by each value between quotes with the text after it. -/
def render (q : List α) : List (List α × List α) → List α
  | [] => q
  | (v, q') :: l => q ++ R.quote :: (v ++ R.quote :: render q' l)

/-- The tokens `render` is meant to have. -/
def tokens (q : List α) : List (List α × List α) → List (Tok α)
  | [] => q.map .chr
  | (v, q') :: l => q.map .chr ++ .lit v :: tokens q' l

/-- The texts of a template hold no quote, and the text between two
placeholders is not empty. -/
def Separated : List α → List (List α × List α) → Prop
  | q, [] => R.quote ∉ q
  | q, (_, q') :: l => R.quote ∉ q ∧ (l ≠ [] → q' ≠ []) ∧ Separated q' l

instance decidableSeparated [DecidableEq α] : ∀ (q : List α) (l : List (List α × List α)),
    Decidable (Separated R q l)
  | q, [] => inferInstanceAs (Decidable (R.quote ∉ q))
  | q, (_, q') :: l =>
    have := decidableSeparated q' l
    inferInstanceAs (Decidable (R.quote ∉ q ∧ (l ≠ [] → q' ≠ []) ∧ Separated R q' l))

/-! ## The weight of tokens -/

/-- The length of the shortest text with this token. -/
def Tok.weight : Tok α → Nat
  | .chr _ => 1
  | .lit v => v.length + 2

/-- The length of the shortest text with these tokens. -/
def weight : List (Tok α) → Nat
  | [] => 0
  | t :: ts => t.weight + weight ts

/-- What has been read of an open literal: its quote and its value so far. -/
def opened : Option (List α) → Nat
  | none => 0
  | some v => v.length + 1

@[simp] theorem weight_nil : weight ([] : List (Tok α)) = 0 := rfl

@[simp] theorem weight_cons (t : Tok α) (ts : List (Tok α)) :
    weight (t :: ts) = t.weight + weight ts := rfl

@[simp] theorem weight_append (ts us : List (Tok α)) :
    weight (ts ++ us) = weight ts + weight us := by
  induction ts with
  | nil => simp
  | cons t ts ih => simp [ih, Nat.add_assoc]

@[simp] theorem weight_chr (q : List α) : weight (q.map Tok.chr) = q.length := by
  induction q with
  | nil => rfl
  | cons a q ih => simp [Tok.weight, ih]; omega

theorem weight_tokens (q : List α) (l : List (List α × List α)) :
    weight (tokens q l) = (render R q l).length := by
  induction l generalizing q with
  | nil => simp [tokens, render]
  | cons p l ih =>
    obtain ⟨v, q'⟩ := p
    simp [tokens, render, Tok.weight, ih]
    omega

theorem lit_mem_tokens {q : List α} {l : List (List α × List α)} {p : List α × List α}
    (hp : p ∈ l) : .lit p.1 ∈ tokens q l := by
  induction l generalizing q with
  | nil => cases hp
  | cons r l ih =>
    obtain ⟨v, q'⟩ := r
    rcases List.mem_cons.mp hp with rfl | hp'
    · simp [tokens]
    · simp [tokens, ih hp']

theorem render_head_ne_quote {q : List α} {l : List (List α × List α)}
    (h : Separated R q l) (hq : l ≠ [] → q ≠ []) : (render R q l).head? ≠ some R.quote := by
  cases l with
  | nil =>
    cases q with
    | nil => simp [render]
    | cons a q =>
      have : R.quote ≠ a ∧ R.quote ∉ q := by simpa [Separated] using h
      simpa [render] using this.1.symm
  | cons p l =>
    cases q with
    | nil => exact absurd rfl (hq (by simp))
    | cons a q =>
      have : R.quote ≠ a ∧ R.quote ∉ q := by simpa using h.1
      simpa [render] using this.1.symm

section Cut

variable (f : List α → List α) (hf : ∀ v, f v <+: v)
include hf

theorem render_map_length_le (q : List α) (l : List (List α × List α)) :
    (render R q (l.map (Prod.map f id))).length ≤ (render R q l).length := by
  induction l generalizing q with
  | nil => exact Nat.le_refl _
  | cons p l ih =>
    obtain ⟨v, q'⟩ := p
    have hv := (hf v).length_le
    have hl := ih q'
    simp only [List.map_cons, Prod.map_apply, id_eq, render, List.length_append,
      List.length_cons]
    omega

/-- A filled template keeps its length only when no value was cut. -/
theorem eq_of_render_map_length {q : List α} {l : List (List α × List α)}
    (h : (render R q l).length ≤ (render R q (l.map (Prod.map f id))).length) :
    ∀ p ∈ l, f p.1 = p.1 := by
  induction l generalizing q with
  | nil => simp
  | cons p l ih =>
    obtain ⟨v, q'⟩ := p
    have hv := (hf v).length_le
    have hl := render_map_length_le R f hf q' l
    simp only [List.map_cons, Prod.map_apply, id_eq, render, List.length_append,
      List.length_cons] at h
    intro p hp
    rcases List.mem_cons.mp hp with rfl | hp'
    · exact (hf v).eq_of_length (by omega)
    · exact ih (q := q') (by omega) p hp'

end Cut

/-! ## Plain values fill a template as meant -/

variable [DecidableEq α]

theorem plain_append {v w : List α} (hv : plain R v) (hw : plain R w) : plain R (v ++ w) := by
  fun_induction plain R v with
  | case1 => exact hw
  | case2 a =>
    obtain ⟨hq, he⟩ : a ≠ R.quote ∧ a ≠ R.esc := by simpa using hv
    cases w with
    | nil => simpa [plain] using hv
    | cons b w => simpa [plain, hq, he] using hw
  | case3 => simp at hv
  | case4 b s _ ih =>
    obtain ⟨hu, hs⟩ : R.unescape b = [R.esc, b] ∧ plain R s := by simpa using hv
    simpa [plain, R.quote_ne_esc.symm, hu] using ih hs
  | case5 a b s hq he ih => simpa [plain, hq, he] using ih hv

theorem plain_singleton {a : α} (hq : a ≠ R.quote) (he : a ≠ R.esc) : plain R [a] := by
  simp [plain, hq, he]

theorem plain_pair {b : α} (hu : R.unescape b = [R.esc, b]) : plain R [R.esc, b] := by
  simp [plain, R.quote_ne_esc.symm, hu]

theorem lex_text {q : List α} (hq : R.quote ∉ q) (s : List α) :
    lex R none (q ++ s) = (lex R none s).map (q.map .chr ++ ·) := by
  induction q with
  | nil => simp
  | cons a q ih =>
    obtain ⟨ha, hq'⟩ : R.quote ≠ a ∧ R.quote ∉ q := by simpa using hq
    simp [lex, ha.symm, ih hq', Function.comp_def]

/-- A quote closes the literal unless another quote follows. -/
theorem lex_close (v : List α) {s : List α} (hs : s.head? ≠ some R.quote) :
    lex R (some v) (R.quote :: s) = (lex R none s).map (.lit v :: ·) := by
  cases s with
  | nil => simp [lex]
  | cons b s =>
    have hb : b ≠ R.quote := by simpa using hs
    simp [lex, hb]

theorem lex_plain {w : List α} (hw : plain R w) (v s : List α) :
    lex R (some v) (w ++ R.quote :: s) = lex R (some (v ++ w)) (R.quote :: s) := by
  fun_induction plain R w generalizing v with
  | case1 => simp
  | case2 a =>
    obtain ⟨hq, he⟩ : a ≠ R.quote ∧ a ≠ R.esc := by simpa using hw
    simp only [List.cons_append, List.nil_append]
    rw [lex]
    simp [hq, he]
  | case3 => simp at hw
  | case4 b w _ ih =>
    obtain ⟨hu, hs⟩ : R.unescape b = [R.esc, b] ∧ plain R w := by simpa using hw
    simp only [List.cons_append]
    rw [lex]
    simpa [R.quote_ne_esc.symm, hu] using ih hs (v ++ R.unescape b)
  | case5 a b w hq he ih =>
    simp only [List.cons_append] at ih ⊢
    rw [lex]
    simpa [hq, he] using ih hw (v ++ [a])

theorem lex_render {q : List α} {l : List (List α × List α)} (h : Separated R q l)
    (hp : ∀ p ∈ l, plain R p.1) : lex R none (render R q l) = some (tokens q l) := by
  induction l generalizing q with
  | nil => simpa [render, tokens, lex] using lex_text R h []
  | cons p l ih =>
    obtain ⟨v, q'⟩ := p
    obtain ⟨hq, hne, hrest⟩ := h
    have hv : plain R v := hp (v, q') List.mem_cons_self
    have htail := ih hrest fun p hp' => hp p (List.mem_cons_of_mem _ hp')
    calc lex R none (render R q ((v, q') :: l))
        = (lex R none (R.quote :: (v ++ R.quote :: render R q' l))).map (q.map .chr ++ ·) :=
          lex_text R hq _
      _ = (lex R (some []) (v ++ R.quote :: render R q' l)).map (q.map .chr ++ ·) := by
          rw [lex, if_pos rfl]
      _ = (lex R (some v) (R.quote :: render R q' l)).map (q.map .chr ++ ·) := by
          rw [lex_plain R hv, List.nil_append]
      _ = some (tokens q ((v, q') :: l)) := by
          rw [lex_close R v (render_head_ne_quote R hrest hne), htail]
          rfl

/-! ## No other values do -/

/-- A text is at least as long as its tokens weigh, and when it is no longer
every literal in it is plain. The literal being read is `m`. -/
theorem lex_weight {m : Option (List α)} {s : List α} {ts : List (Tok α)}
    (h : lex R m s = some ts) :
    weight ts ≤ s.length + opened m ∧
      (weight ts = s.length + opened m → (∀ v, m = some v → plain R v) →
        ∀ v, .lit v ∈ ts → plain R v) := by
  fun_induction lex R m s generalizing ts with
  | case1 => cases h; simp
  | case2 => cases h
  | case3 s ih =>
    obtain ⟨hle, htight⟩ := ih h
    simp only [opened, List.length_nil, List.length_cons] at hle htight ⊢
    exact ⟨by omega, fun he _ => htight (by omega) (by rintro v ⟨rfl⟩; rfl)⟩
  | case4 a s ha ih =>
    obtain ⟨us, hus, rfl⟩ := Option.map_eq_some_iff.mp h
    obtain ⟨hle, htight⟩ := ih hus
    simp only [opened, weight_cons, Tok.weight, List.length_cons] at hle htight ⊢
    refine ⟨by omega, fun he _ v hv => htight (by omega) (by simp) v ?_⟩
    simpa using hv
  | case5 v =>
    cases h
    refine ⟨by simp [opened, Tok.weight]; omega, fun _ hv w hw => ?_⟩
    obtain rfl : w = v := by simpa using hw
    exact hv _ rfl
  | case6 => cases h
  | case7 v s ih =>
    -- a doubled quote is longer than what it stands for
    obtain ⟨hle, -⟩ := ih h
    simp only [opened, List.length_append, List.length_cons, List.length_nil] at hle ⊢
    exact ⟨by omega, fun he => by omega⟩
  | case8 v b s hb ih =>
    obtain ⟨us, hus, rfl⟩ := Option.map_eq_some_iff.mp h
    obtain ⟨hle, htight⟩ := ih hus
    simp only [opened, weight_cons, Tok.weight, List.length_cons] at hle htight ⊢
    refine ⟨by omega, fun he hv w hw => ?_⟩
    rcases List.mem_cons.mp hw with heq | hw'
    · cases heq
      exact hv _ rfl
    · exact htight (by omega) (by simp) w hw'
  | case9 v b s hq ih =>
    obtain ⟨hle, htight⟩ := ih h
    have hlen := R.unescape_length b
    simp only [opened, List.length_append, List.length_cons] at hle htight ⊢
    refine ⟨by omega, fun he hv => htight (by omega) ?_⟩
    rintro w ⟨rfl⟩
    have hu := R.unescape_two b (by omega)
    rw [hu]
    exact plain_append R (hv v rfl) (plain_pair R hu)
  | case10 v a b s hq he ih =>
    obtain ⟨hle, htight⟩ := ih h
    simp only [opened, List.length_append, List.length_cons, List.length_nil]
      at hle htight ⊢
    refine ⟨by omega, fun heq hv => htight (by omega) ?_⟩
    rintro w ⟨rfl⟩
    exact plain_append R (hv v rfl) (plain_singleton R hq he)

/-- A template filled with values of which each is first cut to the prefix `f`
has the intended tokens exactly when no value is cut and all are plain. -/
theorem lex_render_iff {f : List α → List α} (hf : ∀ v, f v <+: v) {q : List α}
    {l : List (List α × List α)} (h : Separated R q l) :
    lex R none (render R q (l.map (Prod.map f id))) = some (tokens q l) ↔
      ∀ p ∈ l, f p.1 = p.1 ∧ plain R p.1 := by
  constructor
  · intro hlex
    obtain ⟨hle, htight⟩ := lex_weight R hlex
    rw [weight_tokens R] at hle htight
    have hcut := eq_of_render_map_length R f hf hle
    have hlen := render_map_length_le R f hf q l
    intro p hp
    exact ⟨hcut p hp, htight (Nat.le_antisymm hle hlen) (by simp) p.1 (lit_mem_tokens hp)⟩
  · intro hall
    have hmap : l.map (Prod.map f id) = l := by
      conv_rhs => rw [← List.map_id l]
      refine List.map_congr_left fun p hp => ?_
      exact Prod.ext (hall p hp).1 rfl
    rw [hmap]
    exact lex_render R h fun p hp => (hall p hp).2

/-! ## Literals and the text around them -/

/-- The first token of a text that begins inside a literal is that literal. -/
theorem lex_some_cases {m : Option (List α)} {s : List α} {ts : List (Tok α)}
    (h : lex R m s = some ts) (hm : m ≠ none) : ∃ w us, ts = .lit w :: us := by
  fun_induction lex R m s generalizing ts with
  | case1 | case3 | case4 => exact absurd rfl hm
  | case2 | case6 => cases h
  | case5 v => exact ⟨v, [], (Option.some.inj h).symm⟩
  | case8 v b s _ _ =>
    obtain ⟨us, -, rfl⟩ := Option.map_eq_some_iff.mp h
    exact ⟨v, us, rfl⟩
  | case7 v s ih | case9 v b s _ ih | case10 v a b s _ _ ih => exact ih h (Option.some_ne_none _)

omit [DecidableEq α] in
/-- The first literal ends the characters in front of it. -/
theorem chr_append_lit_inj {q q' v v' : List α} {ts ts' : List (Tok α)}
    (h : q.map .chr ++ .lit v :: ts = q'.map .chr ++ .lit v' :: ts') :
    q = q' ∧ v = v' ∧ ts = ts' := by
  induction q generalizing q' with
  | nil =>
    cases q' with
    | nil => simpa using h
    | cons a q' => simp at h
  | cons a q ih =>
    cases q' with
    | nil => simp at h
    | cons b q' =>
      obtain ⟨hab, htail⟩ := List.cons.inj h
      obtain ⟨rfl, hrest⟩ := ih htail
      exact ⟨by rw [Tok.chr.inj hab], hrest⟩

theorem lex_ne_nil {a : α} {s : List α} : lex R none (a :: s) ≠ some [] := by
  intro h
  rw [lex] at h
  split at h
  · obtain ⟨w, us, hts⟩ := lex_some_cases R h (Option.some_ne_none _)
    cases hts
  · obtain ⟨us, -, hts⟩ := Option.map_eq_some_iff.mp h
    cases hts

/-- What a value decodes to does not depend on the text after its closing quote. -/
theorem lex_value {v w x s : List α} (h : lex R (some v) (w ++ [R.quote]) = some [.lit x])
    (hs : s.head? ≠ some R.quote) :
    lex R (some v) (w ++ R.quote :: s) = (lex R none s).map (.lit x :: ·) := by
  induction w using List.twoStepInduction generalizing v with
  | nil =>
    obtain rfl : v = x := by simpa [lex] using h
    exact lex_close R v hs
  | singleton a =>
    simp only [List.singleton_append, lex] at h ⊢
    by_cases hq : a = R.quote
    · rw [if_pos hq] at h
      cases h
    by_cases he : a = R.esc
    · rw [if_neg hq, if_pos he] at h
      cases h
    · rw [if_neg hq, if_neg he] at h ⊢
      obtain rfl : v ++ [a] = x := by simpa using h
      exact lex_close R _ hs
  | cons_cons a b w ih ih' =>
    simp only [List.cons_append] at h ih' ⊢
    rw [lex] at h ⊢
    by_cases hq : a = R.quote
    · by_cases hb : b = R.quote
      · rw [if_pos hq, if_pos hb] at h ⊢
        exact ih h
      · -- the literal is closed and something follows it
        rw [if_pos hq, if_neg hb] at h
        obtain ⟨us, hus, hts⟩ := Option.map_eq_some_iff.mp h
        obtain rfl : us = [] := (List.cons.inj hts).2
        exact absurd hus (lex_ne_nil R)
    by_cases he : a = R.esc
    · rw [if_neg hq, if_pos he] at h ⊢
      exact ih h
    · rw [if_neg hq, if_neg he] at h ⊢
      exact ih' b h

end Literal
