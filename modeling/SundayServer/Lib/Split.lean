import Mathlib.Data.List.DropRight
import Mathlib.Data.List.Infix
import Mathlib.Data.List.TakeDrop

/-!
# Leftmost splitting of a list

Cutting a list at the first occurrence of a delimiter, then the remainder at
its first occurrence, and so on.

* `find`: the position of the first occurrence.
* `Splits d s ts r`: `s` is cut into the tokens `ts`, each followed by the
  delimiter `d`, and the remainder `r` that has no delimiter.
* `firstAt_iff_of_borderless`, `firstAt_replicate_iff`: the tokens that a
  delimiter without a border, or one that repeats an element, cuts off whole.
* `splits_iff`: a split by its parts, without the recursion.
* `Splits.unique`, `Splits.extend`, `Splits.append`, `Splits.of_tokens`,
  `Splits.rest_nil`: a split is determined by the list, the split of a longer
  list starts where that of its front ended, splits of two lists compose when the
  first leaves nothing over, tokens that are written with the delimiter after each are
  read back, and a list that ends in a delimiter without a border leaves nothing
  over.
* `firstAt_singleton_iff`, `Splits.getLast?_singleton`: the tokens, and the last one of
  them, when the delimiter is one element.
-/

namespace Split

variable {α : Type*}

/-- No occurrence of `d` starts before position `t.length` of `t ++ d`. -/
def FirstAt (d t : List α) : Prop := ∀ i < t.length, ¬ d <+: (t ++ d).drop i

/-- The leftmost split of a list at the delimiter `d`. -/
inductive Splits (d : List α) : List α → List (List α) → List α → Prop
  | rest {s : List α} : ¬ d <:+: s → Splits d s [] s
  | cut {t s r : List α} {ts : List (List α)} :
      FirstAt d t → Splits d s ts r → Splits d (t ++ d ++ s) (t :: ts) r

/-- `d` does not overlap itself: a prefix that is also a suffix is empty or all of `d`. -/
def Borderless (d : List α) : Prop := ∀ x, x <+: d → x <:+ d → x = [] ∨ x = d

/-! ## Occurrences -/

theorem prefix_drop_append {d u s : List α} {i : Nat} (h : i + d.length ≤ u.length) :
    d <+: (u ++ s).drop i ↔ d <+: u.drop i := by
  rw [List.drop_append_of_le_length (by omega)]
  constructor
  · intro hp
    exact List.prefix_of_prefix_length_le hp (List.prefix_append _ _)
      (by rw [List.length_drop]; omega)
  · intro hp
    exact hp.trans (List.prefix_append _ _)

theorem infix_of_prefix_drop {d s : List α} {i : Nat} (h : d <+: s.drop i) : d <:+: s :=
  h.isInfix.trans (List.drop_suffix i s).isInfix

/-- `FirstAt` read in a longer list: the first occurrence of `d` in
`t ++ d ++ s` is at `t.length`. -/
theorem FirstAt.not_prefix_drop {d t : List α} (h : FirstAt d t) (s : List α) {i : Nat}
    (hi : i < t.length) : ¬ d <+: (t ++ d ++ s).drop i := by
  rw [prefix_drop_append (by rw [List.length_append]; omega)]
  exact h i hi

theorem firstAt_of_not_prefix_drop {d t s : List α}
    (h : ∀ i < t.length, ¬ d <+: (t ++ d ++ s).drop i) : FirstAt d t := by
  intro i hi
  rw [← prefix_drop_append (s := s) (by rw [List.length_append]; omega)]
  exact h i hi

/-- An element outside the delimiter separates the occurrences in front of it
from those after it. -/
theorem infix_append_cons_iff {d u v : List α} {x : α} (hx : x ∉ d) :
    d <:+: u ++ x :: v ↔ d <:+: u ∨ d <:+: v := by
  constructor
  · rintro ⟨a, b, h⟩
    rcases List.append_eq_append_iff.mp h with ⟨w, rfl, -⟩ | ⟨w, hw, hxv⟩
    · exact .inl ⟨a, w, rfl⟩
    · cases w with
      | nil => exact .inl ⟨a, [], by simpa using hw⟩
      | cons y w =>
        obtain ⟨rfl, rfl⟩ : x = y ∧ v = w ++ b := by simpa using hxv
        rcases List.append_eq_append_iff.mp hw with ⟨z, rfl, hz⟩ | ⟨z, rfl, hz⟩
        · exact absurd (by rw [hz]; simp) hx
        · cases z with
          | nil => exact absurd (by rw [← show _ = d from by simpa using hz]; simp) hx
          | cons y z =>
            obtain ⟨rfl, rfl⟩ : x = y ∧ w = z ++ d := by simpa using hz
            exact .inr ⟨z, b, rfl⟩
  · rintro (h | h)
    · exact h.trans (List.prefix_append _ _).isInfix
    · exact h.trans ((List.suffix_cons x v).trans (List.suffix_append _ _)).isInfix

/-- Two elements stand side by side on one side of a third, or with it. -/
theorem pair_infix_append_cons {a b x : α} {u v : List α} (h : [a, b] <:+: u ++ x :: v) :
    [a, b] <:+: u ++ [x] ∨ [a, b] <:+: x :: v := by
  induction u with
  | nil => exact .inr h
  | cons y u ih =>
    rcases List.infix_cons_iff.mp h with hp | hin
    · left
      cases u with
      | nil =>
        obtain ⟨rfl, hb⟩ := List.cons_prefix_cons.mp hp
        obtain ⟨rfl, -⟩ := List.cons_prefix_cons.mp hb
        exact List.infix_refl _
      | cons z u =>
        obtain ⟨rfl, hb⟩ := List.cons_prefix_cons.mp hp
        obtain ⟨rfl, -⟩ := List.cons_prefix_cons.mp hb
        exact (List.prefix_append [a, b] (u ++ [x])).isInfix
    · rcases ih hin with hin | hin
      · exact .inl (hin.trans (List.suffix_cons y _).isInfix)
      · exact .inr hin

/-! ## The first occurrence, computed -/

section Find

variable [DecidableEq α]

/-- The position of the first occurrence of `d`. -/
def find (d : List α) : List α → Option Nat
  | [] => if d = [] then some 0 else none
  | a :: s => if d.isPrefixOf (a :: s) then some 0 else (find d s).map (· + 1)

theorem find_eq_some {d s : List α} {i : Nat} (h : find d s = some i) :
    d <+: s.drop i ∧ ∀ j < i, ¬ d <+: s.drop j := by
  induction s generalizing i with
  | nil =>
    simp only [find] at h
    split at h
    · next hd =>
      cases h
      exact ⟨by simp [hd], fun j hj => absurd hj (Nat.not_lt_zero j)⟩
    · cases h
  | cons a s ih =>
    simp only [find, List.isPrefixOf_iff_prefix] at h
    split at h
    · next hp =>
      cases h
      exact ⟨hp, fun j hj => absurd hj (Nat.not_lt_zero j)⟩
    · next hp =>
      obtain ⟨k, hk, rfl⟩ := Option.map_eq_some_iff.mp h
      obtain ⟨hpre, hfirst⟩ := ih hk
      refine ⟨hpre, fun j hj => ?_⟩
      cases j with
      | zero => exact hp
      | succ j => exact hfirst j (Nat.lt_of_succ_lt_succ hj)

theorem find_eq_none {d s : List α} (h : find d s = none) : ¬ d <:+: s := by
  induction s with
  | nil =>
    intro hd
    simp [find, List.infix_nil.mp hd] at h
  | cons a s ih =>
    simp only [find, List.isPrefixOf_iff_prefix] at h
    split at h
    · cases h
    · next hp =>
      rw [List.infix_cons_iff]
      rintro (hd | hd)
      · exact hp hd
      · exact ih (Option.map_eq_none_iff.mp h) hd

theorem find_isSome_iff {d s : List α} : (find d s).isSome ↔ d <:+: s := by
  cases h : find d s with
  | none => simpa using find_eq_none h
  | some i => simpa using infix_of_prefix_drop (find_eq_some h).1

/-- What `find` returns cuts the list at a first occurrence. -/
theorem find_cut {d s : List α} {i : Nat} (h : find d s = some i) :
    s = s.take i ++ d ++ s.drop (i + d.length) ∧ FirstAt d (s.take i) := by
  obtain ⟨hpre, hfirst⟩ := find_eq_some h
  have hs : s = s.take i ++ d ++ s.drop (i + d.length) := by
    obtain ⟨u, hu⟩ := hpre
    have hdrop : s.drop (i + d.length) = u := by
      rw [← List.drop_drop, ← hu, List.drop_left]
    rw [hdrop, List.append_assoc, hu, List.take_append_drop]
  refine ⟨hs, firstAt_of_not_prefix_drop (s := s.drop (i + d.length)) fun j hj => ?_⟩
  rw [← hs]
  exact hfirst j (Nat.lt_of_lt_of_le hj (by rw [List.length_take]; omega))

end Find

/-! ## Which tokens are first -/

/-- A delimiter that does not overlap itself first occurs after a token exactly
when it does not occur in the token. -/
theorem firstAt_iff_of_borderless {d t : List α} (hb : Borderless d) (hd : d ≠ []) :
    FirstAt d t ↔ ¬ d <:+: t := by
  constructor
  · rintro h ⟨a, b, rfl⟩
    refine h a.length ?_ ?_
    · have hpos := List.length_pos_iff.mpr hd
      simp only [List.length_append]
      omega
    · simp only [List.append_assoc, List.drop_left]
      exact List.prefix_append _ _
  · intro h i hi hp
    rcases Nat.lt_or_ge t.length (i + d.length) with hlt | hge
    · -- the end of the token would be a border of the delimiter
      rw [List.drop_append_of_le_length (Nat.le_of_lt hi)] at hp
      have hx : t.drop i <+: d := List.prefix_of_prefix_length_le (List.prefix_append _ _) hp
        (by rw [List.length_drop]; omega)
      obtain ⟨y, hy⟩ := hx
      have hyd : y <+: d := by
        rw [← hy] at hp
        have := (List.prefix_append_right_inj (t.drop i)).mp hp
        rwa [hy] at this
      rcases hb y hyd ⟨t.drop i, hy⟩ with rfl | rfl
      · have hlen := congrArg List.length hy
        rw [List.append_nil, List.length_drop] at hlen
        omega
      · have hlen := congrArg List.length hy
        rw [List.length_append, List.length_drop] at hlen
        omega
    · exact h (infix_of_prefix_drop ((prefix_drop_append hge).mp hp))

/-- A delimiter that repeats one element first occurs after a token exactly when
it does not occur in the token and the token does not end in that element. -/
theorem firstAt_replicate_iff {a : α} {n : Nat} {t : List α} :
    FirstAt (List.replicate (n + 1) a) t ↔
      ¬ List.replicate (n + 1) a <:+: t ∧ t.getLast? ≠ some a := by
  constructor
  · intro h
    refine ⟨?_, fun hlast => ?_⟩
    · rintro ⟨u, v, rfl⟩
      refine h u.length (by simp only [List.length_append, List.length_replicate]; omega) ?_
      simp only [List.append_assoc, List.drop_left]
      exact List.prefix_append _ _
    · obtain ⟨u, rfl⟩ := List.getLast?_eq_some_iff.mp hlast
      refine h u.length (by simp) ⟨[a], ?_⟩
      rw [List.append_assoc, List.drop_left, List.singleton_append, ← List.replicate_succ,
        ← List.replicate_succ']
  · rintro ⟨hin, hlast⟩ i hi hp
    rcases Nat.lt_or_ge t.length (i + (n + 1)) with hlt | hge
    · rw [List.drop_append_of_le_length (Nat.le_of_lt hi)] at hp
      have hx : t.drop i <+: List.replicate (n + 1) a :=
        List.prefix_of_prefix_length_le (List.prefix_append _ _) hp
          (by rw [List.length_drop, List.length_replicate]; omega)
      have hrep : t.drop i = List.replicate (t.drop i).length a :=
        List.eq_replicate_of_mem fun b hb => List.eq_of_mem_replicate (hx.subset hb)
      refine hlast ?_
      rw [← List.take_append_drop i t, hrep, List.getLast?_append]
      have hne : t.length - i ≠ 0 := by omega
      simp [List.getLast?_replicate, hne]
    · exact hin (infix_of_prefix_drop ((prefix_drop_append (by simpa using hge)).mp hp))

/-! ## Splits -/

namespace Splits

variable {d s r : List α} {ts : List (List α)}

/-- A split loses nothing: tokens, delimiters and remainder make up the list. -/
theorem join (h : Splits d s ts r) : (ts.map (· ++ d)).flatten ++ r = s := by
  induction h with
  | rest _ => rfl
  | cut _ _ ih => simp [← ih]

theorem not_infix_rest (h : Splits d s ts r) : ¬ d <:+: r := by
  induction h with
  | rest hr => exact hr
  | cut _ _ ih => exact ih

theorem firstAt (h : Splits d s ts r) {t : List α} (ht : t ∈ ts) : FirstAt d t := by
  induction h with
  | rest _ => cases ht
  | cut hf _ ih =>
    cases ht with
    | head => exact hf
    | tail _ ht' => exact ih ht'

/-- A token stands in the list with its delimiter after it. -/
theorem mem_infix (h : Splits d s ts r) {t : List α} (ht : t ∈ ts) : t ++ d <:+: s := by
  induction h with
  | rest _ => cases ht
  | @cut u s r ts _ _ ih =>
    cases ht with
    | head => exact ⟨[], s, by simp⟩
    | tail _ ht' => exact (ih ht').trans (List.suffix_append _ _).isInfix

theorem single {t : List α} (h : FirstAt d t) (hd : d ≠ []) : Splits d (t ++ d) [t] [] := by
  have hnil : ¬ d <:+: [] := fun hi => hd (List.infix_nil.mp hi)
  simpa using cut h (rest hnil)

/-- A list that goes on is split from where the split of its front ended. -/
theorem extend {u r' : List α} {ts' : List (List α)} (h : Splits d s ts r)
    (h' : Splits d (r ++ u) ts' r') : Splits d (s ++ u) (ts ++ ts') r' := by
  induction h with
  | rest _ => exact h'
  | cut hf _ ih => simpa using cut hf (ih h')

/-- Splits compose when the first one leaves nothing over. -/
theorem append {s₂ r₂ : List α} {ts₂ : List (List α)} (h : Splits d s ts [])
    (h₂ : Splits d s₂ ts₂ r₂) : Splits d (s ++ s₂) (ts ++ ts₂) r₂ := h.extend h₂

/-- Tokens that are written with the delimiter after each are read back. -/
theorem of_tokens (hd : d ≠ []) (h : ∀ t ∈ ts, FirstAt d t) :
    Splits d (ts.flatMap (· ++ d)) ts [] := by
  induction ts with
  | nil => exact .rest fun hi => hd (List.infix_nil.mp hi)
  | cons t ts ih =>
    obtain ⟨ht, hts⟩ := List.forall_mem_cons.mp h
    exact .cut ht (ih hts)

theorem firstAt_length_le {t t' u u' : List α} (h : FirstAt d t)
    (he : t ++ d ++ u = t' ++ d ++ u') : t.length ≤ t'.length := by
  by_contra hlt
  refine h.not_prefix_drop u (Nat.lt_of_not_le hlt) ?_
  rw [he, List.append_assoc, List.drop_left]
  exact List.prefix_append _ _

/-- A list has one split. -/
theorem unique {ts' : List (List α)} {r' : List α} (h : Splits d s ts r)
    (h' : Splits d s ts' r') : ts = ts' ∧ r = r' := by
  induction h generalizing ts' r' with
  | rest hs =>
    cases h' with
    | rest _ => exact ⟨rfl, rfl⟩
    | @cut t u _ _ _ _ => exact absurd ⟨t, u, rfl⟩ hs
  | @cut t u r ts hf _ ih =>
    generalize he : t ++ d ++ u = w at h'
    cases h' with
    | rest hs => exact absurd ⟨t, u, he⟩ hs
    | @cut t' u' _ ts' hf' hrest =>
      have hlen : t.length = t'.length :=
        Nat.le_antisymm (firstAt_length_le hf he) (firstAt_length_le hf' he.symm)
      rw [List.append_assoc, List.append_assoc] at he
      obtain ⟨rfl, hu⟩ := List.append_inj he hlen
      obtain rfl : u = u' := List.append_cancel_left hu
      obtain ⟨rfl, rfl⟩ := ih hrest
      exact ⟨rfl, rfl⟩

/-- A list that ends in the delimiter leaves nothing over, when the delimiter
does not overlap itself. -/
theorem rest_nil (hb : Borderless d) (h : Splits d s ts r) (hs : d <:+ s) : r = [] := by
  have hd : d ≠ [] := by
    rintro rfl
    exact h.not_infix_rest (List.nil_infix)
  induction h with
  | rest hn => exact absurd hs.isInfix hn
  | @cut t u r ts hf hrest ih =>
    rcases Nat.lt_or_ge u.length d.length with hlt | hge
    · -- the closing delimiter starts inside `t ++ d`, so its head is a border of `d`
      obtain ⟨x, hx⟩ : u <:+ d := List.suffix_of_suffix_length_le (List.suffix_append _ _) hs
        (Nat.le_of_lt hlt)
      have hxs : x <:+ t ++ d := by
        obtain ⟨y, hy⟩ := hs
        refine ⟨y, ?_⟩
        rw [← hx, ← List.append_assoc] at hy
        exact List.append_cancel_right (hy.trans (by rw [hx]))
      have hxd : x <:+ d := List.suffix_of_suffix_length_le hxs (List.suffix_append _ _)
        (by rw [← hx, List.length_append]; omega)
      rcases hb x ⟨u, hx⟩ hxd with rfl | rfl
      · simp only [List.nil_append] at hx
        rw [hx] at hlt
        exact absurd hlt (Nat.lt_irrefl _)
      · obtain rfl : u = [] := by simpa using hx
        exact (List.append_eq_nil_iff.mp hrest.join).2
    · exact ih (List.suffix_of_suffix_length_le hs (List.suffix_append _ _) hge)

end Splits

/-- A split by its parts: what they make up, the remainder, and each token. -/
theorem splits_iff {d s r : List α} {ts : List (List α)} :
    Splits d s ts r ↔
      (ts.map (· ++ d)).flatten ++ r = s ∧ ¬ d <:+: r ∧ ∀ t ∈ ts, FirstAt d t := by
  refine ⟨fun h => ⟨h.join, h.not_infix_rest, fun t => h.firstAt⟩, ?_⟩
  rintro ⟨rfl, hrest, hfirst⟩
  induction ts with
  | nil => exact .rest hrest
  | cons t ts ih =>
    obtain ⟨ht, hts⟩ := List.forall_mem_cons.mp hfirst
    rw [List.map_cons, List.flatten_cons, List.append_assoc]
    exact .cut ht (ih hts)

/-! ## One element -/

theorem borderless_singleton (a : α) : Borderless [a] := by
  intro x hx _
  cases x with
  | nil => exact .inl rfl
  | cons b x =>
    obtain ⟨rfl, hnil⟩ := List.cons_prefix_cons.mp hx
    rw [List.prefix_nil.mp hnil]
    exact .inr rfl

theorem firstAt_singleton_iff {a : α} {t : List α} : FirstAt [a] t ↔ a ∉ t := by
  rw [firstAt_iff_of_borderless (borderless_singleton a) (List.cons_ne_nil a []),
    List.singleton_infix_iff]

section

variable {p : α → Bool} {u v : List α}

theorem rtakeWhile_append_of_forall (h : ∀ a ∈ v, p a) :
    (u ++ v).rtakeWhile p = u.rtakeWhile p ++ v := by
  unfold List.rtakeWhile
  rw [List.reverse_append, List.takeWhile_append_of_pos (by simpa using h), List.reverse_append,
    List.reverse_reverse]

theorem rtakeWhile_append_of_exists (h : ∃ a ∈ v, ¬ p a) :
    (u ++ v).rtakeWhile p = v.rtakeWhile p := by
  unfold List.rtakeWhile
  have hlen : (v.reverse.takeWhile p).length ≠ v.reverse.length := by
    intro hlen
    obtain ⟨a, ha, hpa⟩ := h
    have hall := List.takeWhile_eq_self_iff.mp (List.takeWhile_sublist p |>.eq_of_length hlen)
    exact hpa (hall a (List.mem_reverse.mpr ha))
  rw [List.reverse_append, List.takeWhile_append, if_neg hlen]

end

/-- The last token is what follows the last delimiter but one. -/
theorem Splits.getLast?_singleton [DecidableEq α] {a : α} {s r : List α} {ts : List (List α)}
    (h : Splits [a] (s ++ [a]) ts r) : ts.getLast? = some (s.rtakeWhile (· ≠ a)) := by
  obtain rfl := h.rest_nil (borderless_singleton a) (List.suffix_append _ _)
  have hjoin := h.join
  rcases List.eq_nil_or_concat' ts with rfl | ⟨us, t, rfl⟩
  · simp at hjoin
  have ht : ∀ b ∈ t, decide (b ≠ a) = true := by
    have hfirst := firstAt_singleton_iff.mp (h.firstAt (List.mem_append_right us (.head _)))
    exact fun b hb => decide_eq_true fun hba => hfirst (hba ▸ hb)
  have hs : s = (us.map (· ++ [a])).flatten ++ t := by
    rw [List.append_nil, List.map_append, List.flatten_append, List.map_singleton,
      List.flatten_singleton, ← List.append_assoc] at hjoin
    exact (List.append_cancel_right hjoin).symm
  -- the tokens before it end in a delimiter
  have hfront : (us.map (· ++ [a])).flatten.rtakeWhile (· ≠ a) = [] := by
    rcases List.eq_nil_or_concat' us with rfl | ⟨us, u, rfl⟩
    · rfl
    · rw [List.map_append, List.flatten_append, List.map_singleton, List.flatten_singleton,
        ← List.append_assoc, List.rtakeWhile_concat_neg _ _ _ (by simp)]
  rw [hs, rtakeWhile_append_of_forall ht, hfront, List.nil_append, List.getLast?_concat]

end Split
