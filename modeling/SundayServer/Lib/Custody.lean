import Mathlib.Data.List.Perm.Basic
import Mathlib.Data.List.Nodup
import Mathlib.Data.List.Range
import Mathlib.Logic.Function.Basic

/-!
# Things that are acquired, held and released

A table of what is open, such as the descriptors of a process. A number can be given
out again as soon as it is released, so a party that releases what it does not hold may
release what belongs to another one.

* `Table`: what is open, and whether something has been released that was not.
* `Kept`: each thing that is open is held once, and nothing else is held.

Results:
1. `Kept.acquire`, `Kept.release`, `Kept.of_perm`: what holders do.
2. `flatMap_update`: what one of many parties holds, and what all others hold.
-/

namespace Custody

variable {α β : Type*}

structure Table (α : Type*) where
  opened : List α
  fault : Bool
deriving DecidableEq, Repr

/-- What is open is what is held, each once. -/
structure Kept (t : Table α) (held : List α) : Prop where
  perm : t.opened.Perm held
  nodup : t.opened.Nodup
  sound : t.fault = false

/-! ## 1. Holders -/

namespace Table

def empty : Table α := ⟨[], false⟩

def acquire (t : Table α) (a : α) : Table α := { t with opened := a :: t.opened }

def release [DecidableEq α] (t : Table α) (a : α) : Table α :=
  ⟨t.opened.erase a, t.fault || a ∉ t.opened⟩

end Table

variable {t : Table α} {held held' : List α} {a : α}

theorem kept_empty : Kept (Table.empty : Table α) [] := ⟨.refl _, List.nodup_nil, rfl⟩

theorem Kept.acquire (h : Kept t held) (ha : a ∉ t.opened) : Kept (t.acquire a) (a :: held) where
  perm := h.perm.cons a
  nodup := List.nodup_cons.mpr ⟨ha, h.nodup⟩
  sound := h.sound

theorem Kept.of_perm (h : Kept t held) (hp : held.Perm held') : Kept t held' :=
  ⟨h.perm.trans hp, h.nodup, h.sound⟩

/-- Whoever holds a thing can release it. -/
theorem Kept.release [DecidableEq α] (h : Kept t (a :: held)) : Kept (t.release a) held where
  perm := by
    have hp := h.perm.erase a
    rwa [List.erase_cons_head] at hp
  nodup := h.nodup.erase a
  sound := by
    have ha : a ∈ t.opened := h.perm.mem_iff.mpr (List.mem_cons_self ..)
    simp [Table.release, h.sound, ha]

theorem Kept.count [DecidableEq α] (h : Kept t held) (ha : a ∈ t.opened) : held.count a = 1 := by
  rw [← h.perm.count_eq, List.count_eq_one_of_mem h.nodup ha]

theorem Kept.mem_iff (h : Kept t held) : a ∈ t.opened ↔ a ∈ held := h.perm.mem_iff

/-! ## 2. Many parties -/

/-- What the party `w` holds stands apart from what the other ones hold. -/
theorem flatMap_update {n w : Nat} (hw : w < n) (g : Nat → β) (f : β → List α) :
    ∃ rest, ∀ v, ((List.range n).flatMap fun u => f (Function.update g w v u)).Perm
      (f v ++ rest) := by
  obtain ⟨l, r, hlr⟩ := List.append_of_mem (List.mem_range.mpr hw)
  have hnodup : (l ++ w :: r).Nodup := hlr ▸ List.nodup_range
  obtain ⟨-, hr, hdisj⟩ := List.nodup_append.mp hnodup
  have hl : ∀ u ∈ l, u ≠ w := fun u hu => hdisj u hu w (List.mem_cons_self ..)
  have hr : ∀ u ∈ r, u ≠ w := fun u hu heq => (List.nodup_cons.mp hr).1 (heq ▸ hu)
  have hothers : ∀ (m : List Nat), (∀ u ∈ m, u ≠ w) → ∀ v,
      (m.flatMap fun u => f (Function.update g w v u)) = m.flatMap fun u => f (g u) := by
    intro m hm v
    exact List.flatMap_congr fun u hu => by rw [Function.update_of_ne (hm u hu)]
  refine ⟨(l.flatMap fun u => f (g u)) ++ r.flatMap fun u => f (g u), fun v => ?_⟩
  rw [hlr, List.flatMap_append, List.flatMap_cons, hothers l hl, hothers r hr,
    Function.update_self, ← List.append_assoc, ← List.append_assoc]
  exact List.perm_append_comm.append_right _

end Custody
