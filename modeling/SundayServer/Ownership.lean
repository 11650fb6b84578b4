import SundayServer.ConnPool
import SundayServer.Lib.Machine
import Mathlib.Logic.Function.Basic
import Mathlib.Data.List.Nodup

/-!
# Who owns a connection record

The records of all workers share one pool. `Life` is that pool with the records
that exist and, for each connection, the record it holds and how far its
opening or closing has come. The steps are the atomic pieces of `InitNewConn`
and `CloseConn`: each critical section of `mutex_`, `new CONN` outside of it, and
the calls of libevent that create and free the bufferevent. Any number of openings
and closings may be under way at a time, so the steps of all workers interleave
freely.

A connection is numbered when it takes its record.

* `Owns`: the invariant, stated over the stack of free records.
* `Owned`: what it says about the pool's own fields.

Results:
1. `step_owns`: every step keeps the invariant.
2. `ownership`: after every run the slots hold distinct records, and each record
   is in one slot or held by one connection.
-/

namespace SundayServer

/-! ## Definitions -/

/-- How far a connection has come. -/
inductive Phase
  /-- `InitNewConn` has the record; there is no bufferevent yet. -/
  | opening
  | attached
  /-- `CloseConn` has freed the bufferevent and still has the record. -/
  | closing
deriving DecidableEq, Repr

/-- The pool, the records allocated and not freed, and what each connection holds. -/
structure Life where
  pool : Pool
  records : List Ptr
  hold : Nat → Option (Ptr × Phase)
  opened : Nat
  /-- The openings that have found the list empty and have yet to call `new`. -/
  pending : Nat

/-- `InitFreeConns` has run and nothing is allocated. -/
def Life.init : Life := ⟨initFreeConns, [], fun _ => none, 0, 0⟩

/-- The atomic steps. -/
inductive LifeStep
  /-- `InitNewConn`: `GetConnFromFreelist`. -/
  | getConn
  /-- `InitNewConn`: `new CONN`, when the list was empty; it returns `fresh`. -/
  | newConn (fresh : Ptr)
  /-- `bufferevent_socket_new`; when it fails the record goes back at once. -/
  | socketNew (c : Nat) (ok : Bool)
  /-- `CloseConn`: `bufferevent_free`. -/
  | closeConn (c : Nat)
  /-- `CloseConn`: `AddConnToFreelist`. -/
  | addConn (c : Nat)
deriving DecidableEq, Repr

namespace Life

/-- The connection that is being numbered takes the record `r`. -/
def take (s : Life) (pool : Pool) (records : List Ptr) (r : Ptr) : Life :=
  { s with pool, records, hold := Function.update s.hold s.opened (some (r, .opening)),
           opened := s.opened + 1 }

/-- The connection `c` enters the phase `ph` with its record. -/
def enter (s : Life) (c : Nat) (r : Ptr) (ph : Phase) : Life :=
  { s with hold := Function.update s.hold c (some (r, ph)) }

/-- `AddConnToFreelist`, and `FreeConn` when it returns false. -/
def giveBack (s : Life) (c : Nat) (r : Ptr) : Option Life :=
  match s.pool.addConnToFreelist r with
  | none => none
  | some (pool, ret) =>
    some { s with pool, hold := Function.update s.hold c none,
                  records := if ret then s.records else s.records.erase r }

def step (s : Life) : LifeStep → Option Life
  | .getConn =>
    match s.pool.getConnFromFreelist with
    | none => none
    | some (pool, some r) => some (s.take pool s.records r)
    | some (pool, none) => some { s with pool, pending := s.pending + 1 }
  | .newConn fresh =>
    -- `new` returns memory that is not in use
    if 0 < s.pending ∧ fresh ∉ s.records then
      some { s.take s.pool (fresh :: s.records) fresh with pending := s.pending - 1 }
    else none
  | .socketNew c ok =>
    match s.hold c with
    | some (r, .opening) => if ok then some (s.enter c r .attached) else s.giveBack c r
    | _ => none
  | .closeConn c =>
    match s.hold c with
    | some (r, .attached) => some (s.enter c r .closing)
    | _ => none
  | .addConn c =>
    match s.hold c with
    | some (r, .closing) => s.giveBack c r
    | _ => none

/-- `InitNewConn` up to the record, when nothing comes between its steps; `fresh` is
what `new CONN` returns if it is called. -/
def openConn (s : Life) (fresh : Ptr) : Option Life :=
  (s.step .getConn).bind fun s' =>
    if s'.pending = s.pending then some s' else s'.step (.newConn fresh)

/-- The slot `i` is in use and holds the record `r`. -/
def InSlot (s : Life) (i : Nat) (r : Ptr) : Prop :=
  (i : Int) < s.pool.freecurr ∧ s.pool.vecFreeconn[i]? = some (some r)

/-- The connection `c` has the record `r`. -/
def HasRecord (s : Life) (c : Nat) (r : Ptr) : Prop := ∃ ph, s.hold c = some (r, ph)

/-- The invariant: the free records and the held ones are distinct, and each
record is one or the other. -/
structure Owns (s : Life) (free : List Ptr) : Prop where
  holds : s.pool.Holds free
  free_nodup : free.Nodup
  free_mem : ∀ r ∈ free, r ∈ s.records
  hold_mem : ∀ {c r ph}, s.hold c = some (r, ph) → r ∈ s.records ∧ r ∉ free
  hold_inj : ∀ {c c' r ph ph'}, s.hold c = some (r, ph) → s.hold c' = some (r, ph') → c = c'
  hold_lt : ∀ {c p}, s.hold c = some p → c < s.opened
  placed : ∀ r ∈ s.records, r ∈ free ∨ ∃ c, s.HasRecord c r

/-- What holds of the pool and of the records. -/
structure Owned (s : Life) : Prop where
  curr_nonneg : 0 ≤ s.pool.freecurr
  curr_le : s.pool.freecurr ≤ s.pool.freetotal
  total : s.pool.freetotal = s.pool.vecFreeconn.length
  slot_record : ∀ i : Nat, (i : Int) < s.pool.freecurr → ∃ r ∈ s.records, s.InSlot i r
  slot_distinct : ∀ i j r, s.InSlot i r → s.InSlot j r → i = j
  held_record : ∀ c r, s.HasRecord c r → r ∈ s.records
  placed : ∀ r ∈ s.records,
    ((∃! i, s.InSlot i r) ∧ ∀ c, ¬ s.HasRecord c r) ∨
    ((∃! c, s.HasRecord c r) ∧ ∀ i, ¬ s.InSlot i r)

/-! ## 1. One step -/

/-- After a change of phase: the connection that changed, or another one. -/
theorem hold_enter {s : Life} {c d : Nat} {r q : Ptr} {ph qh : Phase}
    (hd : (s.enter c r ph).hold d = some (q, qh)) :
    (d = c ∧ q = r ∧ qh = ph) ∨ (d ≠ c ∧ s.hold d = some (q, qh)) := by
  simp only [enter, Function.update_apply] at hd
  split at hd
  · next hdc =>
    cases hd
    exact .inl ⟨hdc, rfl, rfl⟩
  · next hdc => exact .inr ⟨hdc, hd⟩

/-- A connection that has a record after one has given its own back is another one. -/
theorem hold_released {hold : Nat → Option (Ptr × Phase)} {c d : Nat} {p : Ptr × Phase}
    (hd : Function.update hold c none d = some p) : d ≠ c ∧ hold d = some p := by
  rw [Function.update_apply] at hd
  split at hd
  · cases hd
  · next hdc => exact ⟨hdc, hd⟩

namespace Owns

variable {s s' : Life} {free : List Ptr}

theorem init : Life.init.Owns [] where
  holds := initFreeConns_holds
  free_nodup := List.nodup_nil
  free_mem := by simp
  hold_mem h := by cases h
  hold_inj h := by cases h
  hold_lt h := by cases h
  placed := by simp [Life.init]

/-- A free or a new record goes to a new connection. -/
theorem take (h : s.Owns free) {pool : Pool} {records free' : List Ptr} {r : Ptr}
    (hpool : pool.Holds free') (hfree : ∀ q, q ∈ free' ↔ q ∈ free ∧ q ≠ r)
    (hnodup : free'.Nodup) (hrec : ∀ q, q ∈ records ↔ q ∈ s.records ∨ q = r)
    (hnew : r ∈ free ∨ r ∉ s.records) : (s.take pool records r).Owns free' := by
  have hnone : ∀ {c ph}, s.hold c ≠ some (r, ph) := by
    intro c ph hc
    obtain ⟨hmem, hnf⟩ := h.hold_mem hc
    exact hnew.elim hnf (absurd hmem)
  have hcases : ∀ {c q ph}, (s.take pool records r).hold c = some (q, ph) →
      (c = s.opened ∧ q = r) ∨ (s.hold c = some (q, ph) ∧ q ≠ r) := by
    intro c q ph hc
    simp only [Life.take, Function.update_apply] at hc
    split at hc
    · cases hc
      exact .inl ⟨‹_›, rfl⟩
    · exact .inr ⟨hc, by rintro rfl; exact hnone hc⟩
  refine ⟨hpool, hnodup, ?_, ?_, ?_, ?_, ?_⟩
  · intro q hq
    exact (hrec q).mpr (.inl (h.free_mem q ((hfree q).mp hq).1))
  · intro c q ph hc
    rcases hcases hc with ⟨-, rfl⟩ | ⟨hc, -⟩
    · exact ⟨(hrec q).mpr (.inr rfl), fun hq => ((hfree q).mp hq).2 rfl⟩
    · obtain ⟨hmem, hnf⟩ := h.hold_mem hc
      exact ⟨(hrec q).mpr (.inl hmem), fun hq => hnf ((hfree q).mp hq).1⟩
  · intro c c' q ph ph' hc hc'
    rcases hcases hc with ⟨rfl, rfl⟩ | ⟨hc, hne⟩ <;> rcases hcases hc' with ⟨rfl, hq⟩ | ⟨hc', hne'⟩
    · rfl
    · exact absurd rfl hne'
    · exact absurd hq hne
    · exact h.hold_inj hc hc'
  · intro c p hc
    obtain ⟨q, ph⟩ := p
    show c < s.opened + 1
    rcases hcases hc with ⟨rfl, -⟩ | ⟨hc, -⟩
    · exact Nat.lt_succ_self _
    · exact Nat.lt_succ_of_lt (h.hold_lt hc)
  · intro q hq
    by_cases hqr : q = r
    · subst hqr
      exact .inr ⟨s.opened, .opening, by simp [Life.take]⟩
    · have hq : q ∈ s.records := ((hrec q).mp hq).resolve_right hqr
      rcases h.placed q hq with hf | ⟨c, ph, hc⟩
      · exact .inl ((hfree q).mpr ⟨hf, hqr⟩)
      · have hne := Nat.ne_of_lt (h.hold_lt hc)
        exact .inr ⟨c, ph, by simp [Life.take, hne, hc]⟩

/-- A connection keeps its record from one phase to the next. -/
theorem enter (h : s.Owns free) {c : Nat} {r : Ptr} {ph : Phase} (hc : s.hold c = some (r, ph))
    (ph' : Phase) : (s.enter c r ph').Owns free := by
  have hcases : ∀ {d q qh}, (s.enter c r ph').hold d = some (q, qh) →
      ∃ qh', s.hold d = some (q, qh') := by
    intro d q qh hd
    rcases hold_enter hd with ⟨rfl, rfl, -⟩ | ⟨-, hd⟩
    · exact ⟨ph, hc⟩
    · exact ⟨qh, hd⟩
  refine ⟨h.holds, h.free_nodup, h.free_mem, ?_, ?_, ?_, ?_⟩
  · intro d q qh hd
    obtain ⟨_, hd⟩ := hcases hd
    exact h.hold_mem hd
  · intro d d' q qh qh' hd hd'
    obtain ⟨_, hd⟩ := hcases hd
    obtain ⟨_, hd'⟩ := hcases hd'
    exact h.hold_inj hd hd'
  · intro d p hd
    obtain ⟨_, hd⟩ := hcases (show _ = some (p.1, p.2) from hd)
    exact h.hold_lt hd
  · intro q hq
    rcases h.placed q hq with hf | ⟨d, qh, hd⟩
    · exact .inl hf
    · by_cases hdc : d = c
      · subst hdc
        rw [hc] at hd
        cases hd
        exact .inr ⟨d, ph', by simp [Life.enter]⟩
      · exact .inr ⟨d, qh, by simp [Life.enter, hdc, hd]⟩

/-- A connection puts its record back. -/
theorem giveBack (h : s.Owns free) {c : Nat} {r : Ptr} {ph : Phase}
    (hc : s.hold c = some (r, ph)) (hg : s.giveBack c r = some s') :
    s'.Owns (free ++ [r]) ∧ s'.records = s.records ∧ s'.opened = s.opened ∧
      s'.hold = Function.update s.hold c none := by
  unfold Life.giveBack at hg
  split at hg
  · cases hg
  · next pool ret ha =>
    obtain ⟨rfl, hpool⟩ := h.holds.add_cases ha
    cases hg
    refine ⟨⟨hpool, ?_, ?_, ?_, ?_, ?_, ?_⟩, rfl, rfl, rfl⟩
    · rw [← List.concat_eq_append]
      exact h.free_nodup.concat (h.hold_mem hc).2
    · intro q hq
      rcases List.mem_append.mp hq with hq | hq
      · exact h.free_mem q hq
      · exact List.mem_singleton.mp hq ▸ (h.hold_mem hc).1
    · intro d q qh hd
      obtain ⟨hdc, hd⟩ := hold_released hd
      obtain ⟨hmem, hnf⟩ := h.hold_mem hd
      refine ⟨hmem, fun hq => ?_⟩
      rcases List.mem_append.mp hq with hq | hq
      · exact hnf hq
      · cases List.mem_singleton.mp hq
        exact hdc (h.hold_inj hd hc)
    · intro d d' q qh qh' hd hd'
      exact h.hold_inj (hold_released hd).2 (hold_released hd').2
    · intro d p hd
      exact h.hold_lt (hold_released hd).2
    · intro q hq
      rcases h.placed q hq with hf | ⟨d, qh, hd⟩
      · exact .inl (List.mem_append_left _ hf)
      · by_cases hdc : d = c
        · subst hdc
          rw [hc] at hd
          cases hd
          exact .inl (List.mem_append_right _ (List.mem_singleton_self _))
        · exact .inr ⟨d, qh, by simp [hdc, hd]⟩

theorem pending_congr (h : s.Owns free) (n : Nat) : Owns { s with pending := n } free :=
  ⟨h.holds, h.free_nodup, h.free_mem, h.hold_mem, h.hold_inj, h.hold_lt, h.placed⟩

/-- A record of the list goes to a new connection. -/
theorem pop (h : s.Owns free) {pool : Pool} {free' : List Ptr} {r : Ptr}
    (hfree : free = free' ++ [r]) (hpool : pool.Holds free') :
    (s.take pool s.records r).Owns free' := by
  subst hfree
  obtain ⟨hnodup, -, hdisj⟩ := List.nodup_append.mp h.free_nodup
  have hne : ∀ q, q ∈ free' ↔ q ∈ free' ++ [r] ∧ q ≠ r := by
    intro q
    have : q ∈ free' → q ≠ r := fun hq => hdisj q hq r (List.mem_singleton_self r)
    simp only [List.mem_append, List.mem_singleton]
    tauto
  have hmem : r ∈ free' ++ [r] := by simp
  refine h.take hpool hne hnodup (fun q => ⟨.inl, ?_⟩) (.inl hmem)
  rintro (hq | rfl)
  · exact hq
  · exact h.free_mem q hmem

/-- A new record goes to a new connection. -/
theorem alloc (h : s.Owns free) {fresh : Ptr} (hfresh : fresh ∉ s.records) :
    (s.take s.pool (fresh :: s.records) fresh).Owns free := by
  refine h.take h.holds (fun q => ⟨fun hq => ⟨hq, ?_⟩, And.left⟩) h.free_nodup
    (fun q => by simp [or_comm]) (.inr hfresh)
  rintro rfl
  exact hfresh (h.free_mem q hq)

end Owns

/-- What a step does, when the invariant holds. -/
theorem step_cases {s s' : Life} {free : List Ptr} {l : LifeStep} (h : s.Owns free)
    (hs : s.step l = some s') :
    (∃ pool free' r, l = .getConn ∧ free = free' ++ [r] ∧ pool.freetotal = s.pool.freetotal ∧
      s' = s.take pool s.records r ∧ s'.Owns free') ∨
    (l = .getConn ∧ free = [] ∧ s' = { s with pending := s.pending + 1 } ∧ s'.Owns free) ∨
    (∃ fresh, l = .newConn fresh ∧ 0 < s.pending ∧
      s' = { s.take s.pool (fresh :: s.records) fresh with pending := s.pending - 1 } ∧
      s'.Owns free) ∨
    (∃ c r, l = .socketNew c true ∧ s.hold c = some (r, .opening) ∧ s' = s.enter c r .attached ∧
      s'.Owns free) ∨
    (∃ c r ph, (l = .socketNew c false ∧ ph = Phase.opening ∨ l = .addConn c ∧ ph = .closing) ∧
      s.hold c = some (r, ph) ∧ s.giveBack c r = some s' ∧ s'.Owns (free ++ [r]) ∧
      s'.records = s.records ∧ s'.opened = s.opened ∧
      s'.hold = Function.update s.hold c none) ∨
    (∃ c r, l = .closeConn c ∧ s.hold c = some (r, .attached) ∧ s' = s.enter c r .closing ∧
      s'.Owns free) := by
  cases l with
  | getConn =>
    simp only [step] at hs
    split at hs
    · cases hs
    · next pool r hg =>
      cases hs
      rcases h.holds.get_cases hg with ⟨hr, -⟩ | ⟨free', c, hr, hfree, hpool⟩
      · cases hr
      · cases hr
        exact .inl ⟨pool, free', r, rfl, hfree, Pool.Holds.get_freetotal hg, rfl,
          h.pop hfree hpool⟩
    · next pool hg =>
      cases hs
      rcases h.holds.get_cases hg with ⟨-, rfl, rfl⟩ | ⟨free', c, hr, -⟩
      · exact .inr (.inl ⟨rfl, rfl, rfl, h.pending_congr _⟩)
      · cases hr
  | newConn fresh =>
    simp only [step] at hs
    split at hs
    · next hnew =>
      cases hs
      exact .inr (.inr (.inl ⟨fresh, rfl, hnew.1, rfl, (h.alloc hnew.2).pending_congr _⟩))
    · cases hs
  | socketNew c ok =>
    right; right; right
    simp only [step] at hs
    split at hs
    · next r hc =>
      cases ok with
      | true =>
        cases hs
        exact .inl ⟨c, r, rfl, hc, rfl, h.enter hc _⟩
      | false =>
        exact .inr (.inl ⟨c, r, .opening, .inl ⟨rfl, rfl⟩, hc, hs, h.giveBack hc hs⟩)
    · cases hs
  | closeConn c =>
    right; right; right; right; right
    simp only [step] at hs
    split at hs
    · next r hc =>
      cases hs
      exact ⟨c, r, rfl, hc, rfl, h.enter hc _⟩
    · cases hs
  | addConn c =>
    right; right; right; right; left
    simp only [step] at hs
    split at hs
    · next r hc => exact ⟨c, r, .closing, .inr ⟨rfl, rfl⟩, hc, hs, h.giveBack hc hs⟩
    · cases hs

theorem step_owns {s s' : Life} {l : LifeStep} (h : ∃ free, s.Owns free)
    (hs : s.step l = some s') : ∃ free, s'.Owns free := by
  obtain ⟨free, h⟩ := h
  rcases step_cases h hs with ⟨_, free', _, _, _, _, _, h'⟩ | ⟨_, _, _, h'⟩ | ⟨_, _, _, _, h'⟩ |
    ⟨_, _, _, _, _, h'⟩ | ⟨_, r, _, _, _, _, h', _⟩ | ⟨_, _, _, _, _, h'⟩
  · exact ⟨free', h'⟩
  · exact ⟨free, h'⟩
  · exact ⟨free, h'⟩
  · exact ⟨free, h'⟩
  · exact ⟨free ++ [r], h'⟩
  · exact ⟨free, h'⟩

/-- An opening that nothing comes between gives a record to a new connection. -/
theorem openConn_cases {s s' : Life} {free : List Ptr} {fresh : Ptr} (h : s.Owns free)
    (hs : s.openConn fresh = some s') :
    ∃ pool records r, s' = s.take pool records r ∧ ∃ free', s'.Owns free' := by
  obtain ⟨m, hm, hs'⟩ := Option.bind_eq_some_iff.mp hs
  rcases step_cases h hm with ⟨pool, free', r, -, -, -, rfl, h'⟩ | ⟨-, -, rfl, h'⟩ |
    ⟨_, hl, -⟩ | ⟨_, _, hl, -⟩ | ⟨_, _, _, ⟨hl, -⟩ | ⟨hl, -⟩, -⟩ | ⟨_, _, hl, -⟩
  · obtain rfl : s.take pool s.records r = s' := by simpa [Life.take] using hs'
    exact ⟨pool, s.records, r, rfl, free', h'⟩
  · have hs'' : Life.step { s with pending := s.pending + 1 } (.newConn fresh) = some s' := by
      simpa using hs'
    have howns := step_owns ⟨free, h'⟩ hs''
    simp only [step] at hs''
    split at hs''
    · cases hs''
      exact ⟨s.pool, fresh :: s.records, fresh, rfl, howns⟩
    · cases hs''
  · cases hl
  · cases hl
  · cases hl
  · cases hl
  · cases hl

/-! ## 2. Every run -/

namespace Owns

variable {s : Life} {free : List Ptr}

theorem inSlot_iff (h : s.Owns free) {i : Nat} {r : Ptr} : s.InSlot i r ↔ free[i]? = some r := by
  unfold InSlot
  rw [h.holds.curr]
  constructor
  · rintro ⟨hi, hslot⟩
    have hi : i < free.length := by exact_mod_cast hi
    rw [h.holds.slot hi] at hslot
    rw [List.getElem?_eq_getElem hi]
    simpa using hslot
  · intro hi
    obtain ⟨hlt, rfl⟩ := List.getElem?_eq_some_iff.mp hi
    exact ⟨by exact_mod_cast hlt, h.holds.slot hlt⟩

theorem owned (h : s.Owns free) : s.Owned where
  curr_nonneg := by
    rw [h.holds.curr]
    exact Int.natCast_nonneg _
  curr_le := by
    rw [h.holds.curr, h.holds.total]
    exact_mod_cast h.holds.length_le
  total := h.holds.total
  slot_record i hi := by
    rw [h.holds.curr] at hi
    have hi : i < free.length := by exact_mod_cast hi
    exact ⟨free[i], h.free_mem _ (List.getElem_mem hi),
      h.inSlot_iff.mpr (List.getElem?_eq_getElem hi)⟩
  slot_distinct i j r hi hj := by
    obtain ⟨hi, hir⟩ := List.getElem?_eq_some_iff.mp (h.inSlot_iff.mp hi)
    obtain ⟨hj, hjr⟩ := List.getElem?_eq_some_iff.mp (h.inSlot_iff.mp hj)
    exact (h.free_nodup.getElem_inj_iff).mp (hir.trans hjr.symm)
  held_record := by
    rintro c r ⟨ph, hc⟩
    exact (h.hold_mem hc).1
  placed r hr := by
    rcases h.placed r hr with hf | ⟨c, ph, hc⟩
    · left
      obtain ⟨i, hi, rfl⟩ := List.mem_iff_getElem.mp hf
      refine ⟨⟨i, h.inSlot_iff.mpr (List.getElem?_eq_getElem hi), fun j hj => ?_⟩, ?_⟩
      · obtain ⟨hj, hji⟩ := List.getElem?_eq_some_iff.mp (h.inSlot_iff.mp hj)
        exact (h.free_nodup.getElem_inj_iff).mp hji
      · rintro c ⟨ph, hc⟩
        exact (h.hold_mem hc).2 hf
    · right
      refine ⟨⟨c, ⟨ph, hc⟩, ?_⟩, fun i hi => ?_⟩
      · rintro d ⟨qh, hd⟩
        exact h.hold_inj hd hc
      · exact (h.hold_mem hc).2 (List.mem_of_getElem? (h.inSlot_iff.mp hi))

/-- The free records are no more than the records. -/
theorem free_length_le (h : s.Owns free) : free.length ≤ s.records.length :=
  h.free_nodup.length_le_of_subset fun r hr => h.free_mem r hr

end Owns

theorem run_owns {es : List LifeStep} {s : Life} (hr : Machine.run step Life.init es = some s) :
    ∃ free, s.Owns free :=
  Machine.run_invariant (I := fun s => ∃ free, s.Owns free) (fun _ _ _ h hs => step_owns h hs)
    ⟨[], Owns.init⟩ hr

/-- After every interleaving of the steps of any number of workers, each record
is in one slot or held by one connection, and while there are fewer than `2^30`
records both operations of the pool return. -/
theorem ownership {es : List LifeStep} {s : Life}
    (hr : Machine.run step Life.init es = some s) :
    s.Owned ∧ (s.records.length < 2 ^ 30 →
      s.pool.getConnFromFreelist.isSome ∧ ∀ r, (s.pool.addConnToFreelist r).isSome) := by
  obtain ⟨free, h⟩ := run_owns hr
  refine ⟨h.owned, fun hlt => ⟨h.holds.get_isSome, fun r => ?_⟩⟩
  exact h.holds.add_isSome (Nat.lt_of_le_of_lt h.free_length_le hlt) r

/-- Two connections, one of which fails to open while the other closes; a third
one takes a record of the list. -/
theorem ownership_reopen :
    ∃ s, Machine.run step Life.init [.getConn, .newConn 8, .getConn, .socketNew 0 true,
      .closeConn 0, .newConn 16, .socketNew 1 false, .addConn 0, .getConn] = some s ∧
      s.Owned ∧ s.HasRecord 2 8 := by
  have hsome : (Machine.run step Life.init [.getConn, .newConn 8, .getConn, .socketNew 0 true,
      .closeConn 0, .newConn 16, .socketNew 1 false, .addConn 0, .getConn]).map
      (fun s => s.hold 2) = some (some (8, .opening)) := by decide +kernel
  obtain ⟨s, hs, hold⟩ := Option.map_eq_some_iff.mp hsome
  exact ⟨s, hs, (ownership hs).1, .opening, hold⟩

end Life

end SundayServer
