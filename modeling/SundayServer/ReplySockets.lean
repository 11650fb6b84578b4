import SundayServer.Ownership
import SundayServer.Lib.Custody

/-!
# Whose socket a reply goes to

`start_routine` writes its replies to `conn->sfd`. The record has served other
connections before, any worker may take it from the pool once it is back there, and the
number of a closed socket is the next client's. So it takes the pool and the order of the
steps of `InitNewConn` and `CloseConn` to keep the replies of one client from another.

`Wires` is the pool of `Ownership.lean` with the field `sfd` of the records, the open
sockets and the bufferevents.

* `connSfd`: what `start_routine` writes to.
* `handed`: the sockets that the connections have yet to close.

Result: `reply_sockets`.
-/

namespace SundayServer

open Custody

/-! ## Definitions -/

structure Wires where
  life : Life
  sockets : Table Int
  /-- The sockets that are accepted and not with a connection yet. Nobody takes a 0. -/
  waiting : List Int
  /-- `conn->sfd` of each record. -/
  sfd : Ptr → Int
  /-- `conn_info.sfd` in the call of `InitNewConn`. -/
  connInfo : Nat → Int
  /-- `InitNewConn` has come to `bufferevent_socket_new`. -/
  filled : Nat → Bool
  /-- The socket of the bufferevent. -/
  bev : Nat → Option Int
  crashed : Bool

def Wires.init : Wires :=
  ⟨.init, .empty, [], fun _ => 0, fun _ => 0, fun _ => false, fun _ => none, false⟩

/-- The atomic steps. -/
inductive WireStep
  | accept (sfd : Int)
  /-- `InitNewConn` for a socket that has been popped, up to the record. -/
  | getConn (sfd : Int) (fresh : Ptr)
  /-- Its assignments to the fields of the record. -/
  | fillRecord (c : Nat)
  /-- `bufferevent_socket_new`; when it fails the rest of `ReadPipeCb`. -/
  | socketNew (c : Nat) (ok : Bool)
  /-- `CloseConn`: `bufferevent_free`, with `BEV_OPT_CLOSE_ON_FREE`. -/
  | closeConn (c : Nat)
  /-- `CloseConn`: `AddConnToFreelist`. -/
  | addConn (c : Nat)
deriving DecidableEq, Repr

namespace Wires

/-- The field `sfd` of the record of the connection. -/
def connSfd (s : Wires) (c : Nat) : Option Int := (s.life.hold c).map fun p => s.sfd p.1

/-- The next connection is opened on `sfd`, with a record of the pool. -/
def opening (s : Wires) (sfd : Int) (life : Life) : Wires :=
  { s with
    life
    waiting := s.waiting.erase sfd
    connInfo := Function.update s.connInfo s.life.opened sfd
    filled := Function.update s.filled s.life.opened false }

def closing (s : Wires) (sfd : Int) (life : Life) : Wires :=
  { s with life, sockets := s.sockets.release sfd }

def step (s : Wires) (e : WireStep) : Option Wires :=
  if s.crashed then none
  else
    match e with
    | .accept sfd =>
      if 0 ≤ sfd ∧ sfd ∉ s.sockets.opened then
        some { s with sockets := s.sockets.acquire sfd, waiting := sfd :: s.waiting }
      else none
    | .getConn sfd fresh =>
      if sfd ∈ s.waiting ∧ sfd ≠ 0 then (s.life.openConn fresh).map (s.opening sfd)
      else none
    | .fillRecord c =>
      match s.life.hold c with
      | some (r, .opening) =>
        if s.filled c then none
        else
          some { s with
            sfd := Function.update s.sfd r (s.connInfo c)
            filled := Function.update s.filled c true }
      | _ => none
    | .socketNew c ok =>
      if s.filled c then
        (s.life.step (.socketNew c ok)).map fun life =>
          if ok then { s with life, bev := Function.update s.bev c (s.connSfd c) }
          -- `close(connInfo.sfd)`, and then a record is read through NULL
          else { s.closing (s.connInfo c) life with crashed := true }
      else none
    | .closeConn c =>
      (s.bev c).bind fun sfd =>
        (s.life.step (.closeConn c)).map fun life =>
          { s.closing sfd life with bev := Function.update s.bev c none }
    | .addConn c => (s.life.step (.addConn c)).map fun life => { s with life }

/-- The connection has a socket that it has yet to close. -/
def part (s : Wires) (c : Nat) : List Int :=
  match s.life.hold c with
  | some (_, .opening) | some (_, .attached) => [s.connInfo c]
  | _ => []

def handed (s : Wires) : List Int := (List.range s.life.opened).flatMap s.part

/-- The invariant. -/
structure Inv (s : Wires) : Prop where
  owns : ∃ free, s.life.Owns free
  field : ∀ {c r ph}, s.life.hold c = some (r, ph) → s.filled c = true → s.sfd r = s.connInfo c
  bev : ∀ {c r}, s.life.hold c = some (r, .attached) →
    s.filled c = true ∧ s.bev c = some (s.connInfo c)
  kept : Kept s.sockets (s.waiting ++ s.handed)

end Wires

/-! ## One step -/

namespace ReplySocketsLemmas

open Wires

variable {s s' : Wires} {c : Nat} {r : Ptr}

theorem handed_congr (hopened : s'.life.opened = s.life.opened)
    (hpart : ∀ c, s'.part c = s.part c) : s'.handed = s.handed := by
  unfold handed
  rw [hopened]
  exact List.flatMap_congr fun c _ => hpart c

/-- A connection has given its socket up. -/
theorem handed_lose (hc : c < s.life.opened) (hopened : s'.life.opened = s.life.opened)
    (hpart : s.part c = [s.connInfo c]) (hgone : s'.part c = [])
    (hothers : ∀ d, d ≠ c → s'.part d = s.part d) :
    s.handed.Perm (s.connInfo c :: s'.handed) := by
  obtain ⟨rest, hrest⟩ := flatMap_update hc s.part id
  have hbefore := hrest (s.part c)
  have hafter := hrest []
  have hs' : s'.part = Function.update s.part c [] := by
    funext d
    rw [Function.update_apply]
    split
    · next hd => rw [hd, hgone]
    · next hd => exact hothers d hd
  rw [Function.update_eq_self] at hbefore
  rw [← hs'] at hafter
  unfold handed
  rw [hopened]
  refine hbefore.trans ?_
  rw [hpart]
  exact hafter.symm.cons _

theorem inv_accept (hi : s.Inv) {sfd : Int} (hfree : sfd ∉ s.sockets.opened) :
    Inv { s with sockets := s.sockets.acquire sfd, waiting := sfd :: s.waiting } where
  owns := hi.owns
  field := hi.field
  bev := hi.bev
  kept := hi.kept.acquire hfree

theorem part_opening {pool : Pool} {records : List Ptr} {sfd : Int} (d : Nat) :
    (s.opening sfd (s.life.take pool records r)).part d =
      if d = s.life.opened then [sfd] else s.part d := by
  by_cases hd : d = s.life.opened
  · simp [Wires.part, Wires.opening, Life.take, hd]
  · simp [Wires.part, Wires.opening, Life.take, hd]

theorem handed_opening {pool : Pool} {records : List Ptr} {sfd : Int} :
    (s.opening sfd (s.life.take pool records r)).handed = s.handed ++ [sfd] := by
  unfold Wires.handed
  show (List.range (s.life.opened + 1)).flatMap _ = _
  rw [List.range_succ, List.flatMap_append, List.flatMap_singleton, part_opening, if_pos rfl]
  congr 1
  refine List.flatMap_congr fun d hd => ?_
  rw [part_opening, if_neg (Nat.ne_of_lt (List.mem_range.mp hd))]

theorem inv_getConn (hi : s.Inv) {sfd : Int} (hsfd : sfd ∈ s.waiting) {fresh : Ptr} {life : Life}
    (hs : s.life.openConn fresh = some life) : (s.opening sfd life).Inv := by
  obtain ⟨free, howns⟩ := hi.owns
  obtain ⟨pool, records, r, rfl, howns'⟩ := Life.openConn_cases howns hs
  have hold : ∀ {c p}, (s.life.take pool records r).hold c = some p →
      c = s.life.opened ∧ p = (r, .opening) ∨ c ≠ s.life.opened ∧ s.life.hold c = some p := by
    intro c p hc
    simp only [Life.take, Function.update_apply] at hc
    split at hc
    · next h => exact .inl ⟨h, (Option.some.inj hc).symm⟩
    · next h => exact .inr ⟨h, hc⟩
  refine ⟨howns', fun {c q ph} hc hfilled => ?_, fun {c q} hc => ?_, ?_⟩
  · rcases hold hc with ⟨rfl, -⟩ | ⟨hne, hc⟩
    · simp [Wires.opening] at hfilled
    · simp only [Wires.opening, Function.update_of_ne hne] at hfilled ⊢
      exact hi.field hc hfilled
  · rcases hold hc with ⟨rfl, heq⟩ | ⟨hne, hc⟩
    · cases heq
    · simp only [Wires.opening, Function.update_of_ne hne]
      exact hi.bev hc
  · refine hi.kept.of_perm (List.perm_iff_count.mpr fun a => ?_)
    have hcount := (List.perm_cons_erase hsfd).count_eq a
    rw [handed_opening]
    simp only [Wires.opening, List.count_append, List.count_cons, List.count_nil] at hcount ⊢
    omega

/-- The connection writes to a record that is its own. -/
theorem inv_fillRecord (hi : s.Inv) (hc : s.life.hold c = some (r, .opening)) :
    Inv { s with sfd := Function.update s.sfd r (s.connInfo c),
                 filled := Function.update s.filled c true } := by
  obtain ⟨free, howns⟩ := hi.owns
  refine ⟨hi.owns, fun {d q ph} hd hfilled => ?_, fun {d q} hd => ?_, ?_⟩
  · by_cases hdc : d = c
    · subst hdc
      rw [hc] at hd
      cases hd
      simp
    · have hne : q ≠ r := by
        rintro rfl
        exact hdc (howns.hold_inj hd hc)
      simp only [Function.update_of_ne hdc, Function.update_of_ne hne] at hfilled ⊢
      exact hi.field hd hfilled
  · have hdc : d ≠ c := by
      rintro rfl
      rw [hc] at hd
      cases hd
    simp only [Function.update_of_ne hdc]
    exact hi.bev hd
  · exact hi.kept

/-- A bufferevent for the socket that the record names. -/
theorem inv_socketNew (hi : s.Inv) (hfilled : s.filled c = true)
    (hc : s.life.hold c = some (r, .opening)) :
    Inv { s with life := s.life.enter c r .attached,
                 bev := Function.update s.bev c (s.connSfd c) } := by
  obtain ⟨free, howns⟩ := hi.owns
  have hhold : ∀ {d q ph}, (s.life.enter c r .attached).hold d = some (q, ph) →
      d = c ∧ q = r ∨ d ≠ c ∧ s.life.hold d = some (q, ph) := by
    intro d q ph hd
    exact (Life.hold_enter hd).imp (fun h => ⟨h.1, h.2.1⟩) id
  refine ⟨⟨free, howns.enter hc .attached⟩, fun {d q ph} hd hf => ?_, fun {d q} hd => ?_, ?_⟩
  · rcases hhold hd with ⟨rfl, rfl⟩ | ⟨-, hd⟩
    · exact hi.field hc hfilled
    · exact hi.field hd hf
  · rcases hhold hd with ⟨rfl, rfl⟩ | ⟨hdc, hd⟩
    · refine ⟨hfilled, ?_⟩
      simp [connSfd, hc, hi.field hc hfilled]
    · simp only [Function.update_of_ne hdc]
      exact hi.bev hd
  · have hsame : Wires.handed { s with life := s.life.enter c r .attached,
                                       bev := Function.update s.bev c (s.connSfd c) } =
        s.handed := by
      refine handed_congr rfl fun d => ?_
      by_cases hdc : d = c
      · subst hdc
        simp [Wires.part, Life.enter, hc]
      · simp [Wires.part, Life.enter, hdc]
    rw [hsame]
    exact hi.kept

/-- A connection gives its socket up; the record is still its own, or back in the pool. -/
theorem inv_closing (hi : s.Inv) {life : Life} (howns : ∃ free, life.Owns free) {ph : Phase}
    (hc : s.life.hold c = some (r, ph)) (hph : ph ≠ .closing)
    (hopened : life.opened = s.life.opened)
    (hgone : life.hold c = none ∨ life.hold c = some (r, .closing))
    (hothers : ∀ d, d ≠ c → life.hold d = s.life.hold d) {bev : Nat → Option Int}
    (hbev : ∀ d, d ≠ c → bev d = s.bev d) (crashed : Bool) :
    Inv { s.closing (s.connInfo c) life with bev, crashed } := by
  obtain ⟨free, h⟩ := hi.owns
  have hpart : s.part c = [s.connInfo c] := by
    cases ph with
    | opening => simp [Wires.part, hc]
    | attached => simp [Wires.part, hc]
    | closing => exact absurd rfl hph
  have hperm : s.handed.Perm
      (s.connInfo c :: Wires.handed { s.closing (s.connInfo c) life with bev, crashed }) := by
    refine handed_lose (h.hold_lt hc) hopened hpart ?_ fun d hd => ?_
    · rcases hgone with hgone | hgone <;> simp [Wires.part, Wires.closing, hgone]
    · simp [Wires.part, Wires.closing, hothers d hd]
  refine ⟨howns, fun {d q qh} hd hf => ?_, fun {d q} hd => ?_, ?_⟩
  · by_cases hdc : d = c
    · subst hdc
      rcases hgone with hgone | hgone
      · rw [show life.hold d = some (q, qh) from hd] at hgone
        cases hgone
      · rw [show life.hold d = some (q, qh) from hd] at hgone
        cases hgone
        exact hi.field hc hf
    · exact hi.field ((hothers d hdc).symm.trans hd) hf
  · by_cases hdc : d = c
    · subst hdc
      have hd : life.hold d = some (q, .attached) := hd
      rcases hgone with hgone | hgone
      · rw [hd] at hgone
        cases hgone
      · rw [hd] at hgone
        cases hgone
    · have hattached := hi.bev ((hothers d hdc).symm.trans hd)
      exact ⟨hattached.1, (hbev d hdc).trans hattached.2⟩
  · have hall := (hperm.append_left s.waiting).trans List.perm_middle
    exact (hi.kept.of_perm hall).release

theorem inv_addConn (hi : s.Inv) {life : Life} (howns : ∃ free, life.Owns free)
    (hc : s.life.hold c = some (r, .closing)) (hopened : life.opened = s.life.opened)
    (hhold : life.hold = Function.update s.life.hold c none) : Inv { s with life } := by
  have hback : ∀ {d p}, life.hold d = some p → s.life.hold d = some p := by
    intro d p hd
    rw [hhold] at hd
    exact (Life.hold_released hd).2
  refine ⟨howns, fun {d q ph} hd => hi.field (hback hd), fun {d q} hd => hi.bev (hback hd), ?_⟩
  have hsame : Wires.handed { s with life } = s.handed := by
    refine handed_congr hopened fun d => ?_
    by_cases hdc : d = c
    · subst hdc
      simp [Wires.part, hhold, hc]
    · simp [Wires.part, hhold, hdc]
  rw [hsame]
  exact hi.kept

/-- `bufferevent_socket_new` returns, or fails and the process ends. -/
theorem inv_socketNew_step (hi : s.Inv) (hfilled : s.filled c = true) {ok : Bool} {life : Life}
    (hs : s.life.step (.socketNew c ok) = some life) :
    Inv (if ok then { s with life, bev := Function.update s.bev c (s.connSfd c) }
      else { s.closing (s.connInfo c) life with crashed := true }) := by
  obtain ⟨free, howns⟩ := hi.owns
  have howns' := Life.step_owns ⟨free, howns⟩ hs
  rcases Life.step_cases howns hs with ⟨_, _, _, he, -⟩ | ⟨he, -⟩ | ⟨_, he, -⟩ |
    ⟨_, r, he, hc, rfl, -⟩ | ⟨_, r, _, ⟨he, rfl⟩ | ⟨he, -⟩, hc, -, -, -, hopened, hhold⟩ |
    ⟨_, _, he, -⟩
  · cases he
  · cases he
  · cases he
  · cases he
    exact inv_socketNew hi hfilled hc
  · cases he
    refine inv_closing hi howns' hc (by simp) hopened (.inl ?_) (fun d hd => ?_)
      (fun d _ => rfl) true
    · rw [hhold, Function.update_self]
    · rw [hhold, Function.update_of_ne hd]
  · cases he
  · cases he

theorem inv_closeConn (hi : s.Inv) {sfd : Int} (hbev : s.bev c = some sfd) {life : Life}
    (hs : s.life.step (.closeConn c) = some life) :
    Inv { s.closing sfd life with bev := Function.update s.bev c none } := by
  obtain ⟨free, howns⟩ := hi.owns
  have howns' := Life.step_owns ⟨free, howns⟩ hs
  rcases Life.step_cases howns hs with ⟨_, _, _, he, -⟩ | ⟨he, -⟩ | ⟨_, he, -⟩ | ⟨_, _, he, -⟩ |
    ⟨_, _, _, ⟨he, -⟩ | ⟨he, -⟩, -⟩ | ⟨_, r, he, hc, rfl, -⟩
  · cases he
  · cases he
  · cases he
  · cases he
  · cases he
  · cases he
  · cases he
    obtain rfl : sfd = s.connInfo c := Option.some.inj (hbev.symm.trans (hi.bev hc).2)
    refine inv_closing hi howns' hc (by simp) rfl (.inr ?_) (fun d hd => ?_) (fun d hd => ?_)
      s.crashed
    · simp [Life.enter]
    · simp [Life.enter, hd]
    · exact Function.update_of_ne hd ..

theorem inv_addConn_step (hi : s.Inv) {life : Life}
    (hs : s.life.step (.addConn c) = some life) : Inv { s with life } := by
  obtain ⟨free, howns⟩ := hi.owns
  have howns' := Life.step_owns ⟨free, howns⟩ hs
  rcases Life.step_cases howns hs with ⟨_, _, _, he, -⟩ | ⟨he, -⟩ | ⟨_, he, -⟩ | ⟨_, _, he, -⟩ |
    ⟨_, r, _, ⟨he, -⟩ | ⟨he, rfl⟩, hc, -, -, -, hopened, hhold⟩ | ⟨_, _, he, -⟩
  · cases he
  · cases he
  · cases he
  · cases he
  · cases he
  · cases he
    exact inv_addConn hi howns' hc hopened hhold
  · cases he

theorem step_inv (hi : s.Inv) {e : WireStep} (hs : s.step e = some s') : s'.Inv := by
  unfold Wires.step at hs
  split at hs
  · cases hs
  cases e with
  | accept sfd =>
    simp only at hs
    split at hs
    · next hfree =>
      cases hs
      exact inv_accept hi hfree.2
    · cases hs
  | getConn sfd fresh =>
    simp only at hs
    split at hs
    · next hsfd =>
      obtain ⟨life, hlife, rfl⟩ := Option.map_eq_some_iff.mp hs
      exact inv_getConn hi hsfd.1 hlife
    · cases hs
  | fillRecord c =>
    simp only at hs
    split at hs
    · next r hc =>
      split at hs
      · cases hs
      · cases hs
        exact inv_fillRecord hi hc
    · cases hs
  | socketNew c ok =>
    simp only at hs
    split at hs
    · next hfilled =>
      obtain ⟨life, hlife, rfl⟩ := Option.map_eq_some_iff.mp hs
      exact inv_socketNew_step hi hfilled hlife
    · cases hs
  | closeConn c =>
    obtain ⟨sfd, hbev, hs⟩ := Option.bind_eq_some_iff.mp hs
    obtain ⟨life, hlife, rfl⟩ := Option.map_eq_some_iff.mp hs
    exact inv_closeConn hi hbev hlife
  | addConn c =>
    obtain ⟨life, hlife, rfl⟩ := Option.map_eq_some_iff.mp hs
    exact inv_addConn_step hi hlife

theorem init_inv : Wires.init.Inv where
  owns := ⟨[], Life.Owns.init⟩
  field h := by cases h
  bev h := by cases h
  kept := kept_empty

/-- Two connections that both have a socket have different ones. -/
theorem connInfo_inj (hi : s.Inv) {d : Nat} (hc : s.part c = [s.connInfo c])
    (hd : s.part d = [s.connInfo d]) (hclt : c < s.life.opened) (hdlt : d < s.life.opened)
    (heq : s.connInfo d = s.connInfo c) : d = c := by
  by_contra hne
  have hnodup : s.handed.Nodup :=
    (hi.kept.perm.nodup_iff.mp hi.kept.nodup).sublist (List.sublist_append_right _ _)
  have : Std.Symm (Function.onFun List.Disjoint s.part) := ⟨fun _ _ => List.disjoint_symm⟩
  have hdisj := (List.nodup_flatMap.mp hnodup).2.forall (List.mem_range.mpr hclt)
    (List.mem_range.mpr hdlt) (Ne.symm hne)
  refine hdisj (a := s.connInfo c) ?_ ?_
  · simp [hc]
  · simp [hd, heq]

end ReplySocketsLemmas

open ReplySocketsLemmas

/-- Over every interleaving of the openings and closings of any number of workers, with
any use of the numbers that are free: while a connection has its bufferevent, the field
`sfd` of its record is the socket that was accepted for it. That socket is open, it is
the one the bufferevent reads from, and no other connection has it. -/
theorem reply_sockets {es : List WireStep} {s : Wires}
    (hr : Machine.run Wires.step .init es = some s) :
    s.sockets.fault = false ∧ ∀ c r, s.life.hold c = some (r, .attached) →
      s.connSfd c = some (s.connInfo c) ∧ s.bev c = some (s.connInfo c) ∧
        s.connInfo c ∈ s.sockets.opened ∧
        ∀ d q, s.life.hold d = some (q, .attached) → s.connInfo d = s.connInfo c → d = c := by
  have hi := Machine.run_invariant (fun _ _ _ hi hs => step_inv hi hs) init_inv hr
  obtain ⟨free, howns⟩ := hi.owns
  have hpart : ∀ {c r}, s.life.hold c = some (r, .attached) → s.part c = [s.connInfo c] := by
    intro c r hc
    simp [Wires.part, hc]
  refine ⟨hi.kept.sound, fun c r hc => ⟨?_, (hi.bev hc).2, ?_, fun d q hd heq => ?_⟩⟩
  · simp [Wires.connSfd, hc, hi.field hc (hi.bev hc).1]
  · refine hi.kept.mem_iff.mpr (List.mem_append_right _ ?_)
    refine List.mem_flatMap.mpr ⟨c, List.mem_range.mpr (howns.hold_lt hc), ?_⟩
    simp [hpart hc]
  · exact connInfo_inj hi (hpart hc) (hpart hd) (howns.hold_lt hc) (howns.hold_lt hd) heq

/-- Two connections are open while the first one closes. Its number comes back before
its record does; a third connection has both. -/
def reuseBoth : List WireStep :=
  [.accept 5, .getConn 5 8, .fillRecord 0, .socketNew 0 true, .accept 6, .closeConn 0, .accept 5,
    .getConn 6 16, .fillRecord 1, .addConn 0, .socketNew 1 true, .getConn 5 24, .fillRecord 2,
    .socketNew 2 true]

theorem reply_sockets_reuseBoth :
    ∃ s, Machine.run Wires.step .init reuseBoth = some s ∧
      s.life.hold 2 = some (8, .attached) ∧ s.connSfd 2 = some (s.connInfo 2) ∧
        s.connInfo 2 = 5 ∧ s.connInfo 1 = 6 ∧ s.sockets.fault = false := by
  have hsome : (Machine.run Wires.step .init reuseBoth).map
      (fun s => (s.life.hold 2, s.connInfo 2, s.connInfo 1)) =
        some (some (8, .attached), 5, 6) := by decide +kernel
  obtain ⟨s, hs, hold⟩ := Option.map_eq_some_iff.mp hsome
  simp only [Prod.mk.injEq] at hold
  obtain ⟨hold, hfive, hsix⟩ := hold
  have hreply := reply_sockets hs
  exact ⟨s, hs, hold, (hreply.2 2 8 hold).1, hfive, hsix, hreply.1⟩

end SundayServer
