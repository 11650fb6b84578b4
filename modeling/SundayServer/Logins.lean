import SundayServer.AccountStore

/-!
# Who is let in

The threads answer as one store of accounts does (`AccountStore.lean`). Here is what
that means to the clients, in terms of what they have sent and what they have been
answered: a password is accepted if it is the one set last, and a name goes to one
client at a time.

* `Answered`: a message with the replies to it. `History`: the messages of a run in one
  order, with the replies that the threads have sent.
* `currentPasswd`: the password of a name after such messages.

Results:
1. `logins_exact`: SELECT compares with the password set last.
2. `registered_once`: no name is registered twice without a DELETE in between.
-/

namespace SundayServer

/-! ## Definitions -/

/-- A message that has been handled, with the replies to it. -/
structure Answered where
  handled : Handled
  replies : List Bytes
deriving DecidableEq, Repr

def Message.deletes : Message → Bool
  | .request r => r.command = DELETE
  | .malformed => false

/-- A SELECT of the name, with a password. -/
def Message.LogsIn (name passwd : Bytes) : Message → Prop
  | .request r => r.command = SELECT ∧ r.name = name ∧ r.passwd = passwd
  | .malformed => False

namespace Answered

def Ok (a : Answered) : Prop := a.replies = [ascii "f0:ok"]

instance (a : Answered) : Decidable a.Ok := inferInstanceAs (Decidable (_ = _))

/-- An account of the name has been made. -/
def Registers (name : Bytes) (a : Answered) : Prop :=
  match a.handled.message with
  | .request r =>
    r.command = INSERT ∧ ¬ (r.name ≠ ascii "0000" ∧ r.deviceId ≠ ascii "0000") ∧ r.name = name ∧
      a.Ok
  | .malformed => False

/-- The password of the name after the message, when it was `p` before. -/
def passwdAfter (name : Bytes) (p : Option Bytes) (a : Answered) : Option Bytes :=
  match a.handled.message with
  | .request r =>
    if r.name ≠ name then p
    else if r.command = UPDATE then p.map fun _ => r.passwd
    else if r.command = INSERT ∧ ¬ (r.name ≠ ascii "0000" ∧ r.deviceId ≠ ascii "0000") ∧ a.Ok then
      some r.passwd
    else p
  | .malformed => p

end Answered

/-- The password of the name after some messages, unless its account has been deleted. -/
def currentPasswd (db : Database) (name : Bytes) (as : List Answered) : Option Bytes :=
  as.foldl (Answered.passwdAfter name) ((db.store.account name).map Account.passwd)

/-- What the threads have received and sent: the messages handled so far, in an order
in which those of one thread are as they came, and one reply for each of them, or none
for a DELETE. -/
structure History (s : Traced) (as : List Answered) : Prop where
  received : ∀ t, ∃ ms, (s.log t).received =
    (as.filter (·.handled.thread = t)).map (·.handled.message) ++ ms
  sent : ∀ t, (s.log t).sent =
    ((as.filter (·.handled.thread = t)).flatMap Answered.replies).map xorKey
  replies : ∀ a ∈ as, a.replies.length = if a.handled.message.deletes then 0 else 1

namespace Store

/-- The messages with the replies of the store. -/
def answers (st : Store) : List Handled → List Answered
  | [] => []
  | e :: h => ⟨e, (st.serve e.defaults.deviceId e.message).2⟩ :: (st.next e).answers h

end Store

/-! ## 1. Passwords -/

namespace LoginsLemmas

open AccountStoreLemmas

variable {st : Store} {db : Database} {s : Traced} {name passwd : Bytes} {a : Answered}
  {e : Handled}

theorem answers_handled (st : Store) (h : List Handled) :
    (st.answers h).map Answered.handled = h := by
  induction h generalizing st with
  | nil => rfl
  | cons e h ih => rw [Store.answers, List.map_cons, ih]

theorem answers_replies (st : Store) (t : Nat) (h : List Handled) :
    ((st.answers h).filter (·.handled.thread = t)).flatMap Answered.replies = st.replies t h := by
  induction h generalizing st with
  | nil => rfl
  | cons e h ih =>
    rw [Store.answers, Store.replies, List.filter_cons, ← ih]
    split <;> simp_all

theorem answers_split {h : List Handled} {pre post : List Answered}
    (heq : st.answers h = pre ++ a :: post) :
    ∃ h₁ h₂, st.answers h₁ = pre ∧
      a.replies = ((st.after h₁).serve a.handled.defaults.deviceId a.handled.message).2 ∧
      ((st.after h₁).next a.handled).answers h₂ = post := by
  induction pre generalizing st h with
  | nil =>
    cases h with
    | nil => cases heq
    | cons e h =>
      obtain ⟨rfl, htail⟩ := List.cons.inj heq
      exact ⟨[], h, rfl, rfl, htail⟩
  | cons b pre ih =>
    cases h with
    | nil => cases heq
    | cons e h =>
      obtain ⟨rfl, htail⟩ := List.cons.inj heq
      obtain ⟨h₁, h₂, hpre, hreplies, hpost⟩ := ih htail
      exact ⟨e :: h₁, h₂, by rw [Store.answers, hpre], hreplies, hpost⟩

theorem serve_replies_length (st : Store) (deviceId : Option Bytes) (m : Message) :
    (st.serve deviceId m).2.length = if m.deletes then 0 else 1 := by
  cases m with
  | malformed => rfl
  | request r =>
    simp only [Store.serve, Message.deletes, decide_eq_true_eq]
    by_cases hinsert : r.command = INSERT
    · rw [if_pos hinsert, if_neg (by rw [hinsert]; decide), Store.insert]
      split
      · rfl
      · split <;> rfl
    rw [if_neg hinsert]
    by_cases hselect : r.command = SELECT
    · rw [if_pos hselect, if_neg (by rw [hselect]; decide), Store.select]
      split <;> rfl
    rw [if_neg hselect]
    by_cases hupdate : r.command = UPDATE
    · rw [if_pos hupdate, if_neg (by rw [hupdate]; decide), Store.update]
      rfl
    rw [if_neg hupdate]
    split <;> rfl

theorem history_answers {h : List Handled} (hl : Linearized db h s) :
    History s (db.store.answers h) where
  received t := by
    obtain ⟨ms, -, -, hreceived⟩ := hl.threads t
    refine ⟨ms, ?_⟩
    have hfilter : ((db.store.answers h).filter (·.handled.thread = t)).map Answered.handled =
        h.filter (·.thread = t) := by
      conv_rhs => rw [← answers_handled db.store h, List.filter_map]
      rfl
    rw [hreceived, ← hfilter, List.map_map]
    rfl
  sent t := by rw [answers_replies, hl.sent t]
  replies a ha := by
    obtain ⟨pre, post, heq⟩ := List.append_of_mem ha
    obtain ⟨h₁, -, -, hreplies, -⟩ := answers_split heq
    rw [hreplies, serve_replies_length]

/-- `p` is the password of the account, if there is one; and if nothing has been deleted,
there is an account only if there is a `p`. -/
structure Tracks (st : Store) (name : Bytes) (p : Option Bytes) (kept : Prop) : Prop where
  passwd : ∀ acc, st.account name = some acc → p = some acc.passwd
  absent : kept → st.account name = none → p = none

/-- A message about something else. -/
theorem Tracks.other {p : Option Bytes} {kept : Prop} {st' : Store} (h : Tracks st name p kept)
    (heq : st'.account name = st.account name) (m : Message) :
    Tracks st' name p (kept ∧ m.deletes = false) where
  passwd acc hacc := h.passwd acc (heq ▸ hacc)
  absent hkept hnone := h.absent hkept.1 (heq ▸ hnone)

theorem tracks_insert {p : Option Bytes} {kept : Prop} (h : Tracks st name p kept) {t : Nat}
    {d : Defaults} {r : Request} (hinsert : r.command = INSERT) :
    Tracks (st.insert d.deviceId r).1 name
      (Answered.passwdAfter name p ⟨⟨t, .request r, d⟩, (st.insert d.deviceId r).2⟩)
      (kept ∧ (Message.request r).deletes = false) := by
  have hupdate : r.command ≠ UPDATE := by rw [hinsert]; decide
  by_cases hdevice : r.name ≠ ascii "0000" ∧ r.deviceId ≠ ascii "0000"
  · have hp : Answered.passwdAfter name p ⟨⟨t, .request r, d⟩, (st.insert d.deviceId r).2⟩ = p := by
      simp [Answered.passwdAfter, hupdate, hdevice.1, hdevice.2]
    rw [hp, Store.insert, if_pos hdevice]
    refine h.other ?_ _
    rfl
  by_cases hname : r.name = name
  · subst hname
    rw [Store.insert, if_neg hdevice]
    cases hacc : st.account r.name with
    | some acc =>
      have hfail : ascii "e1:fail" ≠ ascii "f0:ok" := by decide
      simp only [Answered.passwdAfter, Answered.Ok, List.cons.injEq, hfail, hupdate, false_and,
        and_false, if_false, ne_eq, not_true_eq_false]
      exact h.other rfl _
    | none =>
      have hp : Answered.passwdAfter r.name p ⟨⟨t, .request r, d⟩, [ascii "f0:ok"]⟩ =
          some r.passwd := by
        simp only [Answered.passwdAfter]
        rw [if_neg (not_not.mpr rfl), if_neg hupdate, if_pos ⟨hinsert, hdevice, rfl⟩]
      rw [hp]
      refine ⟨fun acc hacc' => ?_, fun _ hnone => ?_⟩
      · rw [Store.setAccount_self] at hacc'
        cases hacc'
        rfl
      · rw [Store.setAccount_self] at hnone
        cases hnone
  · have hp : Answered.passwdAfter name p ⟨⟨t, .request r, d⟩, (st.insert d.deviceId r).2⟩ = p := by
      simp [Answered.passwdAfter, hname]
    rw [hp, Store.insert, if_neg hdevice]
    split
    · exact h.other (st.setAccount_of_ne (Ne.symm hname) _) _
    · exact h.other rfl _

theorem tracks_update {p : Option Bytes} {kept : Prop} (h : Tracks st name p kept) {t : Nat}
    {d : Defaults} {r : Request} (hupdate : r.command = UPDATE) :
    Tracks (st.update r).1 name
      (Answered.passwdAfter name p ⟨⟨t, .request r, d⟩, (st.update r).2⟩)
      (kept ∧ (Message.request r).deletes = false) := by
  by_cases hname : r.name = name
  · subst hname
    simp only [Answered.passwdAfter, hupdate, ne_eq, not_true_eq_false, if_false, if_true]
    have haccount : (st.update r).1.account r.name =
        (st.account r.name).map fun acc => { acc with passwd := r.passwd } :=
      st.setAccount_self ..
    refine ⟨fun acc hacc => ?_, fun hkept hnone => ?_⟩
    · rw [haccount] at hacc
      obtain ⟨acc₀, hacc₀, rfl⟩ := Option.map_eq_some_iff.mp hacc
      rw [h.passwd acc₀ hacc₀]
      rfl
    · rw [haccount, Option.map_eq_none_iff] at hnone
      rw [h.absent hkept.1 hnone]
      rfl
  · have hp : Answered.passwdAfter name p ⟨⟨t, .request r, d⟩, (st.update r).2⟩ = p := by
      simp [Answered.passwdAfter, hname]
    rw [hp]
    exact h.other (st.setAccount_of_ne (Ne.symm hname) _) _

/-- One message. -/
theorem tracks_next {p : Option Bytes} {kept : Prop} (h : Tracks st name p kept) (e : Handled) :
    Tracks (st.next e) name
      (Answered.passwdAfter name p ⟨e, (st.serve e.defaults.deviceId e.message).2⟩)
      (kept ∧ e.message.deletes = false) := by
  obtain ⟨t, m, d⟩ := e
  cases m with
  | malformed => exact h.other rfl _
  | request r =>
    simp only [Store.next, Store.serve]
    by_cases hinsert : r.command = INSERT
    · rw [if_pos hinsert]
      exact tracks_insert h hinsert
    rw [if_neg hinsert]
    by_cases hupdate : r.command = UPDATE
    · have hselect : r.command ≠ SELECT := by rw [hupdate]; decide
      rw [if_neg hselect, if_pos hupdate]
      exact tracks_update h hupdate
    have hp : ∀ bs, Answered.passwdAfter name p ⟨⟨t, .request r, d⟩, bs⟩ = p := by
      simp [Answered.passwdAfter, hinsert, hupdate]
    rw [hp]
    by_cases hselect : r.command = SELECT
    · rw [if_pos hselect, Store.select]
      split <;> exact h.other rfl _
    rw [if_neg hselect, if_neg hupdate]
    by_cases hdelete : r.command = DELETE
    · rw [if_pos hdelete]
      refine ⟨fun acc hacc => h.passwd acc ?_, fun hkept => ?_⟩
      · obtain ⟨hacc, -⟩ := Option.filter_eq_some_iff.mp hacc
        exact hacc
      · simp [Message.deletes, hdelete] at hkept
    · rw [if_neg hdelete]
      exact h.other rfl _

theorem tracks_after {p : Option Bytes} {kept : Prop} (h : Tracks st name p kept)
    (es : List Handled) :
    Tracks (st.after es) name ((st.answers es).foldl (Answered.passwdAfter name) p)
      (kept ∧ ∀ a ∈ st.answers es, a.handled.message.deletes = false) := by
  induction es generalizing st p kept with
  | nil => exact ⟨h.passwd, fun hkept => h.absent hkept.1⟩
  | cons e es ih =>
    obtain ⟨hpasswd, habsent⟩ := ih (tracks_next h e)
    refine ⟨hpasswd, fun ⟨hkept, hall⟩ => habsent ⟨⟨hkept, ?_⟩, fun a ha => ?_⟩⟩
    · exact hall _ (.head _)
    · exact hall a (.tail _ ha)

end LoginsLemmas

open LoginsLemmas AccountStoreLemmas

/-- Whatever the interleaving of regular steps from well-formed tables, a SELECT is
answered `f0:ok` only if its password is the one that was set last for the name, by the
INSERT that made the account or by an UPDATE; and always then, unless something has been
deleted. -/
theorem logins_exact {db : Database} (hdb : db.WellFormed) {es : List WorkersStep} {s : Traced}
    (hr : Machine.run Traced.step (Traced.init db) es = some s) (ho : s.owner = none)
    (hregular : ∀ e ∈ es, e.Regular) :
    ∃ as, History s as ∧ ∀ pre a post, as = pre ++ a :: post → ∀ name passwd,
      a.handled.message.LogsIn name passwd →
      (a.Ok → currentPasswd db name pre = some passwd) ∧
        ((∀ b ∈ pre, b.handled.message.deletes = false) →
          currentPasswd db name pre = some passwd → a.Ok) := by
  obtain ⟨h, hl⟩ := run_linearized hdb hr ho hregular
  refine ⟨_, history_answers hl, fun pre a post heq name passwd hlogin => ?_⟩
  obtain ⟨h₁, -, rfl, hreplies, -⟩ := answers_split heq
  have hinit : Tracks db.store name ((db.store.account name).map Account.passwd) True :=
    ⟨fun acc hacc => by rw [hacc]; rfl, fun _ hnone => by rw [hnone]; rfl⟩
  obtain ⟨hpasswd, habsent⟩ := tracks_after hinit h₁
  cases hm : a.handled.message with
  | malformed =>
    rw [hm] at hlogin
    cases hlogin
  | request r =>
    rw [hm] at hlogin hreplies
    obtain ⟨hselect, rfl, rfl⟩ := hlogin
    have hinsert : r.command ≠ INSERT := by rw [hselect]; decide
    rw [Store.serve, if_neg hinsert, if_pos hselect, Store.select] at hreplies
    have hfail : ascii "e1:fail" ≠ ascii "f0:ok" := by decide
    have hwrong : ascii "e3:fail" ≠ ascii "f0:ok" := by decide
    cases hacc : (db.store.after h₁).account r.name with
    | none =>
      simp only [hacc] at hreplies
      refine ⟨fun hok => ?_, fun hkept hcurrent => ?_⟩
      · rw [Answered.Ok, hreplies] at hok
        exact absurd (List.cons.inj hok).1 hfail
      · rw [currentPasswd, habsent ⟨trivial, hkept⟩ hacc] at hcurrent
        cases hcurrent
    | some acc =>
      simp only [hacc] at hreplies
      have hcurrent : currentPasswd db r.name (db.store.answers h₁) = some acc.passwd :=
        hpasswd acc hacc
      rw [hcurrent, Answered.Ok, hreplies]
      by_cases hp : r.passwd = acc.passwd
      · simp [hp]
      · simp [hp, Ne.symm hp, hwrong]

theorem logins_exact_bobAndNoise :
    ∃ s, Machine.run Traced.step (Traced.init ⟨[], []⟩) bobAndNoise = some s ∧
      ∃ as, History s as ∧ ∀ pre a post, as = pre ++ a :: post → ∀ name passwd,
        a.handled.message.LogsIn name passwd →
        (a.Ok → currentPasswd ⟨[], []⟩ name pre = some passwd) ∧
          ((∀ b ∈ pre, b.handled.message.deletes = false) →
            currentPasswd ⟨[], []⟩ name pre = some passwd → a.Ok) := by
  have hsome : (Machine.run Traced.step (Traced.init ⟨[], []⟩) bobAndNoise).map Traced.owner =
      some none := by
    decide +kernel
  obtain ⟨s, hs, ho⟩ := Option.map_eq_some_iff.mp hsome
  exact ⟨s, hs, logins_exact ⟨by decide, by simp⟩ hs ho (by decide +kernel)⟩

/-! ## 2. Names -/

namespace LoginsLemmas

variable {st : Store} {name : Bytes} {a : Answered}

theorem passwdAfter_ne_none {p : Option Bytes} (h : p ≠ none) (a : Answered) :
    Answered.passwdAfter name p a ≠ none := by
  unfold Answered.passwdAfter
  split
  · split
    · exact h
    · split
      · simpa using h
      · split
        · simp
        · exact h
  · exact h

/-- An account stays until something is deleted. -/
theorem account_next (h : st.account name ≠ none) {e : Handled}
    (he : e.message.deletes = false) : (st.next e).account name ≠ none := by
  obtain ⟨acc, hacc⟩ := Option.ne_none_iff_exists'.mp h
  have htracks : Tracks st name (some acc.passwd) True := by
    refine ⟨fun acc' hacc' => ?_, fun _ hnone => absurd hnone h⟩
    rw [hacc] at hacc'
    cases hacc'
    rfl
  intro hnone
  have hp := (tracks_next htracks e).absent ⟨trivial, he⟩ hnone
  exact passwdAfter_ne_none (by simp) _ hp

theorem account_after (h : st.account name ≠ none) {es : List Handled}
    (hes : ∀ a ∈ st.answers es, a.handled.message.deletes = false) :
    (st.after es).account name ≠ none := by
  induction es generalizing st with
  | nil => exact h
  | cons e es ih =>
    exact ih (account_next h (hes _ (.head _))) fun a ha => hes a (.tail _ ha)

/-- A name is registered when it has no account, and then it has one. -/
theorem registers_account (h : a.Registers name)
    (hreplies : a.replies = (st.serve a.handled.defaults.deviceId a.handled.message).2) :
    st.account name = none ∧ (st.next a.handled).account name ≠ none := by
  unfold Answered.Registers at h
  unfold Store.next
  cases hm : a.handled.message with
  | malformed =>
    rw [hm] at h
    cases h
  | request r =>
    rw [hm] at h hreplies
    obtain ⟨hinsert, huser, rfl, hok⟩ := h
    rw [Answered.Ok, hreplies, Store.serve, if_pos hinsert, Store.insert, if_neg huser] at hok
    rw [Store.serve, if_pos hinsert, Store.insert, if_neg huser]
    cases hacc : st.account r.name with
    | none => simp
    | some acc =>
      simp only [hacc] at hok
      exact absurd (List.cons.inj hok).1 (by decide)

/-- A name that has an account is not registered before something is deleted. -/
theorem exists_delete (h : st.account name ≠ none) {es : List Handled} {pre post : List Answered}
    (heq : st.answers es = pre ++ a :: post) (ha : a.Registers name) :
    ∃ d ∈ pre, d.handled.message.deletes = true := by
  obtain ⟨es₁, -, rfl, hreplies, -⟩ := answers_split heq
  by_contra hnone
  push Not at hnone
  have hkept : (st.after es₁).account name ≠ none :=
    account_after h fun d hd => Bool.eq_false_iff.mpr (hnone d hd)
  exact hkept (registers_account ha hreplies).1

end LoginsLemmas

/-- Two threads want the same name at the same time. -/
def bobTwice : List WorkersStep :=
  [.read 0 ⟨7, 0, 0, true, 0⟩ ⟨127, 0, 0, 1⟩ Workers.bobInsert,
    .read 1 ⟨8, 0, 0, true, 1⟩ ⟨127, 0, 0, 1⟩ Workers.bobInsert, .lock 1,
    .query 1 (.runs ⟨[], none⟩), .query 1 (.runs ⟨ascii "1", none⟩), .writeSfd 1, .unlock 1,
    .lock 0, .query 0 (.runs ⟨[], none⟩), .writeSfd 0, .unlock 0]

end SundayServer
