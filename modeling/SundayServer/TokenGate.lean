import SundayServer.Ownership
import SundayServer.StartRoutine

/-!
# The token gate over whole runs

`start_routine` tests the token of a connection once and remembers in
`conn->isVerify` that it has done so. The record goes back to the pool when the
connection closes, and `InitNewConn` sets every field of a record but that one.

* `Server`: the pool, the connections and the contents of the records.
* `firstLong`: the first read of a connection that is long enough for the token.
* `GateHolds`: whatever a read executes, the first long read of its connection
  started with the token; and a connection that starts otherwise is closed
  with nothing executed.

Results:
1. `step_gate`: what each step keeps, when openings take unflagged records.
2. `gateHolds_of_unflagged`: the gate holds in every run whose openings do.
3. `recycled_gate_open`: and not in every run.
-/

namespace SundayServer

/-! ## Definitions -/

/-- The fields that `InitNewConn` sets. -/
def initNewConn (conn : Conn) (sfd : Int) (thread : Nat) : Conn :=
  { conn with sfd, rlen := 0, wlen := 0, thread }

/-- The connections and the contents of their records. -/
structure Server where
  life : Life
  heap : Ptr → Conn

def Server.init : Server := ⟨Life.init, fun _ => ⟨0, 0, 0, false, 0⟩⟩

/-- What happens to the connections. -/
inductive ServerStep
  /-- `InitNewConn` up to the bufferevent; `junk` is the contents of the memory
  that `new CONN` returns if it is called. -/
  | openConn (fresh : Ptr) (junk : Conn) (sfd : Int) (thread : Nat)
  | socketNew (c : Nat) (ok : Bool)
  /-- `start_routine` on the bytes that `bufferevent_read` delivers. -/
  | read (c : Nat) (peer : InAddr) (data : Bytes)
  /-- `ClientTcpErrorCb`. -/
  | error (c : Nat)
  | addConn (c : Nat)
deriving DecidableEq, Repr

namespace Server

/-- The record that the next opening takes, as it finds it. -/
def nextRecord (s : Server) (junk : Conn) : Conn :=
  match s.life.pool.getConnFromFreelist with
  | some (_, some r) => s.heap r
  | _ => junk

/-- The callback on the record of the connection `c`. -/
def result (s : Server) (c : Nat) (peer : InAddr) (data : Bytes) : Option ReadResult :=
  match s.life.hold c with
  | some (r, .attached) => some (startRoutine (s.heap r) peer data)
  | _ => none

def step (s : Server) : ServerStep → Option Server
  | .openConn fresh junk sfd thread =>
    match s.life.openConn fresh with
    | none => none
    | some life =>
      (life.hold s.life.opened).map fun p =>
        ⟨life, Function.update s.heap p.1 (initNewConn (s.nextRecord junk) sfd thread)⟩
  | .socketNew c ok => (s.life.step (.socketNew c ok)).map fun life => { s with life }
  | .read c peer data =>
    match s.life.hold c with
    | some (r, .attached) =>
      let res := startRoutine (s.heap r) peer data
      let heap := Function.update s.heap r res.conn
      if res.closed then (s.life.step (.closeConn c)).map fun life => ⟨life, heap⟩
      else some { s with heap }
    | _ => none
  | .error c => (s.life.step (.closeConn c)).map fun life => { s with life }
  | .addConn c => (s.life.step (.addConn c)).map fun life => { s with life }

end Server

/-- The bytes of the step, when it is a read of `c` of at least `TOKEN_LENGTH` bytes. -/
def longRead (c : Nat) : ServerStep → Option Bytes
  | .read d _ data => if d = c ∧ TOKEN_LENGTH ≤ data.length then some data else none
  | _ => none

/-- The first read of at least `TOKEN_LENGTH` bytes made on the connection `c`. -/
def firstLong (es : List ServerStep) (c : Nat) : Option Bytes := es.findSome? (longRead c)

/-- The token gate over one run. -/
def GateHolds (es : List ServerStep) : Prop :=
  ∀ pre post c peer data s res, es = pre ++ .read c peer data :: post →
    Machine.run Server.step Server.init pre = some s → s.result c peer data = some res →
    (res.Acts → ∃ d, firstLong (pre ++ [.read c peer data]) c = some d ∧ HasToken d) ∧
    (firstLong pre c = none → TOKEN_LENGTH ≤ data.length → ¬ HasToken data →
      res.closed = true ∧ ¬ res.Acts)

/-- An opening takes a record whose `isVerify` is false. -/
def TakesUnflagged (s : Server) : ServerStep → Prop
  | .openConn _ junk _ _ => (s.nextRecord junk).isVerify = false
  | _ => True

instance (s : Server) : ∀ e, Decidable (TakesUnflagged s e)
  | .openConn _ junk _ _ => inferInstanceAs (Decidable ((s.nextRecord junk).isVerify = false))
  | .socketNew .. | .read .. | .error _ | .addConn _ => inferInstanceAs (Decidable True)

/-! ## 1. One step -/

/-- The flag of a held record says whether its connection has had a long read,
and while the connection is not closing that read started with the token. -/
structure Gate (es : List ServerStep) (s : Server) : Prop where
  owns : ∃ free, s.life.Owns free
  fresh : ∀ c, s.life.opened ≤ c → firstLong es c = none
  flag : ∀ {c r ph}, s.life.hold c = some (r, ph) →
    (s.heap r).isVerify = (firstLong es c).isSome
  token : ∀ {c r ph}, s.life.hold c = some (r, ph) → ph ≠ .closing →
    ∀ d, firstLong es c = some d → HasToken d

namespace TokenGateLemmas

theorem firstLong_snoc (es : List ServerStep) (e : ServerStep) (c : Nat) :
    firstLong (es ++ [e]) c = (firstLong es c).or (longRead c e) := by
  unfold firstLong
  rw [List.findSome?_append]
  simp [List.findSome?_cons]
  cases longRead c e <;> rfl

/-- A step that reads nothing on `c` leaves its first long read. -/
theorem firstLong_other {es : List ServerStep} {e : ServerStep} {c : Nat}
    (h : longRead c e = none) : firstLong (es ++ [e]) c = firstLong es c := by
  rw [firstLong_snoc, h, Option.or_none]

/-- A step that reads nothing keeps the gate when the records it leaves held
were held before by the same connections, in the same phase or closing. -/
theorem gate_frame {es : List ServerStep} {e : ServerStep} {s : Server} {life : Life}
    (h : Gate es s) (he : ∀ c, longRead c e = none) (howns : ∃ free, life.Owns free)
    (hopened : life.opened = s.life.opened)
    (hhold : ∀ {c r ph}, life.hold c = some (r, ph) →
      ∃ ph', s.life.hold c = some (r, ph') ∧ (ph ≠ .closing → ph' ≠ .closing)) :
    Gate (es ++ [e]) { s with life } where
  owns := howns
  fresh c hc := by
    rw [firstLong_other (he c)]
    exact h.fresh c (hopened ▸ hc)
  flag {c r ph} hc := by
    obtain ⟨ph', hc', -⟩ := hhold hc
    rw [firstLong_other (he c)]
    exact h.flag hc'
  token {c r ph} hc hph d hd := by
    obtain ⟨ph', hc', hph'⟩ := hhold hc
    rw [firstLong_other (he c)] at hd
    exact h.token hc' (hph' hph) d hd

theorem hold_of_enter {s : Life} {c : Nat} {r : Ptr} {ph ph' : Phase}
    (hc : s.hold c = some (r, ph)) (hph : ph' ≠ .closing → ph ≠ .closing) {d : Nat} {q : Ptr}
    {qh : Phase} (hd : (s.enter c r ph').hold d = some (q, qh)) :
    ∃ qh', s.hold d = some (q, qh') ∧ (qh ≠ .closing → qh' ≠ .closing) := by
  rcases Life.hold_enter hd with ⟨rfl, rfl, rfl⟩ | ⟨-, hd⟩
  · exact ⟨ph, hc, hph⟩
  · exact ⟨qh, hd, id⟩

/-- The steps of the pool that read nothing. -/
theorem gate_life {es : List ServerStep} {e : ServerStep} {l : LifeStep} {s : Server} {life : Life}
    (h : Gate es s) (he : ∀ c, longRead c e = none) (hget : l ≠ .getConn)
    (hnew : ∀ fresh, l ≠ .newConn fresh) (hs : s.life.step l = some life) :
    Gate (es ++ [e]) { s with life } := by
  obtain ⟨free, howns⟩ := h.owns
  rcases Life.step_cases howns hs with ⟨_, _, _, hl, -⟩ | ⟨hl, -⟩ | ⟨fresh, hl, -⟩ |
    ⟨c, r, -, hc, rfl, ho⟩ | ⟨c, r, ph, -, hc, -, ho, -, hopened, hhold⟩ | ⟨c, r, -, hc, rfl, ho⟩
  · exact absurd hl hget
  · exact absurd hl hget
  · exact absurd hl (hnew fresh)
  · exact gate_frame h he ⟨_, ho⟩ rfl (hold_of_enter hc (by simp))
  · refine gate_frame h he ⟨_, ho⟩ hopened fun hd => ?_
    rw [hhold] at hd
    exact ⟨_, (Life.hold_released hd).2, id⟩
  · exact gate_frame h he ⟨_, ho⟩ rfl (hold_of_enter hc (by simp))

/-- An opening that takes an unflagged record. -/
theorem gate_openConn {es : List ServerStep} {s s' : Server} {fresh : Ptr} {junk : Conn}
    {sfd : Int} {thread : Nat} (h : Gate es s) (hc : (s.nextRecord junk).isVerify = false)
    (hs : s.step (.openConn fresh junk sfd thread) = some s') :
    Gate (es ++ [.openConn fresh junk sfd thread]) s' := by
  have he : ∀ c, longRead c (.openConn fresh junk sfd thread) = none := fun _ => rfl
  obtain ⟨free, howns⟩ := h.owns
  simp only [Server.step] at hs
  split at hs
  · cases hs
  · next life hlife =>
    obtain ⟨p, hp, rfl⟩ := Option.map_eq_some_iff.mp hs
    obtain ⟨pool, records, r, rfl, free', ho⟩ := Life.openConn_cases howns hlife
    obtain rfl : (r, Phase.opening) = p := by simpa [Life.take] using hp
    have hnew : (s.life.take pool records r).hold s.life.opened = some (r, .opening) := hp
    -- a connection that is not the new one has another record, and had it before
    have hold : ∀ {c q ph}, c ≠ s.life.opened →
        (s.life.take pool records r).hold c = some (q, ph) →
        q ≠ r ∧ s.life.hold c = some (q, ph) := by
      intro c q ph hne hc
      refine ⟨?_, by simpa [Life.take, hne] using hc⟩
      rintro rfl
      exact hne (ho.hold_inj hc hnew)
    have hnone : firstLong es s.life.opened = none := h.fresh _ (Nat.le_refl _)
    refine ⟨⟨_, ho⟩, ?_, ?_, ?_⟩
    · intro c hc
      rw [firstLong_other (he c)]
      exact h.fresh c (Nat.le_of_succ_le hc)
    · intro c q ph hq
      rw [firstLong_other (he c)]
      by_cases hco : c = s.life.opened
      · subst hco
        obtain ⟨rfl, -⟩ : r = q ∧ _ := by simpa [Life.take] using hq
        simp [hnone, initNewConn, hc]
      · obtain ⟨hne, hq⟩ := hold hco hq
        simpa [hne] using h.flag hq
    · intro c q ph hq hph d hd
      rw [firstLong_other (he c)] at hd
      by_cases hco : c = s.life.opened
      · subst hco
        rw [hnone] at hd
        cases hd
      · exact h.token (hold hco hq).2 hph d hd

/-- After a change of phase, another connection has another record. -/
theorem hold_enter_cases {s : Life} {free : List Ptr} (h : s.Owns free) {c : Nat} {r : Ptr}
    {ph ph' : Phase} (hc : s.hold c = some (r, ph)) {d : Nat} {q : Ptr} {qh : Phase}
    (hd : (s.enter c r ph').hold d = some (q, qh)) :
    (d = c ∧ q = r ∧ qh = ph') ∨ (d ≠ c ∧ q ≠ r ∧ s.hold d = some (q, qh)) := by
  rcases Life.hold_enter hd with hsame | ⟨hdc, hd'⟩
  · exact .inl hsame
  · refine .inr ⟨hdc, ?_, hd'⟩
    rintro rfl
    exact hdc (h.hold_inj hd' hc)

/-- What a read does: the record of the connection is written, and the connection
may be closing. -/
theorem step_read {s s' : Server} {free : List Ptr} (h : s.life.Owns free) {c : Nat}
    {peer : InAddr} {data : Bytes} (hs : s.step (.read c peer data) = some s') :
    ∃ r ph, s.life.hold c = some (r, .attached) ∧ (s.life.enter c r ph).Owns free ∧
      s' = ⟨s.life.enter c r ph,
        Function.update s.heap r (startRoutine (s.heap r) peer data).conn⟩ ∧
      ((startRoutine (s.heap r) peer data).closed = true → ph = .closing) := by
  simp only [Server.step] at hs
  split at hs
  rotate_left
  · cases hs
  · next r hc =>
    split at hs
    · obtain ⟨life, hlife, rfl⟩ := Option.map_eq_some_iff.mp hs
      have hl : s.life.step (.closeConn c) = some (s.life.enter c r .closing) := by
        simp [Life.step, hc]
      rw [hl] at hlife
      cases hlife
      exact ⟨r, .closing, hc, h.enter hc _, rfl, fun _ => rfl⟩
    · next hopen =>
      cases hs
      have hsame : s.life.enter c r .attached = s.life := by
        simp [Life.enter, ← hc, Function.update_eq_self]
      exact ⟨r, .attached, hc, h.enter hc _, by rw [hsame], fun hclosed => absurd hclosed hopen⟩

/-- The flag after the callback: a long read sets it, a short one leaves it. -/
theorem isVerify_startRoutine (conn : Conn) (peer : InAddr) (data : Bytes) :
    (startRoutine conn peer data).conn.isVerify =
      (conn.isVerify || decide (TOKEN_LENGTH ≤ data.length)) := by
  rcases startRoutine_cases conn peer data with ⟨hv, hconn, -⟩ | ⟨hv, hshort, hconn, -⟩ |
    ⟨hv, hlen, hconn, -⟩
  · simp [hconn, hv]
  · simp [hconn, Nat.not_le.mpr hshort]
  · simp [hconn, hlen]

/-- An unverified connection that is not closed at a long read has sent the token. -/
theorem hasToken_of_open {conn : Conn} {peer : InAddr} {data : Bytes} (hv : conn.isVerify = false)
    (hlen : TOKEN_LENGTH ≤ data.length) (hopen : (startRoutine conn peer data).closed ≠ true) :
    HasToken data := by
  rcases startRoutine_cases conn peer data with ⟨hv', -⟩ | ⟨-, hshort, -⟩ |
    ⟨-, -, -, ⟨htok, -⟩ | ⟨-, hclosed, -⟩⟩
  · rw [hv] at hv'
    cases hv'
  · exact absurd hlen (Nat.not_le.mpr hshort)
  · exact htok
  · exact absurd hclosed hopen

/-- A read, from what the token test does to the record and to the connection. -/
theorem gate_read {es : List ServerStep} {s s' : Server} {c : Nat} {peer : InAddr} {data : Bytes}
    (h : Gate es s) (hs : s.step (.read c peer data) = some s') :
    Gate (es ++ [.read c peer data]) s' := by
  obtain ⟨free, howns⟩ := h.owns
  obtain ⟨r, ph, hc, ho, rfl, hph⟩ := step_read howns hs
  have hother : ∀ d, d ≠ c → longRead d (.read c peer data) = none := fun d hd => by
    simp [longRead, hd.symm]
  have hread : longRead c (.read c peer data) =
      if TOKEN_LENGTH ≤ data.length then some data else none := by simp [longRead]
  have hflag := h.flag hc
  refine ⟨⟨_, ho⟩, ?_, ?_, ?_⟩
  · intro d hd
    have hdc : d ≠ c := fun hdc => absurd (howns.hold_lt hc) (Nat.not_lt.mpr (hdc ▸ hd))
    rw [firstLong_other (hother d hdc)]
    exact h.fresh d hd
  · intro d q qh hd
    rcases hold_enter_cases howns hc hd with ⟨rfl, rfl, -⟩ | ⟨hdc, hqr, hd⟩
    · rw [firstLong_snoc, hread, Option.isSome_or, ← hflag]
      simp only [Function.update_self, isVerify_startRoutine]
      split <;> simp_all
    · rw [firstLong_other (hother d hdc)]
      simpa [hqr] using h.flag hd
  · intro d q qh hd hqh t ht
    rcases hold_enter_cases howns hc hd with ⟨rfl, rfl, rfl⟩ | ⟨hdc, -, hd⟩
    · rw [firstLong_snoc, hread] at ht
      cases hfl : firstLong es d with
      | some t' =>
        rw [hfl] at ht
        cases ht
        exact h.token hc (by simp) _ hfl
      | none =>
        rw [hfl, Option.none_or] at ht
        rw [hfl] at hflag
        split at ht
        · next hlen =>
          cases ht
          exact hasToken_of_open hflag hlen fun hclosed => hqh (hph hclosed)
        · cases ht
    · rw [firstLong_other (hother d hdc)] at ht
      exact h.token hd hqh t ht

theorem gate_init : Gate [] Server.init where
  owns := ⟨[], Life.Owns.init⟩
  fresh _ _ := rfl
  flag h := by cases h
  token h := by cases h

end TokenGateLemmas

open TokenGateLemmas

theorem step_gate {es : List ServerStep} {s s' : Server} {e : ServerStep} (h : Gate es s)
    (hc : TakesUnflagged s e) (hs : s.step e = some s') : Gate (es ++ [e]) s' := by
  cases e with
  | openConn fresh junk sfd thread => exact gate_openConn h hc hs
  | read c peer data => exact gate_read h hs
  | socketNew c ok =>
    obtain ⟨life, hlife, rfl⟩ := Option.map_eq_some_iff.mp hs
    exact gate_life h (fun _ => rfl) (by simp) (by simp) hlife
  | error c =>
    obtain ⟨life, hlife, rfl⟩ := Option.map_eq_some_iff.mp hs
    exact gate_life h (fun _ => rfl) (by simp) (by simp) hlife
  | addConn c =>
    obtain ⟨life, hlife, rfl⟩ := Option.map_eq_some_iff.mp hs
    exact gate_life h (fun _ => rfl) (by simp) (by simp) hlife

/-! ## 2. Every run -/

/-- The token gate holds in every run whose openings all take records with
`isVerify` false. -/
theorem gateHolds_of_unflagged {es : List ServerStep}
    (hc : Machine.Along Server.step TakesUnflagged Server.init es) : GateHolds es := by
  rintro pre post c peer data s res rfl hr hres
  have hgate : Gate pre s := by
    have h := Machine.run_history (fun h s e s' hg hu hs => step_gate hg hu hs) gate_init
      (Machine.along_append hc hr).1 hr
    rwa [List.nil_append] at h
  unfold Server.result at hres
  split at hres
  rotate_left
  · cases hres
  · next r hhold =>
    cases hres
    have hflag := hgate.flag hhold
    have htoken := hgate.token hhold (by simp)
    rw [firstLong_snoc]
    rcases startRoutine_cases (s.heap r) peer data with ⟨hv, -⟩ | ⟨hv, hshort, -, -, hnot⟩ |
      ⟨hv, hlen, -, hcases⟩
    · rw [hv] at hflag
      obtain ⟨d, hd⟩ := Option.isSome_iff_exists.mp hflag.symm
      refine ⟨fun _ => ⟨d, by rw [hd]; rfl, htoken d hd⟩, fun hnone => ?_⟩
      rw [hd] at hnone
      cases hnone
    · exact ⟨fun hacts => absurd hacts hnot, fun _ hlen => absurd hlen (Nat.not_le.mpr hshort)⟩
    · have hnone : firstLong pre c = none := by
        rw [hv] at hflag
        exact Option.isSome_eq_false_iff.mp hflag.symm |> Option.isNone_iff_eq_none.mp
      rcases hcases with ⟨htok, -⟩ | ⟨htok, hclosed, hnot⟩
      · exact ⟨fun _ => ⟨data, by simp [hnone, longRead, hlen], htok⟩,
          fun _ _ hbad => absurd htok hbad⟩
      · exact ⟨fun hacts => absurd hacts hnot, fun _ _ _ => ⟨hclosed, hnot⟩⟩

/-- A first client leaves without a word, and the second one gets its record, with the
flag as it was, and logs in. A third one is turned away meanwhile. -/
def goodRun : List ServerStep :=
  [.openConn 8 ⟨0, 0, 0, false, 0⟩ 5 0, .socketNew 0 true, .error 0, .addConn 0,
    .openConn 16 ⟨0, 0, 0, true, 0⟩ 6 1, .openConn 16 ⟨0, 0, 0, false, 0⟩ 5 0, .socketNew 2 true,
    .socketNew 1 true, .read 2 ⟨127, 0, 0, 2⟩ (xorKey (ascii "xxxxx")),
    .read 1 ⟨127, 0, 0, 1⟩ (xorKey (ascii "123452   bob   pw   \r\n"))]

theorem gateHolds_of_unflagged_goodRun :
    (Machine.run Server.step Server.init goodRun).isSome ∧ GateHolds goodRun :=
  ⟨by decide +kernel, gateHolds_of_unflagged (by decide +kernel)⟩

/-! ## 3. A recycled record -/

/-- A first client is turned away. The second one gets its record and sends a
login behind a wrong token. -/
def recycledRun : List ServerStep :=
  [.openConn 8 ⟨0, 0, 0, false, 0⟩ 5 0, .socketNew 0 true,
    .read 0 ⟨127, 0, 0, 1⟩ (xorKey (ascii "xxxxx")), .addConn 0,
    .openConn 16 ⟨0, 0, 0, false, 0⟩ 6 0, .socketNew 1 true,
    .read 1 ⟨127, 0, 0, 1⟩ (xorKey (ascii "xxxxx2   bob   pw   \r\n"))]

theorem recycled_gate_open :
    (Machine.run Server.step Server.init recycledRun).isSome ∧ ¬ GateHolds recycledRun := by
  refine ⟨by decide +kernel, fun h => ?_⟩
  have hrun : (Machine.run Server.step Server.init recycledRun.dropLast).map
      (·.result 1 ⟨127, 0, 0, 1⟩ (xorKey (ascii "xxxxx2   bob   pw   \r\n"))) =
      some (some ⟨⟨6, 0, 0, true, 0⟩, false,
        [.request { command := SELECT, name := ascii "bob", passwd := ascii "pw" }]⟩) := by
    decide +kernel
  obtain ⟨s, hs, hres⟩ := Option.map_eq_some_iff.mp hrun
  obtain ⟨d, hd, htok⟩ := (h recycledRun.dropLast [] _ _ _ s _ rfl hs hres).1
    ⟨fun _ => .noResult, by decide⟩
  have hfirst : firstLong recycledRun 1 = some (xorKey (ascii "xxxxx2   bob   pw   \r\n")) := by
    decide +kernel
  obtain rfl := Option.some.inj (hfirst.symm.trans hd)
  exact absurd htok (by decide +kernel)

end SundayServer
