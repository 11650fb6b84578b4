import SundayServer.StartRoutine

/-!
# Message framing across reads

`start_routine` parses each read on its own: what a read leaves after its last
CRLF is dropped, and the next read starts afresh. A read without three spaces is
not parsed at all. This file compares what is parsed and executed for one byte
stream under different cuts into reads.

* `textsOf`, `runTexts`: the messages that one callback parses, and that successive
  callbacks of a connection do.
* `runReads`: the requests that these callbacks execute.
* `IsCut`: a way of cutting a stream into reads of at most `BUFSIZE` bytes.
* `CutOk`: cuts that lose nothing.

Results:
1. `runTexts_eq_iff`: the messages parsed are those of the stream exactly for
   cuts that lose nothing.
2. `framing_iff`: so two cuts agree, with each other and with the messages of the
   stream. All cuts of a stream do exactly when there is no CRLF in it.
-/

namespace SundayServer

/-! ## Definitions -/

/-- The elements of `vec_str`: the messages of a read that the loop goes over. -/
def textsOf (strRecv : Bytes) : List Bytes :=
  if findCRLF strRecv && findSPACE strRecv then splitData strRecv CRLF [] else []

/-- The messages that the callbacks of a verified connection parse, in order. -/
def runTexts (cs : List Bytes) : List Bytes := cs.flatMap fun data => textsOf (xorKey data)

/-- The requests among the messages of a read. -/
def requestsOf (ms : List Message) : List Request :=
  ms.filterMap fun
    | .request r => some r
    | .malformed => none

/-- The requests executed by the callbacks of one connection, in order. -/
def runReads (peer : InAddr) : Conn → List Bytes → List Request
  | _, [] => []
  | conn, data :: rest =>
    let r := startRoutine conn peer data
    requestsOf r.messages ++ if r.closed then [] else runReads peer r.conn rest

/-- `cs` cuts the stream into reads of at most `BUFSIZE` bytes. -/
def IsCut (stream : Bytes) (cs : List Bytes) : Prop :=
  cs.flatten = stream ∧ ∀ c ∈ cs, c.length ≤ BUFSIZE

instance (stream : Bytes) (cs : List Bytes) : Decidable (IsCut stream cs) :=
  inferInstanceAs (Decidable (_ ∧ _))

/-- The CRLF-terminated messages of a stream. -/
def streamTexts (stream : Bytes) : List Bytes := splitData (xorKey stream) CRLF []

/-- The two cuts execute the same requests, and each of them parses every
CRLF-terminated message of the stream once and in order, and nothing else. -/
def FramingHolds (peer : InAddr) (conn : Conn) (stream : Bytes) (cs cs' : List Bytes) : Prop :=
  runReads peer conn cs = runReads peer conn cs' ∧
    runTexts cs = streamTexts stream ∧ runTexts cs' = streamTexts stream

/-- A decoded read and what is read after it: a CRLF in the read comes with three
spaces, and no message is open at the end of the read that a later one closes. -/
def ReadOk (strRecv later : Bytes) : Prop :=
  (findCRLF strRecv → findSPACE strRecv) ∧
    (strRecv = [] ∨ CRLF <:+ strRecv ∨
      ¬ CRLF <:+: strRecv.drop (strRecv.length - 1) ++ later)

/-- All reads of a cut are such, with those after them. -/
def CutOk : List Bytes → Prop
  | [] => True
  | data :: rest => ReadOk (xorKey data) (xorKey rest.flatten) ∧ CutOk rest

/-! ## What one read parses -/

namespace FramingLemmas

theorem messagesOf_texts (peer : InAddr) (strRecv : Bytes) :
    messagesOf peer strRecv = (textsOf strRecv).map (parseMessage peer) := by
  unfold messagesOf textsOf
  split <;> rfl

theorem requestsOf_append (ms ns : List Message) :
    requestsOf (ms ++ ns) = requestsOf ms ++ requestsOf ns := by
  simp [requestsOf]

/-- The split of a text at CRLF. -/
theorem exists_splits (s : Bytes) : ∃ r, Split.Splits CRLF s (splitData s CRLF []) r := by
  obtain ⟨ts, r, hts, hsplit⟩ := splitData_splits CRLF_ne_nil s []
  exact ⟨r, by rwa [hts, List.nil_append]⟩

theorem splitData_of_splits {s r : Bytes} {ts : List Bytes} (h : Split.Splits CRLF s ts r) :
    splitData s CRLF [] = ts := by
  rw [splitData_eq CRLF_ne_nil h, List.nil_append]

theorem splitData_eq_nil_iff {s : Bytes} : splitData s CRLF [] = [] ↔ ¬ CRLF <:+: s := by
  constructor
  · intro hnil
    obtain ⟨r, hsplit⟩ := exists_splits s
    rw [hnil] at hsplit
    cases hsplit with
    | rest h => exact h
  · intro h
    exact splitData_of_splits (.rest h)

theorem textsOf_cases (s : Bytes) :
    textsOf s = splitData s CRLF [] ∨ textsOf s = [] := by
  unfold textsOf
  split
  · exact .inl rfl
  · exact .inr rfl

theorem textsOf_eq_iff {s : Bytes} :
    textsOf s = splitData s CRLF [] ↔ (findCRLF s → findSPACE s) := by
  unfold textsOf
  by_cases hcrlf : findCRLF s = true
  · by_cases hspace : findSPACE s = true
    · simp [hcrlf, hspace]
    · -- the messages of such a read are skipped
      have hne : splitData s CRLF [] ≠ [] := fun hnil =>
        splitData_eq_nil_iff.mp hnil (findCRLF_iff.mp hcrlf)
      simp [hcrlf, hspace, hne.symm]
  · have hnil := splitData_eq_nil_iff.mpr fun hin => hcrlf (findCRLF_iff.mpr hin)
    simp [hcrlf, hnil]

/-! ## What the reads lose -/

/-- The bytes of some messages, with their CRLFs. -/
def size (ts : List Bytes) : Nat := (ts.map (· ++ CRLF)).flatten.length

theorem size_append (ts us : List Bytes) : size (ts ++ us) = size ts + size us := by
  simp [size]

theorem size_eq_zero {ts : List Bytes} (h : size ts = 0) : ts = [] := by
  cases ts with
  | nil => rfl
  | cons t ts => simp [size, CRLF] at h

theorem size_textsOf_le (s : Bytes) : size (textsOf s) ≤ size (splitData s CRLF []) := by
  rcases textsOf_cases s with h | h
  · rw [h]
  · rw [h]
    exact Nat.zero_le _

theorem size_add_rest {s r : Bytes} {ts : List Bytes} (h : Split.Splits CRLF s ts r) :
    size ts + r.length = s.length := by
  rw [← h.join, List.length_append, size]

/-- What stands in front of a text does not change what its last CRLF leaves over. -/
theorem rest_of_append {u s r r' t : Bytes} {ts us : List Bytes}
    (h : Split.Splits CRLF s (t :: ts) r) (h' : Split.Splits CRLF (u ++ s) us r') : r' = r := by
  obtain ⟨w, hfront⟩ := exists_splits (u ++ ((t :: ts).map (· ++ CRLF)).flatten)
  obtain rfl : w = [] := by
    refine hfront.rest_nil crlf_borderless ?_
    obtain ⟨init, v, hv⟩ : ∃ init v, t :: ts = init ++ [v] :=
      (List.eq_nil_or_concat' (t :: ts)).resolve_left (List.cons_ne_nil t ts)
    refine ⟨u ++ (init.map (· ++ CRLF)).flatten ++ v, ?_⟩
    simp [hv]
  have hwhole := hfront.append (.rest h.not_infix_rest)
  rw [List.append_assoc, h.join] at hwhole
  exact (h'.unique hwhole).2

/-- Bytes that are put in front of a text, and lost with the message they begin. -/
theorem size_le_append (r b : Bytes) :
    size (splitData b CRLF []) ≤ size (splitData (r ++ b) CRLF []) ∧
      (size (splitData b CRLF []) = size (splitData (r ++ b) CRLF []) →
        r = [] ∨ ¬ CRLF <:+: r ++ b) := by
  obtain ⟨w, hb⟩ := exists_splits b
  obtain ⟨w', hrb⟩ := exists_splits (r ++ b)
  have hlen := size_add_rest hb
  have hlen' := size_add_rest hrb
  cases hts : splitData b CRLF [] with
  | nil =>
    refine ⟨Nat.zero_le _, fun heq => .inr (splitData_eq_nil_iff.mp (size_eq_zero heq.symm))⟩
  | cons t ts =>
    rw [hts] at hb hlen
    rw [rest_of_append hb hrb, List.length_append] at hlen'
    refine ⟨by omega, fun heq => .inl (List.length_eq_zero_iff.mp ?_)⟩
    omega

theorem last_of_splits {s init : Bytes} {x : UInt8} {ts : List Bytes}
    (h : Split.Splits CRLF s ts (init ++ [x])) : s.drop (s.length - 1) = [x] := by
  have hlast : ∀ u : Bytes, (u ++ [x]).drop ((u ++ [x]).length - 1) = [x] := by simp
  rw [← h.join, ← List.append_assoc, hlast]

/-- What a read leaves over is lost, unless no CRLF follows. -/
theorem leftover_iff {s r later : Bytes} {ts : List Bytes} (h : Split.Splits CRLF s ts r) :
    (s = [] ∨ CRLF <:+ s ∨ ¬ CRLF <:+: s.drop (s.length - 1) ++ later) ↔
      r = [] ∨ ¬ CRLF <:+: r ++ later := by
  constructor
  · rintro (rfl | hend | hno)
    · exact .inl (List.append_eq_nil_iff.mp h.join).2
    · exact .inl (h.rest_nil crlf_borderless hend)
    · rcases List.eq_nil_or_concat' r with hr | ⟨init, x, rfl⟩
      · exact .inl hr
      · right
        rw [last_of_splits h] at hno
        rw [List.append_assoc]
        intro hin
        rcases Split.pair_infix_append_cons hin with hin | hin
        · exact h.not_infix_rest hin
        · exact hno hin
  · intro hr
    rcases List.eq_nil_or_concat' r with rfl | ⟨init, x, rfl⟩
    · rcases List.eq_nil_or_concat' ts with rfl | ⟨us, t, rfl⟩
      · exact .inl h.join.symm
      · exact .inr (.inl ⟨(us.map (· ++ CRLF)).flatten ++ t, by simpa using h.join⟩)
    · right
      right
      have hno := hr.resolve_left (by simp)
      rw [List.append_assoc] at hno
      rw [last_of_splits h]
      exact fun hin => hno (hin.trans (List.suffix_append _ _).isInfix)

/-- One read: its messages are all parsed, and those after it are what they would be
without what it leaves over. -/
theorem readOk_iff {s r later : Bytes} (h : Split.Splits CRLF s (splitData s CRLF []) r) :
    ReadOk s later ↔ textsOf s = splitData s CRLF [] ∧ (r = [] ∨ ¬ CRLF <:+: r ++ later) := by
  rw [ReadOk, leftover_iff h, textsOf_eq_iff]

theorem splitData_append {s r : Bytes} (h : Split.Splits CRLF s (splitData s CRLF []) r)
    (later : Bytes) :
    splitData (s ++ later) CRLF [] = splitData s CRLF [] ++ splitData (r ++ later) CRLF [] := by
  obtain ⟨r', hrest⟩ := exists_splits (r ++ later)
  exact splitData_of_splits (h.extend hrest)

theorem size_runTexts_le (cs : List Bytes) :
    size (runTexts cs) ≤ size (streamTexts cs.flatten) := by
  induction cs with
  | nil => exact Nat.zero_le _
  | cons data rest ih =>
    obtain ⟨r, hsplit⟩ := exists_splits (xorKey data)
    have hread := size_textsOf_le (xorKey data)
    have hlater := (size_le_append r (xorKey rest.flatten)).1
    have hcons : runTexts (data :: rest) = textsOf (xorKey data) ++ runTexts rest := rfl
    rw [streamTexts, List.flatten_cons, xorKey_append, splitData_append hsplit, hcons,
      size_append, size_append]
    rw [streamTexts] at ih
    omega

end FramingLemmas

open FramingLemmas

/-! ## 1. One cut -/

/-- Every message of a stream is parsed once and in order exactly for the cuts that
lose nothing. -/
theorem runTexts_eq_iff (cs : List Bytes) : runTexts cs = streamTexts cs.flatten ↔ CutOk cs := by
  induction cs with
  | nil => exact iff_of_true rfl trivial
  | cons data rest ih =>
    obtain ⟨r, hsplit⟩ := exists_splits (xorKey data)
    have hcons : runTexts (data :: rest) = textsOf (xorKey data) ++ runTexts rest := rfl
    have hstream : streamTexts (data :: rest).flatten = splitData (xorKey data) CRLF [] ++
        splitData (r ++ xorKey rest.flatten) CRLF [] := by
      rw [streamTexts, List.flatten_cons, xorKey_append, splitData_append hsplit]
    rw [CutOk, readOk_iff hsplit, ← ih, hcons, hstream]
    have hlater : r = [] ∨ ¬ CRLF <:+: r ++ xorKey rest.flatten →
        splitData (r ++ xorKey rest.flatten) CRLF [] = streamTexts rest.flatten := by
      rintro (rfl | hno)
      · rfl
      · have hno' : ¬ CRLF <:+: xorKey rest.flatten := fun hin =>
          hno (hin.trans (List.suffix_append _ _).isInfix)
        rw [streamTexts, splitData_eq_nil_iff.mpr hno, splitData_eq_nil_iff.mpr hno']
    constructor
    · intro heq
      -- no part may be shorter than its share of the stream, so none is
      have hsize := congrArg size heq
      rw [size_append, size_append] at hsize
      have hread := size_textsOf_le (xorKey data)
      have hrest := size_runTexts_le rest
      obtain ⟨hle, htight⟩ := size_le_append r (xorKey rest.flatten)
      rw [streamTexts] at hrest
      have hfirst : textsOf (xorKey data) = splitData (xorKey data) CRLF [] := by
        rcases textsOf_cases (xorKey data) with h | h
        · exact h
        · rw [h] at hsize ⊢
          have hzero : size ([] : List Bytes) = 0 := rfl
          exact (size_eq_zero (by omega)).symm
      have hr := htight (by omega)
      rw [hfirst, hlater hr] at heq
      exact ⟨⟨hfirst, hr⟩, List.append_cancel_left heq⟩
    · rintro ⟨⟨hfirst, hr⟩, hrest⟩
      rw [hfirst, hlater hr, hrest]

/-- On a verified connection the callbacks execute the requests among these messages. -/
theorem runReads_verified {peer : InAddr} {conn : Conn} (hv : conn.isVerify = true)
    (cs : List Bytes) :
    runReads peer conn cs = requestsOf ((runTexts cs).map (parseMessage peer)) := by
  induction cs with
  | nil => rfl
  | cons data rest ih =>
    have hcons : runTexts (data :: rest) = textsOf (xorKey data) ++ runTexts rest := rfl
    simp [runReads, startRoutine_verified hv, messagesOf_texts, ih, hcons, requestsOf_append]

/-! ## 2. All cuts -/

namespace FramingLemmas

theorem framingHolds_iff {peer : InAddr} {conn : Conn} (hv : conn.isVerify = true)
    {stream : Bytes} {cs cs' : List Bytes} (hcut : IsCut stream cs) (hcut' : IsCut stream cs') :
    FramingHolds peer conn stream cs cs' ↔ CutOk cs ∧ CutOk cs' := by
  rw [← runTexts_eq_iff, ← runTexts_eq_iff, hcut.1, hcut'.1]
  refine ⟨And.right, fun h => ⟨?_, h⟩⟩
  rw [runReads_verified hv, runReads_verified hv, h.1, h.2]

theorem cutOk_of_no_crlf {cs : List Bytes} (h : ¬ CRLF <:+: xorKey cs.flatten) : CutOk cs := by
  induction cs with
  | nil => trivial
  | cons data rest ih =>
    rw [List.flatten_cons, xorKey_append] at h
    refine ⟨⟨fun hcrlf => ?_, .inr (.inr fun hin => h (hin.trans ?_))⟩, ih fun hin => h ?_⟩
    · exact absurd ((findCRLF_iff.mp hcrlf).trans (List.prefix_append _ _).isInfix) h
    · obtain ⟨front, hfront⟩ := List.drop_suffix ((xorKey data).length - 1) (xorKey data)
      exact ⟨front, [], by rw [← List.append_assoc, hfront, List.append_nil]⟩
    · exact hin.trans (List.suffix_append _ _).isInfix

theorem isCut_bytes (s : Bytes) : IsCut s (s.map fun b => [b]) := by
  refine ⟨by induction s <;> simp_all, fun c hc => ?_⟩
  obtain ⟨b, -, rfl⟩ := List.mem_map.mp hc
  simp [BUFSIZE]

/-- One byte at a time nothing is parsed. -/
theorem runTexts_bytes (s : Bytes) : runTexts (s.map fun b => [b]) = [] := by
  refine List.flatMap_eq_nil_iff.mpr fun c hc => ?_
  obtain ⟨b, -, rfl⟩ := List.mem_map.mp hc
  rcases textsOf_cases (xorKey [b]) with h | h
  · rw [h, splitData_eq_nil_iff]
    intro hin
    exact absurd hin.length_le (by simp [CRLF])
  · exact h

end FramingLemmas

/-- For every stream and every two cuts of it, the requests executed agree and every
message is parsed once, exactly when neither cut loses anything. So all cuts of a
stream agree exactly when there is no CRLF in it. -/
theorem framing_iff {peer : InAddr} {conn : Conn} (hv : conn.isVerify = true) (stream : Bytes) :
    (∀ cs cs', IsCut stream cs → IsCut stream cs' →
      (FramingHolds peer conn stream cs cs' ↔ CutOk cs ∧ CutOk cs')) ∧
    ((∀ cs cs', IsCut stream cs → IsCut stream cs' → FramingHolds peer conn stream cs cs') ↔
      ¬ CRLF <:+: xorKey stream) := by
  refine ⟨fun cs cs' hcut hcut' => framingHolds_iff hv hcut hcut', fun hall => ?_, fun hno => ?_⟩
  · obtain ⟨-, hbytes, -⟩ := hall _ _ (isCut_bytes stream) (isCut_bytes stream)
    rw [runTexts_bytes] at hbytes
    exact splitData_eq_nil_iff.mp hbytes.symm
  · rintro cs cs' hcut hcut'
    refine (framingHolds_iff hv hcut hcut').mpr ⟨cutOk_of_no_crlf ?_, cutOk_of_no_crlf ?_⟩
    · rwa [hcut.1]
    · rwa [hcut'.1]

/-- A login of `bob`, cut after the command in the second run. -/
def bobLogin : Bytes := xorKey (ascii "123452   bob   pw   \r\n")

theorem framing_iff_bobLogin :
    (FramingHolds ⟨127, 0, 0, 1⟩ ⟨7, 0, 0, true, 0⟩ bobLogin [bobLogin]
        [bobLogin.take 6, bobLogin.drop 6] ↔
      CutOk [bobLogin] ∧ CutOk [bobLogin.take 6, bobLogin.drop 6]) ∧
    ((∀ cs cs', IsCut bobLogin cs → IsCut bobLogin cs' →
        FramingHolds ⟨127, 0, 0, 1⟩ ⟨7, 0, 0, true, 0⟩ bobLogin cs cs') ↔
      ¬ CRLF <:+: xorKey bobLogin) := by
  have h := @framing_iff ⟨127, 0, 0, 1⟩ ⟨7, 0, 0, true, 0⟩ rfl bobLogin
  exact ⟨h.1 _ _ (by decide +kernel) (by decide +kernel), h.2⟩

/-- The two cuts of `bobLogin` execute one request and none. A message of one field is
parsed beside it, and not on its own. -/
theorem framing_depends_on_cut :
    IsCut bobLogin [bobLogin] ∧ IsCut bobLogin [bobLogin.take 6, bobLogin.drop 6] ∧
    runReads ⟨127, 0, 0, 1⟩ ⟨7, 0, 0, true, 0⟩ [bobLogin] =
      [{ command := SELECT, name := ascii "bob", passwd := ascii "pw" }] ∧
    runReads ⟨127, 0, 0, 1⟩ ⟨7, 0, 0, true, 0⟩ [bobLogin.take 6, bobLogin.drop 6] = [] ∧
    ¬ FramingHolds ⟨127, 0, 0, 1⟩ ⟨7, 0, 0, true, 0⟩ bobLogin [bobLogin]
      [bobLogin.take 6, bobLogin.drop 6] ∧
    runTexts [xorKey (ascii "12345noise\r\n") ++ bobLogin] =
      [ascii "12345noise", ascii "123452   bob   pw   "] ∧
    runTexts [xorKey (ascii "12345noise\r\n"), bobLogin] = [ascii "123452   bob   pw   "] := by
  refine ⟨by decide +kernel, by decide +kernel, by decide +kernel, by decide +kernel, ?_,
    by decide +kernel, by decide +kernel⟩
  rintro ⟨hruns, -⟩
  revert hruns
  decide +kernel

end SundayServer
