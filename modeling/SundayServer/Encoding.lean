import SundayServer.StartRoutine

/-!
# Requests encoded and parsed

A client writes a message as the token, every field followed by three spaces,
and a CRLF. `start_routine` splits what it reads at CRLF, drops the token of
each piece and splits the rest at three spaces. Neither side escapes.

* `encodeMessage`, `encodeStream`: what a client writes.
* `fieldLists`: the two-stage split of `start_routine`.
* `Unambiguous`: a field that both stages keep whole.

Results:
1. `decode_encode_iff`: which messages are read back.
2. `messagesOf_encode`: one read of such messages is handled message by message.
-/

namespace SundayServer

/-! ## Definitions -/

/-- A message without its CRLF. -/
def encodeMessage (fields : List Bytes) : Bytes := TOKEN_STR ++ fields.flatMap (· ++ SPACE3)

/-- Some messages, one after the other. -/
def encodeStream (ms : List (List Bytes)) : Bytes := ms.flatMap fun fields =>
  encodeMessage fields ++ CRLF

/-- The fields of each message of a text: `SplitData` at CRLF, `erase` of the
token, `SplitData` at three spaces. -/
def fieldLists (strRecv : Bytes) : List (List Bytes) :=
  (splitData strRecv CRLF []).map fun m => splitData (m.drop TOKEN_LENGTH) SPACE3 []

/-- No CRLF and no three spaces in the field, and no space at its end. -/
def Unambiguous (field : Bytes) : Prop :=
  ¬ CRLF <:+: field ∧ ¬ SPACE3 <:+: field ∧ field.getLast? ≠ some 0x20

instance (field : Bytes) : Decidable (Unambiguous field) :=
  inferInstanceAs (Decidable (_ ∧ _ ∧ _))

/-- The message with these fields. -/
def messageOf (peer : InAddr) : List Bytes → Message
  | [command, name, passwd, deviceId, p2pId, _] =>
    .request { command := atoi command, name, passwd, deviceId, p2pId, ip := inetNtoa peer }
  | [command, name, passwd] => .request { command := atoi command, name, passwd }
  | _ => .malformed

theorem parseMessage_eq (peer : InAddr) (m : Bytes) :
    parseMessage peer m = messageOf peer (splitData (m.drop TOKEN_LENGTH) SPACE3 []) := by
  unfold parseMessage messageOf
  rfl

/-! ## Fields -/

namespace EncodingLemmas

theorem firstAt_space3_iff {f : Bytes} :
    Split.FirstAt SPACE3 f ↔ ¬ SPACE3 <:+: f ∧ f.getLast? ≠ some 0x20 :=
  Split.firstAt_replicate_iff (a := 0x20) (n := 2)

theorem firstAt_crlf_iff {m : Bytes} : Split.FirstAt CRLF m ↔ ¬ CRLF <:+: m :=
  Split.firstAt_iff_of_borderless crlf_borderless CRLF_ne_nil

/-- A message has a CRLF exactly where a field has one. -/
theorem crlf_infix_encodeMessage {fields : List Bytes} :
    CRLF <:+: encodeMessage fields ↔ ∃ f ∈ fields, CRLF <:+: f := by
  have hspace : (0x20 : UInt8) ∉ CRLF := by decide
  have hfields : CRLF <:+: fields.flatMap (· ++ SPACE3) ↔ ∃ f ∈ fields, CRLF <:+: f := by
    induction fields with
    | nil => simp
    | cons f fs ih =>
      have hcons : (f :: fs).flatMap (· ++ SPACE3) =
          f ++ 0x20 :: ([] ++ 0x20 :: ([] ++ 0x20 :: fs.flatMap (· ++ SPACE3))) := by
        simp [SPACE3]
      rw [hcons, Split.infix_append_cons_iff hspace, Split.infix_append_cons_iff hspace,
        Split.infix_append_cons_iff hspace, ih]
      simp
  have htoken : encodeMessage fields = ascii "1234" ++ 0x35 :: fields.flatMap (· ++ SPACE3) := rfl
  have hdigit : (0x35 : UInt8) ∉ CRLF := by decide
  have hstart : ¬ CRLF <:+: ascii "1234" := by decide
  rw [htoken, Split.infix_append_cons_iff hdigit, hfields]
  simp [hstart]

theorem drop_encodeMessage (fields : List Bytes) :
    (encodeMessage fields).drop TOKEN_LENGTH = fields.flatMap (· ++ SPACE3) := rfl

/-- The fields of an encoded message are read back when each is cut off whole. -/
theorem splitData_encodeMessage {fields : List Bytes}
    (h : ∀ f ∈ fields, Split.FirstAt SPACE3 f) :
    splitData ((encodeMessage fields).drop TOKEN_LENGTH) SPACE3 [] = fields := by
  rw [drop_encodeMessage, splitData_eq SPACE3_ne_nil (.of_tokens SPACE3_ne_nil h),
    List.nil_append]

/-- What a split yields has been cut off whole. -/
theorem firstAt_of_splitData {s : Bytes} {fields : List Bytes}
    (h : splitData s SPACE3 [] = fields) : ∀ f ∈ fields, Split.FirstAt SPACE3 f := by
  obtain ⟨ts, r, hts, hsplit⟩ := splitData_splits SPACE3_ne_nil s []
  obtain rfl : ts = fields := by simpa using hts.symm.trans h
  exact fun f hf => hsplit.firstAt hf

/-- A piece that has the fields of a message is no shorter than the message. -/
theorem length_le_of_splitData {m : Bytes} {fields : List Bytes} (hne : fields ≠ [])
    (h : splitData (m.drop TOKEN_LENGTH) SPACE3 [] = fields) :
    (encodeMessage fields).length ≤ m.length := by
  obtain ⟨ts, r, hts, hsplit⟩ := splitData_splits SPACE3_ne_nil (m.drop TOKEN_LENGTH) []
  obtain rfl : ts = fields := by simpa using hts.symm.trans h
  have hlen : (ts.flatMap (· ++ SPACE3)).length + r.length = m.length - TOKEN_LENGTH := by
    rw [← List.length_append, List.flatMap_def, hsplit.join, List.length_drop]
  have hpos : 0 < (ts.flatMap (· ++ SPACE3)).length := by
    obtain ⟨t, ts, rfl⟩ := List.exists_cons_of_ne_nil hne
    rw [List.flatMap_cons, List.length_append, List.length_append, SPACE3]
    exact Nat.add_pos_left (Nat.add_pos_right _ (Nat.succ_pos 2)) _
  have htoken : TOKEN_STR.length = TOKEN_LENGTH := rfl
  rw [encodeMessage, List.length_append, htoken]
  omega

/-- Reading a text whose first message is cut off whole. -/
theorem fieldLists_append {m : Bytes} (hm : Split.FirstAt CRLF m) (s : Bytes) :
    fieldLists (m ++ CRLF ++ s) = splitData (m.drop TOKEN_LENGTH) SPACE3 [] :: fieldLists s := by
  obtain ⟨ts, r, hts, hsplit⟩ := splitData_splits CRLF_ne_nil s []
  rw [fieldLists, fieldLists, splitData_eq CRLF_ne_nil (.cut hm hsplit), hts]
  rfl

/-- A message whose fields are read back first has been cut off whole. -/
theorem firstAt_of_fieldLists {fields : List Bytes} {s : Bytes} {ms : List (List Bytes)}
    (h : fieldLists (encodeMessage fields ++ CRLF ++ s) = fields :: ms) :
    Split.FirstAt CRLF (encodeMessage fields) := by
  obtain ⟨ts, r, hts, hsplit⟩ := splitData_splits CRLF_ne_nil (encodeMessage fields ++ CRLF ++ s) []
  rw [fieldLists, hts, List.nil_append] at h
  generalize he : encodeMessage fields ++ CRLF ++ s = text at hsplit
  cases hsplit with
  | rest _ => cases h
  | @cut t u _ ts hfirst hrest =>
    obtain ⟨hfields, -⟩ := List.cons.inj h
    have hle : t.length ≤ (encodeMessage fields).length :=
      Split.Splits.firstAt_length_le hfirst he.symm
    by_cases hne : fields = []
    · subst hne
      exact firstAt_crlf_iff.mpr (by decide)
    · have hge := length_le_of_splitData hne hfields
      rw [List.append_assoc, List.append_assoc] at he
      obtain ⟨heq, -⟩ := List.append_inj he (Nat.le_antisymm hge hle)
      rw [heq]
      exact hfirst

theorem fieldLists_encodeStream {ms : List (List Bytes)}
    (h : ∀ fields ∈ ms, ∀ f ∈ fields, Unambiguous f) : fieldLists (encodeStream ms) = ms := by
  induction ms with
  | nil => simp [encodeStream, fieldLists, splitData, splitLoop, Split.find]
  | cons fields ms ih =>
    obtain ⟨hfields, hms⟩ := List.forall_mem_cons.mp h
    have hcons : encodeStream (fields :: ms) = encodeMessage fields ++ CRLF ++ encodeStream ms :=
      rfl
    have hfirst : Split.FirstAt CRLF (encodeMessage fields) := by
      rw [firstAt_crlf_iff, crlf_infix_encodeMessage]
      rintro ⟨f, hf, hcrlf⟩
      exact (hfields f hf).1 hcrlf
    rw [hcons, fieldLists_append hfirst, ih hms,
      splitData_encodeMessage fun f hf => firstAt_space3_iff.mpr (hfields f hf).2]

/-- Of messages that are read back, no field is ambiguous. -/
theorem unambiguous_of_fieldLists {ms : List (List Bytes)}
    (h : fieldLists (encodeStream ms) = ms) : ∀ fields ∈ ms, ∀ f ∈ fields, Unambiguous f := by
  induction ms with
  | nil => simp
  | cons fields ms ih =>
    have hcons : encodeStream (fields :: ms) = encodeMessage fields ++ CRLF ++ encodeStream ms :=
      rfl
    rw [hcons] at h
    -- the first piece has the fields of the first message, so no CRLF cuts it short
    have hfirst := firstAt_of_fieldLists h
    rw [fieldLists_append hfirst] at h
    obtain ⟨hfields, hms⟩ := List.cons.inj h
    refine List.forall_mem_cons.mpr ⟨fun f hf => ⟨?_, ?_⟩, ih hms⟩
    · exact fun hcrlf => firstAt_crlf_iff.mp hfirst (crlf_infix_encodeMessage.mpr ⟨f, hf, hcrlf⟩)
    · exact firstAt_space3_iff.mp (firstAt_of_splitData hfields f hf)

end EncodingLemmas

open EncodingLemmas

/-! ## 1. Messages -/

/-- Messages are read back, in order and with all their fields, exactly when
every field is unambiguous. -/
theorem decode_encode_iff (ms : List (List Bytes)) :
    fieldLists (encodeStream ms) = ms ↔
      ∀ fields ∈ ms, ∀ f ∈ fields, Unambiguous f :=
  ⟨unambiguous_of_fieldLists, fieldLists_encodeStream⟩

/-! ## 2. Reads -/

/-- A read of unambiguous messages is handled message by message. -/
theorem messagesOf_encode (peer : InAddr) {ms : List (List Bytes)}
    (hne : ∀ fields ∈ ms, fields ≠ [])
    (h : ∀ fields ∈ ms, ∀ f ∈ fields, Unambiguous f) :
    messagesOf peer (encodeStream ms) = ms.map (messageOf peer) := by
  have hread := fieldLists_encodeStream h
  cases ms with
  | nil => rfl
  | cons fields ms =>
    have hcons : encodeStream (fields :: ms) = encodeMessage fields ++ CRLF ++ encodeStream ms :=
      rfl
    have hcrlf : findCRLF (encodeStream (fields :: ms)) := by
      rw [findCRLF_iff, hcons, List.append_assoc]
      exact List.infix_append' _ _ _
    have hspace : findSPACE (encodeStream (fields :: ms)) := by
      obtain ⟨f, fs, rfl⟩ := List.exists_cons_of_ne_nil (hne fields (List.mem_cons_self ..))
      refine findSPACE_iff.mpr ⟨TOKEN_STR ++ f, fs.flatMap (· ++ SPACE3) ++ CRLF ++ encodeStream ms,
        ?_⟩
      simp only [hcons, encodeMessage, List.flatMap_cons, List.append_assoc]
    unfold messagesOf
    rw [hcrlf, hspace, Bool.and_self, if_pos rfl]
    conv_rhs => rw [← hread]
    rw [fieldLists, List.map_map]
    exact List.map_congr_left fun m _ => parseMessage_eq peer m

end SundayServer
