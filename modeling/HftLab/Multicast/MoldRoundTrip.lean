/-
  HftLab.Multicast.MoldRoundTrip — what `mold_serialize_packet` writes is what `mold_parse_packet` delivers.

  The writers lay their fields one behind the other, so a packet is its header and its blocks (`serialized_eq`), whatever was in the
  buffer; the reader meets each block where the writer left it (`parseBlocks_eq`).
-/

import HftLab.Multicast.Mold

namespace HftLab.Multicast

open Lib

variable {bytes : List UInt8}

/-! ## Numbers -/

theorem writeU16Be_eq (val : Nat) : writeU16Be val = beBytes 2 val := by
  simp [writeU16Be, beBytes, Nat.shiftRight_eq_div_pow]

theorem writeU32Be_eq (val : Nat) : writeU32Be val = beBytes 4 val := by
  simp [writeU32Be, beBytes, Nat.shiftRight_eq_div_pow]

theorem writeU64Be_eq (val : Nat) : writeU64Be val = beBytes 8 val := by
  simp [writeU64Be, beBytes, Nat.shiftRight_eq_div_pow]

theorem readU16Be_eq (buf : List UInt8) (h : slice buf 0 2 = bytes) (hlen : bytes.length = 2) : readU16Be buf = beNat bytes := by
  match bytes, hlen with
  | [a, b], _ =>
    match buf, h with
    | _ :: _ :: _, h =>
      cases h
      simp [readU16Be, byteAt, beNat, shiftLeft_or]

theorem readU32Be_eq (buf : List UInt8) (h : slice buf 0 4 = bytes) (hlen : bytes.length = 4) : readU32Be buf = beNat bytes := by
  match bytes, hlen with
  | [a, b, c, d], _ =>
    match buf, h with
    | _ :: _ :: _ :: _ :: _, h =>
      cases h
      refine (shiftLeft_four a.toNat b.toNat c.toNat d.toNat).trans ?_
      simp [shiftLeft_or, beNat]

theorem readU64Be_eq (buf : List UInt8) (h : slice buf 0 8 = bytes) (hlen : bytes.length = 8) : readU64Be buf = beNat bytes := by
  match bytes, hlen with
  | [a, b, c, d, e, f, g, k], _ =>
    match buf, h with
    | _ :: _ :: _ :: _ :: _ :: _ :: _ :: _ :: _, h =>
      cases h
      have hshift : a.toNat <<< 56 ||| b.toNat <<< 48 ||| c.toNat <<< 40 ||| d.toNat <<< 32 ||| e.toNat <<< 24 ||| f.toNat <<< 16 |||
          g.toNat <<< 8 ||| k.toNat =
          ((((((a.toNat <<< 8 ||| b.toNat) <<< 8 ||| c.toNat) <<< 8 ||| d.toNat) <<< 8 ||| e.toNat) <<< 8 ||| f.toNat) <<< 8 |||
            g.toNat) <<< 8 ||| k.toNat := by
        simp only [Nat.shiftLeft_or_distrib, ← Nat.shiftLeft_add]
      show a.toNat <<< 56 ||| b.toNat <<< 48 ||| c.toNat <<< 40 ||| d.toNat <<< 32 ||| e.toNat <<< 24 ||| f.toNat <<< 16 |||
        g.toNat <<< 8 ||| k.toNat = _
      rw [hshift]
      simp [shiftLeft_or, beNat]

@[simp] theorem writeU16Be_length (val : Nat) : (writeU16Be val).length = 2 := rfl

@[simp] theorem writeU32Be_length (val : Nat) : (writeU32Be val).length = 4 := rfl

@[simp] theorem writeU64Be_length (val : Nat) : (writeU64Be val).length = 8 := rfl

/-! ## Reading a field -/

section

variable {buf : List UInt8} {off : Nat}

theorem slice_drop (buf : List UInt8) (off n : Nat) : slice (buf.drop off) 0 n = slice buf off n := by
  simp [slice]

theorem read_u16 {val : Nat} (h : slice buf off 2 = writeU16Be val) (hval : val < 65536) : readU16Be (buf.drop off) = val := by
  rw [readU16Be_eq _ ((slice_drop ..).trans h) (writeU16Be_length val), writeU16Be_eq, beNat_beBytes hval]

theorem read_u32 {val : UInt32} (h : slice buf off 4 = writeU32Be val.toNat) : UInt32.ofNat (readU32Be (buf.drop off)) = val := by
  have hval : val.toNat < 256 ^ 4 := val.toNat_lt
  rw [readU32Be_eq _ ((slice_drop ..).trans h) (writeU32Be_length _), writeU32Be_eq, beNat_beBytes hval, UInt32.ofNat_toNat]

theorem read_u64 {val : UInt64} (h : slice buf off 8 = writeU64Be val.toNat) : UInt64.ofNat (readU64Be (buf.drop off)) = val := by
  have hval : val.toNat < 256 ^ 8 := val.toNat_lt
  rw [readU64Be_eq _ ((slice_drop ..).trans h) (writeU64Be_length _), writeU64Be_eq, beNat_beBytes hval, UInt64.ofNat_toNat]

theorem getElem?_slice (buf : List UInt8) (off : Nat) {n i : Nat} (h : i < n) : (slice buf off n)[i]? = buf[off + i]? := by
  unfold slice
  rw [List.getElem?_take_of_lt h, List.getElem?_drop]

theorem read_bytes {n : Nat} {v : Vector UInt8 n} (h : slice buf off n = v.toList) : readBytes buf off n = v := by
  refine Vector.ext fun i hi => ?_
  have hget : buf[off + i]? = some v[i] := by
    rw [← getElem?_slice buf off hi, h]
    simp [hi]
  simp only [readBytes, Vector.getElem_ofFn, List.getD_eq_getElem?_getD, hget, Option.getD_some]

theorem read_byte {b : UInt8} (h : slice buf off 1 = [b]) : buf.getD off 0 = b := by
  have hget := getElem?_slice buf off Nat.one_pos
  rw [h, Nat.add_zero] at hget
  rw [List.getD_eq_getElem?_getD, ← hget]
  rfl

end

/-! ## One message -/

variable {msg : MarketDataMessage} {msgs : List MarketDataMessage}

/-- The 40 bytes of a message. -/
def wire (msg : MarketDataMessage) : List UInt8 := fieldBytes (msg.fields 0)

theorem fields_adjacent (msg : MarketDataMessage) (off : Nat) : Adjacent off (msg.fields off) := by
  simp [Adjacent, MarketDataMessage.fields]

@[simp] theorem wire_length (msg : MarketDataMessage) : (wire msg).length = 40 := by
  simp [wire, fieldBytes, MarketDataMessage.fields]

theorem serialize_append (msg : MarketDataMessage) (pre buf : List UInt8) :
    serialize msg (pre ++ buf) pre.length = pre ++ wire msg ++ buf.drop 40 := by
  have hbytes : fieldBytes (msg.fields pre.length) = wire msg := rfl
  unfold serialize
  rw [putAll_append _ _ _ (fields_adjacent msg pre.length), hbytes, wire_length]

/-- A message is read as it was written. -/
theorem deserialize_wire (msg : MarketDataMessage) (rest : List UInt8) {len : Nat} (h : 40 ≤ len) :
    deserialize (wire msg ++ rest) len = some msg := by
  have hslice : ∀ (off : Nat) (bytes : List UInt8), (off, bytes) ∈ msg.fields 0 → off + bytes.length ≤ 40 →
      slice (wire msg ++ rest) off bytes.length = bytes := by
    intro off bytes hmem hle
    rw [slice_append (by rw [wire_length]; exact hle)]
    exact slice_eq (fields_adjacent msg 0) hmem rfl
  have hsequence := read_u64 (hslice 0 (writeU64Be msg.sequence.toNat) (by simp [MarketDataMessage.fields]) (by simp))
  have htimestamp := read_u64 (hslice 8 (writeU64Be msg.timestampNs.toNat) (by simp [MarketDataMessage.fields]) (by simp))
  have hsymbol : readBytes (wire msg ++ rest) 16 8 = msg.symbol := by
    refine read_bytes ?_
    have := hslice 16 msg.symbol.toList (by simp [MarketDataMessage.fields]) (by simp)
    simpa using this
  have hprice := read_u64 (hslice 24 (writeU64Be msg.price.toUInt64.toNat) (by simp [MarketDataMessage.fields]) (by simp))
  have hquantity := read_u32 (hslice 32 (writeU32Be msg.quantity.toNat) (by simp [MarketDataMessage.fields]) (by simp))
  have hside := read_byte (hslice 36 [msg.side] (by simp [MarketDataMessage.fields]) (by simp))
  have htype := read_byte (hslice 37 [msg.msgType] (by simp [MarketDataMessage.fields]) (by simp))
  unfold deserialize
  rw [if_neg (by simp [mcMsgSize]; omega), hsequence, htimestamp, hsymbol, hprice, hquantity, hside, htype]
  rfl

/-! ## The blocks -/

def block (msg : MarketDataMessage) : List UInt8 := writeU16Be mcMsgSize ++ wire msg

@[simp] theorem block_length (msg : MarketDataMessage) : (block msg).length = 42 := by
  simp [block]

theorem writeBlock_append (msg : MarketDataMessage) (pre buf : List UInt8) :
    writeBlock (pre.length, pre ++ buf) msg = ((pre ++ block msg).length, pre ++ block msg ++ buf.drop 42) := by
  have hlength : (pre ++ writeU16Be mcMsgSize).length = pre.length + 2 := by simp
  unfold writeBlock
  dsimp only
  rw [put_append, ← hlength, serialize_append]
  simp [block, mcMsgSize]

theorem writeBlocks_append (msgs : List MarketDataMessage) (pre buf : List UInt8) :
    ∃ rest, msgs.foldl writeBlock (pre.length, pre ++ buf) = ((pre ++ msgs.flatMap block).length, pre ++ msgs.flatMap block ++ rest) := by
  induction msgs generalizing pre buf with
  | nil => exact ⟨buf, by simp⟩
  | cons msg msgs ih =>
    obtain ⟨rest, hrest⟩ := ih (pre ++ block msg) (buf.drop 42)
    refine ⟨rest, ?_⟩
    rw [List.foldl_cons, writeBlock_append, hrest, List.flatMap_cons, List.append_assoc]

/-- The loop delivers the messages of the blocks that follow `pre`. -/
theorem parseBlocks_eq (msgs : List MarketDataMessage) (pre rest : List UInt8) :
    parseBlocks (pre ++ msgs.flatMap block ++ rest) msgs.length pre.length = (true, msgs) := by
  induction msgs generalizing pre with
  | nil => rfl
  | cons msg msgs ih =>
    have hbuf : pre ++ (msg :: msgs).flatMap block ++ rest = pre ++ block msg ++ msgs.flatMap block ++ rest := by simp
    have hlong : pre.length + 42 ≤ (pre ++ block msg ++ msgs.flatMap block ++ rest).length := by
      simp
    have hdrop : (pre ++ block msg ++ msgs.flatMap block ++ rest).drop pre.length = block msg ++ (msgs.flatMap block ++ rest) := by simp
    have hmlen : readU16Be ((pre ++ block msg ++ msgs.flatMap block ++ rest).drop pre.length) = mcMsgSize :=
      read_u16 (by rw [← slice_drop, hdrop]; rfl) (by decide)
    have hwire : (pre ++ block msg ++ msgs.flatMap block ++ rest).drop (pre.length + 2) = wire msg ++ (msgs.flatMap block ++ rest) := by
      rw [← List.drop_drop, hdrop]
      rfl
    have hnext := ih (pre ++ block msg)
    rw [List.length_append, block_length] at hnext
    rw [hbuf, List.length_cons]
    unfold parseBlocks
    rw [if_neg (by omega)]
    rw [hmlen, if_neg (by simp only [mcMsgSize]; omega), hwire, if_pos (Nat.le_refl _), deserialize_wire msg _ (by decide)]
    simp only [mcMsgSize, Nat.add_assoc, hnext]
    rfl

/-! ## The datagram -/

variable {session : List UInt8} {firstSeq : UInt64} {count : UInt16} {cap : Nat}

/-- The datagram of `msgs`. -/
def packet (session : List UInt8) (firstSeq : UInt64) (count : UInt16) (msgs : List MarketDataMessage) : List UInt8 :=
  fieldBytes (headerFields session firstSeq count) ++ msgs.flatMap block

theorem header_adjacent (session : List UInt8) (seq : UInt64) (count : UInt16) : Adjacent 0 (headerFields session seq count) := by
  simp [Adjacent, headerFields, moldSessionLen]

@[simp] theorem header_length (session : List UInt8) (seq : UInt64) (count : UInt16) :
    (fieldBytes (headerFields session seq count)).length = 20 := by
  simp [fieldBytes, headerFields, moldSessionLen]

/-- Whatever was in the buffer, the packet stands at its front. -/
theorem serialized_eq (buf : List UInt8) (hcount : count.toNat = msgs.length) (hcap : 20 + msgs.length * 42 ≤ cap) :
    let w := moldSerializePacket buf cap session firstSeq msgs count
    w.2.take w.1 = packet session firstSeq count msgs := by
  have hheader : moldWriteHeader buf session firstSeq count = fieldBytes (headerFields session firstSeq count) ++ buf.drop 20 := by
    have := putAll_append _ [] buf (header_adjacent session firstSeq count)
    rw [header_length] at this
    exact this
  obtain ⟨rest, hrest⟩ := writeBlocks_append msgs (fieldBytes (headerFields session firstSeq count)) (buf.drop 20)
  rw [header_length] at hrest
  unfold moldSerializePacket
  rw [if_neg (by simp only [moldHeaderSize, mcMsgSize]; omega), hcount, List.take_length, hheader]
  simp only [moldHeaderSize]
  rw [hrest]
  exact List.take_left' rfl

/-- The header that the reader finds. -/
theorem moldReadHeader_packet (session : List UInt8) (firstSeq : UInt64) (count : UInt16) (msgs : List MarketDataMessage) :
    ∃ h, moldReadHeader (packet session firstSeq count msgs) = some h ∧ h.session.toList = pad 32 10 (cString session) ∧
      h.sequence = firstSeq ∧ h.messageCount = count := by
  have hslice : ∀ (off : Nat) (bytes : List UInt8), (off, bytes) ∈ headerFields session firstSeq count → off + bytes.length ≤ 20 →
      slice (packet session firstSeq count msgs) off bytes.length = bytes := by
    intro off bytes hmem hle
    unfold packet
    rw [slice_append (by rw [header_length]; exact hle)]
    exact slice_eq (header_adjacent session firstSeq count) hmem rfl
  have hsequence := read_u64 (hslice 10 (writeU64Be firstSeq.toNat) (by simp [headerFields]) (by simp))
  have hcount : readU16Be ((packet session firstSeq count msgs).drop 18) = count.toNat :=
    read_u16 (hslice 18 (writeU16Be count.toNat) (by simp [headerFields]) (by simp)) count.toNat_lt
  have hsession : readBytes (packet session firstSeq count msgs) 0 10 = ⟨⟨pad 32 10 (cString session)⟩, by simp⟩ := by
    refine read_bytes ?_
    have := hslice 0 (pad 32 10 (cString session)) (by simp [headerFields, moldSessionLen]) (by simp)
    rw [pad_length] at this
    exact this
  unfold moldReadHeader
  rw [if_neg (by simp [packet, moldHeaderSize])]
  refine ⟨_, rfl, ?_, hsequence, ?_⟩
  · exact congrArg Vector.toList hsession
  · exact (congrArg UInt16.ofNat hcount).trans UInt16.ofNat_toNat

/-- Over every session, first number and list of messages that a count can stand for; an empty list is a heartbeat. -/
theorem mold_round_trip (buf session : List UInt8) (cap : Nat) (firstSeq : UInt64) (msgs : List MarketDataMessage)
    (hcount : msgs.length ≤ 65534) (hfits : firstSeq.toNat + msgs.length < 2 ^ 64) (hcap : 20 + msgs.length * 42 ≤ cap) :
    let w := moldSerializePacket buf cap session firstSeq msgs (UInt16.ofNat msgs.length)
    let r := moldParsePacket (w.2.take w.1) (some {})
    r.ret = msgs.length ∧ r.delivered = msgs ∧
    (∃ t, r.tracker = some t ∧ t.expectedSeq = firstSeq.toNat + msgs.length ∧ t.received = msgs.length) ∧
    ∃ h, r.header = some h ∧ h.session.toList = pad 32 10 (cString session) ∧ h.sequence = firstSeq := by
  have htoNat : (UInt16.ofNat msgs.length).toNat = msgs.length := UInt16.toNat_ofNat_of_lt' (Nat.lt_of_le_of_lt hcount (by decide))
  intro w r
  obtain ⟨h, hread, hsession, hsequence, hmessages⟩ := moldReadHeader_packet session firstSeq (UInt16.ofNat msgs.length) msgs
  have hbytes : w.2.take w.1 = packet session firstSeq (UInt16.ofNat msgs.length) msgs := serialized_eq buf htoNat hcap
  have hcontrol : h.IsControl ↔ msgs.length = 0 := by
    unfold MoldUDP64Header.IsControl
    rw [hmessages, ← UInt16.toNat_inj, ← UInt16.toNat_inj, htoNat]
    have h0 : moldHeartbeat.toNat = 0 := rfl
    have h1 : moldEndOfSession.toNat = 65535 := rfl
    omega
  have heffective : h.count = msgs.length := by
    unfold MoldUDP64Header.count
    rw [hmessages, htoNat]
    split
    · exact (hcontrol.mp ‹_›).symm
    · rfl
  have htracker : ((SequenceTracker.observePacket {} firstSeq.toNat msgs.length).2).expectedSeq = firstSeq.toNat + msgs.length ∧
      ((SequenceTracker.observePacket {} firstSeq.toNat msgs.length).2).received = msgs.length :=
    ⟨uint64_eq hfits, Nat.zero_add _⟩
  have hr : r = moldParsePacket (packet session firstSeq (UInt16.ofNat msgs.length) msgs) (some {}) := by
    rw [← hbytes]
  unfold moldParsePacket at hr
  rw [hread] at hr
  dsimp only [Option.map_some] at hr
  rw [hsequence, heffective] at hr
  by_cases hempty : msgs.length = 0
  · have hnil : msgs = [] := List.length_eq_zero_iff.mp hempty
    rw [if_pos (hcontrol.mpr hempty)] at hr
    rw [hr]
    exact ⟨by simp [hempty], hnil.symm, ⟨_, rfl, htracker⟩, h, rfl, hsession, hsequence⟩
  · have hparse : parseBlocks (packet session firstSeq (UInt16.ofNat msgs.length) msgs) msgs.length 20 = (true, msgs) := by
      have := parseBlocks_eq msgs (fieldBytes (headerFields session firstSeq (UInt16.ofNat msgs.length))) []
      rw [header_length, List.append_nil] at this
      exact this
    rw [if_neg fun hc => hempty (hcontrol.mp hc), hmessages, htoNat] at hr
    simp only [moldHeaderSize, hparse, if_true] at hr
    rw [hr]
    exact ⟨rfl, rfl, ⟨_, rfl, htracker⟩, h, rfl, hsession, hsequence⟩

def sampleMessage : MarketDataMessage where
  sequence := 7
  timestampNs := 1
  symbol := #v[65, 65, 80, 76, 32, 32, 32, 32]
  price := -15000
  quantity := 100
  side := 66
  msgType := 65

theorem mold_round_trip_sample :
    let w := moldSerializePacket [] 104 [83, 49] 7 [sampleMessage, sampleMessage] 2
    (moldParsePacket (w.2.take w.1) (some {})).delivered = [sampleMessage, sampleMessage] :=
  (mold_round_trip [] [83, 49] 104 7 [sampleMessage, sampleMessage] (by decide) (by decide) (by decide)).2.1

end HftLab.Multicast
