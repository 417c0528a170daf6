/-
  HftLab.Ouch.Packets — one packet on the wire, and what `consume` leaves of a stream.

  `pack_data` writes a packet that `parse_packet` reads back, unless the payload has 65535 bytes or more (`framed_iff`). `consume`
  stops where no whole packet is left. `parse_packet` says the same of a packet that is not all there and of one with the
  length 0, which more bytes do not complete, so the session goes on unless it meets such a header (`drains_iff`).
-/

import HftLab.Ouch.Reassembly

namespace HftLab.Ouch

open Lib List

variable {cap : Nat} {payload l : List UInt8} {clientSide : Bool}

/-! ## pack_data -/

/-- The packet of `pack_data`. -/
def sentData (payload : List UInt8) (clientSide : Bool) : ParsedPacket :=
  { type := if clientSide then .unsequencedData else .sequencedData, payload, valid := true }

/-- Nothing is written and 0 returned, or what is written is one packet, whatever comes behind it. -/
def Framed (cap : Nat) (payload : List UInt8) (clientSide : Bool) : Prop :=
  let m := packData cap payload clientSide
  m = refused ∨
    m.length ≠ 0 ∧ m.length ≤ cap ∧
      ∀ buf rest, (m.message buf).length = m.length ∧ parsePacket (m.message buf ++ rest) = (sentData payload clientSide, m.length)

theorem packData_refused (clientSide : Bool) (h : cap < 3 + payload.length) :
    packData cap payload clientSide = refused := if_pos h

/-- There is room for the packet. -/
theorem packData_room (clientSide : Bool) (h : 3 + payload.length ≤ cap) (buf : List UInt8) :
    (packData cap payload clientSide).length = 3 + payload.length ∧
      (packData cap payload clientSide).message buf = frame (sentData payload clientSide).type payload := by
  have hroom : ¬cap < 3 + payload.length := by omega
  constructor
  · unfold packData headerSize
    rw [if_neg hroom]
  · rw [PackCall.packData_message]
    unfold PackCall.dataPacket
    rw [if_neg hroom]
    rfl

/-- A packet that `nextPacket` finds is the one that `parse_packet` returns. -/
theorem parsePacket_of_next {r : ParsedPacket × Nat} (h : nextPacket l = some r) : parsePacket l = r :=
  (nextPacket_eq_some h).2.2.2.symm

theorem parsePacket_frame (clientSide : Bool) (h : payload.length < 65535) (rest : List UInt8) :
    parsePacket (frame (sentData payload clientSide).type payload ++ rest) = (sentData payload clientSide, 3 + payload.length) := by
  have hnext := parsePacket_of_next (@nextPacket_frame payload (sentData payload clientSide).type h rest)
  rw [frame_length] at hnext
  rw [hnext]
  cases clientSide <;> rfl

theorem framed_of_short (hroom : 3 + payload.length ≤ cap) (h : payload.length < 65535) : Framed cap payload clientSide := by
  have hlen := (packData_room clientSide hroom []).1
  refine .inr ⟨by omega, by omega, fun buf rest => ?_⟩
  have hmsg := (packData_room clientSide hroom buf).2
  rw [hmsg, hlen]
  exact ⟨frame_length _ _, parsePacket_frame clientSide h rest⟩

/-- What is read back of a payload whose length two bytes cannot say is not the payload. -/
theorem not_framed (hroom : 3 + payload.length ≤ cap) (h : 65535 ≤ payload.length) : ¬Framed cap payload clientSide := by
  intro hframed
  obtain ⟨hlen, hmsg⟩ := packData_room clientSide hroom []
  rcases hframed with hzero | ⟨-, -, hread⟩
  · rw [hzero] at hlen
    have hlen : 0 = 3 + payload.length := hlen
    omega
  · have hparse := (hread [] []).2
    rw [hmsg] at hparse
    have hnext : nextPacket (frame (sentData payload clientSide).type payload ++ []) =
        some (sentData payload clientSide, (packData cap payload clientSide).length) := by
      unfold nextPacket
      rw [hparse]
      rfl
    exact nextPacket_long h hnext rfl

theorem framed_iff (cap : Nat) (payload : List UInt8) (clientSide : Bool) :
    Framed cap payload clientSide ↔ cap < 3 + payload.length ∨ payload.length < 65535 := by
  constructor
  · intro h
    by_contra hlong
    push Not at hlong
    exact not_framed hlong.1 hlong.2 h
  · intro h
    by_cases hroom : cap < 3 + payload.length
    · exact .inl (packData_refused clientSide hroom)
    · exact framed_of_short (by omega) (h.resolve_left hroom)

/-- 65535 bytes: the length on the wire is 0. -/
theorem long_payload_unread : ¬Framed 65538 (List.replicate 65535 0) false := by
  apply not_framed <;> rw [List.length_replicate]

/-! ## A packet on the wire -/

theorem byte_of_char {b : UInt8} {c : Char} (h : Char.ofNat b.toNat = c) : b = c.toUInt8 := by
  have hlt := b.toNat_lt
  have hnat : c.toNat = b.toNat := by
    rw [← h]
    exact toNat_char b
  apply UInt8.toNat_inj.mp
  show b.toNat = c.val.toUInt8.toNat
  rw [UInt32.toNat_toUInt8]
  show b.toNat = c.toNat % 256
  omega

theorem toByte_ofByte (b : UInt8) : (PacketType.ofByte b).toByte = b := by
  unfold PacketType.ofByte
  split
  all_goals first
    | rfl
    | (rename_i h; exact (byte_of_char h).symm)

theorem writeU16Be_readU16Be (a b : UInt8) (l : List UInt8) : writeU16Be (readU16Be (a :: b :: l)) = [a, b] := by
  have ha := a.toNat_lt
  have hb := b.toNat_lt
  have hread : readU16Be (a :: b :: l) = 256 * a.toNat + b.toNat := by
    unfold readU16Be
    simp only [getD_cons_zero, getD_cons_succ]
    rw [shiftLeft_or]
    omega
  unfold writeU16Be
  rw [hread, Nat.shiftRight_eq_div_pow]
  have hhigh : UInt8.ofNat ((256 * a.toNat + b.toNat) / 2 ^ 8) = a := by
    apply UInt8.toNat_inj.mp
    rw [UInt8.toNat_ofNat']
    omega
  have hlow : UInt8.ofNat (256 * a.toNat + b.toNat) = b := by
    apply UInt8.toNat_inj.mp
    rw [UInt8.toNat_ofNat']
    omega
  rw [hhigh, hlow]

theorem readU16Be_lt (l : List UInt8) : readU16Be l < 65536 := by
  have ha := (l.getD 0 0).toNat_lt
  have hb := (l.getD 1 0).toNat_lt
  unfold readU16Be
  rw [shiftLeft_or]
  omega

/-- A packet of a stream is one that can be sent. -/
def ParsedPacket.Whole (p : ParsedPacket) : Prop := p.Sent ∧ p.payload.length < 65535

/-- The bytes that `parse_packet` took are those of the packet. -/
theorem nextPacket_split {p : ParsedPacket} {n : Nat} (h : nextPacket l = some (p, n)) :
    p.Whole ∧ l = frame p.type p.payload ++ l.drop n := by
  obtain ⟨hlen, hpos, hle, hp⟩ := nextPacket_eq_some h
  have hlt := readU16Be_lt l
  rw [parsePacket_of hlen hpos hle] at hp
  obtain ⟨rfl, rfl⟩ := Prod.mk.inj hp
  match l, hlen with
  | a :: b :: c :: l, _ =>
    have hrest : (a :: b :: c :: l).length = l.length + 3 := rfl
    have hpay : (slice (a :: b :: c :: l) 3 (readU16Be (a :: b :: c :: l) - 1)).length = readU16Be (a :: b :: c :: l) - 1 := by
      unfold slice
      rw [length_take, length_drop]
      omega
    have hbytes : writeU16Be (uint16 (1 + (readU16Be (a :: b :: c :: l) - 1))) = [a, b] := by
      rw [show 1 + (readU16Be (a :: b :: c :: l) - 1) = readU16Be (a :: b :: c :: l) by omega]
      unfold uint16
      rw [Nat.mod_eq_of_lt hlt]
      exact writeU16Be_readU16Be a b (c :: l)
    refine ⟨⟨⟨rfl, by rw [toByte_ofByte]⟩, by rw [hpay]; omega⟩, ?_⟩
    unfold frame
    rw [hpay, hbytes, toByte_ofByte]
    have hdrop : 2 + readU16Be (a :: b :: c :: l) = 3 + (readU16Be (a :: b :: c :: l) - 1) := by omega
    rw [hdrop, ← drop_drop]
    exact congrArg (a :: b :: c :: ·) (take_append_drop _ l).symm

/-- A stream is its packets and what is left of it. -/
theorem run_split (l : List UInt8) :
    (∀ p ∈ (packets.run l).1, p.Whole) ∧ l = ((packets.run l).1.flatMap fun p => frame p.type p.payload) ++ (packets.run l).2 := by
  induction l using Framer.run_induction (f := packets) with
  | hnone l h =>
    rw [Framer.run_none h]
    exact ⟨fun p hp => absurd hp not_mem_nil, rfl⟩
  | hsome l m n h ih =>
    obtain ⟨hwhole, hsplit⟩ := nextPacket_split h
    rw [Framer.run_some h]
    refine ⟨fun p hp => ?_, ?_⟩
    · rcases mem_cons.mp hp with rfl | hp
      · exact hwhole
      · exact ih.1 p hp
    · rw [flatMap_cons, append_assoc, ← ih.2]
      exact hsplit

/-- Packets one behind the other are read up to where they end. -/
theorem run_wholes {ps : List ParsedPacket} (h : ∀ p ∈ ps, p.Whole) (l : List UInt8) :
    packets.run ((ps.flatMap fun p => frame p.type p.payload) ++ l) = (ps ++ (packets.run l).1, (packets.run l).2) := by
  have hps := (run_frames_iff ps fun p hp => (h p hp).1).mpr fun p hp => (h p hp).2
  rw [Framer.run_append, hps, nil_append]

/-! ## What consume leaves -/

/-- A header that announces nothing, not even its type. -/
def Void (tail : List UInt8) : Prop := ∃ rest, tail = 0 :: 0 :: rest

/-- Fewer bytes than a header has, or the header of a packet that is not all there. -/
def Incomplete (tail : List UInt8) : Prop := tail.length < 3 ∨ 1 ≤ readU16Be tail ∧ tail.length < 2 + readU16Be tail

/-- The loop of `consume` comes to its end; what is left is at most the beginning of a packet, all of whose bytes get the
    session on; and there are bytes that get it on. -/
structure Drains (c : OuchSessionClient) (buf : List UInt8) : Prop where
  halts : ∀ fuel, buf.length ≤ fuel → consumeLoop OuchSessionClient.onPacket buf fuel 0 c = c.consume buf
  consumed : (c.consume buf).2 ≤ buf.length
  incomplete : Incomplete (buf.drop (c.consume buf).2)
  completes : 3 ≤ (buf.drop (c.consume buf).2).length → ∀ more,
    2 + readU16Be (buf.drop (c.consume buf).2) ≤ (buf.drop (c.consume buf).2 ++ more).length →
      0 < ((c.consume buf).1.consume (buf.drop (c.consume buf).2 ++ more)).2
  resumes : ∃ more, 0 < ((c.consume buf).1.consume (buf.drop (c.consume buf).2 ++ more)).2

/-- The stream has, behind whole packets, a header of length 0. -/
def MeetsVoid (buf : List UInt8) : Prop :=
  ∃ (ps : List ParsedPacket) (rest : List UInt8), (∀ p ∈ ps, p.Whole) ∧
    buf = (ps.flatMap fun p => frame p.type p.payload) ++ 0 :: 0 :: rest

theorem consume_halts (c : OuchSessionClient) (buf : List UInt8) {fuel : Nat} (h : buf.length ≤ fuel) :
    consumeLoop OuchSessionClient.onPacket buf fuel 0 c = c.consume buf := by
  unfold OuchSessionClient.consume consumeWith
  rw [consumeLoop_eq, consumeLoop_eq, Framer.loop_eq _ _ _ _ _ (by omega) (Nat.zero_le _),
    Framer.loop_eq _ _ _ _ _ (by omega) (Nat.zero_le _)]

theorem consume_tail (c : OuchSessionClient) (buf : List UInt8) : buf.drop (c.consume buf).2 = (packets.run buf).2 := by
  have hreads : c.consume buf = _ := consume_reads OuchSessionClient.onPacket c buf
  rw [hreads]
  exact Framer.drop_consumed buf

theorem consume_le (c : OuchSessionClient) (buf : List UInt8) : (c.consume buf).2 ≤ buf.length := by
  have hreads : c.consume buf = _ := consume_reads OuchSessionClient.onPacket c buf
  rw [hreads]
  exact Nat.sub_le _ _

/-- `consume` gets on exactly when there is a packet at the front. -/
theorem consume_pos_iff (c : OuchSessionClient) (l : List UInt8) : 0 < (c.consume l).2 ↔ (nextPacket l).isSome := by
  have hreads : c.consume l = _ := consume_reads OuchSessionClient.onPacket c l
  rw [hreads]
  cases hn : nextPacket l with
  | none =>
    have hrun : packets.run l = ([], l) := Framer.run_none hn
    rw [hrun]
    simp
  | some r =>
    obtain ⟨p, n⟩ := r
    have hpos : 0 < n := packets.pos hn
    have hle : n ≤ l.length := packets.le hn
    have hrun := Framer.run_some (f := packets) hn
    obtain ⟨k, hk, htail⟩ := Framer.exists_consumed (f := packets) (l.drop n)
    rw [hrun]
    rw [htail, length_drop, length_drop]
    simp only [Option.isSome_some, iff_true]
    omega

theorem readU16Be_eq_zero (hlen : 2 ≤ l.length) (h : readU16Be l = 0) : Void l := by
  match l, hlen with
  | a :: b :: l, _ =>
    have hbytes := writeU16Be_readU16Be a b l
    rw [h] at hbytes
    obtain ⟨rfl, hb⟩ := List.cons.inj hbytes
    obtain ⟨rfl, -⟩ := List.cons.inj hb
    exact ⟨l, rfl⟩

theorem nextPacket_void (h : Void l) : nextPacket l = none := by
  obtain ⟨rest, rfl⟩ := h
  cases hn : nextPacket (0 :: 0 :: rest) with
  | none => rfl
  | some r =>
    obtain ⟨-, hpos, -, -⟩ := nextPacket_eq_some hn
    have hzero : readU16Be (0 :: 0 :: rest) = 0 := by simp [readU16Be]
    omega

/-- With no header of length 0 at the front, nothing but the end of a packet is missing. -/
theorem incomplete_of_none (h : nextPacket l = none) (hvoid : ¬Void l) : Incomplete l := by
  by_cases hlen : l.length < 3
  · exact .inl hlen
  · have hpos : readU16Be l ≠ 0 := fun hz => hvoid (readU16Be_eq_zero (by omega) hz)
    refine .inr ⟨by omega, ?_⟩
    by_contra hle
    have hnext := nextPacket_of (l := l) (by omega) (by omega) (by omega)
    rw [h] at hnext
    cases hnext

/-- The rest of the packet. -/
theorem nextPacket_completed (hlen : 2 ≤ l.length) (hvoid : ¬Void l) {more : List UInt8}
    (hmore : 2 + readU16Be l ≤ (l ++ more).length) : (nextPacket (l ++ more)).isSome := by
  have hpos : readU16Be l ≠ 0 := fun hz => hvoid (readU16Be_eq_zero hlen hz)
  have hread := readU16Be_append hlen more
  rw [nextPacket_of (by omega) (by omega) (by omega)]
  rfl

theorem exists_completion (hvoid : ¬Void l) : ∃ more, (nextPacket (l ++ more)).isSome := by
  have hzeros : (List.replicate 65536 (0 : UInt8)).length = 65536 := length_replicate
  generalize List.replicate 65536 (0 : UInt8) = zeros at hzeros
  match l, hvoid with
  | [], _ => exact ⟨[0, 1, 0], rfl⟩
  | [a], _ =>
    have hnot : ¬Void [a, 1] := by
      intro h
      obtain ⟨rest, hrest⟩ := h
      cases hrest
    have hlt := readU16Be_lt [a, 1]
    have hlen : [a, 1].length = 2 := rfl
    refine ⟨1 :: zeros, nextPacket_completed (l := [a, 1]) (Nat.le_refl 2) hnot ?_⟩
    rw [length_append]
    omega
  | a :: b :: l, hvoid =>
    have hlt := readU16Be_lt (a :: b :: l)
    have hlen : (a :: b :: l).length = l.length + 2 := rfl
    refine ⟨zeros, nextPacket_completed (by omega) hvoid ?_⟩
    rw [length_append]
    omega

theorem meetsVoid_iff (buf : List UInt8) : MeetsVoid buf ↔ Void (packets.run buf).2 := by
  constructor
  · intro h
    obtain ⟨ps, rest, hps, rfl⟩ := h
    have hnone : packets.next (0 :: 0 :: rest) = none := nextPacket_void ⟨rest, rfl⟩
    rw [run_wholes hps, Framer.run_none hnone]
    exact ⟨rest, rfl⟩
  · intro h
    obtain ⟨hps, hsplit⟩ := run_split buf
    obtain ⟨rest, htail⟩ := h
    rw [htail] at hsplit
    exact ⟨_, rest, hps, hsplit⟩

/-- Behind a header of length 0 the session stands still, whatever arrives. -/
theorem stuck_of_meetsVoid (c : OuchSessionClient) {buf : List UInt8} (h : MeetsVoid buf) : ¬Drains c buf := by
  intro hdrains
  obtain ⟨more, hmore⟩ := hdrains.resumes
  rw [consume_tail, consume_pos_iff] at hmore
  obtain ⟨rest, hrest⟩ := (meetsVoid_iff buf).mp h
  have hnone : nextPacket ((packets.run buf).2 ++ more) = none := nextPacket_void ⟨rest ++ more, by rw [hrest]; rfl⟩
  rw [hnone] at hmore
  cases hmore

theorem drains_iff (c : OuchSessionClient) (buf : List UInt8) : Drains c buf ↔ ¬MeetsVoid buf := by
  constructor
  · intro h hvoid
    exact stuck_of_meetsVoid c hvoid h
  · intro h
    rw [meetsVoid_iff] at h
    have hnone : nextPacket (packets.run buf).2 = none := Framer.next_tail (f := packets) buf
    exact
      { halts := fun fuel hfuel => consume_halts c buf hfuel
        consumed := consume_le c buf
        incomplete := by
          rw [consume_tail]
          exact incomplete_of_none hnone h
        completes := fun hlen more hmore => by
          rw [consume_tail] at hlen hmore ⊢
          rw [consume_pos_iff]
          exact nextPacket_completed (by omega) h hmore
        resumes := by
          obtain ⟨more, hmore⟩ := exists_completion h
          refine ⟨more, ?_⟩
          rw [consume_tail, consume_pos_iff]
          exact hmore }

/-- Two zeros and any third byte. -/
theorem zero_length_stuck : ¬Drains {} [0, 0, 72] :=
  stuck_of_meetsVoid {} ⟨[], [72], fun _ hp => absurd hp List.not_mem_nil, rfl⟩

end HftLab.Ouch
