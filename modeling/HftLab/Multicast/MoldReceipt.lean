/-
  HftLab.Multicast.MoldReceipt — what a consumer has got when a datagram was parsed.

  `mold_parse_packet` tells the tracker of the messages that the header announces before it looks at the blocks, delivers block by
  block, and passes over a block that is too short for a message. A datagram that is cut off behind its header therefore moves the
  expected number over messages that nobody got (`truncated_overstated`); `receipt_iff` says which datagrams are taken in right.
-/

import HftLab.Multicast.Mold

namespace HftLab.Multicast

open Lib List

/-- What the caller may conclude: nothing happened, or all messages came. -/
structure Receipt (buf : List UInt8) (t : SequenceTracker) : Prop where
  rejected : (moldParsePacket buf (some t)).ret = -1 →
    (moldParsePacket buf (some t)).delivered = [] ∧ (moldParsePacket buf (some t)).tracker = some t
  accepted : 0 < (moldParsePacket buf (some t)).ret →
    ((moldParsePacket buf (some t)).delivered.length : Int) = (moldParsePacket buf (some t)).ret
  /-- The expected number moves only over messages that were delivered or that the packet found missing. -/
  advanced : ∀ t', (moldParsePacket buf (some t)).tracker = some t' → t'.expectedSeq ≠ t.expectedSeq →
    ∃ h, (moldParsePacket buf (some t)).header = some h ∧ (moldParsePacket buf (some t)).delivered.length = h.count

/-- `n` blocks are there, each long enough for a message. -/
def Blocks : Nat → List UInt8 → Prop
  | 0, _ => True
  | n + 1, l => 2 ≤ l.length ∧ 40 ≤ readU16Be l ∧ 2 + readU16Be l ≤ l.length ∧ Blocks n (l.drop (2 + readU16Be l))

/-- The datagram has no header, or announces no messages, or has all the blocks that it announces. -/
def Whole (buf : List UInt8) : Prop := ∀ h, moldReadHeader buf = some h → ¬h.IsControl → Blocks h.messageCount.toNat (buf.drop 20)

variable {buf : List UInt8} {t : SequenceTracker}

/-- Every block counts for at most one message, and a block of `Blocks` for one. -/
theorem parseBlocks_delivered (buf : List UInt8) (n off : Nat) :
    (parseBlocks buf n off).2.length ≤ n ∧
    ((parseBlocks buf n off).1 = true ∧ (parseBlocks buf n off).2.length = n ↔ Blocks n (buf.drop off)) := by
  induction n generalizing off with
  | zero => exact ⟨Nat.le_refl _, iff_of_true ⟨rfl, rfl⟩ trivial⟩
  | succ n ih =>
    have hlength : (buf.drop off).length = buf.length - off := length_drop
    unfold parseBlocks Blocks
    rw [hlength]
    by_cases hcut : buf.length < off + 2
    · rw [if_pos hcut]
      exact ⟨Nat.zero_le _, iff_of_false (by simp) (by omega)⟩
    · rw [if_neg hcut]
      generalize readU16Be (buf.drop off) = mlen
      by_cases hshort : buf.length < off + 2 + mlen
      · rw [if_pos hshort]
        exact ⟨Nat.zero_le _, iff_of_false (by simp) (by omega)⟩
      · obtain ⟨hle, hiff⟩ := ih (off + 2 + mlen)
        have hdrop : (buf.drop off).drop (2 + mlen) = buf.drop (off + 2 + mlen) := by rw [drop_drop, Nat.add_assoc]
        rw [if_neg hshort, hdrop]
        by_cases hmessage : mcMsgSize ≤ mlen
        · have hsome : ∃ msg, deserialize (buf.drop (off + 2)) mlen = some msg := ⟨_, if_neg (by omega)⟩
          obtain ⟨msg, hmsg⟩ := hsome
          have h40 : 40 ≤ mlen := hmessage
          rw [if_pos hmessage, hmsg]
          simp only [Option.toList_some, singleton_append, length_cons, Nat.add_right_cancel_iff, hiff]
          refine ⟨by omega, ?_⟩
          constructor
          · intro h
            exact ⟨by omega, h40, by omega, h⟩
          · intro h
            exact h.2.2.2
        · have h40 : ¬40 ≤ mlen := hmessage
          rw [if_neg hmessage]
          simp only [Option.toList_none, nil_append]
          refine ⟨by omega, iff_of_false (fun h => ?_) (by omega)⟩
          have := h.2
          omega

/-- A packet with messages always leaves its mark on the tracker. -/
theorem observePacket_ne (t : SequenceTracker) (seq : Nat) {n : Nat} (hn : 1 ≤ n) : (t.observePacket seq n).2 ≠ t := by
  intro heq
  have hreceived := congrArg SequenceTracker.received heq
  have hgaps := congrArg SequenceTracker.gaps heq
  have hduplicates := congrArg SequenceTracker.duplicates heq
  unfold SequenceTracker.observePacket at hreceived hgaps hduplicates
  split at hreceived
  · dsimp only at hreceived
    omega
  · rename_i h1
    rw [if_neg h1] at hgaps hduplicates
    split at hreceived
    · dsimp only at hreceived
      omega
    · rename_i h2
      rw [if_neg h2] at hgaps hduplicates
      split at hreceived
      · rename_i h3
        rw [if_pos h3] at hgaps
        dsimp only at hgaps
        omega
      · rename_i h3
        rw [if_neg h3] at hduplicates
        dsimp only at hduplicates
        split at hduplicates
        · dsimp only at hduplicates
          omega
        · dsimp only at hduplicates
          omega

theorem parse_unread (h : moldReadHeader buf = none) (t : SequenceTracker) :
    moldParsePacket buf (some t) = { ret := -1, header := none, tracker := some t, delivered := [] } := by
  unfold moldParsePacket
  rw [h]

theorem parse_control {h : MoldUDP64Header} (hread : moldReadHeader buf = some h) (hc : h.IsControl) (t : SequenceTracker) :
    moldParsePacket buf (some t) =
      { ret := 0, header := some h, tracker := some (t.observePacket h.sequence.toNat 0).2, delivered := [] } := by
  have hcount : h.count = 0 := if_pos hc
  unfold moldParsePacket
  rw [hread]
  dsimp only
  rw [if_pos hc, hcount]
  rfl

theorem parse_data {h : MoldUDP64Header} (hread : moldReadHeader buf = some h) (hc : ¬h.IsControl) (t : SequenceTracker) :
    moldParsePacket buf (some t) =
      { ret := if (parseBlocks buf h.messageCount.toNat 20).1 then h.messageCount.toNat else -1
        header := some h
        tracker := some (t.observePacket h.sequence.toNat h.messageCount.toNat).2
        delivered := (parseBlocks buf h.messageCount.toNat 20).2 } := by
  have hcount : h.count = h.messageCount.toNat := if_neg hc
  unfold moldParsePacket
  rw [hread]
  dsimp only
  rw [if_neg hc, hcount]
  rfl

/-- For every datagram and every state of the tracker. -/
theorem receipt_iff (buf : List UInt8) (t : SequenceTracker) : Receipt buf t ↔ Whole buf := by
  cases hread : moldReadHeader buf with
  | none =>
    have hparse := parse_unread hread t
    refine iff_of_true ⟨fun _ => ?_, fun hpos => ?_, fun t' ht' hne => ?_⟩ fun h hh => ?_
    · rw [hparse]
      exact ⟨rfl, rfl⟩
    · rw [hparse] at hpos
      dsimp only at hpos
      omega
    · rw [hparse] at ht'
      cases ht'
      exact absurd rfl hne
    · rw [hread] at hh
      cases hh
  | some h =>
    by_cases hc : h.IsControl
    · have hparse := parse_control hread hc t
      refine iff_of_true ⟨fun hret => ?_, fun hpos => ?_, fun _ _ _ => ?_⟩ fun h' hh hn => ?_
      · rw [hparse] at hret
        dsimp only at hret
        omega
      · rw [hparse] at hpos
        dsimp only at hpos
        omega
      · rw [hparse]
        exact ⟨h, rfl, (if_pos hc).symm⟩
      · rw [hread] at hh
        cases hh
        exact absurd hc hn
    · have hparse := parse_data hread hc t
      obtain ⟨hle, hiff⟩ := parseBlocks_delivered buf h.messageCount.toNat 20
      have hpos : 1 ≤ h.messageCount.toNat := by
        have hne : h.messageCount ≠ 0 := fun h0 => hc (.inl h0)
        rw [ne_eq, ← UInt16.toNat_inj] at hne
        exact Nat.pos_of_ne_zero hne
      have hwhole : Whole buf ↔ Blocks h.messageCount.toNat (buf.drop 20) := by
        constructor
        · intro hw
          exact hw h hread hc
        · intro hb h' hh _
          rw [hread] at hh
          cases hh
          exact hb
      rw [hwhole, ← hiff]
      constructor
      · intro hr
        have hrejected := hr.rejected
        have haccepted := hr.accepted
        rw [hparse] at hrejected haccepted
        dsimp only at hrejected haccepted
        cases hok : (parseBlocks buf h.messageCount.toNat 20).1 with
        | false =>
          rw [hok] at hrejected
          -- the tracker has already counted the messages
          obtain ⟨-, htracker⟩ := hrejected (if_neg Bool.false_ne_true)
          exact absurd (Option.some.inj htracker) (observePacket_ne t _ hpos)
        | true =>
          rw [hok, if_pos rfl] at haccepted
          exact ⟨rfl, Int.ofNat.inj (haccepted (Int.natCast_pos.mpr hpos))⟩
      · intro hall
        obtain ⟨hok, hlength⟩ := hall
        rw [hok, if_pos rfl] at hparse
        refine ⟨fun hret => ?_, fun _ => ?_, fun _ _ _ => ?_⟩
        · rw [hparse] at hret
          dsimp only at hret
          omega
        · rw [hparse]
          exact congrArg Int.ofNat hlength
        · rw [hparse]
          exact ⟨h, rfl, hlength.trans (if_neg hc).symm⟩

/-- Two messages from 5 on are announced, and the datagram is cut off after the first. -/
def sampleTruncated : List UInt8 :=
  [83, 49, 32, 32, 32, 32, 32, 32, 32, 32] ++ [0, 0, 0, 0, 0, 0, 0, 5] ++ [0, 2] ++ [0, 40] ++ List.replicate 40 0

/-- One message was delivered, and the tracker expects 7 next. -/
theorem truncated_overstated :
    ¬Receipt sampleTruncated { expectedSeq := 5, received := 4, initialized := true } ∧
    (moldParsePacket sampleTruncated (some { expectedSeq := 5, received := 4, initialized := true })).ret = -1 ∧
    (moldParsePacket sampleTruncated (some { expectedSeq := 5, received := 4, initialized := true })).delivered.length = 1 ∧
    ((moldParsePacket sampleTruncated (some { expectedSeq := 5, received := 4, initialized := true })).tracker.map (·.expectedSeq)) =
      some 7 := by
  refine ⟨fun h => ?_, by decide +kernel, by decide +kernel, by decide +kernel⟩
  have hnone : (moldParsePacket sampleTruncated (some { expectedSeq := 5, received := 4, initialized := true })).delivered = [] :=
    (h.rejected (by decide +kernel)).1
  exact absurd (congrArg List.length hnone) (by decide +kernel)

end HftLab.Multicast
