/-
  HftLab.Feed.WsRoundTrip — what a client makes of the frames that another one sent (ws_client.hpp).

  `Carries` is the stream to come, however it is cut, and `Reads` the outcome of a reader in front of it: its value, and the stream
  behind. Each reader of `recv_text` has one lemma.
  - `recvFrame_reads`: a frame gives its opcode and its payload back, for each of the three lengths;
  - `recvText_text`, `recvText_none`: one call goes over the control frames to the next TEXT, or to the end.
-/

import HftLab.Feed.WsClient
import HftLab.Lib.Layout

namespace HftLab.Feed

open Lib List

variable {n turns : Nat} {bytes rest payload : List UInt8} {inbound : List (List UInt8)}

/-! ## The stream -/

/-- `bytes` are to come, in segments of which none is empty. -/
structure Carries (bytes : List UInt8) (inbound : List (List UInt8)) : Prop where
  cut : [] ∉ inbound
  flatten : inbound.flatten = bytes

/-- A reader gives `a`, and `rest` is still to come. -/
def Reads {α : Type} (r : Option α × List (List UInt8)) (a : α) (rest : List UInt8) : Prop :=
  ∃ inbound, r = (some a, inbound) ∧ Carries rest inbound

/-- `recv` gives a prefix of the bytes that are wanted, one byte at least. -/
theorem recv_carries (hn : bytes.length = n + 1) (h : Carries (bytes ++ rest) inbound) :
    ∃ more, bytes = (recv (n + 1) inbound).1 ++ more ∧ (recv (n + 1) inbound).1 ≠ [] ∧
      Carries (more ++ rest) (recv (n + 1) inbound).2 := by
  obtain ⟨hcut, hflat⟩ := h
  cases inbound with
  | nil =>
    have hnone := congrArg List.length hflat
    simp only [flatten_nil, length_nil, length_append] at hnone
    omega
  | cons seg segs =>
    have hseg : seg ≠ [] := fun he => hcut (he ▸ mem_cons_self)
    have hsegs : [] ∉ segs := fun hm => hcut (mem_cons_of_mem _ hm)
    rw [flatten_cons] at hflat
    have hpre : seg.take (n + 1) <+: bytes := by
      have hseg : seg.take (n + 1) <+: bytes ++ rest :=
        ( take_prefix _ _).trans (hflat ▸ prefix_append seg segs.flatten)
      exact prefix_of_prefix_length_le hseg (prefix_append bytes rest) (by rw [length_take]; omega)
    obtain ⟨more, rfl⟩ := hpre
    have hrest : seg.drop (n + 1) ++ segs.flatten = more ++ rest := by
      nth_rewrite 1 [← take_append_drop (n + 1) seg] at hflat
      rw [append_assoc, append_assoc] at hflat
      exact append_cancel_left hflat
    refine ⟨more, rfl, by simp [recv, hseg], ?_⟩
    unfold recv
    dsimp only
    by_cases hd : seg.drop (n + 1) = []
    · rw [if_pos hd]
      rw [hd, nil_append] at hrest
      exact ⟨hsegs, hrest⟩
    · rw [if_neg hd]
      refine ⟨fun hm => ?_, hrest⟩
      rcases mem_cons.mp hm with he | hm
      · exact hd he.symm
      · exact hsegs hm

theorem recvLoop_reads (hn : bytes.length = n) (ht : n ≤ turns) (h : Carries (bytes ++ rest) inbound) :
    Reads (recvLoop turns n inbound) bytes rest := by
  induction turns generalizing n bytes inbound with
  | zero =>
    obtain rfl : n = 0 := by omega
    obtain rfl := length_eq_zero_iff.mp hn
    exact ⟨inbound, rfl, h⟩
  | succ turns ih =>
    cases n with
    | zero =>
      obtain rfl := length_eq_zero_iff.mp hn
      exact ⟨inbound, rfl, h⟩
    | succ n =>
      obtain ⟨more, hbytes, hgot, hmore⟩ := recv_carries hn h
      have hlen : (recv (n + 1) inbound).1.length + more.length = n + 1 := by
        rw [← length_append, ← hbytes, hn]
      have hpos := length_pos_iff.mpr hgot
      have hleft : more.length = n + 1 - (recv (n + 1) inbound).1.length := by omega
      obtain ⟨inbound', hr, hc⟩ := ih hleft (by omega) hmore
      refine ⟨inbound', ?_, hc⟩
      unfold recvLoop
      dsimp only
      rw [if_neg hgot, hr, Option.map_some, ← hbytes]

theorem recvAll_reads (hn : bytes.length = n) (h : Carries (bytes ++ rest) inbound) : Reads (recvAll n inbound) bytes rest :=
  recvLoop_reads hn (Nat.le_refl _) h

/-! ## Masking -/

/-- The chunks are the payload under the mask, from `sent` on. -/
theorem sendChunks_eq {key : List UInt8} {sent : Nat} (h : payload.length - sent ≤ turns) :
    sendChunks key payload turns sent = (unmask key payload).drop sent := by
  induction turns generalizing sent with
  | zero => simp [sendChunks, unmask, show payload.length ≤ sent by omega]
  | succ turns ih =>
    unfold sendChunks
    by_cases hlt : sent < payload.length
    · rw [if_pos hlt]
      dsimp only
      have hchunk : 0 < CHUNK := by decide
      generalize hn : min (payload.length - sent) CHUNK = n
      have hpart : (List.range n).map (fun i => payload.getD (sent + i) 0 ^^^ maskAt key (sent + i)) =
          ((unmask key payload).drop sent).take n := by
        refine ext_getElem ?_ fun i hi _ => ?_
        · simp only [length_map, length_range, unmask, length_take, length_drop, length_mapIdx]
          omega
        · simp only [length_map, length_range] at hi
          have hin : sent + i < payload.length := by omega
          simp [unmask, hin]
      rw [hpart, ih (by omega), ← drop_drop, take_append_drop]
    · rw [if_neg hlt]
      simp [unmask, show payload.length ≤ sent by omega]

theorem unmask_unmask (key payload : List UInt8) : unmask key (unmask key payload) = payload := by
  unfold unmask
  rw [mapIdx_mapIdx]
  refine ext_getElem (by simp) fun i _ _ => ?_
  rw [getElem_mapIdx]
  show payload[i] ^^^ maskAt key i ^^^ maskAt key i = payload[i]
  rw [UInt8.xor_assoc, UInt8.xor_self, UInt8.xor_zero]

/-! ## The header -/

/-- The seven bits of the second byte. -/
def lenBits (len : Nat) : Nat := if len < 126 then len else if len ≤ 0xFFFF then 126 else 127

/-- The bytes of a length that the seven bits do not hold. -/
def lenExt (len : Nat) : List UInt8 := if len < 126 then [] else if len ≤ 0xFFFF then beBytes 2 len else beBytes 8 len

theorem byte_shift (x k : Nat) : UInt8.ofNat (x >>> (8 * k) &&& 0xFF) = UInt8.ofNat (x / 256 ^ k) := by
  have hpow : 2 ^ (8 * k) = 256 ^ k := by rw [Nat.pow_mul]
  have hmask : ∀ y : Nat, y &&& 0xFF = y % 256 := fun y => Nat.and_two_pow_sub_one_eq_mod y 8
  rw [Nat.shiftRight_eq_div_pow, hpow, hmask]
  exact UInt8.ofNat_mod_size

theorem shifts_eq (n x : Nat) : ((List.range n).map fun i => UInt8.ofNat (x >>> (8 * (n - 1 - i)) &&& 0xFF)) = beBytes n x := by
  induction n with
  | zero => rfl
  | succ n ih =>
    rw [range_succ_eq_map, map_cons, map_map, beBytes, ← ih]
    refine congrArg₂ List.cons (byte_shift x n) (map_congr_left fun i _ => ?_)
    simp only [Function.comp_apply, Nat.add_sub_cancel, Nat.succ_eq_add_one, Nat.sub_sub, Nat.add_comm 1 i]

theorem frameHeader_eq (opcode : WsOpcode) (len : Nat) :
    frameHeader opcode len = [0x80 ||| opcode.toByte, 0x80 ||| UInt8.ofNat (lenBits len)] ++ lenExt len := by
  unfold frameHeader lenBits lenExt
  by_cases hshort : len < 126
  · rw [if_pos hshort, if_pos hshort, if_pos hshort]
    rfl
  rw [if_neg hshort, if_neg hshort, if_neg hshort]
  by_cases hmid : len ≤ 0xFFFF
  · rw [if_pos hmid, if_pos hmid, if_pos hmid, ← shifts_eq 2 len]
    rfl
  · rw [if_neg hmid, if_neg hmid, if_neg hmid, ← shifts_eq 8 len]
    rfl

theorem lenBits_lt (len : Nat) : lenBits len < 128 := by
  unfold lenBits
  split_ifs <;> omega

theorem recvLen_reads {len : Nat} (hlen : len < 2 ^ 64) (h : Carries (lenExt len ++ rest) inbound) :
    Reads (recvLen (lenBits len) inbound) len rest := by
  unfold recvLen lenBits lenExt at *
  by_cases hshort : len < 126
  · simp only [if_pos hshort] at h ⊢
    rw [if_neg (by omega), if_neg (by omega)]
    exact ⟨inbound, rfl, h⟩
  by_cases hmid : len ≤ 0xFFFF
  · simp only [if_neg hshort, if_pos hmid] at h ⊢
    obtain ⟨inbound', hr, hc⟩ := recvAll_reads (beBytes_length 2 len) h
    refine ⟨inbound', ?_, hc⟩
    have hval := beNat_beBytes (n := 2) (x := len) (by omega)
    rw [if_pos trivial, hr, Option.map_some]
    simp only [beBytes, getD_cons_zero, getD_cons_succ, shiftLeft_or]
    simp only [beNat, beBytes, foldl_cons, foldl_nil, Nat.zero_mul, Nat.zero_add] at hval
    rw [hval]
  · simp only [if_neg hshort, if_neg hmid] at h ⊢
    obtain ⟨inbound', hr, hc⟩ := recvAll_reads (beBytes_length 8 len) h
    refine ⟨inbound', ?_, hc⟩
    have hval := beNat_beBytes (n := 8) (by omega)
    rw [if_neg (by decide), if_pos trivial, hr, Option.map_some]
    simp only [shiftLeft_or]
    exact congrArg (fun x => (some x, inbound')) hval

theorem opcode_bits (opcode : WsOpcode) : (0x80 ||| opcode.toByte) &&& 0x0F = opcode.toByte := by
  cases opcode <;> rfl

/-- The mask bit is set, and the other seven are the number. -/
theorem lenByte_bits : ∀ n < 128, (0x80 ||| UInt8.ofNat n) &&& 0x80 ≠ 0 ∧ ((0x80 ||| UInt8.ofNat n) &&& 0x7F).toNat = n := by
  decide +kernel

/-! ## One frame -/

theorem frameBytes_eq (opcode : WsOpcode) (key : MaskKey) (payload : List UInt8) :
    frameBytes opcode key payload = [0x80 ||| opcode.toByte, 0x80 ||| UInt8.ofNat (lenBits payload.length)] ++
      (lenExt payload.length ++ (key.toList ++ unmask key.toList payload)) := by
  unfold frameBytes
  rw [frameHeader_eq, sendChunks_eq (Nat.sub_le _ _), drop_zero, append_assoc]

theorem recvFrame_reads {maxLen : Nat} (hmax : maxLen < 2 ^ 31) {opcode : WsOpcode} {key : MaskKey}
    (hfits : payload.length ≤ maxLen) (h : Carries (frameBytes opcode key payload ++ rest) inbound) :
    Reads (recvFrame maxLen inbound) (opcode.toByte, payload) rest := by
  rw [frameBytes_eq, append_assoc] at h
  obtain ⟨inbound1, hhead, h1⟩ := recvAll_reads rfl h
  rw [append_assoc] at h1
  obtain ⟨inbound2, hlen, h2⟩ := recvLen_reads (by omega) h1
  rw [append_assoc] at h2
  obtain ⟨inbound3, hkey, h3⟩ := recvAll_reads (n := 4) (by simp) h2
  have hsize : (unmask key.toList payload).length = payload.length := by simp [unmask]
  obtain ⟨inbound4, hout, h4⟩ := recvAll_reads hsize h3
  refine ⟨inbound4, ?_, h4⟩
  obtain ⟨hmasked, hbits⟩ := lenByte_bits _ (lenBits_lt payload.length)
  unfold recvFrame
  simp only [length_cons, length_nil, Nat.zero_add, Nat.reduceAdd] at hhead
  simp only [hhead, getD_cons_zero, getD_cons_succ, opcode_bits, hbits, hlen, decide_eq_true hmasked, if_true, hkey,
    if_neg (Nat.not_lt.mpr hfits), hout, unmask_unmask]

/-! ## Calls -/

/-- A frame that the receiver has room for. -/
structure Frame (maxLen : Nat) where
  opcode : WsOpcode
  payload : List UInt8
  kind : opcode = .text ∨ opcode = .ping ∨ opcode = .pong
  fits : payload.length ≤ maxLen

namespace Frame

variable {maxLen : Nat}

abbrev IsText (f : Frame maxLen) : Prop := f.opcode = .text

/-- The arguments of its `send_frame`. -/
def args (f : Frame maxLen) : WsOpcode × List UInt8 := (f.opcode, f.payload)

end Frame

def WsClient.sendFrames (c : WsClient) (frames : List (WsOpcode × List UInt8)) : WsClient :=
  frames.foldl (fun c f => c.sendFrame f.1 f.2) c

variable {maxLen : Nat}

/-- The payloads of the TEXTs. -/
def texts (frames : List (Frame maxLen)) : List (List UInt8) := (frames.filter (·.IsText)).map Frame.payload

theorem texts_cons (f : Frame maxLen) (frames : List (Frame maxLen)) :
    texts (f :: frames) = if f.IsText then f.payload :: texts frames else texts frames := by
  unfold texts
  rw [filter_cons]
  simp only [decide_eq_true_eq]
  rw [apply_ite (List.map Frame.payload), map_cons]

/-- A PONG for each PING, with its payload. -/
def pongs (frames : List (Frame maxLen)) : List (WsOpcode × List UInt8) :=
  (frames.filter (·.opcode = .ping)).map fun f => (.pong, f.payload)

/-- The frames up to the last TEXT. -/
def uptoText (frames : List (Frame maxLen)) : List (Frame maxLen) := frames.rdropWhile (¬ ·.IsText)

theorem uptoText_append_text {f : Frame maxLen} (h : f.IsText) (controls frames : List (Frame maxLen)) :
    uptoText (controls ++ f :: frames) = controls ++ f :: uptoText frames := by
  unfold uptoText
  induction frames using List.reverseRecOn with
  | nil => rw [rdropWhile_concat_neg _ _ _ (by simpa using h), rdropWhile_nil]
  | append_singleton frames g ih =>
    have happ : controls ++ f :: (frames ++ [g]) = controls ++ f :: frames ++ [g] := by simp
    rw [happ, rdropWhile_concat, rdropWhile_concat]
    by_cases hg : g.IsText
    · rw [if_neg (by simpa using hg), if_neg (by simpa using hg), ← happ]
    · rw [if_pos (by simpa using hg), if_pos (by simpa using hg), ih]

/-- The bytes of the frames, each under a mask key of its own. -/
def Encodes : List (Frame maxLen) → List UInt8 → Prop
  | [], bytes => bytes = []
  | f :: frames, bytes => ∃ key rest, bytes = frameBytes f.opcode key f.payload ++ rest ∧ Encodes frames rest

theorem encodes_sendFrames (frames : List (Frame maxLen)) (c : WsClient) :
    ∃ bytes, (c.sendFrames (frames.map Frame.args)).sent = c.sent ++ bytes ∧ Encodes frames bytes := by
  induction frames generalizing c with
  | nil => exact ⟨[], (append_nil _).symm, rfl⟩
  | cons f frames ih =>
    obtain ⟨bytes, hsent, henc⟩ := ih (c.sendFrame f.opcode f.payload)
    refine ⟨frameBytes f.opcode (c.randoms c.asked) f.payload ++ bytes, ?_, _, bytes, rfl, henc⟩
    rw [← append_assoc]
    exact hsent

/-- A frame has a byte at least. -/
theorem Encodes.length_le {frames : List (Frame maxLen)} (h : Encodes frames bytes) : frames.length ≤ bytes.length := by
  induction frames generalizing bytes with
  | nil => exact Nat.zero_le _
  | cons f frames ih =>
    obtain ⟨key, rest, rfl, hrest⟩ := h
    have := ih hrest
    simp only [frameBytes_eq, length_append, length_cons]
    omega

namespace WsClient

variable {bytes : List UInt8} {controls frames : List (Frame maxLen)}

/-- What is to come does not matter to what is sent. -/
theorem sendFrames_inbound (c : WsClient) (inbound : List (List UInt8)) (l : List (WsOpcode × List UInt8)) :
    ({ c with inbound } : WsClient).sendFrames l = { c.sendFrames l with inbound } := by
  induction l generalizing c with
  | nil => rfl
  | cons f l ih => exact ih (c.sendFrame f.1 f.2)

theorem sendFrames_append (c : WsClient) (l r : List (WsOpcode × List UInt8)) :
    c.sendFrames (l ++ r) = (c.sendFrames l).sendFrames r := foldl_append

/-- The `switch` of a turn. -/
theorem recvTextLoop_read {c : WsClient} {opcode : WsOpcode} {out : List UInt8} (turns : Nat) :
    recvFrame maxLen c.inbound = (some (opcode.toByte, out), inbound) → c.recvTextLoop maxLen (turns + 1) =
      match opcode with
      | .text | .binary => ((i32 out.length, out), { c with inbound })
      | .ping => recvTextLoop maxLen turns (({ c with inbound } : WsClient).sendFrame .pong out)
      | .pong | .continuation => recvTextLoop maxLen turns { c with inbound }
      | .close => ((0, []), ({ c with inbound } : WsClient).sendFrame .close out) := by
  intro h
  conv_lhs => unfold recvTextLoop
  rw [h]
  cases opcode <;> rfl

/-- The control frames at the front: each takes a turn, and each PING is answered. -/
theorem recvTextLoop_controls (hmax : maxLen < 2 ^ 31) (controls frames : List (Frame maxLen)) (hno : ∀ f ∈ controls, ¬ f.IsText)
    (c : WsClient) (henc : Encodes (controls ++ frames) bytes) (h : Carries bytes c.inbound) :
    ∃ inbound rest, Carries rest inbound ∧ Encodes frames rest ∧ ∀ turns, c.recvTextLoop maxLen (controls.length + turns) =
      ({ c.sendFrames (pongs controls) with inbound } : WsClient).recvTextLoop maxLen turns := by
  induction controls generalizing c bytes with
  | nil => exact ⟨c.inbound, bytes, h, henc, fun turns => by rw [length_nil, Nat.zero_add]; rfl⟩
  | cons f controls ih =>
    obtain ⟨key, rest, rfl, hrest⟩ := henc
    obtain ⟨inbound, hread, hcarry⟩ := recvFrame_reads hmax f.fits h
    have hnot : ¬ f.IsText := hno f mem_cons_self
    have hno' : ∀ g ∈ controls, ¬ g.IsText := fun g hg => hno g (mem_cons_of_mem _ hg)
    rcases f.kind with htext | hping | hpong
    · exact absurd htext hnot
    · obtain ⟨inbound', rest', hc, he, hrun⟩ := ih hno' (({ c with inbound } : WsClient).sendFrame .pong f.payload) hrest hcarry
      refine ⟨inbound', rest', hc, he, fun turns => ?_⟩
      have hstep : c.recvTextLoop maxLen (controls.length + turns + 1) =
          (({ c with inbound } : WsClient).sendFrame .pong f.payload).recvTextLoop maxLen (controls.length + turns) := by
        rw [recvTextLoop_read _ hread, hping]
      have hpongs : pongs (f :: controls) = (.pong, f.payload) :: pongs controls := by simp [pongs, hping]
      have hsent : (({ c with inbound } : WsClient).sendFrame .pong f.payload).sendFrames (pongs controls) =
          { c.sendFrames (pongs (f :: controls)) with inbound } := by
        rw [hpongs]
        exact sendFrames_inbound c inbound ((.pong, f.payload) :: pongs controls)
      rw [length_cons, Nat.add_right_comm, hstep, hrun turns, hsent]
    · obtain ⟨inbound', rest', hc, he, hrun⟩ := ih hno' { c with inbound } hrest hcarry
      refine ⟨inbound', rest', hc, he, fun turns => ?_⟩
      have hstep : c.recvTextLoop maxLen (controls.length + turns + 1) =
          ({ c with inbound } : WsClient).recvTextLoop maxLen (controls.length + turns) := by
        rw [recvTextLoop_read _ hread, hpong]
      have hpongs : pongs (f :: controls) = pongs controls := by simp [pongs, hpong]
      rw [length_cons, Nat.add_right_comm, hstep, hrun turns, hpongs, sendFrames_inbound]

/-- A call has a turn left behind the control frames at the front. -/
theorem recvText_controls (hmax : maxLen < 2 ^ 31) (hno : ∀ f ∈ controls, ¬ f.IsText) (c : WsClient)
    (henc : Encodes (controls ++ frames) bytes) (h : Carries bytes c.inbound) :
    ∃ inbound rest turns, Carries rest inbound ∧ Encodes frames rest ∧
      c.recvText maxLen = ({ c.sendFrames (pongs controls) with inbound } : WsClient).recvTextLoop maxLen (turns + 1) := by
  obtain ⟨inbound, rest, hc, he, hrun⟩ := recvTextLoop_controls hmax controls frames hno c henc h
  refine ⟨inbound, rest, bytes.length - controls.length, hc, he, ?_⟩
  have hfuel := henc.length_le
  rw [length_append] at hfuel
  have hturns : c.inbound.flatten.length + 1 = controls.length + (bytes.length - controls.length + 1) := by
    rw [h.flatten]
    omega
  rw [recvText, hturns]
  exact hrun _

/-- A call that goes over control frames to a TEXT. -/
theorem recvText_text (hmax : maxLen < 2 ^ 31) {f : Frame maxLen} (hno : ∀ f ∈ controls, ¬ f.IsText) (htext : f.IsText)
    (c : WsClient) (henc : Encodes (controls ++ f :: frames) bytes) (h : Carries bytes c.inbound) :
    ∃ inbound rest, Carries rest inbound ∧ Encodes frames rest ∧
      c.recvText maxLen = (((f.payload.length : Int), f.payload), ({ c.sendFrames (pongs controls) with inbound } : WsClient)) := by
  obtain ⟨inbound, rest, turns, hc, he, hrun⟩ := recvText_controls hmax hno c henc h
  obtain ⟨key, rest', rfl, he'⟩ := he
  obtain ⟨inbound', hread, hc'⟩ := recvFrame_reads hmax f.fits hc
  have hlen : i32 (f.payload.length : Int) = f.payload.length := by
    have hfits := f.fits
    refine i32_eq ⟨?_, ?_⟩ <;> simp only [int32Min, int32Max] <;> omega
  have hkind : f.opcode = .text := htext
  refine ⟨inbound', rest', hc', he', ?_⟩
  rw [hrun, recvTextLoop_read _ hread, hkind]
  simp only [hlen]

/-- A call on control frames only meets the end of the stream. -/
theorem recvText_none (hmax : maxLen < 2 ^ 31) (hno : ∀ f ∈ controls, ¬ f.IsText) (c : WsClient) (henc : Encodes controls bytes)
    (h : Carries bytes c.inbound) : (c.recvText maxLen).1 = (-1, []) := by
  rw [← append_nil controls] at henc
  obtain ⟨inbound, rest, turns, hc, rfl, hrun⟩ := recvText_controls hmax hno c henc h
  have hend : inbound = [] := by
    obtain ⟨hcut, hflat⟩ := hc
    cases inbound with
    | nil => rfl
    | cons seg segs =>
      rw [flatten_cons, append_eq_nil_iff] at hflat
      exact absurd (hflat.1 ▸ mem_cons_self) hcut
  subst hend
  rw [hrun]
  rfl

/-- A call a TEXT, with control frames pending at the front. -/
theorem recvTexts_run (hmax : maxLen < 2 ^ 31) (frames : List (Frame maxLen)) (controls : List (Frame maxLen))
    (hno : ∀ f ∈ controls, ¬ f.IsText) (c : WsClient) (henc : Encodes (controls ++ frames) bytes) (h : Carries bytes c.inbound) :
    ∃ (inbound : List (List UInt8)) (rest : List UInt8) (tail : List (Frame maxLen)),
      Carries rest inbound ∧ Encodes tail rest ∧ (∀ f ∈ tail, ¬ f.IsText) ∧
      c.recvTexts maxLen (texts frames).length = ((texts frames).map fun p => ((p.length : Int), p),
        ({ c.sendFrames (pongs (uptoText (controls ++ frames))) with inbound } : WsClient)) := by
  induction frames generalizing controls c bytes with
  | nil =>
    rw [append_nil] at henc
    have hnone : uptoText (controls ++ []) = [] := by
      unfold uptoText
      rw [append_nil, rdropWhile_eq_nil_iff]
      simpa using hno
    rw [hnone]
    exact ⟨c.inbound, bytes, controls, h, henc, hno, rfl⟩
  | cons f frames ih =>
    by_cases htext : f.IsText
    · obtain ⟨inbound, rest, hc, he, hcall⟩ := recvText_text hmax hno htext c henc h
      obtain ⟨inbound', rest', tail, hc', he', htail, hcalls⟩ :=
        ih [] (fun _ hf => absurd hf not_mem_nil) { c.sendFrames (pongs controls) with inbound } he hc
      refine ⟨inbound', rest', tail, hc', he', htail, ?_⟩
      have htexts : texts (f :: frames) = f.payload :: texts frames := by rw [texts_cons, if_pos htext]
      have hupto : pongs (uptoText (controls ++ f :: frames)) = pongs controls ++ pongs (uptoText frames) := by
        rw [uptoText_append_text htext]
        have hkind : f.opcode = .text := htext
        simp [pongs, hkind]
      rw [htexts, length_cons, recvTexts, hcall, hcalls, hupto, nil_append, sendFrames_append,
        sendFrames_inbound (c.sendFrames (pongs controls)) inbound]
      rfl
    · have hno' : ∀ g ∈ controls ++ [f], ¬ g.IsText := by
        intro g hg
        rcases mem_append.mp hg with hg | hg
        · exact hno g hg
        · rw [mem_singleton.mp hg]
          exact htext
      have happ : controls ++ f :: frames = (controls ++ [f]) ++ frames := by simp
      have htexts : texts (f :: frames) = texts frames := by rw [texts_cons, if_neg htext]
      rw [happ] at henc ⊢
      rw [htexts]
      exact ih (controls ++ [f]) hno' c henc h

end WsClient

/-- A stream of frames, cut in any way, and received: each TEXT once, in order and byte for byte, and then the end. What is sent in
reply is a PONG for each PING before the last TEXT, in order and with its payload. An empty TEXT is not told apart here. -/
theorem ws_round_trip (hmax : maxLen < 2 ^ 31) (frames : List (Frame maxLen)) (sender receiver : WsClient)
    (hcut : [] ∉ receiver.inbound)
    (hstream : (sender.sendFrames (frames.map Frame.args)).sent = sender.sent ++ receiver.inbound.flatten) :
    (receiver.recvTexts maxLen (texts frames).length).1 = (texts frames).map (fun p => ((p.length : Int), p)) ∧
      (receiver.recvTexts maxLen (texts frames).length).2.sent = (receiver.sendFrames (pongs (uptoText frames))).sent ∧
      ((receiver.recvTexts maxLen (texts frames).length).2.recvText maxLen).1 = (-1, []) := by
  obtain ⟨bytes, hsent, henc⟩ := encodes_sendFrames frames sender
  have hcarry : Carries bytes receiver.inbound := ⟨hcut, List.append_cancel_left (hstream.symm.trans hsent)⟩
  obtain ⟨inbound, rest, tail, hc, he, htail, hcalls⟩ :=
    WsClient.recvTexts_run hmax frames [] (fun _ hf => absurd hf List.not_mem_nil) receiver henc hcarry
  rw [hcalls]
  exact ⟨rfl, rfl, WsClient.recvText_none hmax htail _ he hc⟩

theorem ws_round_trip_sample :
    (({ inbound := [[137], [129, 16, 2, 3, 4, 23, 129], [130, 17, 2, 3], [4, 121, 107, 137, 128, 18, 2, 3], [4]],
        randoms := fun _ => #v[0, 0, 0, 1] } : WsClient).recvTexts 8 1).1 = [(2, [104, 105])] :=
  (ws_round_trip (by decide) [⟨.ping, [7], by decide, by decide⟩, ⟨.text, [104, 105], by decide, by decide⟩,
    ⟨.ping, [], by decide, by decide⟩] { inbound := [], randoms := fun i => #v[UInt8.ofNat (16 + i), 2, 3, 4] }
    { inbound := [[137], [129, 16, 2, 3, 4, 23, 129], [130, 17, 2, 3], [4, 121, 107, 137, 128, 18, 2, 3], [4]],
      randoms := fun _ => #v[0, 0, 0, 1] } (by decide) (by decide +kernel)).1

end HftLab.Feed
