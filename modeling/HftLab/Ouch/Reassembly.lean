/-
  HftLab.Ouch.Reassembly — the messages of a stream do not depend on how TCP cuts it.

  `parse_stream` and `consume` read off a `Framer` each (`parseStream_reads`, `consume_reads`), so:
  - chunks of any size have the effect of the whole stream and leave the same tail;
  - messages written by `encode_*` one behind the other are all delivered, each once;
  - so are packets written by `pack_*`, unless a payload is too long for the two bytes of its length (`delivers_iff`).
-/

import HftLab.Lib.Framing
import HftLab.Ouch.RoundTrip
import HftLab.Ouch.SoupBin

namespace HftLab.Ouch

open Lib List

variable {l payload : List UInt8} {n : Nat} {σ : Type} {type : PacketType}

/-! ## parse_stream -/

def nextResponse (l : List UInt8) : Option (OUCHResponse × Nat) :=
  let mlen := expectedLength (charAt l 0)
  if mlen = 0 then none else if l.length < mlen then none else some (parseResponse (l.take mlen), mlen)

/-- The conditions under which a response is found. -/
theorem nextResponse_eq_some {r : OUCHResponse} (h : nextResponse l = some (r, n)) :
    n = expectedLength (charAt l 0) ∧ 0 < n ∧ n ≤ l.length ∧ r = parseResponse (l.take n) := by
  unfold nextResponse at h
  dsimp only at h
  split at h
  · cases h
  · split at h
    · cases h
    · cases h
      exact ⟨rfl, by omega, by omega, rfl⟩

theorem nextResponse_of (hpos : 0 < expectedLength (charAt l 0)) (hle : expectedLength (charAt l 0) ≤ l.length) :
    nextResponse l = some (parseResponse (l.take (expectedLength (charAt l 0))), expectedLength (charAt l 0)) := by
  unfold nextResponse
  rw [if_neg (by omega), if_neg (by omega)]

theorem charAt_append (h : 0 < l.length) (l' : List UInt8) : charAt (l ++ l') 0 = charAt l 0 := by
  obtain ⟨b, l, rfl⟩ := exists_cons_of_length_pos h
  rfl

def responses : Framer UInt8 OUCHResponse where
  next := nextResponse
  pos h := (nextResponse_eq_some h).2.1
  le h := (nextResponse_eq_some h).2.2.1
  stable {l r} l' h := by
    obtain ⟨r, n⟩ := r
    obtain ⟨hn, hpos, hle, hr⟩ := nextResponse_eq_some h
    have hchar := charAt_append (by omega : 0 < l.length) l'
    have hlen : (l ++ l').length = l.length + l'.length := List.length_append
    have hnext := nextResponse_of (l := l ++ l') (by rw [hchar]; omega) (by rw [hchar]; omega)
    rw [hnext, hchar, ← hn, List.take_append_of_le_length hle, hr]

theorem charAt_drop (data : List UInt8) (off : Nat) : charAt (data.drop off) 0 = charAt data off := by
  unfold charAt
  rw [getD_eq_getElem?_getD, getD_eq_getElem?_getD, List.getElem?_drop, Nat.add_zero]

theorem parseStreamLoop_eq (onMsg : σ → OUCHResponse → σ) (data : List UInt8) (fuel off : Nat) (s : σ) :
    parseStreamLoop onMsg data fuel off s = responses.loop onMsg data fuel off s := by
  induction fuel generalizing off s with
  | zero => rfl
  | succ fuel ih =>
    have hlen : (data.drop off).length = data.length - off := length_drop
    unfold parseStreamLoop Framer.loop responses nextResponse
    dsimp only
    rw [charAt_drop]
    by_cases hoff : off < data.length
    · by_cases hz : expectedLength (charAt data off) = 0
      · rw [if_pos hoff, if_pos hz, if_pos hz]
      · by_cases hlt : data.length < off + expectedLength (charAt data off)
        · rw [if_pos hoff, if_neg hz, if_pos hlt, if_neg hz, if_pos (by omega)]
        · rw [if_pos hoff, if_neg hz, if_neg hlt, if_neg hz, if_neg (by omega)]
          exact ih _ _
    · have hnil : charAt data off = Char.ofNat 0 := by
        unfold charAt
        rw [getD_eq_getElem?_getD, List.getElem?_eq_none (by omega)]
        rfl
      rw [if_neg hoff, hnil]
      rfl

theorem parseStream_reads (onMsg : σ → OUCHResponse → σ) : responses.Reads onMsg (parseStream onMsg) := by
  intro s data
  unfold parseStream
  rw [parseStreamLoop_eq]
  exact responses.reads_loop onMsg s data

theorem nextResponse_message (r : Report) (buf l : List UInt8) :
    nextResponse (r.encode.message buf ++ l) = some (parseResponse (r.encode.message buf), (r.encode.message buf).length) := by
  have hlen := r.message_length buf
  have hpos := r.expectedLength_pos
  have hchar : charAt (r.encode.message buf ++ l) 0 = r.typeChar := (charAt_append (by omega) l).trans (r.charAt_zero buf)
  have hall : (r.encode.message buf ++ l).length = (r.encode.message buf).length + l.length := length_append
  have hnext := nextResponse_of (l := r.encode.message buf ++ l) (by rw [hchar]; omega) (by rw [hchar]; omega)
  rw [hnext, hchar, ← hlen, take_left' rfl]

/-! ## Packets -/

def nextPacket (l : List UInt8) : Option (ParsedPacket × Nat) :=
  if (parsePacket l).1.valid then some (parsePacket l) else none

theorem readU16Be_append (h : 2 ≤ l.length) (l' : List UInt8) : readU16Be (l ++ l') = readU16Be l := by
  match l, h with
  | _ :: _ :: _, _ => rfl

/-- The packet found when all of it is there. -/
theorem parsePacket_of (hlen : 3 ≤ l.length) (hpos : 1 ≤ readU16Be l) (hle : 2 + readU16Be l ≤ l.length) :
    parsePacket l =
      ({ type := .ofByte (l.getD 2 0), payload := slice l 3 (readU16Be l - 1), valid := true }, 2 + readU16Be l) := by
  unfold parsePacket headerSize
  rw [if_neg (by omega), if_neg (by omega), if_neg (by omega)]

theorem parsePacket_valid (h : (parsePacket l).1.valid) : 3 ≤ l.length ∧ 1 ≤ readU16Be l ∧ 2 + readU16Be l ≤ l.length := by
  unfold parsePacket headerSize at h
  dsimp only at h
  split at h
  · cases h
  · split at h
    · cases h
    · split at h
      · cases h
      · omega

theorem nextPacket_eq_some {r : ParsedPacket × Nat} (h : nextPacket l = some r) :
    3 ≤ l.length ∧ 1 ≤ readU16Be l ∧ 2 + readU16Be l ≤ l.length ∧ r = parsePacket l := by
  unfold nextPacket at h
  split at h
  · rename_i hv
    cases h
    have := parsePacket_valid hv
    exact ⟨this.1, this.2.1, this.2.2, rfl⟩
  · cases h

theorem nextPacket_of (hlen : 3 ≤ l.length) (hpos : 1 ≤ readU16Be l) (hle : 2 + readU16Be l ≤ l.length) :
    nextPacket l = some ({ type := .ofByte (l.getD 2 0), payload := slice l 3 (readU16Be l - 1), valid := true }, 2 + readU16Be l) := by
  unfold nextPacket
  rw [parsePacket_of hlen hpos hle]
  rfl

theorem slice_append_of_le {off : Nat} (h : off + n ≤ l.length) (l' : List UInt8) : slice (l ++ l') off n = slice l off n := by
  unfold slice
  rw [drop_append_of_le_length (by omega), take_append_of_le_length (by rw [length_drop]; omega)]

def packets : Framer UInt8 ParsedPacket where
  next := nextPacket
  pos {l m n} h := by
    obtain ⟨hlen, hpos, hle, hr⟩ := nextPacket_eq_some h
    rw [parsePacket_of hlen hpos hle] at hr
    cases hr
    omega
  le {l m n} h := by
    obtain ⟨hlen, hpos, hle, hr⟩ := nextPacket_eq_some h
    rw [parsePacket_of hlen hpos hle] at hr
    cases hr
    exact hle
  stable {l r} l' h := by
    obtain ⟨hlen, hpos, hle, hr⟩ := nextPacket_eq_some h
    have hall : (l ++ l').length = l.length + l'.length := List.length_append
    have hread := readU16Be_append (by omega : 2 ≤ l.length) l'
    have hnext := nextPacket_of (l := l ++ l') (by omega) (by omega) (by omega)
    have htype : (l ++ l').getD 2 0 = l.getD 2 0 := by
      rw [List.getD_eq_getElem?_getD, List.getD_eq_getElem?_getD, List.getElem?_append_left (by omega)]
    rw [hnext, hread, htype, slice_append_of_le (by omega), hr, parsePacket_of hlen hpos hle]

theorem consumeLoop_eq (onPacket : σ → ParsedPacket → σ) (buf : List UInt8) (fuel off : Nat) (s : σ) :
    consumeLoop onPacket buf fuel off s = packets.loop onPacket buf fuel off s := by
  induction fuel generalizing off s with
  | zero => rfl
  | succ fuel ih =>
    unfold consumeLoop Framer.loop packets nextPacket
    dsimp only
    by_cases hoff : off < buf.length
    · rw [if_pos hoff]
      by_cases hv : (parsePacket (buf.drop off)).1.valid
      · rw [if_pos hv, hv]
        exact ih _ _
      · rw [if_neg hv, Bool.eq_false_iff.mpr hv]
        rfl
    · rw [if_neg hoff, drop_eq_nil_of_le (by omega)]
      rfl

theorem consume_reads (onPacket : σ → ParsedPacket → σ) : packets.Reads onPacket (consumeWith onPacket) := by
  intro s buf
  unfold consumeWith
  rw [consumeLoop_eq]
  exact packets.reads_loop onPacket s buf

/-! ## Packets one behind the other -/

/-- The bytes of a packet. -/
def frame (type : PacketType) (payload : List UInt8) : List UInt8 :=
  writeU16Be (uint16 (1 + payload.length)) ++ type.toByte :: payload

theorem readU16Be_frame (type : PacketType) (payload l : List UInt8) :
    readU16Be (frame type payload ++ l) = uint16 (1 + payload.length) := by
  have hlt : uint16 (1 + payload.length) < 65536 := Nat.mod_lt _ (by decide)
  show (UInt8.ofNat (uint16 (1 + payload.length) >>> 8)).toNat <<< 8 ||| (UInt8.ofNat (uint16 (1 + payload.length))).toNat = _
  rw [shiftLeft_or, UInt8.toNat_ofNat', UInt8.toNat_ofNat', Nat.shiftRight_eq_div_pow]
  omega

@[simp] theorem frame_length (type : PacketType) (payload : List UInt8) : (frame type payload).length = 3 + payload.length := by
  simp [frame, writeU16Be]
  omega

theorem getD_frame (type : PacketType) (payload l : List UInt8) : (frame type payload ++ l).getD 2 0 = type.toByte := rfl

theorem slice_frame (type : PacketType) (payload l : List UInt8) : slice (frame type payload ++ l) 3 payload.length = payload :=
  take_left' rfl

theorem nextPacket_frame (h : payload.length < 65535) (l : List UInt8) :
    nextPacket (frame type payload ++ l) =
      some ({ type := .ofByte type.toByte, payload, valid := true }, (frame type payload).length) := by
  have hread : readU16Be (frame type payload ++ l) = 1 + payload.length :=
    (readU16Be_frame type payload l).trans (Nat.mod_eq_of_lt (by omega))
  have hlen : (frame type payload ++ l).length = 3 + payload.length + l.length := by rw [length_append, frame_length]
  rw [nextPacket_of (by omega) (by omega) (by omega), getD_frame, hread, Nat.add_sub_cancel_left, slice_frame, frame_length,
    ← Nat.add_assoc]

/-- A length that two bytes cannot say. -/
theorem nextPacket_long {p : ParsedPacket} (h : 65535 ≤ payload.length)
    (hnext : nextPacket (frame type payload ++ l) = some (p, n)) : p.payload ≠ payload := by
  obtain ⟨hlen, hpos, hle, hp⟩ := nextPacket_eq_some hnext
  rw [parsePacket_of hlen hpos hle] at hp
  intro hpay
  have hread := readU16Be_frame type payload l
  have hlt : uint16 (1 + payload.length) < 65536 := Nat.mod_lt _ (by decide)
  have hslice : p.payload.length ≤ readU16Be (frame type payload ++ l) - 1 := by
    have hfst : p = _ := congrArg Prod.fst hp
    rw [hfst]
    exact length_take_le _ _
  rw [hpay] at hslice
  omega

/-- A packet that `parse_packet` can return. -/
def ParsedPacket.Sent (p : ParsedPacket) : Prop := p.valid = true ∧ PacketType.ofByte p.type.toByte = p.type

theorem run_frames_iff (ps : List ParsedPacket) (hps : ∀ p ∈ ps, p.Sent) :
    packets.run (ps.flatMap fun p => frame p.type p.payload) = (ps, []) ↔ ∀ p ∈ ps, p.payload.length < 65535 := by
  constructor
  · intro hrun
    induction ps with
    | nil => exact fun p hp => absurd hp not_mem_nil
    | cons p ps ih =>
      rw [flatMap_cons] at hrun
      cases hnext : packets.next (frame p.type p.payload ++ ps.flatMap fun p => frame p.type p.payload) with
      | none =>
        rw [Framer.run_none hnext] at hrun
        cases hrun
      | some r =>
        obtain ⟨q, n⟩ := r
        rw [Framer.run_some hnext] at hrun
        have hhead : q = p := head_eq_of_cons_eq (congrArg Prod.fst hrun)
        have hshort : p.payload.length < 65535 := by
          by_contra hlong
          exact nextPacket_long (by omega) hnext (congrArg ParsedPacket.payload hhead)
        have hn : nextPacket (frame p.type p.payload ++ _) = _ := nextPacket_frame hshort (ps.flatMap fun p => frame p.type p.payload)
        have hlen : n = (frame p.type p.payload).length := by
          have := hnext.symm.trans hn
          cases this
          rfl
        rw [hlen, drop_left' rfl] at hrun
        have htail : (packets.run (ps.flatMap fun p => frame p.type p.payload)).1 = ps :=
          tail_eq_of_cons_eq (congrArg Prod.fst hrun)
        have hleft : (packets.run (ps.flatMap fun p => frame p.type p.payload)).2 = [] := congrArg Prod.snd hrun
        have hrest := ih (fun q hq => hps q (mem_cons_of_mem _ hq)) (Prod.ext htail hleft)
        intro q hq
        rcases mem_cons.mp hq with rfl | hq
        · exact hshort
        · exact hrest q hq
  · intro hshort
    have hnext : ∀ p ∈ ps, ∀ l, packets.next (frame p.type p.payload ++ l) = some (id p, (frame p.type p.payload).length) := fun p hp l => by
      obtain ⟨hvalid, htype⟩ := hps p hp
      have hnext : nextPacket (frame p.type p.payload ++ l) = _ := nextPacket_frame (hshort p hp) l
      rw [htype, ← hvalid] at hnext
      exact hnext
    have hrun := Framer.run_flatMap hnext
    rwa [map_id] at hrun

theorem Request.message_short (r : Request) (buf : List UInt8) : (r.encode.message buf).length < 65535 := by
  rw [r.message_length]
  cases r <;> simp [wireLength]

/-- A call of one of the `pack_*` functions. -/
inductive PackCall where
  | heartbeat (clientSide : Bool)
  | data (cap : Nat) (payload : List UInt8) (clientSide : Bool)
  | loginRequest (cap : Nat) (username password session sequence : List UInt8)
  | logoutRequest
  | enterOrder (cap : Nat) (token : List UInt8) (side : UInt8) (shares : Int) (stock : List UInt8) (price : Nat) (tif : UInt8)
  | cancelOrder (cap : Nat) (token : List UInt8) (shares : Int)
  | replaceOrder (cap : Nat) (existingToken newToken : List UInt8) (shares : Int) (price : Nat)

namespace PackCall

def encode : PackCall → Encoded
  | heartbeat clientSide => packHeartbeat clientSide
  | data cap payload clientSide => packData cap payload clientSide
  | loginRequest cap username password session sequence => packLoginRequest cap username password session sequence
  | logoutRequest => packLogoutRequest
  | enterOrder cap token side shares stock price tif => packEnterOrder cap token side shares stock price tif
  | cancelOrder cap token shares => packCancelOrder cap token shares
  | replaceOrder cap existingToken newToken shares price => packReplaceOrder cap existingToken newToken shares price

/-- The packet of a `pack_data` whose buffer has room. -/
def dataPacket (cap : Nat) (payload : List UInt8) (clientSide : Bool) : Option ParsedPacket :=
  if cap < 3 + payload.length then none
  else some { type := if clientSide then .unsequencedData else .sequencedData, payload, valid := true }

/-- The packet that the other side is to receive, if the call writes one. -/
def packet : PackCall → Option ParsedPacket
  | heartbeat clientSide => some { type := if clientSide then .clientHeartbeat else .serverHeartbeat, payload := [], valid := true }
  | data cap payload clientSide => dataPacket cap payload clientSide
  | loginRequest cap username password session sequence =>
    if cap < 49 then none
    else
      some
        { type := .loginRequest
          payload := writePadded username 6 ++ writePadded password 10 ++ writePadded session 10 ++ writePadded sequence 20
          valid := true }
  | logoutRequest => some { type := .logoutRequest, payload := [], valid := true }
  | enterOrder cap token side shares stock price tif =>
    dataPacket cap ((Ouch.enterOrder token side shares stock price tif).message []) true
  | cancelOrder cap token shares => dataPacket cap ((Ouch.cancelOrder token shares).message []) true
  | replaceOrder cap existingToken newToken shares price =>
    dataPacket cap ((Ouch.replaceOrder existingToken newToken shares price).message []) true

/-- The length of what the call packs fits the two bytes that are to hold it, or nothing is packed. -/
def Short : PackCall → Prop
  | data cap payload _ => cap < 3 + payload.length ∨ payload.length < 65535
  | _ => True

/-- The bytes of a packet, none when there is none. -/
def wire (p : Option ParsedPacket) : List UInt8 := p.elim [] fun p => frame p.type p.payload

theorem packData_message (cap : Nat) (payload : List UInt8) (clientSide : Bool) (buf : List UInt8) :
    (packData cap payload clientSide).message buf = wire (dataPacket cap payload clientSide) := by
  unfold packData dataPacket headerSize
  by_cases hcap : cap < 3 + payload.length
  · rw [if_pos hcap, if_pos hcap]
    simp [refused, Layout.message, wire]
  · rw [if_neg hcap, if_neg hcap]
    have hpacked : Layout.Packed
        { fields := (packHeader (if clientSide then .unsequencedData else .sequencedData) payload.length).fields ++ [(3, payload)]
          length := 3 + payload.length } := by
      constructor <;> simp [packHeader, Adjacent, fieldBytes, writeU16Be]
      omega
    rw [hpacked.message_eq]
    simp [packHeader, fieldBytes, wire, frame]

theorem packHeader_message (type : PacketType) (buf : List UInt8) : (packHeader type 0).message buf = frame type [] := by
  have hpacked : (packHeader type 0).Packed := by
    constructor <;> simp [packHeader, Adjacent, fieldBytes, writeU16Be, headerSize]
  rw [hpacked.message_eq]
  rfl

theorem packLoginRequest_message (cap : Nat) (username password session sequence buf : List UInt8) :
    (packLoginRequest cap username password session sequence).message buf =
      wire (packet (.loginRequest cap username password session sequence)) := by
  unfold packLoginRequest headerSize
  dsimp only [packet]
  by_cases hcap : cap < 49
  · rw [if_pos hcap, if_pos hcap]
    simp [refused, Layout.message, wire]
  · rw [if_neg hcap, if_neg hcap]
    have hpacked : Layout.Packed
        { fields :=
            (packHeader .loginRequest 46).fields ++
              [(3, writePadded username 6), (3 + 6, writePadded password 10), (3 + 16, writePadded session 10),
                (3 + 26, writePadded sequence 20)]
          length := 3 + 46 } := by
      constructor <;> simp [packHeader, Adjacent, fieldBytes, writeU16Be]
    rw [hpacked.message_eq]
    simp [packHeader, fieldBytes, wire, frame]

theorem encode_message (call : PackCall) (buf : List UInt8) : call.encode.message buf = wire call.packet := by
  cases call with
  | heartbeat clientSide => exact packHeader_message _ buf
  | data cap payload clientSide => exact packData_message cap payload clientSide buf
  | loginRequest cap username password session sequence => exact packLoginRequest_message cap username password session sequence buf
  | logoutRequest => exact packHeader_message _ buf
  | enterOrder cap token side shares stock price tif => exact packData_message cap _ true buf
  | cancelOrder cap token shares => exact packData_message cap _ true buf
  | replaceOrder cap existingToken newToken shares price => exact packData_message cap _ true buf

theorem dataPacket_sent {cap : Nat} {payload : List UInt8} {clientSide : Bool} {p : ParsedPacket}
    (h : dataPacket cap payload clientSide = some p) : p.Sent ∧ p.payload = payload ∧ 3 + payload.length ≤ cap := by
  unfold dataPacket at h
  split at h
  · cases h
  · cases h
    exact ⟨⟨rfl, by cases clientSide <;> rfl⟩, rfl, by omega⟩

theorem packet_sent {call : PackCall} {p : ParsedPacket} (h : call.packet = some p) : p.Sent := by
  cases call with
  | heartbeat clientSide =>
    cases h
    exact ⟨rfl, by cases clientSide <;> rfl⟩
  | data cap payload clientSide => exact (dataPacket_sent h).1
  | loginRequest cap username password session sequence =>
    dsimp only [packet] at h
    split at h
    · cases h
    · cases h
      exact ⟨rfl, rfl⟩
  | logoutRequest =>
    cases h
    exact ⟨rfl, rfl⟩
  | enterOrder cap token side shares stock price tif => exact (dataPacket_sent h).1
  | cancelOrder cap token shares => exact (dataPacket_sent h).1
  | replaceOrder cap existingToken newToken shares price => exact (dataPacket_sent h).1

/-- Only the caller's own payload can be too long. -/
theorem short_iff (call : PackCall) : call.Short ↔ ∀ p, call.packet = some p → p.payload.length < 65535 := by
  cases call with
  | heartbeat clientSide =>
    refine ⟨fun _ p hp => ?_, fun _ => trivial⟩
    cases hp
    exact Nat.zero_lt_succ _
  | data cap payload clientSide =>
    constructor
    · intro hshort p hp
      obtain ⟨-, hpay, hcap⟩ := dataPacket_sent hp
      rw [hpay]
      exact hshort.resolve_left (by omega)
    · intro h
      by_cases hcap : cap < 3 + payload.length
      · exact .inl hcap
      · exact .inr (h _ (if_neg hcap))
  | loginRequest cap username password session sequence =>
    refine ⟨fun _ p hp => ?_, fun _ => trivial⟩
    dsimp only [packet] at hp
    split at hp
    · cases hp
    · cases hp
      simp
  | logoutRequest =>
    refine ⟨fun _ p hp => ?_, fun _ => trivial⟩
    cases hp
    decide
  | enterOrder cap token side shares stock price tif =>
    refine ⟨fun _ p hp => ?_, fun _ => trivial⟩
    rw [(dataPacket_sent hp).2.1]
    exact Request.message_short (.enter token side shares stock price tif) []
  | cancelOrder cap token shares =>
    refine ⟨fun _ p hp => ?_, fun _ => trivial⟩
    rw [(dataPacket_sent hp).2.1]
    exact Request.message_short (.cancel token shares) []
  | replaceOrder cap existingToken newToken shares price =>
    refine ⟨fun _ p hp => ?_, fun _ => trivial⟩
    rw [(dataPacket_sent hp).2.1]
    exact Request.message_short (.replace existingToken newToken shares price) []

end PackCall

/-! ## The whole stream -/

/-- A handler that keeps what it is given. -/
def record {μ : Type} (l : List μ) (m : μ) : List μ := l ++ [m]

theorem foldl_record {μ : Type} (l l' : List μ) : l'.foldl record l = l ++ l' := by
  induction l' generalizing l with
  | nil => exact (append_nil l).symm
  | cons m l' ih =>
    rw [foldl_cons, ih]
    simp [record]

/-- The stream of the calls, written into buffers like `buf`. -/
def packStream (buf : List UInt8) (calls : List PackCall) : List UInt8 := calls.flatMap fun call => call.encode.message buf

theorem packStream_eq (buf : List UInt8) (calls : List PackCall) :
    packStream buf calls = (calls.filterMap PackCall.packet).flatMap fun p => frame p.type p.payload := by
  unfold packStream
  induction calls with
  | nil => rfl
  | cons call calls ih =>
    rw [flatMap_cons, ih, call.encode_message]
    cases hp : call.packet with
    | none => rw [filterMap_cons_none hp]; rfl
    | some p => rw [filterMap_cons_some hp, flatMap_cons]; rfl

/-- Cutting changes nothing, and what was written one behind the other is delivered, each once and in order, up to the end. -/
structure Reassembles {σ : Type} (onMsg : σ → OUCHResponse → σ) (s : σ) (client : OuchSessionClient) (chunks : List (List UInt8))
    (buf : List UInt8) (reports : List Report) (calls : List PackCall) : Prop where
  stream : feed (parseStream onMsg) chunks [] s =
    ((parseStream onMsg s chunks.flatten).1, chunks.flatten.drop (parseStream onMsg s chunks.flatten).2)
  session : feed OuchSessionClient.consume chunks [] client =
    ((client.consume chunks.flatten).1, chunks.flatten.drop (client.consume chunks.flatten).2)
  reports : parseStream record [] (reports.flatMap fun r => r.encode.message buf) =
    (reports.map fun r => parseResponse (r.encode.message buf), (reports.flatMap fun r => r.encode.message buf).length)
  packets : consumeWith record [] (packStream buf calls) = (calls.filterMap PackCall.packet, (packStream buf calls).length)
  client : client.consume (packStream buf calls) =
    ((calls.filterMap PackCall.packet).foldl OuchSessionClient.onPacket client, (packStream buf calls).length)

theorem parseStream_reports (buf : List UInt8) (reports : List Report) :
    parseStream record [] (reports.flatMap fun r => r.encode.message buf) =
      (reports.map fun r => parseResponse (r.encode.message buf), (reports.flatMap fun r => r.encode.message buf).length) := by
  have hrun : responses.run (reports.flatMap fun r => r.encode.message buf) =
      (reports.map fun r => parseResponse (r.encode.message buf), []) :=
    Framer.run_flatMap fun r _ l => nextResponse_message r buf l
  rw [parseStream_reads record [] _, hrun, foldl_record]
  rfl

/-- What the handler was given and what was consumed tell what was read. -/
theorem consumeWith_record_iff (l : List UInt8) (ps : List ParsedPacket) :
    consumeWith record [] l = (ps, l.length) ↔ packets.run l = (ps, []) := by
  obtain ⟨k, hk, htail⟩ := Framer.exists_consumed (f := packets) l
  rw [consume_reads record [] l, foldl_record, nil_append]
  constructor
  · intro h
    have hps := congrArg Prod.fst h
    have hlen := congrArg Prod.snd h
    have htl : (packets.run l).2.length = l.length - k := by rw [htail, length_drop]
    refine Prod.ext hps (eq_nil_of_length_eq_zero ?_)
    omega
  · intro h
    rw [h]
    rfl

theorem run_packStream_iff (buf : List UInt8) (calls : List PackCall) :
    packets.run (packStream buf calls) = (calls.filterMap PackCall.packet, []) ↔ ∀ call ∈ calls, call.Short := by
  have hsent : ∀ p ∈ calls.filterMap PackCall.packet, p.Sent := fun p hp => by
    obtain ⟨call, -, hcall⟩ := mem_filterMap.mp hp
    exact PackCall.packet_sent hcall
  rw [packStream_eq, run_frames_iff _ hsent]
  constructor
  · intro h call hcall
    exact call.short_iff.mpr fun p hp => h p (mem_filterMap.mpr ⟨call, hcall, hp⟩)
  · intro h p hp
    obtain ⟨call, hcall, hpacket⟩ := mem_filterMap.mp hp
    exact call.short_iff.mp (h call hcall) p hpacket

theorem reassembles_iff {σ : Type} (onMsg : σ → OUCHResponse → σ) (s : σ) (client : OuchSessionClient)
    (chunks : List (List UInt8)) (buf : List UInt8) (reports : List Report) (calls : List PackCall) :
    Reassembles onMsg s client chunks buf reports calls ↔ ∀ call ∈ calls, call.Short := by
  rw [← run_packStream_iff buf]
  constructor
  · intro h
    exact (consumeWith_record_iff _ _).mp h.packets
  · intro h
    refine ⟨(parseStream_reads onMsg).feed_eq chunks s, (consume_reads _).feed_eq chunks client, parseStream_reports buf reports,
      (consumeWith_record_iff _ _).mpr h, ?_⟩
    unfold OuchSessionClient.consume
    rw [consume_reads OuchSessionClient.onPacket client _, h]
    rfl

/-- A payload of 65535 bytes gets the length 0, and nothing is delivered. -/
theorem long_payload_stuck : ¬Reassembles record [] {} [] [] [] [.data 65538 (List.replicate 65535 0) false] := by
  intro h
  have hrun := (consumeWith_record_iff _ _).mp h.packets
  rw [run_packStream_iff] at hrun
  have hshort : 65538 < 3 + (List.replicate 65535 (0 : UInt8)).length ∨ (List.replicate 65535 (0 : UInt8)).length < 65535 :=
    hrun _ (List.mem_cons_self ..)
  rw [List.length_replicate] at hshort
  omega

end HftLab.Ouch
