/-
  HftLab.Ouch.Session — a whole session (soupbin_session.hpp): the client logs in, enters orders and logs out, and the mock
  exchange answers.

  `mock_exchange_respond` takes the packets off the client's stream and writes a login, two reports for each order and the end of
  the session. The client that is given these bytes, cut anyhow, has counted all of them (`session_lossless`).
-/

import HftLab.Lib.Decimal
import HftLab.Ouch.Packets

namespace HftLab.Ouch

open Lib List

variable {n cap startSeq : Nat} {ps : List ParsedPacket}

/-! ## The exchange -/

/-- What has been written to `out`, and the next numbers. -/
structure MockExchange where
  out : List UInt8 := []
  orderRef : Int := 7000
  matchNo : Int := 90000

def sessionId : List UInt8 := "SESSION01".toList.map Char.toUInt8

/-- Session and sequence number, filled up with spaces. -/
def packLoginAccepted (startSeq : Nat) : Encoded where
  fields :=
    (packHeader .loginAccepted 30).fields ++ [(headerSize, pad space 10 sessionId), (headerSize + 10, pad space 20 (decimal startSeq))]
  length := headerSize + 30

/-- Accepted for the order at `payload`. The fields are read at their offsets, however long the payload is; `reprice` is what
    the division by 10000.0 and the multiplication make of a price on the wire. -/
def acceptedReport (reprice : Nat → Nat) (payload : List UInt8) (orderRef : Int) : Report :=
  .accepted (stripPadding (payload.drop 1) 14) (payload.getD 15 0) (i32 (readU32Be (payload.drop 16)))
    (stripPadding (payload.drop 20) 8) (reprice (readU32Be (payload.drop 28))) orderRef (payload.getD 32 0)

def executedReport (reprice : Nat → Nat) (payload : List UInt8) (matchNo : Int) : Report :=
  .executed (stripPadding (payload.drop 1) 14) (i32 (readU32Be (payload.drop 16))) (reprice (readU32Be (payload.drop 28))) matchNo

namespace MockExchange

def Room (x : MockExchange) (cap need : Nat) : Prop := x.out.length + need ≤ cap

instance (x : MockExchange) (cap need : Nat) : Decidable (x.Room cap need) := inferInstanceAs (Decidable (_ ≤ _))

variable (reprice : Nat → Nat) (cap startSeq : Nat) (x : MockExchange)

/-- Without room nothing is written and the loop ends. -/
def reply (need : Nat) (m : Encoded) : MockExchange × Bool :=
  if x.Room cap need then ({ x with out := x.out ++ m.message [] }, true) else (x, false)

/-- A report, packed into what is left of the buffer. -/
def report (msg : List UInt8) : MockExchange × Bool := x.reply cap (headerSize + msg.length) (packData (cap - x.out.length) msg false)

def fill (payload : List UInt8) : MockExchange × Bool :=
  let accepted := (acceptedReport reprice payload x.orderRef).encode.message []
  let (x, ok) := { x with orderRef := x.orderRef + 1 }.report cap accepted
  if !ok then (x, false)
  else
    let executed := (executedReport reprice payload x.matchNo).encode.message []
    { x with matchNo := x.matchNo + 1 }.report cap executed

/-- What the exchange does with a packet whose payload begins at `payload`, and whether its loop goes on. -/
def answer (p : ParsedPacket) (payload : List UInt8) : MockExchange × Bool :=
  match p.type with
  | .loginRequest => x.reply cap (headerSize + 30) (packLoginAccepted startSeq)
  | .unsequencedData => if 1 ≤ p.payload.length ∧ p.payload.getD 0 0 = 'O'.toUInt8 then x.fill reprice cap payload else (x, true)
  | .logoutRequest => x.reply cap headerSize (packHeader .endOfSession 0)
  | _ => (x, true)

end MockExchange

/-- The loop of `mock_exchange_respond` from `inOff` on; its turns are fewer than the bytes. -/
def mockExchangeLoop (reprice : Nat → Nat) (cap startSeq : Nat) (clientStream : List UInt8) : Nat → Nat → MockExchange → MockExchange
  | 0, _, x => x
  | fuel + 1, inOff, x =>
    if inOff < clientStream.length then
      let (p, used) := parsePacket (clientStream.drop inOff)
      if !p.valid then x
      else
        let (x, goesOn) := x.answer reprice cap startSeq p (clientStream.drop (inOff + headerSize))
        if goesOn then mockExchangeLoop reprice cap startSeq clientStream fuel (inOff + used) x else x
    else x

def mockExchangeRespond (reprice : Nat → Nat) (cap startSeq : Nat) (clientStream : List UInt8) : List UInt8 :=
  (mockExchangeLoop reprice cap startSeq clientStream clientStream.length 0 {}).out

/-! ## The client's stream -/

/-- The arguments of `pack_enter_order`. -/
structure EnterOrder where
  token : List UInt8
  side : UInt8
  shares : Int
  stock : List UInt8
  price : Nat
  tif : UInt8 := 'D'.toUInt8

def EnterOrder.pack (cap : Nat) (o : EnterOrder) : Encoded := packEnterOrder cap o.token o.side o.shares o.stock o.price o.tif

structure Login where
  username : List UInt8
  password : List UInt8
  session : List UInt8 := []
  sequence : List UInt8 := ['0'.toUInt8]

def Login.pack (cap : Nat) (l : Login) : Encoded := packLoginRequest cap l.username l.password l.session l.sequence

/-- Login, orders, logout, one behind the other; each was packed into a buffer of `cap` bytes that held `buf`. -/
def clientStream (cap : Nat) (buf : List UInt8) (login : Login) (orders : List EnterOrder) : List UInt8 :=
  (login.pack cap).message buf ++ ((orders.flatMap fun o => (o.pack cap).message buf) ++ packLogoutRequest.message buf)

/-! ## Sequence numbers -/

theorem parseSeqnum_foldl (l : List UInt8) (h : ∀ b ∈ l, IsDigit b) (v : Nat) :
    l.foldl (fun v c => if '0'.toUInt8 ≤ c ∧ c ≤ '9'.toUInt8 then uint64 (v * 10 + (c.toNat - '0'.toNat)) else v) (uint64 v) =
      uint64 (l.foldl (fun v b => 10 * v + (b.toNat - 48)) v) := by
  induction l generalizing v with
  | nil => rfl
  | cons b l ih =>
    have hb : '0'.toUInt8 ≤ b ∧ b ≤ '9'.toUInt8 := h b (mem_cons_self ..)
    have hstep : uint64 (uint64 v * 10 + (b.toNat - '0'.toNat)) = uint64 (10 * v + (b.toNat - 48)) := by
      have hzero : '0'.toNat = 48 := rfl
      unfold uint64
      omega
    rw [foldl_cons, foldl_cons, if_pos hb, hstep]
    exact ih (fun b hb => h b (mem_cons_of_mem _ hb)) _

theorem parseSeqnum_spaces (n v : Nat) :
    (List.replicate n space).foldl
      (fun v c => if '0'.toUInt8 ≤ c ∧ c ≤ '9'.toUInt8 then uint64 (v * 10 + (c.toNat - '0'.toNat)) else v) v = v := by
  induction n with
  | zero => rfl
  | succ n ih =>
    rw [replicate_succ, foldl_cons, if_neg (by decide)]
    exact ih

/-- `parse_seqnum` reads what `%llu` printed. -/
theorem parseSeqnum_pad (h : n < 18446744073709551616) : parseSeqnum (pad space 20 (decimal n)) = n := by
  have hlen : (decimal n).length ≤ 20 := decimal_length_le (by decide) (by omega)
  have hdigits := parseSeqnum_foldl (decimal n) (fun b hb => isDigit_of_mem_decimal hb) 0
  have hvalue : (decimal n).foldl (fun v b => 10 * v + (b.toNat - 48)) 0 = n := digitsValue_decimal n
  rw [hvalue] at hdigits
  unfold parseSeqnum pad
  rw [take_of_length_le hlen, foldl_append, parseSeqnum_spaces]
  exact hdigits.trans (Nat.mod_eq_of_lt h)

/-! ## Frames -/

theorem loginAccepted_message (startSeq : Nat) :
    (packLoginAccepted startSeq).message [] = frame .loginAccepted (pad space 10 sessionId ++ pad space 20 (decimal startSeq)) := by
  have hpacked : (packLoginAccepted startSeq).Packed := by
    constructor <;> simp [packLoginAccepted, packHeader, Adjacent, fieldBytes, writeU16Be, headerSize]
  rw [hpacked.message_eq]
  simp [packLoginAccepted, packHeader, fieldBytes, frame]

def Login.payload (l : Login) : List UInt8 :=
  writePadded l.username 6 ++ writePadded l.password 10 ++ writePadded l.session 10 ++ writePadded l.sequence 20

theorem Login.pack_message (l : Login) (hcap : 49 ≤ cap) (buf : List UInt8) :
    (l.pack cap).message buf = frame .loginRequest l.payload := by
  unfold Login.pack
  rw [PackCall.packLoginRequest_message]
  unfold PackCall.packet
  dsimp only
  rw [if_neg (by omega)]
  rfl

def EnterOrder.payload (o : EnterOrder) : List UInt8 := (enterOrder o.token o.side o.shares o.stock o.price o.tif).message []

theorem EnterOrder.payload_length (o : EnterOrder) : o.payload.length = 33 :=
  Request.message_length (.enter o.token o.side o.shares o.stock o.price o.tif) []

theorem EnterOrder.payload_head (o : EnterOrder) : o.payload.getD 0 0 = 'O'.toUInt8 := rfl

theorem EnterOrder.pack_message (o : EnterOrder) (hcap : 36 ≤ cap) (buf : List UInt8) :
    (o.pack cap).message buf = frame .unsequencedData o.payload := by
  have hlen := o.payload_length
  show (packData cap o.payload true).message buf = _
  exact (packData_room true (by omega) buf).2

/-! ## The exchange's answers -/

/-- Accepted and Executed, `n` times. -/
def Confirms : Nat → List ParsedPacket → Prop
  | 0, ps => ps = []
  | n + 1, ps => ∃ a e rest, ps = a :: e :: rest ∧ Confirms n rest ∧
      (a.Whole ∧ a.type = .sequencedData ∧ (parseResponse a.payload).type = .accepted) ∧
      (e.Whole ∧ e.type = .sequencedData ∧ (parseResponse e.payload).type = .executed)

theorem Confirms.whole (h : Confirms n ps) : ∀ p ∈ ps, p.Whole := by
  induction n generalizing ps with
  | zero =>
    intro p hp
    rw [show ps = [] from h] at hp
    cases hp
  | succ n ih =>
    obtain ⟨a, e, rest, rfl, hrest, ha, he⟩ := h
    intro p hp
    rcases mem_cons.mp hp with rfl | hp
    · exact ha.1
    · rcases mem_cons.mp hp with rfl | hp
      · exact he.1
      · exact ih hrest p hp

def frames (ps : List ParsedPacket) : List UInt8 := ps.flatMap fun p => frame p.type p.payload

namespace MockExchange

variable {reprice : Nat → Nat} {cap startSeq : Nat} {x : MockExchange}

theorem reply_room {need : Nat} (h : x.Room cap need) (m : Encoded) :
    x.reply cap need m = ({ x with out := x.out ++ m.message [] }, true) := if_pos h

theorem report_room {msg : List UInt8} (h : x.Room cap (headerSize + msg.length)) :
    x.report cap msg = ({ x with out := x.out ++ frame .sequencedData msg }, true) := by
  have hroom : x.out.length + (3 + msg.length) ≤ cap := h
  have hmsg := (packData_room false (show 3 + msg.length ≤ cap - x.out.length by omega) []).2
  unfold report
  rw [reply_room h, hmsg]
  rfl

/-- An order is confirmed by an Accepted and an Executed. -/
theorem fill_confirms (payload : List UInt8) (h : x.Room cap 78) :
    ∃ ps, Confirms 1 ps ∧ (x.fill reprice cap payload).2 ∧ (x.fill reprice cap payload).1.out = x.out ++ frames ps ∧
      (frames ps).length = 78 := by
  have hcap : x.out.length + 78 ≤ cap := h
  have halen : ((acceptedReport reprice payload x.orderRef).encode.message []).length = 41 := Report.message_length _ []
  have hachar : charAt ((acceptedReport reprice payload x.orderRef).encode.message []) 0 = 'A' := Report.charAt_zero _ []
  have helen : ((executedReport reprice payload x.matchNo).encode.message []).length = 31 := Report.message_length _ []
  have hechar : charAt ((executedReport reprice payload x.matchNo).encode.message []) 0 = 'E' := Report.charAt_zero _ []
  unfold fill
  generalize (acceptedReport reprice payload x.orderRef).encode.message [] = accepted at halen hachar ⊢
  have hroom1 : ({ x with orderRef := x.orderRef + 1 } : MockExchange).Room cap (headerSize + accepted.length) := by
    show x.out.length + (3 + accepted.length) ≤ cap
    omega
  have hreport1 := report_room hroom1
  simp only [hreport1, Bool.not_true, Bool.false_eq_true, if_false]
  generalize (executedReport reprice payload x.matchNo).encode.message [] = executed at helen hechar ⊢
  have hroom2 : ({ out := x.out ++ frame .sequencedData accepted, orderRef := x.orderRef + 1, matchNo := x.matchNo + 1 } :
      MockExchange).Room cap (headerSize + executed.length) := by
    show (x.out ++ frame .sequencedData accepted).length + (3 + executed.length) ≤ cap
    rw [length_append, frame_length]
    omega
  have hreport2 := report_room hroom2
  rw [hreport2]
  have hatype : (parseResponse accepted).type = .accepted := by simp [parseResponse, halen, hachar]
  have hetype : (parseResponse executed).type = .executed := by simp [parseResponse, helen, hechar]
  refine ⟨[sentData accepted false, sentData executed false],
    ⟨_, _, [], rfl, rfl, ⟨⟨⟨rfl, rfl⟩, ?_⟩, rfl, hatype⟩, ⟨⟨⟨rfl, rfl⟩, ?_⟩, rfl, hetype⟩⟩, rfl, ?_, ?_⟩
  · show accepted.length < 65535
    omega
  · show executed.length < 65535
    omega
  · simp [frames, sentData]
  · simp [frames, sentData, halen, helen]

end MockExchange

section

variable {reprice : Nat → Nat} {cap startSeq : Nat} {stream : List UInt8} {fuel off : Nat} {x : MockExchange} {rest : List UInt8}

/-- One turn of the loop, at a whole packet. -/
theorem mockExchangeLoop_packet {p : ParsedPacket} (hp : p.Whole) (hdrop : stream.drop off = frame p.type p.payload ++ rest)
    (hon : (x.answer reprice cap startSeq p (p.payload ++ rest)).2) :
    mockExchangeLoop reprice cap startSeq stream (fuel + 1) off x =
      mockExchangeLoop reprice cap startSeq stream fuel (off + (frame p.type p.payload).length)
        (x.answer reprice cap startSeq p (p.payload ++ rest)).1 := by
  obtain ⟨⟨hvalid, htype⟩, hshort⟩ := hp
  have hoff : off < stream.length := by
    have hlen := congrArg List.length hdrop
    rw [length_drop, length_append, frame_length] at hlen
    omega
  have hparse := parsePacket_of_next (@nextPacket_frame p.payload p.type hshort rest)
  rw [htype, ← hdrop] at hparse
  have hpayload : stream.drop (off + headerSize) = p.payload ++ rest := by
    rw [← drop_drop, hdrop]
    rfl
  have hself : ({ type := p.type, payload := p.payload, valid := true } : ParsedPacket) = p := by
    rw [← hvalid]
  rw [hself] at hparse
  show (if off < stream.length then _ else _) = _
  rw [if_pos hoff, hparse]
  dsimp only
  rw [hvalid, hpayload, hon]
  rfl

theorem drop_frame {front : List UInt8} (h : stream.drop off = front ++ rest) : stream.drop (off + front.length) = rest := by
  rw [← drop_drop, h, drop_left' rfl]

/-- The orders are confirmed one after the other. -/
theorem mockExchangeLoop_orders (orders : List EnterOrder)
    (hdrop : stream.drop off = (orders.flatMap fun o => frame .unsequencedData o.payload) ++ rest)
    (hroom : x.Room cap (78 * orders.length)) :
    ∃ ps off' x', Confirms orders.length ps ∧ x'.out = x.out ++ frames ps ∧ (frames ps).length = 78 * orders.length ∧
      stream.drop off' = rest ∧
      mockExchangeLoop reprice cap startSeq stream (fuel + orders.length) off x = mockExchangeLoop reprice cap startSeq stream fuel off' x' := by
  induction orders generalizing off x with
  | nil => exact ⟨[], off, x, rfl, (append_nil _).symm, rfl, hdrop, rfl⟩
  | cons o orders ih =>
    rw [flatMap_cons, append_assoc] at hdrop
    have hcap : x.out.length + 78 * (orders.length + 1) ≤ cap := hroom
    let p : ParsedPacket := { type := .unsequencedData, payload := o.payload, valid := true }
    have hlen := o.payload_length
    have hp : p.Whole := ⟨⟨rfl, rfl⟩, by show o.payload.length < 65535; omega⟩
    let tail := (orders.flatMap fun o => frame .unsequencedData o.payload) ++ rest
    have hanswer : x.answer reprice cap startSeq p (p.payload ++ tail) = x.fill reprice cap (p.payload ++ tail) := by
      show (if 1 ≤ o.payload.length ∧ o.payload.getD 0 0 = 'O'.toUInt8 then x.fill reprice cap _ else (x, true)) = _
      rw [if_pos ⟨by omega, o.payload_head⟩]
    obtain ⟨ps, hps, hon, hout, hsize⟩ := @MockExchange.fill_confirms reprice cap x (p.payload ++ tail)
      (show x.out.length + 78 ≤ cap by omega)
    rw [← hanswer] at hon hout
    have hstep : mockExchangeLoop reprice cap startSeq stream (fuel + orders.length + 1) off x = _ :=
      mockExchangeLoop_packet hp hdrop hon
    have hroom' : (x.answer reprice cap startSeq p (p.payload ++ tail)).1.Room cap (78 * orders.length) := by
      show List.length _ + _ ≤ cap
      rw [hout, length_append, hsize]
      omega
    obtain ⟨ps', off', x', hps', hout', hsize', hdrop', hrun⟩ := ih (drop_frame hdrop) hroom'
    obtain ⟨a, e, none, rfl, hnone, ha, he⟩ := hps
    rw [show none = [] from hnone] at hout hsize
    refine ⟨a :: e :: ps', off', x', ⟨a, e, ps', rfl, hps', ha, he⟩, ?_, ?_, hdrop', ?_⟩
    · rw [hout', hout, append_assoc]
      simp [frames]
    · have hsplit : frames (a :: e :: ps') = frames [a, e] ++ frames ps' := by simp [frames]
      rw [hsplit, length_append, hsize, hsize', length_cons]
      omega
    · rw [length_cons, ← Nat.add_assoc, hstep]
      exact hrun

theorem mockExchangeLoop_end (x : MockExchange) (hdrop : stream.drop off = []) :
    mockExchangeLoop reprice cap startSeq stream fuel off x = x := by
  have hoff : ¬off < stream.length := by
    have hlen := congrArg List.length hdrop
    rw [length_drop, length_nil] at hlen
    omega
  cases fuel with
  | zero => rfl
  | succ fuel => exact if_neg hoff

end

/-- What comes back for a whole session. -/
theorem mockExchangeRespond_session (reprice : Nat → Nat) {outCap : Nat} (buf : List UInt8) (login : Login)
    (orders : List EnterOrder) (hcap : 49 ≤ cap) (hout : 36 + 78 * orders.length ≤ outCap) :
    ∃ ps, Confirms orders.length ps ∧
      mockExchangeRespond reprice outCap startSeq (clientStream cap buf login orders) =
        frame .loginAccepted (pad space 10 sessionId ++ pad space 20 (decimal startSeq)) ++ (frames ps ++ frame .endOfSession []) := by
  have hstream : clientStream cap buf login orders =
      frame .loginRequest login.payload ++
        ((orders.flatMap fun o => frame .unsequencedData o.payload) ++ frame .logoutRequest []) := by
    have horders : (orders.flatMap fun o => (o.pack cap).message buf) = orders.flatMap fun o => frame .unsequencedData o.payload :=
      congrArg (List.flatMap · orders) (funext fun o => o.pack_message (by omega) buf)
    have hlogout : packLogoutRequest.message buf = frame .logoutRequest [] := PackCall.packHeader_message _ buf
    unfold clientStream
    rw [login.pack_message hcap, horders, hlogout]
  have hlen : 3 + orders.length ≤ (clientStream cap buf login orders).length := by
    have horders : orders.length ≤ (orders.flatMap fun o => frame .unsequencedData o.payload).length := by
      clear hout hstream
      induction orders with
      | nil => exact Nat.zero_le _
      | cons o orders ih =>
        rw [flatMap_cons, length_append, frame_length, length_cons]
        omega
    rw [hstream, length_append, length_append, frame_length, frame_length]
    omega
  unfold mockExchangeRespond
  generalize clientStream cap buf login orders = stream at hstream hlen
  obtain ⟨fuel, hfuel⟩ : ∃ fuel, stream.length = fuel + 1 + orders.length + 1 := ⟨stream.length - orders.length - 2, by omega⟩
  rw [hfuel]
  -- login
  let p : ParsedPacket := { type := .loginRequest, payload := login.payload, valid := true }
  have hp : p.Whole := ⟨⟨rfl, rfl⟩, by show login.payload.length < 65535; simp [Login.payload]⟩
  let rest := (orders.flatMap fun o => frame .unsequencedData o.payload) ++ frame .logoutRequest []
  have hroom : ({} : MockExchange).Room outCap (headerSize + 30) := by
    show 0 + (3 + 30) ≤ outCap
    omega
  have hlogin : MockExchange.answer reprice outCap startSeq {} p (p.payload ++ rest) =
      ({ out := (packLoginAccepted startSeq).message [] }, true) := MockExchange.reply_room hroom _
  have hdrop : stream.drop 0 = frame p.type p.payload ++ rest := hstream
  rw [mockExchangeLoop_packet hp hdrop (by rw [hlogin]), hlogin, loginAccepted_message]
  -- orders
  have hrest := drop_frame hdrop
  have hfront : (frame .loginAccepted (pad space 10 sessionId ++ pad space 20 (decimal startSeq))).length = 33 := by simp
  obtain ⟨ps, off, x, hps, hxout, hsize, hleft, hrun⟩ := @mockExchangeLoop_orders reprice outCap startSeq stream
    (fuel + 1) _ { out := frame .loginAccepted (pad space 10 sessionId ++ pad space 20 (decimal startSeq)) } _ orders hrest
    (show List.length _ + _ ≤ _ by rw [hfront]; omega)
  rw [hrun]
  -- logout
  let q : ParsedPacket := { type := .logoutRequest, payload := [], valid := true }
  have hq : q.Whole := ⟨⟨rfl, rfl⟩, by show 0 < 65535; omega⟩
  have hdrop' : stream.drop off = frame q.type q.payload ++ [] := hleft.trans (append_nil _).symm
  have hlogout : x.answer reprice outCap startSeq q (q.payload ++ []) =
      ({ x with out := x.out ++ (packHeader .endOfSession 0).message [] }, true) := by
    apply MockExchange.reply_room
    show x.out.length + 3 ≤ outCap
    rw [hxout, length_append, hsize, hfront]
    omega
  rw [mockExchangeLoop_packet hq hdrop' (by rw [hlogout]), hlogout, mockExchangeLoop_end _ (drop_frame hdrop'),
    PackCall.packHeader_message]
  refine ⟨ps, hps, ?_⟩
  rw [hxout, append_assoc]

/-! ## The client -/

/-- Logged in and out again, and nothing was lost or misread. -/
structure Complete (n startSeq : Nat) (c : OuchSessionClient) : Prop where
  loggedIn : c.loggedIn = true
  sessionEnded : c.sessionEnded = true
  accepts : c.accepts = n
  executes : c.executes = n
  errors : c.errors = 0
  expected : c.seq.expected = startSeq + 2 * n

theorem onPacket_report (c : OuchSessionClient) {p : ParsedPacket} (hp : p.Whole) (htype : p.type = .sequencedData) :
    ((parseResponse p.payload).type = .accepted →
      c.onPacket p = { c with seq := c.seq.observeSequenced, accepts := uint64 (c.accepts + 1) }) ∧
    ((parseResponse p.payload).type = .executed →
      c.onPacket p = { c with seq := c.seq.observeSequenced, executes := uint64 (c.executes + 1) }) := by
  have hvalid := hp.1.1
  constructor
  · intro h
    simp [OuchSessionClient.onPacket, hvalid, htype, h]
  · intro h
    simp [OuchSessionClient.onPacket, hvalid, htype, h]

/-- Each confirmation counts once and takes two sequence numbers. -/
theorem Confirms.count (h : Confirms n ps) (c : OuchSessionClient) (ha : c.accepts + n < 18446744073709551616)
    (he : c.executes + n < 18446744073709551616) (hs : c.seq.expected + 2 * n < 18446744073709551616) :
    let c' := ps.foldl OuchSessionClient.onPacket c
    c'.loggedIn = c.loggedIn ∧ c'.errors = c.errors ∧ c'.accepts = c.accepts + n ∧ c'.executes = c.executes + n ∧
      c'.seq.expected = c.seq.expected + 2 * n := by
  induction n generalizing c ps with
  | zero =>
    rw [show ps = [] from h]
    exact ⟨rfl, rfl, rfl, rfl, rfl⟩
  | succ n ih =>
    obtain ⟨a, e, rest, rfl, hrest, ⟨haw, hat, hatype⟩, ⟨hew, het, hetype⟩⟩ := h
    rw [foldl_cons, foldl_cons, (onPacket_report c haw hat).1 hatype, (onPacket_report _ hew het).2 hetype]
    have haccepts : uint64 (c.accepts + 1) = c.accepts + 1 := uint64_eq (by omega)
    have hexecutes : uint64 (c.executes + 1) = c.executes + 1 := uint64_eq (by omega)
    have hexpected : (c.seq.observeSequenced.observeSequenced).expected = c.seq.expected + 2 := by
      have hfirst : uint64 (c.seq.expected + 1) = c.seq.expected + 1 := uint64_eq (by omega)
      show uint64 (uint64 (c.seq.expected + 1) + 1) = c.seq.expected + 2
      rw [hfirst]
      exact uint64_eq (by omega)
    dsimp only
    rw [haccepts, hexecutes]
    obtain ⟨h1, h2, h3, h4, h5⟩ := ih hrest
      { c with seq := c.seq.observeSequenced.observeSequenced, accepts := c.accepts + 1, executes := c.executes + 1 }
      (by dsimp only; omega) (by dsimp only; omega) (by dsimp only; omega)
    dsimp only at h1 h2 h3 h4 h5
    exact ⟨h1, h2, by omega, by omega, by omega⟩

/-- The acceptance sets the sequence number. -/
theorem onPacket_login (hpos : 1 ≤ startSeq) (hlt : startSeq < 18446744073709551616) :
    OuchSessionClient.onPacket {}
        { type := .loginAccepted, payload := pad space 10 sessionId ++ pad space 20 (decimal startSeq), valid := true } =
      { loggedIn := true, seq := .resetTo startSeq } := by
  have hseq : slice (pad space 10 sessionId ++ pad space 20 (decimal startSeq)) 10 20 = pad space 20 (decimal startSeq) := by
    unfold slice
    rw [drop_left' (pad_length _ _ _), take_of_length_le (by simp)]
  have hlen : 30 ≤ (pad space 10 sessionId ++ pad space 20 (decimal startSeq)).length := by simp
  show ({ loggedIn := true, seq := if _ then _ else _ } : OuchSessionClient) = _
  rw [if_pos hlen, hseq, parseSeqnum_pad hlt, if_neg (by omega)]

/-- However the exchange's bytes are cut, the client has counted every order, and nothing is left over. -/
theorem session_lossless (reprice : Nat → Nat) {cap outCap startSeq : Nat} (buf : List UInt8) (login : Login)
    (orders : List EnterOrder) (chunks : List (List UInt8)) (hcap : 49 ≤ cap) (hout : 36 + 78 * orders.length ≤ outCap)
    (hpos : 1 ≤ startSeq) (hseq : startSeq + 2 * orders.length < 18446744073709551616)
    (hchunks : chunks.flatten = mockExchangeRespond reprice outCap startSeq (clientStream cap buf login orders)) :
    ∃ c, feed OuchSessionClient.consume chunks [] {} = (c, []) ∧ Complete orders.length startSeq c := by
  obtain ⟨ps, hps, hbytes⟩ := @mockExchangeRespond_session cap startSeq reprice outCap buf login orders hcap hout
  let first : ParsedPacket :=
    { type := .loginAccepted, payload := pad space 10 sessionId ++ pad space 20 (decimal startSeq), valid := true }
  let last : ParsedPacket := { type := .endOfSession, payload := [], valid := true }
  have hfirst : first.Whole := by
    refine ⟨⟨rfl, rfl⟩, ?_⟩
    show (pad space 10 sessionId ++ pad space 20 (decimal startSeq)).length < 65535
    simp
  have hlast : last.Whole := ⟨⟨rfl, rfl⟩, by show 0 < 65535; omega⟩
  have hwhole : ∀ p ∈ first :: (ps ++ [last]), p.Whole := by
    intro p hp
    rcases List.mem_cons.mp hp with rfl | hp
    · exact hfirst
    · rcases List.mem_append.mp hp with hp | hp
      · exact hps.whole p hp
      · rwa [List.mem_singleton.mp hp]
  have hall : chunks.flatten = ((first :: (ps ++ [last])).flatMap fun p => frame p.type p.payload) ++ [] := by
    rw [hchunks, hbytes]
    simp [frames, first, last]
  have hrun := run_wholes hwhole []
  rw [← hall, Framer.run_none Framer.next_nil, List.append_nil] at hrun
  have hfeed := (consume_reads OuchSessionClient.onPacket).feed chunks Framer.next_nil {}
  rw [List.nil_append, hrun] at hfeed
  refine ⟨_, hfeed, ?_⟩
  rw [List.foldl_cons, onPacket_login hpos (by omega), List.foldl_append]
  obtain ⟨h1, h2, h3, h4, h5⟩ := hps.count { loggedIn := true, seq := .resetTo startSeq } (by dsimp only; omega) (by dsimp only; omega) hseq
  exact
    { loggedIn := h1
      sessionEnded := rfl
      accepts := h3.trans (Nat.zero_add _)
      executes := h4.trans (Nat.zero_add _)
      errors := h2
      expected := h5 }

def sampleLogin : Login := { username := "USER1".toList.map Char.toUInt8, password := "PASS".toList.map Char.toUInt8 }

def sampleOrder (token : String) : EnterOrder :=
  { token := token.toList.map Char.toUInt8, side := 'B'.toUInt8, shares := 100, stock := "AAPL".toList.map Char.toUInt8, price := 1502500 }

/-- Two orders; the answer is cut inside the first packet. -/
theorem session_lossless_sample :
    let out := mockExchangeRespond id 192 5 (clientStream 64 [] sampleLogin [sampleOrder "A", sampleOrder "B"])
    ∃ c, feed OuchSessionClient.consume [out.take 7, out.drop 7] [] {} = (c, []) ∧ Complete 2 5 c :=
  @session_lossless id 64 192 5 [] sampleLogin [sampleOrder "A", sampleOrder "B"] _ (by decide) (by decide) (by decide) (by decide)
    (by rw [List.flatten_cons, List.flatten_cons, List.flatten_nil, List.append_nil, List.take_append_drop])

end HftLab.Ouch
