/-
  HftLab.Fix.Builders — the message builders of FIXSession (fix_session.hpp).

  Every builder does the same: it prints a body of fields `tag=value`, each followed by the delimiter, into a local array and hands
  it to `build_message`. The body starts with the type, the two comp ids and the next outbound number; `Builder.layout` has, for
  each builder and its arguments, the size of the array, the type and the fields after the number.

  A text argument is a C string, `none` for a null pointer where the builder looks for one. A price is of the caller's type, and how
  `%.2f` prints it is a parameter.
-/

import HftLab.Fix.Session
import HftLab.Oms.Orders

namespace HftLab.Fix

open Lib
open HftLab.Oms (Side)

/-- A C string that an argument points to. -/
abbrev Text := List UInt8

/-- One builder with its arguments, but for the buffer and the delimiter. -/
inductive Builder (D : Type) where
  | buildLogon (hbIntSec : Int)
  | buildHeartbeat (testReqId : Option Text)
  | buildTestRequest (testReqId : Option Text)
  | buildResendRequest (beginSeq endSeq : UInt32)
  | buildSequenceReset (newSeqNo : UInt32) (gapFill : Bool)
  | buildLogout (text : Option Text)
  | buildNewOrder (clOrdId symbol : Text) (side : Side) (qty : Int) (price : D)
  | buildCancelOrder (clOrdId origClOrdId symbol : Text) (side : Side) (qty : Int)
  | buildCancelReplace (clOrdId origClOrdId symbol : Text) (side : Side) (qty : Int) (price : D)
  | buildOrderStatusRequest (clOrdId symbol : Text) (side : Side)
  | buildMassCancel (clOrdId : Text) (requestType : UInt8) (symbol : Option Text)
  | buildMassCancelReport (clOrdId : Text) (response : UInt8) (affected : Int)
  | buildMarketDataRequest (mdReqId : Text) (subType : UInt8) (depth : Int) (symbol : Text)
  | buildMdSnapshot (mdReqId symbol : Text) (bidPx : D) (bidSz : Int) (askPx : D) (askSz : Int)
  | buildMdIncremental (mdReqId : Text) (updateAction entryType : UInt8) (symbol : Text) (px : D) (sz : Int)
  | buildMdRequestReject (mdReqId : Text) (reason : UInt8)
  | buildQuote (quoteId symbol : Text) (bidPx offerPx : D) (bidSize offerSize : Int)
  | buildQuoteRequest (quoteReqId symbol : Text)
  | buildQuoteCancel (quoteId : Text) (cancelType : UInt8) (symbol : Text)
  | buildMassQuote (quoteId sym1 : Text) (bid1 ask1 : D) (sym2 : Text) (bid2 ask2 : D)
  | buildTradeCaptureReport (tradeReportId symbol : Text) (side : Side) (qty : Int) (px : D) (tradeDate : Text)
  | buildBusinessReject (refSeq : UInt32) (refMsgType : Text) (rejectReason : Int) (text : Text)
  | buildTradingSessionStatusRequest (reqId sessionId : Text) (subType : UInt8)
  | buildTradingSessionStatus (sessionId : Text) (status : Int)
  | buildMassStatusRequest (reqId : Text) (reqType : Int) (symbol : Text)
  | buildIoi (ioiId : Text) (transType : UInt8) (symbol : Text) (side : Side) (qty : Int) (price : D)
  | buildExecReport (clOrdId orderId execId : Text) (execType ordStatus : UInt8) (symbol : Text) (side : Side) (lastQty : Int)
      (lastPx : D) (cumQty leavesQty : Int)
  | buildReject (refSeqNum : UInt32) (refMsgType : Option Text) (rejectReason : Int) (text : Option Text)
  /-- The other `build_business_reject`, by reference id. -/
  | buildBusinessRejectById (refMsgType businessRejectRefId : Option Text) (rejectReason : Int) (text : Option Text)
  | buildCancelReject (clOrdId : Text) (origClOrdId orderId : Option Text) (ordStatus cxlRejResponseTo : UInt8) (cxlRejReason : Int)
      (text : Option Text)
  | buildQuoteStatusReport (quoteId symbol : Text) (quoteStatus : Int) (text : Option Text)
  | buildDontKnowTrade (orderId execId : Text) (dkReason : UInt8) (symbol : Text) (side : UInt8) (orderQty : UInt32)
      (text : Option Text)

/-! ## Printing -/

def fixSide : Side → UInt8
  | .buy => '1'.toUInt8
  | .sell => '2'.toUInt8

/-- `%d`. -/
def printInt (n : Int) : List UInt8 := if n < 0 then '-'.toUInt8 :: decimal n.natAbs else decimal n.natAbs

/-- `%u`. -/
def printUInt (n : UInt32) : List UInt8 := decimal n.toNat

/-- `p && *p`: the text, unless it is missing or empty. -/
def nonEmpty (p : Option Text) : Option Text := p.bind fun t => if cString t = [] then none else some (cString t)

/-- `p ? p : ""`. -/
def orEmpty (p : Option Text) : Text := (p.map cString).getD []

/-- What tells one builder from another. -/
structure Layout where
  bodySize : Nat
  msgType : List UInt8
  tail : List (Nat × List UInt8)

section

variable {D : Type} (print2f : D → List UInt8)

def Builder.layout : Builder D → Layout
  | .buildLogon hbIntSec => ⟨160, ascii "A", [(108, printInt hbIntSec)]⟩
  | .buildHeartbeat testReqId => ⟨160, ascii "0", (nonEmpty testReqId).elim [] fun t => [(112, t)]⟩
  | .buildTestRequest testReqId => ⟨160, ascii "1", [(112, (testReqId.map cString).getD (ascii "TEST"))]⟩
  | .buildResendRequest beginSeq endSeq => ⟨160, ascii "2", [(7, printUInt beginSeq), (16, printUInt endSeq)]⟩
  | .buildSequenceReset newSeqNo gapFill =>
    ⟨160, ascii "4", [(36, printUInt newSeqNo), (123, if gapFill then ascii "Y" else ascii "N")]⟩
  | .buildLogout text => ⟨192, ascii "5", (nonEmpty text).elim [] fun t => [(58, t)]⟩
  | .buildNewOrder clOrdId symbol side qty price =>
    ⟨256, ascii "D", [(11, cString clOrdId), (55, cString symbol), (54, [fixSide side]), (38, printInt qty), (44, print2f price),
      (40, ascii "2")]⟩
  | .buildCancelOrder clOrdId origClOrdId symbol side qty =>
    ⟨256, ascii "F", [(11, cString clOrdId), (41, cString origClOrdId), (55, cString symbol), (54, [fixSide side]),
      (38, printInt qty)]⟩
  | .buildCancelReplace clOrdId origClOrdId symbol side qty price =>
    ⟨256, ascii "G", [(11, cString clOrdId), (41, cString origClOrdId), (55, cString symbol), (54, [fixSide side]),
      (38, printInt qty), (44, print2f price), (40, ascii "2")]⟩
  | .buildOrderStatusRequest clOrdId symbol side =>
    ⟨256, ascii "H", [(11, cString clOrdId), (55, cString symbol), (54, [fixSide side])]⟩
  | .buildMassCancel clOrdId requestType symbol =>
    if requestType = '1'.toUInt8 then
      match symbol with
      | some symbol => ⟨256, ascii "q", [(11, cString clOrdId), (530, ascii "1"), (55, cString symbol)]⟩
      | none => ⟨256, ascii "q", [(11, cString clOrdId), (530, ascii "7")]⟩
    else ⟨256, ascii "q", [(11, cString clOrdId), (530, ascii "7")]⟩
  | .buildMassCancelReport clOrdId response affected =>
    ⟨256, ascii "r", [(11, cString clOrdId), (531, [response]), (533, printInt affected)]⟩
  | .buildMarketDataRequest mdReqId subType depth symbol =>
    ⟨256, ascii "V", [(262, cString mdReqId), (263, [subType]), (264, printInt depth), (146, ascii "1"), (55, cString symbol)]⟩
  | .buildMdSnapshot mdReqId symbol bidPx bidSz askPx askSz =>
    ⟨320, ascii "W", [(262, cString mdReqId), (55, cString symbol), (268, ascii "2"),
      (269, ascii "0"), (270, print2f bidPx), (271, printInt bidSz),
      (269, ascii "1"), (270, print2f askPx), (271, printInt askSz)]⟩
  | .buildMdIncremental mdReqId updateAction entryType symbol px sz =>
    ⟨320, ascii "X", [(262, cString mdReqId), (268, ascii "1"), (279, [updateAction]), (269, [entryType]), (55, cString symbol),
      (270, print2f px), (271, printInt sz)]⟩
  | .buildMdRequestReject mdReqId reason => ⟨256, ascii "Y", [(262, cString mdReqId), (281, [reason])]⟩
  | .buildQuote quoteId symbol bidPx offerPx bidSize offerSize =>
    ⟨256, ascii "S", [(117, cString quoteId), (55, cString symbol), (132, print2f bidPx), (133, print2f offerPx),
      (134, printInt bidSize), (135, printInt offerSize)]⟩
  | .buildQuoteRequest quoteReqId symbol => ⟨256, ascii "R", [(131, cString quoteReqId), (146, ascii "1"), (55, cString symbol)]⟩
  | .buildQuoteCancel quoteId cancelType symbol =>
    ⟨256, ascii "Z", [(117, cString quoteId), (298, [cancelType]), (55, cString symbol)]⟩
  | .buildMassQuote quoteId sym1 bid1 ask1 sym2 bid2 ask2 =>
    ⟨320, ascii "i", [(117, cString quoteId), (296, ascii "1"), (295, ascii "2"),
      (299, ascii "1"), (55, cString sym1), (132, print2f bid1), (133, print2f ask1),
      (299, ascii "2"), (55, cString sym2), (132, print2f bid2), (133, print2f ask2)]⟩
  | .buildTradeCaptureReport tradeReportId symbol side qty px tradeDate =>
    ⟨256, ascii "AE", [(571, cString tradeReportId), (55, cString symbol), (54, [fixSide side]), (32, printInt qty),
      (31, print2f px), (75, cString tradeDate)]⟩
  | .buildBusinessReject refSeq refMsgType rejectReason text =>
    ⟨256, ascii "j", [(45, printUInt refSeq), (372, cString refMsgType), (380, printInt rejectReason), (58, cString text)]⟩
  | .buildTradingSessionStatusRequest reqId sessionId subType =>
    ⟨200, ascii "g", [(335, cString reqId), (336, cString sessionId), (263, [subType])]⟩
  | .buildTradingSessionStatus sessionId status => ⟨160, ascii "h", [(336, cString sessionId), (340, printInt status)]⟩
  | .buildMassStatusRequest reqId reqType symbol =>
    ⟨200, ascii "AF", [(584, cString reqId), (585, printInt reqType), (55, cString symbol)]⟩
  | .buildIoi ioiId transType symbol side qty price =>
    ⟨256, ascii "6", [(23, cString ioiId), (28, [transType]), (55, cString symbol), (54, [fixSide side]), (27, printInt qty),
      (44, print2f price)]⟩
  | .buildExecReport clOrdId orderId execId execType ordStatus symbol side lastQty lastPx cumQty leavesQty =>
    ⟨320, ascii "8", [(11, cString clOrdId), (37, cString orderId), (17, cString execId), (150, [execType]), (39, [ordStatus]),
      (55, cString symbol), (54, [fixSide side]), (32, printInt lastQty), (31, print2f lastPx), (14, printInt cumQty),
      (151, printInt leavesQty)]⟩
  | .buildReject refSeqNum refMsgType rejectReason text =>
    ⟨256, ascii "3", [(45, printUInt refSeqNum), (372, orEmpty refMsgType), (373, printInt rejectReason), (58, orEmpty text)]⟩
  | .buildBusinessRejectById refMsgType businessRejectRefId rejectReason text =>
    ⟨256, ascii "j", [(372, orEmpty refMsgType), (379, orEmpty businessRejectRefId), (380, printInt rejectReason),
      (58, orEmpty text)]⟩
  | .buildCancelReject clOrdId origClOrdId orderId ordStatus cxlRejResponseTo cxlRejReason text =>
    ⟨256, ascii "9", [(11, cString clOrdId), (41, orEmpty origClOrdId), (37, orEmpty orderId), (39, [ordStatus]),
      (434, [cxlRejResponseTo]), (102, printInt cxlRejReason), (58, orEmpty text)]⟩
  | .buildQuoteStatusReport quoteId symbol quoteStatus text =>
    ⟨256, ascii "AI", [(117, cString quoteId), (55, cString symbol), (297, printInt quoteStatus)] ++
      (nonEmpty text).elim [] fun t => [(58, t)]⟩
  | .buildDontKnowTrade orderId execId dkReason symbol side orderQty text =>
    ⟨256, ascii "Q", [(37, cString orderId), (17, cString execId), (127, [dkReason]), (55, cString symbol), (54, [side]),
      (38, printUInt orderQty)] ++ (nonEmpty text).elim [] fun t => [(58, t)]⟩

/-! ## Building -/

/-- A builder and the buffer and delimiter that it is called with. -/
structure Call (D : Type) where
  builder : Builder D
  cap : Int
  delim : UInt8 := soh

namespace FIXSession

/-- The fields that every body starts with. -/
def header (s : FIXSession) (msgType : List UInt8) (seq : UInt32) : List (Nat × List UInt8) :=
  [(35, msgType), (49, s.senderComp.text), (56, s.targetComp.text), (34, printUInt seq)]

/-- What the builder prints, with the number `seq`. -/
def bodyText (s : FIXSession) (c : Call D) (seq : UInt32) : List UInt8 :=
  printFields c.delim (s.header (c.builder.layout print2f).msgType seq ++ (c.builder.layout print2f).tail)

def nextOutboundSeq (s : FIXSession) : UInt32 × FIXSession := (s.nextOutSeq, { s with nextOutSeq := s.nextOutSeq + 1 })

/-- The counters that two of the builders keep. -/
def count (s : FIXSession) : Builder D → FIXSession
  | .buildHeartbeat _ => { s with heartbeatsSent := s.heartbeatsSent + 1 }
  | .buildResendRequest _ _ => { s with resendsRequested := s.resendsRequested + 1 }
  | _ => s

/-- A call of a builder: the session after it and what is in the buffer, empty when 0 is returned. -/
def build (s : FIXSession) (c : Call D) : FIXSession × List UInt8 :=
  let (seq, s) := s.nextOutboundSeq
  let body := s.bodyText print2f c seq
  if (c.builder.layout print2f).bodySize ≤ body.length then (s, [])
  else (s.count c.builder, buildMessage c.cap body (ascii "FIX.4.2") c.delim)

end FIXSession

end

end HftLab.Fix
