import HftLab.OrderBook.Exposure
import HftLab.OrderBook.Integrity
import HftLab.Oms.Limit
import HftLab.Oms.OrderValue
import HftLab.OrderBook.Deltas
import HftLab.OrderBook.RoundTrip
import HftLab.Multicast.Tracking
import HftLab.Multicast.Dedup
import HftLab.Multicast.Retransmit
import HftLab.Multicast.MoldRoundTrip
import HftLab.Multicast.MoldReceipt
import HftLab.Multicast.Gaps
import HftLab.Multicast.Arbitration
import HftLab.Risk.Limits
import HftLab.Risk.Restart
import HftLab.Oms.Pnl
import HftLab.Lockfree.Sequencer
import HftLab.Lockfree.VarlenFifo
import HftLab.Logger.Queries
import HftLab.Logger.FlushThread
import HftLab.Itch.Depth
import HftLab.Itch.TapeFolds
import HftLab.Ouch.Session
import HftLab.Ouch.Heartbeat
import HftLab.Ouch.PendingCancel
import HftLab.Fix.Corruption
import HftLab.Fix.Login
import HftLab.Fix.Liveness
import HftLab.Fix.Gapless
import HftLab.Fix.Groups
import HftLab.Common.SymbolKey
import HftLab.OrderBook.TopK
import HftLab.Lockfree.SlotQueue
import HftLab.Feed.WsRoundTrip
import HftLab.Fix.Terminal
import HftLab.Simulator.Agreement
import HftLab.Simulator.Feed
import HftLab.OrderBook.AfterAuction
import HftLab.OrderBook.Repricing
import HftLab.OrderBook.TrailingStops
import HftLab.OrderBook.MarketOrders
import HftLab.OrderBook.PreTrade
import HftLab.Flat.Shadow
import HftLab.Router.Quotes
import HftLab.Router.Halts
import HftLab.Router.RoutingLedger
import HftLab.Strategy.Twap
import HftLab.Strategy.Vwap
import HftLab.Strategy.MarketMaker
import HftLab.OrderBook.MassQuote
import HftLab.Simulator.Ladder
import HftLab.OrderBook.Blanks
import HftLab.OrderBook.ClosingLedger
import HftLab.OrderBook.Modify
import HftLab.Risk.WhatIf
import HftLab.Multicast.Conflation
