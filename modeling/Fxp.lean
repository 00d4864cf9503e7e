import Fxp.Stops
import Fxp.Lib.Loop
import Fxp.Auction
import Fxp.Uncross
import Fxp.Session
import Fxp.Proto
import Fxp.Schedule
import Fxp.Engine
import Fxp.Phases
import Fxp.Process
import Fxp.Service
import Fxp.BookSpec
import Fxp.MatchSpec
import Fxp.SweepSpec
import Fxp.Progress
import Fxp.Tracked
import Fxp.Replay
import Fxp.ExecSteps
import Fxp.Shadow
import Fxp.CascadeSteps
import Fxp.LeaveSteps
import Fxp.Allocation
import Fxp.AuctionSteps
import Fxp.SessionSteps
import Fxp.RequestChecks
import Fxp.RequestSteps
import Fxp.Reachable
import Fxp.Safety
import Fxp.Lib.Prefixes
import Fxp.MarketData
import Fxp.Console
import Fxp.FillOrKill
import Fxp.Rejects
import Fxp.Indicative
import Fxp.Expiry
import Fxp.Fix.MarketDataRequests
import Fxp.Totals
import Fxp.Accounting
import Fxp.Status
import Fxp.StatusFrames
import Fxp.Lives
import Fxp.EventLog
import Fxp.Recovery
import Fxp.MassCancel
import Fxp.Rounds
import Fxp.Boundaries
import Fxp.Snapshot
import Fxp.Lib.Protobuf
import Fxp.Frames
import Fxp.Fix.Codec
import Fxp.Fix.Stream
import Fxp.Fix.Resend
import Fxp.Fix.Session
import Fxp.Fix.Dispatch
import Fxp.Fix.Inbound
import Fxp.Fix.Gaps
import Fxp.Gateway.Ownership
import Fxp.Gateway.Moves
import Fxp.Gateway.Ordering
import Fxp.Gateway.Isolation
import Fxp.Gateway.Transit
import Fxp.Gateway.Stages
import Fxp.Gateway.Answers
import Fxp.SessionRuns
import Fxp.Gateway.Auth
import Fxp.Fix.FileStore
import Fxp.Fix.StoreRecords
import Fxp.Fix.StoreSpec
import Fxp.Fix.StoreRefines
import Fxp.Fix.StoreEpoch
import Fxp.Gateway.Prices
import Fxp.Fix.GatewayClient
import Fxp.Gateway.StpScope
import Fxp.Fix.SessionWindow
import Fxp.Fix.StoreNames
import Fxp.Runs
import Fxp.Tape
