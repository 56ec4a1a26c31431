import Ditto.Spans
import Ditto.Runs
import Ditto.Traces
import Ditto.Sequences
import Ditto.Words
import Ditto.ContiguousBlock
import Ditto.ReconstructedChunk
import Ditto.ChunkHistories
import Ditto.BitmapRoundTrip
import Ditto.Outcomes
import Ditto.XferPlugin
import Ditto.ConnectionCounts
import Ditto.ConnectionLifetime
import Ditto.ConnectionWaiters
import Ditto.ConnectionWakeups
import Ditto.ConnectionUniqueness
import Ditto.OutOfOrder
import Ditto.GtcNode
import Ditto.ContentAddressing
import Ditto.SniffTcp
import Ditto.InsertWalk
import Ditto.FlowFaithfulness
import Ditto.Bookkeeping
import Ditto.RecordEncoding
import Ditto.SentRanges
import Ditto.SliceBounds
import Ditto.ChunkInfoCache
import Ditto.OrderIndependence
import Ditto.InOrderCapture
import Ditto.TransferService
import Ditto.TransferRuns
import Ditto.StatusRange
import Ditto.HandlerOutcomes
import Ditto.FetchErrors
import Ditto.Underway
import Ditto.RequestHolding
import Ditto.References
import Ditto.EntryLookups
import Ditto.SequentialDelivery
import Ditto.ReplyOffsets
import Ditto.SequenceShift
import Ditto.Wraparound
import Ditto.ChunkExchange
import Ditto.DescriptorExchange
import Ditto.PutFd
import Ditto.SharedTable
import Ditto.ChunkRequests
import Ditto.SteadySteps
import Ditto.PeerHints
import Ditto.PeerServer
import Ditto.PeerAnswers
import Ditto.RecordExtraction
import Ditto.ChunkIdReach
import Ditto.ChunkAccounts
import Ditto.OverlappingSegments
import Ditto.ChunkClaiming
import Ditto.HeaderlessSegments
import Ditto.IdealSniffer
import Ditto.ChunkFronts
import Ditto.FlagSteps
import Ditto.DoneFlags
import Ditto.FirstHeader
import Ditto.FrameParsing
import Ditto.FailedConnects
import Ditto.ReplyBounds
import Ditto.TransferProgress
import Ditto.RoutingInfo
import Ditto.NamedSources
import Ditto.HintParsing
import Ditto.PluginWiring
import Ditto.PayloadSplit
import Ditto.FlowNames
import Ditto.BitmapPacking
import Ditto.RecordFraming
import Ditto.SettledBytes
import Ditto.ChunkStocks
import Ditto.ClaimedRecords
import Ditto.ChanceSteps
import Ditto.ChanceRuns
import Ditto.StreamPasses
import Ditto.MultipleChances
import Ditto.Overhearing
import Ditto.WifiFrames
import Ditto.LinkStore
import Ditto.PrintedConfiguration
import Ditto.ConfigSections
