import JackalopeFs.AliasPaths
import JackalopeFs.BoundedSearch
import JackalopeFs.CallOrder
import JackalopeFs.CaptureCensus
import JackalopeFs.ChangeAttribution
import JackalopeFs.ChangeLogOrder
import JackalopeFs.ChangeOrder
import JackalopeFs.ClientCalls
import JackalopeFs.ClientConnections
import JackalopeFs.ClientHandles
import JackalopeFs.ClientMachine
import JackalopeFs.ClientTasks
import JackalopeFs.CollapsingQueues
import JackalopeFs.ControlConversions
import JackalopeFs.ControlMessages
import JackalopeFs.ControlRoundTrip
import JackalopeFs.ControlSizes
import JackalopeFs.DirectoryListing
import JackalopeFs.DirectoryPages
import JackalopeFs.EventReader
import JackalopeFs.EventStream
import JackalopeFs.EventWindow
import JackalopeFs.Fingerprints
import JackalopeFs.FinishedExchanges
import JackalopeFs.ForestEdges
import JackalopeFs.FrameCodec
import JackalopeFs.FrameDelivery
import JackalopeFs.FrameSizes
import JackalopeFs.HandleIds
import JackalopeFs.HandleRows
import JackalopeFs.HeldChanges
import JackalopeFs.Histograms
import JackalopeFs.IndexedCells
import JackalopeFs.Invalidation
import JackalopeFs.KernelListing
import JackalopeFs.KernelLookups
import JackalopeFs.KernelTimes
import JackalopeFs.KeyedTables
import JackalopeFs.LaggingReplies
import JackalopeFs.ListingPages
import JackalopeFs.LittleEndian
import JackalopeFs.NamedForests
import JackalopeFs.NodeAddressing
import JackalopeFs.NodeNumbers
import JackalopeFs.NodeTable
import JackalopeFs.NodeTableShape
import JackalopeFs.NodeTableSteps
import JackalopeFs.OpenDispatch
import JackalopeFs.OpenedHandles
import JackalopeFs.OwedReleases
import JackalopeFs.OwnerIds
import JackalopeFs.OwnerMapping
import JackalopeFs.PageSizes
import JackalopeFs.PathGrammar
import JackalopeFs.PathNames
import JackalopeFs.PlainText
import JackalopeFs.Protocol
import JackalopeFs.ProtocolLinks
import JackalopeFs.RankedCounts
import JackalopeFs.RecordBuffers
import JackalopeFs.RecordLines
import JackalopeFs.RememberedEnds
import JackalopeFs.ReopenRounds
import JackalopeFs.ReopenedHandles
import JackalopeFs.RequestSubjects
import JackalopeFs.RequestTasks
import JackalopeFs.RootReplies
import JackalopeFs.ServedExchanges
import JackalopeFs.SessionAttendance
import JackalopeFs.SessionExchange
import JackalopeFs.SessionOwnership
import JackalopeFs.SessionResume
import JackalopeFs.SessionTable
import JackalopeFs.ShareReports
import JackalopeFs.SharedHandles
import JackalopeFs.TapCounts
import JackalopeFs.TapQueue
import JackalopeFs.TerminalTables
import JackalopeFs.TextBytes
import JackalopeFs.TransitionRuns
import JackalopeFs.WatchBatches
import JackalopeFs.WatchBooks
import JackalopeFs.WatchEviction
import JackalopeFs.WatchLaws
import JackalopeFs.WatchRecency
import JackalopeFs.WatchReports
import JackalopeFs.WatchShape
import JackalopeFs.WatchTable
import JackalopeFs.WatchedTree
import JackalopeFs.WireConversions
import JackalopeFs.WireMessages
import JackalopeFs.WireRequests
import JackalopeFs.WireRoundTrip
import JackalopeFs.WireSchema
import JackalopeFs.WordLayout
import JackalopeFs.WrongNames
import JackalopeFs.XattrNames
