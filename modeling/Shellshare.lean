import Shellshare.TransitionRuns
import Shellshare.LongestSuffix
import Shellshare.Protocol
import Shellshare.MessageHistory
import Shellshare.Rooms
import Shellshare.ServerLoop
import Shellshare.ServerSteps
import Shellshare.ServerContent
import Shellshare.ServerEncryptedMarker
import Shellshare.ServerAttachCount
import Shellshare.ServerOnlineStatus
import Shellshare.ServerPublishOrder
import Shellshare.FrameCoalescing
import Shellshare.ViewerFanout
import Shellshare.ViewerRelay
import Shellshare.ViewerDelivery
import Shellshare.ViewerTask
import Shellshare.ViewerFollows
import Shellshare.DeliverySteps
import Shellshare.ViewerJoin
import Shellshare.CumulativeAcks
import Shellshare.Utf8Validation
import Shellshare.Utf8Decoding
import Shellshare.Keyframer
import Shellshare.KeyframerCarry
import Shellshare.Encryptor
import Shellshare.ReplayBuffer
import Shellshare.Transport
import Shellshare.TransportSteps
import Shellshare.TransportAccounting
import Shellshare.ServerIngest
import Shellshare.ReplayOrder
import Shellshare.BroadcastLink
import Shellshare.AtLeastOnce
import Shellshare.ReplayWindow
import Shellshare.ScriptMode
import Shellshare.StreamMode
import Shellshare.KeyframerBoundary
import Shellshare.KeyframeEviction
import Shellshare.LengthPrefix
import Shellshare.EncryptedRecords
import Shellshare.AgentReader
import Shellshare.StringDecoder
import Shellshare.PatternRemoval
import Shellshare.AgentStrip
import Shellshare.AgentFollow
import Shellshare.AgentGrace
import Shellshare.Unwinding
import Shellshare.RoomsCalls
import Shellshare.RoomsStrangers
import Shellshare.DisjointIntervals
import Shellshare.RoomsSegments
import Shellshare.ServerVacancy
import Shellshare.ServerReset
import Shellshare.ServerLateReset
import Shellshare.ViewerPage
import Shellshare.KeylessPage
import Shellshare.PercentEncoding
import Shellshare.DotSegments
import Shellshare.BrowserUrl
import Shellshare.ShareLink
import Shellshare.RoomIdParse
import Shellshare.RoomNameWeight
import Shellshare.ShareLinkRooms
import Shellshare.Trimming
import Shellshare.AcceptHeader
import Shellshare.ContentNegotiation
import Shellshare.ViewerRegistry
import Shellshare.ViewerCounts
import Shellshare.ViewerConvergence
import Shellshare.SharedBudget
import Shellshare.Dial
import Shellshare.ServerHandover
import Shellshare.ViewerFeed
import Shellshare.RoomIsolation
import Shellshare.Broadcast
import Shellshare.EncryptedBroadcast
import Shellshare.AgentFollowCuts
import Shellshare.AgentInert
import Shellshare.FollowedBroadcast
import Shellshare.FragmentKey
import Shellshare.HistoryDoor
import Shellshare.TransitionReach
import Shellshare.DeliveryProgress
import Shellshare.ClientProgress
import Shellshare.IngestProgress
import Shellshare.BroadcastProgress
import Shellshare.LiveRooms
import Shellshare.CappedDoubling
import Shellshare.RedialPacing
import Shellshare.ClientHandshake
import Shellshare.HttpCache
import Shellshare.AssetServing
import Shellshare.AssetCache
import Shellshare.PageConnection
import Shellshare.ReconnectedPage
import Shellshare.SessionEnd
import Shellshare.ServerSizeFirst
import Shellshare.KeylessViewers
