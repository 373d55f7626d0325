import Tortor.Lib.Framing
import Tortor.Net.RoutingLaws
import Tortor.Net.RoutingInserts
import Tortor.Net.WireLaws
import Tortor.Core.Bitfield
import Tortor.Core.Bencode
import Tortor.Core.ManagerLaws
import Tortor.Core.DiskLaws
import Tortor.System.Torrent
import Tortor.System.Durable
import Tortor.System.Restart
import Tortor.System.SelectionChange
import Tortor.Net.MetadataLaws
import Tortor.Net.MetadataRestart
import Tortor.Net.SearchReplies
import Tortor.Net.ServerLaws
import Tortor.System.Swarm
import Tortor.Core.CoordinatorLaws
import Tortor.Lib.Tally
import Tortor.Net.UploadSharing
import Tortor.Net.ExtensionRouting
import Tortor.System.Announced
import Tortor.System.Availability
import Tortor.System.Reservations
import Tortor.System.Completion
import Tortor.Core.AtomicWrite
import Tortor.Core.ResumeLaws
import Tortor.Core.Storage
import Tortor.Net.PortMap
import Tortor.System.Released
import Tortor.Net.AnnounceTokens
import Tortor.Net.SwarmTasks
import Tortor.Net.SwarmAnnounces
import Tortor.Net.SwarmQueue
import Tortor.Core.SelectionLaws
import Tortor.Core.PiecePicking
import Tortor.Core.AssemblerLaws
import Tortor.System.PieceLengths
import Tortor.System.FileCheck
import Tortor.Net.PexDeltas
import Tortor.Net.CompactPeers
import Tortor.Core.DiskBackends
import Tortor.System.DiskBounds
import Tortor.Core.BencodeValues
import Tortor.Core.BencodeWords
import Tortor.Core.BencodeLaws
import Tortor.Core.SafePaths
import Tortor.Net.Shaper
import Tortor.Net.ShapedStream
import Tortor.Core.LongNames
import Tortor.Lib.Digits
import Tortor.Net.Magnet
import Tortor.Lib.Table
import Tortor.Net.PeerStore
import Tortor.Core.BlockClasses
import Tortor.Net.WireBuffer
import Tortor.Core.BitfieldLaws
import Tortor.Core.MetadataAssembly
import Tortor.Core.BlockRequests
import Tortor.Net.Pipelining
import Tortor.System.Uploads
import Tortor.Net.Probe
import Tortor.Net.UdpTrackerLaws
import Tortor.Net.MetadataFetchLaws
import Tortor.System.Dashboard
import Tortor.System.DashboardLaws
import Tortor.System.DashboardQuit
import Tortor.System.DashboardChoices
import Tortor.System.DashboardRemoval
import Tortor.Lib.CanReach
import Tortor.System.Layout
import Tortor.System.Stranded
import Tortor.Net.SessionEnding
import Tortor.System.Draining
import Tortor.Net.SessionFetching
import Tortor.System.Seeding
import Tortor.System.Completable
