import GammaRay.Bytes
import GammaRay.Loop
import GammaRay.BsonEncoder
import GammaRay.BsonDecoder
import GammaRay.BsonEncoderBytes
import GammaRay.BsonDocument
import GammaRay.BsonRoundTrip
import GammaRay.BsonFile
import GammaRay.BsonElements
import GammaRay.NbdServer
import GammaRay.NbdResume
import GammaRay.NbdSegmentation
import GammaRay.NbdEffects
import GammaRay.NbdProgress
import GammaRay.NbdReplies
import GammaRay.WriteQueue
import GammaRay.Decimal
import GammaRay.Redis
import GammaRay.KvStore
import GammaRay.Pipeline
import GammaRay.PipelineAccounting
import GammaRay.Replay
import GammaRay.Schema
import GammaRay.Loader
import GammaRay.FileRecord
import GammaRay.LoadIndex
import GammaRay.GrayFs
import GammaRay.GrayFsWindow
import GammaRay.Bitarray
import GammaRay.MetadataFilter
import GammaRay.AsyncEnqueue
import GammaRay.Ext4
import GammaRay.ExtentTree
import GammaRay.ExtentLookup
import GammaRay.ExtentAgreement
import GammaRay.MetadataSectors
import GammaRay.FileSectors
import GammaRay.FilePlacement
import GammaRay.SerializeTree
import GammaRay.CrawlTree
import GammaRay.CrawlDocuments
import GammaRay.BsonStride
import GammaRay.BsonMalformed
import GammaRay.BsonCompound
import GammaRay.BlockMap
import GammaRay.BlockMapLookup
import GammaRay.BlockGroups
import GammaRay.MetadataKeys
import GammaRay.Total
import GammaRay.DeepInspection
import GammaRay.InspectCalls
import GammaRay.FileData
import GammaRay.InodeUpdate
import GammaRay.UpdateOrder
import GammaRay.WriteOrder
import GammaRay.Simulation
import GammaRay.InspectLog
import GammaRay.LoadQueue
import GammaRay.QueueBlocks
import GammaRay.QueueRuns
import GammaRay.SectorPointers
import GammaRay.FileClipping
import GammaRay.InspectChunks
import GammaRay.RecordFields
import GammaRay.BgdUpdate
import GammaRay.WalkTermination
import GammaRay.InodeCache
import GammaRay.Segments
import GammaRay.ExtentList
import GammaRay.ExtentLeaves
import GammaRay.InodeReports
import GammaRay.InodeDiffs
import GammaRay.NbdTransfers
import GammaRay.TraceStream
import GammaRay.Ntfs
import GammaRay.NtfsFixup
import GammaRay.NtfsRuns
import GammaRay.NtfsStreams
import GammaRay.NtfsAttributes
import GammaRay.Mbr
import GammaRay.Observation
import GammaRay.NbdAtomic
import GammaRay.NbdAccess
import GammaRay.Patch
import GammaRay.Mirror
import GammaRay.Inferencer
import GammaRay.Monitor
import GammaRay.Index
import GammaRay.IndexLayout
import GammaRay.Recursion
import GammaRay.Typed
import GammaRay.LoadSteps
import GammaRay.Readable
import GammaRay.CrawlRecords
import GammaRay.CrawledDisk
