import TrafficServer.Lib.LinkSeg
import TrafficServer.Lib.Run
import TrafficServer.Lib.Pieces
import TrafficServer.Lib.Bits
import TrafficServer.Lib.Dll
import TrafficServer.Lib.HashChain
import TrafficServer.Cache.Dir
import TrafficServer.Cache.Segment
import TrafficServer.Cache.SegmentLinks
import TrafficServer.Cache.SegmentInv
import TrafficServer.Cache.SegmentOps
import TrafficServer.Cache.Probe
import TrafficServer.Cache.OpenDir
import TrafficServer.Cache.Vol
import TrafficServer.Cache.Aggregation
import TrafficServer.Cache.AggQueue
import TrafficServer.Cache.AggBounds
import TrafficServer.Cache.DirSync
import TrafficServer.Cache.DirSyncInv
import TrafficServer.Cache.DirSyncCrash
import TrafficServer.Cache.VdiskRead
import TrafficServer.Cache.CacheKey
import TrafficServer.Cache.WriteVC
import TrafficServer.Cache.WriteVCInv
import TrafficServer.Cache.Admission
import TrafficServer.Cache.ExtraFeatures
import TrafficServer.Cache.Seek
import TrafficServer.Cache.DiskVol
import TrafficServer.Cache.DiskVolInv
import TrafficServer.Cache.VolHash
import TrafficServer.Cache.RamCacheLRU
import TrafficServer.Cache.RamCacheLRUInv
import TrafficServer.Cache.RamCacheCLFUS
import TrafficServer.Cache.RamCacheCLFUSInv
import TrafficServer.Cache.RamCacheCLFUSPut
import TrafficServer.Cache.RamCacheCLFUSRuns
import TrafficServer.Cache.RamCacheCLFUSData
import TrafficServer.Cache.CompressLock
import TrafficServer.Http2.Huffman
import TrafficServer.Http2.HpackTable
import TrafficServer.Http2.ConnectionState
import TrafficServer.Http2.FlowControl
import TrafficServer.Http2.ReceiveWindow
import TrafficServer.Http2.HeaderBlocks
import TrafficServer.Http.ChunkedHandler
import TrafficServer.Lib.IndexedHeap
import TrafficServer.Lib.Forest
import TrafficServer.Http2.DependencyTree
import TrafficServer.Http2.DependencyTreeInv
import TrafficServer.Hdrs.UrlHash
import TrafficServer.Cache.InsertLoop
import TrafficServer.HostDb.RefCountCache
import TrafficServer.TsCore.IpMap
import TrafficServer.Http.RangeTransform
import TrafficServer.Hdrs.HdrToken
import TrafficServer.TsCore.Trie
import TrafficServer.Http.UrlRewrite
import TrafficServer.Hdrs.UrlParse
import TrafficServer.Hdrs.UrlReparse
import TrafficServer.Hdrs.UrlFixedPoint
import TrafficServer.Http2.DependencyTreeMoves
import TrafficServer.Http2.DependencyTreeRemove
import TrafficServer.Http2.DependencyTreeRuns
import TrafficServer.EventSystem.IOBuffer
import TrafficServer.EventSystem.IOBufferChain
import TrafficServer.EventSystem.IOBufferSees
import TrafficServer.EventSystem.IOBufferOps
import TrafficServer.EventSystem.IOBufferWrite
import TrafficServer.EventSystem.IOBufferStream
import TrafficServer.Lib.Labels
import TrafficServer.TsCore.CharIndex
import TrafficServer.TsCore.HostLookup
import TrafficServer.TsCore.HostLookupNames
import TrafficServer.TsCore.HostLookupTree
import TrafficServer.TsCore.HostLookupMatch
import TrafficServer.Cache.DirFields
import TrafficServer.Cache.SizeCode
import TrafficServer.Cache.HitEvacuate
import TrafficServer.Cache.ProbeAll
import TrafficServer.Cache.DirUsed
import TrafficServer.Cache.RecoverClear
import TrafficServer.Lib.EraseKeys
import TrafficServer.Cache.AggFailed
import TrafficServer.Cache.VolInit
import TrafficServer.Lib.Loop
import TrafficServer.Cache.RecoverScan
import TrafficServer.Cache.ScanObject
import TrafficServer.Cache.Evacuation
import TrafficServer.Cache.HttpInfoVector
import TrafficServer.Lib.LruPolicy
import TrafficServer.Cache.RamCacheLRUPolicy
import TrafficServer.Cache.RamCacheCLFUSHonest
import TrafficServer.Lib.Decimal
import TrafficServer.Origin.Response
import TrafficServer.Cache.FeatureHeader
import TrafficServer.Hdrs.HttpLine
import TrafficServer.Hdrs.ParseResp
import TrafficServer.Hdrs.ParseReq
import TrafficServer.Lib.Memory
import TrafficServer.Hdrs.CacheAlt
import TrafficServer.Hdrs.AltMarshal
import TrafficServer.Cache.AltVector
import TrafficServer.Lib.Leb128
import TrafficServer.Http2.HpackInteger
import TrafficServer.Http2.HuffmanDecode
import TrafficServer.Http2.HpackString
import TrafficServer.Http2.HpackEncode
import TrafficServer.Http2.HpackDecode
import TrafficServer.Http2.HpackBlocks
import TrafficServer.Http2.FrameReader
import TrafficServer.Http2.DependencyAncestors
import TrafficServer.Http2.DependencyTreeOrder
import TrafficServer.Http2.DependencyTreeFind
import TrafficServer.Lib.Windowed
import TrafficServer.Hdrs.MimePrint
import TrafficServer.Http2.WindowCeiling
import TrafficServer.Http2.HeadersFragment
import TrafficServer.Http2.SendHeaders
import TrafficServer.Http2.PushPromise
import TrafficServer.Http2.DataDelivery
import TrafficServer.Http2.LengthCheck
import TrafficServer.Http.ChunkSize
import TrafficServer.Hdrs.MimeNumber
import TrafficServer.Hdrs.MimeDate
import TrafficServer.Http2.Reprioritize
import TrafficServer.Hdrs.UrlString
import TrafficServer.Hdrs.UrlBounds
import TrafficServer.Hdrs.HdrCsvIter
import TrafficServer.Http.RangeParse
import TrafficServer.Lib.NextIndex
import TrafficServer.Hdrs.CookedStuff
import TrafficServer.Hdrs.MimeHdr
import TrafficServer.Hdrs.MimeHdrInv
import TrafficServer.Hdrs.MimeHdrOps
import TrafficServer.Hdrs.ContentLength
import TrafficServer.Hdrs.CommaValues
import TrafficServer.Hdrs.CookedInv
import TrafficServer.Hdrs.HdrHeap
import TrafficServer.Hdrs.MimeCopy
import TrafficServer.Hdrs.MimeBlocks
import TrafficServer.Hdrs.HdrHeapMarshal
import TrafficServer.Hdrs.HostPort
import TrafficServer.Hdrs.UrlPrinted
import TrafficServer.Http.AclFiltering
import TrafficServer.TsCore.HostLookupGrowth
import TrafficServer.TsCore.ConsistentHash
import TrafficServer.TsCore.Base64
import TrafficServer.TsCore.PriorityQueue
import TrafficServer.HostDb.Admission
import TrafficServer.TsCore.IpMapMark
import TrafficServer.TsCore.AtomicList
import TrafficServer.EventSystem.PriorityEventQueue
import TrafficServer.EventSystem.RemoveAppend
