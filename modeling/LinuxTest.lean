import LinuxTest.MachineInt
import LinuxTest.Runs
import LinuxTest.Memory
import LinuxTest.HttpBuffer
import LinuxTest.HttpBufferQueue
import LinuxTest.HttpBufferBounds
import LinuxTest.ByteString
import LinuxTest.HttpMessage
import LinuxTest.HttpParser
import LinuxTest.HttpParserSpec
import LinuxTest.HttpParserStream
import LinuxTest.HttpHeadChunks
import LinuxTest.HttpParserSafety
import LinuxTest.BinaryHeap
import LinuxTest.TimerHeap
import LinuxTest.TimerHeapRuns
import LinuxTest.HttpServer
import LinuxTest.HttpResponseForm
import LinuxTest.HttpRequestText
import LinuxTest.LexicalPath
import LinuxTest.WebRoot
import LinuxTest.HttpRequestFrame
import LinuxTest.HttpRequestIsolation
import LinuxTest.HttpMessageFraming
import LinuxTest.HttpOutput
import LinuxTest.Recency
import LinuxTest.LRUCache
import LinuxTest.LRUCacheRuns
import LinuxTest.FastCgiRecord
import LinuxTest.FcgiConnection
import LinuxTest.FcgiRequest
import LinuxTest.FcgiResponse
import LinuxTest.EventLoop
import LinuxTest.HeapSift
import LinuxTest.TimerHeapBounds
import LinuxTest.TimerRefresh
import LinuxTest.TimerTick
import LinuxTest.TimerRace
import LinuxTest.Mutex
import LinuxTest.TimerLock
import LinuxTest.ConnectionLife
import LinuxTest.HttpUrlDecode
import LinuxTest.HttpParams
import LinuxTest.HttpRequestGrammar
import LinuxTest.Calendar
import LinuxTest.HttpDates
import LinuxTest.LRUCacheFresh
import LinuxTest.HttpDescriptors
import LinuxTest.ThreadPool
import LinuxTest.ThreadPoolStop
import LinuxTest.LRUCacheBuffers
import LinuxTest.CacheThreads
import LinuxTest.HttpResponseText
import LinuxTest.HttpParserLines
import LinuxTest.PhpRequest
import LinuxTest.CacheAssertions
import LinuxTest.HttpContentType
import LinuxTest.LogFormatter
import LinuxTest.LogPattern
import LinuxTest.LogPatternPrint
import LinuxTest.LogEscape
import LinuxTest.LogAppenders
import LinuxTest.DoubleLinks
import LinuxTest.RecentMap
import LinuxTest.LinkedLRUCache
import LinuxTest.CellArray
import LinuxTest.MVector
import LinuxTest.BubblePass
import LinuxTest.MVectorSort
import LinuxTest.MVectorSearch
import LinuxTest.MVectorUnique
import LinuxTest.SearchTree
import LinuxTest.SearchTreeBulk
import LinuxTest.ArrayBubbleSort
import LinuxTest.ArrayMergeSort
import LinuxTest.CommonSubsequence
import LinuxTest.LcsRecursion
import LinuxTest.Philosophers
import LinuxTest.ProducerConsumer
import LinuxTest.ChatPackets
import LinuxTest.Base64
import LinuxTest.Base64Encode
import LinuxTest.FullTransfers
import LinuxTest.Borders
import LinuxTest.KmpSearch
import LinuxTest.HttpBufferRanges
import LinuxTest.AppendFiles
import LinuxTest.AvlTree
import LinuxTest.ChatServer
import LinuxTest.DbLinkedList
import LinuxTest.Epoller
import LinuxTest.EventloopThread
import LinuxTest.HeapTrees
import LinuxTest.HttpServerLoops
import LinuxTest.LinkedList
import LinuxTest.LogFiles
import LinuxTest.PrimeUtil
import LinuxTest.ScopedLock
import LinuxTest.SearchTreeHeap
import LinuxTest.SyncProc
import LinuxTest.DeepDir
import LinuxTest.HeldStat
import LinuxTest.PhilosopherStarvation
import LinuxTest.HttpErrorPages
