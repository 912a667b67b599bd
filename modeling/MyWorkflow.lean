import MyWorkflow.Bags
import MyWorkflow.Chains
import MyWorkflow.CircularBuffer
import MyWorkflow.CommClient
import MyWorkflow.CommClientConn
import MyWorkflow.CommClientRuns
import MyWorkflow.CommSched
import MyWorkflow.CommSchedHeap
import MyWorkflow.CommSchedRuns
import MyWorkflow.CommSchedWaits
import MyWorkflow.CommSend
import MyWorkflow.CommServer
import MyWorkflow.CommServerAlive
import MyWorkflow.CommServerConn
import MyWorkflow.CommServerRuns
import MyWorkflow.CommTimeout
import MyWorkflow.Decimals
import MyWorkflow.Executor
import MyWorkflow.ExecutorRuns
import MyWorkflow.HandlerThreads
import MyWorkflow.HttpChunkCursor
import MyWorkflow.HttpEncode
import MyWorkflow.HttpFraming
import MyWorkflow.HttpHeaderFlags
import MyWorkflow.HttpHeaderMap
import MyWorkflow.HttpHeaderStore
import MyWorkflow.HttpHeaderValue
import MyWorkflow.HttpInterim
import MyWorkflow.HttpKeepAlive
import MyWorkflow.HttpMessage
import MyWorkflow.HttpParser
import MyWorkflow.HttpParserBounds
import MyWorkflow.HttpParserCuts
import MyWorkflow.HttpParserResume
import MyWorkflow.HttpRoundTrip
import MyWorkflow.IndexedHeap
import MyWorkflow.IoService
import MyWorkflow.IoServiceRuns
import MyWorkflow.JsonBounds
import MyWorkflow.JsonCopy
import MyWorkflow.JsonDecimal
import MyWorkflow.JsonEvaluate
import MyWorkflow.JsonGrammar
import MyWorkflow.JsonLookup
import MyWorkflow.JsonNumbers
import MyWorkflow.JsonObject
import MyWorkflow.JsonParser
import MyWorkflow.JsonSound
import MyWorkflow.JsonStore
import MyWorkflow.JsonStrings
import MyWorkflow.JsonValues
import MyWorkflow.LruCache
import MyWorkflow.LruCacheRuns
import MyWorkflow.LruEviction
import MyWorkflow.MessageQueue
import MyWorkflow.MultiMap
import MyWorkflow.Poller
import MyWorkflow.PollerCallbacks
import MyWorkflow.PollerDeadlines
import MyWorkflow.PollerFrame
import MyWorkflow.PollerInvariant
import MyWorkflow.PollerPipe
import MyWorkflow.PollerQueues
import MyWorkflow.PollerRegistry
import MyWorkflow.PollerSteps
import MyWorkflow.RedBlack
import MyWorkflow.Runs
import MyWorkflow.SeriesQueue
import MyWorkflow.StringUtil
import MyWorkflow.ThreadPool
import MyWorkflow.ThreadPoolRuns
import MyWorkflow.UriCompose
import MyWorkflow.UriPairs
import MyWorkflow.UriParser
import MyWorkflow.UriQuery
import MyWorkflow.UriScan
import MyWorkflow.UriTail
import MyWorkflow.UrlCodec
import MyWorkflow.Workflow
import MyWorkflow.WorkflowBuild
import MyWorkflow.WorkflowControl
import MyWorkflow.WorkflowDeletes
import MyWorkflow.WorkflowInvariant
import MyWorkflow.WorkflowJoins
import MyWorkflow.WorkflowPlaces
import MyWorkflow.WorkflowRuns
