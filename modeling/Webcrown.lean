import Webcrown.Bytes.Lines
import Webcrown.Bytes.Scan
import Webcrown.Bytes.Search
import Webcrown.Bytes.Rewriting
import Webcrown.Common.StringUtils
import Webcrown.Common.StringRewriting
import Webcrown.Common.Decimal
import Webcrown.Common.MetaToString
import Webcrown.Common.UrlCoding
import Webcrown.Common.UrlParser
import Webcrown.Http.Characters
import Webcrown.Http.Message
import Webcrown.Http.HeaderScanners
import Webcrown.Http.Parser
import Webcrown.Http.Calls
import Webcrown.Http.BlockText
import Webcrown.Http.HeaderGrammar
import Webcrown.Http.HeaderSoundness
import Webcrown.Http.RequestLine
import Webcrown.Http.LineEnds
import Webcrown.Http.RequestHead
import Webcrown.Http.Phases
import Webcrown.Http.UploadText
import Webcrown.Http.BoundarySearch
import Webcrown.Http.BlockEnds
import Webcrown.Http.CallSpecs
import Webcrown.Http.OpeningBoundary
import Webcrown.Http.BodyFraming
import Webcrown.Http.EarlyFinish
import Webcrown.Http.Reachability
import Webcrown.Http.Provenance
import Webcrown.Http.HeadText
import Webcrown.Http.ErrorExits
import Webcrown.Http.Overrun
import Webcrown.Http.StaleBytes
import Webcrown.Http.UploadRequest
import Webcrown.Http.UploadBytes
import Webcrown.Http.UploadChunks
import Webcrown.Http.UploadGrowth
import Webcrown.Http.Response
import Webcrown.Http.ResponseEncoding
import Webcrown.Http.ResponseRuns
import Webcrown.Http.Middlewares.Route
import Webcrown.Http.Middlewares.RouteBinding
import Webcrown.Http.Middlewares.RouteHistories
import Webcrown.Http.Middlewares.RouteClashes
import Webcrown.Http.Middlewares.RoutePatterns
import Webcrown.Http.Middlewares.RouteRewriting
import Webcrown.Http.Middlewares.RouteLanguage
import Webcrown.Http.Middlewares.RouteCompleteness
import Webcrown.Http.Middlewares.RouteSoundness
import Webcrown.Http.Middlewares.RouteParsing
import Webcrown.Sql.Lexer
import Webcrown.Sql.Rows
import Webcrown.Sql.Statements
import Webcrown.Sql.Columns
import Webcrown.Sql.Commands
import Webcrown.Orm.Schema
import Webcrown.Orm.InsertColumns
import Webcrown.Orm.TableDefinition
import Webcrown.Orm.NormalizeType
import Webcrown.Orm.ValueRows
import Webcrown.Orm.InsertStatement
import Webcrown.Orm.ColumnNames
import Webcrown.Orm.PlaceHolders
import Webcrown.Orm.Updates
import Webcrown.Orm.Store
import Webcrown.Http.Middlewares.Middleware
import Webcrown.Http.Middlewares.Authorization
import Webcrown.Http.Middlewares.Dispatch
import Webcrown.Http.Middlewares.CommonRoutes
import Webcrown.Http.Middlewares.Cors
import Webcrown.Json.Text
import Webcrown.Http.Middlewares.Refusals
import Webcrown.Transitions.Runs
import Webcrown.Transitions.Fifo
import Webcrown.Server.Session
import Webcrown.Server.SessionRuns
import Webcrown.Server.SendQueue
import Webcrown.Server.SessionSteps
import Webcrown.Server.Ownership
import Webcrown.Server.StrandedData
import Webcrown.Server.Lifecycle
import Webcrown.Server.QueuedReads
import Webcrown.Server.Delivery
import Webcrown.Server.SendCounters
import Webcrown.Server.WebServer
import Webcrown.Server.Accepting
import Webcrown.Server.Expiry
import Webcrown.Server.SessionTraces
import Webcrown.Server.Exchanges
import Webcrown.Server.Registry
import Webcrown.Server.ReceiveBuffer
import Webcrown.Server.Application
import Webcrown.Helpers.EndpointContext
import Webcrown.Server.Requests
import Webcrown.Server.Service
