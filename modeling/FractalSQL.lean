import FractalSQL.Lib.Bytes
import FractalSQL.Lib.HashChain
import FractalSQL.Lib.Text
import FractalSQL.Lib.Machine
import FractalSQL.Ledger.Record
import FractalSQL.Ledger.Walkers
import FractalSQL.Ledger.Chain
import FractalSQL.Ledger.Head
import FractalSQL.Ledger.HeadText
import FractalSQL.Ledger.Mirror
import FractalSQL.Ledger.Store
import FractalSQL.Ledger.HeadUpdate
import FractalSQL.Ledger.Append
import FractalSQL.Ledger.Agreement
import FractalSQL.Ledger.TornTail
import FractalSQL.Ledger.Truncation
import FractalSQL.Ledger.Binding
import FractalSQL.Service.Protocol
import FractalSQL.Service.Authentication
import FractalSQL.Service.ResponseCache
import FractalSQL.Service.Daemon
import FractalSQL.Service.Moves
import FractalSQL.Service.Replay
import FractalSQL.Service.Execution
import FractalSQL.Service.Shim
import FractalSQL.Service.System
import FractalSQL.Service.Transitions
import FractalSQL.Service.AtMostOnce
import FractalSQL.Service.Connections
import FractalSQL.Service.Wire
import FractalSQL.Service.Handles
import FractalSQL.Service.Minting
import FractalSQL.Service.Closing
import FractalSQL.Lib.Ring
import FractalSQL.Session.Registry
import FractalSQL.Session.Latch
import FractalSQL.Lib.Json
import FractalSQL.Lib.JsonMembers
import FractalSQL.Audit.WellFormed
import FractalSQL.Audit.Log
import FractalSQL.Audit.OneValue
import FractalSQL.Audit.Splice
import FractalSQL.Audit.Document
import FractalSQL.Audit.Attribution
import FractalSQL.Audit.Shape
import FractalSQL.Lib.SqlLexer
import FractalSQL.TextSql.Scanners
import FractalSQL.TextSql.Allowlist
import FractalSQL.TextSql.InStep
import FractalSQL.TextSql.ExecComment
import FractalSQL.TextSql.Statements
import FractalSQL.TextSql.NoBackslash
import FractalSQL.TextSql.DeniedCall
import FractalSQL.TextSql.LeadingStatement
import FractalSQL.TextSql.Classification
import FractalSQL.TextSql.LeadingGate
import FractalSQL.Lib.WhileLoop
import FractalSQL.TextSql.Calls
import FractalSQL.TextSql.Procedures
import FractalSQL.TextSql.Release
import FractalSQL.Vectorizer.Store
import FractalSQL.Vectorizer.Worker
import FractalSQL.Vectorizer.System
import FractalSQL.Vectorizer.Invariants
import FractalSQL.Vectorizer.Freshness
import FractalSQL.Vectorizer.Settling
import FractalSQL.Provider.Config
import FractalSQL.Provider.Settings
import FractalSQL.Provider.Reload
import FractalSQL.Provider.Reloads
import FractalSQL.Provider.ReloadOrder
import FractalSQL.Provider.Dispatch
import FractalSQL.Provider.Presence
import FractalSQL.Provider.Publication
import FractalSQL.Mcp.ClientRegistry
import FractalSQL.Mcp.RegistryRuns
import FractalSQL.Mcp.ToolCalls
import FractalSQL.Mcp.Cancellation
import FractalSQL.Lib.Count
import FractalSQL.Mcp.Concurrency
import FractalSQL.Mcp.Slots
import FractalSQL.Provider.Snapshots
import FractalSQL.Mcp.Sockets
import FractalSQL.Provider.WindowsReload
import FractalSQL.Service.HandleTable
import FractalSQL.Service.Ownership
import FractalSQL.Service.CancelMarks
import FractalSQL.Lib.Lines
import FractalSQL.Mcp.HttpHead
import FractalSQL.Lib.JsonValue
import FractalSQL.Mcp.Dispatch
import FractalSQL.Mcp.HttpServe
import FractalSQL.Mcp.ContextHandles
import FractalSQL.Mcp.Isolation
import FractalSQL.Lib.Calendar
import FractalSQL.Mcp.TokenStore
import FractalSQL.Mcp.CredentialFiles
import FractalSQL.Mcp.Connection
import FractalSQL.TextSql.Counting
import FractalSQL.Service.ArgParsing
import FractalSQL.Service.Encoding
import FractalSQL.Service.RoundTrip
import FractalSQL.Service.CacheRing
import FractalSQL.Session.Exclusion
import FractalSQL.Session.Overlay
import FractalSQL.Session.OverlayMap
import FractalSQL.Lib.JsonGrammar
import FractalSQL.Audit.Redact
import FractalSQL.Audit.Spans
import FractalSQL.Audit.Fingerprint
import FractalSQL.Audit.RedactTree
import FractalSQL.Lib.LinkedList
import FractalSQL.Session.Links
import FractalSQL.Session.LinkStores
import FractalSQL.Session.LinkedRegistry
import FractalSQL.Session.LinkedSteps
import FractalSQL.Session.LinkedRuns
import FractalSQL.Session.ConfigValues
import FractalSQL.Provider.ConfigLines
import FractalSQL.Ledger.Framing
import FractalSQL.Ledger.MirrorIds
import FractalSQL.Mcp.Parameters
import FractalSQL.Mcp.ToolArguments
import FractalSQL.Mcp.RowLimits
import FractalSQL.Mcp.ConfFile
import FractalSQL.Mcp.ConfigEdit
import FractalSQL.Mcp.ConfigLog
import FractalSQL.Mcp.Replies
import FractalSQL.Mcp.Origins
import FractalSQL.Lib.JsonNesting
import FractalSQL.Mcp.Nesting
import FractalSQL.Provider.KeyFile
import FractalSQL.Lib.Masking
import FractalSQL.Mcp.Sanitizer
import FractalSQL.Mcp.Masked
import FractalSQL.Vectors.Canonical
import FractalSQL.Mcp.VectorText
import FractalSQL.Vectorizer.Visits
import FractalSQL.TextSql.Outcome
import FractalSQL.Vectorizer.RateCap
import FractalSQL.Vectorizer.Create
import FractalSQL.Vectorizer.Creation
import FractalSQL.Vectors.Bijection
import FractalSQL.Vectors.Hosts
import FractalSQL.TextSql.AutoExecution
import FractalSQL.Cognition.Reason
import FractalSQL.Cognition.FailureDetail
import FractalSQL.Lib.JsonStrings
import FractalSQL.Lib.JsonReader
import FractalSQL.Lib.JsonDocument
import FractalSQL.Cognition.Recognisers
import FractalSQL.Lib.Binary
import FractalSQL.Lib.Strtod
import FractalSQL.Vectors.Parse
import FractalSQL.Vectors.Load
import FractalSQL.Vectors.Overlap
import FractalSQL.Vectors.Numbers
import FractalSQL.Vectors.Corpus
import FractalSQL.Search.Inputs
import FractalSQL.Search.Telemetry
import FractalSQL.Search.Params
import FractalSQL.Search.Members
import FractalSQL.Search.Integers
import FractalSQL.Lib.NamedValues
import FractalSQL.Provider.EnvStream
import FractalSQL.Lib.GrowBuffer
import FractalSQL.Vectors.NumberLists
import FractalSQL.Vectors.Spellings
import FractalSQL.Vectors.CorpusStore
import FractalSQL.Lib.JsonFields
import FractalSQL.Search.CoreParams
import FractalSQL.Search.Entries
import FractalSQL.Lib.IteratedHash
import FractalSQL.Lib.Hmac
import FractalSQL.Digest.Sha256
import FractalSQL.Digest.Streaming
import FractalSQL.Digest.Binding
import FractalSQL.Digest.LedgerChain
import FractalSQL.Ledger.Faults
import FractalSQL.Lib.SqlTemplate
import FractalSQL.Procedures.Statements
import FractalSQL.Lib.ByteStream
import FractalSQL.Service.Streams
import FractalSQL.Provider.LoadGate
import FractalSQL.Vectorizer.Lifecycle
import FractalSQL.Vectorizer.Dropped
import FractalSQL.Lib.Heap
import FractalSQL.Ledger.ReadBuffers
import FractalSQL.Lib.Base64
import FractalSQL.Ledger.MirrorText
import FractalSQL.Ledger.Anchors
import FractalSQL.Mcp.Stdio
import FractalSQL.Mcp.StdioReplies
import FractalSQL.Mcp.StdioReturn
