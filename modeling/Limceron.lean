import Limceron.Lib.Paths
import Limceron.Lib.Actions
import Limceron.Lib.Answers
import Limceron.Lib.Ledger
import Limceron.Lib.Regions
import Limceron.Lib.Flags
import Limceron.Lib.Copies
import Limceron.Lib.Walks
import Limceron.Lib.Phases
import Limceron.Lib.Twins
import Limceron.Lib.RuleLists
import Limceron.Lib.Globs
import Limceron.Lib.Hmac
import Limceron.Lang.Ast
import Limceron.Lang.Node
import Limceron.IR.Syntax
import Limceron.IR.Semantics
import Limceron.IR.Simulation
import Limceron.IR.WellFormed
import Limceron.IR.Check
import Limceron.IR.Liveness
import Limceron.IR.Visits
import Limceron.Opt.Rewrite
import Limceron.Opt.ConstantFold
import Limceron.Opt.ConstProp
import Limceron.Opt.DeadCode
import Limceron.Wasm.Layout
import Limceron.Wasm.Fences
import Limceron.Wasm.Machine
import Limceron.Wasm.Emit
import Limceron.Wasm.Dispatch
import Limceron.Wasm.Slots
import Limceron.Wasm.Strings
import Limceron.Wasm.Words
import Limceron.Wasm.IntBool
import Limceron.Wasm.Related
import Limceron.Wasm.Steps
import Limceron.Wasm.ControlFlow
import Limceron.Native.Machine
import Limceron.X86.RegAlloc
import Limceron.X86.Asm
import Limceron.X86.Emit
import Limceron.X86.Frames
import Limceron.Caps.Registry
import Limceron.Caps.ToolFences
import Limceron.Access.Policy
import Limceron.Access.Check
import Limceron.Access.Agree
import Limceron.Access.Mediation
import Limceron.Gen.Names
import Limceron.Gen.Builder
import Limceron.Gen.Lower
import Limceron.Gen.Program
import Limceron.Gen.Steps
import Limceron.Gen.Resolve
import Limceron.Typecheck.Taint
import Limceron.Typecheck.TaintFlow
import Limceron.Typecheck.Verdict
import Limceron.Typecheck.Secret
import Limceron.Typecheck.SecretFlow
import Limceron.Typecheck.SecretRuns
import Limceron.Typecheck.ToolUse
import Limceron.Typecheck.ToolUseSeen
import Limceron.Typecheck.LoopScope
import Limceron.Typecheck.Match
import Limceron.Typecheck.MatchCovers
import Limceron.Lib.Progress
import Limceron.Parse.Token
import Limceron.Parse.Lexer
import Limceron.Parse.Syntax
import Limceron.Parse.Core
import Limceron.Parse.Types
import Limceron.Parse.Exprs
import Limceron.Parse.Decls
import Limceron.Parse.Agents
import Limceron.Parse.Dry
import Limceron.Parse.Pauses
import Limceron.Parse.Tight
import Limceron.Parse.Returns
import Limceron.Lib.DotPaths
import Limceron.Access.Fetch
import Limceron.Access.Inet
import Limceron.Access.Fence
import Limceron.Access.Confine
import Limceron.Access.Patterns
import Limceron.Access.RuleOrder
import Limceron.Access.Shell
import Limceron.Parse.Numbers
import Limceron.Json.RoundTrip
import Limceron.Json.Reparse
import Limceron.Json.Lines
import Limceron.Json.Records
import Limceron.Json.Decimals
import Limceron.Parse.Interp
import Limceron.Load.Loads
import Limceron.Wasm.Exports
import Limceron.Lib.Ring
import Limceron.Lib.Blocks
import Limceron.Lib.Sha2
import Limceron.Lib.Slices
import Limceron.Security.Sha256
import Limceron.Security.Digest
import Limceron.Security.Signing
import Limceron.Lib.CTokens
import Limceron.C99.Strings
import Limceron.Lib.Choices
import Limceron.C99.Defers
import Limceron.Lib.NameTables
import Limceron.C99.Generics
import Limceron.C99.Captures
import Limceron.Lsp.Fields
import Limceron.Lsp.Documents
import Limceron.Lsp.Sync
import Limceron.C99.Match
import Limceron.C99.Metrics
import Limceron.Parse.ToolBody
import Limceron.Parse.Positions
import Limceron.C99.MatchRuns
import Limceron.Lib.Monitors
import Limceron.Lib.Turns
import Limceron.Lib.Toggles
import Limceron.Lib.Pages
import Limceron.Lib.Cuts
import Limceron.Lib.Recency
import Limceron.Runtime.Budget
import Limceron.Runtime.Router
import Limceron.Runtime.Events
import Limceron.Runtime.Agents
import Limceron.Runtime.Records
import Limceron.Runtime.Details
import Limceron.Runtime.Memory
import Limceron.Runtime.Knowledge
import Limceron.Runtime.Strings
import Limceron.Runtime.Mesh
import Limceron.Runtime.Chunked
import Limceron.Runtime.Delegation
import Limceron.Runtime.Supervisor
import Limceron.Runtime.Escalation
import Limceron.Runtime.Lifecycle
import Limceron.Runtime.Channel
import Limceron.Runtime.Rendezvous
import Limceron.Runtime.Select
import Limceron.Runtime.Wakeups
import Limceron.Runtime.TaskPool
import Limceron.Runtime.Shutdown
import Limceron.Runtime.Nesting
import Limceron.Runtime.Starved
import Limceron.Runtime.GreenThreads
import Limceron.Runtime.GreenSafety
import Limceron.Runtime.McpServer
import Limceron.Runtime.McpClient
import Limceron.Lib.WatStrings
import Limceron.Wit.Emit
import Limceron.Wit.Network
import Limceron.Wit.HostSpecs
import Limceron.Wit.Load
import Limceron.Wit.Layout
import Limceron.Wit.RoundTrip
import Limceron.Runtime.Entropy
import Limceron.Package.Semver
import Limceron.Package.Manifest
import Limceron.Package.Reread
import Limceron.Package.Lock
import Limceron.Package.Rewrite
import Limceron.Httpd.Request
import Limceron.Httpd.Confine
import Limceron.Httpd.Routes
import Limceron.Httpd.Query
import Limceron.Parse.Words
import Limceron.Parse.ExprTrees
import Limceron.Typecheck.InferRuns
