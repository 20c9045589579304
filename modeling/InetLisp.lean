import InetLisp.Core.AddTask
import InetLisp.Core.Apply
import InetLisp.Core.ApplyWire
import InetLisp.Core.Build
import InetLisp.Core.Clash
import InetLisp.Core.CollectPrimitiveArg
import InetLisp.Core.Connect
import InetLisp.Core.Conserve
import InetLisp.Core.Depict
import InetLisp.Core.Disconnect
import InetLisp.Core.Drawing
import InetLisp.Core.Execute
import InetLisp.Core.Extend
import InetLisp.Core.Fuze
import InetLisp.Core.Grow
import InetLisp.Core.HandlePrimitive
import InetLisp.Core.HandleTask
import InetLisp.Core.Height
import InetLisp.Core.Invariant
import InetLisp.Core.Joins
import InetLisp.Core.Ledger
import InetLisp.Core.Meet
import InetLisp.Core.NodeLock
import InetLisp.Core.PairOrder
import InetLisp.Core.Principals
import InetLisp.Core.Program
import InetLisp.Core.Redex
import InetLisp.Core.References
import InetLisp.Core.Rewrite
import InetLisp.Core.RunUntil
import InetLisp.Core.Schedule
import InetLisp.Core.SchedulerPrepare
import InetLisp.Core.SchedulerStart
import InetLisp.Core.Shape
import InetLisp.Core.Shows
import InetLisp.Core.Splice
import InetLisp.Core.System
import InetLisp.Core.TailCall
import InetLisp.Core.Tied
import InetLisp.Core.Trace
import InetLisp.Core.WorkEnds
import InetLisp.Core.WorkParallelly
import InetLisp.Core.Worker
import InetLisp.Core.WorkerDestroy
import InetLisp.Lang.ActivePair
import InetLisp.Lang.Atom
import InetLisp.Lang.Balance
import InetLisp.Lang.Chronicle
import InetLisp.Lang.Compile
import InetLisp.Lang.Define
import InetLisp.Lang.Definitions
import InetLisp.Lang.Depict
import InetLisp.Lang.Draw
import InetLisp.Lang.Ends
import InetLisp.Lang.Evaluate
import InetLisp.Lang.Fire
import InetLisp.Lang.Forms
import InetLisp.Lang.Load
import InetLisp.Lang.LoadPath
import InetLisp.Lang.Orientation
import InetLisp.Lang.Parse
import InetLisp.Lang.Pattern
import InetLisp.Lang.Prelude
import InetLisp.Lang.PrintStmt
import InetLisp.Lang.Recording
import InetLisp.Lang.Reread
import InetLisp.Lang.RoundTrip
import InetLisp.Lang.RuleReach
import InetLisp.Lang.RuleRun
import InetLisp.Lang.Rules
import InetLisp.Lang.Schedules
import InetLisp.Lang.Scope
import InetLisp.Lang.Session
import InetLisp.Lang.Template
import InetLisp.Lang.Unique
import InetLisp.Lib.Cells
import InetLisp.Lib.Chains
import InetLisp.Lib.Cursor
import InetLisp.Lib.Deal
import InetLisp.Lib.Forever
import InetLisp.Lib.Linked
import InetLisp.Lib.Lookup
import InetLisp.Lib.Loop
import InetLisp.Lib.Meetings
import InetLisp.Lib.Outcome
import InetLisp.Lib.Pointer
import InetLisp.Lib.Ring
import InetLisp.Lib.Search
import InetLisp.Lib.Slots
import InetLisp.Lib.Stutter
import InetLisp.Lib.Sums
import InetLisp.Lib.Tagged
import InetLisp.Lib.Tickets
import InetLisp.Lib.Trail
import InetLisp.Lib.Transition
import InetLisp.Lib.Wiring
import InetLisp.Net.Connected
import InetLisp.Net.Neighborhood
import InetLisp.Net.Node
import InetLisp.Net.NodeAllocator
import InetLisp.Net.Wire
import InetLisp.Packages.Array
import InetLisp.Packages.ArrayRuns
import InetLisp.Packages.BufferedLexer
import InetLisp.Packages.FloatLiteral
import InetLisp.Packages.Hash
import InetLisp.Packages.HashIter
import InetLisp.Packages.IntLiteral
import InetLisp.Packages.Lexer
import InetLisp.Packages.List
import InetLisp.Packages.ListSequence
import InetLisp.Packages.Location
import InetLisp.Packages.Numeral
import InetLisp.Packages.Path
import InetLisp.Packages.PathRelative
import InetLisp.Packages.PathString
import InetLisp.Packages.Queue
import InetLisp.Packages.Roles
import InetLisp.Packages.Sexp
import InetLisp.Packages.SexpPrint
import InetLisp.Packages.String
import InetLisp.Packages.StringToken
import InetLisp.Packages.Text
import InetLisp.Packages.TextString
import InetLisp.Packages.Tiles
import InetLisp.Packages.Tiling
import InetLisp.Packages.TokenBuffer
import InetLisp.Packages.TokenLength
import InetLisp.Packages.UsedIndexes
import InetLisp.Packages.Utf8
import InetLisp.Packages.Utf8Bounds
import InetLisp.Packages.Utf8Iter
import InetLisp.Value.Basic
import InetLisp.Value.Xint
import InetLisp.Value.XintDiv
