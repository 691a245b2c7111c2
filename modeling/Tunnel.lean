import Tunnel.Lib.PMap
import Tunnel.Processor
import Tunnel.Pipeline
import Tunnel.Lemmas.Calls
import Tunnel.Lib.Ranked
import Tunnel.Structure
import Tunnel.Merge
import Tunnel.Theorems.Structure
import Tunnel.Wiring
import Tunnel.Theorems.Wiring
import Tunnel.Lib.Fifo
import Tunnel.Run
import Tunnel.Theorems.Rooted
import Tunnel.Lemmas.Proc
import Tunnel.Lemmas.Steps
import Tunnel.Theorems.Eof
import Tunnel.Theorems.Progress
import Tunnel.Streams
import Tunnel.Lemmas.Flow
import Tunnel.Theorems.Schedule
import Tunnel.Theorems.Termination
import Tunnel.Lemmas.Occupancy
import Tunnel.Theorems.ForkConcat
import Tunnel.Lemmas.Project
import Tunnel.Lemmas.Splice
import Tunnel.Lemmas.Sources
import Tunnel.Theorems.Compose
import Tunnel.Lib.Codec
import Tunnel.Wire
import Tunnel.Theorems.Wire
import Tunnel.Socket
import Tunnel.Theorems.Socket
import Tunnel.Lib.Count
import Tunnel.Lib.Monitor
import Tunnel.BoundedQueue
import Tunnel.Theorems.BoundedQueue
import Tunnel.Theorems.Abort
import Tunnel.Lemmas.Switcher
import Tunnel.Lemmas.Sites
import Tunnel.Lemmas.SwitcherSteps
import Tunnel.Lib.Numbered
import Tunnel.Lemmas.Books
import Tunnel.Theorems.Switcher
import Tunnel.Theorems.SwitcherFailures
import Tunnel.Theorems.SwitcherTable
import Tunnel.Embed
import Tunnel.Theorems.Embed
import Tunnel.Executor
import Tunnel.Lemmas.Executor
import Tunnel.Lemmas.ExecutorTasks
import Tunnel.Theorems.Executor
import Tunnel.SwitcherWire
import Tunnel.Theorems.SwitcherWire
import Tunnel.Theorems.Merge
import Tunnel.Theorems.MergeAssoc
import Tunnel.Builder
import Tunnel.Lemmas.Builder
import Tunnel.Theorems.Builder
import Tunnel.Theorems.StreamFunctions
import Tunnel.Report
import Tunnel.Theorems.Report
import Tunnel.Dump
import Tunnel.Theorems.Dump
import Tunnel.SwitcherClient
import Tunnel.Theorems.SwitcherClient
import Tunnel.Lemmas.Shared
import Tunnel.Lib.Fair
import Tunnel.Locked
import Tunnel.Theorems.Cancel
import Tunnel.Theorems.Locked
import Tunnel.Theorems.Returns
import Tunnel.Theorems.SwitcherProgress
import Tunnel.Lemmas.SwitcherBytes
import Tunnel.Theorems.SwitcherBytes
import Tunnel.Theorems.Timer
import Tunnel.Lemmas.Startup
import Tunnel.Theorems.Startup
import Tunnel.Lemmas.Kinds
import Tunnel.Lemmas.Linked
import Tunnel.Theorems.Linked
import Tunnel.Theorems.LinkedProgress
