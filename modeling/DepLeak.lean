import DepLeak.Runs
import DepLeak.Flow
import DepLeak.LinkedHeap.Basic
import DepLeak.LinkedHeap.Loops
import DepLeak.LinkedHeap.Family
import DepLeak.LinkedHeap.Beside
import DepLeak.LinkedHeap.Side
import DepLeak.Dep.IntNode
import DepLeak.Dep.Shadow
import DepLeak.Dep.Tool
import DepLeak.Dep.Vex
import DepLeak.Dep.Transparency
import DepLeak.Dep.Model
import DepLeak.Dep.Represent
import DepLeak.Dep.Erase
import DepLeak.Dep.Update
import DepLeak.Dep.Refine
import DepLeak.Dep.Frame
import DepLeak.Dep.Hooks
import DepLeak.Dep.Report
import DepLeak.Dep.Reference
import DepLeak.Dep.Superblock
import DepLeak.Dep.Bytes
import DepLeak.Dep.ShadowMap
import DepLeak.Dep.Reads
import DepLeak.Dep.Retag
import DepLeak.Dep.Locality
import DepLeak.Dep.Calls
import DepLeak.Dep.EraseTmp
import DepLeak.Dep.EraseReg
import DepLeak.Dep.Ownership
import DepLeak.Dep.Lists
import DepLeak.Dep.Entries
import DepLeak.Dep.Forms
import DepLeak.Dep.Merge
import DepLeak.Dep.Registers
import DepLeak.Dep.Exits
import DepLeak.Dep.Abreast
import DepLeak.Dep.Threads
import DepLeak.Dep.Cache
import DepLeak.Output
import DepLeak.Dep.TraceFile
import DepLeak.Dep.Session
import DepLeak.Walks
import DepLeak.Leak.Llvm
import DepLeak.Leak.Detector
import DepLeak.Leak.Paths
import DepLeak.Leak.Ends
import DepLeak.Leak.Depth
import DepLeak.Leak.Purity
import DepLeak.Leak.Module
import DepLeak.Ledger
import DepLeak.Leak.Notes
import DepLeak.Leak.Keys
import DepLeak.Leak.Steps
import DepLeak.Leak.Counted
import DepLeak.Leak.Aliases
import DepLeak.Leak.Safety
import DepLeak.Leak.Counting
import DepLeak.Leak.Removal
import DepLeak.Leak.Numbers
import DepLeak.Leak.Slots
import DepLeak.Leak.Code
import DepLeak.Leak.Scalars
import DepLeak.Leak.Rounds
import DepLeak.Leak.Structs
import DepLeak.Leak.Mixed
import DepLeak.Leak.Printed
import DepLeak.Straight
import DepLeak.Vex.Ir
import DepLeak.Vex.Uses
import DepLeak.Vex.Sanity
import DepLeak.Vex.Types
import DepLeak.Vex.Typed
import DepLeak.Vex.GetRemoval
import DepLeak.Vex.Deadcode
import DepLeak.Vex.Fold
import DepLeak.Vex.Subst
import DepLeak.Vex.PutRemoval
import DepLeak.Vex.Fixup
import DepLeak.Vex.Cprop
import DepLeak.Vex.Flatten
import DepLeak.Vex.Flattened
import DepLeak.Vex.Cleanup
import DepLeak.Vex.Instrument
import DepLeak.Vex.WithTool
