import CS24.Lib.Bytes
import CS24.Lib.Links
import CS24.Lib.Cursor
import CS24.Lib.Tiling
import CS24.Lib.SortedList
import CS24.Malloc.Memlib
import CS24.Malloc.Explicit
import CS24.Malloc.ExplicitList
import CS24.Malloc.Blocks
import CS24.Malloc.ExplicitHeap
import CS24.Lib.System
import CS24.Malloc.Client
import CS24.Malloc.Payloads
import CS24.Malloc.ExplicitFit
import CS24.Malloc.ExplicitCoalesce
import CS24.Malloc.ExplicitCalls
import CS24.Malloc.ExplicitZero
import CS24.Malloc.Implicit
import CS24.Malloc.ImplicitHeap
import CS24.Malloc.ImplicitCalls
import CS24.Malloc.ImplicitBounds
import CS24.Malloc.Calloc
import CS24.Malloc.FreeRuns
import CS24.Malloc.Reuse
import CS24.Malloc.FreeOrder
import CS24.Malloc.Sizes
import CS24.Malloc.CallocResult
import CS24.Malloc.CheckHeap
import CS24.Malloc.Growth
import CS24.Malloc.Driver
import CS24.Malloc.DriverRuns
import CS24.Threads.Queue
import CS24.Threads.QueueRuns
import CS24.Threads.QueueWakeups
import CS24.Threads.ThreadPool
import CS24.Threads.ThreadPoolDrain
import CS24.Threads.PasswordCracker
import CS24.Lib.Progress
import CS24.Threads.ThreadPoolFinish
import CS24.Lib.Simulation
import CS24.Threads.Cracker
import CS24.Lib.Checked
import CS24.JVM.ClassFile
import CS24.JVM.Execute
import CS24.JVM.DepthTyped
import CS24.JVM.Branches
import CS24.JVM.Arrays
import CS24.JVM.ArrayBounds
import CS24.JVM.IntegerOps
import CS24.JVM.StaticCalls
import CS24.JVM.ReadClass
import CS24.JVM.ClassFormat
import CS24.JVM.Java
import CS24.JVM.JavaSimulation
import CS24.JVM.Main
import CS24.Lib.Machine
import CS24.Lib.X86
import CS24.Lib.X86Rules
import CS24.Basic.Ast
import CS24.Basic.Compile
import CS24.Basic.Semantics
import CS24.Basic.CompileLabels
import CS24.Basic.LabelBlocks
import CS24.Basic.CompileExpr
import CS24.Basic.CompileCorrect
import CS24.Basic.CallingConvention
import CS24.Lib.Descent
import CS24.Basic.Parser
import CS24.Basic.ParserSteps
import CS24.Basic.ParserLoops
import CS24.Basic.ParserRuns
import CS24.Basic.Scanning
import CS24.Basic.Grammar
import CS24.Basic.SyntaxErrors
import CS24.Basic.ParserTrees
import CS24.Basic.Folding
import CS24.Basic.Numerals
import CS24.Basic.Rendering
import CS24.Lib.Readable
import CS24.Basic.AsmText
import CS24.Basic.Executable
import CS24.Fat16.DirectoryTree
import CS24.Fat16.CanonicalTree
import CS24.Fat16.Recover
import CS24.Fat16.DirectoryWalk
import CS24.Fat16.SortedChildren
import CS24.Fat16.Images
import CS24.Fat16.SharedCursor
import CS24.Fat16.Reentry
import CS24.Fat16.OutputPaths
import CS24.Lib.FileSystem
import CS24.Fat16.OutputFiles
import CS24.Fat16.CreatedTree
import CS24.Fat16.TestTree
import CS24.Fat16.Volume
import CS24.Lib.Packed
import CS24.Kernel.PageTable
import CS24.Kernel.Kernel
import CS24.Kernel.Ownership
import CS24.Kernel.Walk
import CS24.Kernel.Updates
import CS24.Kernel.Allocation
import CS24.Kernel.Mapping
import CS24.Kernel.KernelMap
import CS24.Kernel.Dealing
import CS24.Kernel.Loading
import CS24.Kernel.Segments
import CS24.Kernel.Views
import CS24.Kernel.Frames
import CS24.Kernel.Loads
import CS24.Kernel.PageAlloc
import CS24.Kernel.Runs
import CS24.Kernel.Start
import CS24.Kernel.Boot
import CS24.Kernel.Isolation
import CS24.Kernel.Overwrite
import CS24.Kernel.Exhaustion
import CS24.Lib.RoundRobin
import CS24.Kernel.World
import CS24.Kernel.WorldStart
import CS24.Kernel.KernelChecks
import CS24.Kernel.Processes
import CS24.Kernel.Accounting
import CS24.Kernel.Scheduler
