import JetLive.Library.Trace
import JetLive.Library.Unordered
import JetLive.Library.Worklist
import JetLive.Library.Walk
import JetLive.Library.Loop
import JetLive.Library.Debounce
import JetLive.Library.MakeRule
import JetLive.Library.Memory
import JetLive.Library.Words
import JetLive.Library.Arm64
import JetLive.Library.Redirect
import JetLive.Library.PriorityQueue
import JetLive.Library.SortedKeys
import JetLive.Library.ShellWords
import JetLive.Library.ChildProcess
import JetLive.Library.ByteRecords
import JetLive.Library.Locks
import JetLive.DataTypes
import JetLive.Utility
import JetLive.Loader.SymbolsFilter
import JetLive.Loader.Elf
import JetLive.Loader.SymbolMaps
import JetLive.Loader.ElfRelocations
import JetLive.Loader.ElfTargets
import JetLive.TeenyPath.Basic
import JetLive.TeenyPath.Normal
import JetLive.TeenyPath.Components
import JetLive.Loader.Macho
import JetLive.Loader.MachoFiles
import JetLive.Loader.MachoVariables
import JetLive.Loader.MachoSizes
import JetLive.Loader.MachoBytes
import JetLive.Loader.SymbolNames
import JetLive.Compiler.State
import JetLive.Compiler.Operations
import JetLive.Compiler.CommandLines
import JetLive.Compiler.History
import JetLive.Compiler.Step
import JetLive.Compiler.Invariant
import JetLive.Compiler.Refinement
import JetLive.Compiler.Records
import JetLive.Compiler.Run
import JetLive.Compiler.Requests
import JetLive.Compiler.LinkPhase
import JetLive.Compiler.Failures
import JetLive.Compiler.Agreement
import JetLive.Compiler.Closure
import JetLive.Compiler.TraceIndependence
import JetLive.Compiler.Deferral
import JetLive.Compiler.Poll
import JetLive.Compiler.Progress
import JetLive.Compiler.Delivery
import JetLive.Compiler.Status
import JetLive.Compiler.Libraries
import JetLive.Compiler.Threads
import JetLive.Compiler.ThreadSafety
import JetLive.Compiler.ThreadRefinement
import JetLive.Compiler.ThreadProgress
import JetLive.Reload.Relocations
import JetLive.Reload.Transfer
import JetLive.Reload.Displacements
import JetLive.Loader.MachoRelocations
import JetLive.Reload.Statics
import JetLive.Reload.PageReferences
import JetLive.Reload.PageOffsets
import JetLive.Reload.WholeTransfer
import JetLive.Reload.StaticState
import JetLive.Reload.Hooks
import JetLive.Reload.Pipeline
import JetLive.Reload.Copies
import JetLive.Reload.FailedHooks
import JetLive.Reload.References
import JetLive.Live.Deferral
import JetLive.Live.Delivery
import JetLive.Live.Dependencies
import JetLive.MemoryMap
import JetLive.MemoryMapMacos
import JetLive.Live.Depfiles
import JetLive.Live.DatabaseSearch
import JetLive.Live.State
import JetLive.Live.Units
import JetLive.Live.Operations
import JetLive.Live.FileWatcher
import JetLive.Live.Initialization
import JetLive.Live.Run
import JetLive.Live.Startup
import JetLive.Live.Gate
import JetLive.Live.Refinding
import JetLive.Live.Agreement
import JetLive.Live.Maps
import JetLive.Live.DepfileAgreement
import JetLive.Live.UnitDiff
import JetLive.Live.DirectoryFilters
import JetLive.Live.Rereading
import JetLive.Live.DependencyMaps
import JetLive.Live.KnownUnits
import JetLive.Live.Listener
import JetLive.Live.FileEvents
import JetLive.Live.EventQueue
import JetLive.Live.LogQueue
import JetLive.Live.QueueLocks
import JetLive.Live.Reloads
import JetLive.Live.Arrival
import JetLive.Live.CommandReading
