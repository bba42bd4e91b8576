import CsoMalloc.ByteMemory
import CsoMalloc.LinkedSequence
import CsoMalloc.Tiling
import CsoMalloc.Scanning
import CsoMalloc.KBest
import CsoMalloc.Memlib
import CsoMalloc.Mm
import CsoMalloc.Layout
import CsoMalloc.LayoutInvariant
import CsoMalloc.LayoutSteps
import CsoMalloc.TagWords
import CsoMalloc.BoundaryTags
import CsoMalloc.FreeLists
import CsoMalloc.Refinement
import CsoMalloc.Coalesce
import CsoMalloc.Allocate
import CsoMalloc.Extend
import CsoMalloc.Malloc
import CsoMalloc.Free
import CsoMalloc.Runs
import CsoMalloc.Plans
import CsoMalloc.Simulation
import CsoMalloc.HeapWalk
import CsoMalloc.Invariants
import CsoMalloc.Contract
import CsoMalloc.Fragmentation
import CsoMalloc.Coalescing
import CsoMalloc.Mdriver
import CsoMalloc.RangeList
import CsoMalloc.Replay
import CsoMalloc.Rehearsal
import CsoMalloc.Utilization
import CsoMalloc.Validity
import CsoMalloc.Verdicts
import CsoMalloc.Speed
import CsoMalloc.Oracle
import CsoMalloc.Agreement
import CsoMalloc.Evaluation
import CsoMalloc.Budget
import CsoMalloc.Arena
import CsoMalloc.Reallocation
import CsoMalloc.BlockSizes
import CsoMalloc.Accounting
import CsoMalloc.SizeClasses
import CsoMalloc.Fitting
import CsoMalloc.Unlinking
import CsoMalloc.Checker
import CsoMalloc.Merging
import CsoMalloc.Wrapping
import CsoMalloc.Capacity
import CsoMalloc.Containment
import CsoMalloc.ListNodes
import CsoMalloc.Initialization
import CsoMalloc.TraceReader
import CsoMalloc.TraceFormat
import CsoMalloc.Footprint
import CsoMalloc.Fcyc
