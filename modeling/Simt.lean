import Simt.Cpp.Components
import Simt.Cpp.Main
import Simt.Cpp.MiniSM
import Simt.Cpp.PdomCtrl
import Simt.Cpp.Types
import Simt.Lib.Delay
import Simt.Lib.Dict
import Simt.Lib.LaneSet
import Simt.Lib.Latch
import Simt.Lib.LiveStack
import Simt.Lib.Mealy
import Simt.Lib.Registers
import Simt.Lib.RoundRobin
import Simt.Lib.Testbench
import Simt.Lib.Text
import Simt.Lib.Threads
import Simt.Pdom.CppPaths
import Simt.Pdom.CycleAccurate
import Simt.Pdom.DivTree
import Simt.Pdom.Drain
import Simt.Pdom.Paths
import Simt.Pdom.Representation
import Simt.Pdom.RtlPaths
import Simt.Pdom.RtlSeparation
import Simt.Pdom.RtlSizing
import Simt.Pdom.Traversal
import Simt.Rtl.Alu
import Simt.Rtl.Components
import Simt.Rtl.ExecMaskUpdate
import Simt.Rtl.MiniSmTop
import Simt.Rtl.PdomCtrl
import Simt.Rtl.SimtStack
import Simt.Rtl.StackList
import Simt.Rtl.StackSpec
import Simt.Sm.Accounting
import Simt.Sm.Arbiter
import Simt.Sm.DivergeCounters
import Simt.Sm.DivergenceTests
import Simt.Sm.EdgeSpec
import Simt.Sm.Fairness
import Simt.Sm.History
import Simt.Sm.IdleStart
import Simt.Sm.InOrder
import Simt.Sm.Kernels
import Simt.Sm.LanesKept
import Simt.Sm.MaskedCycles
import Simt.Sm.Overhead
import Simt.Sm.Progress
import Simt.Sm.RawSafety
import Simt.Sm.Reconverge
import Simt.Sm.Reset
import Simt.Sm.RtlCounters
import Simt.Sm.RtlRefines
import Simt.Sm.SplitRun
import Simt.Sm.Threads
import Simt.Sm.Throughput
import Simt.Sm.TickSpec
import Simt.Sm.WarpPdom
import Simt.Stats.Curves
import Simt.Stats.DivStats
import Simt.Stats.DivSweep
import Simt.Stats.Python
import Simt.Stats.RoundTrip
import Simt.Stats.RtlSweep
import Simt.Stats.StatsFile
import Simt.Stats.Sweep
