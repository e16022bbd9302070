import FastPPC.Lookup.Overlap
import FastPPC.Lookup.LinkPool
import FastPPC.Frontend.Multiblock
import FastPPC.Ir.CompareFusion
import FastPPC.Ir.SplatSound
import FastPPC.Smc.WindowPatch
import FastPPC.Smc.Arming
import FastPPC.Alloc.RangeScan
import FastPPC.Alloc.Accounting
import FastPPC.Alloc.HostReserved
import FastPPC.CodeMap.RoundTrip
import FastPPC.Seccomp.Trace
import FastPPC.Seccomp.Counts
import FastPPC.Rip.Reconstruct
import FastPPC.Jit.FlagExact
import FastPPC.Jit.Crc32
import FastPPC.Jit.F80Convert
import FastPPC.Ranges.IntervalList
import FastPPC.Ranges.HostOwned
import FastPPC.Ra.MergeMeaning
import FastPPC.Smc.RelinkSound
import FastPPC.Smc.RearmQueue
import FastPPC.Smc.StoreEmulation
import FastPPC.Vma.MarkMemo
import FastPPC.Vma.Detach
import FastPPC.Granule.Maps
import FastPPC.Mutex.WritePriority
