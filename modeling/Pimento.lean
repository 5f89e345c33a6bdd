import Pimento.AddressSpaces
import Pimento.AllocationCost
import Pimento.Boot
import Pimento.CompleteLoad
import Pimento.Confinement
import Pimento.DeviceReads
import Pimento.DirectoryIteration
import Pimento.ElfGrammar
import Pimento.EnterUser
import Pimento.EntryNames
import Pimento.FailedCalls
import Pimento.FileHandles
import Pimento.FrameEnumeration
import Pimento.HeapFailures
import Pimento.Isolation
import Pimento.KernelMap
import Pimento.LoadableChunks
import Pimento.MountAlgebra
import Pimento.MountBoundary
import Pimento.MountEffect
import Pimento.MountRace
import Pimento.NamespaceCalls
import Pimento.NewEntries
import Pimento.ParentLookup
import Pimento.Preemption
import Pimento.Resumption
import Pimento.RoundRobin
import Pimento.RowMeaning
import Pimento.SerialWrites
import Pimento.SharedFrames
import Pimento.SharedHeap
import Pimento.SystemCallEntry
import Pimento.Tlb
import Pimento.TmpfsTree
import Pimento.Turns
import Pimento.UserMemory
import Pimento.WalkPaths
import Pimento.WriteOnce
