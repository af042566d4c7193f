import FosKernel.AllocatePage
import FosKernel.BootTables
import FosKernel.ChunkAllocation
import FosKernel.ChunkCounts
import FosKernel.ChunkSharing
import FosKernel.ClockReplacement
import FosKernel.ConsoleInput
import FosKernel.CopyPaste
import FosKernel.CutPaste
import FosKernel.DecimalStrings
import FosKernel.Environments
import FosKernel.ExitEnvironment
import FosKernel.ForeignFree
import FosKernel.FreeUserMemory
import FosKernel.HeapRequests
import FosKernel.KernelHeapFailures
import FosKernel.ListMacros
import FosKernel.MapFrameContract
import FosKernel.MissingNames
import FosKernel.NextFit
import FosKernel.ObjectNames
import FosKernel.PageFileImages
import FosKernel.PageFileRuns
import FosKernel.PageFileWrites
import FosKernel.ProgramSegments
import FosKernel.RepeatedFaults
import FosKernel.RoundRobin
import FosKernel.SemaphoreProtocol
import FosKernel.SemaphoreTable
import FosKernel.SharedCounts
import FosKernel.SharedObjects
import FosKernel.Sleeping
import FosKernel.StabSearch
import FosKernel.StringSplitting
import FosKernel.TimeStamps
import FosKernel.WorkingSetLoading
import FosKernel.WorkingSets
import FosKernel.ZeroPages
import FosKernel.ProgramMemories
import FosKernel.CommandPrompt
import FosKernel.TypedLines
import FosKernel.SharedCoherence
import FosKernel.ShortNames
