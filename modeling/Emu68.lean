import Emu68.Branch.FloatBranch
import Emu68.A64.ConstantLoading
import Emu68.A64.FlagTransfer
import Emu68.Jit.LookupSoundness
import Emu68.Jit.UnchangedCode
import Emu68.SoftCache.LineCrossing
import Emu68.Jit.ExitPlacement
import Emu68.M68k.Coverage
import Emu68.Mmu.Runs
import Emu68.PiStorm.Correctness
import Emu68.PiStorm.WriteOrder
import Emu68.Ppc.Coverage
import Emu68.Ppc.InlinedReturn
import Emu68.Ppc.ExceptionEntry
import Emu68.Ppc.CacheLiveness
import Emu68.Supervisor.ExceptionReturn
import Emu68.Tlsf.Correctness
import Emu68.M68k.ReturnAddresses
import Emu68.Jit.LruReplacement
import Emu68.SoftCache.RangeInvalidation
import Emu68.A64.AllocatorRuns
import Emu68.MulDiv.Correctness
import Emu68.MulDiv.QuotientExactness
import Emu68.Alu.BoundsCheck
import Emu68.Alu.MoveMultiple
import Emu68.Alu.SavedRegisters
import Emu68.Loaders.HunkLoading
import Emu68.PiStorm.Splitting
import Emu68.DeviceTree.Lookup
import Emu68.Fpu.ExtendedPrecision
import Emu68.Ppc.CacheOperations
import Emu68.Ppc.ConditionRegister
import Emu68.Ppc.RotateAndMask
import Emu68.Ppc.RegisterSafety
import Emu68.Ppc.BranchPaths
import Emu68.Boot.FindToken
import Emu68.Branch.OffsetTracking
import Emu68.DataAbort.Emulation
import Emu68.StraightCode
