import WaterBuffalo.Arch.Exceptions
import WaterBuffalo.Arch.Gdt
import WaterBuffalo.Arch.Idt
import WaterBuffalo.Arch.Isr
import WaterBuffalo.Arch.Line
import WaterBuffalo.Arch.Msr
import WaterBuffalo.Arch.Processor
import WaterBuffalo.Arch.Serial
import WaterBuffalo.Foundation.Bits
import WaterBuffalo.Foundation.ByteMemory
import WaterBuffalo.Foundation.CString
import WaterBuffalo.Foundation.Copying
import WaterBuffalo.Foundation.Counting
import WaterBuffalo.Foundation.Logged
import WaterBuffalo.Foundation.Loop
import WaterBuffalo.Foundation.Machine
import WaterBuffalo.Foundation.Pool
import WaterBuffalo.Foundation.Radix
import WaterBuffalo.Foundation.Run
import WaterBuffalo.Foundation.TableForest
import WaterBuffalo.Foundation.Words
import WaterBuffalo.Kernel.Boot
import WaterBuffalo.Kernel.BootLines
import WaterBuffalo.Kernel.BootLog
import WaterBuffalo.Kernel.BootSpace
import WaterBuffalo.Kernel.Framebuffer
import WaterBuffalo.Kernel.Linker
import WaterBuffalo.Kernel.Output
import WaterBuffalo.Kernel.Report
import WaterBuffalo.Kernel.ReportReading
import WaterBuffalo.Kernel.State
import WaterBuffalo.Lib.Format
import WaterBuffalo.Lib.Freestanding
import WaterBuffalo.Lib.Numerals
import WaterBuffalo.Lib.Print
import WaterBuffalo.Lib.Reading
import WaterBuffalo.Lib.Rendering
import WaterBuffalo.Pmm.Access
import WaterBuffalo.Pmm.Bitmap
import WaterBuffalo.Pmm.Client
import WaterBuffalo.Pmm.Conservation
import WaterBuffalo.Pmm.Contracts
import WaterBuffalo.Pmm.Counter
import WaterBuffalo.Pmm.FirstFit
import WaterBuffalo.Pmm.Init
import WaterBuffalo.Pmm.Model
import WaterBuffalo.Vmm.Acceptance
import WaterBuffalo.Vmm.Addresses
import WaterBuffalo.Vmm.Boot
import WaterBuffalo.Vmm.Budget
import WaterBuffalo.Vmm.Collision
import WaterBuffalo.Vmm.Entry
import WaterBuffalo.Vmm.Exhaustion
import WaterBuffalo.Vmm.Forest
import WaterBuffalo.Vmm.Installed
import WaterBuffalo.Vmm.Invariant
import WaterBuffalo.Vmm.Isolation
import WaterBuffalo.Vmm.KernelAcceptance
import WaterBuffalo.Vmm.KernelBudget
import WaterBuffalo.Vmm.KernelSpace
import WaterBuffalo.Vmm.Mapping
import WaterBuffalo.Vmm.Model
import WaterBuffalo.Vmm.OutOfMemory
import WaterBuffalo.Vmm.RangeCalls
import WaterBuffalo.Vmm.RangeForms
import WaterBuffalo.Vmm.Ranges
import WaterBuffalo.Vmm.Refusal
import WaterBuffalo.Vmm.Runs
import WaterBuffalo.Vmm.Spaces
import WaterBuffalo.Vmm.Switch
import WaterBuffalo.Vmm.Tables
import WaterBuffalo.Vmm.Translation
import WaterBuffalo.Vmm.Walk
import WaterBuffalo.Vmm.World
