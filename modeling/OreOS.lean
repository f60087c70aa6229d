import OreOS.Machine.Trace
import OreOS.Machine.Ownership
import OreOS.Machine.TextScreen
import OreOS.Machine.VirtualMemory
import OreOS.Machine.LinkedList
import OreOS.Machine.StringOps
import OreOS.Machine.Buffer
import OreOS.Machine.Lines
import OreOS.Machine.Turns
import OreOS.Machine.Stack
import OreOS.I8259.Proofs.Masks
import OreOS.I8259.Proofs.Programmed
import OreOS.X86Desc.Proofs.Tables
import OreOS.Interrupts.Proofs.InService
import OreOS.Rtc.Proofs.Ticks
import OreOS.Rtc.Proofs.Clock
import OreOS.Paging.Proofs.Isolation
import OreOS.Paging.Proofs.Slots
import OreOS.Paging.Proofs.Translation
import OreOS.Paging.Proofs.Vidmap
import OreOS.Paging.Proofs.Load
import OreOS.Filesys.Proofs.Reads
import OreOS.Filesys.Proofs.Slices
import OreOS.Filesys.Proofs.Damaged
import OreOS.Filesys.Proofs.Listing
import OreOS.Filesys.Proofs.Lookup
import OreOS.Console.Proofs.Refines
import OreOS.Console.Proofs.Terminal
import OreOS.Keyboard.Proofs.Steps
import OreOS.Keyboard.Proofs.Modifiers
import OreOS.Keyboard.Proofs.LineBound
import OreOS.Keyboard.Proofs.Delivery
import OreOS.Keyboard.Proofs.ReadBack
import OreOS.Keyboard.Proofs.Echo
import OreOS.Keyboard.Proofs.WriteTerminal
import OreOS.SysCall.Proofs.DescriptorLaws
import OreOS.SysCall.Proofs.FileStream
import OreOS.SysCall.Proofs.DirectoryReads
import OreOS.SysCall.Proofs.ReadBounds
import OreOS.SysCall.Proofs.Registers
import OreOS.SysCall.Proofs.CommandLine
import OreOS.SysCall.Proofs.Getargs
import OreOS.SysCall.Proofs.Wrapper
import OreOS.Emulate.Proofs.Parse
import OreOS.Emulate.Proofs.RoundTrip
import OreOS.Kernel.Proofs.Steps
import OreOS.Kernel.Proofs.Defined
import OreOS.Kernel.Proofs.HalfOpened
import OreOS.Kernel.Proofs.Terminals
import OreOS.Kernel.Proofs.Ownership
import OreOS.Kernel.Proofs.Halting
import OreOS.Kernel.Proofs.KernelStack
import OreOS.Kernel.Proofs.DescriptorLeak
import OreOS.Kernel.Proofs.KeptScreens
import OreOS.Kernel.Proofs.Screens
import OreOS.Kernel.Proofs.Nesting
import OreOS.Kernel.Proofs.Returns
import OreOS.Kernel.Proofs.Arguments
import OreOS.Kernel.Proofs.LoadBuffer
import OreOS.Kernel.Proofs.CommandChecks
import OreOS.Kernel.Proofs.Turns
import OreOS.Fish.Proofs.BlinkList
import OreOS.Fish.Proofs.Integrity
import OreOS.Fish.Proofs.Display
import OreOS.Fish.Proofs.Period
import OreOS.Fish.Proofs.Frames
import OreOS.Fish.Proofs.Animation
import OreOS.Lib.Proofs.Printf
import OreOS.Lib.Proofs.Numerals
import OreOS.Lib.Proofs.Memory
import OreOS.Grep.Proofs.Lines
import OreOS.Grep.Proofs.Exact
import OreOS.Programs.Proofs.Output
import OreOS.Programs.Proofs.Grep
import OreOS.Programs.Proofs.Shell
import OreOS.Programs.Proofs.Counter
