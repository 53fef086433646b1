import ScratchOs.Core.Words
import ScratchOs.Core.Runs
import ScratchOs.Core.Chain
import ScratchOs.Core.Radix
import ScratchOs.Core.Bytes
import ScratchOs.Core.Files
import ScratchOs.Core.Pool
import ScratchOs.Core.Canvas
import ScratchOs.Core.Slots
import ScratchOs.Core.Fields
import ScratchOs.Core.Memory
import ScratchOs.Core.Rises
import ScratchOs.Kernel.Address
import ScratchOs.Kernel.Allocator
import ScratchOs.Kernel.Ownership
import ScratchOs.Kernel.Paging
import ScratchOs.Kernel.Mapping
import ScratchOs.Kernel.AddrSpace
import ScratchOs.Kernel.MapCall
import ScratchOs.Kernel.Boot
import ScratchOs.Kernel.Tables
import ScratchOs.Kernel.Misuse
import ScratchOs.Kernel.Ranges
import ScratchOs.Kernel.Video
import ScratchOs.Kernel.Writable
import ScratchOs.Kernel.Draw
import ScratchOs.Kernel.Screen
import ScratchOs.Kernel.Segment
import ScratchOs.Kernel.Keyboard
import ScratchOs.Kernel.Polling
import ScratchOs.Game.State
import ScratchOs.Game.Board
import ScratchOs.Game.Solve
import ScratchOs.Game.Frame
import ScratchOs.Fs.Bitmap
import ScratchOs.Fs.FirstFit
import ScratchOs.Fs.BitArray
import ScratchOs.Fs.Directory
import ScratchOs.Fs.Names
import ScratchOs.Fs.Format
import ScratchOs.Fs.Extract
import ScratchOs.Fs.Sizes
import ScratchOs.Fs.Writes
import ScratchOs.Fs.BlockSize
import ScratchOs.Fs.Listing
import ScratchOs.Core.X86
import ScratchOs.Kernel.Interrupt
import ScratchOs.Core.CStrings
import ScratchOs.Core.StringOps
import ScratchOs.Core.Numerals
import ScratchOs.Lib.Blocks
import ScratchOs.Lib.Strings
import ScratchOs.Lib.Printfmt
import ScratchOs.Lib.Directives
import ScratchOs.Lib.FormatStrings
import ScratchOs.Lib.Arguments
import ScratchOs.Lib.Strtol
import ScratchOs.Lib.Snprintf
import ScratchOs.Kernel.Serial
import ScratchOs.Boot.Disk
import ScratchOs.Boot.Loader
import ScratchOs.Boot.Image
import ScratchOs.Game.Mainloop
import ScratchOs.Kernel.PageTest
import ScratchOs.Boot.Gdt
import ScratchOs.Fs.Print
import ScratchOs.Kernel.Interleaving
import ScratchOs.Core.Paged
import ScratchOs.Game.Display
