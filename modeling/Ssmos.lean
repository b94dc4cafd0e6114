import Ssmos.Base.Mem
import Ssmos.Base.Bytes
import Ssmos.Base.Numerals
import Ssmos.Base.Runs
import Ssmos.Base.Tiles
import Ssmos.Base.DList
import Ssmos.Base.Stack
import Ssmos.Memory
import Ssmos.Blocks
import Ssmos.MemoryFacts
import Ssmos.Overlap
import Ssmos.HeapWalk
import Ssmos.HeapFrames
import Ssmos.HeapRuns
import Ssmos.HeapContracts
import Ssmos.HeapSafety
import Ssmos.BackLinks
import Ssmos.Capacity
import Ssmos.List
import Ssmos.ListFacts
import Ssmos.Base.Touch
import Ssmos.ListLimits
import Ssmos.ListDelete
import Ssmos.Base.ThreeWay
import Ssmos.Text
import Ssmos.String
import Ssmos.StringFacts
import Ssmos.StringLimits
import Ssmos.Base.Reading
import Ssmos.StringOrder
import Ssmos.Isr
import Ssmos.IsrFacts
import Ssmos.Base.Pic8259
import Ssmos.Pic
import Ssmos.PicFacts
import Ssmos.Syscalls
import Ssmos.Waits
import Ssmos.Sleep
import Ssmos.Boot
import Ssmos.BootLoad
import Ssmos.Base.Chs
import Ssmos.BootImage
import Ssmos.Base.Dials
import Ssmos.Base.Preserves
import Ssmos.Base.Pairs
import Ssmos.Ata
import Ssmos.AtaBuses
import Ssmos.AtaIdentify
import Ssmos.Graphics
import Ssmos.Drawing
import Ssmos.Layout
import Ssmos.Numbers
import Ssmos.Terminal
import Ssmos.Commands
import Ssmos.NumberFacts
import Ssmos.NumberLimits
import Ssmos.NumberHistory
import Ssmos.Console
import Ssmos.CommandsFacts
import Ssmos.Cells
import Ssmos.Lines
import Ssmos.LineEditor
import Ssmos.Scrolling
import Ssmos.Wrapping
import Ssmos.HelpList
import Ssmos.Rtc
import Ssmos.Base.Assoc
import Ssmos.Aliases
import Ssmos.Owed
import Ssmos.TerminalColor
import Ssmos.AliasTable
import Ssmos.AliasMap
import Ssmos.AliasNull
import Ssmos.Dispatch
import Ssmos.History
import Ssmos.Leaks
import Ssmos.Shell
import Ssmos.ShellFacts
import Ssmos.Screen
import Ssmos.ScreenFacts
import Ssmos.Keyboard
import Ssmos.Strings
import Ssmos.AtaDrives
import Ssmos.Idt
import Ssmos.Gates
import Ssmos.Ticks
import Ssmos.Unblocked
import Ssmos.Panel
import Ssmos.Haltdump
import Ssmos.SystemLog
import Ssmos.Startup
import Ssmos.KernelMain
import Ssmos.Loader
import Ssmos.PowerOn
