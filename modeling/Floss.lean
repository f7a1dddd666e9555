import Floss.Exec
import Floss.ByteMem
import Floss.Parser
import Floss.ParserSafety
import Floss.PropNames
import Floss.Forest
import Floss.Flatten
import Floss.Roundtrip
import Floss.CString
import Floss.Frames
import Floss.FrameWalk
import Floss.Complete
import Floss.Matching
import Floss.NodeHistory
import Floss.FrameSim
import Floss.Handlers
import Floss.Cpu
import Floss.Regions
import Floss.Vmsa
import Floss.PageTables
import Floss.RamPhase
import Floss.RamMap
import Floss.IdMap
import Floss.DeviceOps
import Floss.DevicePhase
import Floss.BlocksAndPages
import Floss.TableBounds
import Floss.L3Pool
import Floss.Mair
import Floss.Reserved
import Floss.PassBounds
import Floss.Phandles
import Floss.Chains
import Floss.Clocks
import Floss.DtParse
import Floss.Translation
import Floss.RegBounds
import Floss.Runs
import Floss.SpinLock
import Floss.LossyQueue
import Floss.CharBuffer
import Floss.Uart
import Floss.UartStream
import Floss.UartWakeup
import Floss.UartSync
import Floss.UartReceive
import Floss.Numerals
import Floss.Kstdio
import Floss.Exception
import Floss.Gic
import Floss.GicRegisters
import Floss.WordMem
import Floss.A64
import Floss.Start
import Floss.Vectors
import Floss.Formats
import Floss.FrameDump
import Floss.Platform
import Floss.CellProgram
import Floss.FrameCells
import Floss.FrameLoads
import Floss.FrameInit
import Floss.FromTree
import Floss.Mmu
import Floss.PrintLock
import Floss.Delivery
