import SpKernel.Lib.Segment
import SpKernel.Lib.Outcome
import SpKernel.Lib.Memory
import SpKernel.Lib.Ring
import SpKernel.Lib.OpenAddressing
import SpKernel.Lib.Cycle
import SpKernel.Lib.Order
import SpKernel.QueuePool
import SpKernel.Spaces
import SpKernel.Process
import SpKernel.Machine
import SpKernel.Kinship
import SpKernel.Children
import SpKernel.Placement
import SpKernel.Waiting
import SpKernel.Reports
import SpKernel.Mapping
import SpKernel.SerialInput
import SpKernel.SerialOutput
import SpKernel.Keyboard
import SpKernel.Housekeeping
import SpKernel.Reading
import SpKernel.UserMemory
import SpKernel.Panics
import SpKernel.Conservation
import SpKernel.Queueing
import SpKernel.Sleepers
import SpKernel.RoundRobin
import SpKernel.MemoryMap
import SpKernel.Lib.CString
import SpKernel.Lib.Cyclic
import SpKernel.Strings
import SpKernel.IoObjects
import SpKernel.Router
import SpKernel.Handles
import SpKernel.Routing
import SpKernel.Properties
import SpKernel.ArpCache
import SpKernel.CommandRing
import SpKernel.RamDisk
import SpKernel.Lib.Sweep
import SpKernel.VConsole
import SpKernel.ConsoleSafety
import SpKernel.ScrollRotation
import SpKernel.ConsoleText
import SpKernel.Redraw
import SpKernel.ConsoleGrid
import SpKernel.Lib.Ledger
import SpKernel.Paths
import SpKernel.IoFile
import SpKernel.FileEffects
import SpKernel.FileCursor
import SpKernel.FileOpen
import SpKernel.PageOwner
import SpKernel.Keystrokes
import SpKernel.KeyTranslation
import SpKernel.ConsoleRead
import SpKernel.StatusCall
import SpKernel.Contexts
import SpKernel.Forking
import SpKernel.ForkStack
import SpKernel.Transmit
import SpKernel.IpChecksum
import SpKernel.CommandUnit
import SpKernel.ReceiveList
import SpKernel.BuildImage
import SpKernel.Bootstrap
import SpKernel.Readprog
import SpKernel.StableQueue
import SpKernel.SerialStreams
import SpKernel.Lib.Trace
import SpKernel.WriteCall
import SpKernel.MapLoops
import SpKernel.IdentityMap
import SpKernel.Prototype
import SpKernel.Rejection
import SpKernel.PropertyReads
import SpKernel.Enumeration
import SpKernel.Lib.Components
import SpKernel.Lib.Numeral
import SpKernel.Lib.OnesComplement
import SpKernel.ArpReply
import SpKernel.FatTime
import SpKernel.SendIpv4
import SpKernel.LoadAddress
import SpKernel.DiskOrder
import SpKernel.FrameBuffer
import SpKernel.TextDrawing
import SpKernel.Lib.Attempts
import SpKernel.BestMode
import SpKernel.Lib.WriteLog
import SpKernel.VideoInfo
import SpKernel.VideoBlock
import SpKernel.PathNodes
import SpKernel.PathCompare
import SpKernel.NumberFormats
import SpKernel.Printf
import SpKernel.RawFs
import SpKernel.Lib.Moving
import SpKernel.CopyRoutines
import SpKernel.PoolRuns
import SpKernel.ChildSearch
import SpKernel.StatusText
import SpKernel.Lib.BitField
import SpKernel.ColorPacking
import SpKernel.Atoi
import SpKernel.FatClusters
import SpKernel.FatContexts
import SpKernel.Lib.Ancestry
import SpKernel.Lineage
import SpKernel.Transitions
import SpKernel.Lifecycle
import SpKernel.Lib.Potential
import SpKernel.Quanta
import SpKernel.Lib.SerialMemory
import SpKernel.Eeprom
import SpKernel.ArpProtocol
import SpKernel.PrintfText
import SpKernel.Lib.BlockCopy
import SpKernel.BootLoad
import SpKernel.Lib.WordStack
import SpKernel.InterruptEntry
import SpKernel.Lib.InterruptController
import SpKernel.InterruptLines
import SpKernel.GraphicsRedraw
import SpKernel.TableMemory
import SpKernel.SerialOverrun
