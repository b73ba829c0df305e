import Yjkos.AtaRecovery
import Yjkos.AtaSectors
import Yjkos.BitmapRanges
import Yjkos.BootMemMap
import Yjkos.BootProtect
import Yjkos.BootRegions
import Yjkos.BstAvl
import Yjkos.BstHeight
import Yjkos.BstInsert
import Yjkos.BstOrder
import Yjkos.BstRun
import Yjkos.ConsoleRead
import Yjkos.ContextSwitch
import Yjkos.Disk
import Yjkos.Ext2Blocks
import Yjkos.Ext2Cursor
import Yjkos.Ext2Directory
import Yjkos.Ext2DirectoryEnd
import Yjkos.Ext2DirectorySafe
import Yjkos.Ext2File
import Yjkos.Ext2Holes
import Yjkos.Ext2Listing
import Yjkos.Ext2Locate
import Yjkos.Ext2Lookup
import Yjkos.Ext2MountSafe
import Yjkos.Ext2Open
import Yjkos.Ext2Tree
import Yjkos.FbGlyph
import Yjkos.FbttyGrid
import Yjkos.Getopt
import Yjkos.GetoptHistory
import Yjkos.GetoptPosix
import Yjkos.HeapRun
import Yjkos.HeapSizes
import Yjkos.IdeBusBlocks
import Yjkos.IdeBusLock
import Yjkos.IdeBusRelease
import Yjkos.IdeBusmaster
import Yjkos.IdeDma
import Yjkos.IsrEntry
import Yjkos.KobjectFailure
import Yjkos.KobjectRefs
import Yjkos.LinkedList
import Yjkos.LsEntries
import Yjkos.MmuMap
import Yjkos.MmuRemap
import Yjkos.MutexRun
import Yjkos.PathReader
import Yjkos.PciTree
import Yjkos.PicRun
import Yjkos.PmmBestFit
import Yjkos.PmmPools
import Yjkos.PmmRetry
import Yjkos.PrintfExact
import Yjkos.Ps2QueueRun
import Yjkos.PsfFont
import Yjkos.PsfLoad
import Yjkos.PsfUnicode
import Yjkos.Pstring
import Yjkos.PstringWindow
import Yjkos.QueueRun
import Yjkos.Rand
import Yjkos.SchedOrder
import Yjkos.SchedRounds
import Yjkos.SchedWork
import Yjkos.Serial
import Yjkos.SerialNewline
import Yjkos.ShellRun
import Yjkos.TermsBounds
import Yjkos.TermsClear
import Yjkos.TermsCursor
import Yjkos.Tlb
import Yjkos.TrapManager
import Yjkos.UnicodeTable
import Yjkos.VfsHeap
import Yjkos.VfsMount
import Yjkos.VfsNormal
import Yjkos.Vgatty
import Yjkos.VmmAllocAt
import Yjkos.VmmCommitRun
import Yjkos.VmmOrder
import Yjkos.WindowWire
import Yjkos.XorLinear
