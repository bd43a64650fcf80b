import OpenWatcom.Wlink.CmdPlacement
import OpenWatcom.Wlink.CmdFixups
import OpenWatcom.Cg.SelectTables
import OpenWatcom.Wlink.FlatFixups
import OpenWatcom.Wlink.PeImports
import OpenWatcom.Wlink.PermData
import OpenWatcom.Clib.StoredLength
import OpenWatcom.Clib.Slabs
import OpenWatcom.Wlink.CmdDescriptors
import OpenWatcom.Clib.Redirect
import OpenWatcom.Clib.Dirent
import OpenWatcom.Clib.NameCalls
import OpenWatcom.Clib.FailedWrite
import OpenWatcom.Clib.StreamSeek
import OpenWatcom.Clib.TextAppend
import OpenWatcom.Cfloat.Arithmetic
import OpenWatcom.Clib.Break
import OpenWatcom.Wlink.GroupOrder
import OpenWatcom.Cg.FoldBitCompare
import OpenWatcom.Cg.FoldDiv
import OpenWatcom.Clib.NearMalloc
import OpenWatcom.Cfloat.Nearest
import OpenWatcom.Wpack.CodeTable
import OpenWatcom.Wlink.SpillRuns
import OpenWatcom.Wlink.IteratedBlocks
import OpenWatcom.Bdiff.HoleCommands
import OpenWatcom.Wpack.MatchRuns
import OpenWatcom.Watcom.Leb128
import OpenWatcom.Watcom.Int64
import OpenWatcom.Cg.SortList
import OpenWatcom.Wlink.Toc
import OpenWatcom.Clib.Daylight
import OpenWatcom.Cfloat.Texts
import OpenWatcom.Cg.Overlap
import OpenWatcom.Cg.ResultType
import OpenWatcom.Cg.MemMgr
import OpenWatcom.Wlink.ExportOrdinals
import OpenWatcom.Cg.Demote
import OpenWatcom.Clib.StrToL
import OpenWatcom.Wlink.FarCalls
import OpenWatcom.Wlink.NeAlign
import OpenWatcom.Wlink.AutoGroup
import OpenWatcom.Wlink.StoredFixups
import OpenWatcom.Cg.InsDead
import OpenWatcom.Wlink.FlatRecords
import OpenWatcom.Clib.QSort
import OpenWatcom.Wlink.Ring
import OpenWatcom.Cg.Scoreboard
import OpenWatcom.Cg.Liveness
import OpenWatcom.Cg.FloWide
import OpenWatcom.Clib.HeapRuns
