import Radare.Framework.History
import Radare.Framework.MachineInt
import Radare.Framework.Memory
import Radare.Util.Endian
import Radare.Util.Num
import Radare.Esil.Flags
import Radare.Esil.Compare
import Radare.Esil.MemOps
import Radare.Esil.MemOpsProof
import Radare.Esil.Parse
import Radare.Esil.ReadModifyWrite
import Radare.Esil.State
import Radare.Esil.WordMachine
import Radare.Io.Map
import Radare.Io.CacheProof
import Radare.Io.OneFile
import Radare.Io.Read
import Radare.Io.ReadRounds
import Radare.Io.ReadSplit
import Radare.Io.Types
import Radare.Io.SeekHistory
import Radare.Io.Write
import Radare.Io.WriteHistory
import Radare.Io.MapAdd
import Radare.Util.Buffer
import Radare.Util.Calc
import Radare.Framework.NecklaceSequence
import Radare.Util.Base91
import Radare.Util.Debruijn
import Radare.Util.Diff
import Radare.Framework.LinkedNodes
import Radare.Util.RList
import Radare.Util.RListOps
import Radare.Util.RListRemove
import Radare.Util.RListSort
import Radare.Util.RListHistory
import Radare.Framework.Insertions
import Radare.Util.Punycode
import Radare.Util.PunycodeEncode
import Radare.Util.Bdiff
import Radare.Framework.Probing
import Radare.Util.BdiffClasses
import Radare.Framework.DiagonalRun
import Radare.Util.BdiffMatch
import Radare.Util.BdiffPatch
import Radare.Io.Vio
import Radare.Framework.KeyIndex
import Radare.Util.Str
import Radare.Flag.Flag
import Radare.Flag.FlagHistory
import Radare.Flag.FlagRekey
import Radare.Flag.FlagAgain
import Radare.Framework.AdjacencyLists
import Radare.Util.Graph
import Radare.Util.GraphRep
import Radare.Framework.DepthFirst
import Radare.Framework.DepthFirstRun
import Radare.Util.GraphDfs
import Radare.Framework.SeparatedRanges
import Radare.Util.Tinyrange
import Radare.Anal.Block
import Radare.Anal.FcnMembership
import Radare.Search.Search
import Radare.Framework.Transducer
import Radare.Search.SearchTurn
import Radare.Search.SearchChunks
import Radare.Search.SearchOverlap
import Radare.Framework.Occurrences
import Radare.Search.SearchKeyword
import Radare.Framework.PartialMatch
import Radare.Search.SearchHits
import Radare.Framework.Successive
import Radare.Search.Regexp
import Radare.Framework.Loop
import Radare.Search.Strings
import Radare.Framework.Windows
import Radare.Reg.Reg
import Radare.Reg.RegValue
import Radare.Reg.Arena
import Radare.Reg.RegFile
import Radare.Reg.Snapshots
import Radare.Framework.Ring
import Radare.Util.Queue
import Radare.Framework.ObjectHeap
import Radare.Bp.Bp
import Radare.Bp.BpTable
import Radare.Bp.Restore
import Radare.Framework.Brainfuck
import Radare.Debug.Bfvm
import Radare.Framework.Leb128
import Radare.Util.Uleb128
import Radare.Bin.Dwarf
import Radare.Bin.DwarfRows
import Radare.Io.Ihex
import Radare.Io.IhexParse
import Radare.Io.IhexWrite
import Radare.Framework.Subdivision
import Radare.Core.Layering
import Radare.Core.LayeringOrder
import Radare.Core.LayeringDummies
import Radare.Core.LayeringRight
import Radare.Io.VioProof
import Radare.Io.VioSections
import Radare.Io.VioRead
import Radare.Io.SectionNext
import Radare.Util.RCache
import Radare.Esil.StoreLoad
import Radare.Esil.StackSlots
import Radare.Io.Extend
import Radare.Io.MapWrite
import Radare.Io.Shift
import Radare.Esil.Rotate
import Radare.Esil.ParseSafe
import Radare.Esil.EmptyWords
import Radare.Esil.ExtraCommas
import Radare.Framework.EditDistance
import Radare.Util.Base64
import Radare.Util.Base64Bounds
import Radare.Util.Leb128Codec
import Radare.Framework.Budget
import Radare.Util.Utf8
import Radare.Framework.CString
import Radare.Util.Hex
import Radare.Util.HexFromC
import Radare.Util.CalcDivision
import Radare.Util.CalcBrackets
import Radare.Util.CalcScan
import Radare.Util.CalcScanTokens
import Radare.Util.CalcScanRun
import Radare.Util.NumBits
import Radare.Util.MemMem
import Radare.Util.RangeSub
import Radare.Util.Range
import Radare.Reg.Packed
import Radare.Reg.Dump
import Radare.Reg.ProfileLines
import Radare.Reg.ProfileItems
import Radare.Framework.Simulates
import Radare.Reg.ProfileCursor
import Radare.Reg.ProfileOverrun
import Radare.Reg.Lookup
import Radare.Framework.Marks
import Radare.Anal.Opaddr
import Radare.Anal.FcnBlocks
import Radare.Anal.Split
import Radare.Anal.SplitBb
import Radare.Anal.AddBb
import Radare.Anal.Resize
import Radare.Framework.FirstFit
import Radare.Anal.Reflines
import Radare.Anal.ReflineIntersect
import Radare.Framework.Glob
import Radare.Util.Glob
import Radare.Framework.TextBuffer
import Radare.Util.AnsiFilter
import Radare.Util.StrArgv
import Radare.Util.StrEscape
import Radare.Util.StrRange
import Radare.Util.StrBuf
import Radare.Util.TreeVisit
import Radare.Util.Utf16
import Radare.Util.WordSet
import Radare.Util.ChopPath
import Radare.Hash.Crc32
import Radare.Io.IhexLoop
import Radare.Util.UriEscape
import Radare.Cons.GrepLine
import Radare.Framework.Crossings
import Radare.Core.Crossing
import Radare.Util.Crop
import Radare.Util.StrReplace
import Radare.Bin.DwarfAttr
import Radare.Util.HashTable
import Radare.Core.CrossingRun
import Radare.Core.LayoutRestore
import Radare.Framework.Conversation
import Radare.Io.Rap
import Radare.Io.RapSession
import Radare.Util.DebruijnOffset
