import Chisel.BitmapBytes
import Chisel.CacheCap
import Chisel.ColdReads
import Chisel.DataPageBytes
import Chisel.Defrag
import Chisel.DepthRecovery
import Chisel.Frames
import Chisel.FreeSet
import Chisel.OverflowWalk
import Chisel.PageTypes
import Chisel.PowerFailures
import Chisel.Reuse
import Chisel.SpillwayBytes
import Chisel.SuperblockBytes
import Chisel.TagDrop
import Chisel.TagSets
