import EnocGem5.Noc.SwitchRequests
import EnocGem5.Noc.Flips
import EnocGem5.Noc.DelayLine
import EnocGem5.Coherence.SingleWriter
import EnocGem5.Coherence.DirectoryKeys
import EnocGem5.Coherence.Replacement
import EnocGem5.System.Overflow
import EnocGem5.Mem.XBarLayer
import EnocGem5.Base.AddrRangeMap
import EnocGem5.Mem.PacketQueue
import EnocGem5.Mem.MSHRQueue
import EnocGem5.Mem.MSHR
import EnocGem5.Sim.EventQueue
import EnocGem5.Mem.CoherentXBar
import EnocGem5.Mem.PageTables
import EnocGem5.O3.RenamePools
import EnocGem5.O3.Barriers
import EnocGem5.Mem.MemCheckerHistory
import EnocGem5.O3.StoreWriteback
import EnocGem5.Ruby.CacheMemory
import EnocGem5.Ruby.BufferCapacity
import EnocGem5.Ruby.BufferOrder
import EnocGem5.Ruby.WireBuffer
import EnocGem5.Pred.Training
import EnocGem5.Pred.ReturnStack
import EnocGem5.Pred.LoopPredictor
import EnocGem5.Pred.PathHistory
import EnocGem5.Mem.CacheBlk
import EnocGem5.Garnet.Multicast
import EnocGem5.Minor.Forwarding
import EnocGem5.Minor.Scoreboard
import EnocGem5.Mem.StackDistCheck
import EnocGem5.Ruby.PseudoLRUPolicy
import EnocGem5.Base.CircleBuf
import EnocGem5.Mem.FALRU
import EnocGem5.Mem.PrefetchQueue
import EnocGem5.O3.ROB
import EnocGem5.Dev.EtherSwitch
import EnocGem5.Dev.PacketFifo
