import Gem5.IGbE.Checkpoint
import Gem5.IGbE.RxRestart
import Gem5.IGbE.ForcedFlush
import Gem5.IGbE.TxOrder
import Gem5.IGbE.TxFifoOrder
import Gem5.M2func.Bitmask
import Gem5.IGbE.TxDevice
import Gem5.IGbE.Interrupts
import Gem5.IGbE.Rss
import Gem5.IGbE.RegisterIsolation
import Gem5.IGbE.WritebackThreshold
import Gem5.IGbE.CacheBounds
import Gem5.DTA.FirstPackets
import Gem5.DTA.TxRoundTrip
import Gem5.DTA.RxRoundTrip
import Gem5.DTA.NoPacket
import Gem5.DTA.Accounting
import Gem5.DTA.RespQueue
import Gem5.DTA.RxWrites
import Gem5.Base.RangeRelations
import Gem5.Base.RangeMapRuns
import Gem5.Base.ChunkRuns
import Gem5.Events.EventCheckpoint
import Gem5.Dev.Copyout
import Gem5.Dev.LoadGenerator
import Gem5.Dev.ReadOrder
import Gem5.Mem.PacketDelivery
import Gem5.Mem.LayerDrain
import Gem5.Mem.MissQueue
import Gem5.Mem.TreePLRU
import Gem5.Mem.SkewedAssociative
import Gem5.Mem.SuperBlk
import Gem5.Mem.SectorTags
import Gem5.Mem.TargetOrder
import Gem5.Mem.SnoopFanout
import Gem5.Mem.SnoopRuns
import Gem5.Mem.PrefetchQueue
import Gem5.Mem.StoreConditional
import Gem5.Mem.WayPartition
import Gem5.Mem.DramAddress
import Gem5.Mem.FunctionalRead
import Gem5.Dev.EtherSwitch
import Gem5.Dev.PortFifo
import Gem5.Mem.Huffman
import Gem5.Mem.FrFcfs
import Gem5.Sim.FutexMap
