import Gem5.Base.AddrRangeIntlv
import Gem5.Base.AddrRangeMapSound
import Gem5.Base.AddrRangeOffset
import Gem5.Base.ChunkGenerator
import Gem5.Base.Intmath
import Gem5.Base.TrieRuns
import Gem5.Cpu.O3.BranchHistory
import Gem5.Cpu.O3.FetchHead
import Gem5.Cpu.O3.FetchStream
import Gem5.Cpu.O3.LsqUnit
import Gem5.Cpu.Pred.TageBimodal
import Gem5.Cpu.Pred.LoopPredictor
import Gem5.Mem.AbstractMem
import Gem5.Mem.Atomic.Filter
import Gem5.Mem.Cache.Blocking
import Gem5.Mem.Cache.Compressors.Huffman
import Gem5.Mem.Cache.Compressors.Lossless
import Gem5.Mem.Cache.MshrFlags
import Gem5.Mem.Cache.MshrMaintenance
import Gem5.Mem.Cache.MissCost
import Gem5.Mem.Cache.NextEntry
import Gem5.Mem.Cache.Prefetch.Eip.EntangledKept
import Gem5.Mem.Cache.Prefetch.Eip.Mirror
import Gem5.Mem.Cache.Prefetch.Eip.Runs
import Gem5.Mem.Cache.Prefetch.Eip.Timely
import Gem5.Mem.Cache.Prefetch.QueuedSound
import Gem5.Mem.Cache.Prefetch.Throttle
import Gem5.Mem.Cache.ReplacementPolicies.LruEmissary
import Gem5.Mem.Cache.ReplacementPolicies.MlpLin
import Gem5.Mem.Cache.ReplacementPolicies.OptSound
import Gem5.Mem.Cache.ReplacementPolicies.Ship
import Gem5.Mem.Cache.Tags.FaLruSound
import Gem5.Mem.Cache.Tags.IndexingPolicies.SkewedAssociative
import Gem5.Mem.Cache.Tags.SuperBlk
import Gem5.Mem.CacheClean
import Gem5.Mem.Qos.QPolicy
import Gem5.Mem.Ruby.MiDma
import Gem5.Mem.Ruby.RoutingUnit
import Gem5.Sim.FutexMap
