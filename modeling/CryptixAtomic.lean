import CryptixAtomic.Payload.Agreement
import CryptixAtomic.Transition.CanonicalBuy
import CryptixAtomic.Processor.VaultBinding
import CryptixAtomic.Processor.ReplayRuns
import CryptixAtomic.Processor.StateImport
import CryptixAtomic.Processor.BlockDepth
import CryptixAtomic.Processor.PastPruningPoints
import CryptixAtomic.Processor.Reorg
import CryptixAtomic.Processor.BodyTips
import CryptixAtomic.Bootstrap.Quorum
import CryptixAtomic.Mempool.Revalidation
import CryptixAtomic.Ghostdag.ParentOrder
import CryptixAtomic.Ghostdag.SyncBatch
import CryptixAtomic.Headers.LevelParents
import CryptixAtomic.Difficulty.Retarget
import CryptixAtomic.Address.Parsing
import CryptixAtomic.UtxoIndex.Mirror
import CryptixAtomic.Script.Numbers
