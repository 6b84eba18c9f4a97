import BitcoinMachineCode.Consensus.Blame
import BitcoinMachineCode.Consensus.MerkleInPlace
import BitcoinMachineCode.Consensus.Multisig
import BitcoinMachineCode.Consensus.GlvWnaf
import BitcoinMachineCode.Foundation.LucasTest
import BitcoinMachineCode.Consensus.Sha256
import BitcoinMachineCode.Chain.ArchiveRepeat
import BitcoinMachineCode.Storage.BlockTables
import BitcoinMachineCode.Storage.CoinTable
import BitcoinMachineCode.Chain.BlockFilterBuild
import BitcoinMachineCode.Chain.HdrTreeBranches
import BitcoinMachineCode.Chain.HdrTreeFile
import BitcoinMachineCode.Chain.HeaderFlood
import BitcoinMachineCode.Chain.ReorgAnalyze
import BitcoinMachineCode.Storage.CoinStats
import BitcoinMachineCode.Storage.FilterIndex
import BitcoinMachineCode.Storage.IndexRuns
import BitcoinMachineCode.Storage.LsmCount
import BitcoinMachineCode.Storage.LsmSplice
import BitcoinMachineCode.Storage.NoInflation
import BitcoinMachineCode.Storage.Restart
import BitcoinMachineCode.Storage.RunCompact
import BitcoinMachineCode.Storage.SnapshotCoin
import BitcoinMachineCode.Storage.StatsRingSound
import BitcoinMachineCode.Storage.TxIndexTail
import BitcoinMachineCode.Storage.UndoPrune
import BitcoinMachineCode.Storage.UndoRuns
import BitcoinMachineCode.Storage.UtxoReload
import BitcoinMachineCode.Mempool.BuildCluster
import BitcoinMachineCode.Mempool.ExactTotals
import BitcoinMachineCode.Mempool.FeeDiagram
import BitcoinMachineCode.Mempool.PoolStore
import BitcoinMachineCode.Mempool.PostLinearizeBest
import BitcoinMachineCode.Mempool.Reconcile
import BitcoinMachineCode.Mempool.Journal
import BitcoinMachineCode.Mempool.Replacement
import BitcoinMachineCode.Network.AddrBook
import BitcoinMachineCode.Network.Asmap
import BitcoinMachineCode.Network.Bip324Delivery
import BitcoinMachineCode.Network.OrphanResolve
import BitcoinMachineCode.Network.TxHandoff
import BitcoinMachineCode.Network.RollingFetchSound
import BitcoinMachineCode.Wallet.PsbtUpdate
import BitcoinMachineCode.Chain.TxStats
import BitcoinMachineCode.Chain.Deployments
import BitcoinMachineCode.Storage.RadixSort
import BitcoinMachineCode.Network.InboundEvict
import BitcoinMachineCode.Rpc.Json
import BitcoinMachineCode.Wallet.CoinSelect
import BitcoinMachineCode.Wallet.Musig2
import BitcoinMachineCode.Chain.Locator
import BitcoinMachineCode.Network.Inflight
import BitcoinMachineCode.Network.Base32
