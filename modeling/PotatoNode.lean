import PotatoNode.Chainbase.Lockstep
import PotatoNode.Chainbase.CommitHistory
import PotatoNode.Chain.DistinctConfirmations
import PotatoNode.Chain.StandbyMode
import PotatoNode.Chain.SwitchReversal
import PotatoNode.Chain.HeadSync
import PotatoNode.Chain.UsedKeys
import PotatoNode.Chain.PermissionHierarchy
import PotatoNode.Chain.TableOverflow
import PotatoNode.Chain.LogAgreement
import PotatoNode.Chain.MerkleRoot
import PotatoNode.Chain.HardFailure
import PotatoNode.Chain.BlockSigning
import PotatoNode.Chain.ForkDatabaseFile
import PotatoNode.Chain.CodeOwnership
import PotatoNode.Chain.IndexReconstruction
import PotatoNode.Chain.AbiDecodingBounds
import PotatoNode.Chain.AbiResolution
import PotatoNode.Chain.SnapshotReader
import PotatoNode.Chain.AccumulatorAdds
import PotatoNode.Chain.ActorList
import PotatoNode.Chain.FixedBytes
import PotatoNode.Chain.NameOrder
import PotatoNode.Chain.RecordedTransactions
import PotatoNode.ChainPlugin.RollbackTermination
import PotatoNode.ChainPlugin.AuthorizerQueries
import PotatoNode.ProducerPlugin.NextBlockTime
import PotatoNode.ProducerPlugin.ScheduledTransactions
import PotatoNode.ProducerPlugin.PersistedTransactions
import PotatoNode.NetPlugin.QueuedBuffer
import PotatoNode.NetPlugin.HeadCatchup
import PotatoNode.NetPlugin.SyncSource
import PotatoNode.StateHistoryPlugin.DeltaReplay
