import Nxchain.Proof.ForcedUpdate
import Nxchain.Proof.Majority
import Nxchain.Proof.ChainAgreement
import Nxchain.Proof.Commit
import Nxchain.Proof.Refund
import Nxchain.Proof.Conservation
import Nxchain.Proof.PoolIndex
import Nxchain.Proof.BuildingOrder
import Nxchain.Proof.Lockout
import Nxchain.Proof.WorldCommit
import Nxchain.Proof.SealFields
import Nxchain.Proof.BlockEvents
import Nxchain.Proof.BlockRuns
import Nxchain.Proof.FailedInsertion
import Nxchain.Proof.ListRoots
import Nxchain.Proof.MemoryCost
import Nxchain.Proof.EmptyWindows
import Nxchain.Proof.MemoryAccess
import Nxchain.Proof.CreateResults
import Nxchain.Proof.StackDepth
import Nxchain.Proof.SnapshotUpdates
import Nxchain.Proof.GasLimits
import Nxchain.Proof.GasPrices
import Nxchain.Proof.AncestorHashes
import Nxchain.Proof.LogQueries
import Nxchain.Proof.GasEstimation
import Nxchain.Proof.ReplayProtection
import Nxchain.Proof.TrieMemos
import Nxchain.Proof.QueueLocks
import Nxchain.Proof.LogBlooms
import Nxchain.Proof.PriceOrder
import Nxchain.Proof.DialTasks
import Nxchain.Proof.ModularExponent
import Nxchain.Proof.ArchiveRecords
