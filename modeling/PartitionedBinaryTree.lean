import PartitionedBinaryTree.Lib.ByteString
import PartitionedBinaryTree.Lib.ByteCursor
import PartitionedBinaryTree.Lib.QueryLog
import PartitionedBinaryTree.Lib.BitTrie
import PartitionedBinaryTree.Lib.Refinement
import PartitionedBinaryTree.Lib.OrderedDict
import PartitionedBinaryTree.Lib.PairFold
import PartitionedBinaryTree.Lib.Scan
import PartitionedBinaryTree.Lib.LastWrite
import PartitionedBinaryTree.Lib.RecentlyUsed
import PartitionedBinaryTree.Lib.HashedKey
import PartitionedBinaryTree.Lib.HashChain
import PartitionedBinaryTree.Lib.Quorum
import PartitionedBinaryTree.Lib.Epochs
import PartitionedBinaryTree.Lib.SetFold
import PartitionedBinaryTree.Lib.SameResult
import PartitionedBinaryTree.Lib.SortedItems
import PartitionedBinaryTree.Lib.PrefixFree
import PartitionedBinaryTree.Lib.Credits
import PartitionedBinaryTree.Lib.Spine
import PartitionedBinaryTree.Lib.Programming
import PartitionedBinaryTree.Lib.FreshFold
import PartitionedBinaryTree.PyRuntime
import PartitionedBinaryTree.PyText
import PartitionedBinaryTree.Nodes
import PartitionedBinaryTree.Tree
import PartitionedBinaryTree.TreeRuns
import PartitionedBinaryTree.SplitRecursion
import PartitionedBinaryTree.Canonical
import PartitionedBinaryTree.Commitment
import PartitionedBinaryTree.ProofSoundness
import PartitionedBinaryTree.ProofCompleteness
import PartitionedBinaryTree.ProofReadings
import PartitionedBinaryTree.ForgedTrees
import PartitionedBinaryTree.ForgedClimbs
import PartitionedBinaryTree.ProofForgery
import PartitionedBinaryTree.Wallet
import PartitionedBinaryTree.StemPacket
import PartitionedBinaryTree.VerifiedRpc
import PartitionedBinaryTree.HonestProvider
import PartitionedBinaryTree.RpcSoundness
import PartitionedBinaryTree.HashCache
import PartitionedBinaryTree.RustTree
import PartitionedBinaryTree.ClientAgreement
import PartitionedBinaryTree.VerifierAgreement
import PartitionedBinaryTree.SessionRuns
import PartitionedBinaryTree.HashSwitching
import PartitionedBinaryTree.HashRegistry
import PartitionedBinaryTree.PacketCanonical
import PartitionedBinaryTree.EndpointLimits
import PartitionedBinaryTree.StemCache
import PartitionedBinaryTree.RedundantQuery
import PartitionedBinaryTree.RustHash
import PartitionedBinaryTree.ModeCompleteness
import PartitionedBinaryTree.VectorFold
import PartitionedBinaryTree.VectorFoldSoundness
import PartitionedBinaryTree.GeminiAnswers
import PartitionedBinaryTree.ForgedPaths
import PartitionedBinaryTree.VectorFoldForgery
import PartitionedBinaryTree.Embedding
import PartitionedBinaryTree.StateItems
import PartitionedBinaryTree.CodeChunks
import PartitionedBinaryTree.SmartAccount
import PartitionedBinaryTree.HotStemOrder
import PartitionedBinaryTree.RustEmbedding
import PartitionedBinaryTree.Migration
import PartitionedBinaryTree.FetchPolicy
import PartitionedBinaryTree.FetchPlan
import PartitionedBinaryTree.Reliability
import PartitionedBinaryTree.WidenedPlan
import PartitionedBinaryTree.EpochFetch
import PartitionedBinaryTree.FetchTelemetry
import PartitionedBinaryTree.RpcTotality
import PartitionedBinaryTree.AliasEndpoints
import PartitionedBinaryTree.HexGrammar
import PartitionedBinaryTree.AccountLeaves
import PartitionedBinaryTree.PageLocality
import PartitionedBinaryTree.MetadataPackets
import PartitionedBinaryTree.BatchProof
import PartitionedBinaryTree.Registration
import PartitionedBinaryTree.BucketManifest
import PartitionedBinaryTree.WitnessBundle
import PartitionedBinaryTree.StateLens
import PartitionedBinaryTree.LensQuota
import PartitionedBinaryTree.InterestDigest
import PartitionedBinaryTree.GasMeter
import PartitionedBinaryTree.ProviderHistory
import PartitionedBinaryTree.Conformance
import PartitionedBinaryTree.RustBatchProof
import PartitionedBinaryTree.CliSession
import PartitionedBinaryTree.WitnessCompression
import PartitionedBinaryTree.EpochSecrets
import PartitionedBinaryTree.FormalDashboard
import PartitionedBinaryTree.SlaRegistry
import PartitionedBinaryTree.ExecutionCommitments
import PartitionedBinaryTree.StateStore
import PartitionedBinaryTree.MetadataRecords
import PartitionedBinaryTree.ProofUniqueness
import PartitionedBinaryTree.RpcExchange
import PartitionedBinaryTree.PrivateQueries
import PartitionedBinaryTree.HashingCost
import PartitionedBinaryTree.IncrementalHashing
