import Albatross.Policy
import Albatross.Lib.BinaryArith
import Albatross.Lib.IdealAggregate
import Albatross.Lib.Prefix
import Albatross.Lib.StoreCount
import Albatross.Collections.BitSet
import Albatross.Primitives.SlotsAllocation
import Albatross.Block.MacroBlock
import Albatross.Block.Justification
import Albatross.Block.Interlink
import Albatross.Block.InclusionProof
import Albatross.History.ValidityStore
import Albatross.Blockchain.Push
import Albatross.Trie.Node
import Albatross.Trie.MerkleRadixTrie
import Albatross.Trie.Invariant
import Albatross.Trie.Descend
import Albatross.Trie.UpdateKeys
import Albatross.Trie.Put
import Albatross.Trie.Remove
import Albatross.Trie.Runs
import Albatross.Trie.Predecessor
import Albatross.Trie.Proof
import Albatross.Trie.ProofSound
import Albatross.Trie.GetProof
import Albatross.Trie.Hashes
import Albatross.Trie.Dirty
import Albatross.Primitives.Coin
import Albatross.Account.Interaction
import Albatross.Transaction.HtlcProof
import Albatross.Account.HtlcContract
import Albatross.Mmr.Position
import Albatross.Mmr.Proof
import Albatross.Mmr.MerkleMountainRange
import Albatross.History.HistoryTreeProof
import Albatross.Vrf.Discrete
import Albatross.Lib.Increasing
import Albatross.Blockchain.Inherents
import Albatross.Lib.AssocMap
import Albatross.Tendermint.Machine
import Albatross.Tendermint.Poll
import Albatross.Tendermint.LateProposal
import Albatross.Tendermint.Votes
import Albatross.Tendermint.Lock
import Albatross.Account.PunishedSlots
import Albatross.Handel.Aggregation
import Albatross.Validator.TendermintAggregation
import Albatross.Trie.Diff
import Albatross.Trie.Recording
import Albatross.Mempool.Transactions
import Albatross.Mempool.State
import Albatross.Mempool.Bookkeeping
import Albatross.Account.VestingContract
import Albatross.Handel.Partitioner
import Albatross.Trie.PostOrder
import Albatross.Lib.Nibbles
import Albatross.Trie.PackedKey
import Albatross.Lib.HeapTree
import Albatross.Primitives.TreeProof
import Albatross.Utils.Merkle
import Albatross.Validator.Registry
import Albatross.Handel.Store
import Albatross.Handel.Evaluator
import Albatross.Lib.PerfectTree
import Albatross.Mmr.Numbering
import Albatross.Mmr.Peaks
import Albatross.Mmr.Store
import Albatross.Mmr.Prove
import Albatross.Mmr.Reference
import Albatross.Lib.Counting
import Albatross.Vrf.AliasTable
import Albatross.Account.StakingContract
import Albatross.Tendermint.Voting
