import HashAhead.Trie.Batch
import HashAhead.Trie.PrefixWalk
import HashAhead.Host.Creation
import HashAhead.Host.Storage
import HashAhead.Chain.Finality
import HashAhead.Chain.AddressHistory
import HashAhead.Dex.Incremental
import HashAhead.Dex.OrderDb
import HashAhead.Stake.DelegateVote
import HashAhead.Reward.Conservation
import HashAhead.Reward.PaidOnce
import HashAhead.Mpvss.SameIndexes
import HashAhead.Block.Commitment
import HashAhead.Block.HashOrder
import HashAhead.Core.Lockup
import HashAhead.Delegate.Checkable
import HashAhead.Dex.Records
import HashAhead.Fetch.Assignment
import HashAhead.Fetch.Indexes
import HashAhead.Host.CreateCode
import HashAhead.Host.Modexp
import HashAhead.State.SavedCode
import HashAhead.State.StringParam
import HashAhead.Storage.Repair
import HashAhead.Stream.Size
import HashAhead.Trie.Cells
import HashAhead.TxPool.Selection
