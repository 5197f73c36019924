import HashAhead.Core.Verify
import HashAhead.Chain.AddressTxInfo

/-! What the staking records of a block are made from: its accounts, their address contexts and the
states before the block. -/

namespace HashAhead.Stake
open Foundation Trie State Chain Core

structure StakeBase where
  param : NetworkParam
  verifyFhxHeightBranch002 : UInt32 → Bool
  /-- `GetIndex`, with the state root of the index -/
  getStateRoot : UInt256 → Option UInt256
  /-- `RetrieveDestState`, by state root -/
  retrieveDestState : UInt256 → Destination → Option DestState
  /-- `RetrieveAddressContext`, by block -/
  retrieveAddressContext : UInt256 → Destination → Option AddressContext
  /-- `GetTemplateAddressContext`: the data of a template address -/
  getTemplateAddressContext : Bytes → Option Bytes
  /-- `CTemplate::Import` -/
  importTemplate : Bytes → Option Template

/-- A block with the accounts that it has changed and the contexts of its addresses. -/
structure StakeBlock where
  hashPrev : UInt256
  hashBlock : UInt256
  fOrigin : Bool
  nTimeStamp : UInt64
  txMint : Transaction
  vtx : List Transaction
  mapAddressContext : DestMap AddressContext
  mapAccState : DestMap DestState

/-- `CBlock::GetBlockHeight`, which is part of the hash. -/
def StakeBlock.nHeight (block : StakeBlock) : UInt32 := getBlockHeightByHash block.hashBlock

def isStakeContext (ctxAddress : AddressContext) : Bool :=
  ctxAddress.isTemplate && ChainBase.isStakeTemplate ctxAddress.getTemplateType

namespace StakeBase
variable (base : StakeBase) (block : StakeBlock)

def hashPrevStateRoot : Option UInt256 :=
  if ¬block.fOrigin ∧ block.hashPrev ≠ 0 then base.getStateRoot block.hashPrev else some 0

/-- `funcGetAddressContext`: a context of the block, or else one that is stored. -/
def addressContext (dest : Destination) : Option AddressContext :=
  (block.mapAddressContext.find dest).or (base.retrieveAddressContext block.hashPrev dest)

def template (ctxAddress : AddressContext) : Option Template :=
  (base.getTemplateAddressContext ctxAddress.btData).bind base.importTemplate

def Typed (context : Destination → AddressContext) : Prop :=
  ∀ dest state ctxAddress, (dest, state) ∈ block.mapAccState.entries → base.addressContext block dest = some ctxAddress →
    ctxAddress = context dest

end StakeBase

/-- The account map has every account whose balance has changed from the previous block. -/
def StakeBlock.Changes (block : StakeBlock) (ledger : UInt256 → Destination → UInt256) : Prop :=
  ∀ dest, ledger block.hashBlock dest =
    ((block.mapAccState.find dest).map DestState.nBalance).getD (ledger block.hashPrev dest)

def overlay (before : Destination → UInt256) (entries : List (Destination × DestState)) (dest : Destination) : UInt256 :=
  ((entries.find? fun kv => kv.1 = dest).map fun kv => kv.2.nBalance).getD (before dest)

section Overlay
variable {before : Destination → UInt256} {front back : List (Destination × DestState)} {dest other : Destination}
  {state : DestState} {block : StakeBlock} {ledger : UInt256 → Destination → UInt256}

section
variable (fresh : dest ∉ front.map Prod.fst)
include fresh

theorem find_fresh : front.find? (fun kv => kv.1 = dest) = none := by
  rw [List.find?_eq_none]
  intro kv mem found
  have same : kv.1 = dest := by simpa using found
  exact fresh (List.mem_map.2 ⟨kv, mem, same⟩)

theorem overlay_fresh : overlay before front dest = before dest := by
  rw [overlay, find_fresh fresh]
  rfl

theorem overlay_snoc_self :
    overlay before (front ++ [(dest, state)]) dest = state.nBalance := by
  simp [overlay, List.find?_append, find_fresh fresh]

end

theorem overlay_snoc_other (apart : other ≠ dest) :
    overlay before (front ++ [(dest, state)]) other = overlay before front other := by
  simp [overlay, List.find?_append, apart.symm]

theorem fresh_of_split (split : block.mapAccState.entries = front ++ (dest, state) :: back) :
    dest ∉ front.map Prod.fst := by
  have distinct := block.mapAccState.keys_nodup
  rw [split, List.map_append] at distinct
  exact fun mem => (List.nodup_append.1 distinct).2.2 dest mem dest (by simp) rfl

theorem overlay_entries (changed : block.Changes ledger) (dest : Destination) :
    overlay (ledger block.hashPrev) block.mapAccState.entries dest = ledger block.hashBlock dest := by
  rw [changed, overlay, SortedMap.find, Option.map_map]
  rfl

end Overlay

namespace Sample

/-- The delegate 0xD1, a pledge address 0xB5 and a vote address 0xB4, which point to it. -/
def stakeContext (dest : Destination) : AddressContext :=
  if dest = 0xD1 then ⟨packType destTypeTemplate templateDelegate, [3]⟩
  else if dest = 0xB4 then ⟨packType destTypeTemplate templateVote, [4]⟩
  else if dest = 0xB5 then ⟨packType destTypeTemplate templatePledge, [5]⟩ else .pubkey []

def stakeBase : StakeBase where
  param := mainnet
  verifyFhxHeightBranch002 := fun _ => true
  getStateRoot := fun _ => some 1
  retrieveDestState := fun _ _ => none
  retrieveAddressContext := fun _ dest => some (stakeContext dest)
  getTemplateAddressContext := some
  importTemplate := fun
    | [3] => some (.delegate 0xD1 0xA2 500)
    | [4] => some (.vote 0xD1 0xA2 0)
    | [5] => some (.pledge ⟨0xD1, 0xA2, 1, 0, 7⟩)
    | _ => none

def firstHash : UInt256 := createBlockHash 100 1 0 0xA1

def mintTx : Transaction := ⟨.stake, 1, 0, 0, 0xD1, 0, 0, 0, .empty, []⟩

def firstBlock (accounts : DestMap DestState) : StakeBlock := ⟨0, firstHash, true, 1000, mintTx, [], .empty, accounts⟩

def account (nBalance : UInt256) : DestState := ⟨packType destTypeTemplate templateDelegate, 0, nBalance, 0, 0, false⟩

end Sample

end HashAhead.Stake
