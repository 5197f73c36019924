import HashAhead.State.Account

/-! Template addresses: forks, delegates, votes and pledges, with the parameters of a network and what
a pledge and a fork lock up under them. -/

namespace HashAhead.State

def templateFork : UInt8 := 1
def templatePoa : UInt8 := 2
def templateDelegate : UInt8 := 3
def templateActivatecode : UInt8 := 6

/-- What differs between the networks: the blocks of a day, the days a vote reward stays locked, the
blocks after which the deposit of a fork halves, and the pledge rules by their first height. A rule has
for each pledge type its days and its reward rate. -/
structure NetworkParam where
  dayHeight : UInt32
  voteRewardLockDays : UInt32
  mortgageDecayCycle : UInt32
  pledgeRewardRule : List (UInt32 × List (UInt16 × UInt32 × UInt32))

def mainnet : NetworkParam where
  dayHeight := 1440
  voteRewardLockDays := 180
  mortgageDecayCycle := 1440 * 180
  pledgeRewardRule := [(0, [(1, 365, 10000), (2, 180, 9000), (3, 90, 8000), (4, 30, 7000), (5, 7, 6000)])]

structure TemplatePledge where
  destDelegate : Destination
  destOwner : Destination
  nPledgeType : UInt32
  nCycles : UInt32
  nNonce : UInt32
deriving DecidableEq

namespace TemplatePledge
variable (param : NetworkParam) (pledge : TemplatePledge)

/-- `CTemplatePledge::GetRule`: the last rule that has begun. -/
def getRule (nHeight : UInt32) : Option (List (UInt16 × UInt32 × UInt32)) :=
  (param.pledgeRewardRule.takeWhile fun rule => nHeight ≥ rule.1).getLast?.map Prod.snd

/-- The days and the reward rate of the pledge type, of which the map key keeps sixteen bits. -/
def findRule (nHeight : UInt32) : Option (UInt32 × UInt32) :=
  (getRule param nHeight).bind fun rule => rule.lookup pledge.nPledgeType.toUInt16

/-- `CTemplatePledge::GetPledgeFinalHeight`. A pledge of no cycles has no end, which is height 0. -/
def getPledgeFinalHeight (nHeight : UInt32) : Option UInt32 :=
  (findRule param pledge nHeight).map fun rule =>
    if pledge.nCycles = 0 then 0 else nHeight + rule.1 * param.dayHeight * pledge.nCycles

def getRewardRate (nHeight : UInt32) : UInt32 := ((findRule param pledge nHeight).map Prod.snd).getD 0

end TemplatePledge

/-- `CTemplate`, as far as its data is read. -/
inductive Template where
  | fork (destRedeem : Destination) (hashFork : UInt256)
  | delegate (destMint destOwner : Destination) (nRewardRatio : UInt16)
  | vote (destDelegate destOwner : Destination) (nRewardMode : UInt8)
  | pledge (pledge : TemplatePledge)
  | other (nTemplateType : UInt8)
deriving DecidableEq

def mortgageBase : UInt256 := 100000 * 10 ^ 18

/-- `CTemplateFork::LockedCoin`. The power of one half is exact in the floating point of the source. -/
def lockedCoin (param : NetworkParam) (nHeight : Nat) : UInt256 :=
  mortgageBase * BitVec.ofNat 256 (1000000 / 2 ^ (nHeight / param.mortgageDecayCycle.toNat)) / 1000000

end HashAhead.State
