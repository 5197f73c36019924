import HashAhead.Foundation.ByteWord
import HashAhead.Trie.Nibble

/-! String parameters of contract calls. Offset and length are words of 256 bits that are cut to 64 bits. -/

namespace HashAhead.State
open Foundation Trie

/-- The word of 32 bytes at a position. -/
def paramWord (param : Bytes) (pos : Nat) : Nat := ofLittleEndian ((param.drop pos).take 32).reverse

/-- `CBlockState::GetContractStringParam`: where the string begins and its size. -/
def getContractStringParam (param : Bytes) (pos : Nat) : Option (Nat × Nat) :=
  if param.length - pos < 32 then none
  else
    let nVarPos := paramWord param pos % 2 ^ 64
    if param.length < nVarPos then none
    else if param.length - nVarPos < 32 then none
    else
      let nStringSize := paramWord param nVarPos % 2 ^ 64
      let nSurplusSize := param.length - nVarPos - 32
      if nStringSize = 0 then none
      else
        let nSectByteCount := (nStringSize / 32 + if nStringSize % 32 = 0 then 0 else 1) * 32 % 2 ^ 64
        if nSurplusSize < nSectByteCount then none else some (nVarPos + 32, nStringSize)

/-- The string is the one that the whole words describe, and it lies in the buffer. -/
def StringInside (param : Bytes) (pos : Nat) (slice : Nat × Nat) : Prop :=
  slice.1 = paramWord param pos + 32 ∧ slice.2 = paramWord param (slice.1 - 32) ∧ slice.1 + slice.2 ≤ param.length

namespace Sample

def wordsOf (words : List Nat) : Bytes := words.flatMap fun word => (littleEndian 32 word).reverse

end Sample
end HashAhead.State
