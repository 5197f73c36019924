import HashAhead.Chain.Crosschain
import HashAhead.Foundation.HashTree

/-! `CMerkleTree`. The tree is stored flat, level after level behind the leaves, and a proof lists the siblings on the
way up. The builder and the prover find the levels by their offsets, which are those of the levels of a hash tree. -/

namespace HashAhead.Chain
open Foundation State List HashTree

namespace MerkleTree
variable (cryptoHash : UInt256 → UInt256 → UInt256)

def pdRight : UInt8 := 1

/-- One level of `BuildMerkleTree`: the turns of the inner loop at `i = 2 * k`. -/
def pushLayer (vMerkleTree : List UInt256) (nLayerHeadIndex nSize : Nat) : List UInt256 :=
  (List.range ((nSize + 1) / 2)).foldl
    (fun vMerkleTree k => vMerkleTree ++
      [cryptoHash (vMerkleTree.getD (nLayerHeadIndex + 2 * k) 0)
        (vMerkleTree.getD (nLayerHeadIndex + min (2 * k + 1) (nSize - 1)) 0)])
    vMerkleTree

/-- The outer loop of `BuildMerkleTree`, for at most so many levels. -/
def pushLayers : Nat → List UInt256 → Nat → Nat → List UInt256
  | 0, vMerkleTree, _, _ => vMerkleTree
  | most + 1, vMerkleTree, nLayerHeadIndex, nSize =>
    if 1 < nSize then
      pushLayers most (pushLayer cryptoHash vMerkleTree nLayerHeadIndex nSize) (nLayerHeadIndex + nSize) ((nSize + 1) / 2)
    else vMerkleTree

/-- `CMerkleTree::BuildMerkleTree`: the leaves with the tree behind them, and its root. -/
def buildMerkleTree (vMerkleTree : List UInt256) : List UInt256 × UInt256 :=
  let vMerkleTree := pushLayers cryptoHash vMerkleTree.length vMerkleTree 0 vMerkleTree.length
  (vMerkleTree, vMerkleTree.getLast?.getD 0)

def sibling (vMerkleTree : List UInt256) (nLayerHeadIndex nIndex nSize : Nat) : UInt8 × UInt256 :=
  if nIndex % 2 = 0 then
    if nIndex ≥ nSize - 1 then (pdRight, vMerkleTree.getD (nLayerHeadIndex + nIndex) 0)
    else (pdRight, vMerkleTree.getD (nLayerHeadIndex + nIndex + 1) 0)
  else (pdLeft, vMerkleTree.getD (nLayerHeadIndex + nIndex - 1) 0)

/-- The loop of `BuildMerkleProve`, for at most so many levels: what it adds to the proof, and whether it succeeds. -/
def proveLayers : Nat → List UInt256 → Nat → Nat → Nat → MerkleProveData × Bool
  | 0, _, _, _, _ => ([], true)
  | most + 1, vMerkleTree, nLayerHeadIndex, nIndex, nSize =>
    if 1 < nSize then
      if nLayerHeadIndex + nSize > vMerkleTree.length then ([], false)
      else
        let above := proveLayers most vMerkleTree (nLayerHeadIndex + nSize) (nIndex / 2) ((nSize + 1) / 2)
        (sibling vMerkleTree nLayerHeadIndex nIndex nSize :: above.1, above.2)
    else ([], true)

/-- `CMerkleTree::BuildMerkleProve` of the leaf at an index -/
def buildMerkleProve (nLeafIndex : Nat) (vMerkleTree : List UInt256) (nLeafCount : Nat) : MerkleProveData × Bool :=
  if nLeafIndex ≥ nLeafCount then ([], false) else proveLayers nLeafCount vMerkleTree 0 nLeafIndex nLeafCount

/-- `CMerkleTree::BuildMerkleProve` of the first leaf with a hash -/
def buildMerkleProveOf (hashLeaf : UInt256) (vMerkleTree : List UInt256) (nLeafCount : Nat) : MerkleProveData × Bool :=
  if vMerkleTree.length < nLeafCount then ([], false)
  else
    let nLeafIndex := (vMerkleTree.take nLeafCount).findIdx (· = hashLeaf)
    if nLeafIndex = nLeafCount then ([], false) else buildMerkleProve nLeafIndex vMerkleTree nLeafCount

def climb (hashNode : UInt256) (vd : UInt8 × UInt256) : UInt256 :=
  if vd.1 = pdLeft then cryptoHash vd.2 hashNode else cryptoHash hashNode vd.2

def getMerkleRootByProve (vMerkleProve : MerkleProveData) (hashVerify : UInt256) : UInt256 :=
  vMerkleProve.foldl (climb cryptoHash) hashVerify

def verifyMerkleProve (hashMerkleRoot : UInt256) (vMerkleProve : MerkleProveData) (hashVerify : UInt256) : Bool :=
  hashMerkleRoot = getMerkleRootByProve cryptoHash vMerkleProve hashVerify

section Build
variable {front level : List UInt256}

theorem getD_of_lt {k : Nat} (inside : k < level.length) : level.getD k 0 = level[k] := by
  rw [getD_eq_getElem?_getD, List.getElem?_eq_getElem inside, Option.getD_some]

theorem getD_front {k : Nat} (inside : k < level.length) (more : List UInt256) :
    (front ++ level ++ more).getD (front.length + k) 0 = level.getD k 0 := by
  simp only [getD_eq_getElem?_getD, append_assoc]
  rw [List.getElem?_append_right (by omega), Nat.add_sub_cancel_left, List.getElem?_append_left inside]

/-- The inner loop appends the level above: after `k` turns the first `k` nodes of it are there. -/
theorem pushLayer_eq (front level : List UInt256) :
    pushLayer cryptoHash (front ++ level) front.length level.length =
      front ++ level ++ parents cryptoHash level := by
  have partly : ∀ k ≤ (level.length + 1) / 2,
      (List.range k).foldl
        (fun tree k => tree ++ [cryptoHash (tree.getD (front.length + 2 * k) 0)
          (tree.getD (front.length + min (2 * k + 1) (level.length - 1)) 0)]) (front ++ level) =
        front ++ level ++ (parents cryptoHash level).take k := by
    intro k
    induction k with
    | zero => simp
    | succ k ih =>
      intro inside
      rw [range_succ, foldl_append, ih (by omega), foldl_cons, foldl_nil,
        getD_front (by omega), getD_front (by omega), append_assoc,
        take_add_one, getElem?_parents cryptoHash level k (by omega) 0]
      rfl
  rw [pushLayer, partly _ (Nat.le_refl _), take_of_length_le (by rw [length_parents])]

theorem pushLayers_eq {most : Nat} (level : List UInt256) (enough : level.length ≤ most) (front : List UInt256) :
    pushLayers cryptoHash most (front ++ level) front.length level.length =
      front ++ (levels cryptoHash level).flatten := by
  induction most generalizing front level with
  | zero =>
    rw [pushLayers, levels_of_one (by omega), flatten_singleton]
  | succ most ih =>
    rw [pushLayers]
    split
    · rename_i more
      have next := ih (parents cryptoHash level) (by rw [length_parents]; omega) (front ++ level)
      rw [length_parents, length_append] at next
      rw [pushLayer_eq, next, levels_of_more more, flatten_cons, append_assoc]
    · rename_i one
      rw [levels_of_one one, flatten_singleton]

/-- The flat tree is the levels of the hash tree one after the other, and its last node is the root. -/
theorem buildMerkleTree_eq (leaves : List UInt256) :
    buildMerkleTree cryptoHash leaves =
      ((levels cryptoHash leaves).flatten, root cryptoHash 0 leaves) := by
  have flat := pushLayers_eq cryptoHash leaves (Nat.le_refl leaves.length) []
  rw [nil_append, length_nil, nil_append] at flat
  rw [buildMerkleTree, flat, getLast?_levels]

end Build

section Prove
variable {level : List UInt256}

theorem flatten_levels_prefix (level : List UInt256) : ∃ above, (levels cryptoHash level).flatten = level ++ above := by
  rw [levels]
  split
  · exact ⟨_, flatten_cons⟩
  · exact ⟨[], by simp⟩

theorem climb_sibling (front more : List UInt256) {nIndex : Nat} (inside : nIndex < level.length) :
    climb cryptoHash (level.getD nIndex 0) (sibling (front ++ level ++ more) front.length nIndex level.length) =
      (parents cryptoHash level).getD (nIndex / 2) 0 := by
  have above := getElem?_parents cryptoHash level (nIndex / 2) (by omega) 0
  have node := getD_eq_getElem?_getD (l := parents cryptoHash level) (i := nIndex / 2) (a := 0)
  rw [node, above, Option.getD_some, sibling]
  by_cases even : nIndex % 2 = 0
  · have left : 2 * (nIndex / 2) = nIndex := by omega
    rw [if_pos even, left]
    by_cases last : nIndex ≥ level.length - 1
    · rw [if_pos last, getD_front inside, show min (nIndex + 1) (level.length - 1) = nIndex by omega]
      rfl
    · rw [if_neg last, Nat.add_assoc, getD_front (by omega),
        show min (nIndex + 1) (level.length - 1) = nIndex + 1 by omega]
      rfl
  · have left : 2 * (nIndex / 2) = nIndex - 1 := by omega
    rw [if_neg even, left, Nat.add_sub_assoc (by omega), getD_front (by omega),
      show min (nIndex - 1 + 1) (level.length - 1) = nIndex by omega]
    rfl

/-- The prover finds its way through the flat tree, and the proof leads from the node to the root. -/
theorem proveLayers_spec {most : Nat} (level : List UInt256) (enough : level.length ≤ most) (front : List UInt256)
    (nIndex : Nat) (inside : nIndex < level.length) :
    ∃ prove,
      proveLayers most (front ++ (levels cryptoHash level).flatten) front.length nIndex level.length =
        (prove, true) ∧
      getMerkleRootByProve cryptoHash prove (level.getD nIndex 0) = root cryptoHash 0 level := by
  induction most generalizing front level nIndex with
  | zero => omega
  | succ most ih =>
    rw [proveLayers]
    by_cases more : 1 < level.length
    · have flat : front ++ (levels cryptoHash level).flatten =
          (front ++ level) ++ (levels cryptoHash (parents cryptoHash level)).flatten := by
        rw [levels_of_more more, flatten_cons, append_assoc]
      obtain ⟨prove, proved, leads⟩ := ih (parents cryptoHash level)
        (by rw [length_parents]; omega) (front ++ level) (nIndex / 2)
        (by rw [length_parents]; omega)
      rw [length_parents, length_append] at proved
      have room : ¬front.length + level.length >
          ((front ++ level) ++ (levels cryptoHash (parents cryptoHash level)).flatten).length := by
        rw [length_append, length_append]
        omega
      rw [if_pos more, flat, if_neg room, proved]
      refine ⟨_, rfl, ?_⟩
      rw [getMerkleRootByProve, foldl_cons, climb_sibling cryptoHash front _ inside, root_of_more more, ← leads]
      rfl
    · rw [if_neg more]
      refine ⟨[], rfl, ?_⟩
      rw [root_of_one more]
      match level, inside, more with
      | [a], inside, _ =>
        rw [length_singleton, Nat.lt_one_iff] at inside
        rw [inside]
        rfl
      | a :: b :: rest, _, more => simp at more

theorem buildMerkleProve_spec {nIndex : Nat} (inside : nIndex < level.length) :
    ∃ prove,
      buildMerkleProve nIndex (buildMerkleTree cryptoHash level).1 level.length = (prove, true) ∧
      getMerkleRootByProve cryptoHash prove (level.getD nIndex 0) = (buildMerkleTree cryptoHash level).2 := by
  rw [buildMerkleProve, if_neg (Nat.not_le.2 inside), buildMerkleTree_eq]
  exact proveLayers_spec cryptoHash level (Nat.le_refl _) [] nIndex inside

theorem buildMerkleProveOf_spec {hashLeaf : UInt256} (mem : hashLeaf ∈ level) :
    ∃ prove,
      buildMerkleProveOf hashLeaf (buildMerkleTree cryptoHash level).1 level.length = (prove, true) ∧
      getMerkleRootByProve cryptoHash prove hashLeaf = (buildMerkleTree cryptoHash level).2 := by
  have found : level.findIdx (· = hashLeaf) < level.length :=
    findIdx_lt_length_of_exists ⟨hashLeaf, mem, by simp⟩
  obtain ⟨prove, proved, leads⟩ := buildMerkleProve_spec cryptoHash found
  have here : level.getD (level.findIdx (· = hashLeaf)) 0 = hashLeaf := by
    rw [getD_of_lt found]
    simpa using findIdx_getElem (w := found)
  obtain ⟨above, flat⟩ := flatten_levels_prefix cryptoHash level
  have leaves : (buildMerkleTree cryptoHash level).1.take level.length = level := by
    rw [buildMerkleTree_eq, flat, take_left]
  have room : ¬(buildMerkleTree cryptoHash level).1.length < level.length := by
    rw [buildMerkleTree_eq, flat, length_append]
    omega
  rw [buildMerkleProveOf, if_neg room, leaves]
  dsimp only
  rw [if_neg (Nat.ne_of_lt found), proved]
  exact ⟨prove, rfl, by rw [← leads, here]⟩

end Prove

section Binding

def joined (hashNode : UInt256) (vd : UInt8 × UInt256) : UInt256 × UInt256 :=
  if vd.1 = pdLeft then (vd.2, hashNode) else (hashNode, vd.2)

def climbed : MerkleProveData → UInt256 → List (UInt256 × UInt256)
  | [], _ => []
  | vd :: rest, hashNode => joined hashNode vd :: climbed rest (climb cryptoHash hashNode vd)

def sides (vMerkleProve : MerkleProveData) : List Bool := vMerkleProve.map fun vd => vd.1 = pdLeft

theorem climb_eq (hashNode : UInt256) (vd : UInt8 × UInt256) :
    climb cryptoHash hashNode vd = cryptoHash (joined hashNode vd).1 (joined hashNode vd).2 := by
  unfold climb joined
  split <;> rfl

theorem eq_of_joined_eq {hashNode other : UInt256} {vd vdOther : UInt8 × UInt256}
    (side : decide (vd.1 = pdLeft) = decide (vdOther.1 = pdLeft)) (same : joined hashNode vd = joined other vdOther) :
    hashNode = other := by
  unfold joined at same
  by_cases left : vd.1 = pdLeft
  · have leftOther : vdOther.1 = pdLeft := by simpa [left] using side
    rw [if_pos left, if_pos leftOther] at same
    exact (Prod.mk.inj same).2
  · have rightOther : vdOther.1 ≠ pdLeft := by simpa [left] using side
    rw [if_neg left, if_neg rightOther] at same
    exact (Prod.mk.inj same).1

/-- Two ways up with the same turns that end in the same root start at the same node, unless two of the hashed pairs
collide. -/
theorem eq_of_climbs_eq {prove other : MerkleProveData} {hash hashOther : UInt256}
    (turns : sides prove = sides other)
    (injective : Set.InjOn (fun pair : UInt256 × UInt256 => cryptoHash pair.1 pair.2)
      {pair | pair ∈ climbed cryptoHash prove hash ∨ pair ∈ climbed cryptoHash other hashOther})
    (same : getMerkleRootByProve cryptoHash prove hash = getMerkleRootByProve cryptoHash other hashOther) :
    hash = hashOther := by
  induction prove generalizing other hash hashOther with
  | nil =>
    match other, turns with
    | [], _ => exact same
  | cons vd rest ih =>
    match other, turns with
    | vdOther :: restOther, turns =>
      obtain ⟨side, sidesAbove⟩ := List.cons.inj turns
      have above : climb cryptoHash hash vd = climb cryptoHash hashOther vdOther := by
        refine ih sidesAbove (injective.mono ?_) same
        rintro pair (mem | mem)
        · exact Or.inl (mem_cons_of_mem _ mem)
        · exact Or.inr (mem_cons_of_mem _ mem)
      rw [climb_eq, climb_eq] at above
      exact eq_of_joined_eq side (injective (Or.inl mem_cons_self) (Or.inr mem_cons_self) above)

end Binding

/-- The tree of any list of leaves is its levels, and its last node the root. The proof of each leaf can be built from
it, and it is verified. -/
theorem merkle_proves_complete (leaves : List UInt256) (nIndex : Nat) (inside : nIndex < leaves.length) :
    buildMerkleTree cryptoHash leaves =
        ((HashTree.levels cryptoHash leaves).flatten, HashTree.root cryptoHash 0 leaves) ∧
      ∃ vMerkleProve,
        buildMerkleProve nIndex (buildMerkleTree cryptoHash leaves).1 leaves.length = (vMerkleProve, true) ∧
        verifyMerkleProve cryptoHash (buildMerkleTree cryptoHash leaves).2 vMerkleProve leaves[nIndex] = true := by
  obtain ⟨vMerkleProve, proved, leads⟩ := buildMerkleProve_spec cryptoHash inside
  refine ⟨buildMerkleTree_eq cryptoHash leaves, vMerkleProve, proved, ?_⟩
  rw [verifyMerkleProve, ← leads, getD_of_lt inside]
  simp

/-- The last of three leaves, which is paired with itself. -/
theorem merkle_proves_complete_three :
    buildMerkleTree (fun a b => a + 2 * b + 1) [4, 5, 6] =
        ((HashTree.levels (fun a b => a + 2 * b + 1) [4, 5, 6]).flatten,
          HashTree.root (fun a b => a + 2 * b + 1) 0 [4, 5, 6]) ∧
      ∃ vMerkleProve,
        buildMerkleProve 2 (buildMerkleTree (fun a b => a + 2 * b + 1) [4, 5, 6]).1 3 = (vMerkleProve, true) ∧
        verifyMerkleProve (fun a b => a + 2 * b + 1) (buildMerkleTree (fun a b => a + 2 * b + 1) [4, 5, 6]).2 vMerkleProve
          6 = true :=
  merkle_proves_complete (fun a b => a + 2 * b + 1) [4, 5, 6] 2 (by decide)

end MerkleTree

end HashAhead.Chain
