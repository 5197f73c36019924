import HashAhead.Trie.Meaning

/-! What one update does to a trie, said once. `Rebuilds` lists the ways in which a key
can meet the nodes on its path, with the nodes that replace them. The path search and
the two linking loops of `AddNode` are shown to do nothing else. -/

namespace HashAhead.Trie
open List TrieKeyValue TrieBranch
variable {Hash : Type} [DecidableEq Hash] [Zero Hash]

/-- The nodes that an update can read: pending ones first, then the engine. -/
def view (db : NodeStore Hash) (mapCacheNode : NodeCache Hash) : NodeStore Hash :=
  fun h => (getNodeValue db mapCacheNode h).map Prod.fst

section Nodes
variable (cryptoHash : TrieValue Hash → Hash) (hashValue : Hash)

def leafNode : Bytes → TrieValue Hash
  | [n] => .branch (TrieBranch.new.setValueHash n hashValue)
  | key => .extension ((TrieExtension.new.setKey key).setValueHash hashValue)

def restNode (e : TrieExtension Hash) : Bytes → TrieValue Hash
  | [n] => .branch ((TrieBranch.new.setNextHash n e.getNextHash).setValueHash n e.getValueHash)
  | key => .extension (((TrieExtension.new.setKey key).setNextHash e.getNextHash).setValueHash e.getValueHash)

def leafNodes (key : Bytes) : List (TrieValue Hash) := if key = [] then [] else [leafNode hashValue key]

def restNodes (e : TrieExtension Hash) (key : Bytes) : List (TrieValue Hash) :=
  if key = [] then [] else [restNode e key]

/-- The hash that the second loop carries above the rest of an inserted key. -/
def leafHash (key : Bytes) : Hash :=
  if key = [] then hashValue else (leafNode hashValue key).calcHash cryptoHash

/-- The hash that the first loop carries above the rest of a split extension key. -/
def restHash (e : TrieExtension Hash) (key : Bytes) : Hash :=
  if key = [] then 0 else (restNode e key).calcHash cryptoHash

def keepNext (b : TrieBranch Hash) (n : UInt8) (hash : Hash) : TrieBranch Hash :=
  if hash = 0 then b else b.setNextHash n hash

def linkLeaf (b : TrieBranch Hash) (n : UInt8) (rest : Bytes) : TrieBranch Hash :=
  if rest = [] then b.setValueHash n hashValue else b.setNextHash n (leafHash cryptoHash hashValue rest)

def forkOld (e : TrieExtension Hash) (n : UInt8) (rest : Bytes) : TrieBranch Hash :=
  if rest = [] then (TrieBranch.new.setNextHash n e.getNextHash).setValueHash n e.getValueHash
  else keepNext .new n (restHash cryptoHash e rest)

def forkNode (e : TrieExtension Hash) (a : UInt8) (old : Bytes) (b : UInt8) (fresh : Bytes) : TrieBranch Hash :=
  linkLeaf cryptoHash hashValue (forkOld cryptoHash e a old) b fresh

def prefixEnd (common : Bytes) (below : Hash) : TrieValue Hash :=
  match common with
  | [c] => .branch ((keepNext .new c below).setValueHash c hashValue)
  | _ => .extension ((if below = 0 then TrieExtension.new.setKey common
      else (TrieExtension.new.setKey common).setNextHash below).setValueHash hashValue)

/-- The common prefix when both keys go on. The first loop leaves a link that the second
replaces. -/
def prefixFork (common : Bytes) (stale below : Hash) : TrieValue Hash :=
  match common with
  | [c] => .branch ((keepNext .new c stale).setNextHash c below)
  | _ => .extension ((TrieExtension.new.setKey common).setNextHash below)

/-- The ways in which writing a value link at a key replaces the nodes from a hash down
to it. The list holds the new nodes from the top, the last argument the new hash. -/
inductive Rebuilds (read : NodeStore Hash) : Hash → Bytes → List (TrieValue Hash) → Hash → Prop where
  | branchValue {h : Hash} {b : TrieBranch Hash} {n : UInt8} {node : TrieValue Hash}
      (found : read h = some (.branch b)) (made : node = .branch (b.setValueHash n hashValue)) :
      Rebuilds read h [n] [node] (node.calcHash cryptoHash)
  | branchNext {h below : Hash} {b : TrieBranch Hash} {n : UInt8} {rest : Bytes}
      {nodes : List (TrieValue Hash)} {node : TrieValue Hash}
      (found : read h = some (.branch b)) (linked : b.getNextHash n ≠ 0) (more : rest ≠ [])
      (lower : Rebuilds read (b.getNextHash n) rest nodes below)
      (made : node = .branch (b.setNextHash n below)) :
      Rebuilds read h (n :: rest) (node :: nodes) (node.calcHash cryptoHash)
  | branchLeaf {h : Hash} {b : TrieBranch Hash} {n : UInt8} {rest : Bytes} {node : TrieValue Hash}
      (found : read h = some (.branch b)) (free : b.getNextHash n = 0) (more : rest ≠ [])
      (made : node = .branch (b.setNextHash n ((leafNode hashValue rest).calcHash cryptoHash))) :
      Rebuilds read h (n :: rest) [node, leafNode hashValue rest] (node.calcHash cryptoHash)
  | extensionValue {h : Hash} {e : TrieExtension Hash} {key : Bytes} {node : TrieValue Hash}
      (found : read h = some (.extension e)) (whole : key = e.getKey)
      (made : node = .extension (e.setValueHash hashValue)) :
      Rebuilds read h key [node] (node.calcHash cryptoHash)
  | extensionNext {h below : Hash} {e : TrieExtension Hash} {key rest : Bytes}
      {nodes : List (TrieValue Hash)} {node : TrieValue Hash}
      (found : read h = some (.extension e)) (linked : e.getNextHash ≠ 0) (more : rest ≠ [])
      (whole : key = e.getKey ++ rest) (lower : Rebuilds read e.getNextHash rest nodes below)
      (made : node = .extension (e.setNextHash below)) :
      Rebuilds read h key (node :: nodes) (node.calcHash cryptoHash)
  | extensionLeaf {h : Hash} {e : TrieExtension Hash} {key rest : Bytes} {node : TrieValue Hash}
      (found : read h = some (.extension e)) (free : e.getNextHash = 0) (more : rest ≠ [])
      (whole : key = e.getKey ++ rest)
      (made : node = .extension (e.setNextHash ((leafNode hashValue rest).calcHash cryptoHash))) :
      Rebuilds read h key [node, leafNode hashValue rest] (node.calcHash cryptoHash)
  | fork {h : Hash} {e : TrieExtension Hash} {a b : UInt8} {old fresh : Bytes} {node : TrieValue Hash}
      (found : read h = some (.extension e)) (whole : e.getKey = a :: old) (parted : a ≠ b)
      (made : node = .branch (forkNode cryptoHash hashValue e a old b fresh)) :
      Rebuilds read h (b :: fresh) (node :: (restNodes e old ++ leafNodes hashValue fresh))
        (node.calcHash cryptoHash)
  | prefixEnd {h : Hash} {e : TrieExtension Hash} {common old : Bytes} {node : TrieValue Hash}
      (found : read h = some (.extension e)) (whole : e.getKey = common ++ old) (begun : common ≠ [])
      (more : old ≠ [])
      (made : node = Trie.prefixEnd hashValue common ((restNode e old).calcHash cryptoHash)) :
      Rebuilds read h common [node, restNode e old] (node.calcHash cryptoHash)
  | prefixFork {h stale : Hash} {e : TrieExtension Hash} {a b : UInt8} {key common old fresh : Bytes}
      {node lower : TrieValue Hash} (found : read h = some (.extension e))
      (whole : e.getKey = common ++ a :: old) (begun : common ≠ []) (parted : a ≠ b)
      (whole' : key = common ++ b :: fresh)
      (below : lower = .branch (forkNode cryptoHash hashValue e a old b fresh))
      (made : node = Trie.prefixFork common stale (lower.calcHash cryptoHash)) :
      Rebuilds read h key (node :: lower :: (restNodes e old ++ leafNodes hashValue fresh))
        (node.calcHash cryptoHash)

end Nodes

section Pieces
variable (cryptoHash : TrieValue Hash → Hash) (hashValue : Hash)

def Hashed (entries : List (TrieKeyValue Hash)) (nodes : List (TrieValue Hash)) : Prop :=
  entries.map TrieKeyValue.value = nodes ∧ ∀ kv ∈ entries, kv.hashValue = kv.value.calcHash cryptoHash

theorem Hashed.cons {entries : List (TrieKeyValue Hash)} {nodes : List (TrieValue Hash)}
    (hashed : Hashed cryptoHash entries nodes) (kv : TrieKeyValue Hash) :
    Hashed cryptoHash (kv.calcValueHash cryptoHash :: entries) (kv.value :: nodes) := by
  obtain ⟨values, hashes⟩ := hashed
  refine ⟨by simp [calcValueHash, values], ?_⟩
  rintro other (_ | ⟨_, later⟩)
  · rfl
  · exact hashes other later

theorem Hashed.nil : Hashed cryptoHash ([] : List (TrieKeyValue Hash)) [] := ⟨rfl, by simp⟩

def Relinks (path : List (TrieKeyValue Hash)) (nodes : List (TrieValue Hash)) (top : Hash) : Prop :=
  ∃ entries, relink cryptoHash hashValue path = some (.linked entries top false) ∧
    Hashed cryptoHash entries nodes

private theorem relinkOld_newNodePath (key : Bytes) :
    relinkOld cryptoHash (newNodePath key : List (TrieKeyValue Hash)) = some (newNodePath key, 0) := by
  rcases key with _ | ⟨a, _ | ⟨b, rest⟩⟩ <;> simp [newNodePath, relinkOld]

private theorem relinkNew_newNodePath (key : Bytes) : ∃ entries,
    relinkNew cryptoHash hashValue (newNodePath key) =
      some (.linked entries (leafHash cryptoHash hashValue key) (decide (key = []))) ∧
    Hashed cryptoHash entries (leafNodes hashValue key) := by
  rcases key with _ | ⟨a, _ | ⟨b, rest⟩⟩
  · exact ⟨[], by simp [newNodePath, relinkNew, leafHash], by simp [leafNodes, Hashed]⟩
  · refine ⟨[calcValueHash cryptoHash ⟨.new, [], [a], leafNode hashValue [a], 0⟩], ?_, ?_⟩
    · simp [newNodePath, relinkNew, leafHash, leafNode, calcValueHash, eq_comm]
    · exact Hashed.cons cryptoHash (Hashed.nil cryptoHash) ⟨.new, [], [a], leafNode hashValue [a], 0⟩
  · refine ⟨[calcValueHash cryptoHash
      ⟨.new, [], a :: b :: rest, leafNode hashValue (a :: b :: rest), 0⟩], ?_, ?_⟩
    · simp [newNodePath, relinkNew, leafHash, leafNode, calcValueHash, eq_comm]
    · exact Hashed.cons cryptoHash (Hashed.nil cryptoHash)
        ⟨.new, [], a :: b :: rest, leafNode hashValue (a :: b :: rest), 0⟩

variable (e : TrieExtension Hash)

/-- The two ends of a split, below the branch or the prefix that joins them. -/
private theorem relink_ends (old fresh : Bytes) : ∃ middle entries,
    relinkOld cryptoHash (oldNodePath e old ++ newNodePath fresh) =
      some (middle, restHash cryptoHash e old) ∧
    relinkNew cryptoHash hashValue middle =
      some (.linked entries (leafHash cryptoHash hashValue fresh) (decide (fresh = []))) ∧
    Hashed cryptoHash entries (restNodes e old ++ leafNodes hashValue fresh) := by
  obtain ⟨entries, made, hashed⟩ := relinkNew_newNodePath cryptoHash hashValue fresh
  rcases old with _ | ⟨a, _ | ⟨b, rest⟩⟩
  · exact ⟨_, entries, by simpa [oldNodePath, restHash] using relinkOld_newNodePath cryptoHash fresh, made,
      by simpa [restNodes] using hashed⟩
  · refine ⟨calcValueHash cryptoHash ⟨.old, [a], [], restNode e [a], 0⟩ :: newNodePath fresh,
      _, ?_, ?_, Hashed.cons cryptoHash hashed ⟨.old, [a], [], restNode e [a], 0⟩⟩
    · simp [oldNodePath, relinkOld, relinkOld_newNodePath, restNode, restHash, calcValueHash]
    · simp [relinkNew, made, restNode, calcValueHash]
  · refine ⟨calcValueHash cryptoHash ⟨.old, a :: b :: rest, [], restNode e (a :: b :: rest), 0⟩ ::
      newNodePath fresh, _, ?_, ?_,
      Hashed.cons cryptoHash hashed ⟨.old, a :: b :: rest, [], restNode e (a :: b :: rest), 0⟩⟩
    · simp [oldNodePath, relinkOld, relinkOld_newNodePath, restNode, restHash, calcValueHash]
    · simp [relinkNew, made, restNode, calcValueHash]

theorem short_keepNext {n : UInt8} (small : n < 16) (hash : Hash) :
    Short (keepNext .new n hash) 1 := by
  unfold keepNext
  split_ifs
  · exact ⟨sound_new, by simp [new], by simp [new]⟩
  · exact short_new.setNextHash (by omega) n small hash

theorem getNextHash_keepNext (n m : UInt8) (small : n < 16) (hash : Hash) :
    (keepNext .new n hash).getNextHash m = if m = n then hash else 0 := by
  unfold keepNext
  split_ifs with absent same same
  · simp [absent]
  · simp
  · rw [getNextHash_setNextHash _ sound_new n m hash small
      ((short_new.setNextHash (by omega) n small hash).roomy (by omega)), if_pos same]
  · rw [getNextHash_setNextHash _ sound_new n m hash small
      ((short_new.setNextHash (by omega) n small hash).roomy (by omega)), if_neg same]
    simp

@[simp] theorem getValueHash_keepNext (n m : UInt8) (hash : Hash) :
    (keepNext .new n hash).getValueHash m = 0 := by
  unfold keepNext
  split_ifs <;> simp

theorem short_forkOld {a : UInt8} (small : a < 16) (old : Bytes) :
    Short (forkOld cryptoHash e a old) 2 := by
  unfold forkOld
  split_ifs
  · exact (short_new.setNextHash (by omega) a small _).setValueHash (by omega) a small _
  · obtain ⟨sound, next, value⟩ := short_keepNext small (restHash cryptoHash e old)
    exact ⟨sound, by omega, by omega⟩

theorem getNextHash_forkOld (a m : UInt8) (small : a < 16) (old : Bytes) :
    (forkOld cryptoHash e a old).getNextHash m =
      if m = a then (if old = [] then e.getNextHash else restHash cryptoHash e old) else 0 := by
  have short := short_new.setNextHash (by omega) a small e.getNextHash
  unfold forkOld
  by_cases done : old = []
  · rw [if_pos done, if_pos done, getNextHash_setValueHash,
      getNextHash_setNextHash _ sound_new a m _ small (short.roomy (by omega)),
      getNextHash_new]
  · rw [if_neg done, if_neg done, getNextHash_keepNext a m small]

theorem getValueHash_forkOld (a m : UInt8) (small : a < 16) (old : Bytes) :
    (forkOld cryptoHash e a old).getValueHash m =
      if m = a then (if old = [] then e.getValueHash else 0) else 0 := by
  have first := short_new.setNextHash (by omega) a small e.getNextHash
  have second := first.setValueHash (by omega) a small e.getValueHash
  unfold forkOld
  by_cases done : old = []
  · rw [if_pos done, if_pos done,
      getValueHash_setValueHash _ first.1 a m _ small (second.roomy (by omega)),
      getValueHash_setNextHash, getValueHash_new]
  · rw [if_neg done, if_neg done, getValueHash_keepNext]
    simp

/-- The branch of a fork over the two ends. The hash that the first loop passes up is
stale after the second one. -/
private theorem relink_fork (a b : UInt8) (small : a < 16) (parted : a ≠ b) (old fresh : Bytes)
    : ∃ middle entries stale,
    relinkOld cryptoHash (forkBranch e (a :: old) (b :: fresh) :: (oldNodePath e old ++ newNodePath fresh)) =
      some (middle, stale) ∧
    relinkNew cryptoHash hashValue middle = some (.linked entries
      ((TrieValue.branch (forkNode cryptoHash hashValue e a old b fresh)).calcHash cryptoHash) false) ∧
    Hashed cryptoHash entries (.branch (forkNode cryptoHash hashValue e a old b fresh) ::
      (restNodes e old ++ leafNodes hashValue fresh)) := by
  obtain ⟨middle, entries, first, second, hashed⟩ := relink_ends cryptoHash hashValue e old fresh
  let joined : TrieKeyValue Hash := ⟨.share, [a], [b], .branch (forkOld cryptoHash e a old), 0⟩
  have upward : relinkOld cryptoHash
      (forkBranch e (a :: old) (b :: fresh) :: (oldNodePath e old ++ newNodePath fresh)) =
      some (joined.calcValueHash cryptoHash :: middle, (joined.calcValueHash cryptoHash).hashValue) := by
    rcases old with _ | ⟨c, rest⟩
    · simp [relinkOld, first, forkBranch, joined, forkOld, restHash]
    · simp [relinkOld, first, forkBranch, joined, forkOld, keepNext]
  have vacant : (forkOld cryptoHash e a old).getValueHash b = 0 := by
    rw [getValueHash_forkOld cryptoHash e a b small, if_neg (Ne.symm parted)]
  refine ⟨_, _, _, upward, ?_, Hashed.cons cryptoHash hashed
    ⟨.share, [a], [b], .branch (forkNode cryptoHash hashValue e a old b fresh), 0⟩⟩
  rcases fresh with _ | ⟨c, rest⟩
  · simp [relinkNew, second, joined, calcValueHash, vacant, forkNode, linkLeaf, leafHash, eq_comm]
  · simp [relinkNew, second, joined, calcValueHash, forkNode, linkLeaf]

private def prefixEntry (common : Bytes) (node : TrieValue Hash) : TrieKeyValue Hash :=
  ⟨.share, common, common, node, 0⟩

private def prefixStart (common : Bytes) : TrieValue Hash :=
  match common with
  | [_] => .branch .new
  | _ => .extension (TrieExtension.new.setKey common)

private theorem prefixEntry_eq (common old fresh : Bytes) (begun : common ≠ []) (more : old ≠ []) :
    (if common.length = 1 then forkBranch e (common ++ old) (common ++ fresh)
      else prefixExtension e (common ++ old) (common ++ fresh) common.length) =
      prefixEntry common (prefixStart common) := by
  rcases common with _ | ⟨c, _ | ⟨d, common⟩⟩
  · exact absurd rfl begun
  · rcases old with _ | ⟨a, old⟩
    · exact absurd rfl more
    · simp [forkBranch, prefixEntry, prefixStart]
  · have longer : (c :: d :: common ++ old).length ≠ (c :: d :: common).length := by
      simpa using more
    rw [if_neg (by simp), prefixExtension, if_neg longer, take_left, take_left]
    rfl

section
variable (common : Bytes) (begun : common ≠ []) (lower middle entries : List (TrieKeyValue Hash))
include begun

private theorem relink_prefixEnd (below : Hash) (first : relinkOld cryptoHash lower = some (middle, below))
    (second : relinkNew cryptoHash hashValue middle = some (.linked entries hashValue true)) :
    relink cryptoHash hashValue (prefixEntry common (prefixStart common) :: lower) =
      some (.linked ((prefixEntry common (prefixEnd hashValue common below)).calcValueHash cryptoHash :: entries)
        ((prefixEnd hashValue common below).calcHash cryptoHash) false) := by
  rcases common with _ | ⟨c, _ | ⟨d, common⟩⟩
  · exact absurd rfl begun
  all_goals
    by_cases absent : below = 0 <;>
      simp [relink, relinkOld, first, relinkNew, second, prefixEntry, prefixStart, prefixEnd, absent,
        calcValueHash, keepNext, eq_comm]

private theorem relink_prefixFork (stale below : Hash) (first : relinkOld cryptoHash lower = some (middle, stale))
    (second : relinkNew cryptoHash hashValue middle = some (.linked entries below false)) :
    relink cryptoHash hashValue (prefixEntry common (prefixStart common) :: lower) =
      some (.linked ((prefixEntry common (prefixFork common stale below)).calcValueHash cryptoHash :: entries)
        ((prefixFork common stale below).calcHash cryptoHash) false) := by
  rcases common with _ | ⟨c, _ | ⟨d, common⟩⟩
  · exact absurd rfl begun
  all_goals
    by_cases absent : stale = 0 <;>
      simp [relink, relinkOld, first, relinkNew, second, prefixEntry, prefixStart, prefixFork, absent,
        calcValueHash, keepNext]

end

end Pieces

section Frames
variable (cryptoHash : TrieValue Hash → Hash) (hashValue : Hash)

private def branchEntry (n : UInt8) (b : TrieBranch Hash) : TrieKeyValue Hash := ⟨.share, [], [n], .branch b, 0⟩

private def extensionEntry (key : Bytes) (e : TrieExtension Hash) : TrieKeyValue Hash :=
  ⟨.share, key, key, .extension e, 0⟩

variable {path : List (TrieKeyValue Hash)}

private theorem relink_branch (n : UInt8) (b : TrieBranch Hash) {nodes : List (TrieValue Hash)} {top : Hash}
    (lower : Relinks cryptoHash hashValue path nodes top) :
    Relinks cryptoHash hashValue (branchEntry n b :: path) (.branch (b.setNextHash n top) :: nodes)
      ((TrieValue.branch (b.setNextHash n top)).calcHash cryptoHash) := by
  obtain ⟨entries, linked, hashed⟩ := lower
  refine ⟨_, ?_, Hashed.cons cryptoHash hashed (branchEntry n (b.setNextHash n top))⟩
  unfold relink at linked
  split at linked
  · cases linked
  next middle hashOld first =>
    simp [relink, relinkOld, first, relinkNew, branchEntry, calcValueHash, linked]

private theorem relink_unchanged {kv : TrieKeyValue Hash} (inner : ∀ v, kv.value ≠ .value v)
    (lower : relink cryptoHash hashValue path = some .unchanged) :
    relink cryptoHash hashValue (kv :: path) = some .unchanged := by
  unfold relink at lower ⊢
  split at lower
  · cases lower
  next middle hashOld first =>
    rw [relinkOld, first]
    cases held : kv.value with
    | value v => exact absurd held (inner v)
    | branch b => dsimp only; split_ifs <;> simp [relinkNew, lower]
    | extension e => dsimp only; split_ifs <;> simp [relinkNew, lower]

private theorem relink_extension (key : Bytes) (e : TrieExtension Hash) {nodes : List (TrieValue Hash)} {top : Hash}
    (lower : Relinks cryptoHash hashValue path nodes top) :
    Relinks cryptoHash hashValue (extensionEntry key e :: path) (.extension (e.setNextHash top) :: nodes)
      ((TrieValue.extension (e.setNextHash top)).calcHash cryptoHash) := by
  obtain ⟨entries, linked, hashed⟩ := lower
  refine ⟨_, ?_, Hashed.cons cryptoHash hashed (extensionEntry key (e.setNextHash top))⟩
  unfold relink at linked
  split at linked
  · cases linked
  next middle hashOld first =>
    by_cases absent : hashOld = 0 <;>
      simp [relink, relinkOld, first, relinkNew, extensionEntry, calcValueHash, linked, absent]

theorem relink_leaf (rest : Bytes) (more : rest ≠ []) :
    Relinks cryptoHash hashValue (newNodePath rest) [leafNode hashValue rest]
      ((leafNode hashValue rest).calcHash cryptoHash) := by
  obtain ⟨entries, made, hashed⟩ := relinkNew_newNodePath cryptoHash hashValue rest
  refine ⟨entries, ?_, by simpa [leafNodes, more] using hashed⟩
  simpa [relink, relinkOld_newNodePath, leafHash, more] using made

private theorem relink_branch_value (n : UInt8) (b : TrieBranch Hash) :
    (relink cryptoHash hashValue [branchEntry n b] = some .unchanged ∧ hashValue ≠ 0 ∧
      b.getValueHash n = hashValue) ∨
    Relinks cryptoHash hashValue [branchEntry n b] [.branch (b.setValueHash n hashValue)]
      ((TrieValue.branch (b.setValueHash n hashValue)).calcHash cryptoHash) := by
  by_cases same : hashValue ≠ 0 ∧ b.getValueHash n = hashValue
  · refine Or.inl ⟨?_, same⟩
    simp [relink, relinkOld, relinkNew, branchEntry, calcValueHash, same]
  · refine Or.inr ⟨_, ?_, Hashed.cons cryptoHash (Hashed.nil cryptoHash)
      (branchEntry n (b.setValueHash n hashValue))⟩
    simp [relink, relinkOld, relinkNew, branchEntry, calcValueHash, same]

private theorem relink_extension_value (key : Bytes) (e : TrieExtension Hash) :
    (relink cryptoHash hashValue [extensionEntry key e] = some .unchanged ∧ hashValue ≠ 0 ∧
      e.getValueHash = hashValue) ∨
    Relinks cryptoHash hashValue [extensionEntry key e] [.extension (e.setValueHash hashValue)]
      ((TrieValue.extension (e.setValueHash hashValue)).calcHash cryptoHash) := by
  by_cases same : hashValue ≠ 0 ∧ e.getValueHash = hashValue
  · refine Or.inl ⟨?_, same⟩
    simp [relink, relinkOld, relinkNew, extensionEntry, calcValueHash, same]
  · refine Or.inr ⟨_, ?_, Hashed.cons cryptoHash (Hashed.nil cryptoHash)
      (extensionEntry key (e.setValueHash hashValue))⟩
    simp [relink, relinkOld, relinkNew, extensionEntry, calcValueHash, same]

end Frames

section Search
variable (cryptoHash : TrieValue Hash → Hash) (hashValue : Hash)

theorem sameLen_split (syKey btNodeKey : Bytes) : ∃ common old fresh,
    btNodeKey = common ++ old ∧ syKey = common ++ fresh ∧ sameLen syKey btNodeKey = common.length ∧
      (old ≠ [] → fresh ≠ [] → old.head? ≠ fresh.head?) := by
  induction syKey generalizing btNodeKey with
  | nil => exact ⟨[], btNodeKey, [], by simp, rfl, rfl, fun _ fresh => absurd rfl fresh⟩
  | cons a syKey ih =>
    rcases btNodeKey with _ | ⟨b, btNodeKey⟩
    · exact ⟨[], [], a :: syKey, rfl, rfl, rfl, fun old => absurd rfl old⟩
    · by_cases same : a = b
      · obtain ⟨common, old, fresh, node, key, length, parted⟩ := ih btNodeKey
        exact ⟨b :: common, old, fresh, by simp [node], by simp [key, same], by simp [sameLen, same, length], parted⟩
      · exact ⟨[], b :: btNodeKey, a :: syKey, rfl, rfl, by simp [sameLen, same], by simp [Ne.symm same]⟩

private theorem relink_split {read : NodeStore Hash} {h : Hash} (e : TrieExtension Hash) (key : Bytes)
    (found : read h = some (.extension e)) (more : key ≠ [])
    (parts : ¬(e.getKey.length ≤ key.length ∧ e.getKey = key.take e.getKey.length)) :
    ∃ nodes top, Relinks cryptoHash hashValue (splitExtension e e.getKey key) nodes top ∧
      Rebuilds cryptoHash hashValue read h key nodes top := by
  have small := e.nibbles_getKey
  obtain ⟨common, old, fresh, node, whole, length, parted⟩ := sameLen_split key e.getKey
  have left : old ≠ [] := by
    rintro rfl
    apply parts
    rw [node, whole]
    simp
  obtain ⟨a, old, rfl⟩ := exists_cons_of_ne_nil left
  have smallA : a < 16 := small a (by simp [node])
  unfold splitExtension
  simp only [length]
  rw [node, whole]
  rcases common with _ | ⟨c, common⟩
  · -- the keys part at once
    obtain ⟨b, fresh, rfl⟩ := exists_cons_of_ne_nil (by simpa [whole] using more : fresh ≠ [])
    have differ : a ≠ b := by simpa using parted (by simp) (by simp)
    obtain ⟨middle, entries, stale, first, second, hashed⟩ :=
      relink_fork cryptoHash hashValue e a b smallA differ old fresh
    refine ⟨_, _, ⟨entries, ?_, hashed⟩, .fork found (by simpa using node) differ rfl⟩
    simp only [nil_append, length_nil, if_true, drop_one, tail_cons]
    simp only [relink, first]
    exact second
  · have shared : ((c :: common).length = 0) = False := by simp
    simp only [shared, if_false, drop_left]
    rw [prefixEntry_eq e (c :: common) (a :: old) fresh (by simp) (by simp)]
    rcases fresh with _ | ⟨b, fresh⟩
    · obtain ⟨middle, entries, first, second, hashed⟩ := relink_ends cryptoHash hashValue e (a :: old) []
      have linked := relink_prefixEnd cryptoHash hashValue (c :: common) (by simp) _ _ _ _ first
        (by simpa [leafHash] using second)
      refine ⟨[prefixEnd hashValue (c :: common) (restHash cryptoHash e (a :: old)), restNode e (a :: old)], _,
        ⟨_, by simpa using linked, ?_⟩, ?_⟩
      · have lower : Hashed cryptoHash entries [restNode e (a :: old)] := by
          simpa [restNodes, leafNodes] using hashed
        exact Hashed.cons cryptoHash lower _
      · rw [append_nil]
        exact .prefixEnd found node (by simp) (by simp) (by simp [restHash])
    · have differ : a ≠ b := by simpa using parted (by simp) (by simp)
      obtain ⟨middle, entries, stale, first, second, hashed⟩ :=
        relink_fork cryptoHash hashValue e a b smallA differ old fresh
      have linked := relink_prefixFork cryptoHash hashValue (c :: common) (by simp) _ _ _ _ _ first second
      refine ⟨_, _, ⟨_, by simpa using linked, Hashed.cons cryptoHash hashed _⟩, ?_⟩
      exact .prefixFork found node (by simp) differ rfl rfl rfl

/-- The search and the two loops below a node that can be read: either the value is in
place already, or the path is rebuilt. -/
theorem unchanged_or_rebuilds (db : NodeStore Hash) (cache : NodeCache Hash) (hashRoot : Hash)
    (readable : (view db cache hashRoot).isSome) (bound : Nat) (hash : Hash) (key : Bytes)
    (more : key ≠ []) (path : List (TrieKeyValue Hash)) (vRemove : List Hash)
    (found : getNodePath db cache hashRoot bound hash key = some (path, vRemove)) :
    (relink cryptoHash hashValue path = some .unchanged ∧ hashValue ≠ 0 ∧
      ValueSlot (view db cache) hash key hashValue) ∨
    ∃ nodes top, Relinks cryptoHash hashValue path nodes top ∧
      Rebuilds cryptoHash hashValue (view db cache) hash key nodes top := by
  induction bound generalizing hash key path vRemove with
  | zero =>
    obtain ⟨n, rest, rfl⟩ := exists_cons_of_ne_nil more
    simp [getNodePath] at found
  | succ bound ih =>
    obtain ⟨n, rest, rfl⟩ := exists_cons_of_ne_nil more
    rw [getNodePath] at found
    rcases seen : getNodeValue db cache hash with _ | ⟨value, fCache⟩
    · simp only [seen] at found
      split_ifs at found with root
      simp [view, root ▸ seen] at readable
    · have here : view db cache hash = some value := by simp [view, seen]
      simp only [seen] at found
      cases value with
      | value v => simp [nodePathStep] at found
      | branch b =>
        simp only [nodePathStep, getBranchPath] at found
        by_cases deeper : rest ≠ [] ∧ b.getNextHash n ≠ 0
        · simp only [if_pos deeper, Option.map_eq_some_iff] at found
          obtain ⟨⟨below, removed⟩, foundBelow, same⟩ := found
          cases same
          rcases ih _ rest deeper.1 below removed foundBelow with ⟨unchanged, nonzero, slot⟩ | ⟨nodes, top, relinks, rebuilds⟩
          · exact Or.inl ⟨relink_unchanged cryptoHash hashValue (by simp) unchanged, nonzero,
              .branchNext here deeper.2 deeper.1 slot⟩
          · exact Or.inr ⟨_, _, relink_branch cryptoHash hashValue n b relinks,
              .branchNext here deeper.2 deeper.1 rebuilds rfl⟩
        · simp only [if_neg deeper, Option.some.injEq, Prod.mk.injEq] at found
          obtain ⟨rfl, _⟩ := found
          by_cases done : rest = []
          · subst done
            rcases relink_branch_value cryptoHash hashValue n b with ⟨unchanged, nonzero, same⟩ | relinks
            · exact Or.inl ⟨unchanged, nonzero, same ▸ .branchValue n here⟩
            · exact Or.inr ⟨_, _, relinks, .branchValue here rfl⟩
          · have free : b.getNextHash n = 0 := by
              by_contra linked
              exact deeper ⟨done, linked⟩
            exact Or.inr ⟨_, _, relink_branch cryptoHash hashValue n b (relink_leaf cryptoHash hashValue rest done),
              .branchLeaf here free done rfl⟩
      | extension e =>
        simp only [nodePathStep, getExtensionPath] at found
        by_cases along : e.getKey.length ≤ (n :: rest).length ∧ e.getKey = (n :: rest).take e.getKey.length
        · have whole : n :: rest = e.getKey ++ (n :: rest).drop e.getKey.length := by
            conv_lhs => rw [← take_append_drop e.getKey.length (n :: rest), ← along.2]
          generalize (n :: rest).drop e.getKey.length = tail at whole found
          simp only [if_pos along] at found
          by_cases free : e.getNextHash = 0
          · simp only [if_pos free, Option.some.injEq, Prod.mk.injEq] at found
            obtain ⟨rfl, _⟩ := found
            by_cases done : tail = []
            · subst done
              rw [append_nil] at whole
              rcases relink_extension_value cryptoHash hashValue e.getKey e with ⟨unchanged, nonzero, same⟩ | relinks
              · exact Or.inl ⟨unchanged, nonzero, whole ▸ same ▸ .extensionValue here⟩
              · exact Or.inr ⟨_, _, relinks, .extensionValue here whole rfl⟩
            · exact Or.inr ⟨_, _, relink_extension cryptoHash hashValue e.getKey e
                (relink_leaf cryptoHash hashValue tail done), .extensionLeaf here free done whole rfl⟩
          · simp only [if_neg free, Option.map_eq_some_iff] at found
            obtain ⟨⟨below, removed⟩, foundBelow, same⟩ := found
            cases same
            by_cases done : tail = []
            · subst done
              rw [append_nil] at whole
              simp only [getNodePath, Option.some.injEq, Prod.mk.injEq] at foundBelow
              obtain ⟨rfl, rfl⟩ := foundBelow
              rcases relink_extension_value cryptoHash hashValue e.getKey e with ⟨unchanged, nonzero, same⟩ | relinks
              · exact Or.inl ⟨unchanged, nonzero, whole ▸ same ▸ .extensionValue here⟩
              · exact Or.inr ⟨_, _, relinks, .extensionValue here whole rfl⟩
            · rcases ih _ tail done below removed foundBelow with
                ⟨unchanged, nonzero, slot⟩ | ⟨nodes, top, relinks, rebuilds⟩
              · exact Or.inl ⟨relink_unchanged cryptoHash hashValue (by simp) unchanged, nonzero,
                  whole ▸ .extensionNext here free done slot⟩
              · exact Or.inr ⟨_, _, relink_extension cryptoHash hashValue e.getKey e relinks,
                  .extensionNext here free done whole rebuilds rfl⟩
        · simp only [if_neg along, Option.some.injEq, Prod.mk.injEq] at found
          obtain ⟨rfl, _⟩ := found
          exact Or.inr (relink_split cryptoHash hashValue e (n :: rest) here (by simp) along)

theorem getNodePath_of_read {db : NodeStore Hash} {cache : NodeCache Hash} {hash : Hash} {value : TrieValue Hash}
    (read : view db cache hash = some value) (key : Bytes) (more : key ≠ []) (root : Hash) (bound : Nat) :
    ∃ vRemove, getNodePath db cache root (bound + 1) hash key = match nodePathStep key value with
      | none => none
      | some (path, none) => some (path, vRemove)
      | some (path, some (next, syKey)) => (getNodePath db cache root bound next syKey).map fun below =>
          (path ++ below.1, vRemove ++ below.2) := by
  obtain ⟨n, rest, rfl⟩ := exists_cons_of_ne_nil more
  obtain ⟨⟨value, fCache⟩, found, rfl⟩ := Option.map_eq_some_iff.mp read
  refine ⟨if fCache = true then [hash] else [], ?_⟩
  rcases step : nodePathStep (n :: rest) value with _ | ⟨path, _ | next⟩ <;> simp [getNodePath, found, step]

/-- The search for a value that is in place ends where it is linked, and changes nothing. -/
theorem unchanged_of_valueSlot {db : NodeStore Hash} {cache : NodeCache Hash} (root : Hash)
    (keyed : ∀ h node, view db cache h = some node → Keyed node) (nonzero : hashValue ≠ 0) {hash x : Hash}
    {key : Bytes} (slot : ValueSlot (view db cache) hash key x) (same : x = hashValue) (bound : Nat)
    (room : key.length ≤ bound) : ∃ path vRemove,
      getNodePath db cache root bound hash key = some (path, vRemove) ∧
        relink cryptoHash hashValue path = some .unchanged := by
  induction slot generalizing bound with
  | @branchValue h b n read =>
    obtain ⟨bound, rfl⟩ := Nat.exists_eq_add_of_le' (show 1 ≤ bound from room)
    obtain ⟨vRemove, found⟩ := getNodePath_of_read read [n] (by simp) root bound
    refine ⟨[branchEntry n b], vRemove, found, ?_⟩
    simp [relink, relinkOld, relinkNew, branchEntry, calcValueHash, nonzero, same]
  | @branchNext h x b n rest read linked more below ih =>
    obtain ⟨bound, rfl⟩ := Nat.exists_eq_add_of_le' (show 1 ≤ bound by simp at room; omega)
    obtain ⟨path, removed, searched, unchanged⟩ := ih same bound (by simpa using room)
    obtain ⟨vRemove, found⟩ := getNodePath_of_read read (n :: rest) (by simp) root bound
    refine ⟨branchEntry n b :: path, vRemove ++ removed, ?_,
      relink_unchanged cryptoHash hashValue (by simp [branchEntry]) unchanged⟩
    simpa [nodePathStep, getBranchPath, branchEntry, more, linked, searched] using found
  | @extensionValue h e read =>
    have positive := length_pos_of_ne_nil (keyed h _ read)
    obtain ⟨bound, rfl⟩ := Nat.exists_eq_add_of_le' (positive.trans_le room)
    obtain ⟨vRemove, found⟩ := getNodePath_of_read read e.getKey (keyed h _ read) root bound
    refine ⟨[extensionEntry e.getKey e], vRemove, ?_, ?_⟩
    · by_cases free : e.getNextHash = 0
      · simpa [nodePathStep, getExtensionPath, extensionEntry, newNodePath, free] using found
      · simpa [nodePathStep, getExtensionPath, extensionEntry, getNodePath, free] using found
    · simp [relink, relinkOld, relinkNew, extensionEntry, calcValueHash, nonzero, same]
  | @extensionNext h x e rest read linked more below ih =>
    have positive := length_pos_of_ne_nil (keyed h _ read)
    rw [length_append] at room
    obtain ⟨bound, rfl⟩ := Nat.exists_eq_add_of_le' (show 1 ≤ bound by omega)
    obtain ⟨path, removed, searched, unchanged⟩ := ih same bound (by omega)
    obtain ⟨vRemove, found⟩ := getNodePath_of_read read (e.getKey ++ rest) (by simp [more]) root bound
    refine ⟨extensionEntry e.getKey e :: path, vRemove ++ removed, ?_,
      relink_unchanged cryptoHash hashValue (by simp [extensionEntry]) unchanged⟩
    simpa [nodePathStep, getExtensionPath, extensionEntry, linked, searched] using found

end Search
end HashAhead.Trie
