import HashAhead.Trie.Rebuild

/-! Rebuilding a path overwrites one entry. The meaning of the new top differs from the
old one at the written key only, and the new subtrie is closed again. -/

namespace HashAhead.Trie
open Foundation List TrieBranch
variable {Hash : Type} [Zero Hash]

/-- The key gets the value link; every other key keeps the present links it had. -/
def Overwrites (before after : Bytes → Hash → Prop) (key : Bytes) (hashValue : Hash) : Prop :=
  ∀ k x, x ≠ 0 → (after k x ↔ (k = key ∧ x = hashValue) ∨ (k ≠ key ∧ before k x))

section Edges
variable {db db' : NodeStore Hash}

theorem overwrites_value (edge : Bytes) (old hashValue next next' : Hash)
    (same : ∀ k x, Below db' next' k x ↔ Below db next k x) :
    Overwrites (EdgeSlot db edge old next) (EdgeSlot db' edge hashValue next') edge hashValue := by
  intro k x there
  by_cases along : ∃ rest, k = edge ++ rest
  · obtain ⟨rest, rfl⟩ := along
    rw [edgeSlot_append, edgeSlot_append, same]
    by_cases done : rest = [] <;> simp [done]
  · have off : ∀ (store : NodeStore Hash) v h, ¬EdgeSlot store edge v h k x :=
      fun store v h slot => along (edgeSlot_extends slot)
    have other : k ≠ edge := fun whole => along ⟨[], by simp [whole]⟩
    simp [off, other]

theorem overwrites_next {rest : Bytes} (edge : Bytes) (more : rest ≠ []) {hashValue : Hash} (value : Hash) {next next' : Hash}
    (lower : Overwrites (Below db next) (Below db' next') rest hashValue) :
    Overwrites (EdgeSlot db edge value next) (EdgeSlot db' edge value next') (edge ++ rest) hashValue := by
  intro k x there
  by_cases along : ∃ tail, k = edge ++ tail
  · obtain ⟨tail, rfl⟩ := along
    rw [edgeSlot_append, edgeSlot_append, lower tail x there]
    by_cases done : tail = []
    · simp [done, more, Ne.symm more]
    · simp [done]
  · have off : ∀ (store : NodeStore Hash) v h, ¬EdgeSlot store edge v h k x :=
      fun store v h slot => along (edgeSlot_extends slot)
    have other : k ≠ edge ++ rest := fun whole => along ⟨rest, whole⟩
    simp [off, other]

/-- One slot of a branch is overwritten when its edge is and the other edges stay. -/
theorem overwrites_branch (b b' : TrieBranch Hash) (n : UInt8) (rest : Bytes) (hashValue : Hash)
    (here : Overwrites (EdgeSlot db [n] (b.getValueHash n) (b.getNextHash n))
      (EdgeSlot db' [n] (b'.getValueHash n) (b'.getNextHash n)) (n :: rest) hashValue)
    (others : ∀ m, m ≠ n → ∀ k x, EdgeSlot db' [m] (b'.getValueHash m) (b'.getNextHash m) k x ↔
      EdgeSlot db [m] (b.getValueHash m) (b.getNextHash m) k x) :
    Overwrites (NodeSlot db (.branch b)) (NodeSlot db' (.branch b')) (n :: rest) hashValue := by
  intro k x there
  cases k with
  | nil => simp [nodeSlot_branch_nil]
  | cons m tail =>
    rw [nodeSlot_branch_cons, nodeSlot_branch_cons]
    by_cases same : m = n
    · subst same
      exact here (m :: tail) x there
    · rw [others m same]
      simp [same]

theorem off_edges (db db' : NodeStore Hash) {first : Bytes} (second : Bytes) (value next middle x : Hash) {k : Bytes}
    (away : ¬∃ tail, k = first ++ tail) :
    ¬EdgeSlot db' first 0 middle k x ∧ ¬EdgeSlot db (first ++ second) value next k x := by
  refine ⟨fun slot => away (edgeSlot_extends slot), fun slot => ?_⟩
  obtain ⟨tail, whole⟩ := edgeSlot_extends slot
  exact away ⟨second ++ tail, by rw [whole, append_assoc]⟩

theorem edgeSlot_cut (first second : Bytes) (more : second ≠ []) (value next middle : Hash)
    (lower : ∀ k x, x ≠ 0 → (Below db' middle k x ↔ EdgeSlot db second value next k x)) (k : Bytes) (x : Hash)
    (there : x ≠ 0) :
    EdgeSlot db' first 0 middle k x ↔ EdgeSlot db (first ++ second) value next k x := by
  by_cases along : ∃ tail, k = first ++ tail
  · obtain ⟨tail, rfl⟩ := along
    rw [edgeSlot_append, lower tail x there]
    unfold EdgeSlot
    simp only [append_assoc, append_cancel_left_eq, there, and_false, false_or]
    constructor
    · exact fun slot => slot.2
    · intro slot
      refine ⟨?_, slot⟩
      rintro rfl
      rcases slot with ⟨ended, _⟩ | ⟨rest, _, ended, _⟩
      · exact more ended.symm
      · exact more (append_eq_nil_iff.mp ended.symm).1
  · obtain ⟨off, off'⟩ := off_edges db db' second value next middle x along
    simp [off, off']

theorem overwrites_cut {second rest : Bytes} (first : Bytes) (moreOld : second ≠ []) (more : rest ≠ [])
    {value next middle hashValue : Hash}
    (lower : Overwrites (EdgeSlot db second value next) (Below db' middle) rest hashValue) :
    Overwrites (EdgeSlot db (first ++ second) value next) (EdgeSlot db' first 0 middle) (first ++ rest)
      hashValue := by
  intro k x there
  by_cases along : ∃ tail, k = first ++ tail
  · obtain ⟨tail, rfl⟩ := along
    have kept : EdgeSlot db (first ++ second) value next (first ++ tail) x ↔ EdgeSlot db second value next tail x := by
      simp only [EdgeSlot, append_assoc, append_cancel_left_eq]
    rw [edgeSlot_append, lower tail x there, kept]
    by_cases done : tail = []
    · have off : ¬EdgeSlot db second value next [] x := by
        intro slot
        obtain ⟨rest, whole⟩ := edgeSlot_extends slot
        exact moreOld (append_eq_nil_iff.mp whole.symm).1
      simp [done, there, off, Ne.symm more, more]
    · simp [done, there]
  · obtain ⟨off, off'⟩ := off_edges db db' second value next middle x along
    have other : k ≠ first ++ rest := fun whole => along ⟨rest, whole⟩
    simp [off, off', other]

end Edges

section Shapes

inductive EdgeNode : TrieValue Hash → Bytes → Hash → Hash → Prop where
  | branch {b : TrieBranch Hash} {n : UInt8} {v h : Hash}
      (value : ∀ m, b.getValueHash m = if m = n then v else 0)
      (next : ∀ m, b.getNextHash m = if m = n then h else 0) : EdgeNode (.branch b) [n] v h
  | extension {e : TrieExtension Hash} {key : Bytes} {v h : Hash} (whole : e.getKey = key)
      (value : e.getValueHash = v) (next : e.getNextHash = h) : EdgeNode (.extension e) key v h

theorem EdgeNode.slot_iff {node : TrieValue Hash} {edge : Bytes} {v h : Hash} (shape : EdgeNode node edge v h)
    (db : NodeStore Hash) (k : Bytes) (x : Hash) (there : x ≠ 0) :
    NodeSlot db node k x ↔ EdgeSlot db edge v h k x := by
  cases shape with
  | extension whole value next =>
    subst whole value next
    rfl
  | @branch b n v h value next =>
    constructor
    · rintro ⟨m, slot⟩
      rw [value, next] at slot
      split_ifs at slot with same
      · rwa [same] at slot
      · rcases slot with ⟨_, zero⟩ | ⟨rest, _, _, below⟩
        · exact absurd zero there
        · exact absurd below (not_below_zero db rest x)
    · intro slot
      refine ⟨n, ?_⟩
      rw [value, next, if_pos rfl, if_pos rfl]
      exact slot

variable [DecidableEq Hash]

theorem edgeNode_leafNode (held : Hash) (key : Bytes) (small : Nibbles key) :
    EdgeNode (leafNode held key) key held 0 := by
  unfold leafNode
  split
  next n =>
    have smallN : n < 16 := small n (by simp)
    have short := short_new.setValueHash (by omega) n smallN held
    refine .branch (fun m => ?_) (fun m => by simp)
    rw [getValueHash_setValueHash _ sound_new n m _ smallN (short.roomy (by omega)),
      getValueHash_new]
  next => exact .extension (by simpa using TrieExtension.getKey_setKey _ _ small) (by simp) (by simp)

theorem edgeNode_restNode (e : TrieExtension Hash) (key : Bytes) (small : Nibbles key) :
    EdgeNode (restNode e key) key e.getValueHash e.getNextHash := by
  unfold restNode
  split
  next n =>
    have smallN : n < 16 := small n (by simp)
    have first := short_new.setNextHash (by omega) n smallN e.getNextHash
    have second := first.setValueHash (by omega) n smallN e.getValueHash
    refine .branch (fun m => ?_) (fun m => ?_)
    · rw [getValueHash_setValueHash _ first.1 n m _ smallN (second.roomy (by omega)),
        getValueHash_setNextHash, getValueHash_new]
    · rw [getNextHash_setValueHash,
        getNextHash_setNextHash _ sound_new n m _ smallN (first.roomy (by omega)),
        getNextHash_new]
  next => exact .extension (by simpa using TrieExtension.getKey_setKey _ _ small) (by simp) (by simp)

theorem edgeNode_prefixEnd (held below : Hash) (common : Bytes) (small : Nibbles common) :
    EdgeNode (prefixEnd held common below) common held below := by
  unfold prefixEnd
  split
  next c =>
    have smallC : c < 16 := small c (by simp)
    have first := short_keepNext smallC below
    have second := first.setValueHash (by omega) c smallC held
    refine .branch (fun m => ?_) (fun m => ?_)
    · rw [getValueHash_setValueHash _ first.1 c m _ smallC (second.roomy (by omega)),
        getValueHash_keepNext]
    · rw [getNextHash_setValueHash, getNextHash_keepNext c m smallC]
  next =>
    split_ifs with absent
    · exact .extension (by simpa using TrieExtension.getKey_setKey _ _ small) (by simp) (by simp [absent])
    · exact .extension (by simpa using TrieExtension.getKey_setKey _ _ small) (by simp) (by simp)

theorem edgeNode_prefixFork (stale below : Hash) (common : Bytes) (small : Nibbles common) :
    EdgeNode (prefixFork common stale below) common 0 below := by
  unfold prefixFork
  split
  next c =>
    have smallC : c < 16 := small c (by simp)
    have first := short_keepNext smallC stale
    have second := first.setNextHash (by omega) c smallC below
    refine .branch (fun m => by simp) (fun m => ?_)
    rw [getNextHash_setNextHash _ first.1 c m _ smallC (second.roomy (by omega)),
      getNextHash_keepNext c m smallC]
    split_ifs <;> rfl
  next => exact .extension (by simpa using TrieExtension.getKey_setKey _ _ small) (by simp) (by simp)

end Shapes

section Fork
variable [DecidableEq Hash] (digest : TrieValue Hash → Hash) (hashValue : Hash)

variable (e : TrieExtension Hash)

theorem short_forkNode {a b : UInt8} (smallA : a < 16) (smallB : b < 16) (old fresh : Bytes)
    : Short (forkNode digest hashValue e a old b fresh) 3 := by
  have short := short_forkOld digest e smallA old
  unfold forkNode linkLeaf
  split_ifs
  · exact short.setValueHash (by omega) b smallB _
  · exact short.setNextHash (by omega) b smallB _

section
variable (a b m : UInt8) (smallA : a < 16) (smallB : b < 16) (parted : a ≠ b) (old fresh : Bytes)
include smallA smallB parted

theorem getValueHash_forkNode
    :
    (forkNode digest hashValue e a old b fresh).getValueHash m =
      if m = a then (if old = [] then e.getValueHash else 0)
      else if m = b then (if fresh = [] then hashValue else 0) else 0 := by
  have short := short_forkOld digest e smallA old
  have values := getValueHash_forkOld digest e a m smallA old
  unfold forkNode linkLeaf
  by_cases done : fresh = []
  · rw [if_pos done, if_pos done, getValueHash_setValueHash _ short.1 b m _ smallB
      ((short.setValueHash (by omega) b smallB _).roomy (by omega)), values]
    by_cases atA : m = a
    · simp [atA, parted]
    · simp [atA]
  · rw [if_neg done, if_neg done, getValueHash_setNextHash, values]
    simp

theorem getNextHash_forkNode :
    (forkNode digest hashValue e a old b fresh).getNextHash m =
      if m = a then (if old = [] then e.getNextHash else restHash digest e old)
      else if m = b then (if fresh = [] then 0 else leafHash digest hashValue fresh) else 0 := by
  have short := short_forkOld digest e smallA old
  have nexts := getNextHash_forkOld digest e a m smallA old
  unfold forkNode linkLeaf
  by_cases done : fresh = []
  · rw [if_pos done, if_pos done, getNextHash_setValueHash, nexts]
    simp
  · rw [if_neg done, if_neg done, getNextHash_setNextHash _ short.1 b m _ smallB
      ((short.setNextHash (by omega) b smallB _).roomy (by omega)), nexts]
    by_cases atA : m = a
    · simp [atA, parted]
    · simp [atA]

end

end Fork

section Stored
variable [DecidableEq Hash] {digest : TrieValue Hash → Hash} {hashValue : Hash} {db db' : NodeStore Hash}

theorem hasValue_of_nodeSlot {node : TrieValue Hash} {k : Bytes} {x : Hash} (slot : NodeSlot db node k x)
    (there : x ≠ 0) : node.hasValue = true := by
  cases node with
  | value v => exact slot.elim
  | branch b =>
    rw [hasValue_branch]
    obtain ⟨n, ⟨_, here⟩ | ⟨_, _, _, linked, _⟩⟩ := slot
    · exact ⟨n, Or.inr (here ▸ there)⟩
    · exact ⟨n, Or.inl linked⟩
  | extension e =>
    rw [hasValue_extension]
    obtain ⟨_, here⟩ | ⟨_, _, _, linked, _⟩ := slot
    · exact Or.inr (here ▸ there)
    · exact Or.inl linked

def Stored (cryptoHash : TrieValue Hash → Hash) (db : NodeStore Hash) (node : TrieValue Hash) : Prop :=
  node.calcHash cryptoHash ≠ 0 → db (node.calcHash cryptoHash) = some node

theorem Stored.below_iff (nonzero : NonzeroHash digest) {node : TrieValue Hash}
    (stored : Stored digest db node) (k : Bytes) (x : Hash) (there : x ≠ 0) :
    Below db (node.calcHash digest) k x ↔ NodeSlot db node k x := by
  unfold Below
  by_cases zero : node.calcHash digest = 0
  · refine ⟨fun below => absurd zero below.1, fun slot => ?_⟩
    exact absurd zero (calcHash_ne_zero digest nonzero node (hasValue_of_nodeSlot slot there))
  · rw [valueSlot_of_read (stored zero)]
    exact and_iff_right zero

theorem overwrites_leaf (nonzero : NonzeroHash digest) {rest : Bytes} (small : Nibbles rest)
    (stored : Stored digest db' (leafNode hashValue rest)) :
    Overwrites (Below db 0) (Below db' ((leafNode hashValue rest).calcHash digest)) rest hashValue := by
  intro k x there
  rw [stored.below_iff nonzero k x there, (edgeNode_leafNode hashValue rest small).slot_iff db' k x there]
  simp [EdgeSlot, not_below_zero]

theorem overwrites_fork (nonzero : NonzeroHash digest) {e : TrieExtension Hash} {a b : UInt8}
    {old fresh : Bytes} (smallOld : Nibbles (a :: old)) (smallFresh : Nibbles (b :: fresh)) (parted : a ≠ b)
    (same : ∀ k x, Below db' e.getNextHash k x ↔ Below db e.getNextHash k x)
    (stored : ∀ node ∈ restNodes e old ++ leafNodes hashValue fresh, Stored digest db' node) :
    Overwrites (EdgeSlot db (a :: old) e.getValueHash e.getNextHash)
      (NodeSlot db' (.branch (forkNode digest hashValue e a old b fresh))) (b :: fresh) hashValue := by
  have smallA : a < 16 := smallOld a (by simp)
  have smallB : b < 16 := smallFresh b (by simp)
  intro k x present
  cases k with
  | nil =>
    have off : ¬EdgeSlot db (a :: old) e.getValueHash e.getNextHash [] x := by
      intro slot
      obtain ⟨rest, whole⟩ := edgeSlot_extends slot
      simp at whole
    simp [nodeSlot_branch_nil, off]
  | cons m tail =>
    rw [nodeSlot_branch_cons, getValueHash_forkNode digest hashValue e a b m smallA smallB parted,
      getNextHash_forkNode digest hashValue e a b m smallA smallB parted]
    by_cases atA : m = a
    · -- the old side
      subst atA
      rw [if_pos rfl, if_pos rfl]
      have other : m :: tail ≠ b :: fresh := by simp [parted]
      simp only [ne_eq, other, not_false_eq_true, true_and, false_and, false_or]
      by_cases done : old = []
      · simp [done, edgeSlot_cons, same]
      · rw [if_neg done, if_neg done, restHash, if_neg done]
        have kept : Stored digest db' (restNode e old) := stored _ (by simp [restNodes, done])
        refine edgeSlot_cut [m] old done e.getValueHash e.getNextHash _ (fun t y there => ?_) _ _ present
        rw [kept.below_iff nonzero t y there, (edgeNode_restNode e old (fun n i => smallOld n (by simp [i]))).slot_iff
          db' t y there]
        simp only [EdgeSlot, same]
    · have off : ¬EdgeSlot db (a :: old) e.getValueHash e.getNextHash (m :: tail) x := by
        intro slot
        obtain ⟨rest, whole⟩ := edgeSlot_extends slot
        exact atA (by simpa using congrArg List.head? whole)
      rw [if_neg atA, if_neg atA]
      simp only [off, and_false, or_false]
      by_cases atB : m = b
      · -- the new side
        subst atB
        rw [if_pos rfl, if_pos rfl, edgeSlot_cons]
        by_cases done : fresh = []
        · simp [done, not_below_zero]
        · have kept : Stored digest db' (leafNode hashValue fresh) := stored _ (by simp [leafNodes, done])
          have leaf : Overwrites (Below db 0) _ fresh hashValue :=
            overwrites_leaf nonzero (fun n i => smallFresh n (by simp [i])) kept
          rw [if_neg done, if_neg done, leafHash, if_neg done, leaf tail x present]
          simp [present, not_below_zero]
          rintro rfl
          simp [done]
      · rw [if_neg atB, if_neg atB]
        simp [edgeSlot_cons, atB, present, not_below_zero]

theorem overwrites_setValueHash {b : TrieBranch Hash} (sound : b.Sound) {n : UInt8} (small : n < 16)
    (room : (b.setValueHash n hashValue).Roomy)
    (same : ∀ m k x, Below db' (b.getNextHash m) k x ↔ Below db (b.getNextHash m) k x) :
    Overwrites (NodeSlot db (.branch b)) (NodeSlot db' (.branch (b.setValueHash n hashValue))) [n] hashValue := by
  have values := fun m => b.getValueHash_setValueHash sound n m hashValue small room
  apply overwrites_branch
  · rw [values n, if_pos rfl, getNextHash_setValueHash]
    exact overwrites_value [n] _ hashValue _ _ (same n)
  · intro m other k x
    rw [values m, if_neg other, getNextHash_setValueHash]
    simp only [EdgeSlot, same]

theorem overwrites_setNextHash {b : TrieBranch Hash} (sound : b.Sound) {n : UInt8} (small : n < 16) {top : Hash}
    (room : (b.setNextHash n top).Roomy)
    (same : ∀ m k x, Below db' (b.getNextHash m) k x ↔ Below db (b.getNextHash m) k x) {rest : Bytes}
    (more : rest ≠ []) (lower : Overwrites (Below db (b.getNextHash n)) (Below db' top) rest hashValue) :
    Overwrites (NodeSlot db (.branch b)) (NodeSlot db' (.branch (b.setNextHash n top))) (n :: rest) hashValue := by
  have nexts := fun m => b.getNextHash_setNextHash sound n m top small room
  apply overwrites_branch
  · rw [nexts n, if_pos rfl, getValueHash_setNextHash]
    exact overwrites_next [n] more _ lower
  · intro m other k x
    rw [nexts m, if_neg other, getValueHash_setNextHash]
    simp only [EdgeSlot, same]

end Stored

section Rebuilt
variable [DecidableEq Hash] {digest : TrieValue Hash → Hash} {hashValue : Hash} {db db' : NodeStore Hash}
  {fit : TrieBranch Hash → Prop}

variable {h : Hash}

omit [DecidableEq Hash] in
theorem below_same (included : Included db db') (closed : h ≠ 0 → Closed fit db h) (k : Bytes) (x : Hash) :
    Below db' h k x ↔ Below db h k x :=
  and_congr_right fun linked => (closed linked).valueSlot_iff included k x

section
variable (nonzero : NonzeroHash digest)
include nonzero

theorem Overwrites.of_read {node made : TrieValue Hash} {key : Bytes} (read : db h = some node)
    (stored : Stored digest db' made) (nodes : Overwrites (NodeSlot db node) (NodeSlot db' made) key hashValue) :
    Overwrites (ValueSlot db h) (Below db' (made.calcHash digest)) key hashValue := by
  intro k x there
  rw [stored.below_iff nonzero k x there, valueSlot_of_read read]
  exact nodes k x there

/-- An edge that the new key ends on is cut there, and the value goes to the cut. -/
theorem overwrites_prefixEnd (e : TrieExtension Hash) (common old : Bytes) (smallCommon : Nibbles common)
    (smallOld : Nibbles old) (more : old ≠ [])
    (same : ∀ k x, Below db' e.getNextHash k x ↔ Below db e.getNextHash k x)
    (stored : Stored digest db' (restNode e old)) :
    Overwrites (EdgeSlot db (common ++ old) e.getValueHash e.getNextHash)
      (NodeSlot db' (prefixEnd hashValue common ((restNode e old).calcHash digest))) common hashValue := by
  -- cut the old edge first, then write the value at its new end
  have lower : ∀ k x, x ≠ 0 → (Below db' ((restNode e old).calcHash digest) k x ↔
      EdgeSlot db old e.getValueHash e.getNextHash k x) := by
    intro k x there
    rw [stored.below_iff nonzero k x there, (edgeNode_restNode e old smallOld).slot_iff db' k x there]
    simp only [EdgeSlot, same]
  have cut := edgeSlot_cut common old more e.getValueHash e.getNextHash _ lower
  intro k x there
  rw [(edgeNode_prefixEnd hashValue _ common smallCommon).slot_iff db' k x there, ← cut k x there]
  exact overwrites_value common 0 hashValue _ _ (fun _ _ => Iff.rfl) k x there

/-- An edge that the new key leaves on the way is cut there, and a fork takes over the rest. -/
theorem overwrites_prefixFork {e : TrieExtension Hash} (stale : Hash) {a b : UInt8} {common old fresh : Bytes}
    (smallCommon : Nibbles common) (smallOld : Nibbles (a :: old)) (smallFresh : Nibbles (b :: fresh))
    (parted : a ≠ b) (same : ∀ k x, Below db' e.getNextHash k x ↔ Below db e.getNextHash k x)
    (forked : Stored digest db' (.branch (forkNode digest hashValue e a old b fresh)))
    (stored : ∀ node ∈ restNodes e old ++ leafNodes hashValue fresh, Stored digest db' node) :
    Overwrites (EdgeSlot db (common ++ a :: old) e.getValueHash e.getNextHash)
      (NodeSlot db' (prefixFork common stale
        ((TrieValue.branch (forkNode digest hashValue e a old b fresh)).calcHash digest)))
      (common ++ b :: fresh) hashValue := by
  have lower := overwrites_fork nonzero smallOld smallFresh parted same stored
  intro k x present
  rw [(edgeNode_prefixFork stale _ common smallCommon).slot_iff db' k x present]
  refine overwrites_cut common (by simp) (by simp) ?_ k x present
  intro t y there
  rw [forked.below_iff nonzero t y there]
  exact lower t y there

/-- The new nodes, once stored next to the old ones, give the written key its new value
link and leave every other key alone. -/
theorem Rebuilds.overwrites (included : Included db db') (sound : ∀ b, fit b → b.Sound) {top : Hash} {key : Bytes}
    {nodes : List (TrieValue Hash)} (rebuilds : Rebuilds digest hashValue db h key nodes top)
    (closed : Closed fit db h) (small : Nibbles key) (stored : ∀ node ∈ nodes, Stored digest db' node)
    (room : ∀ b, TrieValue.branch b ∈ nodes → b.Roomy) :
    Overwrites (ValueSlot db h) (Below db' top) key hashValue := by
  induction rebuilds with
  | @branchValue h b n node found made =>
    subst made
    obtain ⟨fits, edges⟩ := closed.at_branch found
    exact .of_read nonzero found (stored _ (by simp)) (overwrites_setValueHash (sound b fits)
      (small n (by simp)) (room _ (by simp)) fun m => below_same included (edges m).next)
  | @branchNext h below b n rest nodes node found linked more lower made ih =>
    subst made
    obtain ⟨fits, edges⟩ := closed.at_branch found
    have deeper := ih ((edges n).next linked) small.tail (fun node i => stored node (by simp [i]))
      (fun b i => room b (by simp [i]))
    refine .of_read nonzero found (stored _ (by simp)) (overwrites_setNextHash (sound b fits)
      (small n (by simp)) (room _ (by simp)) (fun m => below_same included (edges m).next) more ?_)
    intro k x there
    rw [deeper k x there]
    simp [Below, linked]
  | @branchLeaf h b n rest node found free more made =>
    subst made
    obtain ⟨fits, edges⟩ := closed.at_branch found
    refine .of_read nonzero found (stored _ (by simp)) (overwrites_setNextHash (sound b fits)
      (small n (by simp)) (room _ (by simp)) (fun m => below_same included (edges m).next) more ?_)
    rw [free]
    exact overwrites_leaf nonzero small.tail (stored _ (by simp))
  | @extensionValue h e key node found whole made =>
    subst made whole
    obtain ⟨_, edge⟩ := closed.at_extension found
    refine .of_read nonzero found (stored _ (by simp)) ?_
    rw [nodeSlot_extension, nodeSlot_extension]
    simp only [TrieExtension.getKey_setValueHash, TrieExtension.getValueHash_setValueHash,
      TrieExtension.getNextHash_setValueHash]
    exact overwrites_value e.getKey _ hashValue _ _ (below_same included edge.next)
  | @extensionNext h below e key rest nodes node found linked more whole lower made ih =>
    subst made whole
    obtain ⟨_, edge⟩ := closed.at_extension found
    have deeper := ih (edge.next linked) small.right (fun node i => stored node (by simp [i]))
      (fun b i => room b (by simp [i]))
    refine .of_read nonzero found (stored _ (by simp)) ?_
    rw [nodeSlot_extension, nodeSlot_extension]
    simp only [TrieExtension.getKey_setNextHash, TrieExtension.getValueHash_setNextHash,
      TrieExtension.getNextHash_setNextHash]
    refine overwrites_next e.getKey more _ fun k x there => ?_
    rw [deeper k x there]
    simp [Below, linked]
  | @extensionLeaf h e key rest node found free more whole made =>
    subst made whole
    obtain ⟨_, edge⟩ := closed.at_extension found
    refine .of_read nonzero found (stored _ (by simp)) ?_
    rw [nodeSlot_extension, nodeSlot_extension]
    simp only [TrieExtension.getKey_setNextHash, TrieExtension.getValueHash_setNextHash,
      TrieExtension.getNextHash_setNextHash]
    refine overwrites_next e.getKey more _ ?_
    rw [free]
    exact overwrites_leaf nonzero small.right (stored _ (by simp))
  | @fork h e a b old fresh node found whole parted made =>
    subst made
    obtain ⟨_, edge⟩ := closed.at_extension found
    refine .of_read nonzero found (stored _ (by simp)) ?_
    rw [nodeSlot_extension, whole]
    exact overwrites_fork nonzero (whole ▸ e.nibbles_getKey) small parted
      (below_same included edge.next) (fun node i => stored node (mem_cons_of_mem _ i))
  | @prefixEnd h e common old node found whole begun more made =>
    subst made
    have smallOld : Nibbles old := (whole ▸ e.nibbles_getKey : Nibbles (common ++ old)).right
    refine .of_read nonzero found (stored _ (by simp)) ?_
    rw [nodeSlot_extension, whole]
    exact overwrites_prefixEnd nonzero e common old small smallOld more
      (below_same included (closed.at_extension found).2.next) (stored _ (by simp))
  | @prefixFork h stale e a b key common old fresh node lower found whole begun parted whole' below made =>
    subst made below whole'
    have smallOld : Nibbles (a :: old) := (whole ▸ e.nibbles_getKey : Nibbles (common ++ a :: old)).right
    refine .of_read nonzero found (stored _ (by simp)) ?_
    rw [nodeSlot_extension, whole]
    exact overwrites_prefixFork nonzero stale small.left smallOld small.right parted
      (below_same included (closed.at_extension found).2.next) (stored _ (by simp))
      (fun node i => stored node (mem_cons_of_mem _ (mem_cons_of_mem _ i)))

end

end Rebuilt
end HashAhead.Trie
