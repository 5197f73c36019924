import HashAhead.Trie.Overwrite

/-! The shape of a rebuilt subtrie. It is closed again as long as no branch table
outgrows its index bytes, and writing values that are not empty never comes near that
bound because no slot is ever released. -/

namespace HashAhead.Trie
open Foundation List TrieValue TrieBranch
variable {Hash : Type} [DecidableEq Hash] [Zero Hash] {cryptoHash : TrieValue Hash → Hash} {hashValue : Hash}
  {db db' : NodeStore Hash} {fit : TrieBranch Hash → Prop}

section Closing

theorem closed_branch {b : TrieBranch Hash} (stored : Stored cryptoHash db (.branch b)) (fits : fit b)
    (edges : ∀ n, EdgeClosed fit db (b.getValueHash n) (b.getNextHash n))
    (there : (branch b).calcHash cryptoHash ≠ 0) :
    Closed fit db ((branch b).calcHash cryptoHash) :=
  .branch (stored there) fits (fun n => (edges n).next) (fun n => (edges n).value)

theorem closed_extension {e : TrieExtension Hash} (stored : Stored cryptoHash db (.extension e))
    (keyed : e.getKey ≠ []) (edge : EdgeClosed fit db e.getValueHash e.getNextHash)
    (there : (extension e).calcHash cryptoHash ≠ 0) :
    Closed fit db ((extension e).calcHash cryptoHash) :=
  .extension (stored there) keyed edge.next edge.value

theorem closed_edgeNode {node : TrieValue Hash} {edge : Bytes} {v h : Hash} (shape : EdgeNode node edge v h)
    (stored : Stored cryptoHash db node) (more : edge ≠ []) (fits : ∀ b, node = .branch b → fit b)
    (ends : EdgeClosed fit db v h) (there : node.calcHash cryptoHash ≠ 0) :
    Closed fit db (node.calcHash cryptoHash) := by
  cases shape with
  | extension whole value next =>
    subst whole value next
    exact closed_extension stored more ends there
  | @branch b n v h value next =>
    refine closed_branch stored (fits b rfl) (fun m => ?_) there
    rw [value, next]
    split_ifs
    · exact ends
    · exact edgeClosed_zero

private theorem closed_fork (e : TrieExtension Hash) (a b : UInt8) (old fresh : Bytes)
    (smallOld : Nibbles (a :: old)) (smallFresh : Nibbles (b :: fresh)) (parted : a ≠ b)
    (ends : EdgeClosed fit db e.getValueHash e.getNextHash) (held : hashValue ≠ 0 → HoldsValue db hashValue)
    (stored : ∀ node ∈ branch (forkNode cryptoHash hashValue e a old b fresh) ::
      (restNodes e old ++ leafNodes hashValue fresh), Stored cryptoHash db node)
    (fits : ∀ c, branch c ∈ branch (forkNode cryptoHash hashValue e a old b fresh) ::
      (restNodes e old ++ leafNodes hashValue fresh) → fit c)
    (there : (branch (forkNode cryptoHash hashValue e a old b fresh)).calcHash cryptoHash ≠ 0) :
    Closed fit db ((branch (forkNode cryptoHash hashValue e a old b fresh)).calcHash cryptoHash) := by
  have smallA : a < 16 := smallOld a (by simp)
  have smallB : b < 16 := smallFresh b (by simp)
  refine closed_branch (stored _ (by simp)) (fits _ (by simp)) (fun m => ?_) there
  rw [getValueHash_forkNode cryptoHash hashValue e a b m smallA smallB parted,
    getNextHash_forkNode cryptoHash hashValue e a b m smallA smallB parted]
  by_cases atA : m = a
  · rw [if_pos atA, if_pos atA]
    by_cases done : old = []
    · rw [if_pos done, if_pos done]
      exact ends
    · rw [if_neg done, if_neg done, restHash, if_neg done]
      have mem : restNode e old ∈ restNodes e old ++ leafNodes hashValue fresh := by simp [restNodes, done]
      refine ⟨fun linked => ?_, fun linked => absurd rfl linked⟩
      exact closed_edgeNode (edgeNode_restNode e old smallOld.tail) (stored _ (mem_cons_of_mem _ mem)) done
        (fun c same => fits c (mem_cons_of_mem _ (same ▸ mem))) ends linked
  · rw [if_neg atA, if_neg atA]
    by_cases atB : m = b
    · rw [if_pos atB, if_pos atB]
      by_cases done : fresh = []
      · rw [if_pos done, if_pos done]
        exact ⟨fun linked => absurd rfl linked, held⟩
      · rw [if_neg done, if_neg done, leafHash, if_neg done]
        have mem : leafNode hashValue fresh ∈ restNodes e old ++ leafNodes hashValue fresh := by
          simp [leafNodes, done]
        refine ⟨fun linked => ?_, fun linked => absurd rfl linked⟩
        exact closed_edgeNode (edgeNode_leafNode hashValue fresh smallFresh.tail)
          (stored _ (mem_cons_of_mem _ mem)) done
          (fun c same => fits c (mem_cons_of_mem _ (same ▸ mem)))
          ⟨fun linked => absurd rfl linked, held⟩ linked
    · rw [if_neg atB, if_neg atB]
      exact edgeClosed_zero

/-- The rebuilt subtrie is closed when its branches are fit and its value is stored. -/
theorem Rebuilds.closed (included : Included db db') (sound : ∀ b, fit b → b.Sound) {h top : Hash} {key : Bytes}
    {nodes : List (TrieValue Hash)} (rebuilds : Rebuilds cryptoHash hashValue db h key nodes top)
    (closed : Closed fit db h) (small : Nibbles key) (stored : ∀ node ∈ nodes, Stored cryptoHash db' node)
    (room : ∀ b, branch b ∈ nodes → b.Roomy) (fits : ∀ b, branch b ∈ nodes → fit b)
    (held : hashValue ≠ 0 → HoldsValue db' hashValue) (present : top ≠ 0) : Closed fit db' top := by
  have leaf : ∀ rest, rest ≠ [] → Nibbles rest → Stored cryptoHash db' (leafNode hashValue rest) →
      (∀ b, leafNode hashValue rest = .branch b → fit b) → (leafNode hashValue rest).calcHash cryptoHash ≠ 0 →
      Closed fit db' ((leafNode hashValue rest).calcHash cryptoHash) := by
    intro rest more smallRest kept good linked
    exact closed_edgeNode (edgeNode_leafNode hashValue rest smallRest) kept more good
      ⟨fun linked => absurd rfl linked, held⟩ linked
  induction rebuilds with
  | @branchValue h b n node found made =>
    subst made
    obtain ⟨fine, edges⟩ := closed.at_branch found
    refine closed_branch (stored _ (by simp)) (fits _ (by simp)) (fun m => ?_) present
    rw [b.getValueHash_setValueHash (sound b fine) n m hashValue (small n (by simp)) (room _ (by simp)),
      getNextHash_setValueHash]
    have old := (edges m).mono included
    split_ifs
    · exact ⟨old.next, held⟩
    · exact old
  | @branchNext h below b n rest nodes node found linked more lower made ih =>
    subst made
    obtain ⟨fine, edges⟩ := closed.at_branch found
    refine closed_branch (stored _ (by simp)) (fits _ (by simp)) (fun m => ?_) present
    rw [b.getNextHash_setNextHash (sound b fine) n m below (small n (by simp)) (room _ (by simp)),
      getValueHash_setNextHash]
    have old := (edges m).mono included
    split_ifs
    · exact ⟨fun there => ih ((edges n).next linked) small.tail (fun node i => stored node (by simp [i]))
        (fun b i => room b (by simp [i])) (fun b i => fits b (by simp [i])) there, old.value⟩
    · exact old
  | @branchLeaf h b n rest node found free more made =>
    subst made
    obtain ⟨fine, edges⟩ := closed.at_branch found
    refine closed_branch (stored _ (by simp)) (fits _ (by simp)) (fun m => ?_) present
    rw [b.getNextHash_setNextHash (sound b fine) n m _ (small n (by simp)) (room _ (by simp)),
      getValueHash_setNextHash]
    have old := (edges m).mono included
    split_ifs
    · exact ⟨leaf rest more small.tail (stored _ (by simp)) (fun c same => fits c (by simp [same])), old.value⟩
    · exact old
  | @extensionValue h e key node found whole made =>
    subst made
    obtain ⟨keyed, edge⟩ := closed.at_extension found
    have old := edge.mono included
    refine closed_extension (stored _ (by simp)) (by simpa using keyed) ?_ present
    simpa using ⟨old.next, held⟩
  | @extensionNext h below e key rest nodes node found linked more whole lower made ih =>
    subst made whole
    obtain ⟨keyed, edge⟩ := closed.at_extension found
    have old := edge.mono included
    refine closed_extension (stored _ (by simp)) (by simpa using keyed) ?_ present
    rw [TrieExtension.getNextHash_setNextHash, TrieExtension.getValueHash_setNextHash]
    exact ⟨fun there => ih (edge.next linked) small.right (fun node i => stored node (by simp [i]))
        (fun b i => room b (by simp [i])) (fun b i => fits b (by simp [i])) there, old.value⟩
  | @extensionLeaf h e key rest node found free more whole made =>
    subst made whole
    obtain ⟨keyed, edge⟩ := closed.at_extension found
    have old := edge.mono included
    refine closed_extension (stored _ (by simp)) (by simpa using keyed) ?_ present
    rw [TrieExtension.getNextHash_setNextHash, TrieExtension.getValueHash_setNextHash]
    exact ⟨leaf rest more small.right (stored _ (by simp)) (fun c same => fits c (by simp [same])), old.value⟩
  | @fork h e a b old fresh node found whole parted made =>
    subst made
    obtain ⟨keyed, edge⟩ := closed.at_extension found
    exact closed_fork e a b old fresh (whole ▸ e.nibbles_getKey) small parted
      (edge.mono included) held stored fits present
  | @prefixEnd h e common old node found whole begun more made =>
    subst made
    obtain ⟨keyed, edge⟩ := closed.at_extension found
    have smallOld : Nibbles old := (whole ▸ e.nibbles_getKey : Nibbles (common ++ old)).right
    refine closed_edgeNode (edgeNode_prefixEnd hashValue _ common small) (stored _ (by simp)) begun
      (fun c same => fits c (by simp [same])) ⟨fun linked => ?_, held⟩ present
    exact closed_edgeNode (edgeNode_restNode e old smallOld) (stored _ (by simp)) more
      (fun c same => fits c (by simp [same])) (edge.mono included) linked
  | @prefixFork h stale e a b key common old fresh node lower found whole begun parted whole' below made =>
    subst made below whole'
    obtain ⟨keyed, edge⟩ := closed.at_extension found
    have smallOld : Nibbles (a :: old) := (whole ▸ e.nibbles_getKey : Nibbles (common ++ a :: old)).right
    refine closed_edgeNode (edgeNode_prefixFork stale _ common small.left) (stored _ (by simp)) begun
      (fun c same => fits c (by simp [same])) ⟨fun linked => ?_, fun linked => absurd rfl linked⟩ present
    exact closed_fork e a b old fresh smallOld small.right parted (edge.mono included) held
      (fun node i => stored node (mem_cons_of_mem _ i)) (fun c i => fits c (mem_cons_of_mem _ i)) linked

end Closing

section Tables

def Fine (b : TrieBranch Hash) : Prop := b.Sound ∧ b.Tight

def Spacious (b : TrieBranch Hash) : Prop := b.Sound ∧ b.Roomy

omit [DecidableEq Hash] [Zero Hash] in
theorem fine_new : Fine (.new : TrieBranch Hash) := ⟨sound_new, tight_new⟩

section
variable {b : TrieBranch Hash} (fine : Fine b)
include fine

omit [DecidableEq Hash] [Zero Hash] in
theorem Fine.roomy : b.Roomy := b.roomy_of_tight fine.1 fine.2

omit [DecidableEq Hash] [Zero Hash] in
theorem Fine.spacious : Spacious b := ⟨fine.1, fine.roomy⟩

theorem Fine.setNextHash (n : UInt8) (small : n < 16) (hash : Hash)
    (kept : hash ≠ 0 ∨ b.nextSlots.position n.toNat = 0) : Fine (b.setNextHash n hash) := by
  have room := fine.roomy
  have few := SlotTable.tight_length fine.2.1
  have grown := b.branchNext_length_set_le n hash
  simp only [nextSlots, fine.1.nextWidth] at few
  exact ⟨b.sound_setNextHash fine.1 small ⟨by omega, by simpa using room.2⟩,
    b.tight_setNextHash fine.1 fine.2 small kept⟩

theorem Fine.setValueHash (n : UInt8) (small : n < 16) (hash : Hash)
    (kept : hash ≠ 0 ∨ b.valueSlots.position n.toNat = 0) : Fine (b.setValueHash n hash) := by
  rw [← swap_setNextHash]
  obtain ⟨sound, tight⟩ := Fine.setNextHash (b := b.swap) ⟨fine.1.swap, fine.2.symm⟩ n small hash kept
  exact ⟨sound.swap, tight.symm⟩

end

omit [DecidableEq Hash] [Zero Hash] in
private theorem vacant_new (n : Nat) : (new : TrieBranch Hash).nextSlots.position n = 0 ∧
    (new : TrieBranch Hash).valueSlots.position n = 0 :=
  ⟨SlotTable.position_empty 16 n, SlotTable.position_empty 16 n⟩

theorem fine_keepNext (n : UInt8) (small : n < 16) (hash : Hash) : Fine (keepNext .new n hash) := by
  unfold keepNext
  split_ifs with absent
  · exact fine_new
  · exact fine_new.setNextHash n small hash (Or.inl absent)

theorem fine_leafNode (key : Bytes) (small : Nibbles key) (b : TrieBranch Hash)
    (made : leafNode hashValue key = .branch b) : Fine b := by
  unfold leafNode at made
  split at made
  next n =>
    cases made
    exact fine_new.setValueHash n (small n (by simp)) hashValue (Or.inr (vacant_new _).2)
  next => cases made

private theorem fine_links (n : UInt8) (small : n < 16) (next value : Hash) :
    Fine ((new.setNextHash n next).setValueHash n value) := by
  refine (fine_new.setNextHash n small next (Or.inr (vacant_new _).1)).setValueHash n small value (Or.inr ?_)
  rw [valueSlots_setNextHash]
  exact (vacant_new _).2

variable (e : TrieExtension Hash)

theorem fine_restNode (key : Bytes) (small : Nibbles key) (b : TrieBranch Hash) (made : restNode e key = .branch b)
    : Fine b := by
  unfold restNode at made
  split at made
  next n =>
    cases made
    exact fine_links n (small n (by simp)) _ _
  next => cases made

theorem fine_ends (old fresh : Bytes) (smallOld : Nibbles old) (smallFresh : Nibbles fresh) (b : TrieBranch Hash)
    (mem : branch b ∈ restNodes e old ++ leafNodes hashValue fresh) : Fine b := by
  rcases mem_append.mp mem with inOld | inFresh
  · unfold restNodes at inOld
    split_ifs at inOld
    · cases inOld
    · exact fine_restNode e old smallOld b (mem_singleton.mp inOld).symm
  · unfold leafNodes at inFresh
    split_ifs at inFresh
    · cases inFresh
    · exact fine_leafNode fresh smallFresh b (mem_singleton.mp inFresh).symm

theorem fine_prefixEnd (below : Hash) (common : Bytes) (small : Nibbles common) (b : TrieBranch Hash)
    (made : prefixEnd hashValue common below = .branch b) : Fine b := by
  unfold prefixEnd at made
  split at made
  next c =>
    cases made
    refine (fine_keepNext c (small c (by simp)) below).setValueHash c (small c (by simp)) hashValue (Or.inr ?_)
    unfold keepNext
    split_ifs
    · exact (vacant_new _).2
    · rw [valueSlots_setNextHash]
      exact (vacant_new _).2
  next => cases made

theorem fine_forkOld (a : UInt8) (small : a < 16) (old : Bytes) :
    Fine (forkOld cryptoHash e a old) := by
  unfold forkOld
  split_ifs
  · exact fine_links a small _ _
  · exact fine_keepNext a small _

section
variable {P : TrieBranch Hash → Prop} {nodes : List (TrieValue Hash)} (rest : ∀ b, branch b ∈ nodes → P b)
include rest

omit [DecidableEq Hash] [Zero Hash] in
private theorem branches_cons {c : TrieBranch Hash} (here : P c) : ∀ b, branch b ∈ branch c :: nodes → P b := by
  simp only [mem_cons, TrieValue.branch.injEq, forall_eq_or_imp]
  exact ⟨here, rest⟩

omit [DecidableEq Hash] [Zero Hash] in
private theorem branches_node {node : TrieValue Hash} (here : ∀ b, node = .branch b → P b) :
    ∀ b, branch b ∈ node :: nodes → P b := by
  intro b mem
  rcases mem_cons.mp mem with same | mem
  · exact here b same.symm
  · exact rest b mem

end

/-- How a branch of a rebuilt path comes about: one slot of a branch on the old path is
written, or the branch is new and small. -/
inductive Remade (cryptoHash : TrieValue Hash → Hash) (hashValue : Hash) (fit : TrieBranch Hash → Prop) :
    TrieBranch Hash → Prop where
  | value {c : TrieBranch Hash} {n : UInt8} (fits : fit c) (small : n < 16) :
      Remade cryptoHash hashValue fit (c.setValueHash n hashValue)
  | next {c : TrieBranch Hash} {n : UInt8} (below : Hash) (fits : fit c) (small : n < 16)
      (linked : c.getNextHash n ≠ 0) : Remade cryptoHash hashValue fit (c.setNextHash n below)
  | leaf {c : TrieBranch Hash} {n : UInt8} {rest : Bytes} (fits : fit c) (small : n < 16) (tail : Nibbles rest) :
      Remade cryptoHash hashValue fit (c.setNextHash n ((leafNode hashValue rest).calcHash cryptoHash))
  | fresh {b : TrieBranch Hash} (spacious : Spacious b) : Remade cryptoHash hashValue fit b

theorem spacious_forkNode {a c : UInt8} (smallA : a < 16) (smallC : c < 16) (old fresh : Bytes)
    : Spacious (forkNode cryptoHash hashValue e a old c fresh) := by
  have short := short_forkNode cryptoHash hashValue e smallA smallC old fresh
  exact ⟨short.1, short.roomy (by omega)⟩

section
variable {h top : Hash} {key : Bytes} {nodes : List (TrieValue Hash)}

theorem Rebuilds.remade (rebuilds : Rebuilds cryptoHash hashValue db h key nodes top) (closed : Closed fit db h)
    (small : Nibbles key) : ∀ b, branch b ∈ nodes → Remade cryptoHash hashValue fit b := by
  have leaf : ∀ rest, Nibbles rest → ∀ b, leafNode hashValue rest = .branch b → Remade cryptoHash hashValue fit b :=
    fun rest smallRest b made => .fresh (fine_leafNode rest smallRest b made).spacious
  induction rebuilds with
  | @branchValue h c n node found made =>
    subst made
    exact branches_cons (by simp) (.value (closed.at_branch found).1 (small n (by simp)))
  | @branchNext h below c n rest nodes node found linked more lower made ih =>
    subst made
    obtain ⟨fits, edges⟩ := closed.at_branch found
    exact branches_cons (ih ((edges n).next linked) small.tail) (.next below fits (small n (by simp)) linked)
  | @branchLeaf h c n rest node found free more made =>
    subst made
    exact branches_cons (branches_node (by simp) (leaf rest small.tail))
      (.leaf (closed.at_branch found).1 (small n (by simp)) small.tail)
  | @extensionValue h e key node found whole made =>
    subst made
    simp
  | @extensionNext h below e key rest nodes node found linked more whole lower made ih =>
    subst made whole
    exact branches_node (ih ((closed.at_extension found).2.next linked) small.right) (by simp)
  | @extensionLeaf h e key rest node found free more whole made =>
    subst made whole
    exact branches_node (branches_node (by simp) (leaf rest small.right)) (by simp)
  | @fork h e a c old fresh node found whole parted made =>
    subst made
    have smallOld : Nibbles (a :: old) := whole ▸ e.nibbles_getKey
    exact branches_cons (fun b ends => .fresh (fine_ends e old fresh smallOld.tail small.tail b ends).spacious)
      (.fresh (spacious_forkNode e (smallOld a (by simp)) (small c (by simp)) old fresh))
  | @prefixEnd h e common old node found whole begun more made =>
    subst made
    have smallOld : Nibbles old := (whole ▸ e.nibbles_getKey : Nibbles (common ++ old)).right
    exact branches_node (branches_node (by simp) fun b made => .fresh (fine_restNode e old smallOld b made).spacious)
      fun b made => .fresh (fine_prefixEnd _ common small b made).spacious
  | @prefixFork h stale e a c key common old fresh node lower found whole begun parted whole' below made =>
    subst made below whole'
    have smallOld : Nibbles (a :: old) := (whole ▸ e.nibbles_getKey : Nibbles (common ++ a :: old)).right
    refine branches_node (branches_cons (fun b ends => ?_) ?_) fun b made => ?_
    · exact .fresh (fine_ends e old fresh smallOld.tail small.right.tail b ends).spacious
    · exact .fresh (spacious_forkNode e (smallOld a (by simp)) (small.right c (by simp)) old fresh)
    · unfold Trie.prefixFork at made
      split at made
      next d =>
        cases made
        have smallD : d < 16 := small d (by simp)
        have short (below : Hash) := (short_keepNext smallD stale).setNextHash (by omega) d smallD below
        exact .fresh ⟨(short _).1, (short _).roomy (by omega)⟩
      next => cases made

/-- Frames keep sound branches sound as long as the tables fit; new branches are small. -/
theorem Rebuilds.sound (good : ∀ b, fit b → b.Sound) (rebuilds : Rebuilds cryptoHash hashValue db h key nodes top)
    (closed : Closed fit db h) (small : Nibbles key) (b : TrieBranch Hash) (mem : branch b ∈ nodes) (room : b.Roomy)
    : b.Sound := by
  cases rebuilds.remade closed small b mem with
  | @value c n fits smallN => exact c.sound_setValueHash (good c fits) smallN room
  | @next c n below fits smallN linked => exact c.sound_setNextHash (good c fits) smallN room
  | @leaf c n rest fits smallN tail => exact c.sound_setNextHash (good c fits) smallN room
  | fresh spacious => exact spacious.1

end

end Tables

section Inserting

section
variable (nonzero : NonzeroHash cryptoHash)
include nonzero

theorem EdgeNode.calcHash_ne_zero {node : TrieValue Hash} {edge : Bytes} {v h : Hash} (shape : EdgeNode node edge v h)
    (content : v ≠ 0 ∨ h ≠ 0) : node.calcHash cryptoHash ≠ 0 := by
  apply Trie.calcHash_ne_zero cryptoHash nonzero
  cases shape with
  | extension whole value next =>
    rw [hasValue_extension, value, next]
    exact content.symm
  | @branch b n v h value next =>
    rw [hasValue_branch]
    refine ⟨n, ?_⟩
    rw [value, next, if_pos rfl, if_pos rfl]
    exact content.symm

theorem branch_calcHash_ne_zero (b : TrieBranch Hash) (n : UInt8)
    (content : b.getNextHash n ≠ 0 ∨ b.getValueHash n ≠ 0) :
    (branch b).calcHash cryptoHash ≠ 0 :=
  calcHash_ne_zero cryptoHash nonzero _ ((hasValue_branch b).mpr ⟨n, content⟩)

private theorem fine_fork (inserted : hashValue ≠ 0) (e : TrieExtension Hash) (a c : UInt8) (old fresh : Bytes)
    (smallA : a < 16) (smallFresh : Nibbles (c :: fresh)) (parted : a ≠ c) :
    Fine (forkNode cryptoHash hashValue e a old c fresh) ∧
      (branch (forkNode cryptoHash hashValue e a old c fresh)).calcHash cryptoHash ≠ 0 := by
  have smallC : c < 16 := smallFresh c (by simp)
  have old' : Fine (forkOld cryptoHash e a old) := fine_forkOld e a smallA old
  have leaf : leafHash cryptoHash hashValue fresh ≠ 0 := by
    unfold leafHash
    split_ifs
    · exact inserted
    · exact (edgeNode_leafNode hashValue fresh smallFresh.tail).calcHash_ne_zero nonzero (Or.inl inserted)
  constructor
  · unfold forkNode linkLeaf
    split_ifs
    · exact old'.setValueHash c smallC _ (Or.inl inserted)
    · exact old'.setNextHash c smallC _ (Or.inl leaf)
  · apply branch_calcHash_ne_zero nonzero _ c
    rw [getNextHash_forkNode cryptoHash hashValue e a c c smallA smallC parted,
      getValueHash_forkNode cryptoHash hashValue e a c c smallA smallC parted]
    simp only [Ne.symm parted, if_false, if_true]
    by_cases done : fresh = []
    · exact Or.inr (by simpa [done] using inserted)
    · exact Or.inl (by simpa [done] using leaf)

/-- Writing a value that is not empty releases no slot anywhere on the path. -/
theorem Rebuilds.fine (inserted : hashValue ≠ 0) {h top : Hash} {key : Bytes} {nodes : List (TrieValue Hash)}
    (rebuilds : Rebuilds cryptoHash hashValue db h key nodes top) (closed : Closed Fine db h) (small : Nibbles key)
    : (∀ b, branch b ∈ nodes → Fine b) ∧ top ≠ 0 := by
  have leaf : ∀ rest, Nibbles rest → (leafNode hashValue rest).calcHash cryptoHash ≠ 0 := fun rest smallRest =>
    (edgeNode_leafNode hashValue rest smallRest).calcHash_ne_zero nonzero (Or.inl inserted)
  induction rebuilds with
  | @branchValue h c n node found made =>
    subst made
    obtain ⟨fine, edges⟩ := closed.at_branch found
    have smallN : n < 16 := small n (by simp)
    have after := fine.setValueHash n smallN hashValue (Or.inl inserted)
    refine ⟨branches_cons (by simp) after, branch_calcHash_ne_zero nonzero _ n (Or.inr ?_)⟩
    rw [c.getValueHash_setValueHash fine.1 n n hashValue smallN after.roomy, if_pos rfl]
    exact inserted
  | @branchNext h below c n rest nodes node found linked more lower made ih =>
    subst made
    obtain ⟨fine, edges⟩ := closed.at_branch found
    have smallN : n < 16 := small n (by simp)
    obtain ⟨fineBelow, there⟩ := ih ((edges n).next linked) small.tail
    have after := fine.setNextHash n smallN below (Or.inl there)
    refine ⟨branches_cons fineBelow after, branch_calcHash_ne_zero nonzero _ n (Or.inl ?_)⟩
    rw [c.getNextHash_setNextHash fine.1 n n below smallN after.roomy, if_pos rfl]
    exact there
  | @branchLeaf h c n rest node found free more made =>
    subst made
    obtain ⟨fine, edges⟩ := closed.at_branch found
    have smallN : n < 16 := small n (by simp)
    have after := fine.setNextHash n smallN _ (Or.inl (leaf rest small.tail))
    refine ⟨branches_cons (branches_node (by simp) (fine_leafNode rest small.tail)) after,
      branch_calcHash_ne_zero nonzero _ n (Or.inl ?_)⟩
    rw [c.getNextHash_setNextHash fine.1 n n _ smallN after.roomy, if_pos rfl]
    exact leaf rest small.tail
  | @extensionValue h e key node found whole made =>
    subst made
    refine ⟨by simp, calcHash_ne_zero cryptoHash nonzero _ ?_⟩
    simp [hasValue_extension, inserted]
  | @extensionNext h below e key rest nodes node found linked more whole lower made ih =>
    subst made whole
    obtain ⟨keyed, edge⟩ := closed.at_extension found
    obtain ⟨fineBelow, there⟩ := ih (edge.next linked) small.right
    refine ⟨branches_node fineBelow (by simp), calcHash_ne_zero cryptoHash nonzero _ ?_⟩
    simp [hasValue_extension, there]
  | @extensionLeaf h e key rest node found free more whole made =>
    subst made whole
    refine ⟨branches_node (branches_node (by simp) (fine_leafNode rest small.right)) (by simp),
      calcHash_ne_zero cryptoHash nonzero _ ?_⟩
    simp [hasValue_extension, leaf rest small.right]
  | @fork h e a c old fresh node found whole parted made =>
    subst made
    have smallOld : Nibbles (a :: old) := whole ▸ e.nibbles_getKey
    obtain ⟨fine, there⟩ := fine_fork nonzero inserted e a c old fresh (smallOld a (by simp)) small parted
    exact ⟨branches_cons (fine_ends e old fresh smallOld.tail small.tail) fine, there⟩
  | @prefixEnd h e common old node found whole begun more made =>
    subst made
    have smallOld : Nibbles old := (whole ▸ e.nibbles_getKey : Nibbles (common ++ old)).right
    exact ⟨branches_node (branches_node (by simp) (fine_restNode e old smallOld)) (fine_prefixEnd _ common small),
      (edgeNode_prefixEnd hashValue _ common small).calcHash_ne_zero nonzero (Or.inl inserted)⟩
  | @prefixFork h stale e a c key common old fresh node lower found whole begun parted whole' below made =>
    subst made below whole'
    have smallOld : Nibbles (a :: old) := (whole ▸ e.nibbles_getKey : Nibbles (common ++ a :: old)).right
    obtain ⟨fine, there⟩ :=
      fine_fork nonzero inserted e a c old fresh (smallOld a (by simp)) small.right parted
    refine ⟨branches_node (branches_cons (fine_ends e old fresh smallOld.tail small.right.tail) fine) fun b made => ?_,
      (edgeNode_prefixFork stale _ common small.left).calcHash_ne_zero nonzero (Or.inr there)⟩
    unfold Trie.prefixFork at made
    split at made
    next d =>
      cases made
      have smallD : d < 16 := small d (by simp)
      exact (fine_keepNext d smallD stale).setNextHash d smallD _ (Or.inl there)
    next => cases made

end

end Inserting

section Deleting

theorem EdgeNode.calcHash_eq_zero {node : TrieValue Hash} {edge : Bytes} (shape : EdgeNode node edge 0 0) :
    node.calcHash cryptoHash = 0 := by
  unfold calcHash
  rw [if_neg]
  cases shape with
  | extension whole value next => simp [hasValue_extension, value, next]
  | branch value next => simp [hasValue_branch, value, next]

theorem Rebuilds.roomy_of_delete {h top : Hash} {key : Bytes} {nodes : List (TrieValue Hash)}
    (rebuilds : Rebuilds cryptoHash 0 db h key nodes top) (closed : Closed Spacious db h) (small : Nibbles key)
    (b : TrieBranch Hash) (mem : branch b ∈ nodes) : b.Roomy := by
  cases rebuilds.remade closed small b mem with
  | @value c n fits smallN => exact fits.2.setValueHash n 0 (Or.inl rfl)
  | @next c n below fits smallN linked => exact fits.2.setNextHash n below (Or.inr linked)
  | @leaf c n rest fits smallN tail =>
    exact fits.2.setNextHash n _ (Or.inl (edgeNode_leafNode 0 rest tail).calcHash_eq_zero)
  | fresh spacious => exact spacious.2

end Deleting
end HashAhead.Trie
