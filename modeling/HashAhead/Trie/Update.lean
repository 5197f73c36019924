import HashAhead.Trie.Rebuild

/-! One update and the pending cache. `addNode_cases` says everything that `AddNode` can
do; every node it writes lies under its own hash. -/

namespace HashAhead.Trie
open Foundation List Option Function
variable {Hash : Type} [DecidableEq Hash] [Zero Hash] (cryptoHash : TrieValue Hash → Hash)

section Genuine

def Genuine (node : TrieValue Hash) (h : Hash) : Prop :=
  h ≠ 0 ∧ node.calcHash cryptoHash = h ∧ Keyed node

theorem genuine_unique (collisionless : Collisionless cryptoHash) (node other : TrieValue Hash) (h : Hash)
    (first : Genuine cryptoHash node h) (second : Genuine cryptoHash other h) : node = other := by
  obtain ⟨nonzero, addressed, _⟩ := first
  obtain ⟨_, addressed', _⟩ := second
  apply collisionless
  rw [← calcHash_eq cryptoHash (addressed ▸ nonzero), ← calcHash_eq cryptoHash (addressed' ▸ nonzero),
    addressed, addressed']

variable (held : Hash)

theorem keyed_leafNode {key : Bytes} (more : key ≠ []) (small : Nibbles key) :
    Keyed (leafNode held key) := by
  unfold leafNode
  split
  · trivial
  · simpa [Keyed, TrieExtension.getKey_setKey _ _ small] using more

theorem keyed_restNode (e : TrieExtension Hash) {key : Bytes} (more : key ≠ []) (small : Nibbles key) :
    Keyed (restNode e key) := by
  unfold restNode
  split
  · trivial
  · simpa [Keyed, TrieExtension.getKey_setKey _ _ small] using more

theorem keyed_prefixEnd (below : Hash) (common : Bytes) (begun : common ≠ []) (small : Nibbles common) :
    Keyed (prefixEnd held common below) := by
  unfold prefixEnd
  split
  · trivial
  · split_ifs <;> simpa [Keyed, TrieExtension.getKey_setKey _ _ small] using begun

theorem keyed_ends {e : TrieExtension Hash} {old fresh : Bytes} (smallOld : Nibbles old) (smallFresh : Nibbles fresh)
    {node : TrieValue Hash} (mem : node ∈ restNodes e old ++ leafNodes held fresh) : Keyed node := by
  rcases mem_append.mp mem with inOld | inFresh
  · unfold restNodes at inOld
    split_ifs at inOld with done
    · cases inOld
    · rw [mem_singleton.mp inOld]
      exact keyed_restNode e done smallOld
  · unfold leafNodes at inFresh
    split_ifs at inFresh with done
    · cases inFresh
    · rw [mem_singleton.mp inFresh]
      exact keyed_leafNode held done smallFresh

section
variable {read : NodeStore Hash} {h top : Hash} {nodes : List (TrieValue Hash)}

theorem Rebuilds.keyed {cryptoHash : TrieValue Hash → Hash} {held : Hash}
    (genuine : Addressed (Genuine cryptoHash) read) {key : Bytes}
    (rebuilds : Rebuilds cryptoHash held read h key nodes top) (small : Nibbles key) :
    ∀ node ∈ nodes, Keyed node := by
  induction rebuilds with
  | branchValue found made =>
    subst made
    simp [Keyed]
  | branchNext found linked more lower made ih =>
    subst made
    rintro node (_ | ⟨_, mem⟩)
    · trivial
    · exact ih small.tail node mem
  | branchLeaf found free more made =>
    subst made
    simpa [Keyed] using keyed_leafNode held more small.tail
  | extensionValue found whole made =>
    subst made
    simpa [Keyed] using (genuine _ _ found).2.2
  | extensionNext found linked more whole lower made ih =>
    subst made whole
    rintro node (_ | ⟨_, mem⟩)
    · simpa [Keyed] using (genuine _ _ found).2.2
    · exact ih small.right node mem
  | extensionLeaf found free more whole made =>
    subst made whole
    rintro node (_ | ⟨_, mem⟩)
    · simpa [Keyed] using (genuine _ _ found).2.2
    · rw [mem_singleton.mp mem]
      exact keyed_leafNode held more small.right
  | @fork h e a b old fresh node found whole parted made =>
    subst made
    rintro node (_ | ⟨_, mem⟩)
    · trivial
    · exact keyed_ends held (whole ▸ e.nibbles_getKey).tail small.tail mem
  | @prefixEnd h e common old node found whole begun more made =>
    subst made
    have smallOld : Nibbles old := (whole ▸ e.nibbles_getKey : Nibbles (common ++ old)).right
    rintro node (_ | ⟨_, mem⟩)
    · exact keyed_prefixEnd _ _ _ begun small
    · rw [mem_singleton.mp mem]
      exact keyed_restNode e more smallOld
  | @prefixFork h stale e a b key common old fresh node lower found whole begun parted whole' below made =>
    subst made below whole'
    have smallOld : Nibbles old := (whole ▸ e.nibbles_getKey : Nibbles (common ++ a :: old)).right.tail
    rintro node (_ | ⟨_, _ | ⟨_, mem⟩⟩)
    · unfold Trie.prefixFork
      split
      · trivial
      · simpa [Keyed, TrieExtension.getKey_setKey _ _ small.left] using begun
    · trivial
    · exact keyed_ends held smallOld small.right.tail mem

theorem Rebuilds.root_ne_zero {cryptoHash : TrieValue Hash → Hash} {held : Hash}
    (genuine : Addressed (Genuine cryptoHash) read) {key : Bytes}
    (rebuilds : Rebuilds cryptoHash held read h key nodes top) : h ≠ 0 := by
  cases rebuilds <;> exact (genuine _ _ (by assumption)).1

end

end Genuine

section Cache

def putNodes : List (TrieValue Hash) → NodeCache Hash → NodeCache Hash
  | [], mapCacheNode => mapCacheNode
  | node :: nodes, mapCacheNode => putNodes nodes
      (if node.calcHash cryptoHash ≠ 0 then mapCacheNode.insert (node.calcHash cryptoHash) node else mapCacheNode)

theorem cacheNodes_eq {entries : List (TrieKeyValue Hash)} {nodes : List (TrieValue Hash)}
    (hashed : Hashed cryptoHash entries nodes) (mapCacheNode : NodeCache Hash) :
    cacheNodes entries mapCacheNode = putNodes cryptoHash nodes mapCacheNode := by
  obtain ⟨rfl, hashes⟩ := hashed
  unfold cacheNodes
  induction entries generalizing mapCacheNode with
  | nil => rfl
  | cons kv entries ih =>
    simp only [map_cons, foldl_cons, putNodes]
    rw [hashes kv mem_cons_self]
    exact ih _ (fun other mem => hashes other (mem_cons_of_mem kv mem))

/-- The nodes that one update writes above its value, and the root that it returns. -/
inductive Writes (hashValue : Hash) (read : NodeStore Hash) (hashRoot : Hash) :
    Bytes → List (TrieValue Hash) → Hash → Prop where
  | replace : Writes hashValue read hashRoot [] [] hashValue
  | start {key : Bytes} (more : key ≠ []) (absent : read hashRoot = none) :
      Writes hashValue read hashRoot key [leafNode hashValue key] ((leafNode hashValue key).calcHash cryptoHash)
  | rebuild {key : Bytes} {nodes : List (TrieValue Hash)} {top : Hash} (more : key ≠ [])
      (rebuilds : Rebuilds cryptoHash hashValue read hashRoot key nodes top) :
      Writes hashValue read hashRoot key nodes top

def updateOutcome (db : NodeStore Hash) (cache : NodeCache Hash) (hashRoot : Hash) (key btValue : Bytes) :
    Option (Relinked Hash) :=
  (getNodePath db cache hashRoot key.length hashRoot key).bind fun found =>
    relink cryptoHash (valueEntry cryptoHash btValue).hashValue found.1

def rebuiltNodes (db : NodeStore Hash) (cache : NodeCache Hash) (hashRoot : Hash) (key btValue : Bytes) :
    List (TrieValue Hash) :=
  match updateOutcome cryptoHash db cache hashRoot key btValue with
  | some (.linked path _ _) => path.map TrieKeyValue.value
  | _ => []

/-- `AddNode` leaves everything as it is when the value is in place; otherwise it drops
the nodes it passed from the cache and adds the ones it wrote. -/
theorem addNode_cases (db : NodeStore Hash) (root newRoot : Hash) (key btValue : Bytes)
    (cache cache' : NodeCache Hash)
    (made : addNode cryptoHash db root key btValue cache = some (newRoot, cache')) :
    (newRoot = root ∧ cache' = cache ∧
      updateOutcome cryptoHash db cache root key btValue = some .unchanged ∧
      (TrieValue.value btValue).calcHash cryptoHash ≠ 0 ∧ key ≠ [] ∧
      ValueSlot (view db cache) root key ((TrieValue.value btValue).calcHash cryptoHash)) ∨
    ∃ entries fIsValue path vRemove, getNodePath db cache root key.length root key = some (path, vRemove) ∧
      updateOutcome cryptoHash db cache root key btValue = some (.linked entries newRoot fIsValue) ∧
      Hashed cryptoHash (entries ++ [valueEntry cryptoHash btValue])
        (rebuiltNodes cryptoHash db cache root key btValue ++ [.value btValue]) ∧
      cache' = putNodes cryptoHash (rebuiltNodes cryptoHash db cache root key btValue ++ [.value btValue])
        (vRemove.foldl (fun cache hash => cache.erase hash) cache) ∧
      Writes cryptoHash ((TrieValue.value btValue).calcHash cryptoHash) (view db cache) root key
        (rebuiltNodes cryptoHash db cache root key btValue) newRoot := by
  rcases found : getNodePath db cache root key.length root key with _ | ⟨path, vRemove⟩
  · simp [addNode, found] at made
  · have outcome : updateOutcome cryptoHash db cache root key btValue =
        relink cryptoHash ((TrieValue.value btValue).calcHash cryptoHash) path := by
      simp [updateOutcome, found, valueEntry, TrieKeyValue.calcValueHash]
    have value : Hashed cryptoHash [valueEntry cryptoHash btValue] [.value btValue] := by
      simp [Hashed, valueEntry, TrieKeyValue.calcValueHash]
    have cases : relink cryptoHash ((TrieValue.value btValue).calcHash cryptoHash) path = some .unchanged ∧
          (TrieValue.value btValue).calcHash cryptoHash ≠ 0 ∧ key ≠ [] ∧
          ValueSlot (view db cache) root key ((TrieValue.value btValue).calcHash cryptoHash) ∨
        ∃ nodes top fIsValue entries, relink cryptoHash ((TrieValue.value btValue).calcHash cryptoHash) path =
            some (.linked entries top fIsValue) ∧ Hashed cryptoHash entries nodes ∧
          Writes cryptoHash ((TrieValue.value btValue).calcHash cryptoHash) (view db cache) root key nodes top := by
      by_cases done : key = []
      · subst done
        simp only [getNodePath, Option.some.injEq, Prod.mk.injEq] at found
        obtain ⟨rfl, rfl⟩ := found
        exact Or.inr ⟨[], _, true, [], by simp [relink, relinkOld, relinkNew], Hashed.nil cryptoHash, .replace⟩
      · rcases seen : view db cache root with _ | node
        · -- an unreadable root starts a new trie
          have leaf : path = newNodePath key ∧ vRemove = [] := by
            obtain ⟨n, rest, rfl⟩ := exists_cons_of_ne_nil done
            have absent : getNodeValue db cache root = none := by simpa [view] using seen
            simpa [getNodePath, absent, eq_comm] using found
          obtain ⟨rfl, rfl⟩ := leaf
          obtain ⟨entries, linked, hashed⟩ :=
            relink_leaf cryptoHash ((TrieValue.value btValue).calcHash cryptoHash) key done
          exact Or.inr ⟨_, _, false, entries, linked, hashed, .start done seen⟩
        · rcases unchanged_or_rebuilds cryptoHash ((TrieValue.value btValue).calcHash cryptoHash) db cache root
            (by simp [seen]) key.length root key done path vRemove found with
            ⟨unchanged, nonzero, slot⟩ | ⟨nodes, top, ⟨entries, linked, hashed⟩, rebuilds⟩
          · exact Or.inl ⟨unchanged, nonzero, done, slot⟩
          · exact Or.inr ⟨nodes, top, false, entries, linked, hashed, .rebuild done rebuilds⟩
    simp only [addNode, found, valueEntry, TrieKeyValue.calcValueHash] at made
    rcases cases with ⟨unchanged, slot⟩ | ⟨nodes, top, fIsValue, entries, linked, hashed, writes⟩
    · simp only [unchanged, Option.some.injEq, Prod.mk.injEq] at made
      exact Or.inl ⟨made.1.symm, made.2.symm, by rw [outcome, unchanged], slot⟩
    · simp only [linked, Option.some.injEq, Prod.mk.injEq] at made
      obtain ⟨rfl, rfl⟩ := made
      have built : rebuiltNodes cryptoHash db cache root key btValue = nodes := by
        simp [rebuiltNodes, outcome, linked, hashed.1]
      have whole : Hashed cryptoHash _ _ :=
        ⟨by rw [map_append, hashed.1, value.1], forall_mem_append.2 ⟨hashed.2, value.2⟩⟩
      rw [built]
      exact Or.inr ⟨entries, fIsValue, path, vRemove, rfl, by rw [outcome, linked], whole,
        cacheNodes_eq cryptoHash whole _, writes⟩

def pending (mapCacheNode : NodeCache Hash) : NodeStore Hash := fun h => mapCacheNode.lookup h

theorem view_zero (db : NodeStore Hash) (cache : NodeCache Hash) : view db cache 0 = none := by
  simp [view, getNodeValue]

theorem view_apply (db : NodeStore Hash) (cache : NodeCache Hash) {h : Hash} (present : h ≠ 0) :
    view db cache h = (pending cache h).or (db h) := by
  unfold view getNodeValue pending
  rw [if_neg present]
  split
  next found => simp [found]
  next missing => simp [missing, Option.map_map, comp_def]

omit [Zero Hash] in
theorem pending_insert (cache : NodeCache Hash) (h : Hash) (node : TrieValue Hash) :
    pending (cache.insert h node) = Function.update (pending cache) h (some node) := by
  funext other
  by_cases same : other = h
  · rw [same, update_self]
    exact AList.lookup_insert cache
  · rw [update_of_ne same]
    exact AList.lookup_insert_ne same

theorem addressed_putNodes {nodes : List (TrieValue Hash)} (keyed : ∀ node ∈ nodes, Keyed node)
    {cache : NodeCache Hash} (genuine : Addressed (Genuine cryptoHash) (pending cache)) :
    Addressed (Genuine cryptoHash) (pending (putNodes cryptoHash nodes cache)) := by
  induction nodes generalizing cache with
  | nil => exact genuine
  | cons node nodes ih =>
    rw [putNodes]
    apply ih (fun other mem => keyed other (mem_cons_of_mem node mem))
    split_ifs with content
    · rw [pending_insert]
      exact genuine.update ⟨content, rfl, keyed node mem_cons_self⟩
    · exact genuine

omit [Zero Hash] in
theorem pending_erase (vRemove : List Hash) (cache : NodeCache Hash) (h : Hash) :
    pending (vRemove.foldl (fun cache hash => cache.erase hash) cache) h =
      if h ∈ vRemove then none else pending cache h := by
  induction vRemove generalizing cache with
  | nil => simp
  | cons hash vRemove ih =>
    rw [foldl_cons, ih]
    by_cases later : h ∈ vRemove
    · simp [later]
    · by_cases same : h = hash
      · subst same
        simp [later, pending, AList.lookup_erase]
      · simp [later, same, pending, AList.lookup_erase_ne same]

section
variable {cache cache' : NodeCache Hash} {db : NodeStore Hash} {hashRoot newRoot : Hash} {key : Bytes}

theorem addressed_view (stored : Addressed (Genuine cryptoHash) db)
    (kept : Addressed (Genuine cryptoHash) (pending cache)) : Addressed (Genuine cryptoHash) (view db cache) := by
  intro h node read
  by_cases zero : h = 0
  · rw [zero, view_zero] at read
    cases read
  · rw [view_apply db cache zero, or_eq_some_iff] at read
    rcases read with pendingHere | ⟨_, storedHere⟩
    · exact kept h node pendingHere
    · exact stored h node storedHere

variable {cryptoHash} in
theorem addressed_zero (stored : Addressed (Genuine cryptoHash) db) : db 0 = none := by
  rw [eq_none_iff_forall_ne_some]
  intro node read
  exact (stored 0 node read).1 rfl

theorem Writes.keyed {held : Hash} {read : NodeStore Hash} {top : Hash} {nodes : List (TrieValue Hash)}
    (writes : Writes cryptoHash held read hashRoot key nodes top) (genuine : Addressed (Genuine cryptoHash) read)
    (small : Nibbles key) : ∀ node ∈ nodes, Keyed node := by
  cases writes with
  | replace => simp
  | start more absent => simpa using keyed_leafNode held more small
  | rebuild more rebuilds => exact rebuilds.keyed genuine small

section
variable (stored : Addressed (Genuine cryptoHash) db) (kept : Addressed (Genuine cryptoHash) (pending cache))
include stored kept

theorem addNode_genuine {btValue : Bytes} (small : Nibbles key)
    (made : addNode cryptoHash db hashRoot key btValue cache = some (newRoot, cache')) :
    Addressed (Genuine cryptoHash) (pending cache') := by
  rcases addNode_cases cryptoHash db hashRoot newRoot key btValue cache cache' made with
    ⟨_, rfl, _⟩ | ⟨_, _, path, vRemove, _, _, _, rfl, writes⟩
  · exact kept
  · refine addressed_putNodes _ (fun node mem => ?_) fun h node read => ?_
    · rcases mem_append.mp mem with above | value
      · exact writes.keyed cryptoHash (addressed_view cryptoHash stored kept) small node above
      · rw [mem_singleton.mp value]
        trivial
    · rw [pending_erase] at read
      split_ifs at read
      exact kept h node read

theorem createTrieNodeList_genuine {mapKvList : BytesMap}
    (made : createTrieNodeList cryptoHash db hashRoot mapKvList cache = some (newRoot, cache')) :
    Addressed (Genuine cryptoHash) (pending cache') := by
  induction mapKvList generalizing hashRoot cache with
  | nil =>
    cases made
    exact kept
  | cons kv mapKvList ih =>
    rw [createTrieNodeList] at made
    split at made
    · cases made
    next root middle added =>
      exact ih (addNode_genuine cryptoHash stored kept (nibbles_keyNibbles kv.1) added) made

end

end

end Cache

end HashAhead.Trie
