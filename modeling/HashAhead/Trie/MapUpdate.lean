import HashAhead.Trie.Shape
import HashAhead.Trie.Snapshot

/-! Single-entry updates as map updates: insertion and deletion change what `Retrieve`
returns at one key and nowhere else. -/

namespace HashAhead.Trie
open Foundation List Option Function TrieValue
variable {Hash : Type} [DecidableEq Hash] [Zero Hash] {cryptoHash : TrieValue Hash → Hash}

section Single

theorem view_of_included {db : NodeStore Hash} (stored : Addressed (Genuine cryptoHash) db) {cache : NodeCache Hash}
    (backed : Included (pending cache) db) : view db cache = db := by
  funext h
  by_cases zero : h = 0
  · rw [zero, view_zero, addressed_zero stored]
  · rw [view_apply db cache zero]
    rcases kept : pending cache h with _ | node
    · rfl
    · exact (backed h node kept).symm

omit [Zero Hash] in
theorem pending_empty_included (db : NodeStore Hash) : Included (pending ∅) db := fun h node kept => by
  cases (AList.lookup_empty h).symm.trans kept

theorem view_empty {db : NodeStore Hash} (stored : Addressed (Genuine cryptoHash) db) : view db ∅ = db :=
  view_of_included stored (pending_empty_included db)

/-- A node once cached stays, since a later one under its hash is the same node. -/
theorem putNodes_keeps (unique : Collisionless cryptoHash) (nodes : List (TrieValue Hash))
    {cache : NodeCache Hash} {node : TrieValue Hash} (content : node.calcHash cryptoHash ≠ 0)
    (found : pending cache (node.calcHash cryptoHash) = some node) :
    pending (putNodes cryptoHash nodes cache) (node.calcHash cryptoHash) = some node := by
  induction nodes generalizing cache with
  | nil => exact found
  | cons other nodes ih =>
    rw [putNodes]
    apply ih
    split_ifs with stored
    · rw [pending_insert]
      by_cases same : node.calcHash cryptoHash = other.calcHash cryptoHash
      · have equal : other = node := by
          apply unique
          rw [← calcHash_eq cryptoHash stored, ← calcHash_eq cryptoHash content, same]
        rw [equal, update_self]
      · rw [update_of_ne same]
        exact found
    · exact found

theorem pending_putNodes (unique : Collisionless cryptoHash) (nodes : List (TrieValue Hash))
    (cache : NodeCache Hash) (node : TrieValue Hash) (mem : node ∈ nodes) :
    Stored cryptoHash (pending (putNodes cryptoHash nodes cache)) node := by
  intro content
  induction nodes generalizing cache with
  | nil => cases mem
  | cons first nodes ih =>
    rw [putNodes]
    rcases mem_cons.mp mem with rfl | later
    · apply putNodes_keeps unique nodes content
      rw [if_pos content, pending_insert, update_self]
    · exact ih _ later

omit [Zero Hash] in
theorem setDbNodeValues_eq (takes : Hash → Bool) {entries : List ((_ : Hash) × TrieValue Hash)}
    (distinct : entries.NodupKeys) (db : NodeStore Hash) (saved : (setDbNodeValues takes entries db).1 = true) (h : Hash) :
    (setDbNodeValues takes entries db).2 h = (entries.dlookup h).or (db h) := by
  induction entries generalizing db with
  | nil => rfl
  | cons entry entries ih =>
    obtain ⟨fresh, distinct⟩ := nodupKeys_cons.mp distinct
    rw [setDbNodeValues] at saved ⊢
    split_ifs at saved ⊢
    rw [ih distinct _ saved]
    by_cases same : h = entry.1
    · rw [same, dlookup_eq_none.mpr fresh, dlookup_cons_eq, update_self]
      rfl
    · rw [dlookup_cons_ne _ _ same, update_of_ne same]

theorem addNewTrie_view {takes : Hash → Bool} {db db' : NodeStore Hash} (stored : Addressed (Genuine cryptoHash) db)
    {hRoot newRoot : Hash} {kvs : BytesMap} (call : addNewTrie cryptoHash takes db hRoot kvs = (some newRoot, db')) :
    ∃ cache, createTrieNodeList cryptoHash db hRoot kvs ∅ = some (newRoot, cache) ∧ db' = view db cache := by
  unfold addNewTrie at call
  split at call
  · cases call
  next root cache made =>
    have kept := createTrieNodeList_genuine cryptoHash stored (addressed_empty _) made
    obtain ⟨accepted, rfl⟩ := Prod.mk.inj call
    split_ifs at accepted with saved
    cases accepted
    refine ⟨cache, made, funext fun h => ?_⟩
    have written : _ = (pending cache h).or (db h) := setDbNodeValues_eq takes cache.nodupKeys db saved h
    by_cases zero : h = 0
    · rw [zero, addressed_zero kept, addressed_zero stored] at written
      rw [zero, view_zero]
      exact written
    · rw [view_apply db cache zero]
      exact written

theorem addNode_of_single {db : NodeStore Hash} {hRoot newRoot : Hash} {k v : Bytes} {cache cache' : NodeCache Hash}
    (made : createTrieNodeList cryptoHash db hRoot [(k, v)] cache = some (newRoot, cache')) :
    addNode cryptoHash db hRoot (keyNibbles k) v cache = some (newRoot, cache') := by
  rw [createTrieNodeList] at made
  split at made
  · cases made
  next root middle added =>
    cases made
    exact added

theorem addNewTrie_single (unique : Collisionless cryptoHash) (takes : Hash → Bool)
    {db db' : NodeStore Hash} (stored : Addressed (Genuine cryptoHash) db) {hRoot newRoot : Hash} {k v : Bytes}
    (call : addNewTrie cryptoHash takes db hRoot [(k, v)] = (some newRoot, db')) :
    (newRoot = hRoot ∧ rebuiltNodes cryptoHash db ∅ hRoot (keyNibbles k) v = [] ∧
      (value v).calcHash cryptoHash ≠ 0 ∧
      ValueSlot db hRoot (keyNibbles k) ((value v).calcHash cryptoHash)) ∨
    (∀ node ∈ rebuiltNodes cryptoHash db ∅ hRoot (keyNibbles k) v ++ [.value v], Stored cryptoHash db' node) ∧
      Writes cryptoHash ((value v).calcHash cryptoHash) db hRoot (keyNibbles k)
        (rebuiltNodes cryptoHash db ∅ hRoot (keyNibbles k) v) newRoot := by
  obtain ⟨cache, made, rfl⟩ := addNewTrie_view stored call
  rcases addNode_cases cryptoHash db hRoot newRoot (keyNibbles k) v ∅ cache (addNode_of_single made) with
    ⟨unchanged, _, outcome, nonzero, _, slot⟩ | ⟨_, _, path, vRemove, _, _, _, cached, writes⟩
  · rw [view_empty stored] at slot
    exact Or.inl ⟨unchanged, by simp [rebuiltNodes, outcome], nonzero, slot⟩
  · rw [view_empty stored] at writes
    refine Or.inr ⟨fun node mem content => ?_, writes⟩
    rw [view_apply db cache content, cached, pending_putNodes unique _ _ node mem content]
    rfl

def TrieRoot (fit : TrieBranch Hash → Prop) (db : NodeStore Hash) (hashRoot : Hash) : Prop :=
  hashRoot ≠ 0 → Closed fit db hashRoot

section
variable {db db' : NodeStore Hash} {fit : TrieBranch Hash → Prop} {hRoot newRoot : Hash} {k v : Bytes}

/-- Overwriting a value link overwrites what a lookup returns. -/
theorem retrieve_overwrites (stored : Addressed (Genuine cryptoHash) db)
    (stored' : Addressed (Genuine cryptoHash) db') (within : Included db db') {leaf : Hash}
    (root : TrieRoot fit db hRoot) (held : leaf ≠ 0 → db' leaf = some (.value v))
    (slots : Overwrites (Below db hRoot) (Below db' newRoot) (keyNibbles k) leaf) (k' : Bytes)
    (more : k' ≠ []) :
    retrieve db' newRoot k' =
      if k' = k then (if leaf = 0 then none else some v) else retrieve db hRoot k' := by
  have keyed : ∀ h node, db h = some node → Keyed node := fun h node read => (stored h node read).2.2
  have keyed' : ∀ h node, db' h = some node → Keyed node := fun h node read => (stored' h node read).2.2
  apply Option.ext
  intro w
  rw [retrieve_iff db' keyed' newRoot more]
  by_cases same : k' = k
  · subst same
    rw [if_pos rfl]
    constructor
    · rintro ⟨x, there, below, read⟩
      rcases (slots _ x there).mp below with ⟨_, rfl⟩ | ⟨other, _⟩
      · rw [held there] at read
        cases read
        rw [if_neg there]
      · exact absurd rfl other
    · intro found
      split_ifs at found with zero
      cases found
      exact ⟨leaf, zero, (slots _ _ zero).mpr (Or.inl ⟨rfl, rfl⟩), held zero⟩
  · have other : keyNibbles k' ≠ keyNibbles k := fun equal => same (keyNibbles_injective equal)
    rw [if_neg same, retrieve_iff db keyed hRoot more]
    refine exists_congr fun x => and_congr_right fun there => ?_
    rw [slots _ x there]
    simp only [other, false_and, ne_eq, not_false_eq_true, true_and, false_or]
    refine and_congr_right fun below => ?_
    obtain ⟨u, value⟩ := (root below.1).holdsValue below.2 there
    rw [value, within x _ value]

theorem calcHash_value_ne_zero (nonzero : NonzeroHash cryptoHash) {v : Bytes} (full : v ≠ []) :
    (value v).calcHash cryptoHash ≠ 0 :=
  calcHash_ne_zero cryptoHash nonzero _ (by simpa [hasValue] using full)

@[simp] theorem calcHash_value_nil : (value [] : TrieValue Hash).calcHash cryptoHash = 0 := by
  simp [calcHash, hasValue]

section
variable (unique : Collisionless cryptoHash) (nonzero : NonzeroHash cryptoHash)
  (sound : ∀ b, fit b → b.Sound) (takes : Hash → Bool) (stored : Addressed (Genuine cryptoHash) db)
  (root : TrieRoot fit db hRoot) (more : k ≠ [])
  (call : addNewTrie cryptoHash takes db hRoot [(k, v)] = (some newRoot, db'))
  (room : ∀ b, branch b ∈ rebuiltNodes cryptoHash db ∅ hRoot (keyNibbles k) v → b.Roomy)
  (fits : ∀ b, branch b ∈ rebuiltNodes cryptoHash db ∅ hRoot (keyNibbles k) v → fit b)
include unique nonzero sound stored root more call room fits

theorem single_overwrites :
    Overwrites (Below db hRoot) (Below db' newRoot) (keyNibbles k) ((value v).calcHash cryptoHash) ∧
      TrieRoot fit db' newRoot := by
  have within : Included db db' := by
    have kept := (addNewTrie_keeps unique takes db stored hRoot [(k, v)]).2
    rwa [call] at kept
  have small := nibbles_keyNibbles k
  rcases addNewTrie_single unique takes stored call with
    ⟨rfl, _, present, slot⟩ | ⟨written, writes⟩
  · -- the value was in place and the key leads to nothing else
    obtain ⟨node, read, _⟩ := (valueSlot_iff _ _ _ _).mp slot
    have linked : newRoot ≠ 0 := (stored _ _ read).1
    refine ⟨fun k' x there => ?_, fun _ => (root linked).mono within⟩
    rw [below_same within root]
    by_cases same : k' = keyNibbles k
    · subst same
      constructor
      · exact fun below => Or.inl ⟨rfl, (root linked).valueSlot_unique below.2 slot⟩
      · rintro (⟨_, rfl⟩ | ⟨other, _⟩)
        · exact ⟨linked, slot⟩
        · exact absurd rfl other
    · simp [same]
  · have held : (value v).calcHash cryptoHash ≠ 0 →
        HoldsValue db' ((value v).calcHash cryptoHash) := fun content =>
      ⟨v, written (.value v) (by simp) content⟩
    have storedNodes : ∀ node ∈ rebuiltNodes cryptoHash db ∅ hRoot (keyNibbles k) v,
        Stored cryptoHash db' node := fun node mem => written node (mem_append_left _ mem)
    generalize rebuiltNodes cryptoHash db ∅ hRoot (keyNibbles k) v = nodes at writes storedNodes room fits
    generalize keyName : keyNibbles k = key at writes small
    have moreKey : key ≠ [] := by simpa [← keyName] using more
    cases writes with
    | replace => exact absurd rfl moreKey
    | start _ absent =>
      have empty : hRoot = 0 := by
        by_contra linked
        obtain ⟨node, read⟩ := (root linked).readable
        rw [absent] at read
        cases read
      rw [empty]
      refine ⟨overwrites_leaf nonzero small (storedNodes _ (by simp)), fun linked => ?_⟩
      exact closed_edgeNode (edgeNode_leafNode _ key small) (storedNodes _ (by simp)) moreKey
        (fun b same => fits b (by simp [same])) ⟨fun linked => absurd rfl linked, held⟩ linked
    | rebuild _ rebuilds =>
      have linked := rebuilds.root_ne_zero stored
      refine ⟨?_, rebuilds.closed within sound (root linked) small storedNodes room fits held⟩
      have slots := rebuilds.overwrites nonzero within sound (root linked) small storedNodes room
      intro k' x there
      rw [slots k' x there]
      simp [Below, linked]

theorem single_retrieve :
    ∀ k', k' ≠ [] → retrieve db' newRoot k' =
      if k' = k then (if v = [] then none else some v) else retrieve db hRoot k' := by
  obtain ⟨slots, _⟩ := single_overwrites unique nonzero sound takes stored root more call room fits
  obtain ⟨stored', within⟩ := addNewTrie_keeps unique takes db stored hRoot [(k, v)]
  rw [call] at stored' within
  have held : (value v).calcHash cryptoHash ≠ 0 →
      db' ((value v).calcHash cryptoHash) = some (.value v) := by
    intro content
    rcases addNewTrie_single unique takes stored call with ⟨_, _, _, slot⟩ | ⟨written, _⟩
    · obtain ⟨node, read, _⟩ := (valueSlot_iff _ _ _ _).mp slot
      obtain ⟨w, value⟩ := (root (stored _ _ read).1).holdsValue slot content
      have genuine := stored _ _ value
      have same : (.value w : TrieValue Hash) = .value v := by
        apply unique
        rw [← calcHash_eq cryptoHash (genuine.2.1 ▸ content), ← calcHash_eq cryptoHash content, genuine.2.1]
      rw [← same] at value ⊢
      exact within _ _ value
    · exact written (.value v) (by simp) content
  intro k' moreKey
  rw [retrieve_overwrites stored stored' within root held slots k' moreKey]
  by_cases empty : v = []
  · simp [empty]
  · simp [empty, calcHash_value_ne_zero nonzero empty]

end

variable {cache : NodeCache Hash}

/-- Adding an entry that is there returns the root. Only under the empty key a node is
cached, the value that the root is. -/
theorem addNode_of_retrieve (stored : Addressed (Genuine cryptoHash) db) (backed : Included (pending cache) db)
    (there : retrieve db hRoot k = some v) :
    ∃ cache', addNode cryptoHash db hRoot (keyNibbles k) v cache = some (hRoot, cache') ∧
      Included (pending cache') db := by
  have found : getKeyValue db (keyNibbles k).length hRoot (keyNibbles k) = some v := by
    unfold retrieve at there
    split_ifs at there
    exact there
  generalize keyNibbles k = key at found ⊢
  by_cases empty : key = []
  · subst empty
    have read : db hRoot = some (.value v) := by
      rw [getKeyValue] at found
      split at found <;> simp_all
    obtain ⟨linked, named, _⟩ := stored _ _ read
    refine ⟨cache.insert hRoot (.value v), ?_, fun h node kept => ?_⟩
    · simp [addNode, getNodePath, relink, relinkOld, relinkNew, valueEntry, TrieKeyValue.calcValueHash, cacheNodes,
        named, linked]
    · rw [pending_insert] at kept
      by_cases same : h = hRoot
      · rwa [same, update_self, ← read, ← same] at kept
      · rw [update_of_ne same] at kept
        exact backed h node kept
  · have keyed : ∀ h node, db h = some node → Keyed node := fun h node read => (stored h node read).2.2
    obtain ⟨x, there, slot, read⟩ := (getKeyValue_iff db keyed _ _ key empty le_rfl v).mp found
    have whole := view_of_included stored backed
    have named : x = (valueEntry cryptoHash v).hashValue := (stored _ _ read).2.1.symm
    obtain ⟨path, vRemove, searched, unchanged⟩ := unchanged_of_valueSlot cryptoHash _ hRoot (whole ▸ keyed)
      (named ▸ there) (whole.symm ▸ slot) named key.length le_rfl
    exact ⟨cache, by simp [addNode, searched, unchanged], backed⟩

theorem createTrieNodeList_of_retrieve (stored : Addressed (Genuine cryptoHash) db) (kvs : BytesMap)
    (there : ∀ kv ∈ kvs, retrieve db hRoot kv.1 = some kv.2) (backed : Included (pending cache) db) :
    ∃ cache', createTrieNodeList cryptoHash db hRoot kvs cache = some (hRoot, cache') := by
  induction kvs generalizing cache with
  | nil => exact ⟨cache, rfl⟩
  | cons kv kvs ih =>
    obtain ⟨cache', added, backed'⟩ := addNode_of_retrieve stored backed (there kv mem_cons_self)
    rw [createTrieNodeList, added]
    exact ih (fun other mem => there other (mem_cons_of_mem kv mem)) backed'

end

end Single

section Insertion

/-- The roots reached from the empty root by successful calls that insert one entry
each, while other callers use the same store. -/
inductive Inserted (cryptoHash : TrieValue Hash → Hash) : StoreState Hash → Hash → Prop where
  | start {s : StoreState Hash} (reachable : StoreReachable cryptoHash s) : Inserted cryptoHash s 0
  | insert {s : StoreState Hash} {r newRoot : Hash} {db' : NodeStore Hash} (built : Inserted cryptoHash s r)
      (accepts : Hash → Bool) (k v : Bytes) (key : k ≠ []) (value : v ≠ [])
      (call : addNewTrie cryptoHash accepts s.db r [(k, v)] = (some newRoot, db')) :
      Inserted cryptoHash { s with db := db' } newRoot
  | other {s t : StoreState Hash} {r : Hash} (built : Inserted cryptoHash s r) (step : StoreStep cryptoHash s t) :
      Inserted cryptoHash t r

theorem rebuiltNodes_cases (unique : Collisionless cryptoHash) {takes : Hash → Bool} {db db' : NodeStore Hash}
    (stored : Addressed (Genuine cryptoHash) db) {root newRoot : Hash} {k v : Bytes}
    (call : addNewTrie cryptoHash takes db root [(k, v)] = (some newRoot, db')) {b : TrieBranch Hash}
    (mem : branch b ∈ rebuiltNodes cryptoHash db ∅ root (keyNibbles k) v) :
    Fine b ∨ root ≠ 0 ∧ Rebuilds cryptoHash ((value v).calcHash cryptoHash) db root (keyNibbles k)
      (rebuiltNodes cryptoHash db ∅ root (keyNibbles k) v) newRoot := by
  have small := nibbles_keyNibbles k
  rcases addNewTrie_single unique takes stored call with ⟨_, none, _⟩ | ⟨_, writes⟩
  · rw [none] at mem
    cases mem
  · generalize rebuiltNodes cryptoHash db ∅ root (keyNibbles k) v = nodes at writes mem
    generalize keyName : keyNibbles k = key at writes small
    cases writes with
    | replace => cases mem
    | start _ absent => exact Or.inl (fine_leafNode key small b (mem_singleton.mp mem).symm)
    | rebuild _ rebuilds => exact Or.inr ⟨rebuilds.root_ne_zero stored, rebuilds⟩

theorem rebuiltNodes_fine (unique : Collisionless cryptoHash) (nonzero : NonzeroHash cryptoHash)
    (takes : Hash → Bool) {db db' : NodeStore Hash} (stored : Addressed (Genuine cryptoHash) db)
    {hRoot newRoot : Hash} (root : TrieRoot Fine db hRoot) {k v : Bytes} (full : v ≠ [])
    (call : addNewTrie cryptoHash takes db hRoot [(k, v)] = (some newRoot, db')) (b : TrieBranch Hash)
    (mem : branch b ∈ rebuiltNodes cryptoHash db ∅ hRoot (keyNibbles k) v) : Fine b := by
  rcases rebuiltNodes_cases unique stored call mem with leaf | ⟨linked, rebuilds⟩
  · exact leaf
  · have content := calcHash_value_ne_zero nonzero full
    exact (rebuilds.fine nonzero content (root linked) (nibbles_keyNibbles k)).1 b mem

theorem Inserted.invariant (unique : Collisionless cryptoHash) (nonzero : NonzeroHash cryptoHash)
    {s : StoreState Hash} {r : Hash} (built : Inserted cryptoHash s r) :
    StoreGenuine cryptoHash s ∧ TrieRoot Fine s.db r := by
  induction built with
  | start reachable => exact ⟨storeReachable_genuine unique reachable, fun linked => absurd rfl linked⟩
  | @insert s r newRoot db' built takes k v key value call ih =>
    obtain ⟨genuine, root⟩ := ih
    have fine := rebuiltNodes_fine unique nonzero takes genuine.stored root value call
    have after := (addNewTrie_keeps unique takes s.db genuine.stored r [(k, v)]).1
    rw [call] at after
    exact ⟨⟨after, genuine.kept⟩, (single_overwrites unique nonzero (fun b fine => fine.1) takes
      genuine.stored root key call (fun b mem => (fine b mem).roomy) fine).2⟩
  | other built step ih =>
    obtain ⟨genuine, root⟩ := ih
    obtain ⟨after, within⟩ := storeStep_keeps unique genuine step
    exact ⟨after, fun linked => (root linked).mono within⟩

/-- Insertion is map update. -/
theorem insert_is_map_update (collisionless : Collisionless cryptoHash) (nonzero : NonzeroHash cryptoHash)
    (s : StoreState Hash) (r : Hash) (built : Inserted cryptoHash s r) (accepts : Hash → Bool) (k v : Bytes)
    (key : k ≠ []) (value : v ≠ []) (newRoot : Hash) (db' : NodeStore Hash)
    (call : addNewTrie cryptoHash accepts s.db r [(k, v)] = (some newRoot, db')) (k' : Bytes) (more : k' ≠ []) :
    retrieve db' newRoot k' = if k' = k then some v else retrieve s.db r k' := by
  obtain ⟨genuine, root⟩ := built.invariant collisionless nonzero
  have fine := rebuiltNodes_fine collisionless nonzero accepts genuine.stored root value call
  rw [single_retrieve collisionless nonzero (fun b fine => fine.1) accepts genuine.stored root key call
    (fun b member => (fine b member).roomy) fine k' more]
  simp [value]

/-- Adding again what a root of any reachable store has returns that root. -/
theorem add_again_same_root (collisionless : Collisionless cryptoHash) (s : StoreState Hash)
    (reachable : StoreReachable cryptoHash s) (r : Hash) (mapKvList : BytesMap)
    (there : ∀ kv ∈ mapKvList, retrieve s.db r kv.1 = some kv.2) :
    (addNewTrie cryptoHash (fun _ => true) s.db r mapKvList).1 = some r := by
  obtain ⟨cache, made⟩ := createTrieNodeList_of_retrieve (storeReachable_genuine collisionless reachable).stored
    mapKvList there (pending_empty_included s.db)
  rw [addNewTrie_accepting made]

namespace TermHash

def shorter : Option Digest × NodeStore Digest := addNewTrie encode always emptyStore 0 [([0x12], [7])]

def longer : Option Digest × NodeStore Digest :=
  addNewTrie encode always shorter.2 (shorter.1.getD 0) [([0x12, 0x34], [8])]

set_option maxRecDepth 4000 in
theorem shorter_inserted : Inserted encode ⟨shorter.2, ∅⟩ (shorter.1.getD 0) :=
  .insert (.start (s := ⟨emptyStore, ∅⟩) .refl) always [0x12] [7] (by decide) (by decide) (Prod.ext (by decide) rfl)

set_option maxRecDepth 4000 in
theorem insert_is_map_update_longer : retrieve longer.2 (longer.1.getD 0) [0x12] = some [7] := by
  have updated := insert_is_map_update encode_collisionless encode_nonzero ⟨shorter.2, ∅⟩ (shorter.1.getD 0)
    shorter_inserted always [0x12, 0x34] [8] (by decide) (by decide) (longer.1.getD 0) longer.2 (Prod.ext (by decide) rfl) [0x12]
    (by decide)
  rw [updated]
  decide

set_option maxRecDepth 4000 in
theorem add_again_same_root_longer :
    (addNewTrie encode always longer.2 (longer.1.getD 0) [([0x12], [7]), ([0x12, 0x34], [8])]).1 = longer.1 := by
  have first : StoreStep encode ⟨emptyStore, ∅⟩ ⟨shorter.2, ∅⟩ := .addNewTrie _ always 0 [([0x12], [7])]
  have second : StoreStep encode ⟨shorter.2, ∅⟩ ⟨longer.2, ∅⟩ := .addNewTrie _ always (shorter.1.getD 0)
    [([0x12, 0x34], [8])]
  have again := add_again_same_root encode_collisionless ⟨longer.2, ∅⟩ (.tail (.single first) second)
    (longer.1.getD 0) [([0x12], [7]), ([0x12, 0x34], [8])] (by decide)
  exact again.trans (by decide)

end TermHash
end Insertion

section Deletion

/-- The roots reached by successful calls with one entry each, which may insert or
delete under any key. A slot write adds at most one entry to a table, so a branch with
at most 255 slot writes is roomy. -/
inductive Built (cryptoHash : TrieValue Hash → Hash) : StoreState Hash → Hash → Prop where
  | start {s : StoreState Hash} (reachable : StoreReachable cryptoHash s) : Built cryptoHash s 0
  | update {s : StoreState Hash} {r newRoot : Hash} {db' : NodeStore Hash} (built : Built cryptoHash s r)
      (accepts : Hash → Bool) (k v : Bytes)
      (call : addNewTrie cryptoHash accepts s.db r [(k, v)] = (some newRoot, db'))
      (room : ∀ b, TrieValue.branch b ∈ rebuiltNodes cryptoHash s.db ∅ r (keyNibbles k) v → b.Roomy) :
      Built cryptoHash { s with db := db' } newRoot
  | other {s t : StoreState Hash} {r : Hash} (built : Built cryptoHash s r) (step : StoreStep cryptoHash s t) :
      Built cryptoHash t r

section
variable {db db' : NodeStore Hash} {hRoot newRoot : Hash} {k v : Bytes} (unique : Collisionless cryptoHash)
  (takes : Hash → Bool) (stored : Addressed (Genuine cryptoHash) db)
include unique takes stored

/-- An update under the empty key replaces the whole trie by its value. -/
theorem replace_root (call : addNewTrie cryptoHash takes db hRoot [([], v)] = (some newRoot, db')) :
    newRoot = (value v).calcHash cryptoHash ∧ (newRoot ≠ 0 → HoldsValue db' newRoot) := by
  rcases addNewTrie_single unique takes stored call with ⟨_, _, _, slot⟩ | ⟨written, writes⟩
  · obtain ⟨node, read, here⟩ := (valueSlot_iff _ _ _ _).mp slot
    cases node with
    | value w => exact here.elim
    | branch b => exact absurd here (nodeSlot_branch_nil _ _ _)
    | extension e =>
      obtain ⟨rest, whole⟩ := edgeSlot_extends here
      exact absurd (append_eq_nil_iff.mp whole.symm).1 (stored _ _ read).2.2
  · generalize rebuiltNodes cryptoHash db ∅ hRoot (keyNibbles []) v = nodes at writes written
    rw [keyNibbles_nil] at writes
    cases writes with
    | start more => exact absurd rfl more
    | rebuild more => exact absurd rfl more
    | replace => exact ⟨rfl, fun content => ⟨v, written (.value v) (by simp) content⟩⟩

/-- Below a value there is no trie to update. -/
theorem value_root_rejects (root : HoldsValue db hRoot) (more : k ≠ []) :
    addNewTrie cryptoHash takes db hRoot [(k, v)] ≠ (some newRoot, db') := by
  intro call
  obtain ⟨w, value⟩ := root
  rcases addNewTrie_single unique takes stored call with ⟨_, _, _, slot⟩ | ⟨_, writes⟩
  · rw [valueSlot_of_read value] at slot
    exact slot.elim
  · generalize rebuiltNodes cryptoHash db ∅ hRoot (keyNibbles k) v = nodes at writes
    generalize keyName : keyNibbles k = key at writes
    cases writes with
    | replace => exact more ((keyNibbles_eq_nil k).mp keyName)
    | start _ absent =>
      rw [value] at absent
      cases absent
    | rebuild _ rebuilds => cases rebuilds <;> simp_all

theorem rebuiltNodes_spacious (root : TrieRoot Spacious db hRoot)
    (call : addNewTrie cryptoHash takes db hRoot [(k, v)] = (some newRoot, db')) {b : TrieBranch Hash}
    (mem : branch b ∈ rebuiltNodes cryptoHash db ∅ hRoot (keyNibbles k) v) (room : b.Roomy) :
    Spacious b := by
  rcases rebuiltNodes_cases unique stored call mem with leaf | ⟨linked, rebuilds⟩
  · exact ⟨leaf.1, room⟩
  · exact ⟨rebuilds.sound (fun c good => good.1) (root linked) (nibbles_keyNibbles k) b mem room, room⟩

end

theorem Built.invariant (unique : Collisionless cryptoHash) (nonzero : NonzeroHash cryptoHash)
    {s : StoreState Hash} {r : Hash} (built : Built cryptoHash s r) :
    StoreGenuine cryptoHash s ∧ (HoldsValue s.db r ∨ TrieRoot Spacious s.db r) := by
  induction built with
  | start reachable =>
    exact ⟨storeReachable_genuine unique reachable, Or.inr fun linked => absurd rfl linked⟩
  | @update s r newRoot db' built takes k v call room ih =>
    obtain ⟨genuine, root⟩ := ih
    have after := (addNewTrie_keeps unique takes s.db genuine.stored r [(k, v)]).1
    rw [call] at after
    refine ⟨⟨after, genuine.kept⟩, ?_⟩
    by_cases empty : k = []
    · subst empty
      obtain ⟨_, value⟩ := replace_root unique takes genuine.stored call
      by_cases zero : newRoot = 0
      · exact Or.inr fun linked => absurd zero linked
      · exact Or.inl (value zero)
    · rcases root with value | trie
      · exact absurd call (value_root_rejects unique takes genuine.stored value empty)
      · have fits := fun b mem => rebuiltNodes_spacious unique takes genuine.stored trie call mem
          (room b mem)
        exact Or.inr (single_overwrites unique nonzero (fun b good => good.1) takes genuine.stored trie
          empty call room fits).2
  | other built step ih =>
    obtain ⟨genuine, root⟩ := ih
    obtain ⟨after, within⟩ := storeStep_keeps unique genuine step
    refine ⟨after, root.imp ?_ fun trie linked => (trie linked).mono within⟩
    rintro ⟨w, value⟩
    exact ⟨w, within _ _ value⟩

theorem retrieve_nil_of_trieRoot {fit : TrieBranch Hash → Prop} {db : NodeStore Hash} {hRoot : Hash}
    (root : TrieRoot fit db hRoot) : retrieve db hRoot [] = none := by
  rw [eq_none_iff_forall_ne_some]
  intro v found
  obtain ⟨linked, value⟩ := (retrieve_nil_iff db hRoot v).mp found
  cases root linked with
  | branch read => cases read.symm.trans value
  | extension read => cases read.symm.trans value

/-- Deletion removes one key and nothing else, unless the empty key is deleted from a trie
that has other keys: then everything is dropped. -/
theorem delete_exact_iff (collisionless : Collisionless cryptoHash) (nonzero : NonzeroHash cryptoHash)
    (s : StoreState Hash) (r : Hash) (built : Built cryptoHash s r) (accepts : Hash → Bool) (k : Bytes)
    (newRoot : Hash) (db' : NodeStore Hash)
    (call : addNewTrie cryptoHash accepts s.db r [(k, [])] = (some newRoot, db')) :
    (retrieve db' newRoot k = none ∧ ∀ k', k' ≠ k → retrieve db' newRoot k' = retrieve s.db r k') ↔
      (k ≠ [] ∨ (∃ v, retrieve s.db r k = some v) ∨ ∀ k', retrieve s.db r k' = none) := by
  obtain ⟨genuine, root⟩ := built.invariant collisionless nonzero
  by_cases empty : k = []
  · subst empty
    have cleared : newRoot = 0 := by
      rw [(replace_root collisionless accepts genuine.stored call).1, calcHash_value_nil]
    have nothing : ∀ k', retrieve db' newRoot k' = none := fun k' => by simp [retrieve, cleared]
    simp only [nothing, ne_eq, not_true_eq_false, false_or, true_and]
    constructor
    · intro gone
      rcases present : retrieve s.db r [] with _ | v
      · refine Or.inr fun k' => ?_
        by_cases same : k' = []
        · rw [same, present]
        · exact (gone k' same).symm
      · exact Or.inl ⟨v, rfl⟩
    · rintro (⟨v, present⟩ | gone) k' other
      · apply Eq.symm
        rw [eq_none_iff_forall_ne_some]
        intro w found
        obtain ⟨x, _, below, _⟩ :=
          (retrieve_iff s.db (fun h node read => (genuine.stored h node read).2.2) r other w).mp found
        have slot := below.2
        rw [valueSlot_of_read ((retrieve_nil_iff s.db r v).mp present).2] at slot
        exact slot.elim
      · exact (gone k').symm
  · simp only [ne_eq, empty, not_false_eq_true, true_or, iff_true]
    rcases root with value | trie
    · exact absurd call (value_root_rejects collisionless accepts genuine.stored value empty)
    · have room (b : TrieBranch Hash) (mem : branch b ∈ rebuiltNodes cryptoHash s.db ∅ r (keyNibbles k) []) : b.Roomy := by
        rcases rebuiltNodes_cases collisionless genuine.stored call mem with leaf | ⟨linked, rebuilds⟩
        · exact leaf.roomy
        · rw [calcHash_value_nil] at rebuilds
          exact rebuilds.roomy_of_delete (trie linked) (nibbles_keyNibbles k) b mem
      have fits := fun b member => rebuiltNodes_spacious collisionless accepts genuine.stored trie call member
        (room b member)
      have deleted := single_retrieve collisionless nonzero (fun b good => good.1) accepts genuine.stored trie empty
        call room fits
      refine ⟨by simpa using deleted k empty, fun k' other => ?_⟩
      by_cases nil : k' = []
      · subst nil
        have after := (single_overwrites collisionless nonzero (fun b good => good.1) accepts genuine.stored trie
          empty call room fits).2
        rw [retrieve_nil_of_trieRoot after, retrieve_nil_of_trieRoot trie]
      · rw [deleted k' nil, if_neg other]

namespace TermHash

def withoutShorter : Option Digest × NodeStore Digest :=
  addNewTrie encode always shorter.2 (shorter.1.getD 0) [([0x12], [])]

set_option maxRecDepth 4000 in
theorem shorter_built : Built encode ⟨shorter.2, ∅⟩ (shorter.1.getD 0) := by
  refine .update (.start (s := ⟨emptyStore, ∅⟩) .refl) always [0x12] [7] (Prod.ext (by decide) rfl) ?_
  have nodes : rebuiltNodes encode emptyStore ∅ 0 (keyNibbles [0x12]) [7] =
      [leafNode ((value [7]).calcHash encode) [1, 2]] := by decide
  intro b mem
  rw [nodes] at mem
  simp [leafNode] at mem

set_option maxRecDepth 4000 in
theorem delete_exact_iff_shorter : retrieve withoutShorter.2 0 [0x12] = none ∧
    ∀ k', k' ≠ [0x12] → retrieve withoutShorter.2 0 k' = retrieve shorter.2 (shorter.1.getD 0) k' :=
  (delete_exact_iff encode_collisionless encode_nonzero ⟨shorter.2, ∅⟩ (shorter.1.getD 0) shorter_built always [0x12]
    0 withoutShorter.2 (Prod.ext (by decide) rfl)).mpr (Or.inl (by decide))

/-- Deleting the empty key, which no trie with other keys can hold, loses those keys. -/
def emptied : Option Digest × NodeStore Digest :=
  addNewTrie encode always shorter.2 (shorter.1.getD 0) [([], [])]

set_option maxRecDepth 4000 in
theorem delete_empty_key_drops_others : Built encode ⟨shorter.2, ∅⟩ (shorter.1.getD 0) ∧
    emptied = (some 0, emptied.2) ∧ retrieve shorter.2 (shorter.1.getD 0) [] = none ∧
    retrieve shorter.2 (shorter.1.getD 0) [0x12] = some [7] ∧ retrieve emptied.2 0 [0x12] = none :=
  ⟨shorter_built, Prod.ext (by decide) rfl, by decide, by decide, by decide⟩

end TermHash
end Deletion
end HashAhead.Trie
