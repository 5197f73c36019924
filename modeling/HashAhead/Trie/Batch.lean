import HashAhead.Trie.MapUpdate

/-! A batch against the same entries inserted one at a time. Both search and rebuild the
same nodes; the difference is that a batch erases every node it passes from the one
cache it keeps, although an equal subtrie elsewhere may still need that node. -/

namespace HashAhead.Trie
open Foundation List Option Function
variable {Hash : Type} [DecidableEq Hash] [Zero Hash] (cryptoHash : TrieValue Hash → Hash)

section Footprint

def searchedHashes (read : NodeStore Hash) : Nat → Hash → Bytes → List Hash
  | _, _, [] => []
  | 0, _, _ :: _ => []
  | bound + 1, hash, n :: rest =>
      match read hash with
      | none => []
      | some value => hash ::
          match nodePathStep (n :: rest) value with
          | some (_, some (next, syKey)) => searchedHashes read bound next syKey
          | _ => []

/-- What one entry does to the nodes: those it passes, those it replaces and those it writes. -/
structure Footprint (Hash : Type) where
  searched : List Hash
  superseded : List Hash
  written : List Hash
  deriving DecidableEq, Repr

def nodeHashes (nodes : List (TrieValue Hash)) : List Hash :=
  (nodes.map (TrieValue.calcHash cryptoHash)).filter (· ≠ 0)

def footprint (db : NodeStore Hash) (hashRoot : Hash) (k v : Bytes) : Footprint Hash :=
  let searched := searchedHashes db (keyNibbles k).length hashRoot (keyNibbles k)
  match updateOutcome cryptoHash db ∅ hashRoot (keyNibbles k) v with
  | some (.linked path _ _) => ⟨searched, searched, nodeHashes cryptoHash (path.map TrieKeyValue.value ++ [.value v])⟩
  | _ => ⟨searched, [], []⟩

/-- The nodes lost after one more entry: superseded nodes that the engine did not have
before the batch, until an entry writes them again. -/
def lose (base : NodeStore Hash) (lost : List Hash) (entry : Footprint Hash) : List Hash :=
  (lost ++ entry.superseded.filter fun h => (base h).isNone).filter fun h => h ∉ entry.written

def lostAfter (base : NodeStore Hash) : List (Footprint Hash) → List Hash → List Hash
  | [], lost => lost
  | entry :: entries, lost => lostAfter base entries (lose base lost entry)

def Stuck (base : NodeStore Hash) : List (Footprint Hash) → List Hash → Prop
  | [], _ => False
  | entry :: entries, lost => (∃ h ∈ entry.searched, h ∈ lost) ∨ Stuck base entries (lose base lost entry)

/-- One call for each entry, all successful, with the footprints of the entries. -/
inductive Sequential : NodeStore Hash → Hash → BytesMap → List (Footprint Hash) → NodeStore Hash → Hash → Prop where
  | done (db : NodeStore Hash) (hashRoot : Hash) : Sequential db hashRoot [] [] db hashRoot
  | entry {db db' last : NodeStore Hash} {hashRoot middle lastRoot : Hash} {k v : Bytes} {mapKvList : BytesMap}
      {entries : List (Footprint Hash)} (accepts : Hash → Bool)
      (call : addNewTrie cryptoHash accepts db hashRoot [(k, v)] = (some middle, db'))
      (rest : Sequential db' middle mapKvList entries last lastRoot) :
      Sequential db hashRoot ((k, v) :: mapKvList) (footprint cryptoHash db hashRoot k v :: entries) last lastRoot

end Footprint

section Masked

def mask (lost : List Hash) (db : NodeStore Hash) : NodeStore Hash := fun h => if h ∈ lost then none else db h

theorem getNodeValue_eq (db : NodeStore Hash) (cache : NodeCache Hash) (h : Hash) :
    getNodeValue db cache h = (view db cache h).map fun value => (value, (pending cache h).isSome) := by
  unfold view getNodeValue pending
  split_ifs
  · rfl
  · split
    next found => simp [found]
    next missing => simp [missing, Option.map_map, comp_def]

/-- With part of the nodes lost, the search takes the same path or stops at a lost node. -/
theorem getNodePath_masked {base db : NodeStore Hash} {cache : NodeCache Hash} {lost : List Hash} {hashRoot : Hash}
    (same : view base cache = mask lost db) (whole : view db ∅ = db) (kept : hashRoot ∉ lost) (bound : Nat)
    (hash : Hash) (key : Bytes) :
    getNodePath base cache hashRoot bound hash key =
      if ∃ h ∈ searchedHashes db bound hash key, h ∈ lost then none
      else (getNodePath db ∅ hashRoot bound hash key).map fun found =>
        (found.1, (searchedHashes db bound hash key).filter fun h => (pending cache h).isSome) := by
  induction bound generalizing hash key with
  | zero => cases key <;> simp [getNodePath, searchedHashes]
  | succ bound ih =>
    cases key with
    | nil => simp [getNodePath, searchedHashes]
    | cons n rest =>
      simp only [getNodePath, getNodeValue_eq, same, whole, searchedHashes]
      rcases read : db hash with _ | value
      · have missing : mask lost db hash = none := by simp [mask, read]
        simp only [missing, map_none, not_mem_nil, false_and, exists_false, if_false]
        split_ifs <;> simp
      · by_cases gone : hash ∈ lost
        · have missing : mask lost db hash = none := by simp [mask, gone]
          have other : hash ≠ hashRoot := fun equal => kept (equal ▸ gone)
          simp [missing, other, gone]
        · have found : mask lost db hash = some value := by simp [mask, gone, read]
          simp only [found, map_some, mem_cons, exists_eq_or_imp, gone, false_or]
          rcases nodePathStep (n :: rest) value with _ | ⟨path, _ | ⟨next, syKey⟩⟩
          · simp
          · cases seen : (pending cache hash).isSome <;> simp [seen]
          · simp only [ih]
            by_cases stuck : ∃ h ∈ searchedHashes db bound next syKey, h ∈ lost
            · simp [stuck]
            · simp only [if_neg stuck, Option.map_map]
              cases seen : (pending cache hash).isSome <;> simp [seen, comp_def]

theorem searchedHashes_readable (db : NodeStore Hash) (bound : Nat) (hash : Hash) (key : Bytes) (h : Hash)
    (mem : h ∈ searchedHashes db bound hash key) : ∃ node, db h = some node := by
  induction bound generalizing hash key with
  | zero => cases key <;> simp [searchedHashes] at mem
  | succ bound ih =>
    cases key with
    | nil => simp [searchedHashes] at mem
    | cons n rest =>
      rw [searchedHashes] at mem
      rcases read : db hash with _ | value
      · simp [read] at mem
      · simp only [read, mem_cons] at mem
        rcases mem with rfl | deeper
        · exact ⟨value, read⟩
        · split at deeper
          · exact ih _ _ deeper
          · cases deeper

end Masked

section Caching
variable {cryptoHash}

theorem pending_putNodes_other {nodes : List (TrieValue Hash)} (cache : NodeCache Hash) {h : Hash}
    (other : h ∉ nodeHashes cryptoHash nodes) : pending (putNodes cryptoHash nodes cache) h = pending cache h := by
  induction nodes generalizing cache with
  | nil => rfl
  | cons node nodes ih =>
    simp only [nodeHashes, map_cons] at other ih
    rw [putNodes]
    split_ifs with content
    · rw [filter_cons_of_pos (by simpa using content)] at other
      have apart : h ≠ node.calcHash cryptoHash := fun same => other (by rw [same]; exact mem_cons_self)
      rw [ih _ (fun later => other (mem_cons_of_mem _ later)), pending_insert, update_of_ne apart]
    · rw [filter_cons_of_neg (by simpa using content)] at other
      exact ih _ other

theorem included_view (unique : Collisionless cryptoHash) {db : NodeStore Hash} {cache : NodeCache Hash}
    (stored : Addressed (Genuine cryptoHash) db) (kept : Addressed (Genuine cryptoHash) (pending cache)) :
    Included db (view db cache) := by
  intro h node read
  have genuine := stored h node read
  rw [view_apply db cache genuine.1]
  rcases held : pending cache h with _ | other
  · simpa using read
  · simpa using (genuine_unique cryptoHash unique other node h (kept h other held) genuine)

end Caching

section Tracking
variable {cryptoHash}

/-- The batch sees what the sequential calls have stored, except for the lost nodes. -/
structure Tracks (cryptoHash : TrieValue Hash → Hash) (base : NodeStore Hash) (cache : NodeCache Hash)
    (db : NodeStore Hash) (lost : List Hash) : Prop where
  same : view base cache = mask lost db
  kept : Addressed (Genuine cryptoHash) (pending cache)
  stored : Addressed (Genuine cryptoHash) db
  included : Included base db
  nonzero : (0 : Hash) ∉ lost

theorem mem_nodeHashes {nodes : List (TrieValue Hash)} {h : Hash} :
    h ∈ nodeHashes cryptoHash nodes ↔ (∃ node ∈ nodes, node.calcHash cryptoHash = h) ∧ h ≠ 0 := by
  simp [nodeHashes]

/-- After an entry has replaced the searched nodes by the written ones, the batch still
sees everything but the lost nodes. -/
theorem view_after_step (unique : Collisionless cryptoHash) {base db : NodeStore Hash}
    {cache : NodeCache Hash} {lost : List Hash} (tracks : Tracks cryptoHash base cache db lost)
    (searched : List Hash) (written : List (TrieValue Hash)) (vRemove : List Hash) :
    view base (putNodes cryptoHash written ((searched.filter fun h => (pending cache h).isSome).foldl
        (fun cache hash => cache.erase hash) cache)) =
      mask (lose base lost ⟨searched, searched, nodeHashes cryptoHash written⟩)
        (view db (putNodes cryptoHash written (vRemove.foldl (fun cache hash => cache.erase hash) ∅))) := by
  funext h
  by_cases zero : h = 0
  · subst zero
    simp [view_zero, mask]
  · have before : (pending cache h).or (base h) = mask lost db h := by
      rw [← view_apply base cache zero, tracks.same]
    rw [view_apply base _ zero, mask, view_apply db _ zero]
    by_cases fresh : h ∈ nodeHashes cryptoHash written
    · obtain ⟨⟨node, mem, rfl⟩, _⟩ := mem_nodeHashes.mp fresh
      have kept : node.calcHash cryptoHash ∉ lose base lost ⟨searched, searched, nodeHashes cryptoHash written⟩ := by
        simp [lose, fresh]
      rw [if_neg kept, pending_putNodes unique written _ node mem zero,
        pending_putNodes unique written _ node mem zero]
      rfl
    · rw [pending_putNodes_other _ fresh, pending_putNodes_other _ fresh, pending_erase,
        pending_erase]
      have empty : pending (∅ : NodeCache Hash) h = none := AList.lookup_empty h
      have gone : h ∈ lose base lost ⟨searched, searched, nodeHashes cryptoHash written⟩ ↔
          h ∈ lost ∨ (h ∈ searched ∧ base h = none) := by
        simp [lose, fresh]
      simp only [empty, ite_self, none_or, gone]
      by_cases passed : h ∈ searched
      · -- only the engine still has a searched node
        have left : (if h ∈ searched.filter (fun h => (pending cache h).isSome) then none else pending cache h).or
            (base h) = base h := by
          rcases held : pending cache h with _ | node <;> simp [passed, held]
        rw [left]
        rcases read : base h with _ | node
        · simp [passed]
        · have present : h ∉ lost := by
            intro lostHere
            rw [mask, if_pos lostHere, read] at before
            rcases pending cache h with _ | other <;> simp at before
          simp [present, tracks.included h node read]
      · have left : h ∉ searched.filter (fun h => (pending cache h).isSome) := by simp [passed]
        rw [if_neg left, before]
        simp [mask, passed]

theorem footprint_searched (db : NodeStore Hash) (root : Hash) (k v : Bytes) :
    (footprint cryptoHash db root k v).searched =
      searchedHashes db (keyNibbles k).length root (keyNibbles k) := by
  unfold footprint
  split <;> rfl

section Entry
variable {base db : NodeStore Hash} {cache : NodeCache Hash} {lost : List Hash} {hRoot newRoot : Hash} {k v : Bytes}

theorem Tracks.zero_kept (tracks : Tracks cryptoHash base cache db lost) {searched : List Hash}
    (readable : ∀ h ∈ searched, ∃ node, db h = some node) (written : List Hash) :
    (0 : Hash) ∉ lose base lost ⟨searched, searched, written⟩ := by
  intro mem
  obtain ⟨either, _⟩ := mem_filter.mp mem
  rcases mem_append.mp either with before | passed
  · exact tracks.nonzero before
  · obtain ⟨node, read⟩ := readable 0 (mem_filter.mp passed).1
    exact (tracks.stored 0 node read).1 rfl

theorem Writes.root_written {hRoot top : Hash} {key : Bytes} {nodes : List (TrieValue Hash)}
    (writes : Writes cryptoHash ((TrieValue.value v).calcHash cryptoHash) db hRoot key nodes top) :
    top = 0 ∨ top ∈ nodeHashes cryptoHash (nodes ++ [.value v]) := by
  have cases : ∃ node ∈ nodes ++ [.value v], top = node.calcHash cryptoHash := by
    cases writes with
    | replace => exact ⟨_, mem_append_right _ mem_cons_self, rfl⟩
    | start => exact ⟨_, mem_cons_self, rfl⟩
    | rebuild _ rebuilds => cases rebuilds <;> exact ⟨_, mem_cons_self, rfl⟩
  obtain ⟨node, mem, rfl⟩ := cases
  exact or_iff_not_imp_left.2 fun content => mem_nodeHashes.mpr ⟨⟨node, mem, rfl⟩, content⟩

/-- One entry that passes no lost node does the same in the batch. -/
theorem batch_step (unique : Collisionless cryptoHash) (stored : Addressed (Genuine cryptoHash) base)
    (tracks : Tracks cryptoHash base cache db lost) (rootKept : hRoot ∉ lost) {single : NodeCache Hash}
    (made : addNode cryptoHash db hRoot (keyNibbles k) v ∅ = some (newRoot, single))
    (free : ¬∃ h ∈ (footprint cryptoHash db hRoot k v).searched, h ∈ lost) :
    ∃ cache', addNode cryptoHash base hRoot (keyNibbles k) v cache = some (newRoot, cache') ∧
      Tracks cryptoHash base cache' (view db single) (lose base lost (footprint cryptoHash db hRoot k v)) ∧
      newRoot ∉ lose base lost (footprint cryptoHash db hRoot k v) := by
  have searched := getNodePath_masked tracks.same (view_empty tracks.stored) rootKept (keyNibbles k).length hRoot
    (keyNibbles k)
  rw [footprint_searched] at free
  rw [if_neg free] at searched
  rcases addNode_cases cryptoHash db hRoot newRoot (keyNibbles k) v ∅ single made with
    ⟨rfl, rfl, unchanged, _⟩ | ⟨entries, fIsValue, path, vRemove, found, linked, hashed, cached, writes⟩
  · obtain ⟨⟨path, vRemove⟩, found, relinked⟩ := bind_eq_some_iff.mp unchanged
    have same : lose base lost (footprint cryptoHash db newRoot k v) = lost := by simp [lose, footprint, unchanged]
    rw [same, view_empty tracks.stored]
    exact ⟨cache, by simp [addNode, searched, found, relinked], tracks, rootKept⟩
  · have relinked : relink cryptoHash (valueEntry cryptoHash v).hashValue path = some (.linked entries newRoot fIsValue) := by
      simpa [updateOutcome, found] using linked
    have added : addNode cryptoHash base hRoot (keyNibbles k) v cache = some (newRoot, putNodes cryptoHash
        (rebuiltNodes cryptoHash db ∅ hRoot (keyNibbles k) v ++ [.value v])
        (((searchedHashes db (keyNibbles k).length hRoot (keyNibbles k)).filter fun h => (pending cache h).isSome).foldl
          (fun cache hash => cache.erase hash) cache)) := by
      simp only [addNode, searched, found, map_some, relinked, cacheNodes_eq cryptoHash hashed]
    have print : footprint cryptoHash db hRoot k v =
        ⟨searchedHashes db (keyNibbles k).length hRoot (keyNibbles k),
          searchedHashes db (keyNibbles k).length hRoot (keyNibbles k),
          nodeHashes cryptoHash (rebuiltNodes cryptoHash db ∅ hRoot (keyNibbles k) v ++ [.value v])⟩ := by
      simp [footprint, rebuiltNodes, linked]
    have readable := searchedHashes_readable db (keyNibbles k).length hRoot (keyNibbles k)
    have single_kept := addNode_genuine cryptoHash tracks.stored (addressed_empty _) (nibbles_keyNibbles k) made
    have zeroKept := tracks.zero_kept readable
      (nodeHashes cryptoHash (rebuiltNodes cryptoHash db ∅ hRoot (keyNibbles k) v ++ [.value v]))
    rw [print]
    refine ⟨_, added, ⟨?_, addNode_genuine cryptoHash stored tracks.kept (nibbles_keyNibbles k) added,
      addressed_view cryptoHash tracks.stored single_kept,
      tracks.included.trans (included_view unique tracks.stored single_kept), zeroKept⟩, ?_⟩
    · subst cached
      exact view_after_step unique tracks _ _ vRemove
    · rcases writes.root_written with rfl | mem
      · exact zeroKept
      · intro lostRoot
        simpa [mem] using (mem_filter.mp lostRoot).2

end Entry

/-- The whole batch: it fails when some entry is stuck, and otherwise ends at the root
and with the nodes of the sequential run, except for the lost ones. -/
theorem batch_run (unique : Collisionless cryptoHash) {base : NodeStore Hash}
    (stored : Addressed (Genuine cryptoHash) base) {db last : NodeStore Hash} {hRoot lastRoot : Hash}
    {kvs : BytesMap} {entries : List (Footprint Hash)}
    (sequential : Sequential cryptoHash db hRoot kvs entries last lastRoot) {cache : NodeCache Hash}
    {lost : List Hash} (tracks : Tracks cryptoHash base cache db lost) (rootKept : hRoot ∉ lost) :
    (Stuck base entries lost → createTrieNodeList cryptoHash base hRoot kvs cache = none) ∧
    (¬Stuck base entries lost → ∃ cache', createTrieNodeList cryptoHash base hRoot kvs cache =
        some (lastRoot, cache') ∧ Tracks cryptoHash base cache' last (lostAfter base entries lost)) := by
  induction sequential generalizing cache lost with
  | done db hRoot => exact ⟨fun stuck => stuck.elim, fun _ => ⟨cache, rfl, tracks⟩⟩
  | @entry db db' last hRoot middle lastRoot k v kvs entries accepts call rest ih =>
    obtain ⟨single, made, rfl⟩ := addNewTrie_view tracks.stored call
    have added := addNode_of_single made
    by_cases here : ∃ h ∈ (footprint cryptoHash db hRoot k v).searched, h ∈ lost
    · refine ⟨fun _ => ?_, fun free => absurd (Or.inl here) free⟩
      rw [footprint_searched] at here
      have masked := getNodePath_masked tracks.same (view_empty tracks.stored) rootKept (keyNibbles k).length hRoot
        (keyNibbles k)
      rw [if_pos here] at masked
      simp [createTrieNodeList, addNode, masked]
    · obtain ⟨cache', step, tracks', rootKept'⟩ := batch_step unique stored tracks rootKept added here
      obtain ⟨fails, succeeds⟩ := ih tracks' rootKept'
      rw [createTrieNodeList, step]
      exact ⟨fun stuck => fails (stuck.resolve_left here), fun free => succeeds fun later => free (Or.inr later)⟩

end Tracking

section Refinement
variable {cryptoHash}

def Present (db : NodeStore Hash) (hashRoot : Hash) : Prop := hashRoot = 0 ∨ Complete db hashRoot

def Refines (batch : NodeStore Hash) (newRoot : Hash) (last : NodeStore Hash) (lastRoot : Hash) : Prop :=
  Present batch newRoot ∧ ∀ k, retrieve batch newRoot k = retrieve last lastRoot k

omit [DecidableEq Hash] in
theorem reaches_mono {db db' : NodeStore Hash} (included : Included db db') {h last : Hash}
    (reached : Reaches db h last) : Reaches db' h last := by
  induction reached with
  | refl h => exact .refl h
  | step read link rest ih => exact .step (included _ _ read) link ih

omit [Zero Hash] in
theorem mask_included (lost : List Hash) (db : NodeStore Hash) : Included (mask lost db) db := by
  intro h node read
  unfold mask at read
  split_ifs at read
  exact read

/-- Masking out nodes is harmless exactly when the trie does not reach them. -/
theorem refines_mask_iff {lost : List Hash} {db : NodeStore Hash} (root : Hash)
    (known : ∀ h ∈ lost, h ≠ 0) (empty : db 0 = none) :
    Refines (mask lost db) root db root ↔ Present db root ∧ ∀ h ∈ lost, ¬Reaches db root h := by
  constructor
  · rintro ⟨zero | complete, _⟩
    · refine ⟨Or.inl zero, fun h mem reached => ?_⟩
      subst zero
      cases reached with
      | refl => exact known 0 mem rfl
      | step read => cases empty.symm.trans read
    · refine ⟨Or.inr (complete.mono (mask_included lost db)), fun h mem reached => ?_⟩
      obtain ⟨node, read⟩ := complete h (complete.reaches (mask_included lost db) reached)
      simp [mask, mem] at read
  · rintro ⟨present, free⟩
    have agree : ∀ other, Reaches db root other → mask lost db other = db other := by
      intro other reached
      have kept : other ∉ lost := fun mem => free other mem reached
      simp [mask, kept]
    refine ⟨present.imp_right fun complete h reached => ?_, fun k => retrieve_congr k agree⟩
    have reached' := reaches_mono (mask_included lost db) reached
    rw [agree h reached']
    exact complete h reached'

/-- Exactly when a batch refines the sequential calls: some entry has to pass a lost node,
so that the batch fails as a whole, or the sequential trie is complete without the lost
nodes. -/
theorem batch_refines_iff (collisionless : Collisionless cryptoHash) (s : StoreState Hash)
    (reachable : StoreReachable cryptoHash s) (hashRoot : Hash) (mapKvList : BytesMap)
    (entries : List (Footprint Hash)) (last : NodeStore Hash) (lastRoot : Hash)
    (sequential : Sequential cryptoHash s.db hashRoot mapKvList entries last lastRoot) :
    (∀ accepts newRoot batch, addNewTrie cryptoHash accepts s.db hashRoot mapKvList = (some newRoot, batch) →
      Refines batch newRoot last lastRoot) ↔
    (Stuck s.db entries [] ∨
      (Present last lastRoot ∧ ∀ h ∈ lostAfter s.db entries [], ¬Reaches last lastRoot h)) := by
  have stored := (storeReachable_genuine collisionless reachable).stored
  have start : Tracks cryptoHash s.db ∅ s.db [] :=
    ⟨by rw [view_empty stored]; funext h; simp [mask], addressed_empty _, stored, Included.refl _, by simp⟩
  obtain ⟨fails, succeeds⟩ := batch_run collisionless stored sequential start (by simp)
  by_cases stuck : Stuck s.db entries []
  · simp only [stuck, true_or, iff_true]
    intro accepts newRoot batch call
    obtain ⟨cache, made, _⟩ := addNewTrie_view stored call
    rw [fails stuck] at made
    cases made
  · obtain ⟨cache, made, tracks⟩ := succeeds stuck
    have known : ∀ h ∈ lostAfter s.db entries [], h ≠ 0 := fun h member zero => tracks.nonzero (zero ▸ member)
    rw [← refines_mask_iff _ known (addressed_zero tracks.stored), ← tracks.same]
    simp only [stuck, false_or]
    constructor
    · intro refines
      have call := addNewTrie_accepting made
      obtain ⟨cache', made', same⟩ := addNewTrie_view stored call
      rw [made] at made'
      cases made'
      have result := refines _ _ _ call
      rwa [same] at result
    · intro refines accepts newRoot batch call
      obtain ⟨cache', made', rfl⟩ := addNewTrie_view stored call
      rw [made] at made'
      cases made'
      exact refines

omit [DecidableEq Hash] in
theorem Closed.complete {fit : TrieBranch Hash → Prop} {db : NodeStore Hash} {h : Hash} (closed : Closed fit db h) :
    Complete db h := by
  have leaf : ∀ x last, HoldsValue db x → Reaches db x last → ∃ node, db last = some node := by
    rintro x last ⟨v, held⟩ reached
    cases reached with
    | refl => exact ⟨_, held⟩
    | step read link =>
      cases held.symm.trans read
      exact link.elim
  intro last reached
  induction closed with
  | branch read fits next value ih =>
    cases reached with
    | refl => exact ⟨_, read⟩
    | step readAgain link rest =>
      cases read.symm.trans readAgain
      obtain ⟨present, n, rfl | rfl⟩ := link
      · exact ih n present rest
      · exact leaf _ _ (value n present) rest
  | extension read keyed next value ih =>
    cases reached with
    | refl => exact ⟨_, read⟩
    | step readAgain link rest =>
      cases read.symm.trans readAgain
      obtain ⟨present, rfl | rfl⟩ := link
      · exact ih present rest
      · exact leaf _ _ (value present) rest

theorem sequential_present (unique : Collisionless cryptoHash) (nonzero : NonzeroHash cryptoHash)
    {db last : NodeStore Hash} {cache : NodeCache Hash} {root lastRoot : Hash}
    (built : Inserted cryptoHash ⟨db, cache⟩ root) {kvs : BytesMap}
    (full : ∀ kv ∈ kvs, kv.1 ≠ [] ∧ kv.2 ≠ []) {entries : List (Footprint Hash)}
    (sequential : Sequential cryptoHash db root kvs entries last lastRoot) : Present last lastRoot := by
  induction sequential with
  | done db root =>
    by_cases zero : root = 0
    · exact Or.inl zero
    · exact Or.inr ((built.invariant unique nonzero).2 zero).complete
  | @entry db db' last root middle lastRoot k v kvs entries accepts call rest ih =>
    obtain ⟨key, value⟩ := full (k, v) mem_cons_self
    exact ih (.insert built accepts k v key value call) fun kv mem => full kv (mem_cons_of_mem _ mem)

namespace TermHash

/-- The first two keys share the subtrie below their first nibble; the third entry
replaces it under the second key only. -/
def sharing : BytesMap := [([0x11], [7]), ([0x21], [7]), ([0x21, 0x00], [7])]

def sharing1 : Option Digest × NodeStore Digest := addNewTrie encode always emptyStore 0 [([0x11], [7])]

def sharing2 : Option Digest × NodeStore Digest :=
  addNewTrie encode always sharing1.2 (sharing1.1.getD 0) [([0x21], [7])]

def sharing3 : Option Digest × NodeStore Digest :=
  addNewTrie encode always sharing2.2 (sharing2.1.getD 0) [([0x21, 0x00], [7])]

def sharingBatch : Option Digest × NodeStore Digest := addNewTrie encode always emptyStore 0 sharing

set_option maxRecDepth 20000 in
theorem sharing_sequential : Sequential encode emptyStore 0 sharing
    [footprint encode emptyStore 0 [0x11] [7], footprint encode sharing1.2 (sharing1.1.getD 0) [0x21] [7],
      footprint encode sharing2.2 (sharing2.1.getD 0) [0x21, 0x00] [7]] sharing3.2 (sharing3.1.getD 0) :=
  .entry always (Prod.ext (by decide) rfl) (.entry always (Prod.ext (by decide) rfl)
    (.entry always (Prod.ext (by decide) rfl) (.done _ _)))

set_option maxRecDepth 20000 in
/-- The batch returns a root and loses a key that the sequential calls keep. -/
theorem batch_loses_shared_node : ∃ entries last lastRoot newRoot batch,
    Sequential encode emptyStore 0 sharing entries last lastRoot ∧
    addNewTrie encode always emptyStore 0 sharing = (some newRoot, batch) ∧
    retrieve last lastRoot [0x11] = some [7] ∧ retrieve batch newRoot [0x11] = none :=
  ⟨_, _, _, sharingBatch.1.getD 0, sharingBatch.2, sharing_sequential, Prod.ext (by decide) rfl, by decide, by decide⟩

set_option maxRecDepth 20000 in
/-- A batch of one entry refines its call; the batch above does not refine its calls. -/
theorem batch_refines_iff_sharing :
    Refines sharing1.2 (sharing1.1.getD 0) sharing1.2 (sharing1.1.getD 0) ∧
    ¬(Stuck emptyStore [footprint encode emptyStore 0 [0x11] [7],
        footprint encode sharing1.2 (sharing1.1.getD 0) [0x21] [7],
        footprint encode sharing2.2 (sharing2.1.getD 0) [0x21, 0x00] [7]] [] ∨
      (Present sharing3.2 (sharing3.1.getD 0) ∧ ∀ h ∈ lostAfter emptyStore
        [footprint encode emptyStore 0 [0x11] [7], footprint encode sharing1.2 (sharing1.1.getD 0) [0x21] [7],
          footprint encode sharing2.2 (sharing2.1.getD 0) [0x21, 0x00] [7]] [],
        ¬Reaches sharing3.2 (sharing3.1.getD 0) h)) := by
  constructor
  · have single : Sequential encode emptyStore 0 [([0x11], [7])] [footprint encode emptyStore 0 [0x11] [7]] sharing1.2
        (sharing1.1.getD 0) := .entry always (Prod.ext (by decide) rfl) (.done _ _)
    have present := sequential_present encode_collisionless encode_nonzero
      (.start (s := ⟨emptyStore, ∅⟩) .refl) (by decide) single
    refine (batch_refines_iff encode_collisionless ⟨emptyStore, ∅⟩ .refl 0 _ _ _ _ single).mpr
      (Or.inr ⟨present, ?_⟩) always _ _ (Prod.ext (by decide) rfl)
    have none : lostAfter emptyStore [footprint encode emptyStore 0 [0x11] [7]] [] = [] := by decide
    simp only [none, not_mem_nil, false_implies, implies_true]
  · intro holds
    have refines := (batch_refines_iff encode_collisionless ⟨emptyStore, ∅⟩ .refl 0 sharing _ _ _
      sharing_sequential).mpr holds always (sharingBatch.1.getD 0) sharingBatch.2 (Prod.ext (by decide) rfl)
    have same := refines.2 [0x11]
    revert same
    decide

end TermHash
end Refinement
end HashAhead.Trie
