import HashAhead.Trie.Lookup
import HashAhead.Trie.Update

/-! Older tries under updates. Superseded nodes are dropped from the pending cache only,
so the engine never loses or changes a record and older roots keep their content. A term model of the node hash, where
the digest of a node is its own encoding, shows that the idealizations of `Node` are consistent. -/

namespace HashAhead.Trie.TermHash
open List

abbrev Digest := List Nat

instance : Zero Digest := ⟨[]⟩

def block (xs : List Nat) : List Nat := xs.length :: xs

def byteBlock (bytes : Bytes) : List Nat := block (bytes.map UInt8.toNat)

def hashBlock (hashes : List Digest) : List Nat := hashes.length :: (hashes.map block).flatten

/-- The serialized fields in the order of the source, each with its length in front. -/
def encode : TrieValue Digest → Digest
  | .branch b => 1 :: (byteBlock b.keyIndexNext ++ (byteBlock b.keyIndexValue ++
      (hashBlock b.branchNext ++ hashBlock b.branchValue)))
  | .extension e => 2 :: e.flag.toNat :: (byteBlock e.key ++ hashBlock e.link)
  | .value v => 3 :: byteBlock v

variable {others more : List Nat}

private theorem block_append_inj {xs ys : List Nat} (same : block xs ++ more = block ys ++ others)
    : xs = ys ∧ more = others := by
  simp only [block, cons_append, List.cons.injEq] at same
  exact append_inj same.2 same.1

private theorem byteBlock_append_inj {xs ys : Bytes} (same : byteBlock xs ++ more = byteBlock ys ++ others)
    : xs = ys ∧ more = others := by
  obtain ⟨numbers, rest⟩ := block_append_inj same
  exact ⟨map_injective_iff.mpr (fun a b h => UInt8.toNat_inj.mp h) numbers, rest⟩

private theorem blocks_append_inj {xs ys : List Digest} (lengths : xs.length = ys.length)
    (same : (xs.map block).flatten ++ more = (ys.map block).flatten ++ others) :
    xs = ys ∧ more = others := by
  induction xs generalizing ys with
  | nil =>
    cases ys with
    | nil => exact ⟨rfl, by simpa using same⟩
    | cons y ys => simp at lengths
  | cons x xs ih =>
    cases ys with
    | nil => simp at lengths
    | cons y ys =>
      simp only [map_cons, flatten_cons, append_assoc] at same
      obtain ⟨head, tail⟩ := block_append_inj same
      obtain ⟨rest, after⟩ := ih (by simpa using lengths) tail
      exact ⟨by rw [head, rest], after⟩

private theorem hashBlock_append_inj {xs ys : List Digest} (same : hashBlock xs ++ more = hashBlock ys ++ others)
    : xs = ys ∧ more = others := by
  simp only [hashBlock, cons_append, List.cons.injEq] at same
  exact blocks_append_inj same.1 same.2

theorem encode_collisionless : Collisionless encode := by
  intro first second same
  cases first with
  | branch a =>
    cases second with
    | branch b =>
      simp only [encode, List.cons.injEq, true_and] at same
      obtain ⟨keyNext, same⟩ := byteBlock_append_inj same
      obtain ⟨keyValue, same⟩ := byteBlock_append_inj same
      obtain ⟨next, same⟩ := hashBlock_append_inj same
      have value := (hashBlock_append_inj (congrArg (· ++ []) same)).1
      cases a
      cases b
      simp_all
    | extension b => simp [encode] at same
    | value b => simp [encode] at same
  | extension a =>
    cases second with
    | branch b => simp [encode] at same
    | extension b =>
      simp only [encode, List.cons.injEq, true_and] at same
      obtain ⟨key, rest⟩ := byteBlock_append_inj same.2
      have link := (hashBlock_append_inj (congrArg (· ++ []) rest)).1
      have flag := UInt8.toNat_inj.mp same.1
      cases a
      cases b
      simp_all
    | value b => simp [encode] at same
  | value a =>
    cases second with
    | branch b => simp [encode] at same
    | extension b => simp [encode] at same
    | value b =>
      simp only [encode, List.cons.injEq, true_and] at same
      rw [(byteBlock_append_inj (congrArg (· ++ []) same)).1]

theorem encode_nonzero : NonzeroHash encode := by
  intro node zero
  cases node <;> exact cons_ne_nil _ _ zero

def always : Digest → Bool := fun _ => true

def emptyStore : NodeStore Digest := fun _ => none

end HashAhead.Trie.TermHash

namespace HashAhead.Trie
open Foundation Included

variable {Hash : Type} [DecidableEq Hash] [Zero Hash] (cryptoHash : TrieValue Hash → Hash)

section Engine
variable {cryptoHash}

section
variable (unique : Collisionless cryptoHash) (accepts : Hash → Bool)
include unique

theorem setDbNodeValues_keeps (entries : List ((_ : Hash) × TrieValue Hash))
    (valid : ∀ entry ∈ entries, Genuine cryptoHash entry.2 entry.1) (db : NodeStore Hash)
    (stored : Addressed (Genuine cryptoHash) db) :
    Addressed (Genuine cryptoHash) (setDbNodeValues accepts entries db).2 ∧
      Included db (setDbNodeValues accepts entries db).2 := by
  induction entries generalizing db with
  | nil => exact ⟨stored, refl db⟩
  | cons entry entries ih =>
    have fits := valid entry List.mem_cons_self
    rw [setDbNodeValues]
    split_ifs
    · obtain ⟨genuine, included⟩ := ih (fun other mem => valid other (List.mem_cons_of_mem entry mem)) _
        (stored.update fits)
      exact ⟨genuine, (stored.included_update (genuine_unique cryptoHash unique) fits).trans included⟩
    · exact ⟨stored, refl db⟩

theorem saveCacheTrie_keeps (cache : NodeCache Hash) (kept : Addressed (Genuine cryptoHash) (pending cache))
    (db : NodeStore Hash) (stored : Addressed (Genuine cryptoHash) db) :
    Addressed (Genuine cryptoHash) (saveCacheTrie accepts cache db).2 ∧
      Included db (saveCacheTrie accepts cache db).2 :=
  setDbNodeValues_keeps unique accepts cache.entries
    (fun entry mem => kept entry.1 entry.2 (AList.mem_lookup_iff.mpr mem)) db stored

theorem addNewTrie_keeps (db : NodeStore Hash) (stored : Addressed (Genuine cryptoHash) db) (prior : Hash)
    (kvs : BytesMap) :
    Addressed (Genuine cryptoHash) (addNewTrie cryptoHash accepts db prior kvs).2 ∧
      Included db (addNewTrie cryptoHash accepts db prior kvs).2 := by
  unfold addNewTrie
  split
  · exact ⟨stored, refl db⟩
  next newRoot cache made =>
    have kept := createTrieNodeList_genuine cryptoHash stored (addressed_empty _) made
    exact saveCacheTrie_keeps unique accepts cache kept db stored

end

omit [Zero Hash] in
theorem setDbNodeValues_accepting (entries : List ((_ : Hash) × TrieValue Hash)) (db : NodeStore Hash) :
    (setDbNodeValues (fun _ => true) entries db).1 = true := by
  induction entries generalizing db with
  | nil => rfl
  | cons entry entries ih => exact ih _

theorem addNewTrie_accepting {db : NodeStore Hash} {root newRoot : Hash} {kvs : BytesMap}
    {cache : NodeCache Hash}
    (made : createTrieNodeList cryptoHash db root kvs ∅ = some (newRoot, cache)) :
    addNewTrie cryptoHash (fun _ => true) db root kvs =
      (some newRoot, (saveCacheTrie (fun _ => true) cache db).2) := by
  simp [addNewTrie, made, saveCacheTrie, setDbNodeValues_accepting]

end Engine

section Session

/-- The engine together with the cache that a caller of `CreateCacheTrie` keeps. -/
structure StoreState (Hash : Type) where
  db : NodeStore Hash
  mapCacheNode : NodeCache Hash

/-- One operation on the trie database, on any root and with any entries. An engine that
refuses a write leaves the earlier writes of the same operation behind. -/
inductive StoreStep : StoreState Hash → StoreState Hash → Prop where
  | addNewTrie (s : StoreState Hash) (accepts : Hash → Bool) (hashPrevRoot : Hash) (mapKvList : BytesMap) :
      StoreStep s { s with db := (Trie.addNewTrie cryptoHash accepts s.db hashPrevRoot mapKvList).2 }
  | createCacheTrie (s : StoreState Hash) (hashPrevRoot hashNewRoot : Hash) (mapKvList : BytesMap)
      (mapCacheNode : NodeCache Hash)
      (made : createTrieNodeList cryptoHash s.db hashPrevRoot mapKvList s.mapCacheNode =
        some (hashNewRoot, mapCacheNode)) : StoreStep s { s with mapCacheNode := mapCacheNode }
  | saveCacheTrie (s : StoreState Hash) (accepts : Hash → Bool) :
      StoreStep s { s with db := (Trie.saveCacheTrie accepts s.mapCacheNode s.db).2 }
  | dropCache (s : StoreState Hash) : StoreStep s { s with mapCacheNode := ∅ }

def StoreReachable (s : StoreState Hash) : Prop :=
  Relation.ReflTransGen (StoreStep cryptoHash) ⟨fun _ => none, ∅⟩ s

structure StoreGenuine (s : StoreState Hash) : Prop where
  stored : Addressed (Genuine cryptoHash) s.db
  kept : Addressed (Genuine cryptoHash) (pending s.mapCacheNode)

variable {cryptoHash}

section
variable (unique : Collisionless cryptoHash) {s t : StoreState Hash} (genuine : StoreGenuine cryptoHash s)
include unique genuine

theorem storeStep_keeps (step : StoreStep cryptoHash s t) :
    StoreGenuine cryptoHash t ∧ Included s.db t.db := by
  obtain ⟨stored, kept⟩ := genuine
  cases step with
  | addNewTrie accepts hashPrevRoot kvs =>
    obtain ⟨after, included⟩ := addNewTrie_keeps unique accepts s.db stored hashPrevRoot kvs
    exact ⟨⟨after, kept⟩, included⟩
  | createCacheTrie hashPrevRoot hashNewRoot kvs mapCacheNode made =>
    exact ⟨⟨stored, createTrieNodeList_genuine cryptoHash stored kept made⟩, refl s.db⟩
  | saveCacheTrie accepts =>
    obtain ⟨after, included⟩ := saveCacheTrie_keeps unique accepts s.mapCacheNode kept s.db stored
    exact ⟨⟨after, kept⟩, included⟩
  | dropCache => exact ⟨⟨stored, addressed_empty _⟩, refl s.db⟩

theorem storeRun_keeps (run : Relation.ReflTransGen (StoreStep cryptoHash) s t) :
    StoreGenuine cryptoHash t ∧ Included s.db t.db := by
  induction run with
  | refl => exact ⟨genuine, refl s.db⟩
  | tail _ step ih =>
    obtain ⟨middle, first⟩ := ih
    obtain ⟨after, second⟩ := storeStep_keeps unique middle step
    exact ⟨after, first.trans second⟩

end

theorem storeReachable_genuine (unique : Collisionless cryptoHash) {s : StoreState Hash}
    (reachable : StoreReachable cryptoHash s) : StoreGenuine cryptoHash s :=
  (storeRun_keeps unique ⟨addressed_empty _, addressed_empty _⟩ reachable).1

/-- Snapshots persist: from any state of the store and along any run, whatever roots the
calls extend, a value that an older root has is still found, every node that could be
read is unchanged, and a complete older root answers every lookup as before. -/
theorem snapshots_persist (collisionless : Collisionless cryptoHash) (s t : StoreState Hash)
    (reachable : StoreReachable cryptoHash s) (run : Relation.ReflTransGen (StoreStep cryptoHash) s t) :
    (∀ r k v, retrieve s.db r k = some v → retrieve t.db r k = some v) ∧
      (∀ h node, s.db h = some node → t.db h = some node) ∧
      ∀ r, Complete s.db r → Complete t.db r ∧ ∀ k, retrieve t.db r k = retrieve s.db r k := by
  have included := (storeRun_keeps collisionless (storeReachable_genuine collisionless reachable) run).2
  exact ⟨fun r k v found => retrieve_mono included found, included,
    fun r complete => ⟨complete.mono included, complete.retrieve_eq included⟩⟩

/-- Stores with histories of their own never show different maps under one root. -/
theorem root_determines_map (collisionless : Collisionless cryptoHash) (s t : StoreState Hash)
    (left : StoreReachable cryptoHash s) (right : StoreReachable cryptoHash t) (r : Hash) :
    (∀ k v w, retrieve s.db r k = some v → retrieve t.db r k = some w → v = w) ∧
      (Complete s.db r → Complete t.db r → ∀ k, retrieve s.db r k = retrieve t.db r k) := by
  -- a hash has the same node in both stores, so they are parts of one
  have inLeft : Included s.db fun h => (s.db h).or (t.db h) := fun _ _ read => by simp [read]
  have inRight := (storeReachable_genuine collisionless left).stored.included_or
    (storeReachable_genuine collisionless right).stored (genuine_unique _ collisionless)
  constructor
  · intro k v w found found'
    exact Option.some.inj ((retrieve_mono inLeft found).symm.trans (retrieve_mono inRight found'))
  · intro complete complete' k
    exact (complete.retrieve_eq inLeft k).symm.trans (complete'.retrieve_eq inRight k)

namespace TermHash

/-- A store with one key, and the same store after the key was deleted in a later trie. -/
def before : Option Digest × NodeStore Digest := addNewTrie encode always emptyStore 0 [([0x11], [7])]

def deleted : Option Digest × NodeStore Digest :=
  addNewTrie encode always before.2 (before.1.getD 0) [([0x11], [])]

set_option maxRecDepth 4000 in
theorem snapshots_persist_deletion :
    retrieve deleted.2 (before.1.getD 0) [0x11] = some [7] ∧ retrieve deleted.2 (deleted.1.getD 0) [0x11] = none :=
  ⟨(snapshots_persist encode_collisionless ⟨before.2, ∅⟩ ⟨deleted.2, ∅⟩
      (.single (.addNewTrie ⟨emptyStore, ∅⟩ always 0 [([0x11], [7])]))
      (.single (.addNewTrie ⟨before.2, ∅⟩ always (before.1.getD 0) [([0x11], [])]))).1
    (before.1.getD 0) [0x11] [7] (by decide), by decide⟩

theorem root_determines_map_deletion : retrieve deleted.2 (before.1.getD 0) [0x11] = some [7] ∧ ([7] : Bytes) = [7] :=
  ⟨by decide, (root_determines_map encode_collisionless ⟨before.2, ∅⟩ ⟨deleted.2, ∅⟩ (.single (.addNewTrie ⟨_, ∅⟩ ..))
    (.tail (.single (.addNewTrie ⟨_, ∅⟩ ..)) (.addNewTrie ⟨before.2, ∅⟩ ..)) (before.1.getD 0)).1 [0x11] _ _
    (by decide) (by decide)⟩

end TermHash
end Session

end HashAhead.Trie
