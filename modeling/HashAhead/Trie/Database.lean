import Mathlib.Data.List.AList
import HashAhead.Trie.Node

/-! The trie database: path search, node rewriting, batch updates and lookup. Loops
over a key carry its nibble count as a bound, which suffices because every stored
extension has a non-empty key. -/

namespace HashAhead.Trie
variable {Hash : Type}

abbrev NodeStore (Hash : Type) := Hash → Option (TrieValue Hash)

/-- `mapCacheNode`, the nodes of one update that are not in the engine yet. -/
abbrev NodeCache (Hash : Type) := AList (fun _ : Hash => TrieValue Hash)

abbrev BytesMap := List (Bytes × Bytes)

inductive KvType where
  | share
  | old
  | new
  deriving DecidableEq, Repr

/-- `CTrieKeyValue`, one node of the path that an update rewrites. -/
structure TrieKeyValue (Hash : Type) where
  nKvType : KvType
  keyOld : Bytes
  keyNew : Bytes
  value : TrieValue Hash
  hashValue : Hash
  deriving DecidableEq, Repr

def sameLen : Bytes → Bytes → Nat
  | a :: first, b :: second => if a = b then sameLen first second + 1 else 0
  | _, _ => 0

variable [DecidableEq Hash] [Zero Hash]

def TrieKeyValue.calcValueHash (cryptoHash : TrieValue Hash → Hash) (kv : TrieKeyValue Hash) :
    TrieKeyValue Hash :=
  { kv with hashValue := kv.value.calcHash cryptoHash }

section Path

/-- The node that carries the rest of an inserted key below the existing trie. -/
def newNodePath : Bytes → List (TrieKeyValue Hash)
  | [] => []
  | [n] => [⟨.new, [], [n], .branch .new, 0⟩]
  | syKey => [⟨.new, [], syKey, .extension (TrieExtension.new.setKey syKey), 0⟩]

/-- The node that carries the rest of a split extension key with both of its links. -/
def oldNodePath (e : TrieExtension Hash) : Bytes → List (TrieKeyValue Hash)
  | [] => []
  | [n] => [⟨.old, [n], [],
      .branch ((TrieBranch.new.setNextHash n e.getNextHash).setValueHash n e.getValueHash), 0⟩]
  | btNodeKey => [⟨.old, btNodeKey, [],
      .extension (((TrieExtension.new.setKey btNodeKey).setNextHash e.getNextHash).setValueHash
        e.getValueHash), 0⟩]

/-- The branch put where a split extension key and the inserted key part, or at their
single common nibble. It takes both links when the extension key ends in it. -/
def forkBranch (e : TrieExtension Hash) (btNodeKey syKey : Bytes) : TrieKeyValue Hash :=
  { nKvType := .share
    keyOld := btNodeKey.take 1
    keyNew := syKey.take 1
    value := .branch (match btNodeKey with
      | [n] => (TrieBranch.new.setNextHash n e.getNextHash).setValueHash n e.getValueHash
      | _ => .new)
    hashValue := 0 }

def prefixExtension (e : TrieExtension Hash) (btNodeKey syKey : Bytes) (nSameLen : Nat) :
    TrieKeyValue Hash :=
  { nKvType := .share
    keyOld := btNodeKey.take nSameLen
    keyNew := syKey.take nSameLen
    value := .extension
      (if btNodeKey.length = nSameLen then
        ((TrieExtension.new.setKey (btNodeKey.take nSameLen)).setNextHash e.getNextHash).setValueHash
          e.getValueHash
      else TrieExtension.new.setKey (btNodeKey.take nSameLen))
    hashValue := 0 }

/-- `CTrieDB::GetBranchPath`: the nodes pushed on the path and, when the search goes
on, the next hash with the rest of the key. -/
def getBranchPath (b : TrieBranch Hash) : Bytes → List (TrieKeyValue Hash) × Option (Hash × Bytes)
  | [] => ([], none)
  | n :: rest =>
      let kvBranch : TrieKeyValue Hash := ⟨.share, [], [n], .branch b, 0⟩
      if rest ≠ [] ∧ b.getNextHash n ≠ 0 then ([kvBranch], some (b.getNextHash n, rest))
      else (kvBranch :: newNodePath rest, none)

/-- The part of `CTrieDB::GetExtensionPath` that splits an extension. -/
def splitExtension (e : TrieExtension Hash) (btNodeKey syKey : Bytes) : List (TrieKeyValue Hash) :=
  let nSameLen := sameLen syKey btNodeKey
  if nSameLen = 0 then
    forkBranch e btNodeKey syKey ::
      (oldNodePath e (btNodeKey.drop 1) ++ newNodePath (syKey.drop 1))
  else
    let kvPrefix :=
      if nSameLen = 1 then forkBranch e btNodeKey syKey else prefixExtension e btNodeKey syKey nSameLen
    let btNodeKey := btNodeKey.drop nSameLen
    let syKey := syKey.drop nSameLen
    if btNodeKey ≠ [] ∧ syKey ≠ [] then
      kvPrefix :: forkBranch e btNodeKey syKey ::
        (oldNodePath e (btNodeKey.drop 1) ++ newNodePath (syKey.drop 1))
    else kvPrefix :: (oldNodePath e btNodeKey ++ newNodePath syKey)

def getExtensionPath (e : TrieExtension Hash) (syKey : Bytes) :
    List (TrieKeyValue Hash) × Option (Hash × Bytes) :=
  let btNodeKey := e.getKey
  if btNodeKey.length ≤ syKey.length ∧ btNodeKey = syKey.take btNodeKey.length then
    let kvExtension : TrieKeyValue Hash := ⟨.share, btNodeKey, btNodeKey, .extension e, 0⟩
    let rest := syKey.drop btNodeKey.length
    if e.getNextHash = 0 then (kvExtension :: newNodePath rest, none)
    else ([kvExtension], some (e.getNextHash, rest))
  else (splitExtension e btNodeKey syKey, none)

/-- `CTrieDB::GetNodeValue`; the flag tells whether the node came from the cache. -/
def getNodeValue (db : NodeStore Hash) (mapCacheNode : NodeCache Hash) (hash : Hash) :
    Option (TrieValue Hash × Bool) :=
  if hash = 0 then none
  else match mapCacheNode.lookup hash with
    | some value => some (value, true)
    | none => (db hash).map fun value => (value, false)

def nodePathStep (syKey : Bytes) :
    TrieValue Hash → Option (List (TrieKeyValue Hash) × Option (Hash × Bytes))
  | .branch b => some (getBranchPath b syKey)
  | .extension e => some (getExtensionPath e syKey)
  | .value _ => none

/-- `CTrieDB::GetNodePath`, with `vRemove`. A root that cannot be read starts a new trie. -/
def getNodePath (db : NodeStore Hash) (mapCacheNode : NodeCache Hash) (hashRoot : Hash) :
    Nat → Hash → Bytes → Option (List (TrieKeyValue Hash) × List Hash)
  | _, _, [] => some ([], [])
  | 0, _, _ :: _ => none
  | bound + 1, hash, n :: rest =>
      match getNodeValue db mapCacheNode hash with
      | none => if hash = hashRoot then some (newNodePath (n :: rest), []) else none
      | some (value, fCache) =>
          let vRemove := if fCache then [hash] else []
          match nodePathStep (n :: rest) value with
          | none => none
          | some (path, none) => some (path, vRemove)
          | some (path, some (hash, syKey)) =>
              (getNodePath db mapCacheNode hashRoot bound hash syKey).map fun below =>
                (path ++ below.1, vRemove ++ below.2)

end Path

section Update
variable (cryptoHash : TrieValue Hash → Hash)

/-- The first loop of `CTrieDB::AddNode`, from the end of the path to its start: shared
and old nodes are linked to the old subtrie below them. -/
def relinkOld : List (TrieKeyValue Hash) → Option (List (TrieKeyValue Hash) × Hash)
  | [] => some ([], 0)
  | kv :: path =>
      match relinkOld path with
      | none => none
      | some (below, hashPrevOld) =>
          match kv.value with
          | .branch b =>
              if kv.nKvType = .new then some (kv :: below, hashPrevOld)
              else
                let b := match kv.keyOld with
                  | [] => b
                  | n :: _ => if hashPrevOld = 0 then b else b.setNextHash n hashPrevOld
                let kv := TrieKeyValue.calcValueHash cryptoHash { kv with value := .branch b }
                some (kv :: below, kv.hashValue)
          | .extension e =>
              if kv.nKvType = .new then some (kv :: below, hashPrevOld)
              else
                let e := if hashPrevOld = 0 then e else e.setNextHash hashPrevOld
                let kv := TrieKeyValue.calcValueHash cryptoHash { kv with value := .extension e }
                some (kv :: below, kv.hashValue)
          | .value _ => none

/-- How the second loop ends: the value is already in place, or the path is rewritten
and `hashPrev` is the hash of its first shared or new node. -/
inductive Relinked (Hash : Type) where
  | unchanged
  | linked (path : List (TrieKeyValue Hash)) (hashPrev : Hash) (fIsValue : Bool)
  deriving DecidableEq, Repr

/-- The second loop of `CTrieDB::AddNode`: shared and new nodes are linked to the new
value or to the rewritten node below them. -/
def relinkNew (hashValue : Hash) : List (TrieKeyValue Hash) → Option (Relinked Hash)
  | [] => some (.linked [] hashValue true)
  | kv :: path =>
      match relinkNew hashValue path with
      | none => none
      | some .unchanged => some .unchanged
      | some (.linked below hashPrev fIsValue) =>
          match kv.value with
          | .branch b =>
              if kv.nKvType = .old then some (.linked (kv :: below) hashPrev fIsValue)
              else match kv.keyNew with
                | [] =>
                    let kv := kv.calcValueHash cryptoHash
                    some (.linked (kv :: below) kv.hashValue fIsValue)
                | n :: _ =>
                    if fIsValue then
                      if hashPrev ≠ 0 ∧ b.getValueHash n = hashPrev then some .unchanged
                      else
                        let kv := TrieKeyValue.calcValueHash cryptoHash
                          { kv with value := .branch (b.setValueHash n hashPrev) }
                        some (.linked (kv :: below) kv.hashValue false)
                    else
                      let kv := TrieKeyValue.calcValueHash cryptoHash
                        { kv with value := .branch (b.setNextHash n hashPrev) }
                      some (.linked (kv :: below) kv.hashValue false)
          | .extension e =>
              if kv.nKvType = .old then some (.linked (kv :: below) hashPrev fIsValue)
              else if fIsValue then
                if hashPrev ≠ 0 ∧ e.getValueHash = hashPrev then some .unchanged
                else
                  let kv := TrieKeyValue.calcValueHash cryptoHash
                    { kv with value := .extension (e.setValueHash hashPrev) }
                  some (.linked (kv :: below) kv.hashValue false)
              else
                let kv := TrieKeyValue.calcValueHash cryptoHash
                  { kv with value := .extension (e.setNextHash hashPrev) }
                some (.linked (kv :: below) kv.hashValue false)
          | .value _ => none

/-- The last loop of `CTrieDB::AddNode`: nodes without content are not kept. -/
def cacheNodes (path : List (TrieKeyValue Hash)) (mapCacheNode : NodeCache Hash) : NodeCache Hash :=
  path.foldl (fun cache kv => if kv.hashValue ≠ 0 then cache.insert kv.hashValue kv.value else cache)
    mapCacheNode

def relink (hashValue : Hash) (path : List (TrieKeyValue Hash)) : Option (Relinked Hash) :=
  match relinkOld cryptoHash path with
  | none => none
  | some (path, _) => relinkNew cryptoHash hashValue path

def valueEntry (btValue : Bytes) : TrieKeyValue Hash :=
  TrieKeyValue.calcValueHash cryptoHash ⟨.new, [], [], .value btValue, 0⟩

/-- `CTrieDB::AddNode`: the new root and the new cache, or failure. -/
def addNode (db : NodeStore Hash) (hashRoot : Hash) (nbKeyNibble btValue : Bytes)
    (mapCacheNode : NodeCache Hash) : Option (Hash × NodeCache Hash) :=
  match getNodePath db mapCacheNode hashRoot nbKeyNibble.length hashRoot nbKeyNibble with
  | none => none
  | some (path, vRemove) =>
      let kvValue := valueEntry cryptoHash btValue
      match relink cryptoHash kvValue.hashValue path with
      | none => none
      | some .unchanged => some (hashRoot, mapCacheNode)
      | some (.linked path hashPrev _) =>
          let mapCacheNode := vRemove.foldl (fun cache hash => cache.erase hash) mapCacheNode
          some (hashPrev, cacheNodes (path ++ [kvValue]) mapCacheNode)

def createTrieNodeList (db : NodeStore Hash) :
    Hash → BytesMap → NodeCache Hash → Option (Hash × NodeCache Hash)
  | hashRoot, [], mapCacheNode => some (hashRoot, mapCacheNode)
  | hashRoot, kv :: mapKvList, mapCacheNode =>
      match addNode cryptoHash db hashRoot (keyNibbles kv.1) kv.2 mapCacheNode with
      | none => none
      | some (hashRoot, mapCacheNode) => createTrieNodeList db hashRoot mapKvList mapCacheNode

/-- The loop over `SetDbNodeValue`. The engine may refuse a write, which ends the loop
and leaves the earlier writes in place. -/
def setDbNodeValues (accepts : Hash → Bool) :
    List ((_ : Hash) × TrieValue Hash) → NodeStore Hash → Bool × NodeStore Hash
  | [], db => (true, db)
  | ⟨hash, value⟩ :: rest, db =>
      if accepts hash then setDbNodeValues accepts rest (Function.update db hash (some value))
      else (false, db)

def saveCacheTrie (accepts : Hash → Bool) (mapCacheNode : NodeCache Hash) (db : NodeStore Hash) :
    Bool × NodeStore Hash :=
  setDbNodeValues accepts mapCacheNode.entries db

/-- `CTrieDB::AddNewTrie`: the new root, when it returns true, and the store afterwards. -/
def addNewTrie (accepts : Hash → Bool) (db : NodeStore Hash) (hashPrevRoot : Hash) (mapKvList : BytesMap) :
    Option Hash × NodeStore Hash :=
  match createTrieNodeList cryptoHash db hashPrevRoot mapKvList ∅ with
  | none => (none, db)
  | some (hashNewRoot, mapCacheNode) =>
      let (saved, db) := saveCacheTrie accepts mapCacheNode db
      (if saved then some hashNewRoot else none, db)

end Update

section Lookup

def getKeyValue (db : NodeStore Hash) : Nat → Hash → Bytes → Option Bytes
  | _, hash, [] =>
      match db hash with
      | some (.value v) => some v
      | _ => none
  | 0, _, _ :: _ => none
  | bound + 1, hash, n :: rest =>
      match db hash with
      | some (.branch b) =>
          let hash := if rest = [] then b.getValueHash n else b.getNextHash n
          if hash = 0 then none else getKeyValue db bound hash rest
      | some (.extension e) =>
          let nbNodeKey := e.getKey
          if nbNodeKey.length ≤ (n :: rest).length ∧ nbNodeKey = (n :: rest).take nbNodeKey.length then
            let hash := if (n :: rest).length = nbNodeKey.length then e.getValueHash else e.getNextHash
            if hash = 0 then none
            else getKeyValue db bound hash ((n :: rest).drop nbNodeKey.length)
          else none
      | _ => none

def retrieve (db : NodeStore Hash) (hashRoot : Hash) (btKey : Bytes) : Option Bytes :=
  if hashRoot = 0 then none
  else getKeyValue db (keyNibbles btKey).length hashRoot (keyNibbles btKey)

end Lookup
end HashAhead.Trie
