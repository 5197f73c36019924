import HashAhead.Foundation.ContentStore
import HashAhead.Trie.Database

/-! What a stored trie means. The meaning of a hash is the set of value links that its
keys lead to, read edge by edge and independently of any lookup code. A closed hash
is one whose whole subtrie can be read and is well shaped. -/

namespace HashAhead.Trie
open Foundation
variable {Hash : Type} [Zero Hash]

/-- The value link that a key leads to below a hash, possibly the absent link. -/
inductive ValueSlot (db : NodeStore Hash) : Hash → Bytes → Hash → Prop where
  | branchValue {h : Hash} {b : TrieBranch Hash} (n : UInt8) (read : db h = some (.branch b)) :
      ValueSlot db h [n] (b.getValueHash n)
  | branchNext {h x : Hash} {b : TrieBranch Hash} {n : UInt8} {rest : Bytes}
      (read : db h = some (.branch b)) (linked : b.getNextHash n ≠ 0) (more : rest ≠ [])
      (below : ValueSlot db (b.getNextHash n) rest x) : ValueSlot db h (n :: rest) x
  | extensionValue {h : Hash} {e : TrieExtension Hash} (read : db h = some (.extension e)) :
      ValueSlot db h e.getKey e.getValueHash
  | extensionNext {h x : Hash} {e : TrieExtension Hash} {rest : Bytes}
      (read : db h = some (.extension e)) (linked : e.getNextHash ≠ 0) (more : rest ≠ [])
      (below : ValueSlot db e.getNextHash rest x) : ValueSlot db h (e.getKey ++ rest) x

def Below (db : NodeStore Hash) (h : Hash) (key : Bytes) (x : Hash) : Prop :=
  h ≠ 0 ∧ ValueSlot db h key x

def EdgeSlot (db : NodeStore Hash) (edge : Bytes) (hashValue hashNext : Hash) (key : Bytes) (x : Hash) : Prop :=
  (key = edge ∧ x = hashValue) ∨ ∃ rest, rest ≠ [] ∧ key = edge ++ rest ∧ Below db hashNext rest x

def NodeSlot (db : NodeStore Hash) : TrieValue Hash → Bytes → Hash → Prop
  | .branch b, key, x => ∃ n, EdgeSlot db [n] (b.getValueHash n) (b.getNextHash n) key x
  | .extension e, key, x => EdgeSlot db e.getKey e.getValueHash e.getNextHash key x
  | .value _, _, _ => False

theorem nodeSlot_extension (db : NodeStore Hash) (e : TrieExtension Hash) :
    NodeSlot db (.extension e) = EdgeSlot db e.getKey e.getValueHash e.getNextHash := rfl

theorem valueSlot_iff (db : NodeStore Hash) (h : Hash) (key : Bytes) (x : Hash) :
    ValueSlot db h key x ↔ ∃ node, db h = some node ∧ NodeSlot db node key x := by
  constructor
  · intro slot
    cases slot with
    | branchValue n read => exact ⟨_, read, n, Or.inl ⟨rfl, rfl⟩⟩
    | branchNext read linked more below =>
      exact ⟨_, read, _, Or.inr ⟨_, more, rfl, linked, below⟩⟩
    | extensionValue read => exact ⟨_, read, Or.inl ⟨rfl, rfl⟩⟩
    | extensionNext read linked more below => exact ⟨_, read, Or.inr ⟨_, more, rfl, linked, below⟩⟩
  · rintro ⟨node, read, slot⟩
    cases node with
    | branch b =>
      obtain ⟨n, ⟨rfl, rfl⟩ | ⟨rest, more, rfl, linked, below⟩⟩ := slot
      · exact .branchValue n read
      · exact .branchNext read linked more below
    | extension e =>
      obtain ⟨rfl, rfl⟩ | ⟨rest, more, rfl, linked, below⟩ := slot
      · exact .extensionValue read
      · exact .extensionNext read linked more below
    | value v => exact slot.elim

theorem valueSlot_of_read {db : NodeStore Hash} {h : Hash} {node : TrieValue Hash} (read : db h = some node)
    (key : Bytes) (x : Hash) : ValueSlot db h key x ↔ NodeSlot db node key x := by
  simp [valueSlot_iff, read]

theorem edgeSlot_append (db : NodeStore Hash) (edge rest : Bytes) (held next x : Hash) :
    EdgeSlot db edge held next (edge ++ rest) x ↔
      (rest = [] ∧ x = held) ∨ (rest ≠ [] ∧ Below db next rest x) := by
  constructor
  · rintro (⟨same, here⟩ | ⟨other, more, same, below⟩)
    · exact Or.inl ⟨by simpa using same, here⟩
    · rw [List.append_cancel_left same]
      exact Or.inr ⟨more, below⟩
  · rintro (⟨rfl, here⟩ | ⟨more, below⟩)
    · exact Or.inl ⟨by simp, here⟩
    · exact Or.inr ⟨rest, more, rfl, below⟩

theorem edgeSlot_extends {db : NodeStore Hash} {edge key : Bytes} {held hashNext x : Hash}
    (slot : EdgeSlot db edge held hashNext key x) : ∃ rest, key = edge ++ rest := by
  rcases slot with ⟨rfl, _⟩ | ⟨rest, _, rfl, _⟩
  · exact ⟨[], by simp⟩
  · exact ⟨rest, rfl⟩

theorem nodeSlot_branch_cons (db : NodeStore Hash) (b : TrieBranch Hash) (n : UInt8) (rest : Bytes) (x : Hash) :
    NodeSlot db (.branch b) (n :: rest) x ↔
      EdgeSlot db [n] (b.getValueHash n) (b.getNextHash n) (n :: rest) x := by
  constructor
  · rintro ⟨m, slot⟩
    obtain ⟨tail, same⟩ := edgeSlot_extends slot
    have first : n = m := by simpa using congrArg List.head? same
    rw [first] at slot ⊢
    exact slot
  · intro slot
    exact ⟨n, slot⟩

theorem nodeSlot_branch_nil (db : NodeStore Hash) (b : TrieBranch Hash) (x : Hash) :
    ¬NodeSlot db (.branch b) [] x := by
  rintro ⟨n, slot⟩
  obtain ⟨rest, same⟩ := edgeSlot_extends slot
  simp at same

theorem edgeSlot_cons (db : NodeStore Hash) (n : UInt8) (rest : Bytes) (held next x : Hash) :
    EdgeSlot db [n] held next (n :: rest) x ↔
      (rest = [] ∧ x = held) ∨ (rest ≠ [] ∧ Below db next rest x) :=
  edgeSlot_append db [n] rest held next x

theorem not_below_zero (db : NodeStore Hash) (key : Bytes) (x : Hash) : ¬Below db 0 key x :=
  fun below => below.1 rfl

def Keyed : TrieValue Hash → Prop
  | .extension e => e.getKey ≠ []
  | _ => True

theorem valueSlot_ne_nil {db : NodeStore Hash} (keyed : ∀ h node, db h = some node → Keyed node) {h x : Hash}
    {key : Bytes} (slot : ValueSlot db h key x) : key ≠ [] := by
  cases slot with
  | branchValue n read => simp
  | branchNext read linked more below => simp
  | extensionValue read => exact keyed _ _ read
  | extensionNext read linked more below => simp [more]

def HoldsValue (db : NodeStore Hash) (x : Hash) : Prop := ∃ v, db x = some (.value v)

/-- Everything below the hash can be read and its branches satisfy a node condition.
The derivation is finite, so a closed subtrie has no cycles. -/
inductive Closed (fit : TrieBranch Hash → Prop) (db : NodeStore Hash) : Hash → Prop where
  | branch {h : Hash} {b : TrieBranch Hash} (read : db h = some (.branch b)) (fits : fit b)
      (next : ∀ n, b.getNextHash n ≠ 0 → Closed fit db (b.getNextHash n))
      (value : ∀ n, b.getValueHash n ≠ 0 → HoldsValue db (b.getValueHash n)) : Closed fit db h
  | extension {h : Hash} {e : TrieExtension Hash} (read : db h = some (.extension e))
      (keyed : e.getKey ≠ []) (next : e.getNextHash ≠ 0 → Closed fit db e.getNextHash)
      (value : e.getValueHash ≠ 0 → HoldsValue db e.getValueHash) : Closed fit db h

variable {fit : TrieBranch Hash → Prop}

theorem Closed.mono {db db' : NodeStore Hash} (within : Included db db') {h : Hash}
    (closed : Closed fit db h) : Closed fit db' h := by
  induction closed with
  | branch read fits next value ih =>
    refine .branch (within _ _ read) fits ih (fun n linked => ?_)
    obtain ⟨v, held⟩ := value n linked
    exact ⟨v, within _ _ held⟩
  | extension read keyed next value ih =>
    refine .extension (within _ _ read) keyed ih (fun linked => ?_)
    obtain ⟨v, held⟩ := value linked
    exact ⟨v, within _ _ held⟩

structure EdgeClosed (fit : TrieBranch Hash → Prop) (db : NodeStore Hash) (v h : Hash) : Prop where
  next : h ≠ 0 → Closed fit db h
  value : v ≠ 0 → HoldsValue db v

section
variable {db db' : NodeStore Hash} {h x : Hash} {key : Bytes}

theorem EdgeClosed.mono {v : Hash} (closed : EdgeClosed fit db v h) (within : Included db db') :
    EdgeClosed fit db' v h := by
  refine ⟨fun linked => (closed.next linked).mono within, fun linked => ?_⟩
  obtain ⟨w, held⟩ := closed.value linked
  exact ⟨w, within _ _ held⟩

theorem edgeClosed_zero : EdgeClosed fit db 0 0 :=
  ⟨fun linked => absurd rfl linked, fun linked => absurd rfl linked⟩

theorem Closed.at_branch {b : TrieBranch Hash} (closed : Closed fit db h) (found : db h = some (.branch b)) :
    fit b ∧ ∀ n, EdgeClosed fit db (b.getValueHash n) (b.getNextHash n) := by
  cases closed with
  | branch read fits next value =>
    cases found.symm.trans read
    exact ⟨fits, fun n => ⟨next n, value n⟩⟩
  | extension read => cases found.symm.trans read

theorem Closed.at_extension {e : TrieExtension Hash} (closed : Closed fit db h) (found : db h = some (.extension e)) :
    e.getKey ≠ [] ∧ EdgeClosed fit db e.getValueHash e.getNextHash := by
  cases closed with
  | branch read => cases found.symm.trans read
  | extension read keyed next value =>
    cases found.symm.trans read
    exact ⟨keyed, next, value⟩

theorem Closed.readable (closed : Closed fit db h) : ∃ node, db h = some node := by
  cases closed with
  | branch read => exact ⟨_, read⟩
  | extension read => exact ⟨_, read⟩

theorem ValueSlot.mono (within : Included db db') (slot : ValueSlot db h key x) : ValueSlot db' h key x := by
  induction slot with
  | branchValue n read => exact .branchValue n (within _ _ read)
  | branchNext read linked more below ih => exact .branchNext (within _ _ read) linked more ih
  | extensionValue read => exact .extensionValue (within _ _ read)
  | extensionNext read linked more below ih => exact .extensionNext (within _ _ read) linked more ih

/-- A closed subtrie means the same in every larger store. -/
theorem Closed.valueSlot_iff (within : Included db db') (closed : Closed fit db h) (key : Bytes) (x : Hash) :
    ValueSlot db' h key x ↔ ValueSlot db h key x := by
  constructor
  · intro slot
    induction closed generalizing key with
    | branch read fits next value ih =>
      obtain ⟨node, readAgain, here⟩ := (Trie.valueSlot_iff _ _ _ _).mp slot
      cases (within _ _ read).symm.trans readAgain
      obtain ⟨n, ⟨rfl, rfl⟩ | ⟨rest, more, rfl, linked, below⟩⟩ := here
      · exact .branchValue n read
      · exact .branchNext read linked more (ih n linked rest below)
    | extension read keyed next value ih =>
      obtain ⟨node, readAgain, here⟩ := (Trie.valueSlot_iff _ _ _ _).mp slot
      cases (within _ _ read).symm.trans readAgain
      obtain ⟨rfl, rfl⟩ | ⟨rest, more, rfl, linked, below⟩ := here
      · exact .extensionValue read
      · exact .extensionNext read linked more (ih linked rest below)
  · exact ValueSlot.mono within

theorem Closed.holdsValue (closed : Closed fit db h) (slot : ValueSlot db h key x) (present : x ≠ 0) :
    HoldsValue db x := by
  induction closed generalizing key with
  | branch read fits next value ih =>
    obtain ⟨node, readAgain, here⟩ := (Trie.valueSlot_iff _ _ _ _).mp slot
    cases read.symm.trans readAgain
    obtain ⟨n, ⟨rfl, rfl⟩ | ⟨rest, more, rfl, linked, below⟩⟩ := here
    · exact value n present
    · exact ih n linked below
  | extension read keyed next value ih =>
    obtain ⟨node, readAgain, here⟩ := (Trie.valueSlot_iff _ _ _ _).mp slot
    cases read.symm.trans readAgain
    obtain ⟨rfl, rfl⟩ | ⟨rest, more, rfl, linked, below⟩ := here
    · exact value present
    · exact ih linked below

theorem Closed.valueSlot_unique {y : Hash} (closed : Closed fit db h) (first : ValueSlot db h key x)
    (second : ValueSlot db h key y) : x = y := by
  induction closed generalizing key with
  | branch read fits next value ih =>
    obtain ⟨_, readFirst, slotFirst⟩ := (Trie.valueSlot_iff _ _ _ _).mp first
    obtain ⟨_, readSecond, slotSecond⟩ := (Trie.valueSlot_iff _ _ _ _).mp second
    cases read.symm.trans readFirst
    cases read.symm.trans readSecond
    cases key with
    | nil => exact absurd slotFirst (nodeSlot_branch_nil _ _ _)
    | cons n rest =>
      rw [nodeSlot_branch_cons, edgeSlot_cons] at slotFirst slotSecond
      rcases slotFirst with ⟨end1, here1⟩ | ⟨more1, linked, below1⟩
      · rcases slotSecond with ⟨_, here2⟩ | ⟨more2, _⟩
        · rw [here1, here2]
        · exact absurd end1 more2
      · rcases slotSecond with ⟨end2, _⟩ | ⟨_, _, below2⟩
        · exact absurd end2 more1
        · exact ih n linked below1 below2
  | extension read keyed next value ih =>
    obtain ⟨_, readFirst, slotFirst⟩ := (Trie.valueSlot_iff _ _ _ _).mp first
    obtain ⟨_, readSecond, slotSecond⟩ := (Trie.valueSlot_iff _ _ _ _).mp second
    cases read.symm.trans readFirst
    cases read.symm.trans readSecond
    obtain ⟨rest, rfl⟩ := edgeSlot_extends slotFirst
    simp only [NodeSlot, edgeSlot_append] at slotFirst slotSecond
    rcases slotFirst with ⟨end1, here1⟩ | ⟨more1, linked, below1⟩
    · rcases slotSecond with ⟨_, here2⟩ | ⟨more2, _⟩
      · rw [here1, here2]
      · exact absurd end1 more2
    · rcases slotSecond with ⟨end2, _⟩ | ⟨_, _, below2⟩
      · exact absurd end2 more1
      · exact ih linked below1 below2

end

end HashAhead.Trie
