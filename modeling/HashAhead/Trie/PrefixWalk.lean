import Mathlib.Algebra.Order.BigOperators.Group.List
import Mathlib.Algebra.Order.Group.Nat
import HashAhead.Trie.MapUpdate

/-! The trie walk, which hands every stored entry from a begin key on, below a key prefix, to a walker that may stop it or
make it fail. A stored key is handed to the walker when it starts with the prefix, and also when it ends inside the prefix. -/

namespace HashAhead.Trie
open Foundation List

variable {Hash : Type} [DecidableEq Hash] [Zero Hash] {σ : Type}

/-- `CTrieDBWalker`. The call gets `fWalkOver` and returns its result, the new
`fWalkOver` and the walker afterwards. -/
structure TrieDBWalker (σ : Type) where
  walk : σ → Bytes → Bytes → Nat → Bool → Bool × Bool × σ

structure WalkState (Hash σ : Type) where
  nbBeginKey : Bytes
  mapCacheNode : NodeCache Hash
  walker : σ
  fWalkOver : Bool

/-- The result of a walk and its state; no value when the fuel does not suffice. -/
abbrev Walked (Hash σ : Type) := Option (Bool × WalkState Hash σ)

/-- Nodes come from the walk's own cache, or from the engine after a check of their hash. -/
def readWalkNode (cryptoHash : TrieValue Hash → Hash) (db : NodeStore Hash) (mapCacheNode : NodeCache Hash)
    (hashNode : Hash) : Option (TrieValue Hash × NodeCache Hash) :=
  match mapCacheNode.lookup hashNode with
  | some value => some (value, mapCacheNode)
  | none =>
      match db hashNode with
      | none => none
      | some value =>
          if hashNode ≠ value.calcHash cryptoHash then none
          else some (value, mapCacheNode.insert hashNode value)

/-- The begin key after entering a node: nothing when the node lies off it, and empty
once it has been reached. -/
def enterBeginKey (nbBeginKey nbPrevKey : Bytes) : Option Bytes :=
  if nbBeginKey ≠ [] ∧ nbPrevKey ≠ [] then
    let nMinSize := min nbBeginKey.length nbPrevKey.length
    if nbBeginKey.take nMinSize ≠ nbPrevKey.take nMinSize then none
    else if nbBeginKey.length = nMinSize then some [] else some nbBeginKey
  else some nbBeginKey

def walkLinks (visit : Hash → WalkState Hash σ → Walked Hash σ) (hashValue hashSub : Hash)
    (st : WalkState Hash σ) : Walked Hash σ :=
  match if hashValue ≠ 0 then visit hashValue st else some (true, st) with
  | some (true, st) => if hashSub ≠ 0 then visit hashSub st else some (true, st)
  | stopped => stopped

def walkSlots (visit : Bytes → Hash → WalkState Hash σ → Walked Hash σ) (b : TrieBranch Hash)
    (nbKeyPrefix nbPrevKey : Bytes) : List UInt8 → WalkState Hash σ → Walked Hash σ
  | [], st => some (true, st)
  | nBranchKey :: rest, st =>
      if st.fWalkOver then some (true, st)
      else if nbKeyPrefix ≠ [] ∧ nbKeyPrefix.head? ≠ some nBranchKey then
        walkSlots visit b nbKeyPrefix nbPrevKey rest st
      else
        match walkLinks (visit (nbPrevKey ++ [nBranchKey])) (b.getValueHash nBranchKey)
            (b.getNextHash nBranchKey) st with
        | some (true, st) => walkSlots visit b nbKeyPrefix nbPrevKey rest st
        | stopped => stopped

def branchKeys (fReverse : Bool) : List UInt8 :=
  let keys := (List.range 16).map UInt8.ofNat
  if fReverse then keys.reverse else keys

def walkThroughNode (cryptoHash : TrieValue Hash → Hash) (db : NodeStore Hash) (walker : TrieDBWalker σ)
    (fReverse : Bool) : Nat → Hash → Bytes → Bytes → Nat → WalkState Hash σ → Walked Hash σ
  | 0, _, _, _, _, _ => none
  | fuel + 1, hashNode, nbKeyPrefix, nbPrevKey, nDepth, st =>
      if st.fWalkOver then some (true, st)
      else match readWalkNode cryptoHash db st.mapCacheNode hashNode with
        | none => some (false, st)
        | some (value, mapCacheNode) =>
            let st := { st with mapCacheNode := mapCacheNode }
            match enterBeginKey st.nbBeginKey nbPrevKey with
            | none => some (true, st)
            | some nbBeginKey =>
                let st := { st with nbBeginKey := nbBeginKey }
                match value with
                | .branch b =>
                    walkSlots (fun nbNextKey hash st => walkThroughNode cryptoHash db walker fReverse fuel hash
                        nbKeyPrefix.tail nbNextKey (nDepth + 1) st) b nbKeyPrefix nbPrevKey (branchKeys fReverse) st
                | .extension e =>
                    let nMinSize := min nbKeyPrefix.length e.getKey.length
                    if nbKeyPrefix.take nMinSize ≠ e.getKey.take nMinSize then some (true, st)
                    else walkLinks (fun hash st => walkThroughNode cryptoHash db walker fReverse fuel hash
                        (nbKeyPrefix.drop nMinSize) (nbPrevKey ++ e.getKey) (nDepth + 1) st) e.getValueHash
                        e.getNextHash st
                | .value v =>
                    let (ok, fWalkOver, next) := walker.walk st.walker (nibble2Byte nbPrevKey).1 v nDepth st.fWalkOver
                    some (ok, { st with walker := next, fWalkOver := fWalkOver })

/-- `CTrieDB::WalkThroughTrie`: the result and the walker afterwards. -/
def walkThroughTrie (cryptoHash : TrieValue Hash → Hash) (db : NodeStore Hash) (fuel : Nat) (hashRoot : Hash)
    (walker : TrieDBWalker σ) (start : σ) (btKeyPrefix btBeginKeyTail : Bytes) (fReverse : Bool) : Option (Bool × σ) :=
  if hashRoot = 0 then some (true, start)
  else
    let nbKeyPrefix := keyNibbles btKeyPrefix
    let nbBeginKey := if btBeginKeyTail = [] then [] else nbKeyPrefix ++ keyNibbles btBeginKeyTail
    (walkThroughNode cryptoHash db walker fReverse fuel hashRoot nbKeyPrefix [] 0
      ⟨nbBeginKey, ∅, start, false⟩).map fun walked => (walked.1, walked.2.walker)

section Compatible

def Compatible (key nbKeyPrefix : Bytes) : Prop := key <+: nbKeyPrefix ∨ nbKeyPrefix <+: key

@[simp] theorem compatible_nil (nbKeyPrefix : Bytes) : Compatible [] nbKeyPrefix := Or.inl nil_prefix

theorem compatible_append (edge rest lead : Bytes) :
    Compatible (edge ++ rest) lead ↔
      Compatible edge lead ∧ Compatible rest (lead.drop edge.length) := by
  induction edge generalizing lead with
  | nil => simp
  | cons n edge ih =>
    cases lead with
    | nil => simp [Compatible]
    | cons m lead =>
      have step := ih lead
      unfold Compatible at step ⊢
      simp only [cons_append, cons_prefix_cons, length_cons, drop_succ_cons] at step ⊢
      by_cases same : n = m
      · simpa [same] using step
      · simp [same, Ne.symm same]

theorem compatible_iff_take (key lead : Bytes) :
    Compatible key lead ↔
      lead.take (min lead.length key.length) = key.take (min lead.length key.length) := by
  induction key generalizing lead with
  | nil => simp
  | cons n key ih =>
    cases lead with
    | nil => simp [Compatible]
    | cons m lead =>
      have step := ih lead
      unfold Compatible at step ⊢
      simp only [cons_prefix_cons, length_cons, Nat.add_min_add_right, take_succ_cons,
        List.cons.injEq]
      by_cases same : n = m
      · simpa [same] using step
      · simp [same, Ne.symm same]

theorem drop_min (key lead : Bytes) :
    lead.drop (min lead.length key.length) = lead.drop key.length := by
  by_cases short : lead.length ≤ key.length
  · rw [Nat.min_eq_left short, drop_length, drop_eq_nil_of_le short]
  · rw [Nat.min_eq_right (by omega)]

theorem compatible_singleton (n : UInt8) (lead : Bytes) :
    Compatible [n] lead ↔ ¬(lead ≠ [] ∧ lead.head? ≠ some n) := by
  cases lead with
  | nil => simp [Compatible]
  | cons m lead =>
    simp only [Compatible, cons_prefix_cons, nil_prefix, and_true, List.head?_cons, ne_eq,
      reduceCtorEq, not_false_eq_true, true_and, not_not, Option.some.injEq]
    exact ⟨fun either => either.elim Eq.symm And.left, fun same => Or.inl same.symm⟩

end Compatible

section Calls
variable {σ : Type}

/-- One call of the walker, with the nibble key relative to where the walk stands. -/
structure WalkCall where
  key : Bytes
  value : Bytes
  depth : Nat

def Continues (walker : TrieDBWalker σ) : Prop :=
  ∀ st key value depth, (walker.walk st key value depth false).1 = true ∧
    (walker.walk st key value depth false).2.1 = false

def callAll (walker : TrieDBWalker σ) (nbPrevKey : Bytes) (calls : List WalkCall) (start : σ) : σ :=
  calls.foldl (fun st call =>
    (walker.walk st (nibble2Byte (nbPrevKey ++ call.key)).1 call.value call.depth false).2.2) start

def WalkCall.below (edge : Bytes) (call : WalkCall) : WalkCall := { call with key := edge ++ call.key }

theorem callAll_append (visit : TrieDBWalker σ) (path : Bytes) (first second : List WalkCall) (start : σ) :
    callAll visit path (first ++ second) start =
      callAll visit path second (callAll visit path first start) := by
  simp [callAll]

variable {Hash : Type}

/-- The calls are those for the present value links of a set of slots whose keys are
compatible with the prefix, in ascending order. -/
structure Lists [Zero Hash] (db : NodeStore Hash) (slots : Bytes → Hash → Prop) (nbKeyPrefix : Bytes)
    (calls : List WalkCall) : Prop where
  exact : ∀ key v, (∃ depth, ⟨key, v, depth⟩ ∈ calls) ↔
    ∃ x, x ≠ 0 ∧ slots key x ∧ db x = some (.value v) ∧ Compatible key nbKeyPrefix
  sorted : calls.Pairwise fun first second => first.key < second.key

variable [Zero Hash] {db : NodeStore Hash}

variable {slots : Bytes → Hash → Prop} {lead : Bytes}

theorem Lists.congr {others : Bytes → Hash → Prop} {calls : List WalkCall} (lists : Lists db slots lead calls)
    (same : ∀ key x, x ≠ 0 → (others key x ↔ slots key x)) :
    Lists db others lead calls := by
  refine ⟨fun key v => (lists.exact key v).trans ?_, lists.sorted⟩
  exact exists_congr fun x => and_congr_right fun there => by rw [same key x there]

theorem lists_nil (none : ∀ key x, x ≠ 0 → slots key x → ¬Compatible key lead)
    : Lists db slots lead [] := by
  refine ⟨fun key v => ?_, .nil⟩
  simp only [not_mem_nil, exists_false, false_iff]
  rintro ⟨x, there, slot, _, along⟩
  exact none key x there slot along

theorem lists_value {hValue : Hash} (there : hValue ≠ 0) {v : Bytes} (held : db hValue = some (.value v))
    (depth : Nat) (lead : Bytes) :
    Lists db (fun key x => key = [] ∧ x = hValue) lead [⟨[], v, depth⟩] := by
  refine ⟨fun key w => ?_, pairwise_singleton _ _⟩
  simp only [mem_singleton, WalkCall.mk.injEq]
  constructor
  · rintro ⟨_, rfl, rfl, _⟩
    exact ⟨hValue, there, ⟨rfl, rfl⟩, held, compatible_nil _⟩
  · rintro ⟨x, _, ⟨rfl, rfl⟩, read, _⟩
    cases held.symm.trans read
    exact ⟨depth, rfl, rfl, rfl⟩

theorem Lists.append {others : Bytes → Hash → Prop} {first second : List WalkCall}
    (left : Lists db slots lead first) (right : Lists db others lead second)
    (order : ∀ a ∈ first, ∀ b ∈ second, a.key < b.key) :
    Lists db (fun key x => slots key x ∨ others key x) lead (first ++ second) := by
  refine ⟨fun key v => ?_, pairwise_append.mpr ⟨left.sorted, right.sorted, order⟩⟩
  simp only [mem_append, exists_or, left.exact, right.exact]
  constructor
  · rintro (⟨x, there, slot, rest⟩ | ⟨x, there, slot, rest⟩)
    · exact ⟨x, there, Or.inl slot, rest⟩
    · exact ⟨x, there, Or.inr slot, rest⟩
  · rintro ⟨x, there, slot | slot, rest⟩
    · exact Or.inl ⟨x, there, slot, rest⟩
    · exact Or.inr ⟨x, there, slot, rest⟩

theorem Lists.below {edge : Bytes} {calls : List WalkCall}
    (lower : Lists db slots (lead.drop edge.length) calls) (along : Compatible edge lead) :
    Lists db (fun key x => ∃ rest, key = edge ++ rest ∧ slots rest x) lead
      (calls.map (WalkCall.below edge)) := by
  constructor
  · intro key v
    constructor
    · rintro ⟨depth, mem⟩
      obtain ⟨⟨rest, w, d⟩, inside, same⟩ := List.mem_map.mp mem
      cases same
      obtain ⟨x, there, slot, held, compatible⟩ := (lower.exact rest w).mp ⟨d, inside⟩
      exact ⟨x, there, ⟨rest, rfl, slot⟩, held, (compatible_append edge rest lead).mpr ⟨along, compatible⟩⟩
    · rintro ⟨x, there, ⟨rest, rfl, slot⟩, held, compatible⟩
      obtain ⟨depth, inside⟩ := (lower.exact rest v).mpr ⟨x, there, slot, held,
        ((compatible_append edge rest lead).mp compatible).2⟩
      exact ⟨depth, List.mem_map.mpr ⟨_, inside, rfl⟩⟩
  · exact pairwise_map.mpr (lower.sorted.imp fun less => append_left_lt less)

/-- The calls of one edge: its value first, then what lies below. -/
theorem Lists.edge {edge : Bytes} {held next : Hash} {first lower : List WalkCall}
    (along : Compatible edge lead)
    (value : Lists db (fun key x => key = [] ∧ x = held) (lead.drop edge.length) first)
    (rest : Lists db (fun key x => key ≠ [] ∧ Below db next key x) (lead.drop edge.length) lower) :
    Lists db (EdgeSlot db edge held next) lead ((first ++ lower).map (WalkCall.below edge)) := by
  refine ((value.append rest ?_).below along).congr fun key x _ => ⟨fun slot => ?_, ?_⟩
  · intro a inFirst b inLower
    obtain ⟨_, _, ⟨here, _⟩, _⟩ := (value.exact a.key a.value).mp ⟨a.depth, inFirst⟩
    obtain ⟨_, _, ⟨more, _⟩, _⟩ := (rest.exact b.key b.value).mp ⟨b.depth, inLower⟩
    obtain ⟨n, tail, long⟩ := exists_cons_of_ne_nil more
    rw [here, long]
    exact nil_lt_cons n tail
  · obtain ⟨tail, rfl⟩ := edgeSlot_extends slot
    exact ⟨tail, rfl, (edgeSlot_append db edge tail held next x).mp slot⟩
  · rintro ⟨tail, rfl, slot⟩
    exact (edgeSlot_append db edge tail held next x).mpr slot

theorem lists_branch {b : TrieBranch Hash} {lead : Bytes} {calls : UInt8 → List WalkCall}
    (slots : ∀ n, Lists db (EdgeSlot db [n] (b.getValueHash n) (b.getNextHash n)) lead (calls n)) :
    Lists db (NodeSlot db (.branch b)) lead ((branchKeys false).flatMap calls) := by
  have head : ∀ n call, call ∈ calls n → ∃ rest, call.key = n :: rest := by
    intro n call mem
    obtain ⟨_, _, slot, _⟩ := ((slots n).exact call.key call.value).mp ⟨call.depth, mem⟩
    obtain ⟨rest, whole⟩ := edgeSlot_extends slot
    exact ⟨rest, whole⟩
  constructor
  · intro key v
    simp only [mem_flatMap]
    constructor
    · rintro ⟨depth, n, _, mem⟩
      obtain ⟨x, there, slot, rest⟩ := ((slots n).exact key v).mp ⟨depth, mem⟩
      exact ⟨x, there, ⟨n, slot⟩, rest⟩
    · rintro ⟨x, there, ⟨n, slot⟩, rest⟩
      obtain ⟨depth, mem⟩ := ((slots n).exact key v).mpr ⟨x, there, slot, rest⟩
      refine ⟨depth, n, ?_, mem⟩
      -- a slot with content is one of the sixteen that the loop visits
      have small : ¬16 ≤ n := by
        intro large
        rcases slot with ⟨_, here⟩ | ⟨_, _, _, linked, _⟩
        · exact there (by simpa [TrieBranch.getValueHash, large] using here)
        · exact linked (by simp [TrieBranch.getNextHash, large])
      have bound : n.toNat < 16 := by simpa using UInt8.lt_iff_toNat_lt.mp (UInt8.not_le.mp small)
      simp only [branchKeys, Bool.false_eq_true, if_false, List.mem_map, mem_range]
      exact ⟨n.toNat, bound, by simp⟩
  · rw [pairwise_flatMap]
    refine ⟨fun n _ => (slots n).sorted, ?_⟩
    have ascending : (branchKeys false).Pairwise (· < ·) := by decide
    refine ascending.imp fun {m n} less first inFirst second inSecond => ?_
    obtain ⟨restFirst, keyFirst⟩ := head m first inFirst
    obtain ⟨restSecond, keySecond⟩ := head n second inSecond
    rw [keyFirst, keySecond, cons_lt_cons_iff]
    exact Or.inl less

end Calls

section Run
variable {Hash : Type} [DecidableEq Hash] [Zero Hash] {cryptoHash : TrieValue Hash → Hash} {db : NodeStore Hash}
  {σ : Type}

def Makes (db : NodeStore Hash) (walker : TrieDBWalker σ) (nbPrevKey : Bytes) (calls : List WalkCall)
    (step : WalkState Hash σ → Walked Hash σ) : Prop :=
  ∀ cache start, Included (pending cache) db → ∃ cache', Included (pending cache') db ∧
    step ⟨[], cache, start, false⟩ = some (true, ⟨[], cache', callAll walker nbPrevKey calls start, false⟩)

theorem readWalkNode_included (stored : Addressed (Genuine cryptoHash) db) {h : Hash} {node : TrieValue Hash}
    (read : db h = some node) {cache : NodeCache Hash} (within : Included (pending cache) db) :
    ∃ cache', Included (pending cache') db ∧ readWalkNode cryptoHash db cache h = some (node, cache') := by
  unfold readWalkNode
  rcases held : cache.lookup h with _ | other
  · refine ⟨cache.insert h node, ?_, ?_⟩
    · rw [pending_insert]
      intro k value found
      by_cases same : k = h
      · subst same
        rw [Function.update_self] at found
        exact read.trans found
      · rw [Function.update_of_ne same] at found
        exact within k value found
    · simp [read, (stored h node read).2.1]
  · have same : other = node := by
      have agree := within h other held
      rw [read] at agree
      cases agree
      rfl
    exact ⟨cache, within, by rw [same]⟩

theorem walkLinks_makes {walker : TrieDBWalker σ} {visit : Hash → WalkState Hash σ → Walked Hash σ}
    {path : Bytes} {held hashSub : Hash} {first second : List WalkCall}
    (value : if held = 0 then first = [] else Makes db walker path first (visit held))
    (sub : if hashSub = 0 then second = [] else Makes db walker path second (visit hashSub)) :
    Makes db walker path (first ++ second) (walkLinks visit held hashSub) := by
  intro cache start within
  rw [callAll_append]
  have head : ∃ cache', Included (pending cache') db ∧
      (if held ≠ 0 then visit held ⟨[], cache, start, false⟩ else some (true, ⟨[], cache, start, false⟩)) =
        some (true, ⟨[], cache', callAll walker path first start, false⟩) := by
    by_cases zero : held = 0
    · rw [if_pos zero] at value
      exact ⟨cache, within, by simp [zero, value, callAll]⟩
    · rw [if_neg zero] at value
      rw [if_pos zero]
      exact value cache start within
  obtain ⟨middle, kept, reached⟩ := head
  unfold walkLinks
  rw [reached]
  by_cases zero : hashSub = 0
  · rw [if_pos zero] at sub
    exact ⟨middle, kept, by simp [zero, sub, callAll]⟩
  · rw [if_neg zero] at sub
    simp only [ne_eq, zero, not_false_eq_true, if_true]
    exact sub middle _ kept

theorem walkSlots_makes {walker : TrieDBWalker σ} {visit : Bytes → Hash → WalkState Hash σ → Walked Hash σ}
    {b : TrieBranch Hash} {nbKeyPrefix path : Bytes} {calls : UInt8 → List WalkCall} {keys : List UInt8}
    (off : ∀ n ∈ keys, ¬Compatible [n] nbKeyPrefix → calls n = [])
    (along : ∀ n ∈ keys, Compatible [n] nbKeyPrefix → Makes db walker path (calls n)
      (walkLinks (visit (path ++ [n])) (b.getValueHash n) (b.getNextHash n))) :
    Makes db walker path (keys.flatMap calls) (walkSlots visit b nbKeyPrefix path keys) := by
  induction keys with
  | nil => exact fun cache start within => ⟨cache, within, rfl⟩
  | cons n keys ih =>
    have rest := ih (fun m mem => off m (mem_cons_of_mem n mem))
      (fun m mem => along m (mem_cons_of_mem n mem))
    intro cache start within
    rw [walkSlots, flatMap_cons]
    simp only [Bool.false_eq_true, if_false]
    by_cases skip : nbKeyPrefix ≠ [] ∧ nbKeyPrefix.head? ≠ some n
    · have apart : ¬Compatible [n] nbKeyPrefix := fun compatible => (compatible_singleton n nbKeyPrefix).mp compatible skip
      rw [if_pos skip, off n mem_cons_self apart]
      exact rest cache start within
    · obtain ⟨middle, kept, reached⟩ := along n mem_cons_self ((compatible_singleton n nbKeyPrefix).mpr skip)
        cache start within
      rw [if_neg skip, reached, callAll_append]
      exact rest middle _ kept

def Walks (cryptoHash : TrieValue Hash → Hash) (db : NodeStore Hash) (hash : Hash) (nbKeyPrefix nbPrevKey : Bytes)
    (depth : Nat) (calls : List WalkCall) : Prop :=
  ∃ enough, ∀ fuel, enough ≤ fuel → ∀ (σ : Type) (walker : TrieDBWalker σ), Continues walker →
    Makes db walker nbPrevKey calls (walkThroughNode cryptoHash db walker false fuel hash nbKeyPrefix nbPrevKey depth)

/-- The same for a link, which may be absent. -/
def WalksLink (cryptoHash : TrieValue Hash → Hash) (db : NodeStore Hash) (hash : Hash) (nbKeyPrefix nbPrevKey : Bytes)
    (depth : Nat) (calls : List WalkCall) : Prop :=
  ∃ enough, ∀ fuel, enough ≤ fuel → ∀ (σ : Type) (walker : TrieDBWalker σ), Continues walker →
    if hash = 0 then calls = [] else Makes db walker nbPrevKey calls
      (walkThroughNode cryptoHash db walker false fuel hash nbKeyPrefix nbPrevKey depth)

theorem walks_value (stored : Addressed (Genuine cryptoHash) db) {x : Hash} {v : Bytes}
    (held : db x = some (.value v)) (lead path : Bytes) (depth : Nat) :
    Walks cryptoHash db x lead path depth [⟨[], v, depth⟩] := by
  refine ⟨1, fun fuel enough σ visit continues cache start within => ?_⟩
  obtain ⟨fuel, rfl⟩ := Nat.exists_eq_add_of_le' enough
  obtain ⟨cache', kept, reached⟩ := readWalkNode_included stored held within
  refine ⟨cache', kept, ?_⟩
  obtain ⟨ok, goesOn⟩ := continues start (nibble2Byte path).1 v depth
  simp [walkThroughNode, reached, enterBeginKey, callAll, ok, goesOn]

theorem walks_edge (stored : Addressed (Genuine cryptoHash) db) {fit : TrieBranch Hash → Prop} {hValue hashSub : Hash}
    (closed : EdgeClosed fit db hValue hashSub)
    (below : hashSub ≠ 0 → ∀ lead path depth, ∃ calls, Lists db (ValueSlot db hashSub) lead calls ∧
      Walks cryptoHash db hashSub lead path depth calls)
    (edge lead path : Bytes) (depth : Nat) :
    ∃ calls, Lists db (EdgeSlot db edge hValue hashSub) lead calls ∧
      (¬Compatible edge lead → calls = []) ∧
      ∃ enough, ∀ fuel, enough ≤ fuel → Compatible edge lead → ∀ (σ : Type) (visit : TrieDBWalker σ),
        Continues visit → Makes db visit path calls (walkLinks (fun hash => walkThroughNode cryptoHash db visit
          false fuel hash (lead.drop edge.length) (path ++ edge) depth) hValue hashSub) := by
  by_cases along : Compatible edge lead
  · have value : ∃ first, Lists db (fun key x => key = [] ∧ x = hValue) (lead.drop edge.length) first ∧
        WalksLink cryptoHash db hValue (lead.drop edge.length) (path ++ edge) depth first := by
      by_cases zero : hValue = 0
      · refine ⟨[], lists_nil fun key x present slot => absurd (slot.2.trans zero) present, 0, ?_⟩
        simp [zero]
      · obtain ⟨v, held⟩ := closed.value zero
        refine ⟨[⟨[], v, depth⟩], lists_value zero held depth _, ?_⟩
        simp only [WalksLink, if_neg zero]
        exact walks_value stored held _ _ depth
    have lower : ∃ second, Lists db (fun key x => key ≠ [] ∧ Below db hashSub key x) (lead.drop edge.length) second ∧
        WalksLink cryptoHash db hashSub (lead.drop edge.length) (path ++ edge) depth second := by
      by_cases zero : hashSub = 0
      · refine ⟨[], lists_nil fun key x _ slot => absurd zero slot.2.1, 0, ?_⟩
        simp [zero]
      · obtain ⟨second, lists, walks⟩ := below zero (lead.drop edge.length) (path ++ edge) depth
        refine ⟨second, lists.congr fun key x _ => ?_, by simp only [WalksLink, if_neg zero]; exact walks⟩
        exact ⟨fun slot => slot.2.2, fun slot =>
          ⟨valueSlot_ne_nil (fun h node read => (stored h node read).2.2) slot, zero, slot⟩⟩
    obtain ⟨first, listsFirst, boundFirst, makesFirst⟩ := value
    obtain ⟨second, listsSecond, boundSecond, makesSecond⟩ := lower
    refine ⟨_, listsFirst.edge along listsSecond, fun apart => absurd along apart, max boundFirst boundSecond, ?_⟩
    intro fuel enough _ σ visit continues cache start within
    obtain ⟨enoughFirst, enoughSecond⟩ := max_le_iff.mp enough
    have shown : callAll visit path ((first ++ second).map (WalkCall.below edge)) start =
        callAll visit (path ++ edge) (first ++ second) start := by simp [callAll, foldl_map, WalkCall.below]
    rw [shown]
    exact walkLinks_makes (makesFirst fuel enoughFirst σ visit continues) (makesSecond fuel enoughSecond σ visit continues)
      cache start within
  · refine ⟨[], lists_nil fun key x _ slot compatible => ?_, fun _ => rfl, 0, fun _ _ there => absurd there along⟩
    obtain ⟨rest, rfl⟩ := edgeSlot_extends slot
    exact along ((compatible_append edge rest lead).mp compatible).1

/-- The walk below a closed hash reports the keys that are compatible with the prefix, in
ascending order. -/
theorem Closed.walks (stored : Addressed (Genuine cryptoHash) db) {fit : TrieBranch Hash → Prop} {hash : Hash}
    (closed : Closed fit db hash) (lead path : Bytes) (depth : Nat) :
    ∃ calls, Lists db (ValueSlot db hash) lead calls ∧
      Walks cryptoHash db hash lead path depth calls := by
  induction closed generalizing lead path depth with
  | @branch hash b read fits next value ih =>
    choose calls lists off enough makes using fun n : UInt8 =>
      walks_edge stored ⟨next n, value n⟩ (fun linked => ih n linked) [n] lead path (depth + 1)
    obtain ⟨bound, within⟩ : ∃ bound, ∀ n ∈ branchKeys false, enough n ≤ bound :=
      ⟨_, fun n mem => List.le_sum_of_mem (mem_map_of_mem mem)⟩
    refine ⟨_, (lists_branch lists).congr fun key x _ => valueSlot_of_read read key x, bound + 1, ?_⟩
    intro fuel more σ visit continues cache start included
    obtain ⟨fuel, rfl⟩ := Nat.exists_eq_add_of_le' (Nat.le_of_add_left_le more : 1 ≤ fuel)
    obtain ⟨cache', kept, reached⟩ := readWalkNode_included stored read included
    have slots : Makes db visit path ((branchKeys false).flatMap calls)
        (walkSlots (fun nbNextKey hash st => walkThroughNode cryptoHash db visit false fuel hash lead.tail
          nbNextKey (depth + 1) st) b lead path (branchKeys false)) := by
      refine walkSlots_makes (fun n _ => off n) fun n mem along => ?_
      have lower := makes n fuel ((within n mem).trans (by omega)) along σ visit continues
      simpa using lower
    obtain ⟨last, keptLast, result⟩ := slots cache' start kept
    exact ⟨last, keptLast, by simpa [walkThroughNode, reached, enterBeginKey] using result⟩
  | @extension hash e read keyed next value ih =>
    obtain ⟨calls, lists, off, enough, makes⟩ :=
      walks_edge stored ⟨next, value⟩ ih e.getKey lead path (depth + 1)
    refine ⟨calls, lists.congr fun key x _ => valueSlot_of_read read key x, enough + 1, ?_⟩
    intro fuel more σ visit continues cache start included
    obtain ⟨fuel, rfl⟩ := Nat.exists_eq_add_of_le' (Nat.le_of_add_left_le more : 1 ≤ fuel)
    obtain ⟨cache', kept, reached⟩ := readWalkNode_included stored read included
    by_cases along : Compatible e.getKey lead
    · obtain ⟨last, keptLast, result⟩ := makes fuel (by omega) along σ visit continues cache' start kept
      have taken := (compatible_iff_take e.getKey lead).mp along
      refine ⟨last, keptLast, ?_⟩
      rw [← drop_min e.getKey lead] at result
      simpa [walkThroughNode, reached, enterBeginKey, taken] using result
    · have apart : ¬(lead.take (min lead.length e.getKey.length) =
          e.getKey.take (min lead.length e.getKey.length)) := mt (compatible_iff_take e.getKey lead).mpr along
      refine ⟨cache', kept, ?_⟩
      simp [walkThroughNode, reached, enterBeginKey, apart, off along, callAll]

end Run

section Prefix
variable {Hash : Type} [DecidableEq Hash] [Zero Hash] {cryptoHash : TrieValue Hash → Hash}

theorem Inserted.byteKeys (unique : Collisionless cryptoHash) (nonzero : NonzeroHash cryptoHash)
    {s : StoreState Hash} {r : Hash} (built : Inserted cryptoHash s r) {key : Bytes} {x : Hash} (there : x ≠ 0)
    (below : Below s.db r key x) : ∃ k, k ≠ [] ∧ key = keyNibbles k := by
  induction built with
  | start reachable => exact absurd below (not_below_zero _ key x)
  | @insert s r newRoot db' built accepts k v more value call ih =>
    obtain ⟨genuine, root⟩ := built.invariant unique nonzero
    have fine := rebuiltNodes_fine unique nonzero accepts genuine.stored root value call
    obtain ⟨slots, _⟩ := single_overwrites unique nonzero (fun b fine => fine.1) accepts genuine.stored root more
      call (fun b mem => (fine b mem).roomy) fine
    rcases (slots key x there).mp below with ⟨same, _⟩ | ⟨_, before⟩
    · exact ⟨k, more, same⟩
    · exact ih before
  | other built step ih =>
    obtain ⟨genuine, root⟩ := built.invariant unique nonzero
    exact ih ((below_same (storeStep_keeps unique genuine step).2 root key x).mp below)

/-- A forward walk without a begin key makes these calls, now with byte keys, on every
walker that asks to go on. -/
def PrefixWalkMakes (cryptoHash : TrieValue Hash → Hash) (db : NodeStore Hash) (hashRoot : Hash) (btKeyPrefix : Bytes)
    (calls : List WalkCall) : Prop :=
  ∃ enough, ∀ fuel, enough ≤ fuel → ∀ (σ : Type) (walker : TrieDBWalker σ) (start : σ), Continues walker →
    walkThroughTrie cryptoHash db fuel hashRoot walker start btKeyPrefix [] false =
      some (true, calls.foldl (fun st call => (walker.walk st call.key call.value call.depth false).2.2) start)

/-- The calls are exactly those for the stored keys that start with the prefix, once each
and in ascending order. -/
def ExactCalls (db : NodeStore Hash) (hashRoot : Hash) (btKeyPrefix : Bytes) (calls : List WalkCall) : Prop :=
  (calls.Pairwise fun first second => first.key < second.key) ∧
    ∀ k v, (∃ depth, ⟨k, v, depth⟩ ∈ calls) ↔ (btKeyPrefix <+: k ∧ retrieve db hashRoot k = some v)

def WalkCall.packed (call : WalkCall) : WalkCall := { call with key := (nibble2Byte call.key).1 }

/-- A prefix walk reports the stored keys that start with the prefix or end inside it. -/
theorem Inserted.prefix_walk_reports (unique : Collisionless cryptoHash) (nonzero : NonzeroHash cryptoHash)
    {s : StoreState Hash} {r : Hash} (built : Inserted cryptoHash s r) (btKeyPrefix : Bytes) :
    ∃ calls, PrefixWalkMakes cryptoHash s.db r btKeyPrefix calls ∧
      (calls.Pairwise fun first second => first.key < second.key) ∧
      ∀ k v, (∃ depth, ⟨k, v, depth⟩ ∈ calls) ↔
        ((k <+: btKeyPrefix ∨ btKeyPrefix <+: k) ∧ retrieve s.db r k = some v) := by
  obtain ⟨genuine, root⟩ := built.invariant unique nonzero
  have keyed : ∀ h node, s.db h = some node → Keyed node := fun h node read => (genuine.stored h node read).2.2
  by_cases zero : r = 0
  · refine ⟨[], ⟨0, fun fuel _ σ visit start _ => by simp [walkThroughTrie, zero]⟩, .nil, fun k v => ?_⟩
    simp [retrieve, zero]
  · obtain ⟨calls, lists, enough, makes⟩ := (root zero).walks genuine.stored (keyNibbles btKeyPrefix) [] 0
    have bytes : ∀ call ∈ calls, ∃ k, k ≠ [] ∧ call.key = keyNibbles k := by
      intro call mem
      obtain ⟨x, there, slot, _⟩ := (lists.exact call.key call.value).mp ⟨call.depth, mem⟩
      exact built.byteKeys unique nonzero there ⟨zero, slot⟩
    refine ⟨calls.map WalkCall.packed, ⟨enough, fun fuel more σ visit start continues => ?_⟩, ?_, fun k v => ?_⟩
    · obtain ⟨cache, _, result⟩ := makes fuel more σ visit continues ∅ start (by intro h node read; cases read)
      rw [foldl_map]
      simp only [walkThroughTrie, if_neg zero, if_true, result, Option.map_some]
      rfl
    · rw [pairwise_map]
      refine lists.sorted.imp_of_mem fun {first second} inFirst inSecond less => ?_
      obtain ⟨k, _, keyFirst⟩ := bytes first inFirst
      obtain ⟨k', _, keySecond⟩ := bytes second inSecond
      rw [keyFirst, keySecond, keyNibbles_lt_iff] at less
      simpa [WalkCall.packed, keyFirst, keySecond, nibble2Byte_keyNibbles] using less
    · have listed : (∃ depth, ⟨k, v, depth⟩ ∈ calls.map WalkCall.packed) ↔
          k ≠ [] ∧ ∃ depth, ⟨keyNibbles k, v, depth⟩ ∈ calls := by
        constructor
        · rintro ⟨depth, mem⟩
          obtain ⟨call, inside, same⟩ := List.mem_map.mp mem
          obtain ⟨k', more, key⟩ := bytes call inside
          cases call
          simp only [WalkCall.packed, WalkCall.mk.injEq] at same key
          obtain ⟨packed, rfl, rfl⟩ := same
          rw [key, nibble2Byte_keyNibbles] at packed
          obtain rfl : k' = k := packed
          exact ⟨more, _, key ▸ inside⟩
        · rintro ⟨_, depth, inside⟩
          exact ⟨depth, List.mem_map.mpr ⟨_, inside, by simp [WalkCall.packed, nibble2Byte_keyNibbles]⟩⟩
      rw [listed]
      by_cases empty : k = []
      · subst empty
        simp [retrieve_nil_of_trieRoot root]
      · rw [lists.exact, retrieve_iff s.db keyed r empty v]
        simp only [Compatible, keyNibbles_prefix_iff, Below]
        constructor
        · rintro ⟨_, x, there, slot, held, along⟩
          exact ⟨along, x, there, ⟨zero, slot⟩, held⟩
        · rintro ⟨along, x, there, ⟨_, slot⟩, held⟩
          exact ⟨empty, x, there, slot, held, along⟩

/-- The walk is exact if and only if no stored key is a proper prefix of the given one. -/
theorem prefix_walk_exact_iff (collisionless : Collisionless cryptoHash) (nonzero : NonzeroHash cryptoHash)
    (s : StoreState Hash) (r : Hash) (built : Inserted cryptoHash s r) (btKeyPrefix : Bytes) :
    ∃ calls, PrefixWalkMakes cryptoHash s.db r btKeyPrefix calls ∧
      (ExactCalls s.db r btKeyPrefix calls ↔
        ∀ k v, retrieve s.db r k = some v → k <+: btKeyPrefix → k = btKeyPrefix) := by
  obtain ⟨calls, makes, sorted, reported⟩ := built.prefix_walk_reports collisionless nonzero btKeyPrefix
  refine ⟨calls, makes, ?_⟩
  constructor
  · intro exact k v stored short
    obtain ⟨long, _⟩ := (exact.2 k v).mp ((reported k v).mpr ⟨Or.inl short, stored⟩)
    exact short.eq_of_length_le long.length_le
  · intro none
    refine ⟨sorted, fun k v => (reported k v).trans (and_congr_left fun stored => ?_)⟩
    constructor
    · rintro (short | long)
      · rw [none k v stored short]
      · exact long
    · exact Or.inr

namespace TermHash

def recorder : TrieDBWalker (List (Bytes × Bytes)) := ⟨fun calls key value _ fWalkOver =>
  (true, fWalkOver, calls ++ [(key, value)])⟩

set_option maxRecDepth 20000 in
theorem longer_inserted : Inserted encode ⟨longer.2, ∅⟩ (longer.1.getD 0) :=
  .insert shorter_inserted always [0x12, 0x34] [8] (by decide) (by decide) (Prod.ext (by decide) rfl)

set_option maxRecDepth 20000 in
/-- A walk over the keys that start with two bytes also reports the key of one byte. -/
theorem prefix_walk_reports_shorter : Inserted encode ⟨longer.2, ∅⟩ (longer.1.getD 0) ∧
    walkThroughTrie encode longer.2 5 (longer.1.getD 0) recorder [] [0x12, 0x34] [] false =
      some (true, [([0x12], [7]), ([0x12, 0x34], [8])]) := by
  exact ⟨longer_inserted, by decide⟩

set_option maxRecDepth 20000 in
theorem prefix_walk_exact_iff_longer : ∃ calls, PrefixWalkMakes encode longer.2 (longer.1.getD 0) [0x12, 0x34] calls ∧
    ¬ExactCalls longer.2 (longer.1.getD 0) [0x12, 0x34] calls := by
  obtain ⟨calls, makes, exact⟩ := prefix_walk_exact_iff encode_collisionless encode_nonzero ⟨longer.2, ∅⟩
    (longer.1.getD 0) longer_inserted [0x12, 0x34]
  refine ⟨calls, makes, fun holds => ?_⟩
  have same := exact.mp holds [0x12] [7] (by decide) (by decide)
  revert same
  decide

end TermHash
end Prefix

end HashAhead.Trie
