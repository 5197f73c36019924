import Mathlib.Algebra.GroupWithZero.Nat
import HashAhead.Foundation.Exhaust
import HashAhead.Trie.Node

/-! A branch as sixteen pairs of cells. Clearing a slot leaves its entry in the table, so a run of
calls reads back as cells do only while no table has to grow beyond what an index byte can name. -/

namespace HashAhead.Trie
open Foundation

inductive SlotKind where
  | next
  | value
  deriving DecidableEq, Repr

/-- A call of `SetNextHash` or `SetValueHash` for one of the sixteen slots. -/
structure SlotCall (Hash : Type) where
  kind : SlotKind
  n : UInt8
  hash : Hash
  small : n < 16

section Cells
variable {Hash : Type} [DecidableEq Hash] [Zero Hash]

namespace TrieBranch

def slots (b : TrieBranch Hash) : SlotKind → SlotTable Hash
  | .next => b.nextSlots
  | .value => b.valueSlots

def getHash (b : TrieBranch Hash) : SlotKind → UInt8 → Hash
  | .next => b.getNextHash
  | .value => b.getValueHash

def setHash (b : TrieBranch Hash) (call : SlotCall Hash) : TrieBranch Hash :=
  match call.kind with
  | .next => b.setNextHash call.n call.hash
  | .value => b.setValueHash call.n call.hash

def setHashes (calls : List (SlotCall Hash)) : TrieBranch Hash := calls.foldl setHash new

/-- The call needs no new entry, or there is a byte left for it. -/
def HasRoom (b : TrieBranch Hash) (call : SlotCall Hash) : Prop :=
  call.hash = 0 ∨ b.getHash call.kind call.n ≠ 0 ∨ (b.slots call.kind).table.length < 255

omit [DecidableEq Hash] in
theorem getHash_eq (b : TrieBranch Hash) (kind : SlotKind) {n : UInt8} (small : n < 16) :
    b.getHash kind n = (b.slots kind).get n.toNat := by
  cases kind <;> exact if_neg (UInt8.not_le.mpr small)

theorem slots_setHash (b : TrieBranch Hash) (call : SlotCall Hash) (kind : SlotKind) :
    (b.setHash call).slots kind =
      if kind = call.kind then (b.slots kind).set call.n.toNat call.hash else b.slots kind := by
  obtain ⟨own, n, hash, small⟩ := call
  cases own <;> cases kind
  · exact b.nextSlots_setNextHash n hash small
  · exact b.valueSlots_setNextHash n hash
  · exact b.nextSlots_setValueHash n hash
  · rw [setHash, ← swap_setNextHash]
    exact b.swap.nextSlots_setNextHash n hash small

end TrieBranch

open TrieBranch

/-- The hash of the last call for a cell. -/
def lastHash (calls : List (SlotCall Hash)) (kind : SlotKind) (n : UInt8) : Hash :=
  ((calls.filter fun call => call.kind = kind ∧ call.n = n).getLast?.map SlotCall.hash).getD 0

omit [DecidableEq Hash] in
theorem lastHash_snoc (calls : List (SlotCall Hash)) (call : SlotCall Hash) (kind : SlotKind) (n : UInt8) :
    lastHash (calls ++ [call]) kind n =
      if call.kind = kind ∧ call.n = n then call.hash else lastHash calls kind n := by
  unfold lastHash
  rw [List.filter_append]
  split_ifs with own <;> simp [own]

/-- A table of the branch after some calls: all its bytes name their own entries, and they read back. -/
structure ReadsBack (calls : List (SlotCall Hash)) (kind : SlotKind) (t : SlotTable Hash) : Prop where
  width : t.index.length = 16
  sound : t.Sound
  named : t.table.length ≤ 255
  reads : ∀ n < 16, t.get n.toNat = lastHash calls kind n

theorem ReadsBack.set {calls : List (SlotCall Hash)} {call : SlotCall Hash} {t : SlotTable Hash}
    (back : ReadsBack calls call.kind t)
    (room : call.hash = 0 ∨ t.get call.n.toNat ≠ 0 ∨ t.table.length < 255) :
    ReadsBack (calls ++ [call]) call.kind (t.set call.n.toNat call.hash) := by
  have inside : call.n.toNat < t.index.length := by
    rw [back.width]
    exact UInt8.lt_iff_toNat_lt.mp call.small
  have named : (t.set call.n.toNat call.hash).table.length ≤ 255 := by
    rw [← or_assoc] at room
    rcases room with kept | less
    · exact (t.table_length_set_eq _ _ kept).trans_le back.named
    · exact (t.table_length_set_le _ _).trans less
  refine ⟨(t.index_length_set _ _).trans back.width, t.sound_set back.sound inside named, named, ?_⟩
  intro n small
  rw [t.get_set back.sound _ _ _ inside named, lastHash_snoc, back.reads n small]
  simp [UInt8.toNat_inj, eq_comm]

theorem readsBack_setHashes {calls : List (SlotCall Hash)}
    (room : Throughout (fun before call => (setHashes before).HasRoom call) calls) (kind : SlotKind) :
    ReadsBack calls kind ((setHashes calls).slots kind) := by
  induction calls using List.reverseRecOn with
  | nil =>
    have empty : (setHashes ([] : List (SlotCall Hash))).slots kind = .empty 16 := by cases kind <;> rfl
    rw [empty]
    exact ⟨List.length_replicate, SlotTable.sound_empty 16, by simp, fun n _ => SlotTable.get_empty 16 _⟩
  | append_singleton calls call ih =>
    have before := ih room.init
    have here := room.last
    rw [HasRoom, getHash_eq _ _ call.small] at here
    rw [setHashes, List.foldl_append, List.foldl_cons, List.foldl_nil, slots_setHash]
    split_ifs with own
    · subst own
      exact before.set here
    · refine ⟨before.width, before.sound, before.named, fun n small => (before.reads n small).trans ?_⟩
      rw [lastHash_snoc, if_neg fun same => own same.1.symm]

theorem branch_reads_last (calls : List (SlotCall Hash))
    (room : Throughout (fun before call => (setHashes before).HasRoom call) calls) (kind : SlotKind) (n : UInt8)
    (small : n < 16) : (setHashes calls).getHash kind n = lastHash calls kind n := by
  rw [getHash_eq _ _ small]
  exact (readsBack_setHashes room kind).reads n small

end Cells

namespace Sample
open TrieBranch

def setCall (hash : Nat) : SlotCall Nat := ⟨.next, 0, hash, by decide⟩

def cycles (k : Nat) : List (SlotCall Nat) := (List.replicate k [setCall 1, setCall 0]).flatten

theorem setHashes_cycles {k : Nat} (few : k ≤ 255) :
    setHashes (cycles k) = ⟨List.replicate 16 0, List.replicate 16 0, List.replicate k 0, []⟩ := by
  induction k with
  | zero => rfl
  | succ k ih =>
    have byte : (k + 1) % 256 = k + 1 := Nat.mod_eq_of_lt (by omega)
    have split : cycles (k + 1) = cycles k ++ [setCall 1, setCall 0] := by
      simp [cycles, List.replicate_succ']
    rw [setHashes, split, List.foldl_append, ← setHashes, ih (by omega)]
    simp [setHash, setCall, setNextHash, nextSlots, SlotTable.set, SlotTable.position, byte, Nat.not_succ_le_self,
      List.replicate_succ']

/-- A slot that is written and cleared 255 times cannot be written once more. -/
theorem churned_slot_lost : (setHashes (cycles 255 ++ [setCall 1])).getHash .next 0 = 0 ∧
    lastHash (cycles 255 ++ [setCall 1]) .next 0 = 1 := by
  constructor
  · rw [setHashes, List.foldl_append, ← setHashes, setHashes_cycles le_rfl]
    decide +kernel
  · rw [lastHash_snoc]
    rfl

theorem branch_reads_last_twice :
    (setHashes [setCall 1, setCall 2]).getHash .next 0 = lastHash [setCall 1, setCall 2] .next 0 :=
  branch_reads_last [setCall 1, setCall 2] ((Throughout.nil.snoc (.inr (.inr (by decide)))).snoc (.inr (.inr (by decide))))
    .next 0 (by decide)

end Sample
end HashAhead.Trie
