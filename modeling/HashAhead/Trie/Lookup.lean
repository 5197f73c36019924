import HashAhead.Trie.Meaning

/-! Lookup against the meaning of a trie, and what of the store a lookup depends on. -/

namespace HashAhead.Trie
open Foundation List
variable {Hash : Type} [DecidableEq Hash] [Zero Hash]

section Exact

variable (db : NodeStore Hash)

private theorem getKeyValue_nil (bound : Nat) (h : Hash) (v : Bytes) :
    getKeyValue db bound h [] = some v ↔ db h = some (.value v) := by
  cases bound <;> (simp only [getKeyValue]; split <;> simp_all)

/-- A lookup finds a value exactly when the key leads to a present link to it. The keys
of extensions are consumed, so the nibble count bounds the loop. -/
theorem getKeyValue_iff (keyed : ∀ h node, db h = some node → Keyed node) (bound : Nat) (h : Hash) (key : Bytes)
    (more : key ≠ []) (room : key.length ≤ bound) (v : Bytes) :
    getKeyValue db bound h key = some v ↔
      ∃ x, x ≠ 0 ∧ ValueSlot db h key x ∧ db x = some (.value v) := by
  induction bound generalizing h key with
  | zero => exact absurd (eq_nil_of_length_eq_zero (by omega)) more
  | succ bound ih =>
    obtain ⟨n, rest, rfl⟩ := exists_cons_of_ne_nil more
    rw [getKeyValue]
    rcases read : db h with _ | node
    · simp [valueSlot_iff, read]
    · simp only [valueSlot_of_read read]
      cases node with
      | value w => simp [NodeSlot]
      | branch b =>
        simp only [nodeSlot_branch_cons, edgeSlot_cons]
        by_cases done : rest = []
        · subst done
          by_cases absent : b.getValueHash n = 0
          · simp [absent]
          · simp [absent, getKeyValue_nil]
        · by_cases absent : b.getNextHash n = 0
          · simp [done, absent, not_below_zero]
          · simp only [done, if_false, absent]
            rw [ih _ rest done (by simpa using room)]
            simp [Below, absent, done]
      | extension e =>
        have key := keyed h _ read
        simp only [NodeSlot]
        by_cases along : e.getKey.length ≤ (n :: rest).length ∧ e.getKey = (n :: rest).take e.getKey.length
        · have whole : n :: rest = e.getKey ++ (n :: rest).drop e.getKey.length := by
            conv_lhs => rw [← take_append_drop e.getKey.length (n :: rest), ← along.2]
          have positive := length_pos_of_ne_nil key
          have size : ((n :: rest).drop e.getKey.length).length ≤ bound := by
            simp only [length_drop]
            omega
          have ends : (n :: rest).length = e.getKey.length ↔ (n :: rest).drop e.getKey.length = [] := by
            rw [drop_eq_nil_iff]
            have := along.1
            omega
          rw [if_pos along]
          generalize (n :: rest).drop e.getKey.length = tail at *
          rw [whole] at ends ⊢
          simp only [edgeSlot_append, ends]
          by_cases done : tail = []
          · subst done
            by_cases absent : e.getValueHash = 0
            · simp [absent]
            · simp [absent, getKeyValue_nil]
          · by_cases absent : e.getNextHash = 0
            · simp [done, absent, not_below_zero]
            · simp only [done, if_false, absent]
              rw [ih _ tail done size]
              simp [Below, absent, done]
        · rw [if_neg along]
          have none : ∀ x, ¬EdgeSlot db e.getKey e.getValueHash e.getNextHash (n :: rest) x := by
            intro x slot
            obtain ⟨tail, whole⟩ := edgeSlot_extends slot
            apply along
            rw [whole]
            simp
          simp [none]

theorem retrieve_iff (keyed : ∀ h node, db h = some node → Keyed node) (root : Hash) {btKey : Bytes}
    (more : btKey ≠ []) (v : Bytes) :
    retrieve db root btKey = some v ↔
      ∃ x, x ≠ 0 ∧ Below db root (keyNibbles btKey) x ∧ db x = some (.value v) := by
  unfold retrieve Below
  split_ifs with absent
  · simp [absent]
  · rw [getKeyValue_iff db keyed _ root _ (by simpa using more) le_rfl v]
    simp [absent]

theorem retrieve_nil_iff (root : Hash) (v : Bytes) :
    retrieve db root [] = some v ↔ root ≠ 0 ∧ db root = some (.value v) := by
  unfold retrieve
  split_ifs with absent
  · simp [absent]
  · rw [keyNibbles_nil, getKeyValue_nil]
    simp [absent]

end Exact

section Frame

def Links : TrieValue Hash → Hash → Prop
  | .branch b, h => h ≠ 0 ∧ ∃ n, b.getNextHash n = h ∨ b.getValueHash n = h
  | .extension e, h => h ≠ 0 ∧ (e.getNextHash = h ∨ e.getValueHash = h)
  | .value _, _ => False

inductive Reaches (db : NodeStore Hash) : Hash → Hash → Prop where
  | refl (h : Hash) : Reaches db h h
  | step {h next last : Hash} {node : TrieValue Hash} (read : db h = some node) (link : Links node next)
      (rest : Reaches db next last) : Reaches db h last

def Complete (db : NodeStore Hash) (hashRoot : Hash) : Prop :=
  ∀ h, Reaches db hashRoot h → ∃ node, db h = some node

/-- A lookup reads only nodes that can be reached from where it starts. -/
theorem getKeyValue_congr (db db' : NodeStore Hash) (bound : Nat) (h : Hash) (key : Bytes)
    (agree : ∀ other, Reaches db h other → db' other = db other) :
    getKeyValue db' bound h key = getKeyValue db bound h key := by
  induction bound generalizing h key with
  | zero =>
    cases key with
    | nil => simp only [getKeyValue, agree h (.refl h)]
    | cons n rest => rfl
  | succ bound ih =>
    cases key with
    | nil => simp only [getKeyValue, agree h (.refl h)]
    | cons n rest =>
      simp only [getKeyValue, agree h (.refl h)]
      have below : ∀ node next, db h = some node → Links node next → ∀ key,
          getKeyValue db' bound next key = getKeyValue db bound next key := by
        intro node next read link key
        exact ih next key fun other reached => agree other (.step read link reached)
      rcases read : db h with _ | node
      · rfl
      · cases node with
        | value w => rfl
        | branch b =>
          simp only
          split_ifs with done absent absent
          · rfl
          · exact below _ _ read ⟨absent, n, Or.inr rfl⟩ rest
          · rfl
          · exact below _ _ read ⟨absent, n, Or.inl rfl⟩ rest
        | extension e =>
          simp only
          split_ifs with along ends absent absent
          · rfl
          · exact below _ _ read ⟨absent, Or.inr rfl⟩ _
          · rfl
          · exact below _ _ read ⟨absent, Or.inl rfl⟩ _
          · rfl

theorem retrieve_congr {db db' : NodeStore Hash} {root : Hash} (btKey : Bytes)
    (agree : ∀ other, Reaches db root other → db' other = db other) :
    retrieve db' root btKey = retrieve db root btKey := by
  unfold retrieve
  split_ifs
  · rfl
  · exact getKeyValue_congr db db' _ root _ agree

variable {db' db : NodeStore Hash}

/-- A complete trie answers every lookup, also a failing one, in the same way after the
store has grown. -/
theorem Complete.retrieve_eq {root : Hash} (complete : Complete db root) (included : Included db db')
    (btKey : Bytes) : retrieve db' root btKey = retrieve db root btKey := by
  apply retrieve_congr
  intro other reached
  obtain ⟨node, read⟩ := complete other reached
  rw [read]
  exact included other node read

omit [DecidableEq Hash] in
theorem Complete.reaches {h last : Hash} (complete : Complete db h) (included : Included db db')
    (reached : Reaches db' h last) : Reaches db h last := by
  induction reached with
  | refl h => exact .refl h
  | @step h next last node read link rest ih =>
    obtain ⟨before, readBefore⟩ := complete h (.refl h)
    cases (included h before readBefore).symm.trans read
    exact .step readBefore link (ih fun other deeper => complete other (.step readBefore link deeper))

omit [DecidableEq Hash] in
theorem Complete.mono {hashRoot : Hash} (complete : Complete db hashRoot) (included : Included db db')
    : Complete db' hashRoot := by
  intro last reached
  obtain ⟨node, read⟩ := complete last (complete.reaches included reached)
  exact ⟨node, included last node read⟩

/-- A lookup that finds a value finds it in every larger store, however much of the rest
of the trie is missing. -/
theorem getKeyValue_mono (included : Included db db') (bound : Nat) (h : Hash) (key v : Bytes)
    (found : getKeyValue db bound h key = some v) : getKeyValue db' bound h key = some v := by
  induction bound generalizing h key with
  | zero =>
    cases key with
    | nil => exact (getKeyValue_nil _ _ _ _).mpr (included _ _ ((getKeyValue_nil _ _ _ _).mp found))
    | cons n rest => simp [getKeyValue] at found
  | succ bound ih =>
    cases key with
    | nil => exact (getKeyValue_nil _ _ _ _).mpr (included _ _ ((getKeyValue_nil _ _ _ _).mp found))
    | cons n rest =>
      rw [getKeyValue] at found ⊢
      rcases read : db h with _ | node
      · simp [read] at found
      · rw [read] at found
        rw [included h node read]
        cases node with
        | value w => simp at found
        | branch b =>
          simp only at found ⊢
          split_ifs at found ⊢ with done absent absent
          · exact ih _ _ found
          · exact ih _ _ found
        | extension e =>
          simp only at found ⊢
          split_ifs at found ⊢ with along ends absent absent
          · exact ih _ _ found
          · exact ih _ _ found

theorem retrieve_mono (included : Included db db') {root : Hash} {btKey v : Bytes}
    (found : retrieve db root btKey = some v) : retrieve db' root btKey = some v := by
  unfold retrieve at found ⊢
  split_ifs at found ⊢ with absent
  exact getKeyValue_mono included _ _ _ _ found

end Frame
end HashAhead.Trie
