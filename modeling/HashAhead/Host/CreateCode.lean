import HashAhead.Trie.Nibble

/-! The create code that is saved with a new contract: the given code up to the last window of 43 bytes that equals the
end of the run code. A shorter run code is read before its start, and a window at the very start saves nothing. -/

namespace HashAhead.Host
open Trie List

def nAuxDataSize : ℕ := 43

/-- The bytes that `memcmp` reads, or none where they are not all in the buffer. -/
def auxData (code : Bytes) (offset : ℤ) : Option Bytes :=
  if 0 ≤ offset ∧ offset + nAuxDataSize ≤ code.length then some ((code.drop offset.toNat).take nAuxDataSize) else none

/-- The loop of `FetchContractCreateCode` over the places of `p2`. -/
def fetchLoop (btSrcCreateCode btRunCode dstCreateCode : Bytes) : List ℕ → Option (Bool × Bytes)
  | [] => some (false, dstCreateCode)
  | p2 :: lower => do
    let aux1 ← auxData btRunCode (btRunCode.length - nAuxDataSize)
    let aux2 ← auxData btSrcCreateCode p2
    if aux1 = aux2 then
      return (true, if 0 < p2 then btSrcCreateCode.take (p2 + nAuxDataSize) else dstCreateCode)
    fetchLoop btSrcCreateCode btRunCode dstCreateCode lower

/-- The places of `p2`, from the last one down in steps of 32 bytes while they are in the buffer. -/
def places (last : ℕ) : List ℕ := (range (last / 32 + 1)).map (last - 32 * ·)

/-- `FetchContractCreateCode`, with its answer and `dstCreateCode` after it. None is a read outside of a buffer. -/
def fetchContractCreateCode (btSrcCreateCode btRunCode dstCreateCode : Bytes) : Option (Bool × Bytes) :=
  if nAuxDataSize ≤ btSrcCreateCode.length then
    fetchLoop btSrcCreateCode btRunCode dstCreateCode (places (btSrcCreateCode.length - nAuxDataSize))
  else some (false, dstCreateCode)

/-- The last 43 bytes of the run code stand in the create code at the place. -/
abbrev EndsAt (src run : Bytes) (place : ℕ) : Prop :=
  run.drop (run.length - nAuxDataSize) = (src.drop place).take nAuxDataSize

theorem auxData_eq {code : Bytes} {place : ℕ} (room : place + nAuxDataSize ≤ code.length) :
    auxData code place = some ((code.drop place).take nAuxDataSize) := by
  rw [auxData, if_pos (by omega), Int.toNat_natCast]

theorem mem_places {last place : ℕ} : place ∈ places last ↔ place ≤ last ∧ place % 32 = last % 32 := by
  simp only [places, mem_map, mem_range]
  constructor
  · intro ⟨n, lt, same⟩
    omega
  · intro ⟨le, same⟩
    exact ⟨(last - place) / 32, by omega, by omega⟩

theorem places_descending (last : ℕ) : (places last).Pairwise (· > ·) := by
  rw [places, pairwise_map]
  exact pairwise_lt_range.imp_of_mem fun _ second lt => by rw [mem_range] at second; omega

theorem fetchLoop_eq {src run dst : Bytes} (long : nAuxDataSize ≤ run.length) :
    ∀ {offsets : List ℕ}, (∀ p2 ∈ offsets, p2 + nAuxDataSize ≤ src.length) →
      fetchLoop src run dst offsets = some (((offsets.find? (EndsAt src run ·)).map fun p2 =>
        (true, if 0 < p2 then src.take (p2 + nAuxDataSize) else dst)).getD (false, dst))
  | [], _ => rfl
  | p2 :: lower, room => by
    have first : auxData run (run.length - nAuxDataSize : ℕ) = _ := auxData_eq (by omega)
    rw [take_of_length_le (by rw [length_drop]; omega), Int.ofNat_sub long] at first
    rw [fetchLoop, first, auxData_eq (room p2 mem_cons_self)]
    by_cases here : EndsAt src run p2
    · rw [find?_cons_of_pos (by simpa using here)]
      exact if_pos here
    · rw [find?_cons_of_neg (by simpa using here), ← fetchLoop_eq long fun p2 mem => room p2 (mem_cons_of_mem _ mem)]
      exact if_neg here

/-- All reads are in the buffers, and an answer of true comes with a part of the create code up to the end of the run
code. -/
def Exact (src run : Bytes) : Prop :=
  ∃ fFound dst, fetchContractCreateCode src run [] = some (fFound, dst) ∧
    (fFound = true → dst ≠ [] ∧ dst <+: src ∧ nAuxDataSize ≤ run.length ∧
      run.drop (run.length - nAuxDataSize) <:+ dst)

theorem create_code_exact_iff (src run : Bytes) (_caller : 32 ≤ run.length) :
    Exact src run ↔ src.length < nAuxDataSize ∨ nAuxDataSize ≤ run.length ∧
      (EndsAt src run 0 → (src.length - nAuxDataSize) % 32 = 0 →
        ∃ k, 0 < k ∧ 32 * k + nAuxDataSize ≤ src.length ∧ EndsAt src run (32 * k)) := by
  rcases Nat.lt_or_ge src.length nAuxDataSize with short | whole
  · exact iff_of_true ⟨false, [], if_neg (by omega), by simp⟩ (.inl short)
  rw [or_iff_right (by omega), Exact, fetchContractCreateCode, if_pos whole]
  rcases Nat.lt_or_ge run.length nAuxDataSize with short | long
  · have outside : fetchLoop src run [] (places (src.length - nAuxDataSize)) = none := by
      rw [places, range_succ_eq_map, map_cons, fetchLoop, auxData, if_neg (by omega)]
      rfl
    simp [outside, short]
  have room : ∀ p2 ∈ places (src.length - nAuxDataSize), p2 + nAuxDataSize ≤ src.length := by
    intro p2 mem
    have le := (mem_places.mp mem).1
    omega
  rw [fetchLoop_eq long room]
  cases found : (places (src.length - nAuxDataSize)).find? (EndsAt src run ·) with
  | none =>
    refine iff_of_true ⟨false, [], by simp, by simp⟩ ⟨long, fun start aligned => ?_⟩
    have missing := find?_eq_none.mp found 0 (mem_places.mpr ⟨Nat.zero_le _, by omega⟩)
    exact absurd start (by simpa using missing)
  | some p2 =>
    obtain ⟨here, above, below, split, missing⟩ := find?_eq_some_iff_append.mp found
    have here : EndsAt src run p2 := by simpa using here
    have mem := mem_of_find?_eq_some found
    rcases Nat.eq_zero_or_pos p2 with rfl | positive
    · -- the first match is at the start, and `dstCreateCode` stays as it was
      refine iff_of_false (by simp) fun ⟨_, later⟩ => ?_
      obtain ⟨k, positive, le, there⟩ := later here (by have := (mem_places.mp mem).2; omega)
      have mem : 32 * k ∈ above ++ 0 :: below := by
        rw [← split]
        exact mem_places.mpr ⟨by omega, by have := (mem_places.mp mem).2; omega⟩
      have ordered := places_descending (src.length - nAuxDataSize)
      rw [split, pairwise_append] at ordered
      rcases mem_append.mp mem with mem | mem
      · exact absurd there (by simpa using missing _ mem)
      · rcases mem_cons.mp mem with same | mem
        · omega
        · exact absurd (rel_of_pairwise_cons ordered.2.1 mem) (by omega)
    · refine iff_of_true ⟨true, src.take (p2 + nAuxDataSize), by simp [positive], fun _ =>
        ⟨?_, take_prefix _ _, long, ?_⟩⟩ ⟨long, fun _ aligned => ?_⟩
      · exact ne_nil_of_length_pos (by rw [length_take]; have := room p2 mem; omega)
      · have ends := drop_suffix p2 (src.take (p2 + nAuxDataSize))
        rwa [drop_take, Nat.add_sub_cancel_left, ← here] at ends
      · have multiple : 32 * (p2 / 32) = p2 := by
          have same := (mem_places.mp mem).2
          omega
        exact ⟨p2 / 32, by omega, by rw [multiple]; exact room p2 mem, by rwa [multiple]⟩

namespace Sample

def tail : Bytes := (range 43).map UInt8.ofNat

/-- A run code of 32 bytes is read before its start, and a create code that is the end of the run code itself is found
and not saved. -/
theorem create_code_not_fetched :
    fetchContractCreateCode tail (tail.take 32) [] = none ∧ fetchContractCreateCode tail tail [] = some (true, []) := by
  decide

theorem create_code_exact_iff_behind : Exact (replicate 32 0 ++ tail) tail :=
  (create_code_exact_iff _ tail (by decide)).mpr (.inr ⟨by decide, fun start => absurd start (by decide)⟩)

end Sample
end HashAhead.Host
