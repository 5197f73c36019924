import HashAhead.TxPool.Template

/-! What a template takes from any pool: certificates that differ in receiver and nonce, and of each sender the first
other transactions, none of them too cheap and all within the size. -/

namespace HashAhead.TxPool
open Foundation State List

theorem nTotalTxFee_pushAll (arranged : Arranged) (links : List PooledTxLink) :
    (arranged.pushAll links).nTotalTxFee.toNat =
      (arranged.nTotalTxFee.toNat + (links.map fun link => link.ptx.getTxFee.toNat).sum) % 2 ^ 256 := by
  induction links generalizing arranged with
  | nil => exact (Nat.mod_eq_of_lt arranged.nTotalTxFee.isLt).symm
  | cons link links ih =>
    rw [Arranged.pushAll, foldl_cons, ← Arranged.pushAll, ih, Arranged.push, BitVec.toNat_add, Nat.mod_add_mod,
      map_cons, sum_cons, Nat.add_assoc]

/-- The links are added, and the counted size is at most one more than the limit. -/
def Adds (nMaxSize : ℕ) (before after : Arranged) (taken : List PooledTxLink) : Prop :=
  after = before.pushAll taken ∧ (before.nTotalSize ≤ nMaxSize + 1 → after.nTotalSize ≤ nMaxSize + 1)

section
variable {nMaxSize : ℕ} {arranged : Arranged}

theorem adds_nil : Adds nMaxSize arranged arranged [] := ⟨rfl, id⟩

theorem Adds.cons {after : Arranged} {link : PooledTxLink} {taken : List PooledTxLink}
    (adds : Adds nMaxSize (arranged.push link) after taken)
    (room : ¬nMaxSize < arranged.nTotalSize + link.ptx.nSerializeSize) : Adds nMaxSize arranged after (link :: taken) := by
  refine ⟨adds.1, fun _ => adds.2 ?_⟩
  show arranged.nTotalSize + (link.ptx.nSerializeSize + 1) ≤ _
  omega

variable (nMaxSize arranged) (links : List PooledTxLink)

theorem arrangeCerts_adds (setDelegateEnroll : List (Destination × UInt32)) :
    ∃ taken, Adds nMaxSize arranged (arrangeCerts nMaxSize links setDelegateEnroll arranged) taken ∧ taken <+ links ∧
      (taken.map enrollKey).Nodup ∧ ∀ link ∈ taken, enrollKey link ∉ setDelegateEnroll := by
  fun_induction arrangeCerts nMaxSize links setDelegateEnroll arranged with
  | case1 | case2 => exact ⟨[], adds_nil, nil_sublist _, nodup_nil, by simp⟩
  | case3 link rest set arranged room known ih =>
    obtain ⟨taken, adds, listed, nodup, fresh⟩ := ih
    exact ⟨taken, adds, listed.cons _, nodup, fresh⟩
  | case4 link rest set arranged room fresh ih =>
    obtain ⟨taken, adds, listed, nodup, others⟩ := ih
    refine ⟨link :: taken, adds.cons room, listed.cons_cons _, nodup_cons.2 ⟨fun again => ?_, nodup⟩, ?_⟩
    · obtain ⟨other, mem, same⟩ := List.mem_map.1 again
      exact others other mem (same ▸ mem_cons_self)
    · rw [forall_mem_cons]
      exact ⟨fresh, fun other mem old => others other mem (mem_cons_of_mem _ old)⟩

/-- The transactions of a sender are taken up to its first cheap one or up to the end of the room. -/
theorem arrangeTxs_adds (nMintMinGasPrice : UInt256) (setDisable : List Destination) :
    ∃ taken, Adds nMaxSize arranged (arrangeTxs nMaxSize nMintMinGasPrice links setDisable arranged) taken ∧
      (∀ link ∈ taken, link.nType ≠ .cert ∧ nMintMinGasPrice ≤ link.ptx.nGasPrice ∧ link.ptx.destFrom ∉ setDisable) ∧
      ∀ dest ∉ setDisable, taken.filter (fun link => link.ptx.destFrom = dest) <+:
        links.filter fun link => link.nType ≠ .cert ∧ link.ptx.destFrom = dest := by
  fun_induction arrangeTxs nMaxSize nMintMinGasPrice links setDisable arranged with
  | case1 | case5 => exact ⟨[], adds_nil, by simp, fun _ _ => nil_prefix⟩
  | case2 link rest set arranged cert ih =>
    obtain ⟨taken, adds, good, firsts⟩ := ih
    refine ⟨taken, adds, good, fun dest enabled => ?_⟩
    rw [filter_cons_of_neg (by simp [cert])]
    exact firsts dest enabled
  | case3 link rest set arranged user disabled ih =>
    obtain ⟨taken, adds, good, firsts⟩ := ih
    refine ⟨taken, adds, good, fun dest enabled => ?_⟩
    have apart : link.ptx.destFrom ≠ dest := fun same => enabled (same ▸ disabled)
    rw [filter_cons_of_neg (by simp [apart])]
    exact firsts dest enabled
  | case4 link rest set arranged user _ cheap ih =>
    obtain ⟨taken, adds, good, firsts⟩ := ih
    refine ⟨taken, adds, fun other mem => ?_, fun dest enabled => ?_⟩
    · obtain ⟨kind, price, apart⟩ := good other mem
      exact ⟨kind, price, fun old => apart (mem_cons_of_mem _ old)⟩
    · by_cases own : link.ptx.destFrom = dest
      · have none_taken : taken.filter (fun link => link.ptx.destFrom = dest) = [] := by
          apply filter_eq_nil_iff.2
          intro other mem same
          exact (good other mem).2.2 (by simp [own, of_decide_eq_true same])
        rw [none_taken]
        exact nil_prefix
      · rw [filter_cons_of_neg (by simp [own])]
        exact firsts dest (by simp [enabled, Ne.symm own])
  | case6 link rest set arranged user own price room ih =>
    obtain ⟨taken, adds, good, firsts⟩ := ih
    refine ⟨link :: taken, adds.cons room, ?_, fun dest enabled => ?_⟩
    · rw [forall_mem_cons]
      exact ⟨⟨user, BitVec.not_lt.1 price, own⟩, good⟩
    · by_cases own : link.ptx.destFrom = dest
      · rw [filter_cons_of_pos (by simpa using own), filter_cons_of_pos (by simpa using ⟨user, own⟩)]
        exact (prefix_cons_inj link).2 (firsts dest enabled)
      · rw [filter_cons_of_neg (by simpa using own), filter_cons_of_neg (by simp [own])]
        exact firsts dest enabled

end

theorem template_keeps_sender_order (base : PoolBase) (chain : ForkChain) (pool : ForkTxPool) (hashPrev : UInt256)
    (nMaxSize : ℕ) : ∃ certs others : List PooledTxLink, ∃ nTotalTxFee : UInt256,
      pool.fetchArrangeBlockTx base chain hashPrev nMaxSize [] 0 =
        ((certs ++ others).map (fun link => link.ptx.toTransaction), nTotalTxFee) ∧
      certs <+ pool.byTxType .cert ∧ (certs.map fun link => (link.ptx.destTo, link.ptx.nTxNonce)).Nodup ∧
      (∀ dest, others.filter (fun link => link.ptx.destFrom = dest) <+:
        pool.bySequence.filter fun link => link.nType ≠ .cert ∧ link.ptx.destFrom = dest) ∧
      (∀ link ∈ others, link.nType ≠ .cert ∧ chain.getForkMintMinGasPrice ≤ link.ptx.nGasPrice) ∧
      ((certs ++ others).map serializeSize).sum ≤ nMaxSize ∧
      nTotalTxFee.toNat = ((certs ++ others).map fun link => link.ptx.getTxFee.toNat).sum % 2 ^ 256 := by
  by_cases old : hashPrev ≠ pool.hashLastBlock
  · exact ⟨[], [], 0, by simp [ForkTxPool.fetchArrangeBlockTx, old]⟩
  obtain ⟨certs, first, listed, distinct⟩ : ∃ certs, Adds nMaxSize ⟨[], 0, 0⟩ (if base.isGenesisFork then
      arrangeCerts nMaxSize (pool.byTxType .cert) [] ⟨[], 0, 0⟩ else ⟨[], 0, 0⟩) certs ∧
      certs <+ pool.byTxType .cert ∧ (certs.map enrollKey).Nodup := by
    split_ifs
    · obtain ⟨certs, adds, listed, nodup, _⟩ := arrangeCerts_adds nMaxSize ⟨[], 0, 0⟩ (pool.byTxType .cert) []
      exact ⟨certs, adds, listed, nodup⟩
    · exact ⟨[], adds_nil, nil_sublist _, nodup_nil⟩
  obtain ⟨others, second, good, firsts⟩ := arrangeTxs_adds nMaxSize (Arranged.pushAll ⟨[], 0, 0⟩ certs)
    pool.bySequence chain.getForkMintMinGasPrice []
  have whole := second.1
  have counted := second.2 (first.1 ▸ first.2 (Nat.zero_le _))
  rw [Arranged.pushAll, Arranged.pushAll, ← foldl_append, ← Arranged.pushAll, ← Arranged.pushAll] at whole
  rw [whole, nTotalSize_pushAll, load, sum_map_add] at counted
  refine ⟨certs, others, (Arranged.pushAll ⟨[], 0, 0⟩ (certs ++ others)).nTotalTxFee, ?_, listed, ?_,
    fun dest => firsts dest (by simp), fun link mem => ⟨(good link mem).1, (good link mem).2.1⟩, ?_, ?_⟩
  · rw [ForkTxPool.fetchArrangeBlockTx, if_neg old]
    simp only [first.1, whole, vtx_pushAll, nil_append]
  · apply Nodup.of_map fun key => (key.1, key.2.toUInt32)
    rw [List.map_map]
    exact distinct
  · rcases eq_nil_or_concat' (certs ++ others) with none_taken | ⟨front, link, same⟩
    · simp [none_taken]
    · simp [same] at counted ⊢
      omega
  · rw [nTotalTxFee_pushAll]
    simp

end HashAhead.TxPool
