import HashAhead.Foundation.Packing
import HashAhead.TxPool.Pending

/-! The transactions of a block template. Certificates come first, then the other transactions in the order in which they
came, without those of a sender from its first cheap one on, and up to a size. A transaction may need money that its
sender was to get from one that is left out, so a template is executable if and only if what is left out and what is
moved to the front is not needed. -/

namespace HashAhead.TxPool
open Foundation State Core List

structure Arranged where
  vtx : List Transaction
  nTotalSize : Nat
  nTotalTxFee : UInt256

def Arranged.push (arranged : Arranged) (link : PooledTxLink) : Arranged :=
  ⟨arranged.vtx ++ [link.ptx.toTransaction], arranged.nTotalSize + (link.ptx.nSerializeSize + 1),
    arranged.nTotalTxFee + link.ptx.getTxFee⟩

/-- The key of `setDelegateEnroll`. -/
def enrollKey (link : PooledTxLink) : Destination × UInt32 := (link.ptx.destTo, link.ptx.nTxNonce.toUInt32)

/-- The loop of `FetchArrangeBlockTx` over the certificates. -/
def arrangeCerts (nMaxSize : Nat) : List PooledTxLink → List (Destination × UInt32) → Arranged → Arranged
  | [], _, arranged => arranged
  | link :: rest, setDelegateEnroll, arranged =>
    if nMaxSize < arranged.nTotalSize + link.ptx.nSerializeSize then arranged
    else if enrollKey link ∈ setDelegateEnroll then arrangeCerts nMaxSize rest setDelegateEnroll arranged
    else arrangeCerts nMaxSize rest (enrollKey link :: setDelegateEnroll) (arranged.push link)

/-- The loop of `FetchArrangeBlockTx` over the other transactions. -/
def arrangeTxs (nMaxSize : Nat) (nMintMinGasPrice : UInt256) :
    List PooledTxLink → List Destination → Arranged → Arranged
  | [], _, arranged => arranged
  | link :: rest, setDisable, arranged =>
    if link.nType = .cert then arrangeTxs nMaxSize nMintMinGasPrice rest setDisable arranged
    else if link.ptx.destFrom ∈ setDisable then arrangeTxs nMaxSize nMintMinGasPrice rest setDisable arranged
    else if link.ptx.nGasPrice < nMintMinGasPrice then
      arrangeTxs nMaxSize nMintMinGasPrice rest (link.ptx.destFrom :: setDisable) arranged
    else if nMaxSize < arranged.nTotalSize + link.ptx.nSerializeSize then arranged
    else arrangeTxs nMaxSize nMintMinGasPrice rest setDisable (arranged.push link)

/-- `CForkTxPool::FetchArrangeBlockTx`, with the transactions and the fees to add to -/
def ForkTxPool.fetchArrangeBlockTx (base : PoolBase) (chain : ForkChain) (pool : ForkTxPool) (hashPrev : UInt256)
    (nMaxSize : Nat) (vtx : List Transaction) (nTotalTxFee : UInt256) : List Transaction × UInt256 :=
  if hashPrev ≠ pool.hashLastBlock then (vtx, nTotalTxFee)
  else
    let arranged : Arranged := ⟨vtx, 0, nTotalTxFee⟩
    let arranged := if base.isGenesisFork then arrangeCerts nMaxSize (pool.byTxType .cert) [] arranged else arranged
    let arranged := arrangeTxs nMaxSize chain.getForkMintMinGasPrice pool.bySequence [] arranged
    (arranged.vtx, arranged.nTotalTxFee)

section Choice
variable (base : PoolBase) (pool : ForkTxPool) (nMaxSize : Nat) (nMintMinGasPrice : UInt256)

def repeatsEnroll (link : PooledTxLink) : Bool :=
  (pool.byTxType .cert).any fun other => decide (other.nSequenceNumber < link.nSequenceNumber ∧ enrollKey other = enrollKey link)

/-- It is a certificate, or it or an earlier transaction of its sender is too cheap. -/
def passedOver (link : PooledTxLink) : Bool :=
  decide (link.nType = .cert) || pool.setTxLinkIndex.any fun other => decide (other.nType ≠ .cert ∧
    other.nSequenceNumber ≤ link.nSequenceNumber ∧ other.ptx.destFrom = link.ptx.destFrom ∧ other.ptx.nGasPrice < nMintMinGasPrice)

abbrev serializeSize (link : PooledTxLink) : Nat := link.ptx.nSerializeSize

def takesCert (link : PooledTxLink) : Bool :=
  base.isGenesisFork && decide (link.nType = .cert) && decide (Packed (repeatsEnroll pool) (fun _ => true) serializeSize nMaxSize
    PooledTxLink.nSequenceNumber (pool.byTxType .cert) 0 link)

def takesTx (link : PooledTxLink) : Bool :=
  decide (Packed (passedOver pool nMintMinGasPrice) (fun link => !passedOver pool nMintMinGasPrice link) serializeSize nMaxSize
    PooledTxLink.nSequenceNumber pool.setTxLinkIndex
    (load serializeSize (pool.setTxLinkIndex.filter (takesCert base pool nMaxSize))) link)

def takes (link : PooledTxLink) : Bool := takesCert base pool nMaxSize link || takesTx base pool nMaxSize nMintMinGasPrice link

def precedes (other link : PooledTxLink) : Bool :=
  if link.nType = .cert then decide (other.nType = .cert ∧ other.nSequenceNumber < link.nSequenceNumber)
  else decide (other.nType = .cert ∨ other.nSequenceNumber < link.nSequenceNumber)

def ahead (link : PooledTxLink) : List Transaction :=
  (pool.setTxLinkIndex.filter fun other => takes base pool nMaxSize nMintMinGasPrice other && precedes other link).map
    fun other => other.ptx.toTransaction

def pooledBefore (link : PooledTxLink) : List Transaction :=
  (pool.setTxLinkIndex.filter fun other => decide (other.nSequenceNumber < link.nSequenceNumber)).map
    fun other => other.ptx.toTransaction

end Choice

def Ready (accounts : Destination → Holding) (tx : Transaction) : Prop :=
  (tx.nType ≠ .cert → tx.nTxNonce = (accounts tx.destFrom).1 + 1) ∧ tx.nAmount + tx.getTxFee ≤ (accounts tx.destFrom).2

instance (accounts : Destination → Holding) (tx : Transaction) : Decidable (Ready accounts tx) :=
  inferInstanceAs (Decidable (_ ∧ _))

/-- Every transaction finds its sender ready when those before it have been applied. -/
def Executable (accounts : Destination → Holding) : List Transaction → Prop
  | [] => True
  | tx :: rest => Ready accounts tx ∧ Executable (settle delta accounts [tx]) rest

instance decidableExecutable (accounts : Destination → Holding) : ∀ txs, Decidable (Executable accounts txs)
  | [] => inferInstanceAs (Decidable True)
  | _ :: rest => @instDecidableAnd _ _ _ (decidableExecutable _ rest)

theorem executable_append (accts : Destination → Holding) (first second : List Transaction) :
    Executable accts (first ++ second) ↔ Executable accts first ∧ Executable (settle delta accts first) second := by
  induction first generalizing accts with
  | nil => exact (and_iff_right trivial).symm
  | cons tx first ih =>
    rw [cons_append, Executable, Executable, ih, and_assoc]
    rfl

/-- A choice from an ordered list is executable if and only if each one of it is ready after those before it. -/
theorem executable_filter {links : List PooledTxLink}
    (sorted : links.Pairwise fun a b => a.nSequenceNumber < b.nSequenceNumber) (p : PooledTxLink → Bool)
    (accts : Destination → Holding) :
    Executable accts ((links.filter p).map fun link => link.ptx.toTransaction) ↔
      ∀ link ∈ links, p link = true → Ready (settle delta accts ((links.filter fun other =>
        p other && decide (other.nSequenceNumber < link.nSequenceNumber)).map fun other => other.ptx.toTransaction))
        link.ptx.toTransaction := by
  induction links generalizing accts with
  | nil => simp [Executable]
  | cons head rest ih =>
    obtain ⟨later, sorted⟩ := pairwise_cons.1 sorted
    have atHead : ((head :: rest).filter fun other => p other && decide (other.nSequenceNumber < head.nSequenceNumber)) = [] :=
      filter_before_self later p
    have behind : ∀ link ∈ rest, ((head :: rest).filter fun other =>
        p other && decide (other.nSequenceNumber < link.nSequenceNumber)) = if p head then head :: rest.filter fun other =>
          p other && decide (other.nSequenceNumber < link.nSequenceNumber) else rest.filter fun other =>
          p other && decide (other.nSequenceNumber < link.nSequenceNumber) :=
      fun link mem => filter_before_head p (later link mem)
    rw [forall_mem_cons, atHead, filter_cons]
    cases chosen : p head with
    | false =>
      rw [if_neg Bool.false_ne_true, ih sorted]
      refine Iff.trans ?_ (and_iff_right fun isTrue => absurd isTrue Bool.false_ne_true).symm
      refine forall₂_congr fun link mem => imp_congr_right fun _ => ?_
      rw [behind link mem, chosen, if_neg Bool.false_ne_true]
    | true =>
      rw [if_pos rfl, map_cons, Executable, ih sorted]
      refine and_congr ⟨fun ready _ => ready, fun ready => ready rfl⟩ ?_
      refine forall₂_congr fun link mem => imp_congr_right fun _ => ?_
      rw [behind link mem, chosen, if_pos rfl, map_cons]
      rfl

section Loops
variable (nMaxSize : Nat) (nMintMinGasPrice : UInt256) {links : List PooledTxLink}

def Arranged.pushAll (arranged : Arranged) (links : List PooledTxLink) : Arranged := links.foldl Arranged.push arranged

theorem vtx_pushAll (arranged : Arranged) (links : List PooledTxLink) :
    (arranged.pushAll links).vtx = arranged.vtx ++ links.map fun link => link.ptx.toTransaction := by
  induction links generalizing arranged with
  | nil => simp [Arranged.pushAll]
  | cons link links ih =>
    rw [Arranged.pushAll, foldl_cons, ← Arranged.pushAll, ih, Arranged.push, append_assoc]
    rfl

theorem nTotalSize_pushAll (arranged : Arranged) (links : List PooledTxLink) :
    (arranged.pushAll links).nTotalSize = arranged.nTotalSize + load serializeSize links := by
  induction links generalizing arranged with
  | nil => rfl
  | cons link links ih =>
    rw [Arranged.pushAll, foldl_cons, ← Arranged.pushAll, ih, Arranged.push, load, load, map_cons, sum_cons,
      Nat.add_assoc]

theorem arrangeCerts_eq (skip : PooledTxLink → Bool) (setDelegateEnroll : List (Destination × UInt32)) (arranged : Arranged)
    (sorted : links.Pairwise fun a b => a.nSequenceNumber < b.nSequenceNumber)
    (skips : ∀ link ∈ links, skip link = true ↔ enrollKey link ∈ setDelegateEnroll ∨
      ∃ other ∈ links, other.nSequenceNumber < link.nSequenceNumber ∧ enrollKey other = enrollKey link) :
    arrangeCerts nMaxSize links setDelegateEnroll arranged =
      arranged.pushAll (pack skip (fun _ => true) serializeSize nMaxSize links arranged.nTotalSize) := by
  induction links generalizing setDelegateEnroll arranged with
  | nil => rfl
  | cons link rest ih =>
    obtain ⟨later, sorted⟩ := pairwise_cons.1 sorted
    have here : skip link = true ↔ enrollKey link ∈ setDelegateEnroll := by
      rw [skips link mem_cons_self]
      refine or_iff_left ?_
      rintro ⟨other, mem, before, _⟩
      rcases mem_cons.1 mem with rfl | mem
      · exact lt_irrefl _ before
      · exact lt_asymm before (later other mem)
    -- an earlier one in the list is the head or one behind it
    have rest_iff : ∀ next ∈ rest, skip next = true ↔
        (enrollKey next ∈ setDelegateEnroll ∨ enrollKey link = enrollKey next) ∨
          ∃ other ∈ rest, other.nSequenceNumber < next.nSequenceNumber ∧ enrollKey other = enrollKey next := by
      intro next mem
      rw [skips next (mem_cons_of_mem _ mem), or_assoc]
      refine or_congr_right ?_
      rw [exists_mem_cons_iff]
      exact or_congr_left (and_iff_right (later next mem))
    rw [arrangeCerts, pack, Bool.true_and]
    simp only [decide_eq_true_eq, here]
    split_ifs with full known
    · rfl
    · refine ih setDelegateEnroll arranged sorted fun next mem => ?_
      rw [rest_iff next mem]
      exact or_congr_left (or_iff_left_of_imp fun same => same ▸ known)
    · refine ih _ _ sorted fun next mem => ?_
      rw [rest_iff next mem, mem_cons, or_comm (a := enrollKey next ∈ _), eq_comm]

theorem arrangeTxs_eq (skip : PooledTxLink → Bool) (setDisable : List Destination) (arranged : Arranged)
    (sorted : links.Pairwise fun a b => a.nSequenceNumber < b.nSequenceNumber)
    (skips : ∀ link ∈ links, skip link = true ↔ link.nType = .cert ∨ link.ptx.destFrom ∈ setDisable ∨
      ∃ other ∈ links, other.nType ≠ .cert ∧ other.nSequenceNumber ≤ link.nSequenceNumber ∧
        other.ptx.destFrom = link.ptx.destFrom ∧ other.ptx.nGasPrice < nMintMinGasPrice) :
    arrangeTxs nMaxSize nMintMinGasPrice links setDisable arranged =
      arranged.pushAll (pack skip (fun link => !skip link) serializeSize nMaxSize links arranged.nTotalSize) := by
  induction links generalizing setDisable arranged with
  | nil => rfl
  | cons link rest ih =>
    obtain ⟨later, sorted⟩ := pairwise_cons.1 sorted
    have here : skip link = true ↔ link.nType = .cert ∨ link.ptx.destFrom ∈ setDisable ∨
        link.nType ≠ .cert ∧ link.ptx.nGasPrice < nMintMinGasPrice := by
      rw [skips link mem_cons_self, exists_mem_cons_iff]
      refine or_congr_right (or_congr_right ?_)
      rw [or_iff_left]
      · simp
      · rintro ⟨other, mem, _, before, _⟩
        exact absurd before (not_le.2 (later other mem))
    have rest_iff : ∀ next ∈ rest, skip next = true ↔ next.nType = .cert ∨ (next.ptx.destFrom ∈ setDisable ∨
        (link.nType ≠ .cert ∧ link.ptx.nGasPrice < nMintMinGasPrice) ∧ link.ptx.destFrom = next.ptx.destFrom) ∨
          ∃ other ∈ rest, other.nType ≠ .cert ∧ other.nSequenceNumber ≤ next.nSequenceNumber ∧
            other.ptx.destFrom = next.ptx.destFrom ∧ other.ptx.nGasPrice < nMintMinGasPrice := by
      intro next mem
      rw [skips next (mem_cons_of_mem _ mem), exists_mem_cons_iff, or_assoc]
      refine or_congr_right (or_congr_right (or_congr_left ?_))
      have upTo := (later next mem).le
      tauto
    rw [arrangeTxs, pack]
    by_cases cert : link.nType = .cert
    · have skipped : skip link = true := here.2 (Or.inl cert)
      rw [if_pos cert, skipped]
      refine ih setDisable arranged sorted fun next mem => ?_
      rw [rest_iff next mem]
      simp [cert]
    rw [if_neg cert]
    by_cases disabled : link.ptx.destFrom ∈ setDisable
    · have skipped : skip link = true := here.2 (Or.inr (Or.inl disabled))
      rw [if_pos disabled, skipped]
      refine ih setDisable arranged sorted fun next mem => ?_
      rw [rest_iff next mem]
      refine or_congr_right (or_congr_left (or_iff_left_of_imp ?_))
      exact fun both => both.2 ▸ disabled
    rw [if_neg disabled]
    by_cases cheap : link.ptx.nGasPrice < nMintMinGasPrice
    · have skipped : skip link = true := here.2 (Or.inr (Or.inr ⟨cert, cheap⟩))
      rw [if_pos cheap, skipped]
      refine ih _ arranged sorted fun next mem => ?_
      rw [rest_iff next mem, mem_cons]
      refine or_congr_right (or_congr_left ⟨?_, ?_⟩)
      · exact fun either => either.elim Or.inr fun both => Or.inl both.2.symm
      · exact fun either => either.elim (fun same => Or.inr ⟨⟨cert, cheap⟩, same.symm⟩) Or.inl
    · have kept : skip link = false := by
        rw [← Bool.not_eq_true, here]
        tauto
      rw [if_neg cheap, kept]
      simp only [Bool.not_false, Bool.true_and, decide_eq_true_eq, Bool.false_eq_true, if_false]
      split_ifs with full
      · rfl
      · refine ih setDisable (arranged.push link) sorted fun next mem => ?_
        rw [rest_iff next mem]
        simp [cheap]

end Loops

section Selected
variable {base : PoolBase} {pool : ForkTxPool} {nMaxSize : Nat} {nMintMinGasPrice : UInt256}

theorem cert_of_takesCert {link : PooledTxLink} (taken : takesCert base pool nMaxSize link = true) : link.nType = .cert := by
  simp only [takesCert, Bool.and_eq_true, decide_eq_true_eq] at taken
  exact taken.1.2

theorem not_cert_of_takesTx {link : PooledTxLink} (taken : takesTx base pool nMaxSize nMintMinGasPrice link = true) :
    link.nType ≠ .cert := by
  intro cert
  have kept := (of_decide_eq_true taken).1
  simp [passedOver, cert] at kept

theorem takesTx_cert {link : PooledTxLink} (cert : link.nType = .cert) :
    takesTx base pool nMaxSize nMintMinGasPrice link = false :=
  Bool.eq_false_iff.2 fun taken => not_cert_of_takesTx taken cert

theorem takesCert_user {link : PooledTxLink} (user : link.nType ≠ .cert) : takesCert base pool nMaxSize link = false :=
  Bool.eq_false_iff.2 fun taken => user (cert_of_takesCert taken)

theorem fetchArrangeBlockTx_eq {known : Set Transaction} (indexed : Indexed base known pool) (chain : ForkChain)
    (fee : UInt256) :
    (pool.fetchArrangeBlockTx base chain pool.hashLastBlock nMaxSize [] fee).1 =
      (pool.setTxLinkIndex.filter (takesCert base pool nMaxSize)).map (fun link => link.ptx.toTransaction) ++
      (pool.setTxLinkIndex.filter (takesTx base pool nMaxSize chain.getForkMintMinGasPrice)).map
        fun link => link.ptx.toTransaction := by
  have certs : (if base.isGenesisFork then arrangeCerts nMaxSize (pool.byTxType .cert) [] ⟨[], 0, fee⟩
      else ⟨[], 0, fee⟩ : Arranged) =
      Arranged.pushAll ⟨[], 0, fee⟩ (pool.setTxLinkIndex.filter (takesCert base pool nMaxSize)) := by
    split_ifs with main
    · have sorted : (pool.byTxType .cert).Pairwise fun a b => a.nSequenceNumber < b.nSequenceNumber :=
        indexed.sequence.filter _
      rw [arrangeCerts_eq nMaxSize (repeatsEnroll pool) [] _ sorted (by simp [repeatsEnroll]), pack_eq_filter sorted]
      refine congrArg _ ((List.filter_filter ..).trans (filter_congr fun link _ => ?_))
      rw [takesCert, main, Bool.true_and, Bool.and_comm]
    · have none_taken : pool.setTxLinkIndex.filter (takesCert base pool nMaxSize) = [] := by
        apply filter_eq_nil_iff.2
        intro link _
        simp [takesCert, main]
      rw [none_taken]
      rfl
  rw [ForkTxPool.fetchArrangeBlockTx, if_neg (not_not.2 rfl)]
  simp only [certs, indexed.bySequence_eq]
  rw [arrangeTxs_eq nMaxSize _ (passedOver pool chain.getForkMintMinGasPrice) [] _ indexed.sequence
    (by simp [passedOver]), pack_eq_filter indexed.sequence, nTotalSize_pushAll, vtx_pushAll, vtx_pushAll, Nat.zero_add]
  rfl

/-- What stands before a transaction that is not a certificate: the certificates, then the others before it. -/
theorem settle_ahead (accts : Destination → Holding) {link : PooledTxLink} (user : link.nType ≠ .cert) (dest : Destination) :
    settle delta (settle delta accts ((pool.setTxLinkIndex.filter (takesCert base pool nMaxSize)).map
      fun other => other.ptx.toTransaction)) ((pool.setTxLinkIndex.filter fun other =>
        takesTx base pool nMaxSize nMintMinGasPrice other && decide (other.nSequenceNumber < link.nSequenceNumber)).map
          fun other => other.ptx.toTransaction) dest =
      settle delta accts (ahead base pool nMaxSize nMintMinGasPrice link) dest := by
  have first : (pool.setTxLinkIndex.filter fun other => (takes base pool nMaxSize nMintMinGasPrice other && precedes other link) &&
      decide (other.nType = .cert)) = pool.setTxLinkIndex.filter (takesCert base pool nMaxSize) := by
    refine filter_congr fun other _ => ?_
    by_cases cert : other.nType = .cert
    · simp [takes, takesTx_cert cert, precedes, user, cert]
    · simp [takesCert_user cert, cert]
  have second : (pool.setTxLinkIndex.filter fun other => (takes base pool nMaxSize nMintMinGasPrice other && precedes other link) &&
      !decide (other.nType = .cert)) = pool.setTxLinkIndex.filter fun other =>
        takesTx base pool nMaxSize nMintMinGasPrice other && decide (other.nSequenceNumber < link.nSequenceNumber) := by
    refine filter_congr fun other _ => ?_
    by_cases cert : other.nType = .cert
    · simp [takesTx_cert cert, cert]
    · simp [takes, takesCert_user cert, precedes, user, cert]
  rw [settle_apply, settle_apply, settle_apply, ahead, List.map_map, List.map_map, List.map_map,
    sum_filter_split _ _ (fun other => takes base pool nMaxSize nMintMinGasPrice other && precedes other link)
      fun other => decide (other.nType = .cert), first, second, add_assoc]

theorem ahead_of_cert {link : PooledTxLink} (cert : link.nType = .cert) :
    (pool.setTxLinkIndex.filter fun other => takesCert base pool nMaxSize other &&
      decide (other.nSequenceNumber < link.nSequenceNumber)).map (fun other => other.ptx.toTransaction) =
      ahead base pool nMaxSize nMintMinGasPrice link := by
  refine congrArg _ (filter_congr fun other _ => ?_)
  by_cases otherCert : other.nType = .cert
  · simp [takes, takesTx_cert otherCert, precedes, cert, otherCert]
  · simp [takesCert_user otherCert, precedes, cert, otherCert]

/-- The template is executable if and only if each transaction of it is ready after those before it. -/
theorem executable_template_iff {known : Set Transaction} (indexed : Indexed base known pool) (chain : ForkChain)
    (accts : Destination → Holding) (fee : UInt256) :
    Executable accts (pool.fetchArrangeBlockTx base chain pool.hashLastBlock nMaxSize [] fee).1 ↔
      ∀ link ∈ pool.setTxLinkIndex, takes base pool nMaxSize chain.getForkMintMinGasPrice link = true →
        Ready (settle delta accts (ahead base pool nMaxSize chain.getForkMintMinGasPrice link)) link.ptx.toTransaction := by
  rw [fetchArrangeBlockTx_eq indexed, executable_append, executable_filter indexed.sequence, executable_filter indexed.sequence,
    ← forall₂_and]
  refine forall₂_congr fun link _ => ?_
  rw [takes, Bool.or_eq_true, or_imp]
  refine and_congr (imp_congr_right fun taken => ?_) (imp_congr_right fun taken => ?_)
  · rw [ahead_of_cert (cert_of_takesCert taken)]
  · rw [Ready, Ready, settle_ahead accts (not_cert_of_takesTx taken)]

end Selected

section Condition
variable (base : PoolBase) (pool : ForkTxPool) (nMaxSize : Nat) (nMintMinGasPrice : UInt256)
  (accounts : Destination → Holding) (link : PooledTxLink)

/-- What the sender had pending when the transaction was added: the chain with the transactions pooled before. -/
def pendingBefore : Holding := settle delta accounts (pooledBefore pool link) link.ptx.destFrom

/-- What the transactions pooled before would have done to the sender that are not before it in the template. -/
def leftOut : Holding := ((pool.setTxLinkIndex.filter fun other => decide (other.nSequenceNumber < link.nSequenceNumber) &&
  !(takes base pool nMaxSize nMintMinGasPrice other && precedes other link)).map
    fun other => delta other.ptx.toTransaction link.ptx.destFrom).sum

/-- What the later certificates do to the sender that are moved before it. -/
def movedUp : Holding := ((pool.setTxLinkIndex.filter fun other =>
  (takes base pool nMaxSize nMintMinGasPrice other && precedes other link) &&
    !decide (other.nSequenceNumber < link.nSequenceNumber)).map
      fun other => delta other.ptx.toTransaction link.ptx.destFrom).sum

/-- The pending balance covers the transaction also without what is left out and with what is moved up. -/
def Covered : Prop := link.ptx.nAmount + link.ptx.getTxFee ≤
  (pendingBefore pool accounts link - leftOut base pool nMaxSize nMintMinGasPrice link +
    movedUp base pool nMaxSize nMintMinGasPrice link).2

def InLine : Prop := link.ptx.nTxNonce = (pendingBefore pool accounts link).1 + 1

instance : Decidable (Covered base pool nMaxSize nMintMinGasPrice accounts link) := inferInstanceAs (Decidable (_ ≤ _))

instance : Decidable (InLine pool accounts link) := inferInstanceAs (Decidable (_ = _))

theorem settle_ahead_eq : settle delta accounts (ahead base pool nMaxSize nMintMinGasPrice link) link.ptx.destFrom =
    pendingBefore pool accounts link - leftOut base pool nMaxSize nMintMinGasPrice link +
      movedUp base pool nMaxSize nMintMinGasPrice link := by
  have exchange := sum_exchange pool.setTxLinkIndex (fun other => delta other.ptx.toTransaction link.ptx.destFrom)
    (fun other => takes base pool nMaxSize nMintMinGasPrice other && precedes other link)
    fun other => decide (other.nSequenceNumber < link.nSequenceNumber)
  rw [← leftOut, ← movedUp] at exchange
  rw [settle_apply, ahead, List.map_map, pendingBefore, settle_apply, pooledBefore, List.map_map, add_sub_assoc, add_assoc]
  exact congrArg (accounts link.ptx.destFrom + ·) exchange

theorem sum_fst_eq_zero {links : List PooledTxLink} {f : PooledTxLink → Holding} (zero : ∀ other ∈ links, (f other).1 = 0) :
    (links.map f).sum.1 = 0 := by
  induction links with
  | nil => rfl
  | cons other links ih =>
    obtain ⟨first, rest⟩ := forall_mem_cons.1 zero
    rw [map_cons, sum_cons, Prod.fst_add, first, ih rest, add_zero]

theorem delta_fst {tx : Transaction} {dest : Destination} (uncounted : ¬(tx.destFrom = dest ∧ tx.nType ≠ .cert)) :
    (delta tx dest).1 = 0 := if_neg fun all => uncounted ⟨all.1, all.2.2⟩

variable {base pool nMaxSize nMintMinGasPrice link} {known : Set Transaction}

/-- The earlier transactions of the sender of a transaction in the template are in the template. -/
theorem takesTx_of_before {other : PooledTxLink} (taken : takesTx base pool nMaxSize nMintMinGasPrice link = true)
    (before : other.nSequenceNumber < link.nSequenceNumber) (sameSender : other.ptx.destFrom = link.ptx.destFrom)
    (user : other.nType ≠ .cert) : takesTx base pool nMaxSize nMintMinGasPrice other = true := by
  obtain ⟨kept, fits⟩ := of_decide_eq_true taken
  refine decide_eq_true ⟨?_, fun y mem isChecked upTo => fits y mem isChecked (upTo.trans before.le)⟩
  rw [← Bool.not_eq_true] at kept ⊢
  intro passed
  apply kept
  rw [passedOver, Bool.or_eq_true, decide_eq_true_eq, List.any_eq_true] at passed ⊢
  right
  obtain ⟨cheap, mem, found⟩ := passed.resolve_left user
  rw [decide_eq_true_eq] at found
  exact ⟨cheap, mem, decide_eq_true ⟨found.1, found.2.1.trans before.le, found.2.2.1.trans sameSender, found.2.2.2⟩⟩

theorem nonce_ahead (indexed : Indexed base known pool) (taken : takesTx base pool nMaxSize nMintMinGasPrice link = true) :
    (settle delta accounts (ahead base pool nMaxSize nMintMinGasPrice link) link.ptx.destFrom).1 =
      (pendingBefore pool accounts link).1 := by
  have user := not_cert_of_takesTx taken
  have out : (leftOut base pool nMaxSize nMintMinGasPrice link).1 = 0 := by
    apply sum_fst_eq_zero
    intro other mem
    obtain ⟨inside, absent⟩ := mem_filter.1 mem
    rw [Bool.and_eq_true, decide_eq_true_eq, Bool.not_eq_true'] at absent
    apply delta_fst
    rintro ⟨sameSender, otherUser⟩
    have otherType : other.nType ≠ .cert := by
      rw [congrArg PooledTxLink.nType (indexed.linked other inside)]
      exact otherUser
    have chosen : takes base pool nMaxSize nMintMinGasPrice other && precedes other link := by
      rw [takes, takesTx_of_before taken absent.1 sameSender otherType, precedes, if_neg user]
      simp [absent.1]
    rw [chosen] at absent
    cases absent.2
  have up : (movedUp base pool nMaxSize nMintMinGasPrice link).1 = 0 := by
    apply sum_fst_eq_zero
    intro other mem
    obtain ⟨inside, moved⟩ := mem_filter.1 mem
    simp only [Bool.and_eq_true, Bool.not_eq_true', decide_eq_false_iff_not, precedes, if_neg user, decide_eq_true_eq] at moved
    have cert := moved.1.2.resolve_right moved.2
    rw [congrArg PooledTxLink.nType (indexed.linked other inside)] at cert
    exact delta_fst fun both => both.2 cert
  rw [settle_ahead_eq, Prod.fst_add, Prod.fst_sub, out, up, sub_zero, add_zero]

theorem ready_iff (indexed : Indexed base known pool) (mem : link ∈ pool.setTxLinkIndex)
    (taken : takes base pool nMaxSize nMintMinGasPrice link = true) :
    Ready (settle delta accounts (ahead base pool nMaxSize nMintMinGasPrice link)) link.ptx.toTransaction ↔
      Covered base pool nMaxSize nMintMinGasPrice accounts link ∧ (link.nType ≠ .cert → InLine pool accounts link) := by
  have sameType : link.ptx.nType = link.nType := (congrArg PooledTxLink.nType (indexed.linked link mem)).symm
  rw [Ready, and_comm]
  refine and_congr ?_ ?_
  · rw [settle_ahead_eq, Covered]
  · rw [sameType]
    refine imp_congr_right fun user => ?_
    rw [takes, Bool.or_eq_true] at taken
    rw [nonce_ahead accounts indexed (taken.resolve_left fun isCert => user (cert_of_takesCert isCert)), InLine]

end Condition

section Filled
variable {base : PoolBase} {known : Set Transaction} {states : States} {pool : ForkTxPool}

/-- All pooled transactions but certificates have the next nonce after those pooled before. -/
def AllInLine (states : States) (pool : ForkTxPool) : Prop :=
  ∀ link ∈ pool.setTxLinkIndex, link.nType ≠ .cert → InLine pool (states.at pool.hashLastBlock) link

theorem AllInLine.addTx (indexed : Indexed base known pool) (exact_ : Exact states pool) (inLine : AllInLine states pool)
    {chain : ForkChain} (sameStates : chain.retrieveDestState = states) {tx : Transaction}
    (kept : ∀ dest, Touches tx dest → NotEmptied states pool dest) (fits : Fits chain pool tx) {pool' : ForkTxPool}
    (added : Added base known chain tx pool pool') : AllInLine states pool' := by
  obtain ⟨new, index, rfl⟩ := added.index
  have sorted := added.indexed.sequence
  rw [index] at sorted
  have behind : ∀ link ∈ pool.setTxLinkIndex, link.nSequenceNumber < new.nSequenceNumber :=
    fun link mem => (pairwise_append.1 sorted).2.2 link mem new (mem_singleton.2 rfl)
  intro link mem user
  rw [InLine, pendingBefore, added.last, pooledBefore]
  rw [index] at mem ⊢
  rcases mem_append.1 mem with old | last
  · -- the new one is not before an old one
    have same : ((pool.setTxLinkIndex ++ [new]).filter fun other => decide (other.nSequenceNumber < link.nSequenceNumber)) =
        pool.setTxLinkIndex.filter fun other => decide (other.nSequenceNumber < link.nSequenceNumber) := by
      rw [filter_append, filter_cons_of_neg (by simpa using (behind link old).le), filter_nil, append_nil]
    rw [same]
    exact inLine link old user
  · rw [mem_singleton] at last
    subst last
    have all : ((pool.setTxLinkIndex ++ [link]).filter fun other => decide (other.nSequenceNumber < link.nSequenceNumber)) =
        pool.setTxLinkIndex := by
      rw [filter_append, filter_cons_of_neg (by simp), filter_nil, append_nil, filter_eq_self]
      exact fun other inside => decide_eq_true (behind other inside)
    rw [all]
    obtain ⟨state, pending, next, _⟩ := fits
    have inLast : link ∈ pool'.setTxLinkIndex := index ▸ mem_append_right _ (mem_singleton.2 rfl)
    have userTx : link.ptx.nType ≠ .cert := by
      rw [congrArg PooledTxLink.nType (added.indexed.linked link inLast)] at user
      exact user
    have replayed := pending_eq_replay indexed exact_ sameStates (kept _ ⟨added.nonzero, Or.inl rfl⟩)
    rw [pending] at replayed
    rw [next userTx]
    exact congrArg (·.1 + 1) replayed

theorem AllInLine.run (distinct : Set.InjOn base.getHash known) {calls : List Call}
    (isKnown : ∀ call ∈ calls, ∀ tx ∈ call.txs, tx ∈ known) (filling : ∀ call ∈ calls, ∃ chain tx, call = .addTx chain tx)
    (indexed : Indexed base known pool) (exact_ : Exact states pool) (inLine : AllInLine states pool)
    (fitting : FittingRun base pool calls) (careful : CarefulRun base states pool calls) :
    AllInLine states (pool.run base calls) := by
  induction calls generalizing pool with
  | nil => exact inLine
  | cons call rest ih =>
    obtain ⟨chain, tx, rfl⟩ := filling call mem_cons_self
    have here := isKnown _ mem_cons_self
    have first : AllInLine states (pool.call base (.addTx chain tx)) := by
      rcases indexed.addTx_cases chain (here tx (mem_singleton.2 rfl)) with ⟨err, _, same⟩ | ⟨pool', same, added⟩
      · rw [ForkTxPool.call, same]
        exact inLine
      · rw [ForkTxPool.call, same]
        exact inLine.addTx indexed exact_ careful.1.1 careful.1.2 fitting.1 added
    exact ih (fun other mem => isKnown other (mem_cons_of_mem _ mem))
      (fun other mem => filling other (mem_cons_of_mem _ mem)) (indexed.call distinct here)
      (exact_.call distinct indexed here careful.1) first fitting.2 careful.2

end Filled

namespace Sample

def funds : States := fun _ dest => if dest = 0xA then some (account 0 100) else none

def passOn (nGasPrice : UInt256) : List Call :=
  [.addTx (chainOf funds) (transfer 1 0xA 0xB 50 nGasPrice), .addTx (chainOf funds) (transfer 1 0xB 0xC 20 10)]

variable (nGasPrice : UInt256)

theorem passOn_distinct : Set.InjOn base.getHash (callTxs (passOn nGasPrice)) :=
  distinct_of_mem [transfer 1 0xA 0xB 50 nGasPrice, transfer 1 0xB 0xC 20 10]
    (by simp [passOn, Call.txs]) (show ([50, 20] : List UInt256).Nodup by decide)

theorem passOn_filling : ∀ call ∈ passOn nGasPrice, ∃ chain tx, call = .addTx chain tx := by
  simp [passOn]

theorem passOn_fitting (price : nGasPrice = 5 ∨ nGasPrice = 10) :
    FittingRun base (ForkTxPool.new 1 0) (passOn nGasPrice) := by
  rcases price with rfl | rfl
  all_goals
    exact ⟨⟨account 0 100, by decide +kernel, fun _ => by decide +kernel, by decide +kernel⟩,
      ⟨account 0 50, by decide +kernel, fun _ => by decide +kernel, by decide +kernel⟩, trivial⟩

end Sample

end HashAhead.TxPool
