import HashAhead.Mpvss.Honest

/-! Secret sharing among honest dealers from end to end. Shares are delivered and published ones are collected
in any order that has a dealer publish after it has got its shares. Nobody refuses anything, and who has
collected from enough weight recovers the secrets of all dealers. -/

namespace HashAhead.Mpvss
open Foundation State List Option Function SecretShare SortedMap Honest

/-- A share on its way to the receiver, or what a dealer publishes on its way to a collector. -/
inductive Event where
  | deliver (dealer receiver : Dealer)
  | collect (publisher : Dealer) (collector : UInt256) (fCheckRepeated : Bool)

abbrev Nodes := UInt256 → SecretShare

/-- What becomes of the nodes, nothing if the receiver or the collector refuses. -/
def Nodes.step (curve : Curve) (nodes : Nodes) : Event → Option Nodes
  | .deliver dealer receiver =>
    ((nodes dealer.nIdent).distribute.find receiver.nIdent).bind fun vShare =>
      let accepted := (nodes receiver.nIdent).accept curve dealer.nIdent vShare
      if accepted.1 then some (Function.update nodes receiver.nIdent accepted.2) else none
  | .collect publisher collector fCheckRepeated =>
    (nodes publisher.nIdent).publish.bind fun mapShare =>
      let collected := (nodes collector).collect curve publisher.nIdent mapShare fCheckRepeated
      if collected.1 then some (Function.update nodes collector collected.2) else none

def Nodes.run (curve : Curve) (nodes : Nodes) : List Event → Option Nodes
  | [] => some nodes
  | event :: past => (nodes.run curve past).bind (·.step curve event)

def collected (me : UInt256) : List Event → List Dealer
  | [] => []
  | .deliver _ _ :: past => collected me past
  | .collect publisher collector _ :: past =>
    if collector = me then collected me past ++ [publisher] else collected me past

def parties (dealers : List Dealer) : List UInt256 := 0 :: dealers.map Dealer.nIdent

/-- Dealers deliver to each other, and publish when they have got the shares of all others. A node collects
once from a dealer. -/
def Admissible (dealers : List Dealer) : List Event → Prop
  | [] => True
  | .deliver dealer receiver :: past =>
    Admissible dealers past ∧ dealer ∈ dealers ∧ receiver ∈ dealers ∧ dealer.nIdent ≠ receiver.nIdent
  | .collect publisher collector _ :: past =>
    Admissible dealers past ∧ publisher ∈ dealers ∧ collector ∈ parties dealers ∧ publisher ∉ collected collector past ∧
      ∀ d ∈ dealers, d.nIdent ≠ publisher.nIdent → .deliver d publisher ∈ past

section Opened
variable {curve : Curve} {dealers : List Dealer}

def indexesOf (dealers : List Dealer) (p : Dealer) : List UInt32 :=
  (List.range p.nWeight).map fun i => .ofNat (firstIndex dealers p + i)

noncomputable def openedFrom (dealers : List Dealer) (d p : Dealer) : List (UInt32 × UInt256) :=
  (indexesOf dealers p).map fun x => (x, shareAt dealers d x)

theorem withIndex_sharesFor (dealers : List Dealer) (d p : Dealer) :
    withIndex (firstIndex dealers p) (sharesFor dealers d p) = openedFrom dealers d p := by
  apply ext_getElem
  · simp [withIndex, sharesFor, openedFrom, indexesOf]
  · intro i _ _
    simp [withIndex, sharesFor, openedFrom, indexesOf]

theorem map_fst_openedFrom (d p : Dealer) : (openedFrom dealers d p).map Prod.fst = indexesOf dealers p := by
  rw [openedFrom, List.map_map]
  exact List.map_id _

theorem length_openedFrom (d p : Dealer) : (openedFrom dealers d p).length = p.nWeight := by
  rw [openedFrom, indexesOf, length_map, length_map, length_range]

theorem length_flatMap_openedFrom (d : Dealer) (senders : List Dealer) :
    (senders.flatMap (openedFrom dealers d)).length = (senders.map Dealer.nWeight).sum := by
  rw [length_flatMap, map_congr_left fun p _ => length_openedFrom d p]

theorem Honest.nodup_indexes (honest : Honest curve dealers) {senders : List Dealer} (nodup : senders.Nodup)
    (members : ∀ p ∈ senders, p ∈ dealers) : (senders.flatMap (indexesOf dealers)).Nodup := by
  rw [nodup_flatMap]
  constructor
  · intro p inside
    apply List.Nodup.map_on _ nodup_range
    intro i less j less' same
    have value := congrArg UInt32.toNat same
    rw [honest.toNat_index (members p inside) (mem_range.1 less),
      honest.toNat_index (members p inside) (mem_range.1 less')] at value
    omega
  · refine nodup.imp_of_mem fun {p q} inside inside' apart => ?_
    intro x first second
    obtain ⟨i, less, rfl⟩ := List.mem_map.1 first
    obtain ⟨j, less', same⟩ := List.mem_map.1 second
    have value := congrArg UInt32.toNat same
    rw [honest.toNat_index (members p inside) (mem_range.1 less),
      honest.toNat_index (members q inside') (mem_range.1 less')] at value
    rw [mem_range] at less less'
    have differ : p.candidate ≠ q.candidate := fun same => apart (honest.eq_of_nIdent (members p inside)
      (members q inside') (congrArg Candidate.nIdent same))
    have order := startIndex_separate honest.distinct' (mem_candidatesOf (members p inside))
      (mem_candidatesOf (members q inside')) differ 1
    simp only [firstIndex, Dealer.candidate] at order value
    omega

theorem Honest.nodup_opened (honest : Honest curve dealers) (d : Dealer) {senders : List Dealer}
    (nodup : senders.Nodup) (members : ∀ p ∈ senders, p ∈ dealers) :
    ((senders.flatMap (openedFrom dealers d)).map Prod.fst).Nodup := by
  rw [map_flatMap, flatMap_congr fun p _ => map_fst_openedFrom d p]
  exact honest.nodup_indexes nodup members

end Opened

section Stands
variable {curve : Curve} {dealers : List Dealer} {me : UInt256} {past : List Event} {s : SecretShare}

/-- The shares that a node holds of a dealer: none as long as none has come, and then those meant for it. -/
def Holds (dealers : List Dealer) (past : List Event) (me : UInt256) (d : Dealer) (vShare : List UInt256) : Prop :=
  (vShare = [] ∧ ∀ r, r.nIdent = me → .deliver d r ∉ past) ∨
    ∃ r ∈ dealers, r.nIdent = me ∧ vShare = sharesFor dealers d r

structure Stands (curve : Curve) (dealers : List Dealer) (me : UInt256) (past : List Event) (s : SecretShare) :
    Prop where
  nIdent : s.nIdent = me
  myBox : ∀ d ∈ dealers, d.nIdent = me → s.myBox = d.box
  nThresh : s.nThresh = threshold dealers
  range : ∀ d ∈ dealers, s.getParticipantRange d.nIdent = some (firstIndex dealers d, d.nWeight)
  entry : ∀ d ∈ dealers, d.nIdent ≠ me → ∃ vShare, Holds dealers past me d vShare ∧
    s.mapParticipant.find d.nIdent = some (participantOf curve dealers s.myBox vShare d)
  other : ∀ nIdent, nIdent ∉ dealers.map Dealer.nIdent ∨ nIdent = me → s.mapParticipant.find nIdent = none
  opened : ∀ d ∈ dealers, (s.mapOpenedShare.find d.nIdent).getD [] =
    ((collected me past).flatMap (openedFrom dealers d)).take (threshold dealers)
  openedOther : ∀ nIdent ∉ dealers.map Dealer.nIdent, s.mapOpenedShare.find nIdent = none

theorem Honest.stands (honest : Honest curve dealers) {box : OpenedBox}
    (enrolled : Enrolled curve me box (candidatesOf dealers) s) (own : ∀ d ∈ dealers, d.nIdent = me → box = d.box) :
    Stands curve dealers me [] s := by
  have total := honest.total
  have small : ∀ d ∈ dealers, startIndex d.nIdent 1 (candidatesOf dealers) % 2 ^ 64 = firstIndex dealers d := by
    intro d mem
    have bounds := honest.firstIndex_bounds mem
    rw [firstIndex] at bounds ⊢
    omega
  have nThresh : s.nThresh = threshold dealers := by rw [enrolled.nThresh, honest.lastIndex_eq, honest.enrollThresh_eq]
  refine ⟨enrolled.nIdent, ?_, nThresh, ?_, ?_, ?_, ?_, ?_⟩
  · intro d mem same
    rw [enrolled.myBox, own d mem same]
  · intro d mem
    have range := enrolled.range d.candidate (mem_candidatesOf mem)
    rw [honest.filter_keeps, keeps, honest.verify mem, Bool.or_true, if_pos rfl] at range
    rw [← small d mem]
    exact range
  · intro d mem apart
    have entry := enrolled.entry d.candidate (mem_candidatesOf mem)
    have new : joins curve me d.candidate = true := by
      rw [joins, honest.verify mem, Bool.and_true]
      exact decide_eq_true apart
    rw [assignedEntry, if_pos new, honest.filter_keeps, honest.lastIndex_eq, nThresh, map_some] at entry
    refine ⟨[], Or.inl ⟨rfl, fun _ _ => not_mem_nil⟩, ?_⟩
    rw [enrolled.myBox, participantOf, ← small d mem]
    exact entry
  · rintro id (outside | rfl)
    · exact enrolled.other id (by rwa [idents_eq])
    · by_cases listed : id ∈ (candidatesOf dealers).map Candidate.nIdent
      · obtain ⟨c, inside, rfl⟩ := List.mem_map.1 listed
        rw [enrolled.entry c inside, assignedEntry, joins]
        simp
      · exact enrolled.other id listed
  · intro d _
    rw [enrolled.opened, find_empty]
    rfl
  · intro id _
    rw [enrolled.opened, find_empty]

section
variable {d p r : Dealer} {vShare : List UInt256}

theorem Stands.own_range (stands : Stands curve dealers me past s) (mem : d ∈ dealers) (own : d.nIdent = me) :
    s.nIndex = firstIndex dealers d ∧ s.nWeight = d.nWeight := by
  have range := stands.range d mem
  rw [getParticipantRange, stands.nIdent, if_pos own] at range
  exact Prod.mk.inj (Option.some.inj range)

theorem Stands.distribute_find (honest : Honest curve dealers) (stands : Stands curve dealers d.nIdent past s)
    (mem : d ∈ dealers) (mem' : r ∈ dealers) (apart : d.nIdent ≠ r.nIdent) :
    s.distribute.find r.nIdent =
      some ((sharesFor dealers d r).map fun share => d.box.sharedKey curve r.sealed.nPubKey ^^^ share) := by
  obtain ⟨vShare, _, found⟩ := stands.entry r mem' apart.symm
  have own := stands.myBox d mem rfl
  rw [distribute, find_foldl fun _ p =>
    some (((s.ownShares p.nIndex p.candidate.nWeight).getD []).map p.encrypt), found, bind_some]
  · have shares : s.ownShares (participantOf curve dealers s.myBox vShare r).nIndex
        (participantOf curve dealers s.myBox vShare r).candidate.nWeight = some (sharesFor dealers d r) :=
      honest.ownShares_eq own stands.nThresh mem mem'
    rw [shares, getD_some, participantOf, own]
    rfl
  · intro acc k p k'
    rw [find_insert]
    split_ifs <;> rfl

theorem Honest.sharedKey_eq (honest : Honest curve dealers) (mem : d ∈ dealers) (mem' : r ∈ dealers) :
    d.box.sharedKey curve r.sealed.nPubKey = r.box.sharedKey curve d.sealed.nPubKey := by
  rw [honest.nPubKey_eq mem, honest.nPubKey_eq mem']
  simp only [OpenedBox.sharedKey, Curve.mpEccSharedKey, unpack_mpEccPubkey]
  rw [← mul_nsmul, ← mul_nsmul, mul_comm]

theorem Holds.of_past {past' : List Event} (holds : Holds dealers past me d vShare)
    (same : ∀ r, r.nIdent = me → .deliver d r ∈ past' → .deliver d r ∈ past) : Holds dealers past' me d vShare := by
  rcases holds with ⟨empty, waiting⟩ | held
  · exact Or.inl ⟨empty, fun r named inside => waiting r named (same r named inside)⟩
  · exact Or.inr held

/-- An event that brings a node no share and has it collect nothing leaves it as it stands. -/
theorem Stands.of_past {past' : List Event} (stands : Stands curve dealers me past s)
    (same : ∀ d r, r.nIdent = me → .deliver d r ∈ past' → .deliver d r ∈ past)
    (collects : collected me past' = collected me past) : Stands curve dealers me past' s where
  __ := stands
  entry d mem away := by
    obtain ⟨vShare, holds, found⟩ := stands.entry d mem away
    exact ⟨vShare, holds.of_past (same d), found⟩
  opened d mem := by
    rw [collects]
    exact stands.opened d mem

theorem Stands.deliver (nodup : (dealers.map Dealer.nIdent).Nodup) (stands : Stands curve dealers r.nIdent past s)
    (mem : d ∈ dealers) (mem' : r ∈ dealers) (apart : d.nIdent ≠ r.nIdent) :
    Stands curve dealers r.nIdent (.deliver d r :: past)
      { s with mapParticipant :=
          s.mapParticipant.insert d.nIdent (participantOf curve dealers s.myBox (sharesFor dealers d r) d) } where
  __ := stands
  range e inside := by
    have range := stands.range e inside
    rw [getParticipantRange] at range ⊢
    by_cases own : e.nIdent = s.nIdent
    · rw [if_pos own] at range ⊢
      exact range
    · rw [if_neg own] at range ⊢
      rw [find_insert]
      split_ifs with here
      · rw [inj_on_of_nodup_map nodup inside mem here]
        rfl
      · exact range
  entry e inside away := by
    by_cases here : e.nIdent = d.nIdent
    · cases inj_on_of_nodup_map nodup inside mem here
      refine ⟨sharesFor dealers d r, Or.inr ⟨r, mem', rfl, rfl⟩, ?_⟩
      rw [find_insert, if_pos rfl]
    · obtain ⟨vShare, holds, found⟩ := stands.entry e inside away
      refine ⟨vShare, holds.of_past fun r' _ inside => ?_, ?_⟩
      · rcases mem_cons.1 inside with same | inside
        · cases same
          exact absurd rfl here
        · exact inside
      · rw [find_insert, if_neg here, found]
  other nIdent outside := by
    have here : nIdent ≠ d.nIdent := by
      rintro rfl
      rcases outside with outside | own
      · exact outside (List.mem_map_of_mem mem)
      · exact apart own
    rw [find_insert, if_neg here]
    exact stands.other nIdent outside

theorem Stands.accept_eq (honest : Honest curve dealers) (stands : Stands curve dealers r.nIdent past s)
    (mem : d ∈ dealers) (mem' : r ∈ dealers) (apart : d.nIdent ≠ r.nIdent) :
    ∃ s', s.accept curve d.nIdent ((sharesFor dealers d r).map fun share =>
        d.box.sharedKey curve r.sealed.nPubKey ^^^ share) = (true, s') ∧
      Stands curve dealers r.nIdent (.deliver d r :: past) s' := by
  obtain ⟨vShare, holds, found⟩ := stands.entry d mem apart
  obtain ⟨nIndex, nWeight⟩ := stands.own_range mem' rfl
  have own := stands.myBox r mem' rfl
  -- what the participant is after the call, whether or not the share had come before
  have accepted : (participantOf curve dealers s.myBox vShare d).acceptShare curve s.nIndex
      ((sharesFor dealers d r).map fun share => d.box.sharedKey curve r.sealed.nPubKey ^^^ share) =
      (true, participantOf curve dealers s.myBox (sharesFor dealers d r) d) := by
    rw [Participant.acceptShare, length_map, length_sharesFor]
    rcases holds with ⟨rfl, _⟩ | ⟨r', inside, named, rfl⟩
    · have positive := honest.weight r mem'
      have empty : (participantOf curve dealers s.myBox [] d).vShare.length ≠ r.nWeight := by
        show 0 ≠ r.nWeight
        omega
      have decrypted : ((sharesFor dealers d r).map fun share => d.box.sharedKey curve r.sealed.nPubKey ^^^ share).map
          (participantOf curve dealers s.myBox [] d).decrypt = sharesFor dealers d r := by
        rw [List.map_map]
        apply map_id''
        intro share
        simp only [comp_apply, Participant.decrypt, participantOf, own, honest.sharedKey_eq mem mem']
        rw [← BitVec.xor_assoc, BitVec.xor_self, BitVec.zero_xor]
      rw [if_neg empty, decrypted, nIndex]
      simp only [honest.verifyShare_eq s.myBox [] mem mem', if_true]
      rfl
    · cases honest.eq_of_nIdent inside mem' named
      exact if_pos (length_sharesFor d r)
  refine ⟨_, ?_, stands.deliver honest.distinct mem mem' apart⟩
  rw [accept, length_map, length_sharesFor, if_pos nWeight.symm, found]
  simp only [accepted]

theorem Stands.publish_eq (honest : Honest curve dealers) (stands : Stands curve dealers p.nIdent past s)
    (mem : p ∈ dealers) (complete : ∀ d ∈ dealers, d.nIdent ≠ p.nIdent → .deliver d p ∈ past) :
    ∃ mapShare, s.publish = some mapShare ∧ ∀ id vShare, mapShare.find id = some vShare ↔
      ∃ d ∈ dealers, d.nIdent = id ∧ vShare = sharesFor dealers d p := by
  obtain ⟨nIndex, nWeight⟩ := stands.own_range mem rfl
  have shares := honest.ownShares_eq (stands.myBox p mem rfl) stands.nThresh mem mem
  have held : ∀ d ∈ dealers, d.nIdent ≠ p.nIdent → s.acceptedShares.find d.nIdent = some (sharesFor dealers d p) := by
    intro d inside apart
    obtain ⟨vShare, holds, found⟩ := stands.entry d inside apart
    rcases holds with ⟨_, waiting⟩ | ⟨r, inside', named, rfl⟩
    · exact absurd (complete d inside apart) (waiting p rfl)
    · cases honest.eq_of_nIdent inside' mem named
      have some : sharesFor dealers d p ≠ [] := by
        rw [← length_pos_iff, length_sharesFor]
        exact honest.weight p mem
      rw [find_acceptedShares, found, bind_some]
      exact if_neg some
  refine ⟨s.acceptedShares.insert s.nIdent ((s.acceptedShares.find s.nIdent).getD [] ++ sharesFor dealers p p), ?_,
    fun id vShare => ?_⟩
  · rw [publish, nIndex, nWeight, shares, map_some]
  · rw [stands.nIdent, find_acceptedShares s p.nIdent, stands.other _ (Or.inr rfl), find_insert]
    by_cases own : id = p.nIdent
    · rw [if_pos own]
      constructor
      · intro same
        exact ⟨p, mem, own.symm, (Option.some.inj same).symm⟩
      · rintro ⟨d, inside, rfl, rfl⟩
        rw [honest.eq_of_nIdent inside mem own]
        rfl
    · rw [if_neg own]
      constructor
      · intro same
        by_cases listed : id ∈ dealers.map Dealer.nIdent
        · obtain ⟨d, inside, rfl⟩ := List.mem_map.1 listed
          rw [held d inside own] at same
          exact ⟨d, inside, rfl, (Option.some.inj same).symm⟩
        · rw [find_acceptedShares, stands.other id (Or.inl listed)] at same
          cases same
      · rintro ⟨d, inside, rfl, rfl⟩
        exact held d inside own

theorem Stands.collect_eq (honest : Honest curve dealers) {mapShare : ShareMap} (once : Bool)
    (stands : Stands curve dealers me past s) (mem : p ∈ dealers) (distinct : (collected me past ++ [p]).Nodup)
    (members : ∀ q ∈ collected me past ++ [p], q ∈ dealers)
    (published : ∀ id vShare, mapShare.find id = some vShare ↔ ∃ d ∈ dealers, d.nIdent = id ∧ vShare = sharesFor dealers d p) :
    ∃ s', s.collect curve p.nIdent mapShare once = (true, s') ∧
      Stands curve dealers me (.collect p me once :: past) s' := by
  have verified : mapShare.entries.all (s.verifyPublished curve (firstIndex dealers p) p.nWeight) = true := by
    rw [List.all_eq_true]
    rintro ⟨id, vShare⟩ inside
    obtain ⟨d, mem', rfl, rfl⟩ := (published id vShare).1 ((find_eq_some_iff _ _ _).2 inside)
    rw [verifyPublished, length_sharesFor, decide_eq_true rfl, Bool.true_and, stands.nIdent]
    by_cases own : d.nIdent = me
    · rw [if_pos own, honest.ownShares_eq (stands.myBox d mem' own) stands.nThresh mem' mem]
      exact decide_eq_true rfl
    · obtain ⟨vShare, _, found⟩ := stands.entry d mem' own
      rw [if_neg own, found]
      exact honest.verifyShare_eq _ _ mem' mem
  refine ⟨{ s with mapOpenedShare := s.openAll (firstIndex dealers p) once mapShare }, ?_,
    ⟨stands.nIdent, stands.myBox, stands.nThresh, stands.range, ?_, stands.other, ?_, ?_⟩⟩
  · rw [collect, stands.range p mem]
    simp only [verified, if_true]
  · intro d inside away
    obtain ⟨vShare, holds, found⟩ := stands.entry d inside away
    exact ⟨vShare, holds.of_past fun r _ inside => mem_of_ne_of_mem (by simp) inside, found⟩
  · intro d inside
    have given := (published d.nIdent _).2 ⟨d, inside, rfl, rfl⟩
    have nodup := (honest.nodup_opened d distinct members).of_map
    rw [flatMap_append, flatMap_singleton] at nodup
    rw [collected, if_pos rfl, flatMap_append, flatMap_singleton, find_openAll, given,
      map_some, some_or, getD_some, withIndex_sharesFor, stands.opened d inside, stands.nThresh,
      fill_of_nodup _ _ nodup]
  · intro id outside
    have missing : mapShare.find id = none := by
      by_contra some
      obtain ⟨vShare, found⟩ := ne_none_iff_exists'.1 some
      obtain ⟨d, inside, rfl, _⟩ := (published id vShare).1 found
      exact outside (List.mem_map_of_mem inside)
    rw [find_openAll, missing, stands.openedOther id outside]
    rfl

theorem Honest.mpNewton_eq (honest : Honest curve dealers) (mem : d ∈ dealers) {senders : List Dealer}
    (nodup : senders.Nodup) (members : ∀ p ∈ senders, p ∈ dealers)
    (enough : threshold dealers ≤ (senders.map Dealer.nWeight).sum) :
    mpNewton ((senders.flatMap (openedFrom dealers d)).take (threshold dealers)) =
      BitVec.ofNat 256 ((d.box.vCoeff.getD 0 0).toNat % groupOrder) := by
  have length : ((senders.flatMap (openedFrom dealers d)).take (threshold dealers)).length = threshold dealers := by
    rw [length_take, length_flatMap_openedFrom, Nat.min_eq_left enough]
  have shares : ∀ share ∈ (senders.flatMap (openedFrom dealers d)).take (threshold dealers),
      InTable share.1 ∧ share.2 = shareAt dealers d share.1 := by
    intro share inside
    obtain ⟨p, chosen, here⟩ := mem_flatMap.1 (mem_of_mem_take inside)
    obtain ⟨x, listed, rfl⟩ := List.mem_map.1 here
    obtain ⟨i, less, rfl⟩ := List.mem_map.1 listed
    exact ⟨honest.inTable_index (members p chosen) (mem_range.1 less), rfl⟩
  have value : mpNewton ((senders.flatMap (openedFrom dealers d)).take (threshold dealers)) =
      toWord ((d.box.secretPolynomial (threshold dealers)).eval 0) := by
    apply Mpvss.mpNewton_eq
    · rw [length]
      exact d.box.degree_secretPolynomial_lt _
    · exact fun share inside => (shares share inside).1
    · exact (honest.nodup_opened d nodup members).sublist ((take_sublist _ _).map _)
    · intro share inside
      rw [(shares share inside).2, shareAt, ofWord_toWord]
  rw [value, d.box.eval_zero_secretPolynomial (honest.usable mem).positive, toWord, ofWord, ZMod.val_natCast]

end

theorem Stands.reconstruct_eq (honest : Honest curve dealers) (stands : Stands curve dealers me past s)
    (nodup : (collected me past).Nodup) (members : ∀ q ∈ collected me past, q ∈ dealers)
    (enough : threshold dealers ≤ ((collected me past).map Dealer.nWeight).sum) (id : UInt256) (secret : UInt256 × ℕ) :
    s.reconstruct.find id = some secret ↔ ∃ d ∈ dealers, d.nIdent = id ∧
      secret = (BitVec.ofNat 256 ((d.box.vCoeff.getD 0 0).toNat % groupOrder), d.nWeight) := by
  have found : ∀ d ∈ dealers, s.reconstruct.find d.nIdent =
      some (BitVec.ofNat 256 ((d.box.vCoeff.getD 0 0).toNat % groupOrder), d.nWeight) := by
    intro d mem
    have length : (((collected me past).flatMap (openedFrom dealers d)).take (threshold dealers)).length =
        threshold dealers := by
      rw [length_take, length_flatMap_openedFrom, Nat.min_eq_left enough]
    have opened := find_opened (stands.opened d mem) (Nat.succ_pos _) (by rw [length_flatMap_openedFrom]; exact enough)
    rw [find_reconstruct, opened, bind_some, stands.nThresh, if_pos length, stands.range d mem, bind_some,
      if_pos (honest.weight d mem), honest.mpNewton_eq mem nodup members enough]
  constructor
  · intro result
    by_cases listed : id ∈ dealers.map Dealer.nIdent
    · obtain ⟨d, mem, rfl⟩ := List.mem_map.1 listed
      rw [found d mem] at result
      exact ⟨d, mem, rfl, (Option.some.inj result).symm⟩
    · rw [find_reconstruct, stands.openedOther id listed] at result
      cases result
  · rintro ⟨d, mem, rfl, rfl⟩
    exact found d mem

end Stands

section Run
variable {curve : Curve} {dealers : List Dealer} {past : List Event} {nodes : Nodes}

theorem Admissible.collected (admissible : Admissible dealers past) (me : UInt256) :
    (collected me past).Nodup ∧ ∀ q ∈ collected me past, q ∈ dealers := by
  induction past with
  | nil => exact ⟨nodup_nil, nofun⟩
  | cons event past ih =>
    cases event with
    | deliver dealer receiver => exact ih admissible.1
    | collect publisher collector once =>
      obtain ⟨before, mem, _, new, _⟩ := admissible
      obtain ⟨nodup, members⟩ := ih before
      rw [Mpvss.collected]
      split_ifs with here
      · rw [here] at new
        constructor
        · rw [← concat_eq_append]
          exact nodup.concat new
        · intro q inside
          rcases mem_append.1 inside with inside | last
          · exact members q inside
          · rw [mem_singleton.1 last]
            exact mem
      · exact ⟨nodup, members⟩

theorem Nodes.step_stands (honest : Honest curve dealers) {event : Event} (admissible : Admissible dealers (event :: past))
    (stand : ∀ me ∈ parties dealers, Stands curve dealers me past (nodes me)) :
    ∃ after, nodes.step curve event = some after ∧
      ∀ me ∈ parties dealers, Stands curve dealers me (event :: past) (after me) := by
  cases event with
  | deliver dealer receiver =>
    obtain ⟨_, mem, mem', apart⟩ := admissible
    have listed : ∀ d ∈ dealers, d.nIdent ∈ parties dealers := fun d inside =>
      mem_cons_of_mem _ (List.mem_map_of_mem inside)
    have given := (stand _ (listed dealer mem)).distribute_find honest mem mem' apart
    obtain ⟨s, accepted, stands⟩ := (stand _ (listed receiver mem')).accept_eq honest mem mem' apart
    refine ⟨Function.update nodes receiver.nIdent s, ?_, fun me party => ?_⟩
    · simp only [Nodes.step, given, bind_some, accepted, if_true]
    · by_cases here : me = receiver.nIdent
      · rw [here, update_self]
        exact stands
      · rw [update_of_ne here]
        refine (stand me party).of_past (fun d r named inside => ?_) rfl
        rcases mem_cons.1 inside with same | inside
        · cases same
          exact absurd named.symm here
        · exact inside
  | collect publisher collector once =>
    have after := admissible.collected collector
    obtain ⟨_, mem, party', _, complete⟩ := admissible
    have listed : publisher.nIdent ∈ parties dealers := mem_cons_of_mem _ (List.mem_map_of_mem mem)
    obtain ⟨mapShare, publish, published⟩ := (stand _ listed).publish_eq honest mem complete
    rw [Mpvss.collected, if_pos rfl] at after
    obtain ⟨s, collects, stands⟩ := (stand _ party').collect_eq honest once mem after.1 after.2 published
    refine ⟨Function.update nodes collector s, ?_, fun me party => ?_⟩
    · simp only [Nodes.step, publish, bind_some, collects, if_true]
    · by_cases here : me = collector
      · rw [here, update_self]
        exact stands
      · rw [update_of_ne here]
        exact (stand me party).of_past (fun d r _ inside => mem_of_ne_of_mem (by simp) inside) (if_neg (Ne.symm here))

theorem Nodes.run_stands (honest : Honest curve dealers) (admissible : Admissible dealers past)
    (stand : ∀ me ∈ parties dealers, Stands curve dealers me [] (nodes me)) :
    ∃ after, nodes.run curve past = some after ∧
      ∀ me ∈ parties dealers, Stands curve dealers me past (after me) := by
  induction past with
  | nil => exact ⟨nodes, rfl, stand⟩
  | cons event past ih =>
    have before : Admissible dealers past := by
      cases event with
      | deliver dealer receiver => exact admissible.1
      | collect publisher collector once => exact admissible.1
    obtain ⟨middle, run, stands⟩ := ih before
    obtain ⟨after, step, stands'⟩ := middle.step_stands honest admissible stands
    refine ⟨after, ?_, stands'⟩
    rw [Nodes.run, run, bind_some, step]

end Run

/-- Honest candidates are enrolled by everyone, no share and nothing that is published is refused, and whoever
has collected from enough weight reconstructs the first coefficient of every dealer. -/
theorem secrets_recovered (curve : Curve) (dealers : List Dealer) (honest : Honest curve dealers) (former : SecretShare) :
    ∃ nodes : Nodes, former.setupWitness.enroll curve (candidatesOf dealers) = some (nodes 0) ∧
      (∀ d ∈ dealers, (SecretShare.setup d.nIdent d.box).enroll curve (candidatesOf dealers) = some (nodes d.nIdent)) ∧
      ∀ past, Admissible dealers past → ∃ after, nodes.run curve past = some after ∧
        ∀ me ∈ parties dealers, threshold dealers ≤ ((collected me past).map Dealer.nWeight).sum →
          ∀ nIdent secret, (after me).reconstruct.find nIdent = some secret ↔ ∃ d ∈ dealers, d.nIdent = nIdent ∧
            secret = (BitVec.ofNat 256 ((d.box.vCoeff.getD 0 0).toNat % groupOrder), d.nWeight) := by
  let boxOf (me : UInt256) : OpenedBox :=
    ((dealers.find? fun d => d.nIdent = me).map Dealer.box).getD ⟨[], former.myBox.nPrivKey⟩
  have own : ∀ d ∈ dealers, boxOf d.nIdent = d.box := by
    intro d member
    cases found : dealers.find? fun e => e.nIdent = d.nIdent with
    | none => simpa using List.find?_eq_none.1 found d member
    | some e =>
      have named : e.nIdent = d.nIdent := by simpa using List.find?_some found
      simp only [boxOf, found, map_some, getD_some,
        honest.eq_of_nIdent (mem_of_find?_eq_some found) member named]
  have witness : boxOf 0 = ⟨[], former.myBox.nPrivKey⟩ := by
    have absent : (dealers.find? fun d => d.nIdent = 0) = none :=
      List.find?_eq_none.2 fun d member => by simpa using honest.ident d member
    simp only [boxOf, absent, map_none, getD_none]
  choose nodes enrolls enrolled using fun me => honest.enroll_eq me (boxOf me)
  refine ⟨nodes, ?_, fun d member => ?_, fun past admissible => ?_⟩
  · have result := enrolls 0
    rw [witness] at result
    exact result
  · have result := enrolls d.nIdent
    rw [own d member] at result
    exact result
  · have start : ∀ me ∈ parties dealers, Stands curve dealers me [] (nodes me) := fun me _ =>
      honest.stands (enrolled me) fun d member named => named ▸ own d member
    obtain ⟨after, run, stands⟩ := Nodes.run_stands honest admissible start
    refine ⟨after, run, fun me party enough => ?_⟩
    have from' := admissible.collected me
    exact (stands me party).reconstruct_eq honest from'.1 from'.2 enough

namespace Sample

/-- A dealer of weight 1 with what `MakeSealedBox` makes of its box. -/
def dealer (nIdent : UInt256) (box : OpenedBox) : Dealer where
  nIdent
  nWeight := 1
  box
  r := 2
  sealed := ⟨box.vCoeff.map residueCurve.mpEccPubkey, [], residueCurve.mpEccPubkey box.nPrivKey,
    residueCurve.mpEccPubkey 2, mpEccSign box.nPrivKey 2 nIdent⟩

def first : Dealer := dealer 1 ⟨[3, 5], 7⟩

def second : Dealer := dealer 2 ⟨[4, 6], 9⟩

theorem forall_two {P : Dealer → Prop} {d e : Dealer} (one : P d) (two : P e) : ∀ x ∈ [d, e], P x := by
  intro x mem
  fin_cases mem
  · exact one
  · exact two

theorem nonzero_pair {a b : UInt256} (one : a.toNat % groupOrder ≠ 0) (two : b.toNat % groupOrder ≠ 0) :
    ∀ coeff ∈ [a, b], coeff.toNat % groupOrder ≠ 0 := by
  intro coeff mem
  fin_cases mem
  · exact one
  · exact two

theorem threshold_pair (a b : UInt256) (box box' : OpenedBox) : threshold [dealer a box, dealer b box'] = 2 := by
  simp [threshold, totalWeight, candidatesOf, Dealer.candidate, dealer]

theorem pair_honest {a b : UInt256} (apart : a ≠ b) (one : a ≠ 0) (two : b ≠ 0) :
    Honest residueCurve [dealer a ⟨[3, 5], 7⟩, dealer b ⟨[4, 6], 9⟩] where
  distinct := nodup_cons.2 ⟨fun mem => apart (mem_singleton.1 mem), nodup_singleton b⟩
  ident := forall_two one two
  weight := forall_two Nat.one_pos Nat.one_pos
  total := Nat.le_add_left 2 48
  key := forall_two (by decide : (7 : UInt256) ≠ 0) (by decide : (9 : UInt256) ≠ 0)
  enough := forall_two (threshold_pair a b _ _).le (threshold_pair a b _ _).le
  nonzero := forall_two (nonzero_pair (by decide +kernel) (by decide +kernel))
    (nonzero_pair (by decide +kernel) (by decide +kernel))
  made := forall_two (if_neg (by decide : ¬(!OpenedBox.validate ⟨[3, 5], 7⟩ || (2 : UInt256) = 0) = true))
    (if_neg (by decide : ¬(!OpenedBox.validate ⟨[4, 6], 9⟩ || (2 : UInt256) = 0) = true))

theorem two_honest : Honest residueCurve [first, second] := pair_honest (by decide) (by decide) (by decide)

def course : List Event :=
  [.collect first 0 true, .collect second 0 true, .deliver second first, .deliver first second]

theorem course_admissible : Admissible [first, second] course := by
  have apart : first ≠ second := fun same => absurd (congrArg Dealer.nIdent same) (by decide)
  simp [course, Admissible, collected, parties, apart]
  decide

/-- The witness has the first coefficients 3 and 4. -/
theorem secrets_recovered_two : ∃ nodes after : Nodes, nodes.run residueCurve course = some after ∧
    (after 0).reconstruct.find 1 = some (3, 1) ∧ (after 0).reconstruct.find 2 = some (4, 1) := by
  obtain ⟨nodes, _, _, runs⟩ := secrets_recovered residueCurve [first, second] two_honest (SecretShare.setup 0 ⟨[], 0⟩)
  obtain ⟨after, run, recovered⟩ := runs course course_admissible
  have secrets := recovered 0 mem_cons_self (by decide)
  refine ⟨nodes, after, run, ?_, ?_⟩
  · exact (secrets 1 _).2 ⟨first, mem_cons_self, rfl, by decide +kernel⟩
  · exact (secrets 2 _).2 ⟨second, mem_cons_of_mem _ mem_cons_self, rfl, by decide +kernel⟩

end Sample

end HashAhead.Mpvss
