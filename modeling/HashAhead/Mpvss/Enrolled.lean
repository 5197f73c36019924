import HashAhead.Mpvss.SecretShare
import HashAhead.Foundation.Outcome

/-! What enrolling does with a list of candidates. The candidates may be hostile, only their idents are
distinct: those with a sound signature get indexes one after the other, the others are left out. -/

namespace HashAhead.Mpvss
open Foundation State List SecretShare

section Index

def totalWeight (candidates : List Candidate) : ℕ := (candidates.map Candidate.nWeight).sum

def startIndex (nIdent : UInt256) : ℕ → List Candidate → ℕ
  | offset, [] => offset
  | offset, c :: candidates =>
    if c.nIdent = nIdent then offset else startIndex nIdent (offset + c.nWeight) candidates

theorem le_startIndex (id : UInt256) (shift : ℕ) (candidates : List Candidate) :
    shift ≤ startIndex id shift candidates := by
  induction candidates generalizing shift with
  | nil => exact le_rfl
  | cons c candidates ih =>
    rw [startIndex]
    split_ifs
    · exact le_rfl
    · exact (Nat.le_add_right _ _).trans (ih _)

variable {candidates : List Candidate} {c d : Candidate}

theorem startIndex_cons_of_ne {id : UInt256} (other : c.nIdent ≠ id) (shift : ℕ) :
    startIndex id shift (c :: candidates) = startIndex id (shift + c.nWeight) candidates := if_neg other

theorem startIndex_cons_self (offset : ℕ) : startIndex c.nIdent offset (c :: candidates) = offset := if_pos rfl

theorem ident_ne_of_mem (fresh : c.nIdent ∉ candidates.map Candidate.nIdent) (mem : d ∈ candidates) :
    c.nIdent ≠ d.nIdent := fun same => fresh (same ▸ List.mem_map_of_mem mem)

section
variable (nodup : (candidates.map Candidate.nIdent).Nodup) (member : c ∈ candidates)
include nodup member

theorem startIndex_add_le (shift : ℕ) :
    startIndex c.nIdent shift candidates + c.nWeight ≤ shift + totalWeight candidates := by
  induction candidates generalizing shift with
  | nil => cases member
  | cons first rest ih =>
    obtain ⟨fresh, nodup⟩ := nodup_cons.1 nodup
    rw [totalWeight, map_cons, sum_cons]
    rcases mem_cons.1 member with rfl | inside
    · rw [startIndex_cons_self]
      omega
    · rw [startIndex_cons_of_ne (ident_ne_of_mem fresh inside), ← Nat.add_assoc]
      exact ih nodup inside _

theorem eq_of_ident (member' : d ∈ candidates) (same : c.nIdent = d.nIdent) : c = d :=
  inj_on_of_nodup_map nodup member member' same

theorem startIndex_separate (member' : d ∈ candidates) (apart : c ≠ d) (shift : ℕ) :
    startIndex c.nIdent shift candidates + c.nWeight ≤ startIndex d.nIdent shift candidates ∨
      startIndex d.nIdent shift candidates + d.nWeight ≤ startIndex c.nIdent shift candidates := by
  induction candidates generalizing shift with
  | nil => cases member
  | cons first rest ih =>
    obtain ⟨fresh, distinct'⟩ := nodup_cons.1 nodup
    have later : ∀ {x}, x ∈ rest → startIndex x.nIdent shift (first :: rest) =
        startIndex x.nIdent (shift + first.nWeight) rest :=
      fun inside => startIndex_cons_of_ne (ident_ne_of_mem fresh inside) _
    rcases mem_cons.1 member with rfl | inside
    · rcases mem_cons.1 member' with rfl | inside'
      · exact absurd rfl apart
      · rw [startIndex_cons_self, later inside']
        exact Or.inl (le_startIndex _ _ _)
    · rcases mem_cons.1 member' with rfl | inside'
      · rw [startIndex_cons_self, later inside]
        exact Or.inr (le_startIndex _ _ _)
      · rw [later inside, later inside']
        exact ih distinct' inside inside' _

end

variable {p : Candidate → Bool}

theorem startIndex_filter_cons {id : UInt256} (other : c.nIdent ≠ id) (shift : ℕ) :
    startIndex id shift ((c :: candidates).filter p) =
      startIndex id (if p c then shift + c.nWeight else shift) (candidates.filter p) := by
  rw [filter_cons]
  split_ifs
  · exact startIndex_cons_of_ne other _
  · rfl

theorem startIndex_filter_self (chosen : p c = true) (offset : ℕ) :
    startIndex c.nIdent offset ((c :: candidates).filter p) = offset := by
  rw [filter_cons_of_pos chosen, startIndex_cons_self]

theorem totalWeight_filter_cons (shift : ℕ) : shift + totalWeight ((c :: candidates).filter p) =
    (if p c then shift + c.nWeight else shift) + totalWeight (candidates.filter p) := by
  rw [filter_cons]
  split_ifs
  · rw [totalWeight, map_cons, sum_cons, Nat.add_assoc]
    rfl
  · rfl

end Index

section Loops
variable (curve : Curve) (self : UInt256) (box : OpenedBox)

def keeps (c : Candidate) : Bool := c.nIdent = self || c.verify curve

def joins (c : Candidate) : Bool := c.nIdent ≠ self && c.verify curve

def Misread (c : Candidate) : Prop :=
  c.nIdent ≠ self ∧ c.sBox.isNull = false ∧ box.sharedKey curve c.sBox.nPubKey = 0

def slotOf (c : Candidate) : Slot :=
  if c.nIdent = self then .self else if c.sBox.isNull then .null else .participant c.nIdent

def openedEntry (c : Candidate) : Option Participant :=
  if c.nIdent = self ∨ c.sBox.isNull then none
  else some ⟨c, 2 ^ 64 - 1, box.sharedKey curve c.sBox.nPubKey, []⟩

def assignedEntry (index : ℕ) (c : Candidate) : Option Participant :=
  if joins curve self c then some ⟨c, index % 2 ^ 64, box.sharedKey curve c.sBox.nPubKey, []⟩ else none

variable {curve self box} {c : Candidate} {candidates : List Candidate}

theorem isNull_of_verify (sound : c.verify curve = true) : c.sBox.isNull = false := by
  rw [Candidate.verify, SealedBox.verifySignature, Bool.and_assoc, Bool.and_eq_true, Bool.not_eq_true'] at sound
  exact sound.1

theorem keeps_of_joins (new : joins curve self c = true) : keeps curve self c = true := by
  rw [joins, Bool.and_eq_true] at new
  rw [keeps, new.2, Bool.or_true]

variable (curve) in
theorem keeps_self (own : c.nIdent = self) : keeps curve self c = true := by
  rw [keeps, decide_eq_true own, Bool.true_or]

variable (curve) in
theorem openSlot_eq (state : SecretShare × List (Candidate × Slot))
    (fresh : state.1.mapParticipant.find c.nIdent = none) :
    ∃ M, SecretShare.openSlot curve state c =
        ({ state.1 with
            nWeight := if c.nIdent = state.1.nIdent then c.nWeight else state.1.nWeight
            mapParticipant := M }, state.2 ++ [(c, slotOf state.1.nIdent c)]) ∧
      ∀ nIdent, M.find nIdent = if nIdent = c.nIdent then openedEntry curve state.1.nIdent state.1.myBox c
        else state.1.mapParticipant.find nIdent := by
  have kept : ∀ nIdent, state.1.mapParticipant.find nIdent = if nIdent = c.nIdent then none
      else state.1.mapParticipant.find nIdent := by
    intro nIdent
    split_ifs with here
    · rw [here, fresh]
    · rfl
  unfold SecretShare.openSlot slotOf openedEntry
  by_cases own : c.nIdent = state.1.nIdent
  · simp only [own, true_or, if_true]
    exact ⟨state.1.mapParticipant, rfl, own ▸ kept⟩
  · rw [if_neg own, if_neg (by rw [fresh]; exact Bool.false_ne_true), if_neg own]
    unfold SealedBox.pubKey
    cases null : c.sBox.isNull with
    | true => exact ⟨state.1.mapParticipant, by simp [own], by simpa using kept⟩
    | false =>
      refine ⟨_, by simp [own]; rfl, fun nIdent => ?_⟩
      rw [SortedMap.find_insert]
      simp [own]

def ownWeight (self : UInt256) : ℕ → List Candidate → ℕ
  | nWeight, [] => nWeight
  | nWeight, c :: candidates => ownWeight self (if c.nIdent = self then c.nWeight else nWeight) candidates

theorem ownWeight_of_absent (absent : self ∉ candidates.map Candidate.nIdent) (nWeight : ℕ) :
    ownWeight self nWeight candidates = nWeight := by
  induction candidates generalizing nWeight with
  | nil => rfl
  | cons first rest ih =>
    rw [map_cons, mem_cons, not_or] at absent
    rw [ownWeight, if_neg (Ne.symm absent.1), ih absent.2]

theorem ownWeight_of_mem (nodup : (candidates.map Candidate.nIdent).Nodup) (mem : c ∈ candidates) (nWeight : ℕ) :
    ownWeight c.nIdent nWeight candidates = c.nWeight := by
  induction candidates generalizing nWeight with
  | nil => cases mem
  | cons first rest ih =>
    obtain ⟨fresh, nodup⟩ := nodup_cons.1 nodup
    rw [ownWeight]
    rcases mem_cons.1 mem with rfl | inside
    · rw [if_pos rfl, ownWeight_of_absent fresh]
    · exact ih nodup inside _

theorem foldl_openSlot (nodup : (candidates.map Candidate.nIdent).Nodup)
    (state : SecretShare × List (Candidate × Slot))
    (fresh : ∀ c ∈ candidates, state.1.mapParticipant.find c.nIdent = none) :
    ∃ M, candidates.foldl (openSlot curve) state =
        ({ state.1 with nWeight := ownWeight state.1.nIdent state.1.nWeight candidates, mapParticipant := M },
          state.2 ++ candidates.map fun c => (c, slotOf state.1.nIdent c)) ∧
      (∀ c ∈ candidates, M.find c.nIdent = openedEntry curve state.1.nIdent state.1.myBox c) ∧
      ∀ nIdent ∉ candidates.map Candidate.nIdent, M.find nIdent = state.1.mapParticipant.find nIdent := by
  induction candidates generalizing state with
  | nil => exact ⟨state.1.mapParticipant, by simp [ownWeight], nofun, fun _ _ => rfl⟩
  | cons first rest ih =>
    obtain ⟨absent, nodup⟩ := nodup_cons.1 nodup
    obtain ⟨M, step, found⟩ := openSlot_eq curve state (fresh first mem_cons_self)
    have away : ∀ c ∈ rest, M.find c.nIdent = none := by
      intro c inside
      rw [found, if_neg (ident_ne_of_mem absent inside).symm]
      exact fresh c (mem_cons_of_mem _ inside)
    obtain ⟨M', loop, entries, others⟩ := ih nodup (openSlot curve state first) (by rw [step]; exact away)
    rw [step] at loop entries others
    refine ⟨M', ?_, fun c mem => ?_, fun nIdent outside => ?_⟩
    · rw [foldl_cons, step, loop, map_cons, append_assoc]
      rfl
    · rcases mem_cons.1 mem with rfl | inside
      · rw [others _ absent, found, if_pos rfl]
      · exact entries c inside
    · rw [map_cons, mem_cons, not_or] at outside
      rw [others _ outside.2, found, if_neg outside.1]

/-- What the second loop does with some candidates when the next index is the offset. -/
structure Assigns (curve : Curve) (me : UInt256) (box : OpenedBox) (offset : ℕ) (candidates : List Candidate)
    (turn next : EnrollTurn) : Prop where
  nIdent : next.share.nIdent = turn.share.nIdent
  myBox : next.share.myBox = turn.share.myBox
  nWeight : next.share.nWeight = turn.share.nWeight
  opened : next.share.mapOpenedShare = turn.share.mapOpenedShare
  nIndex : next.share.nIndex = if me ∈ candidates.map Candidate.nIdent
    then startIndex me offset (candidates.filter (keeps curve me)) % 2 ^ 64 else turn.share.nIndex
  last : next.nLastIndex = (offset + totalWeight (candidates.filter (keeps curve me))) % 2 ^ 64
  kept : next.kept = turn.kept ++ (candidates.filter (joins curve me)).map Candidate.nIdent
  entry : ∀ c ∈ candidates, next.share.mapParticipant.find c.nIdent =
    assignedEntry curve me box (startIndex c.nIdent offset (candidates.filter (keeps curve me))) c
  other : ∀ nIdent ∉ candidates.map Candidate.nIdent,
    next.share.mapParticipant.find nIdent = turn.share.mapParticipant.find nIdent

section
variable {next turn : EnrollTurn} {shift : ℕ}

section
variable (found : turn.share.mapParticipant.find c.nIdent = openedEntry curve self box c)
include found

theorem assignIndex_misread (misread : Misread curve self box c)
    : assignIndex curve turn (c, slotOf self c) = none := by
  obtain ⟨other, readable, zero⟩ := misread
  rw [openedEntry, if_neg (by simp [other, readable])] at found
  unfold assignIndex slotOf
  simp [other, readable, found, zero]

theorem assignIndex_eq (last : turn.nLastIndex = shift % 2 ^ 64) (read : ¬Misread curve self box c) :
    ∃ next, assignIndex curve turn (c, slotOf self c) = some next ∧
      Assigns curve self box shift [c] turn next := by
  unfold assignIndex slotOf
  by_cases own : c.nIdent = self
  · have stays : joins curve self c = false := by simp [joins, own]
    have kept := keeps_self curve own
    rw [openedEntry, if_pos (Or.inl own)] at found
    refine ⟨assignSelf turn c, by rw [if_pos own], ⟨rfl, rfl, rfl, rfl, ?_, ?_, ?_, ?_, fun _ _ => rfl⟩⟩
    · simp [assignSelf, own, kept, startIndex, last]
    · simp [assignSelf, kept, totalWeight, last]
    · simp [assignSelf, stays]
    · intro d mem
      rw [mem_singleton.1 mem, assignedEntry, stays]
      exact found
  · rw [if_neg own]
    have away : self ∉ [c].map Candidate.nIdent := by simpa using Ne.symm own
    cases null : c.sBox.isNull with
    | true =>
      have unsound : c.verify curve = false := by
        by_contra sound
        rw [isNull_of_verify (Bool.eq_true_of_not_eq_false sound)] at null
        cases null
      rw [openedEntry, if_pos (Or.inr null)] at found
      refine ⟨turn, rfl, ⟨rfl, rfl, rfl, rfl, (if_neg away).symm, ?_, ?_, ?_, fun _ _ => rfl⟩⟩
      · simpa [keeps, own, unsound, totalWeight] using last
      · simp [joins, unsound]
      · simpa [assignedEntry, joins, unsound] using found
    | false =>
      have nonzero : box.sharedKey curve c.sBox.nPubKey ≠ 0 := fun zero => read ⟨own, null, zero⟩
      rw [openedEntry, if_neg (by simp [own, null])] at found
      simp only [Bool.false_eq_true, if_false, found, nonzero]
      cases sound : c.verify curve with
      | true =>
        refine ⟨_, rfl, ⟨rfl, rfl, rfl, rfl, (if_neg away).symm, ?_, ?_, ?_, fun id outside => ?_⟩⟩
        · simp [keeps, sound, totalWeight, last]
        · simp [joins, own, sound]
        · simp [SortedMap.find_insert, assignedEntry, joins, keeps, own, sound, startIndex, last]
        · rw [SortedMap.find_insert, if_neg (by simpa using outside)]
      | false =>
        refine ⟨_, rfl, ⟨rfl, rfl, rfl, rfl, (if_neg away).symm, ?_, ?_, ?_, fun id outside => ?_⟩⟩
        · simpa [keeps, own, sound, totalWeight] using last
        · simp [joins, sound]
        · simp [SortedMap.find_erase, assignedEntry, joins, sound]
        · rw [SortedMap.find_erase, if_neg (by simpa using outside)]

end

theorem Assigns.cons {done : EnrollTurn} (nodup : ((c :: candidates).map Candidate.nIdent).Nodup)
    (step : Assigns curve self box shift [c] turn next)
    (loop : Assigns curve self box (if keeps curve self c then shift + c.nWeight else shift) candidates next done) :
    Assigns curve self box shift (c :: candidates) turn done where
  nIdent := loop.nIdent.trans step.nIdent
  myBox := loop.myBox.trans step.myBox
  nWeight := loop.nWeight.trans step.nWeight
  opened := loop.opened.trans step.opened
  nIndex := by
    obtain ⟨absent, _⟩ := nodup_cons.1 nodup
    rw [loop.nIndex, step.nIndex]
    by_cases own : c.nIdent = self
    · cases own
      rw [if_neg absent, if_pos (by simp), if_pos (by simp), startIndex_filter_self (keeps_self curve rfl),
        startIndex_filter_self (keeps_self curve rfl)]
    · have away : self ∉ [c].map Candidate.nIdent := by simpa using Ne.symm own
      have same : self ∈ (c :: candidates).map Candidate.nIdent ↔ self ∈ candidates.map Candidate.nIdent := by
        rw [map_cons, mem_cons, or_iff_right (Ne.symm own)]
      rw [if_neg away, ← startIndex_filter_cons own]
      simp only [same]
  last := by rw [loop.last, totalWeight_filter_cons]
  kept := by
    rw [loop.kept, step.kept, append_assoc, ← map_append, ← filter_append]
    rfl
  entry d member := by
    obtain ⟨absent, _⟩ := nodup_cons.1 nodup
    rcases mem_cons.1 member with rfl | inside
    · rw [loop.other _ absent, step.entry d mem_cons_self]
      unfold assignedEntry
      split_ifs with new
      · rw [startIndex_filter_self (keeps_of_joins new), startIndex_filter_self (keeps_of_joins new)]
      · rfl
    · rw [startIndex_filter_cons (ident_ne_of_mem absent inside)]
      exact loop.entry d inside
  other nIdent outside := by
    rw [map_cons, mem_cons, not_or] at outside
    rw [loop.other _ outside.2, step.other _ (by simpa using outside.1)]

end

theorem foldlM_assignIndex (nodup : (candidates.map Candidate.nIdent).Nodup) (turn : EnrollTurn) (shift : ℕ)
    (last : turn.nLastIndex = shift % 2 ^ 64)
    (found : ∀ c ∈ candidates, turn.share.mapParticipant.find c.nIdent = openedEntry curve self box c) :
    Succeeds (∀ c ∈ candidates, ¬Misread curve self box c) (Assigns curve self box shift candidates turn)
      ((candidates.map fun c => (c, slotOf self c)).foldlM (assignIndex curve) turn) := by
  induction candidates generalizing turn shift with
  | nil =>
    refine Or.inl ⟨nofun, turn, rfl, ⟨rfl, rfl, rfl, rfl, rfl, last, ?_, nofun, fun _ _ => rfl⟩⟩
    simp
  | cons first rest ih =>
    rw [forall_mem_cons, map_cons, foldlM_cons]
    have succeeds : Succeeds (¬Misread curve self box first) (Assigns curve self box shift [first] turn)
        (assignIndex curve turn (first, slotOf self first)) := by
      by_cases misread : Misread curve self box first
      · exact Or.inr ⟨not_not.2 misread, assignIndex_misread (found first mem_cons_self) misread⟩
      · exact Or.inl ⟨misread, assignIndex_eq (found first mem_cons_self) last misread⟩
    refine succeeds.bind fun _ next assigns => ?_
    have last' : next.nLastIndex = (if keeps curve self first then shift + first.nWeight else shift) % 2 ^ 64 := by
      rw [assigns.last, totalWeight_filter_cons]
      rfl
    refine (ih (nodup_cons.1 nodup).2 next _ last' fun d inside => ?_).imp ?_
    · have apart := ident_ne_of_mem (nodup_cons.1 nodup).1 inside
      rw [assigns.other _ (by simpa using apart.symm)]
      exact found d (mem_cons_of_mem _ inside)
    · exact fun done after => assigns.cons nodup after

end Loops

section Assigned
variable {curve : Curve} {me : UInt256} {box : OpenedBox} {candidates : List Candidate} {turn : EnrollTurn}

structure Assigned (curve : Curve) (me : UInt256) (box : OpenedBox) (candidates : List Candidate) (turn : EnrollTurn) :
    Prop where
  nIdent : turn.share.nIdent = me
  myBox : turn.share.myBox = box
  nWeight : turn.share.nWeight = ownWeight me 0 candidates
  opened : turn.share.mapOpenedShare = .empty
  nIndex : turn.share.nIndex = if me ∈ candidates.map Candidate.nIdent
    then startIndex me 1 (candidates.filter (keeps curve me)) % 2 ^ 64 else 0
  last : turn.nLastIndex = (1 + totalWeight (candidates.filter (keeps curve me))) % 2 ^ 64
  kept : turn.kept = (candidates.filter (joins curve me)).map Candidate.nIdent
  entry : ∀ c ∈ candidates, turn.share.mapParticipant.find c.nIdent =
    assignedEntry curve me box (startIndex c.nIdent 1 (candidates.filter (keeps curve me))) c
  other : ∀ nIdent ∉ candidates.map Candidate.nIdent, turn.share.mapParticipant.find nIdent = none

theorem assignIndexes_succeeds (nodup : (candidates.map Candidate.nIdent).Nodup) :
    Succeeds (∀ c ∈ candidates, ¬Misread curve me box c) (Assigned curve me box candidates)
      ((setup me box).assignIndexes curve candidates) := by
  obtain ⟨M, opens, entries, others⟩ := foldl_openSlot nodup (SecretShare.setup me box, []) fun _ _ => rfl
  unfold assignIndexes
  rw [opens]
  refine (foldlM_assignIndex nodup ⟨⟨me, box, ownWeight me 0 candidates, 0, 0, M, .empty⟩, 1, []⟩ 1 rfl entries).imp ?_
  intro turn assigns
  exact ⟨assigns.nIdent, assigns.myBox, assigns.nWeight, assigns.opened, assigns.nIndex, assigns.last, assigns.kept,
    assigns.entry, fun id outside => (assigns.other _ outside).trans (others _ outside)⟩

theorem Assigned.range (assigned : Assigned curve me box candidates turn)
    (nodup : (candidates.map Candidate.nIdent).Nodup) {c : Candidate} (mem : c ∈ candidates) :
    turn.share.getParticipantRange c.nIdent = if keeps curve me c then
      some (startIndex c.nIdent 1 (candidates.filter (keeps curve me)) % 2 ^ 64, c.nWeight) else none := by
  rw [getParticipantRange, assigned.nIdent]
  by_cases own : c.nIdent = me
  · rw [if_pos own, if_pos (keeps_self curve own), assigned.nIndex, assigned.nWeight, ← own,
      if_pos (List.mem_map_of_mem mem), ownWeight_of_mem nodup mem]
  · have same : joins curve me c = keeps curve me c := by simp [joins, keeps, own]
    rw [if_neg own, assigned.entry c mem, assignedEntry, same]
    split_ifs <;> rfl

theorem Assigned.range_other (assigned : Assigned curve me box candidates turn) {id : UInt256}
    (outside : id ∉ candidates.map Candidate.nIdent) :
    turn.share.getParticipantRange id = if id = me then some (0, 0) else none := by
  rw [getParticipantRange, assigned.nIdent, assigned.other _ outside]
  split_ifs with own
  · rw [assigned.nIndex, assigned.nWeight, ← own, if_neg outside, ownWeight_of_absent outside]
  · rfl

end Assigned

section Prepared
variable {curve : Curve} {nThresh nLastIndex : ℕ} {M : SortedMap UInt256 Participant identOrder}

variable (curve) in
theorem prepareParticipant_succeeds (nIdent : UInt256) :
    Succeeds (∀ p, M.find nIdent = some p → p.candidate.sBox.Readable nThresh nLastIndex)
      (fun M' => ∀ k, M'.find k = if k = nIdent then
        (M.find nIdent).map fun p => p.prepareVerification curve nThresh nLastIndex else M.find k)
      (SecretShare.prepareParticipant curve nThresh nLastIndex M nIdent) := by
  unfold SecretShare.prepareParticipant
  cases found : M.find nIdent with
  | none =>
    refine Or.inl ⟨nofun, M, rfl, fun k => ?_⟩
    split_ifs with here
    · rw [here, found]
      rfl
    · rfl
  | some p =>
    by_cases readable : p.candidate.sBox.Readable nThresh nLastIndex
    · refine Or.inl ⟨fun q same => Option.some.inj same ▸ readable, _, if_pos readable, fun k => ?_⟩
      rw [SortedMap.find_insert]
      rfl
    · exact Or.inr ⟨fun all => readable (all p rfl), if_neg readable⟩

variable {idents : List UInt256}

variable (curve) in
theorem foldlM_prepareParticipant (distinct : idents.Nodup) :
    Succeeds (∀ nIdent ∈ idents, ∀ p, M.find nIdent = some p → p.candidate.sBox.Readable nThresh nLastIndex)
      (fun M' => ∀ k, M'.find k = if k ∈ idents then
        (M.find k).map fun p => p.prepareVerification curve nThresh nLastIndex else M.find k)
      (idents.foldlM (SecretShare.prepareParticipant curve nThresh nLastIndex) M) := by
  induction idents generalizing M with
  | nil => exact Or.inl ⟨nofun, M, rfl, fun k => rfl⟩
  | cons first rest ih =>
    obtain ⟨absent, distinct⟩ := nodup_cons.1 distinct
    have apart : ∀ nIdent ∈ rest, nIdent ≠ first := fun nIdent inside same => absent (same ▸ inside)
    rw [forall_mem_cons, foldlM_cons]
    refine (prepareParticipant_succeeds curve first).bind fun _ next found => ?_
    have same : (∀ nIdent ∈ rest, ∀ p, next.find nIdent = some p → p.candidate.sBox.Readable nThresh nLastIndex) ↔
        ∀ nIdent ∈ rest, ∀ p, M.find nIdent = some p → p.candidate.sBox.Readable nThresh nLastIndex :=
      forall₂_congr fun nIdent inside => by rw [found, if_neg (apart nIdent inside)]
    rw [← same]
    refine (ih distinct).imp fun done after k => ?_
    rw [after]
    by_cases inside : k ∈ rest
    · rw [if_pos inside, if_pos (mem_cons_of_mem _ inside), found, if_neg (apart k inside)]
    · rw [if_neg inside, found]
      by_cases here : k = first
      · rw [if_pos here, if_pos (here ▸ mem_cons_self), here]
      · rw [if_neg here, if_neg (by simp [here, inside])]

end Prepared

section Enrolled
variable {curve : Curve} {me : UInt256} {box : OpenedBox} {candidates : List Candidate} {turn : EnrollTurn}
variable {s : SecretShare}

def lastIndex (curve : Curve) (me : UInt256) (candidates : List Candidate) : ℕ :=
  (1 + totalWeight (candidates.filter (keeps curve me))) % 2 ^ 64

def enrollThresh (nLastIndex : ℕ) : ℕ := (nLastIndex + (2 ^ 64 - 1)) % 2 ^ 64 / 2 + 1

structure Enrolled (curve : Curve) (me : UInt256) (box : OpenedBox) (candidates : List Candidate) (s : SecretShare) :
    Prop where
  nIdent : s.nIdent = me
  myBox : s.myBox = box
  opened : s.mapOpenedShare = .empty
  nThresh : s.nThresh = enrollThresh (lastIndex curve me candidates)
  entry : ∀ c ∈ candidates, s.mapParticipant.find c.nIdent =
    (assignedEntry curve me box (startIndex c.nIdent 1 (candidates.filter (keeps curve me))) c).map
      fun p => p.prepareVerification curve s.nThresh (lastIndex curve me candidates)
  other : ∀ nIdent ∉ candidates.map Candidate.nIdent, s.mapParticipant.find nIdent = none
  range : ∀ c ∈ candidates, s.getParticipantRange c.nIdent = if keeps curve me c then
    some (startIndex c.nIdent 1 (candidates.filter (keeps curve me)) % 2 ^ 64, c.nWeight) else none
  range_other : ∀ nIdent ∉ candidates.map Candidate.nIdent,
    s.getParticipantRange nIdent = if nIdent = me then some (0, 0) else none
  read : ∀ c ∈ candidates, ¬Misread curve me box c
  readable : ∀ c ∈ candidates, joins curve me c = true → c.sBox.Readable s.nThresh (lastIndex curve me candidates)

theorem distinct_joins (nodup : (candidates.map Candidate.nIdent).Nodup) :
    ((candidates.filter (joins curve me)).map Candidate.nIdent).Nodup :=
  nodup.sublist (filter_sublist.map _)

section
variable {c : Candidate} (assigned : Assigned curve me box candidates turn)
include assigned

theorem Assigned.mem_kept (nodup : (candidates.map Candidate.nIdent).Nodup) (mem : c ∈ candidates) :
    c.nIdent ∈ turn.kept ↔ joins curve me c = true := by
  rw [assigned.kept, List.mem_map]
  constructor
  · intro listed
    obtain ⟨d, inside, same⟩ := listed
    rw [mem_filter] at inside
    rw [← eq_of_ident nodup inside.1 mem same]
    exact inside.2
  · intro new
    exact ⟨c, mem_filter.2 ⟨mem, new⟩, rfl⟩

theorem Assigned.entry_of_joins (mem : c ∈ candidates) (new : joins curve me c = true) :
    turn.share.mapParticipant.find c.nIdent =
      some ⟨c, startIndex c.nIdent 1 (candidates.filter (keeps curve me)) % 2 ^ 64,
        box.sharedKey curve c.sBox.nPubKey, []⟩ := by
  rw [assigned.entry c mem, assignedEntry, if_pos new]

theorem Assigned.prepare_succeeds (nodup : (candidates.map Candidate.nIdent).Nodup)
    (read : ∀ c ∈ candidates, ¬Misread curve me box c) :
    Succeeds (∀ c ∈ candidates, joins curve me c = true →
        c.sBox.Readable (enrollThresh (lastIndex curve me candidates)) (lastIndex curve me candidates))
      (fun s => Enrolled curve me box candidates s ∧ s.nIndex = turn.share.nIndex ∧
        s.getParticipantRange = turn.share.getParticipantRange) (prepare curve turn) := by
  have last : turn.nLastIndex = lastIndex curve me candidates := assigned.last
  have present : (∀ id ∈ turn.kept, ∀ p, turn.share.mapParticipant.find id = some p →
        p.candidate.sBox.Readable (enrollThresh turn.nLastIndex) turn.nLastIndex) ↔
      ∀ c ∈ candidates, joins curve me c = true →
        c.sBox.Readable (enrollThresh (lastIndex curve me candidates)) (lastIndex curve me candidates) := by
    rw [last]
    constructor
    · exact fun all c mem new => all _ ((assigned.mem_kept nodup mem).2 new) _ (assigned.entry_of_joins mem new)
    · intro readable id listed p found
      rw [assigned.kept] at listed
      obtain ⟨c, inside, rfl⟩ := List.mem_map.1 listed
      obtain ⟨mem, new⟩ := mem_filter.1 inside
      rw [assigned.entry_of_joins mem new] at found
      cases found
      exact readable c mem new
  have listed : turn.kept.Nodup := by
    rw [assigned.kept]
    exact distinct_joins nodup
  rw [← present]
  refine (foldlM_prepareParticipant curve listed).map fun readable M found => ?_
  have ranges : getParticipantRange { turn.share with nThresh := enrollThresh turn.nLastIndex, mapParticipant := M } =
      turn.share.getParticipantRange := by
    funext id
    simp only [getParticipantRange, found]
    cases turn.share.mapParticipant.find id <;> split_ifs <;> rfl
  refine ⟨⟨assigned.nIdent, assigned.myBox, assigned.opened, congrArg enrollThresh last, fun c mem => ?_, fun id outside => ?_,
    fun c mem => (congrFun ranges _).trans (assigned.range nodup mem),
    fun id outside => (congrFun ranges _).trans (assigned.range_other outside), read, ?_⟩, rfl, ranges⟩
  · show M.find c.nIdent = _
    rw [found, assigned.entry c mem, last]
    split_ifs with listed
    · rfl
    · rw [assigned.mem_kept nodup mem, Bool.not_eq_true] at listed
      rw [assignedEntry, listed]
      rfl
  · show M.find id = _
    rw [found, assigned.other id outside]
    exact ite_self _
  · rw [last]
    exact present.1 readable

end

theorem enroll_succeeds (nodup : (candidates.map Candidate.nIdent).Nodup) :
    Succeeds ((∀ c ∈ candidates, ¬Misread curve me box c) ∧ ∀ c ∈ candidates, joins curve me c = true →
        c.sBox.Readable (enrollThresh (lastIndex curve me candidates)) (lastIndex curve me candidates))
      (Enrolled curve me box candidates) ((setup me box).enroll curve candidates) :=
  (assignIndexes_succeeds nodup).bind fun read _ assigned => (assigned.prepare_succeeds nodup read).imp fun _ => And.left

end Enrolled

end HashAhead.Mpvss
