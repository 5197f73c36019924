import Mathlib.Data.Set.Basic

/-! Items that parties know of and that are asked of one party at a time. What a party knows and waits for
is kept with the party. Who knows an item, who was asked for it and whether it has come is kept with the item.
The moves change both sides, and both sides agree after any moves. -/

namespace HashAhead.Foundation
open Relation

@[ext] structure Record (P : Type) where
  holders : Set P
  asked : Option P
  got : Bool

open Classical in
noncomputable def Record.without {P : Type} (r : Record P) (p : P) : Option (Record P) :=
  if r.holders ⊆ {p} then none
  else some ⟨r.holders \ {p}, if r.asked = some p then none else r.asked, if r.asked = some p then false else r.got⟩

theorem Record.without_without {P : Type} (r : Record P) (p : P) : (r.without p).bind (·.without p) = r.without p := by
  by_cases alone : r.holders ⊆ {p}
  · simp [without, alone]
  · have others : ¬r.holders \ {p} ⊆ {p} := by
      intro inside
      exact alone fun q mem => by_contra fun other => other (inside ⟨mem, other⟩)
    have twice : (r.holders \ {p}) \ {p} = r.holders \ {p} := Set.ext fun q => ⟨fun left => left.1, fun left => ⟨left, left.2⟩⟩
    by_cases given : r.asked = some p <;> simp [without, alone, others, given, twice]

@[ext] structure Board (P I : Type) where
  knows : P → Set I
  waits : P → Set I
  record : I → Option (Record P)

namespace Board
variable {P I : Type} [DecidableEq I]

def tell (b : Board P I) (p : P) (i : I) : Board P I where
  knows q := { j | j ∈ b.knows q ∨ q = p ∧ j = i }
  waits := b.waits
  record j := if j = i then some (match b.record i with
    | none => ⟨{p}, none, false⟩
    | some r => { r with holders := { q | q = p ∨ q ∈ r.holders } }) else b.record j

def ask (b : Board P I) (p : P) (i : I) (r : Record P) : Board P I where
  knows := b.knows
  waits q := { j | j ∈ b.waits q ∨ q = p ∧ j = i }
  record j := if j = i then some { r with asked := some p } else b.record j

def deliver (b : Board P I) (p : P) (i : I) (r : Record P) : Board P I where
  knows := b.knows
  waits q := { j | j ∈ b.waits q ∧ ¬(q = p ∧ j = i) }
  record j := if j = i then some { r with got := true } else b.record j

def forget (b : Board P I) (i : I) (r : Record P) : Board P I where
  knows q := { j | j ∈ b.knows q ∧ ¬(q ∈ r.holders ∧ j = i) }
  waits q := { j | j ∈ b.waits q ∧ ¬(q ∈ r.holders ∧ j = i) }
  record j := if j = i then none else b.record j

noncomputable def refuse (b : Board P I) (p : P) (i : I) (r : Record P) : Board P I where
  knows q := { j | j ∈ b.knows q ∧ ¬(q = p ∧ j = i) }
  waits q := { j | j ∈ b.waits q ∧ ¬(q = p ∧ j = i) }
  record j := if j = i then r.without p else b.record j

open Classical in
noncomputable def leave (b : Board P I) (p : P) : Board P I where
  knows q := { j | j ∈ b.knows q ∧ q ≠ p }
  waits q := { j | j ∈ b.waits q ∧ q ≠ p }
  record j := if j ∈ b.knows p then (b.record j).bind (·.without p) else b.record j

inductive Step : Board P I → Board P I → Prop where
  | tell (b p i) : Step b (b.tell p i)
  | ask (b p i r) (kept : b.record i = some r) (free : r.asked = none) (holder : p ∈ r.holders) : Step b (b.ask p i r)
  | deliver (b p i r) (kept : b.record i = some r) (asked : r.asked = some p) (waiting : r.got = false) :
    Step b (b.deliver p i r)
  | forget (b i r) (kept : b.record i = some r) : Step b (b.forget i r)
  | refuse (b p i r) (kept : b.record i = some r) (asked : r.asked = some p) (waiting : r.got = false) :
    Step b (b.refuse p i r)
  | leave (b p) : Step b (b.leave p)

/-- The two sides of an item agree. Who was asked for it knows it, and it has come only if it was asked for. -/
def Agrees (knowers waiters : Set P) : Option (Record P) → Prop
  | none => (∀ p, p ∉ knowers) ∧ ∀ p, p ∉ waiters
  | some r => (∀ p, p ∈ knowers ↔ p ∈ r.holders) ∧ (∀ p, p ∈ waiters ↔ r.asked = some p ∧ r.got = false) ∧
    (∀ p, r.asked = some p → p ∈ r.holders) ∧ (r.got = true → r.asked ≠ none)

def Sound (b : Board P I) : Prop := ∀ i, Agrees { p | i ∈ b.knows p } { p | i ∈ b.waits p } (b.record i)

omit [DecidableEq I] in
theorem Sound.at {b b' : Board P I} {i : I} (sound : b.Sound) (knows : ∀ j ≠ i, ∀ p, j ∈ b'.knows p ↔ j ∈ b.knows p)
    (waits : ∀ j ≠ i, ∀ p, j ∈ b'.waits p ↔ j ∈ b.waits p) (record : ∀ j ≠ i, b'.record j = b.record j)
    (here : Agrees { p | i ∈ b'.knows p } { p | i ∈ b'.waits p } (b'.record i)) : b'.Sound := by
  intro j
  by_cases same : j = i
  · rw [same]
    exact here
  · have before := sound j
    simp only [← knows j same, ← waits j same, ← record j same] at before
    exact before

theorem Sound.tell {b : Board P I} (sound : b.Sound) (p : P) (i : I) : (b.tell p i).Sound := by
  apply sound.at (i := i)
  · intro j other q
    simp [Board.tell, other]
  · exact fun _ _ _ => Iff.rfl
  · exact fun j other => if_neg other
  · have before := sound i
    simp only [Board.tell, if_true]
    cases kept : b.record i with
    | none =>
      rw [kept] at before
      obtain ⟨unknown, idle⟩ := before
      refine ⟨fun q => ?_, fun q => ?_, nofun, nofun⟩
      · exact ⟨fun known => (known.resolve_left (unknown q)).1, fun same => Or.inr ⟨same, rfl⟩⟩
      · exact ⟨fun waiting => absurd waiting (idle q), nofun⟩
    | some r =>
      rw [kept] at before
      obtain ⟨known, waiting, holder, asked⟩ := before
      refine ⟨fun q => ?_, waiting, fun q here => Or.inr (holder q here), asked⟩
      simpa [or_comm] using or_congr_right (known q)

section
variable {b : Board P I} {i : I} {p : P} {r : Record P} (sound : b.Sound) (kept : b.record i = some r)
include sound kept

theorem Sound.ask (free : r.asked = none) (mem : p ∈ r.holders) : (b.ask p i r).Sound := by
  apply sound.at (i := i)
  · exact fun _ _ _ => Iff.rfl
  · intro j other q
    simp [Board.ask, other]
  · exact fun j other => if_neg other
  · have before := sound i
    rw [kept] at before
    obtain ⟨known, waiting, _, asked⟩ := before
    have fresh : r.got = false := by
      cases got : r.got with
      | false => rfl
      | true => exact absurd free (asked got)
    simp only [Board.ask, if_true]
    refine ⟨known, fun q => ?_, fun q same => ?_, nofun⟩
    · have idle : i ∉ b.waits q := fun waits => by simpa [free] using (waiting q).1 waits
      simp [idle, fresh, eq_comm]
    · cases same
      exact mem

theorem Sound.deliver (given : r.asked = some p) : (b.deliver p i r).Sound := by
  apply sound.at (i := i)
  · exact fun _ _ _ => Iff.rfl
  · intro j other q
    simp [Board.deliver, other]
  · exact fun j other => if_neg other
  · have before := sound i
    rw [kept] at before
    obtain ⟨known, waiting, holder, _⟩ := before
    simp only [Board.deliver, if_true]
    refine ⟨known, fun q => ⟨fun waits => ?_, nofun⟩, holder, fun _ none => by simp [given] at none⟩
    -- only the one that was asked waits
    have same : some p = some q := given.symm.trans ((waiting q).1 waits.1).1
    exact absurd ⟨(Option.some.inj same).symm, rfl⟩ waits.2

theorem Sound.forget : (b.forget i r).Sound := by
  apply sound.at (i := i)
  · intro j other q
    simp [Board.forget, other]
  · intro j other q
    simp [Board.forget, other]
  · exact fun j other => if_neg other
  · have before := sound i
    rw [kept] at before
    obtain ⟨known, waiting, holder, _⟩ := before
    simp only [Board.forget, if_true]
    exact ⟨fun q left => left.2 ⟨(known q).1 left.1, rfl⟩,
      fun q left => left.2 ⟨holder q ((waiting q).1 left.1).1, rfl⟩⟩

end

omit [DecidableEq I] in
theorem Agrees.without {knowers waiters : Set P} {r : Record P} (agrees : Agrees knowers waiters (some r)) (p : P) :
    Agrees { q | q ∈ knowers ∧ q ≠ p } { q | q ∈ waiters ∧ q ≠ p } (r.without p) := by
  obtain ⟨known, waiting, holder, asked⟩ := agrees
  unfold Record.without
  split_ifs with alone given
  · refine ⟨fun q left => left.2 (alone ((known q).1 left.1)), fun q left => left.2 (alone (holder q ?_))⟩
    exact ((waiting q).1 left.1).1
  · refine ⟨fun q => and_congr_left fun _ => known q, fun q => ⟨fun left => ?_, nofun⟩, nofun, nofun⟩
    have same : some p = some q := given.symm.trans ((waiting q).1 left.1).1
    exact absurd (Option.some.inj same).symm left.2
  · refine ⟨fun q => and_congr_left fun _ => known q, fun q => ?_, fun q same => ⟨holder q same, ?_⟩, asked⟩
    · constructor
      · exact fun left => (waiting q).1 left.1
      · rintro ⟨same, fresh⟩
        refine ⟨(waiting q).2 ⟨same, fresh⟩, ?_⟩
        rintro rfl
        exact given same
    · rintro rfl
      exact given same

theorem Sound.refuse {b : Board P I} (sound : b.Sound) {p : P} {i : I} {r : Record P} (kept : b.record i = some r) :
    (b.refuse p i r).Sound := by
  apply sound.at (i := i)
  · intro j other q
    simp [Board.refuse, other]
  · intro j other q
    simp [Board.refuse, other]
  · exact fun j other => if_neg other
  · have before := sound i
    rw [kept] at before
    simpa [Board.refuse] using before.without p

omit [DecidableEq I] in
open Classical in
theorem Sound.leave {b : Board P I} (sound : b.Sound) (p : P) : (b.leave p).Sound := by
  intro i
  have before := sound i
  show Agrees _ _ (ite _ _ _)
  by_cases known : i ∈ b.knows p
  · rw [if_pos known]
    cases kept : b.record i with
    | none =>
      rw [kept] at before
      exact absurd known (before.1 p)
    | some r =>
      rw [kept] at before
      exact before.without p
  · rw [if_neg known]
    -- a party that does not know the item does not wait for it either
    have idle : i ∉ b.waits p := by
      cases kept : b.record i with
      | none =>
        rw [kept] at before
        exact before.2 p
      | some r =>
        rw [kept] at before
        exact fun waits => known ((before.1 p).2 (before.2.2.1 p ((before.2.1 p).1 waits).1))
    have knowers : { q | i ∈ (b.leave p).knows q } = { q | i ∈ b.knows q } := by
      ext q
      exact ⟨fun left => left.1, fun knows => ⟨knows, fun same => known (same ▸ knows)⟩⟩
    have waiters : { q | i ∈ (b.leave p).waits q } = { q | i ∈ b.waits q } := by
      ext q
      exact ⟨fun left => left.1, fun waits => ⟨waits, fun same => idle (same ▸ waits)⟩⟩
    rw [knowers, waiters]
    exact before

theorem Sound.step {b b' : Board P I} (sound : b.Sound) (step : Step b b') : b'.Sound := by
  cases step with
  | tell p i => exact sound.tell p i
  | ask p i r kept free mem => exact sound.ask kept free mem
  | deliver p i r kept given _ => exact sound.deliver kept given
  | forget i r kept => exact sound.forget kept
  | refuse p i r kept => exact sound.refuse kept
  | leave p => exact sound.leave p

theorem Sound.moves {b b' : Board P I} (sound : b.Sound) (moves : ReflTransGen Step b b') : b'.Sound := by
  induction moves with
  | refl => exact sound
  | tail _ last ih => exact ih.step last

omit [DecidableEq I] in
theorem Sound.eq_of_waits {b : Board P I} (sound : b.Sound) {p q : P} {i : I} (first : i ∈ b.waits p)
    (second : i ∈ b.waits q) : p = q := by
  have agrees := sound i
  cases kept : b.record i with
  | none =>
    rw [kept] at agrees
    exact absurd first (agrees.2 p)
  | some r =>
    rw [kept] at agrees
    have same := ((agrees.2.1 p).1 first).1.symm.trans ((agrees.2.1 q).1 second).1
    exact Option.some.inj same

end Board

end HashAhead.Foundation
