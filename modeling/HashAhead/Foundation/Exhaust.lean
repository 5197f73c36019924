import Mathlib.Tactic.Common

/-! Steps that are taken until none is left: what every step keeps the end has, and two systems
that step alike end alike. A history is a list in which each event is judged by those before it,
and a property of every state of a history is one of every step if each step decides it. -/

namespace HashAhead.Foundation
open List

section Exhausts
variable {α β : Type}

/-- The steps lead from one state to another one that has no further step. -/
inductive Exhausts (step : α → Option α) : α → α → Prop
  | stop {a : α} (stuck : step a = none) : Exhausts step a a
  | next {a b c : α} (taken : step a = some b) (rest : Exhausts step b c) : Exhausts step a c

namespace Exhausts
variable {step : α → Option α} {a b : α}

section
variable (run : Exhausts step a b)
include run

theorem stuck : step b = none := by
  induction run with
  | stop stuck => exact stuck
  | next _ _ ih => exact ih

theorem eq_of_stuck (stuck : step a = none) : b = a := by
  cases run with
  | stop _ => rfl
  | next taken _ => cases stuck.symm.trans taken

theorem unique {c : α} (other : Exhausts step a c) : b = c := by
  induction run with
  | stop stuck => exact (other.eq_of_stuck stuck).symm
  | next taken _ ih =>
    cases other with
    | stop stuck => cases stuck.symm.trans taken
    | next taken' rest =>
      cases taken.symm.trans taken'
      exact ih rest

theorem invariant {I : α → Prop} (keeps : ∀ x y, I x → step x = some y → I y) (start : I a) : I b := by
  induction run with
  | stop _ => exact start
  | next taken _ ih => exact ih (keeps _ _ start taken)

theorem lockstep {step' : β → Option β} {R : α → β → Prop} {a' b' : β}
    (alike : ∀ x y, R x y → Option.Rel R (step x) (step' y)) (start : R a a') (run' : Exhausts step' a' b')
    : R b b' := by
  induction run generalizing a' with
  | @stop x stuck =>
    have still := alike x a' start
    rw [stuck] at still
    cases none' : step' a' with
    | none =>
      rw [run'.eq_of_stuck none']
      exact start
    | some y =>
      rw [none'] at still
      cases still
  | @next x y z taken _ ih =>
    have moved := alike x a' start
    rw [taken] at moved
    cases run' with
    | stop stuck' =>
      rw [stuck'] at moved
      cases moved
    | next taken' rest' =>
      rw [taken'] at moved
      cases moved with
      | some related => exact ih related rest'

end

end Exhausts
end Exhausts

def Throughout {α : Type} (P : List α → α → Prop) (history : List α) : Prop :=
  ∀ before event after, history = before ++ event :: after → P before event

namespace Throughout
variable {α : Type} {P : List α → α → Prop} {history : List α}

theorem nil : Throughout P [] := by
  intro before event after split
  simp at split

variable {event : α}

theorem snoc (past : Throughout P history) (last : P history event) : Throughout P (history ++ [event]) := by
  intro before other after split
  rcases eq_nil_or_concat after with rfl | ⟨middle, final, rfl⟩
  · obtain ⟨rfl, same⟩ := append_inj' split rfl
    cases same
    exact last
  · rw [concat_eq_append, ← cons_append, ← append_assoc] at split
    exact past before other middle (append_inj' split rfl).1

theorem init (whole : Throughout P (history ++ [event])) : Throughout P history := by
  intro before other after split
  apply whole before other (after ++ [event])
  rw [split, append_assoc, cons_append]

theorem last (whole : Throughout P (history ++ [event])) : P history event := whole history event [] rfl

theorem forall_mem_iff {Q : α → Prop} (same : Throughout (fun before event => Q event ↔ P before event) history) :
    (∀ event ∈ history, Q event) ↔ Throughout P history := by
  constructor
  · intro all before event after split
    exact (same before event after split).mp (all event (by simp [split]))
  · intro through event mem
    obtain ⟨before, after, split⟩ := append_of_mem mem
    exact (same before event after split).mpr (through before event after split)

end Throughout

section Stepwise
variable {σ ε : Type} (step : σ → ε → Option σ)

def Always (P : σ → Prop) : σ → List ε → Prop
  | s, [] => P s
  | s, e :: rest => P s ∧ ∀ s', step s e = some s' → Always P s' rest

def AtEach (Q : σ → ε → Prop) : σ → List ε → Prop
  | _, [] => True
  | s, e :: rest => ∀ s', step s e = some s' → Q s e ∧ AtEach Q s' rest

variable {step} {P : σ → Prop} {Q : σ → ε → Prop}

section
variable {I : σ → Prop} {events : List ε} {s : σ}

theorem Always.first (always : Always step P s events) : P s := by
  cases events with
  | nil => exact always
  | cons e rest => exact always.1

theorem always_of_atEach (holds : ∀ s, I s → P s)
    (keeps : ∀ s, ∀ e ∈ events, ∀ s', I s → step s e = some s' → Q s e → I s') :
    ∀ {s : σ}, I s → AtEach step Q s events → Always step P s events := by
  induction events with
  | nil => exact fun start _ => holds _ start
  | cons e rest ih =>
    intro s start each
    apply And.intro (holds s start)
    intro s' taken
    obtain ⟨fits, later⟩ := each s' taken
    exact ih (fun s e mem => keeps s e (.tail _ mem)) (keeps s e mem_cons_self s' start taken fits) later

/-- Where the invariant needs steps to be as asked, so does the property, if each step shows in it. -/
theorem atEach_of_always {K : σ → ε → Prop}
    (needs : ∀ s, ∀ e ∈ events, ∀ s', I s → step s e = some s' → K s e → P s' → Q s e)
    (keeps : ∀ s, ∀ e ∈ events, ∀ s', I s → step s e = some s' → Q s e → I s') :
    ∀ {s : σ}, I s → AtEach step K s events → Always step P s events → AtEach step Q s events := by
  induction events with
  | nil => exact fun _ _ _ => trivial
  | cons e rest ih =>
    intro s start kept always s' taken
    obtain ⟨here, later⟩ := kept s' taken
    have fits := needs s e mem_cons_self s' start taken here (always.2 s' taken).first
    exact ⟨fits, ih (fun s e mem => needs s e (.tail _ mem)) (fun s e mem => keeps s e (.tail _ mem))
      (keeps s e mem_cons_self s' start taken fits) later (always.2 s' taken)⟩

theorem AtEach.always_true : AtEach step (fun _ _ => True) s events := by
  induction events generalizing s with
  | nil => trivial
  | cons e rest ih => exact fun _ _ => ⟨trivial, ih⟩

/-- Where an invariant holds, each step decides whether the property is lost or the invariant stays. -/
theorem always_iff_atEach_of (holds : ∀ s, I s → P s)
    (decided : ∀ s, ∀ e ∈ events, ∀ s', I s → step s e = some s' → (P s' → Q s e) ∧ (Q s e → I s')) (start : I s) :
    Always step P s events ↔ AtEach step Q s events := by
  have keeps : ∀ s, ∀ e ∈ events, ∀ s', I s → step s e = some s' → Q s e → I s' :=
    fun s e mem s' start taken => (decided s e mem s' start taken).2
  constructor
  · apply atEach_of_always (K := fun _ _ => True) _ keeps start AtEach.always_true
    exact fun s e mem s' start taken _ => (decided s e mem s' start taken).1
  · exact always_of_atEach holds keeps start

end

end Stepwise
end HashAhead.Foundation
