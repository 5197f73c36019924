import Mathlib.Tactic.Common

/-! Programs that talk to a host. A program is a tree of requests that ends on every answer;
the host changes its own state with each request and may give up. -/

namespace HashAhead.Foundation

inductive Program {Op : Type} (Reply : Op → Type) (α : Type) where
  | done (result : α)
  | ask (op : Op) (next : Reply op → Program Reply α)

namespace Program
variable {Op : Type} {Reply : Op → Type} {α σ τ : Type}

def run (handle : (op : Op) → σ → Option (Reply op × σ)) : Program Reply α → σ → Option (α × σ)
  | done result, st => some (result, st)
  | ask op next, st =>
    match handle op st with
    | none => none
    | some (reply, st) => (next reply).run handle st

def Along (handle : (op : Op) → σ → Option (Reply op × σ)) (P : Op → σ → Prop) : Program Reply α → σ → Prop
  | done _, _ => True
  | ask op next, st => P op st ∧ ∀ reply st', handle op st = some (reply, st') → (next reply).Along handle P st'

variable {handle : (op : Op) → σ → Option (Reply op × σ)} {P Q : Op → σ → Prop} {program : Program Reply α}
  {st st' : σ} {result : α}

theorem run_ask {op : Op} {next : Reply op → Program Reply α} (ran : (ask op next).run handle st = some (result, st')) :
    ∃ reply middle, handle op st = some (reply, middle) ∧ (next reply).run handle middle = some (result, st') := by
  unfold run at ran
  cases answer : handle op st with
  | none => simp [answer] at ran
  | some pair =>
    obtain ⟨reply, middle⟩ := pair
    exact ⟨reply, middle, rfl, by simpa [answer] using ran⟩

theorem Along.invariant {I : σ → Prop} (along : program.Along handle P st) (start : I st)
    (step : ∀ op st reply st', P op st → I st → handle op st = some (reply, st') → I st') :
    program.Along handle (fun op st => P op st ∧ I st) st ∧
      ∀ result st', program.run handle st = some (result, st') → I st' := by
  induction program generalizing st with
  | done result =>
    refine ⟨trivial, fun result' st' ran => ?_⟩
    cases ran
    exact start
  | ask op next ih =>
    obtain ⟨here, later⟩ := along
    have kept := fun reply st' answer => ih reply (later reply st' answer) (step op st reply st' here start answer)
    refine ⟨⟨⟨here, start⟩, fun reply st' answer => (kept reply st' answer).1⟩, fun result st' ran => ?_⟩
    obtain ⟨reply, middle, answer, rest⟩ := run_ask ran
    exact (kept reply middle answer).2 result st' rest

theorem Along.rel {R : σ → σ → Prop} (refl : ∀ st, R st st) (trans : ∀ a b c, R a b → R b c → R a c)
    (along : program.Along handle P st)
    (step : ∀ op st reply st', P op st → handle op st = some (reply, st') → R st st')
    (ran : program.run handle st = some (result, st')) : R st st' :=
  (along.invariant (I := R st) (refl st) fun op middle reply last here so answer =>
    trans st middle last so (step op middle reply last here answer)).2 result st' ran

theorem Along.mono (along : program.Along handle P st) (weaker : ∀ op st, P op st → Q op st) :
    program.Along handle Q st := by
  induction program generalizing st with
  | done result => trivial
  | ask op next ih => exact ⟨weaker op st along.1, fun reply st' answer => ih reply (along.2 reply st' answer)⟩

theorem Along.and (first : program.Along handle P st) (second : program.Along handle Q st) :
    program.Along handle (fun op st => P op st ∧ Q op st) st := by
  induction program generalizing st with
  | done result => trivial
  | ask op next ih =>
    exact ⟨⟨first.1, second.1⟩, fun reply st' answer => ih reply (first.2 reply st' answer) (second.2 reply st' answer)⟩

theorem along_trivial (program : Program Reply α) (st : σ) : program.Along handle (fun _ _ => True) st := by
  induction program generalizing st with
  | done result => trivial
  | ask op next ih => exact ⟨trivial, fun reply st' _ => ih reply st'⟩

theorem along_of_still {measure : σ → Nat}
    (grows : ∀ op st reply st', handle op st = some (reply, st') → measure st ≤ measure st')
    (ran : program.run handle st = some (result, st')) (still : measure st' = measure st) :
    program.Along handle (fun op st => ∃ reply st', handle op st = some (reply, st') ∧ measure st' = measure st) st := by
  induction program generalizing st with
  | done result => trivial
  | ask op next ih =>
    obtain ⟨reply, middle, answer, rest⟩ := run_ask ran
    have first := grows op st reply middle answer
    have second : measure middle ≤ measure st' :=
      (along_trivial (next reply) middle).rel (R := fun a b => measure a ≤ measure b) (fun _ => Nat.le_refl _)
        (fun _ _ _ => Nat.le_trans) (fun op st reply st' _ => grows op st reply st') rest
    have same : measure middle = measure st := by omega
    refine ⟨⟨reply, middle, answer, same⟩, fun reply' middle' answer' => ?_⟩
    cases answer.symm.trans answer'
    exact ih reply rest (by omega)

section Watch
variable {note : Op → σ → τ → τ}

def watch (note : Op → σ → τ → τ) (handle : (op : Op) → σ → Option (Reply op × σ)) (op : Op) (st : σ × τ) :
    Option (Reply op × (σ × τ)) :=
  match handle op st.1 with
  | none => none
  | some (reply, next) => some (reply, next, note op st.1 st.2)

theorem watch_eq_some {op : Op} {reply : Reply op} {both both' : σ × τ} :
    watch note handle op both = some (reply, both') ↔
      handle op both.1 = some (reply, both'.1) ∧ both'.2 = note op both.1 both.2 := by
  unfold watch
  obtain ⟨next, noted⟩ := both'
  cases handle op both.1 with
  | none => simp
  | some pair => simp [Prod.ext_iff, and_assoc, eq_comm]

theorem run_watch (note : Op → σ → τ → τ) (t : τ) (ran : program.run handle st = some (result, st')) :
    ∃ t', program.run (watch note handle) (st, t) = some (result, st', t') := by
  induction program generalizing st t with
  | done result =>
    cases ran
    exact ⟨t, rfl⟩
  | ask op next ih =>
    obtain ⟨reply, middle, answer, rest⟩ := run_ask ran
    obtain ⟨t', later⟩ := ih reply (note op st t) rest
    refine ⟨t', ?_⟩
    have watched : watch note handle op (st, t) = some (reply, middle, note op st t) := watch_eq_some.mpr ⟨answer, rfl⟩
    rw [run, watched]
    exact later

theorem Along.watch (note : Op → σ → τ → τ) (t : τ) (along : program.Along handle P st) :
    program.Along (Program.watch note handle) (fun op both => P op both.1) (st, t) := by
  induction program generalizing st t with
  | done result => trivial
  | ask op next ih =>
    refine ⟨along.1, fun reply both answer => ?_⟩
    exact ih reply both.2 (along.2 reply both.1 (watch_eq_some.mp answer).1)

end Watch
end Program
end HashAhead.Foundation
