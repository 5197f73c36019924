import HashAhead.Foundation.ByteWord

/-! Typed values in a byte stream. A load asks for storage as it goes, and ends with a value and the rest of the
stream or throws. A codec is sound if a load gives back what was saved, whatever follows in the stream, and if its
result does not change when the stream grows. -/

namespace HashAhead.Foundation
open List Option

/-- Storage that was asked for while some bytes of the stream were unread. -/
structure Request where
  size : Nat
  unread : Nat
deriving DecidableEq, Repr

/-- A load: the storage it asked for, and its value with the rest of the stream unless it threw. -/
def Loader (α : Type) := List UInt8 → List Request × Option (α × List UInt8)

namespace Loader
variable {α β : Type}

def requests (x : Loader α) (stream : List UInt8) : List Request := (x stream).1

def result (x : Loader α) (stream : List UInt8) : Option (α × List UInt8) := (x stream).2

instance : Monad Loader where
  pure a := fun stream => ([], some (a, stream))
  bind x f := fun stream =>
    match x stream with
    | (asked, none) => (asked, none)
    | (asked, some (a, rest)) => (asked ++ (f a rest).1, (f a rest).2)

def throw : Loader α := fun _ => ([], none)

def ofReader (reader : List UInt8 → Option (α × List UInt8)) : Loader α := fun stream => ([], reader stream)

def read (size : Nat) : Loader (List UInt8) := ofReader (takeBytes size)

def require (size : Nat) : Loader Unit := fun stream => ([], if stream.length < size then none else some ((), stream))

def request (size : Nat) : Loader Unit := fun stream => ([⟨size, stream.length⟩], some ((), stream))

def many (x : Loader α) : Nat → Loader (List α)
  | 0 => pure []
  | count + 1 => do
    let a ← x
    let rest ← many x count
    pure (a :: rest)

def within (p : α → Prop) [DecidablePred p] (a : α) : Loader {a : α // p a} := if h : p a then pure ⟨a, h⟩ else throw

section Result
variable (x : Loader α) (f : α → Loader β) (stream : List UInt8)

@[simp] theorem result_pure (a : α) : (pure a : Loader α).result stream = some (a, stream) := rfl

@[simp] theorem result_bind : (x >>= f).result stream = (x.result stream).bind fun r => (f r.1).result r.2 := by
  simp only [result, bind]
  split <;> rename_i ran <;> rw [ran] <;> rfl

@[simp] theorem result_map (g : α → β) : (g <$> x).result stream = (x.result stream).map fun r => (g r.1, r.2) := by
  simp only [result, Functor.map]
  split <;> rename_i ran <;> rw [ran] <;> rfl

@[simp] theorem result_ofReader (reader : List UInt8 → Option (α × List UInt8)) :
    (ofReader reader).result stream = reader stream := rfl

@[simp] theorem result_read (size : Nat) : (read size).result stream = takeBytes size stream := rfl

@[simp] theorem result_require (size : Nat) :
    (require size).result stream = if stream.length < size then none else some ((), stream) := rfl

@[simp] theorem result_request (size : Nat) : (request size).result stream = some ((), stream) := rfl

@[simp] theorem result_within {p : α → Prop} [DecidablePred p] (a : {a : α // p a}) :
    (within p a.val).result stream = some (a, stream) := by
  rw [within, dif_pos a.property, result_pure]

end Result

section Requests

def Modest (x : Loader α) (stream : List UInt8) : Prop := ∀ asked ∈ x.requests stream, asked.size ≤ asked.unread

instance (x : Loader α) (stream : List UInt8) : Decidable (x.Modest stream) :=
  inferInstanceAs (Decidable (∀ asked ∈ x.requests stream, asked.size ≤ asked.unread))

variable {x : Loader α} {f : α → Loader β} {stream : List UInt8}

theorem modest_bind_iff :
    (x >>= f).Modest stream ↔ x.Modest stream ∧ ∀ a rest, x.result stream = some (a, rest) → (f a).Modest rest := by
  simp only [Modest, requests, result, bind]
  split <;> rename_i ran <;> rw [ran]
  · simp
  · simp only [mem_append, Option.some.injEq, Prod.mk.injEq]
    constructor
    · intro all
      refine ⟨fun asked mem => all asked (Or.inl mem), ?_⟩
      rintro a rest ⟨rfl, rfl⟩ asked mem
      exact all asked (Or.inr mem)
    · rintro ⟨first, second⟩ asked (mem | mem)
      · exact first asked mem
      · exact second _ _ ⟨rfl, rfl⟩ asked mem

@[simp] theorem modest_pure (a : α) : (pure a : Loader α).Modest stream := by simp [Modest, requests, pure]

@[simp] theorem modest_throw : (throw : Loader α).Modest stream := by simp [Modest, requests, throw]

@[simp] theorem modest_ofReader (reader : List UInt8 → Option (α × List UInt8)) : (ofReader reader).Modest stream := by
  simp [Modest, requests, ofReader]

@[simp] theorem modest_require (size : Nat) : (require size).Modest stream := by simp [Modest, requests, require]

@[simp] theorem modest_request_iff (size : Nat) : (request size).Modest stream ↔ size ≤ stream.length := by
  simp [Modest, requests, request]

@[simp] theorem modest_within (p : α → Prop) [DecidablePred p] (a : α) : (within p a).Modest stream := by
  unfold within
  split
  · exact modest_pure _
  · exact modest_throw

theorem modest_many {count : Nat} (one : ∀ stream, x.Modest stream) (stream : List UInt8) : (x.many count).Modest stream := by
  induction count generalizing stream with
  | zero => exact modest_pure _
  | succ count ih =>
    refine modest_bind_iff.2 ⟨one stream, fun a rest _ => ?_⟩
    exact modest_bind_iff.2 ⟨ih rest, fun _ _ _ => modest_pure _⟩

end Requests

section Stable

def Stable (x : Loader α) : Prop :=
  ∀ stream a rest more, x.result stream = some (a, rest) → x.result (stream ++ more) = some (a, rest ++ more)

variable {x : Loader α} {f : α → Loader β}

theorem stable_pure (a : α) : (pure a : Loader α).Stable := by
  intro stream b rest more loaded
  cases loaded
  rfl

theorem stable_throw : (throw : Loader α).Stable := by
  intro stream b rest more loaded
  cases loaded

theorem Stable.bind (first : x.Stable) (second : ∀ a, (f a).Stable) : (x >>= f).Stable := by
  intro stream b rest more loaded
  rw [result_bind, bind_eq_some_iff] at loaded
  obtain ⟨⟨a, middle⟩, loadedFirst, loadedSecond⟩ := loaded
  rw [result_bind, first stream a middle more loadedFirst, bind_some]
  exact second a middle b rest more loadedSecond

theorem Stable.map (first : x.Stable) (g : α → β) : (g <$> x).Stable := first.bind fun a => stable_pure (g a)

theorem stable_read (size : Nat) : (read size).Stable := by
  intro stream b rest more loaded
  rw [result_read, takeBytes] at loaded
  split at loaded
  · cases loaded
  · rename_i enough
    cases loaded
    have room : size ≤ stream.length := Nat.le_of_not_lt enough
    rw [result_read, takeBytes, if_neg (by rw [length_append]; omega), take_append_of_le_length room,
      drop_append_of_le_length room]

theorem stable_require (size : Nat) : (require size).Stable := by
  intro stream b rest more loaded
  rw [result_require] at loaded
  split at loaded
  · cases loaded
  · cases loaded
    rw [result_require, if_neg (by rw [length_append]; omega)]

theorem stable_request (size : Nat) : (request size).Stable := by
  intro stream b rest more loaded
  cases loaded
  rfl

theorem stable_within (p : α → Prop) [DecidablePred p] (a : α) : (within p a).Stable := by
  unfold within
  split
  · exact stable_pure _
  · exact stable_throw

theorem Stable.many (one : x.Stable) (count : Nat) : (x.many count).Stable := by
  induction count with
  | zero => exact stable_pure _
  | succ count ih => exact one.bind fun a => ih.bind fun rest => stable_pure _

end Stable

end Loader

/-- How values of a type are written to a stream, read from it and measured. The measure adds to what was counted
before. -/
structure Codec (α : Type) where
  save : α → List UInt8
  load : Loader α
  size : α → Nat → Nat

namespace Codec
variable {α : Type}

structure Sound (codec : Codec α) : Prop where
  load_save : ∀ a rest, codec.load.result (codec.save a ++ rest) = some (a, rest)
  stable : codec.load.Stable

theorem Sound.save_injective {codec : Codec α} (sound : codec.Sound) : Function.Injective codec.save := by
  intro a b same
  have loaded := sound.load_save b []
  rw [← same, sound.load_save a []] at loaded
  exact (Prod.mk.inj (Option.some.inj loaded)).1

def Tight (codec : Codec α) : Prop :=
  ∀ stream a rest, codec.load.result stream = some (a, rest) → stream = codec.save a ++ rest

theorem Sound.load_many {codec : Codec α} (sound : codec.Sound) (values : List α) (rest : List UInt8) :
    (codec.load.many values.length).result (values.flatMap codec.save ++ rest) = some (values, rest) := by
  induction values with
  | nil => rfl
  | cons a values ih =>
    rw [flatMap_cons, append_assoc, length_cons, Loader.many, Loader.result_bind, sound.load_save,
      bind_some, Loader.result_bind, ih, bind_some, Loader.result_pure]

def retract {β : Type} (into : α → β) (back : β → α) (codec : Codec β) : Codec α where
  save a := codec.save (into a)
  load := back <$> codec.load
  size a := codec.size (into a)

theorem Sound.retract {β : Type} {into : α → β} {back : β → α} {codec : Codec β} (sound : codec.Sound)
    (inverse : ∀ a, back (into a) = a) : (codec.retract into back).Sound where
  load_save a rest := by
    rw [Codec.retract, Loader.result_map, sound.load_save, map_some, inverse]
  stable := sound.stable.map back

theorem Tight.retract {β : Type} {into : α → β} {back : β → α} {codec : Codec β} (tight : codec.Tight)
    (inverse : ∀ b, into (back b) = b) : (codec.retract into back).Tight := by
  intro stream a rest loaded
  rw [Codec.retract, Loader.result_map, map_eq_some_iff] at loaded
  obtain ⟨⟨b, left⟩, read, made⟩ := loaded
  obtain ⟨rfl, rfl⟩ := Prod.mk.inj made
  show stream = codec.save (into (back b)) ++ left
  rw [tight stream b left read, inverse]

def getSerializeSize (codec : Codec α) (a : α) : Nat := codec.size a 0

end Codec

end HashAhead.Foundation
