import HashAhead.Host.EvmHost
import HashAhead.State.Selfdestruct

/-! Runs of call frames. A property of a run is stated once for its calls and once for the
requests its code makes, and holds throughout the tree of frames. -/

namespace HashAhead.Host
open Foundation Trie State
namespace HostEnv
variable {env : HostEnv} {callee : EvmHost → World → EvmcMessage → Option (EvmcResult × EvmHost × World)}
  {depth : Nat} {host host' : EvmHost} {w w' : World} {msg : EvmcMessage} {result : EvmcResult}

theorem call_cases (ran : env.call depth host w msg = some (result, host', w')) :
    ∃ below, depth = below + 1 ∧
      ((env.start host w msg = .ended result w' ∧ host' = host) ∨
        ∃ frame inner middle outcome, env.start host w msg = .running frame ∧
          (env.interpret frame.msg frame.code).run (env.perform (env.call below) frame.msg) (frame.host, frame.world) =
            some (outcome, inner, middle) ∧
          env.leave host msg frame inner middle outcome = (result, host', w')) := by
  cases depth with
  | zero => simp [call] at ran
  | succ below =>
    refine ⟨below, rfl, ?_⟩
    rw [call] at ran
    cases started : env.start host w msg with
    | ended ended world =>
      simp only [started, Option.some.injEq, Prod.mk.injEq] at ran
      obtain ⟨rfl, rfl, rfl⟩ := ran
      exact Or.inl ⟨rfl, rfl⟩
    | running frame =>
      simp only [started] at ran
      split at ran
      · cases ran
      · next outcome inner middle inside =>
        exact Or.inr ⟨frame, inner, middle, outcome, rfl, inside, Option.some.inj ran⟩

theorem perform_cases {op : HostOp} {reply : op.Reply}
    (answer : env.perform callee msg op (host, w) = some (reply, host', w')) :
    (∃ inner outcome, op = .call inner ∧ callee host w inner = some (outcome, host', w')) ∨
    (host'.destStorageContract = host.destStorageContract ∧
      (w' = w ∧ (∀ key value, op ≠ .setStorage key value) ∨
        (∃ key value, op = .setStorage key value ∧ w' = (host.setStorage env w msg.destination key value).2) ∨
        (∃ key value, op = .setTransientStorage key value ∧
          w' = (EvmHost.setTransientStorage w msg.destination key value).2) ∨
        ∃ beneficiary, op = .selfdestruct beneficiary ∧ w' = host.selfdestruct w beneficiary)) := by
  cases op with
  | call inner => exact Or.inl ⟨inner, reply, rfl, answer⟩
  | setStorage key value =>
    cases answer
    exact Or.inr ⟨rfl, Or.inr (Or.inl ⟨key, value, rfl, rfl⟩)⟩
  | setTransientStorage key value =>
    cases answer
    exact Or.inr ⟨rfl, Or.inr (Or.inr (Or.inl ⟨key, value, rfl, rfl⟩))⟩
  | selfdestruct beneficiary =>
    cases answer
    exact Or.inr ⟨rfl, Or.inr (Or.inr (Or.inr ⟨beneficiary, rfl, rfl⟩))⟩
  | _ =>
    cases answer
    exact Or.inr ⟨rfl, Or.inl ⟨rfl, by simp⟩⟩

section Parts
variable {R : World → World → Prop}

def entered : EvmcResult × World ⊕ World → World
  | .inl (_, world) => world
  | .inr world => world

theorem world_enterContract : (env.enterContract host w msg).world = w := by
  unfold enterContract
  split
  · rfl
  · split
    · rfl
    · rfl
    · dsimp only
      split_ifs <;> rfl

theorem enterCreate_rel (refl : R w w) (bumped : ∀ blockState, env.fFhxHeightBranch002 = true →
      w.blockState.setAddressLastTxNonce msg.sender (w.blockState.getAddressLastTxNonce msg.sender + 1) =
        some blockState → R w { w with blockState := blockState }) :
    R w (env.enterCreate host w msg).world := by
  unfold enterCreate
  cases outcome : env.bumpNonce host w msg with
  | none => exact refl
  | some pair =>
    obtain ⟨nAddrNonce, after⟩ := pair
    have kept : R w after := by
      unfold bumpNonce at outcome
      split_ifs at outcome with branch
      · dsimp only at outcome
        split at outcome
        · cases outcome
        · next blockState set =>
          cases outcome
          exact bumped blockState branch set
      · cases outcome
        exact refl
    dsimp only
    split_ifs <;> exact kept

theorem start_rel (first : R w (entered (env.enterCall w msg)))
    (created : isCreate msg = true → ∀ world, R w world → entered (env.enterCall w msg) = world →
      R w (env.enterCreate host world msg).world) : R w (env.start host w msg).world := by
  unfold start
  cases inside : env.enterCall w msg with
  | inl pair =>
    rw [inside] at first
    exact first
  | inr world =>
    rw [inside] at first created
    dsimp only
    split_ifs with create
    · exact created create world first rfl
    · rw [world_enterContract]
      exact first

/-- What a call does after its code has run: it books the gas, and then it may save the code
and the run result. -/
theorem leave_rel (refl : ∀ w, R w w) (trans : ∀ a b c, R a b → R b c → R a c)
    (gas : ∀ host frame w gas gasLeft, R w (saveGas host frame w gas gasLeft))
    (code : ∀ codec (w : World) dest btContractRunCode txcd txid blockState,
      w.blockState.saveContractRunCode codec dest btContractRunCode txcd txid = some blockState →
        R w { w with blockState := blockState })
    (saved : ∀ (host : EvmHost) w vLogs, R w (host.saveRunResult w vLogs))
    (host : EvmHost) (msg : EvmcMessage) (frame : Frame) (inner : EvmHost) (w : World) (result : EvmcResult) :
    R w (env.leave host msg frame inner w result).2.2 := by
  have booked := gas host frame w msg.gas result.gasLeft
  unfold leave
  split_ifs
  · unfold leaveCreate
    dsimp only
    split_ifs
    · exact booked
    · exact booked
    · split
      · exact booked
      · next blockState stored =>
        exact trans _ _ _ (trans _ _ _ booked (code _ _ _ _ _ _ _ stored)) (saved _ _ _)
  · unfold leaveContract
    dsimp only
    have maybe : R w (if msg.gas ≥ result.gasLeft then saveGas host frame w msg.gas result.gasLeft else w) := by
      split_ifs
      · exact booked
      · exact refl w
    split_ifs at maybe ⊢ <;> first
      | exact maybe
      | exact trans _ _ _ maybe (saved _ _ _)

end Parts

def Throughout (env : HostEnv) (entry : Nat → EvmHost → World → EvmcMessage → Prop)
    (request : EvmcMessage → HostOp → EvmHost × World → Prop) : Nat → EvmHost → World → EvmcMessage → Prop
  | 0, _, _, _ => True
  | depth + 1, host, w, msg => entry (depth + 1) host w msg ∧ ∀ frame, env.start host w msg = .running frame →
      (env.interpret frame.msg frame.code).Along (env.perform (env.call depth) frame.msg)
        (fun op st => request frame.msg op st ∧
          ∀ inner, op = .call inner → Throughout env entry request depth st.1 st.2 inner)
        (frame.host, frame.world)

variable {entry : Nat → EvmHost → World → EvmcMessage → Prop}
  {request : EvmcMessage → HostOp → EvmHost × World → Prop}

variable (entry request) in
theorem throughout_of_forall (entries : ∀ depth host w msg, entry depth host w msg)
    (requests : ∀ msg op st, request msg op st) (depth : Nat) (host : EvmHost) (w : World) (msg : EvmcMessage) :
    env.Throughout entry request depth host w msg := by
  induction depth generalizing host w msg with
  | zero => trivial
  | succ depth ih =>
    refine ⟨entries _ host w msg, fun frame _ => ?_⟩
    exact (Program.along_trivial _ _).mono fun op st _ => ⟨requests _ op st, fun inner _ => ih st.1 st.2 inner⟩

theorem Throughout.and {entry' : Nat → EvmHost → World → EvmcMessage → Prop}
    {request' : EvmcMessage → HostOp → EvmHost × World → Prop} (first : env.Throughout entry request depth host w msg)
    (second : env.Throughout entry' request' depth host w msg) :
    env.Throughout (fun depth host w msg => entry depth host w msg ∧ entry' depth host w msg)
      (fun msg op st => request msg op st ∧ request' msg op st) depth host w msg := by
  induction depth generalizing host w msg with
  | zero => trivial
  | succ depth ih =>
    refine ⟨⟨first.1, second.1⟩, fun frame running => ?_⟩
    exact ((first.2 frame running).and (second.2 frame running)).mono fun op st both =>
      ⟨⟨both.1.1, both.2.1⟩, fun inner so => ih (both.1.2 inner so) (both.2.2 inner so)⟩

theorem Throughout.rel {R : World → World → Prop} (refl : ∀ w, R w w) (trans : ∀ a b c, R a b → R b c → R a c)
    (started : ∀ depth host w msg, entry depth host w msg → R w (env.start host w msg).world)
    (requested : ∀ callee msg op host w reply host' w', request msg op (host, w) → (∀ inner, op ≠ .call inner) →
      env.perform callee msg op (host, w) = some (reply, host', w') → R w w')
    (left : ∀ host msg frame inner w result, R w (env.leave host msg frame inner w result).2.2)
    (throughout : env.Throughout entry request depth host w msg)
    (ran : env.call depth host w msg = some (result, host', w')) : R w w' := by
  induction depth generalizing host w msg result host' w' with
  | zero => simp [call] at ran
  | succ depth ih =>
    obtain ⟨here, inside⟩ := throughout
    obtain ⟨below, same, ⟨ended, _⟩ | ⟨frame, inner, middle, outcome, running, run, leaving⟩⟩ := call_cases ran
    · have entered := started (depth + 1) host w msg here
      rwa [ended] at entered
    · cases same
      have entered := started (depth + 1) host w msg here
      rw [running] at entered
      have across : R frame.world middle := by
        refine (inside frame running).rel (R := fun a b => R a.2 b.2) (fun st => refl st.2)
          (fun a b c => trans a.2 b.2 c.2) (fun op st reply st' along answer => ?_) run
        by_cases nested : ∃ callMsg, op = .call callMsg
        · obtain ⟨callMsg, rfl⟩ := nested
          exact ih (along.2 callMsg rfl) answer
        · exact requested _ _ op st.1 st.2 reply st'.1 st'.2 along.1 (fun callMsg so => nested ⟨callMsg, so⟩) answer
      have out := left host msg frame inner middle outcome
      rw [leaving] at out
      exact trans _ _ _ (trans _ _ _ entered across) out

end HostEnv

namespace Sample
open State.Sample

def user : Destination := 0x101
def contract : Destination := 0x102
def library : Destination := 0x103

def revertCode : Bytes := [0x60, 0, 0x60, 0, 0xfd]

def storeCode : Bytes := [0x60, 5, 0x60, 7, 0x55]

/-- DELEGATECALL of the library with 50000 gas, POP, SLOAD of key 7, and RETURN of the word -/
def loadCode : Bytes :=
  [0x60, 0, 0x60, 0, 0x60, 0, 0x60, 0, 0x61, 1, 3, 0x62, 0, 0xc3, 0x50, 0xf4, 0x50,
    0x60, 7, 0x54, 0x60, 0, 0x52, 0x60, 0x20, 0x60, 0, 0xf3]

def storeGas : StorageStatus → Int64
  | .added => 20000
  | .modified | .deleted => 5000
  | .unchanged => 800

/-- The message that the interpreter makes of a DELEGATECALL in the frame of `msg`. -/
def delegateMessage (msg : EvmcMessage) : EvmcMessage :=
  ⟨.delegatecall, msg.flags, msg.depth + 1, 50000, library, msg.sender, [], msg.value, 0⟩

def runRevert (gas : Int64) : Behaviour := .done (.bare .revert (gas - 6))

def runStore (gas : Int64) (next : Int64 → Behaviour) : Behaviour :=
  .ask (.setStorage 7 5) fun status => next (gas - 6 - storeGas status)

def runLoad (msg : EvmcMessage) (gas : Int64) : Behaviour :=
  .ask (.call (delegateMessage msg)) fun result => .ask (.getStorage 7) fun value =>
    .done ⟨.success, gas - 51538 + result.gasLeft, wordBytes value, 32, 0⟩

def interpret (msg : EvmcMessage) (code : Bytes) : Behaviour :=
  if code = revertCode then runRevert msg.gas
  else if code = storeCode ++ revertCode then runStore msg.gas runRevert
  else if code = loadCode then runLoad msg msg.gas
  else if code = storeCode ++ loadCode then runStore msg.gas (runLoad msg)
  else .done (.bare .success msg.gas)

def evm : HostEnv where
  codec := ⟨fun _ => 0, fun _ => none, fun _ => []⟩
  cryptoHash _ key := key
  createContractAddress _ _ := 0x104
  create2ContractAddress _ _ _ := 0x104
  fetchContractCreateCode _ _ := none
  precompiled _ _ := none
  interpret := interpret
  fFhxHeightBranch001 := true
  fFhxHeightBranch002 := true

def town (contractCode libraryCode : Bytes) : World where
  blockState := { blockOf (fun dest => if dest = user then some (holder 10)
        else if dest = contract ∨ dest = library then some { vault with nBalance := 0 } else none) with
    mapBlockAddressContext := fun dest => if dest = contract ∨ dest = library then some (.contract []) else none
    mapContractKvState := fun dest key =>
      if key = toHash dest then some (ContractDestCodeContext.toStream ⟨0, dest.setWidth 256, user⟩) else none
    mapCacheContractRunCodeContext := fun hash =>
      if hash = contract.setWidth 256 then some ⟨0, contractCode⟩
      else if hash = library.setWidth 256 then some ⟨0, libraryCode⟩
      else none }
  cacheKv _ _ := none

def caller : EvmHost := ⟨contract, 0, contract, user, 0, 0, []⟩

def userCall (value : UInt256) : EvmcMessage := ⟨.call, 0, 0, 100000, contract, user, [], value, 0⟩

def frameOf : Started → Frame
  | .ended _ world => ⟨caller, world, userCall 0, []⟩
  | .running frame => frame

theorem frame_eq {started : Started} {frame : Frame} (running : started = .running frame) :
    frame = frameOf started := by
  rw [running, frameOf]

theorem reverting_frame {host : EvmHost} {w : World} {msg : EvmcMessage} {frame : Frame}
    (running : evm.start host w msg = .running frame) (coded : (frameOf (evm.start host w msg)).code = revertCode) :
    evm.interpret frame.msg frame.code = .done (.bare .revert (frame.msg.gas - 6)) := by
  rw [frame_eq running, coded]
  rfl

end Sample
end HashAhead.Host
