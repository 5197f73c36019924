import HashAhead.Host.Money

/-! Contract creation with an endowment. The value of a creating message goes to the
destination of the message, which is the zero address, before the address of the new contract
is known, and the call ends there when nothing lives at that address. -/

namespace HashAhead.Host
open Trie State
namespace HostEnv
variable {env : HostEnv} {depth : Nat} {host inner : EvmHost} {w w' : World} {msg : EvmcMessage}
  {frame : Frame} {result : EvmcResult}

/-- The money of a creation: the new contract gains the amount, the sender loses it, and no
other balance changes. -/
structure Endowment (s s' : BlockState) (destSender destNewContract : Destination) (amount : UInt256) : Prop where
  gained : s'.balance destNewContract = s.balance destNewContract + amount.toNat
  paid : s'.balance destSender + amount.toNat = s.balance destSender
  others : ∀ dest, dest ≠ destSender → dest ≠ destNewContract → s'.balance dest = s.balance dest

/-- A creation as it should be: the create code ran in a new contract that had got the value
of the message, nothing after the run moves money, and the returned address has its run code.
Its code entry is there unless the create code itself wrote to that slot. -/
def Endowed (env : HostEnv) (depth : Nat) (host : EvmHost) (w w' : World) (msg : EvmcMessage) (result : EvmcResult) :
    Prop :=
  ∃ frame inner middle outcome, env.start host w msg = .running frame ∧
    (env.interpret frame.msg frame.code).run (env.perform (env.call depth) frame.msg) (frame.host, frame.world) =
      some (outcome, inner, middle) ∧
    result.createAddress = frame.host.destStorageContract ∧
    Endowment w.blockState frame.world.blockState msg.sender result.createAddress msg.value ∧
    w'.blockState.balance = middle.blockState.balance ∧
    w'.blockState.RunCodeSaved env.codec result.createAddress result.outputData ∧
    (middle.cacheKv result.createAddress (toHash result.createAddress) = none →
      ∃ ctxDestCode : ContractDestCodeContext,
        ctxDestCode.hashContractRunCode = env.codec.cryptoKeccakHash result.outputData ∧
        w'.blockState.savedKv result.createAddress (toHash result.createAddress) = some ctxDestCode.toStream)

section Entry

section
variable (branch : env.fFhxHeightBranch002 = true)
include branch

theorem enterCall_idle (unaddressed : msg.destination = 0) (idle : msg.value = 0) : env.enterCall w msg = .inr w := by
  have function : isFunctionContractAddress msg.destination = false := by
    rw [unaddressed]
    decide
  have flag : env.transFlag msg = false := by simp [transFlag, branch, idle]
  simp [enterCall, function, flag]

theorem enterCall_through (unaddressed : msg.destination = 0) (value : msg.value ≠ 0)
    (through : env.enterCall w msg = .inr w') :
    ∃ stateFrom stateTo s', w.blockState.SameMoney s' ∧
      w'.blockState = s'.paid msg.sender 0 msg.value ctContract stateFrom stateTo := by
  have function : isFunctionContractAddress msg.destination = false := by
    rw [unaddressed]
    decide
  have flag : env.transFlag msg = true := by
    simp only [transFlag, branch, if_true, decide_eq_true_eq]
    bv_omega
  rcases w.blockState.contractTransfer_cases msg.sender msg.destination msg.value msg.gas.toUInt64
    ((w.blockState.getAddressContext msg.destination).getD (.pubkey [])) ctContract with
    ⟨_, refused, _⟩ | ⟨_, stateFrom, stateTo, s', _, _, _, same, outcome⟩
  · simp [enterCall, function, flag, EvmHost.contractTransfer, refused] at through
  · refine ⟨stateFrom, stateTo, s', same, ?_⟩
    simp only [enterCall, function, flag, EvmHost.contractTransfer, outcome, Bool.false_eq_true, if_false, if_true,
      Bool.not_true] at through
    split_ifs at through
    rw [← unaddressed, ← Sum.inr.inj through]

theorem enterCreate_running (live : env.enterCreate host w msg = .running frame) :
    w.blockState.setAddressLastTxNonce msg.sender (w.blockState.getAddressLastTxNonce msg.sender + 1) =
        some frame.world.blockState ∧
      (frame.host.destStorageContract =
          env.createContractAddress msg.sender (w.blockState.getAddressLastTxNonce msg.sender + 1) ∨
        frame.host.destStorageContract =
          env.create2ContractAddress msg.sender msg.inputData msg.create2Salt) := by
  unfold enterCreate bumpNonce at live
  rw [if_pos branch] at live
  dsimp only at live
  cases set : w.blockState.setAddressLastTxNonce msg.sender (w.blockState.getAddressLastTxNonce msg.sender + 1) with
  | none => simp [set] at live
  | some blockState =>
    simp only [set] at live
    split_ifs at live
    · cases live
      exact ⟨rfl, Or.inl rfl⟩
    · cases live
      exact ⟨rfl, Or.inr rfl⟩

end

theorem enterCreate_ended (ended : env.enterCreate host w msg = .ended result w') : result.statusCode = .failure := by
  unfold enterCreate at ended
  split at ended
  · cases ended
    rfl
  · dsimp only at ended
    split_ifs at ended <;> cases ended <;> rfl

end Entry

theorem leaveCreate_success (success : (env.leaveCreate host msg frame inner w result).1.statusCode = .success) :
    let left := env.leaveCreate host msg frame inner w result
    left.1.createAddress = frame.host.destStorageContract ∧
      left.2.blockState.RunCodeSaved env.codec left.1.createAddress left.1.outputData ∧
      (w.cacheKv left.1.createAddress (toHash left.1.createAddress) = none →
        ∃ ctxDestCode : ContractDestCodeContext,
          ctxDestCode.hashContractRunCode = env.codec.cryptoKeccakHash left.1.outputData ∧
          left.2.blockState.savedKv left.1.createAddress (toHash left.1.createAddress) =
            some ctxDestCode.toStream) := by
  unfold leaveCreate at success ⊢
  dsimp only at success ⊢
  split_ifs at success ⊢ with failed
  · exact absurd success failed
  · cases success
  · split at success
    · cases success
    · next blockState stored =>
      obtain ⟨code, ctxDestCode, hashed, entry⟩ := BlockState.runCodeSaved_saveContractRunCode stored
      refine ⟨rfl, code.saveRunResult _ _, fun unwritten => ⟨ctxDestCode, hashed, ?_⟩⟩
      refine (BlockState.savedKv_saveRunResult _ _ _ _ _ _).trans ?_
      rw [if_pos rfl]
      change ((saveGas host frame w msg.gas result.gasLeft).cacheKv _ _).or _ = _
      rw [show (saveGas host frame w msg.gas result.gasLeft).cacheKv = w.cacheKv from rfl, unwritten, entry]
      rfl

/-- The endowment does not reach the new contract: it is with the zero address, which is not
the new one. -/
theorem not_endowment_of_value (branch : env.fFhxHeightBranch002 = true) (unaddressed : msg.destination = 0)
    (create : isCreate msg = true) (value : msg.value ≠ 0) (live : env.start host w msg = .running frame)
    (derived : frame.host.destStorageContract ≠ 0) :
    ¬Endowment w.blockState frame.world.blockState msg.sender frame.host.destStorageContract msg.value := by
  intro endowment
  have positive : msg.value.toNat ≠ 0 := fun zero => value (BitVec.eq_of_toNat_eq zero)
  have gained := endowment.gained
  by_cases own : frame.host.destStorageContract = msg.sender
  · have paid := endowment.paid
    rw [own] at gained
    omega
  · unfold start at live
    cases inside : env.enterCall w msg with
    | inl ended => simp [inside] at live
    | inr entered =>
      simp only [inside, create, if_true] at live
      obtain ⟨stateFrom, stateTo, s', same, through⟩ := enterCall_through branch unaddressed value inside
      obtain ⟨set, _⟩ := enterCreate_running branch live
      rw [BlockState.balance_nonce_other own set, through, BlockState.balance_paid_other same own derived] at gained
      omega

/-- A successful creation is endowed if and only if the message carries no value (and counting
the nonce of the sender up does not uncover older money). -/
theorem creation_endows_iff (env : HostEnv) (depth : Nat) (host host' : EvmHost) (w w' : World) (msg : EvmcMessage)
    (result : EvmcResult) (derived : ∀ sender nNonce, env.createContractAddress sender nNonce ≠ 0)
    (salted : ∀ sender btCode salt, env.create2ContractAddress sender btCode salt ≠ 0)
    (branch : env.fFhxHeightBranch002 = true) (create : isCreate msg = true) (unaddressed : msg.destination = 0)
    (ran : env.call (depth + 1) host w msg = some (result, host', w')) (success : result.statusCode = .success) :
    env.Endowed depth host w w' msg result ↔ msg.value = 0 ∧ w.blockState.NonceKeepsBalance msg.sender := by
  obtain ⟨below, same, ⟨ended, _⟩ | ⟨frame, inner, middle, outcome, running, run, leaving⟩⟩ := call_cases ran
  · -- the call ended in the host: with value it paid the zero address, without it failed
    constructor
    · rintro ⟨frame, _, _, _, running, _⟩
      cases ended.symm.trans running
    · rintro ⟨idle, _⟩
      rw [start, enterCall_idle branch unaddressed idle] at ended
      simp only [create, if_true] at ended
      rw [enterCreate_ended ended] at success
      cases success
  · cases same
    have nonzero : frame.host.destStorageContract ≠ 0 := by
      unfold start at running
      cases inside : env.enterCall w msg with
      | inl ended => simp [inside] at running
      | inr entered =>
        simp only [inside, create, if_true] at running
        rcases (enterCreate_running branch running).2 with so | so
        · rw [so]
          exact derived _ _
        · rw [so]
          exact salted _ _ _
    have left : env.leaveCreate host msg frame inner middle outcome = (result, w') := by
      unfold leave at leaving
      rw [if_pos create] at leaving
      simp only [Prod.mk.injEq] at leaving
      exact Prod.ext leaving.1 leaving.2.2
    have made : (env.leaveCreate host msg frame inner middle outcome).1.statusCode = .success := by
      rw [left]
      exact success
    have code := leaveCreate_success made
    rw [left] at code
    have entry : msg.value = 0 → w.blockState.setAddressLastTxNonce msg.sender
        (w.blockState.getAddressLastTxNonce msg.sender + 1) = some frame.world.blockState := by
      intro idle
      rw [start, enterCall_idle branch unaddressed idle] at running
      simp only [create, if_true] at running
      exact (enterCreate_running branch running).1
    constructor
    · rintro ⟨frame', _, _, _, running', _, address, endowment, _⟩
      cases running.symm.trans running'
      rw [address] at endowment
      have idle : msg.value = 0 := by
        by_contra value
        exact not_endowment_of_value branch unaddressed create value running nonzero endowment
      refine ⟨idle, (BlockState.balance_nonce_iff (entry idle)).mp ?_⟩
      have paid := endowment.paid
      rw [idle] at paid
      exact paid
    · rintro ⟨idle, keeps⟩
      have level : frame.world.blockState.balance = w.blockState.balance := by
        funext dest
        by_cases own : dest = msg.sender
        · rw [own]
          exact (BlockState.balance_nonce_iff (entry idle)).mpr keeps
        · exact BlockState.balance_nonce_other own (entry idle)
      have kept : w'.blockState.balance = middle.blockState.balance := by
        have across := (leave_keepsMoney env host msg frame inner middle outcome).balance
        rw [leaving] at across
        exact across
      refine ⟨frame, inner, middle, outcome, running, run, code.1, ?_, kept, code.2⟩
      rw [idle]
      exact ⟨by rw [level]; rfl, by rw [level]; rfl, fun dest _ _ => by rw [level]⟩

end HostEnv

namespace Sample
open State.Sample

def initCode : Bytes := [0x60, 0x20, 0x60, 0, 0xf3]

def offspring : Destination := 0x57901137f446ab59670145f096b5d16163fbf559

/-- The interpreter that also knows the create code, with the hashes it needs. -/
def maker : HostEnv := { evm with
  codec := { evm.codec with
    cryptoKeccakHash := fun bt =>
      if bt = initCode then 0x6e8d26292aeb53a046144f0c44422dee2ec02e927f4272f860d141f768104717
      else 0x290decd9548b62a8d60345a988386fc84ba6bc95484008f6362f93160ef3e563 }
  createContractAddress := fun _ _ => offspring
  create2ContractAddress := fun _ _ _ => offspring
  interpret := fun msg code =>
    if code = initCode then .done ⟨.success, msg.gas - 9, List.replicate 32 0, 32, 0⟩ else interpret msg code }

def workshop : World :=
  { town [] [] with blockState := (town [] []).blockState.setCacheDestState contract vault }

def creation (value : UInt256) : EvmcMessage := ⟨.create, 0, 1, 100000, 0, contract, initCode, value, 0⟩

def endowed : EvmcResult × EvmHost × World :=
  (maker.call 1 caller workshop (creation 4)).get (by decide)

theorem unendowed_returns : (maker.call 1 caller workshop (creation 0)).isSome = true := by decide

def unendowed : EvmcResult × EvmHost × World :=
  (maker.call 1 caller workshop (creation 0)).get unendowed_returns

def hasEnded : Started → Bool
  | .ended _ _ => true
  | .running _ => false

/-- A creation with four coins reports success, has paid the zero address and made nothing. -/
theorem endowment_goes_to_zero_address :
    endowed.1.statusCode = .success ∧ endowed.1.createAddress = 0 ∧
      endowed.2.2.blockState.balance contract = 6 ∧ endowed.2.2.blockState.balance 0 = 4 ∧
      endowed.2.2.blockState.balance offspring = 0 ∧ endowed.2.2.blockState.isContractAddress offspring = false ∧
      workshop.blockState.balance contract = 10 ∧ workshop.blockState.balance 0 = 0 ∧
      ¬maker.Endowed 0 caller workshop endowed.2.2 (creation 4) endowed.1 := by
  refine ⟨by decide, by decide, by decide, by decide, by decide, by decide, by decide, by decide, ?_⟩
  rintro ⟨frame, _, _, _, running, _⟩
  have ended : hasEnded (maker.start caller workshop (creation 4)) = true := by decide
  rw [running] at ended
  cases ended

theorem creation_endows_iff_unendowed : unendowed.1.statusCode = .success ∧ unendowed.1.createAddress = offspring ∧
    maker.Endowed 0 caller workshop unendowed.2.2 (creation 0) unendowed.1 := by
  have nonzero : offspring ≠ 0 := by decide
  refine ⟨by decide, by decide, (HostEnv.creation_endows_iff maker 0 caller unendowed.2.1 workshop unendowed.2.2
    (creation 0) unendowed.1 (fun _ _ => nonzero) (fun _ _ _ => nonzero) rfl rfl rfl
    (Option.some_get unendowed_returns).symm (by decide)).mpr ⟨rfl, fun state read null => ?_⟩⟩
  have held : workshop.blockState.getDestState contract = some vault := by decide
  cases held.symm.trans read
  exact absurd null (by decide)

end Sample
end HashAhead.Host
