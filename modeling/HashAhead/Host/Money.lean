import HashAhead.Host.Run
import HashAhead.State.Effects

/-! Money and the calls of contracts. A call makes its transfer before it looks at its kind
and before any code runs, and nothing takes a transfer back. -/

namespace HashAhead.Host
open Foundation State BlockState
namespace HostEnv
open BlockState (KeepsMoney)
variable {env : HostEnv} {depth : Nat} {host host' : EvmHost} {w w' : World} {msg : EvmcMessage}
  {result : EvmcResult}

/-- The call makes a transfer of its own: it does not go to the function contract, its flag is
set, and the block state allows the transfer. -/
def Pays (env : HostEnv) (w : World) (msg : EvmcMessage) : Prop :=
  isFunctionContractAddress msg.destination = false ∧ env.transFlag msg = true ∧
    w.blockState.Transferable msg.sender msg.destination msg.value msg.gas.toUInt64
      ((w.blockState.getAddressContext msg.destination).getD (.pubkey []))

def transfers (w : World) : List ContractTransfer := w.blockState.vCacheContractTransfer

section Entry

theorem enterCall_unpaid (unpaid : ¬env.Pays w msg) :
    w.blockState.SameMoney (entered (env.enterCall w msg)).blockState := by
  unfold enterCall
  by_cases function : isFunctionContractAddress msg.destination = true
  · rw [if_pos function]
    split_ifs <;> exact .refl _
  · rw [if_neg function]
    by_cases flag : env.transFlag msg = true
    · rw [if_pos flag]
      rcases w.blockState.contractTransfer_cases msg.sender msg.destination msg.value msg.gas.toUInt64
        ((w.blockState.getAddressContext msg.destination).getD (.pubkey [])) ctContract with
        ⟨_, refused, same⟩ | ⟨allowed, _⟩
      · simpa [EvmHost.contractTransfer, refused, entered] using same
      · exact absurd ⟨by simpa using function, flag, allowed⟩ unpaid
    · rw [if_neg flag]
      exact .refl _

theorem enterCall_paid (paid : env.Pays w msg) :
    transfers (entered (env.enterCall w msg)) =
      transfers w ++ [⟨ctContract, msg.sender, msg.destination, msg.value⟩] := by
  obtain ⟨function, flag, allowed⟩ := paid
  rcases w.blockState.contractTransfer_cases msg.sender msg.destination msg.value msg.gas.toUInt64
    ((w.blockState.getAddressContext msg.destination).getD (.pubkey [])) ctContract with
    ⟨refused, _⟩ | ⟨_, stateFrom, stateTo, s', _, _, _, same, outcome⟩
  · exact absurd allowed refused
  · have recorded : (s'.paid msg.sender msg.destination msg.value ctContract stateFrom
        stateTo).vCacheContractTransfer =
          transfers w ++ [⟨ctContract, msg.sender, msg.destination, msg.value⟩] :=
      congrArg (· ++ [_]) same.transfers
    unfold enterCall
    simp only [function, flag, Bool.false_eq_true, if_false, if_true, EvmHost.contractTransfer, outcome, Bool.not_true]
    split_ifs <;> exact recorded

def NonceLeft (env : HostEnv) (w : World) (msg : EvmcMessage) : Prop :=
  isCreate msg = true → env.fFhxHeightBranch002 = true → w.blockState.getAddressLastTxNonce msg.sender + 1 ≠ 0

theorem start_unpaid (host : EvmHost) (unpaid : ¬env.Pays w msg) (left : env.NonceLeft w msg) :
    w.blockState.KeepsMoney (env.start host w msg).world.blockState := by
  have same := enterCall_unpaid unpaid
  refine start_rel (R := fun a b => a.blockState.KeepsMoney b.blockState) same.keepsMoney ?_
  rintro create world kept rfl
  refine kept.trans (enterCreate_rel (R := fun a b => a.blockState.KeepsMoney b.blockState) (.refl _) ?_)
  intro blockState branch set
  refine keepsMoney_setAddressLastTxNonce ?_ set
  rw [getAddressLastTxNonce, same.accounts]
  exact left create branch

theorem transfers_start (env : HostEnv) (host : EvmHost) (w : World) (msg : EvmcMessage) :
    transfers (env.start host w msg).world = transfers (entered (env.enterCall w msg)) := by
  refine start_rel (R := fun _ b => transfers b = transfers (entered (env.enterCall w msg))) rfl ?_
  rintro _ world _ rfl
  refine enterCreate_rel (R := fun a b => transfers b = transfers a) rfl fun blockState _ set => ?_
  exact transfers_setAddressLastTxNonce set

end Entry

theorem leave_keepsMoney (env : HostEnv) (host : EvmHost) (msg : EvmcMessage) (frame : Frame) (inner : EvmHost)
    (w : World) (result : EvmcResult) :
    w.blockState.KeepsMoney (env.leave host msg frame inner w result).2.2.blockState :=
  leave_rel (R := fun a b => a.blockState.KeepsMoney b.blockState) (fun _ => .refl _) (fun _ _ _ => .trans)
    (fun _ _ _ _ _ => by
      unfold saveGas BlockState.saveCodeOwnerGasUsed
      split_ifs <;> exact ⟨rfl, rfl⟩)
    (fun _ _ _ _ _ _ _ => keepsMoney_saveContractRunCode)
    (fun _ _ _ => (sameMoney_saveRunResult _ _ _ _).keepsMoney) host msg frame inner w result

section Runs

def Unpaid (env : HostEnv) : Nat → EvmHost → World → EvmcMessage → Prop :=
  env.Throughout (fun _ _ w msg => ¬env.Pays w msg) fun _ _ _ => True

/-- No contract of the tree destroys itself, and no creator runs out of nonces. -/
def Intact (env : HostEnv) : Nat → EvmHost → World → EvmcMessage → Prop :=
  env.Throughout (fun _ _ w msg => env.NonceLeft w msg) fun _ op _ => ∀ beneficiary, op ≠ .selfdestruct beneficiary

section
variable {callee : EvmHost → World → EvmcMessage → Option (EvmcResult × EvmHost × World)} {op : HostOp}
  {reply : op.Reply} (nested : ∀ inner, op ≠ .call inner)
include nested

theorem request_keepsMoney (standing : ∀ beneficiary, op ≠ .selfdestruct beneficiary)
    (answer : env.perform callee msg op (host, w) = some (reply, host', w')) :
    w.blockState.KeepsMoney w'.blockState := by
  rcases perform_cases answer with ⟨inner, _, so, _⟩ | ⟨_, ⟨rfl, _⟩ | ⟨key, value, _, rfl⟩ | ⟨key, value, _, rfl⟩ |
    ⟨beneficiary, so, _⟩⟩
  · exact absurd so (nested inner)
  · exact .refl _
  · unfold EvmHost.setStorage
    dsimp only
    split_ifs <;> exact .refl _
  · exact ⟨rfl, rfl⟩
  · exact absurd so (standing beneficiary)

theorem request_transfers (answer : env.perform callee msg op (host, w) = some (reply, host', w'))
    : transfers w' = transfers w := by
  by_cases destroys : ∃ beneficiary, op = .selfdestruct beneficiary
  · obtain ⟨beneficiary, rfl⟩ := destroys
    cases answer
    exact transfers_selfdestruct _ _ _
  · exact (request_keepsMoney nested (fun beneficiary so => destroys ⟨beneficiary, so⟩) answer).transfers

end

theorem transfers_le (ran : env.call depth host w msg = some (result, host', w')) :
    (transfers w).length ≤ (transfers w').length := by
  refine (throughout_of_forall (fun _ _ _ _ => True) (fun _ _ _ => True) (fun _ _ _ _ => trivial) (fun _ _ _ => trivial)
    depth host w msg).rel (R := fun a b => (transfers a).length ≤ (transfers b).length)
    (fun _ => Nat.le_refl _) (fun _ _ _ => Nat.le_trans) (fun _ host w msg _ => ?_)
    (fun _ _ _ _ _ _ _ _ _ nested answer => ?_) (fun host msg frame inner w result => ?_) ran
  · rw [transfers_start]
    by_cases paid : env.Pays w msg
    · rw [enterCall_paid paid]
      simp
    · exact (congrArg List.length (enterCall_unpaid paid).transfers).ge
  · exact (congrArg List.length (request_transfers nested answer)).ge
  · exact (congrArg List.length (leave_keepsMoney env host msg frame inner w result).transfers).ge

theorem unpaid_of_still (ran : env.call depth host w msg = some (result, host', w'))
    (still : (transfers w').length = (transfers w).length) : env.Unpaid depth host w msg := by
  induction depth generalizing host w msg result host' w' with
  | zero => trivial
  | succ depth ih =>
    have more : env.Pays w msg → (transfers w).length < (transfers (env.start host w msg).world).length := by
      intro paid
      rw [transfers_start, enterCall_paid paid]
      simp
    obtain ⟨below, same, ⟨ended, _⟩ | ⟨frame, inner, middle, outcome, running, run, leaving⟩⟩ := call_cases ran
    · rw [ended, Started.world] at more
      exact ⟨fun paid => by have := more paid; omega, fun frame running => by cases ended.symm.trans running⟩
    · cases same
      rw [running, Started.world] at more
      have out : (transfers w').length = (transfers middle).length := by
        have left := (leave_keepsMoney env host msg frame inner middle outcome).transfers
        rw [leaving] at left
        exact congrArg List.length left
      have grows : ∀ op st reply st', env.perform (env.call depth) frame.msg op st = some (reply, st') →
          (transfers st.2).length ≤ (transfers st'.2).length := by
        intro op st reply st' answer
        by_cases nested : ∃ callMsg, op = .call callMsg
        · obtain ⟨callMsg, rfl⟩ := nested
          exact transfers_le answer
        · exact (congrArg List.length (request_transfers (fun callMsg so => nested ⟨callMsg, so⟩) answer)).ge
      have inside : (transfers frame.world).length ≤ (transfers middle).length :=
        (Program.along_trivial _ _).rel (R := fun a b => (transfers a.2).length ≤ (transfers b.2).length)
          (fun _ => Nat.le_refl _) (fun _ _ _ => Nat.le_trans) (fun op st reply st' _ => grows op st reply st') run
      have unpaid : ¬env.Pays w msg := fun paid => by have := more paid; omega
      have entry : (transfers frame.world).length = (transfers w).length := by
        have start := transfers_start env host w msg
        rw [running, Started.world] at start
        rw [start]
        exact congrArg List.length (enterCall_unpaid unpaid).transfers
      refine ⟨unpaid, fun frame' running' => ?_⟩
      cases running.symm.trans running'
      have level : (transfers middle).length = (transfers frame.world).length := by omega
      refine (Program.along_of_still grows run level).mono ?_
      rintro op st ⟨reply, st', answer, kept⟩
      refine ⟨trivial, fun callMsg so => ?_⟩
      subst so
      exact ih answer kept

/-- In a tree without self-destruction, a failed call moves no money if and only if no call of
the tree made a transfer. -/
theorem failed_call_moves_nothing_iff (env : HostEnv) (depth : Nat) (host host' : EvmHost) (w w' : World)
    (msg : EvmcMessage) (result : EvmcResult) (ran : env.call depth host w msg = some (result, host', w'))
    (intact : env.Intact depth host w msg) :
    (result.statusCode ≠ .success → w'.blockState.balance = w.blockState.balance ∧
        w'.blockState.vCacheContractTransfer = w.blockState.vCacheContractTransfer) ↔
      (result.statusCode ≠ .success → env.Unpaid depth host w msg) := by
  refine imp_congr_right fun failed => ?_
  constructor
  · exact fun kept => unpaid_of_still ran (congrArg List.length kept.2)
  · intro unpaid
    have kept := (unpaid.and intact).rel (R := fun a b => a.blockState.KeepsMoney b.blockState)
      (fun a => .refl a.blockState) (fun _ _ _ => .trans) (fun _ host _ _ both => start_unpaid host both.1 both.2)
      (fun _ _ _ _ _ _ _ _ both nested answer => request_keepsMoney nested both.2 answer) (leave_keepsMoney env) ran
    exact ⟨kept.balance, kept.transfers⟩

/-- A delegate call leaves the money alone before its code starts if and only if it makes no
transfer of its own. -/
theorem delegate_call_pays_nothing_iff (env : HostEnv) (host : EvmHost) (w : World) (msg : EvmcMessage)
    (delegate : msg.kind = .delegatecall) :
    ((env.start host w msg).world.blockState.balance = w.blockState.balance ∧
        (env.start host w msg).world.blockState.vCacheContractTransfer = w.blockState.vCacheContractTransfer) ↔
      (isFunctionContractAddress msg.destination = true ∨
        (if env.fFhxHeightBranch002 then msg.value = 0 else msg.inputData ≠ []) ∨
        ¬w.blockState.Transferable msg.sender msg.destination msg.value msg.gas.toUInt64
          ((w.blockState.getAddressContext msg.destination).getD (.pubkey []))) := by
  have unflagged : env.transFlag msg = false ↔ if env.fFhxHeightBranch002 then msg.value = 0 else msg.inputData ≠ [] := by
    unfold transFlag
    split_ifs
    · simp only [decide_eq_false_iff_not]
      bv_omega
    · simp
  have unpaid : ¬env.Pays w msg ↔ (isFunctionContractAddress msg.destination = true ∨
      (if env.fFhxHeightBranch002 then msg.value = 0 else msg.inputData ≠ []) ∨
      ¬w.blockState.Transferable msg.sender msg.destination msg.value msg.gas.toUInt64
        ((w.blockState.getAddressContext msg.destination).getD (.pubkey []))) := by
    rw [← unflagged, Pays, not_and_or, not_and_or, Bool.not_eq_false, Bool.not_eq_true]
  rw [← unpaid]
  constructor
  · intro kept paid
    have more := transfers_start env host w msg
    rw [enterCall_paid paid] at more
    exact absurd (kept.2.symm.trans more) (by simp [transfers])
  · intro unpaid
    have kept := start_unpaid host unpaid fun create => by simp [isCreate, delegate] at create
    exact ⟨kept.balance, kept.transfers⟩

end Runs
end HostEnv

namespace Sample

/-- A contract that refuses a payment by reverting keeps the money. -/
theorem reverted_call_keeps_payment :
    (evm.call 1 caller (town revertCode []) (userCall 4)).map
        (fun out => (out.1.statusCode, out.2.2.blockState.balance user, out.2.2.blockState.balance contract,
          out.2.2.blockState.vCacheContractTransfer)) =
      some (.revert, 6, 4, [⟨ctContract, user, contract, 4⟩]) ∧
    (town revertCode []).blockState.balance user = 10 ∧ (town revertCode []).blockState.balance contract = 0 ∧
    (town revertCode []).blockState.vCacheContractTransfer = [] := by
  decide

theorem reverting_returns : (evm.call 1 caller (town revertCode []) (userCall 0)).isSome := by
  decide

def reverted : EvmcResult × EvmHost × World :=
  (evm.call 1 caller (town revertCode []) (userCall 0)).get reverting_returns

theorem failed_call_moves_nothing_iff_reverted : reverted.1.statusCode = .revert ∧
    reverted.2.2.blockState.balance = (town revertCode []).blockState.balance ∧
    reverted.2.2.blockState.vCacheContractTransfer = (town revertCode []).blockState.vCacheContractTransfer := by
  refine ⟨by decide, (HostEnv.failed_call_moves_nothing_iff evm 1 caller reverted.2.1 (town revertCode []) reverted.2.2
    (userCall 0) reverted.1 (Option.some_get reverting_returns).symm ?_).mpr ?_ (by decide)⟩
  · refine ⟨fun create => absurd create (by decide), fun frame running => ?_⟩
    rw [reverting_frame running (by decide)]
    trivial
  · refine fun _ => ⟨fun paid => absurd paid.2.1 (by decide), fun frame running => ?_⟩
    rw [reverting_frame running (by decide)]
    trivial

/-- A delegate call in a frame that got money pays the library before its code starts. -/
theorem delegate_call_pays_library :
    (evm.start caller (town loadCode []) (delegateMessage (userCall 4))).world.blockState.balance user = 6 ∧
      (evm.start caller (town loadCode []) (delegateMessage (userCall 4))).world.blockState.balance library = 4 ∧
      (evm.start caller (town loadCode []) (delegateMessage (userCall 4))).world.blockState.vCacheContractTransfer =
        [⟨ctContract, user, library, 4⟩] ∧
      (town loadCode []).blockState.balance user = 10 ∧ (town loadCode []).blockState.balance library = 0 := by
  decide

theorem delegate_call_pays_nothing_iff_idle :
    (evm.start caller (town loadCode []) (delegateMessage (userCall 0))).world.blockState.balance =
        (town loadCode []).blockState.balance ∧
      (evm.start caller (town loadCode []) (delegateMessage (userCall 0))).world.blockState.vCacheContractTransfer =
        (town loadCode []).blockState.vCacheContractTransfer :=
  (HostEnv.delegate_call_pays_nothing_iff evm caller (town loadCode []) (delegateMessage (userCall 0)) rfl).mpr
    (Or.inr (Or.inl rfl))

end Sample
end HashAhead.Host
