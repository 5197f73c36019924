import HashAhead.Foundation.Interaction
import HashAhead.State.BlockState

/-! The host of the contract interpreter. Each call frame has a host of its own, except that
a delegate call runs on the host of its caller; all frames of a transaction share the block
state and one cache of storage writes. The interpreter is a program that asks its host. -/

namespace HashAhead.Host
open Foundation Trie State

/-- `evmc_status_code` -/
inductive StatusCode where
  | success
  | failure
  | revert
  | outOfGas
  | invalidInstruction
  | undefinedInstruction
  | stackOverflow
  | stackUnderflow
  | badJumpDestination
  | invalidMemoryAccess
  | callDepthExceeded
  | staticModeViolation
  | precompileFailure
  | contractValidationFailure
  | argumentOutOfRange
  | wasmUnreachableInstruction
  | wasmTrap
  | internalError
  | rejected
  | outOfMemory
  deriving DecidableEq, Repr

/-- `evmc_call_kind` -/
inductive CallKind where
  | call
  | delegatecall
  | callcode
  | create
  | create2
  deriving DecidableEq, Repr

structure EvmcMessage where
  kind : CallKind
  flags : UInt32
  depth : Nat
  gas : Int64
  destination : Destination
  sender : Destination
  inputData : Bytes
  value : UInt256
  create2Salt : UInt256
  deriving DecidableEq

/-- `evmc_result`. A null output has no data, whatever its size says. -/
structure EvmcResult where
  statusCode : StatusCode
  gasLeft : Int64
  outputData : Bytes
  outputSize : Nat
  createAddress : Destination
  deriving DecidableEq

def EvmcResult.bare (statusCode : StatusCode) (gasLeft : Int64) : EvmcResult := ⟨statusCode, gasLeft, [], 0, 0⟩

/-- `evmc_storage_status` -/
inductive StorageStatus where
  | unchanged
  | modified
  | added
  | deleted
  deriving DecidableEq, Repr

/-- What the interpreter asks of its host. Storage, logs and destruction are always those of
the destination of the running message. -/
inductive HostOp where
  | accountExists (addr : Destination)
  | getStorage (key : UInt256)
  | setStorage (key value : UInt256)
  | getTransientStorage (key : UInt256)
  | setTransientStorage (key value : UInt256)
  | getBalance (addr : Destination)
  | getCodeSize (addr : Destination)
  | getCodeHash (addr : Destination)
  | copyCode (addr : Destination) (codeOffset bufferSize : Nat)
  | selfdestruct (beneficiary : Destination)
  | call (msg : EvmcMessage)
  | getBlockHash (number : UInt64)
  | emitLog (data : Bytes) (topics : List UInt256)

abbrev HostOp.Reply : HostOp → Type
  | accountExists _ => Bool
  | getStorage _ => UInt256
  | setStorage _ _ => StorageStatus
  | getTransientStorage _ => UInt256
  | setTransientStorage _ _ => StorageStatus
  | getBalance _ => UInt256
  | getCodeSize _ => Nat
  | getCodeHash _ => UInt256
  | copyCode _ _ _ => Bytes
  | selfdestruct _ => Unit
  | call _ => EvmcResult
  | getBlockHash _ => UInt256
  | emitLog _ _ => Unit

abbrev Behaviour := Program HostOp.Reply EvmcResult

/-- What the host has from outside: hashes, address derivation, precompiled contracts, the
interpreter, and the two fork flags. -/
structure HostEnv where
  codec : Codec
  /-- `CryptoHash` of an address followed by a storage key. -/
  cryptoHash : Destination → UInt256 → UInt256
  createContractAddress : Destination → UInt64 → Destination
  create2ContractAddress : Destination → Bytes → UInt256 → Destination
  fetchContractCreateCode : Bytes → Bytes → Option Bytes
  /-- The result, the output and the gas of a precompiled contract. -/
  precompiled : Destination → Bytes → Option (Bool × Bytes × UInt64)
  interpret : EvmcMessage → Bytes → Behaviour
  fFhxHeightBranch001 : Bool
  fFhxHeightBranch002 : Bool

/-- `CEvmHost` with its `CContractHostDB`. -/
structure EvmHost where
  destStorageContract : Destination
  destCodeParent : Destination
  destCodeLocal : Destination
  destCodeOwner : Destination
  txid : UInt256
  nTxNonce : UInt64
  vLogs : List TransactionLogs

/-- What all frames share: the block state and `CHostCacheKv`. -/
structure World where
  blockState : BlockState
  cacheKv : Destination → UInt256 → Option Bytes

def wordBytes (value : UInt256) : Bytes := (littleEndian 32 value.toNat).reverse

def bytesWord (bt : Bytes) : UInt256 := BitVec.ofNat 256 (ofLittleEndian (bt.rightpad 32 0).reverse)

namespace EvmHost

def accountExists (w : World) (addr : Destination) : Bool := (w.blockState.getDestBalance addr).isSome

def getStorage (env : HostEnv) (host : EvmHost) (w : World) (addr : Destination) (key : UInt256) : UInt256 :=
  let hash := env.cryptoHash addr key
  match w.cacheKv addr hash with
  | some cacheValue => bytesWord (cacheValue.take 32)
  | none =>
    match w.blockState.getDestKvData host.destStorageContract hash with
    | none => 0
    | some vValue => if vValue.length = 32 then bytesWord vValue else 0

/-- What `CEvmHost::set_storage` reports. -/
def storageStatus (env : HostEnv) (host : EvmHost) (w : World) (addr : Destination) (key value : UInt256) :
    StorageStatus :=
  let hash := env.cryptoHash addr key
  match w.cacheKv addr hash with
  | some _ => .modified
  | none =>
    match w.blockState.getDestKvData host.destStorageContract hash with
    | none => .added
    | some cacheValue =>
      if cacheValue = wordBytes 0 then .added
      else if value = 0 then .deleted
      else .modified

def setStorage (env : HostEnv) (host : EvmHost) (w : World) (addr : Destination) (key value : UInt256) :
    StorageStatus × World :=
  let status := host.storageStatus env w addr key value
  if status = .unchanged then (status, w)
  else (status, { w with
    cacheKv := Function.update w.cacheKv addr
      (Function.update (w.cacheKv addr) (env.cryptoHash addr key) (some (wordBytes value))) })

def getTransientStorage (w : World) (addr : Destination) (key : UInt256) : UInt256 :=
  match w.blockState.mapCacheTransientStorage addr key with
  | some tempValue => bytesWord (tempValue.take 32)
  | none => 0

def setTransientStorage (w : World) (addr : Destination) (key value : UInt256) : StorageStatus × World :=
  (.modified, { w with blockState := w.blockState.setTransientValue addr key (wordBytes value) })

def getBalance (w : World) (addr : Destination) : UInt256 := (w.blockState.getDestBalance addr).getD 0

/-- The run code of a contract that is there, as the three code requests see it. -/
def liveCode (w : World) (addr : Destination) : Option (ContractDestCodeContext × Bytes) :=
  match w.blockState.getContractRunCode addr with
  | some (.code ctxDestCode btContractRunCode) => some (ctxDestCode, btContractRunCode)
  | _ => none

def getCodeSize (w : World) (addr : Destination) : Nat :=
  match liveCode w addr with
  | none => 0
  | some (_, btContractRunCode) => btContractRunCode.length

def getCodeHash (w : World) (addr : Destination) : UInt256 :=
  match liveCode w addr with
  | none => 0
  | some (ctxDestCode, _) => ctxDestCode.hashContractRunCode

def copyCode (w : World) (addr : Destination) (codeOffset bufferSize : Nat) : Bytes :=
  match liveCode w addr with
  | none => []
  | some (_, btContractRunCode) => (btContractRunCode.drop codeOffset).take bufferSize

/-- `CEvmHost::selfdestruct`. The storage address is the destroyed contract. -/
def selfdestruct (host : EvmHost) (w : World) (beneficiary : Destination) : World :=
  { w with blockState := (w.blockState.selfdestruct host.destStorageContract beneficiary).2 }

def getBlockHash (w : World) (number : UInt64) : UInt256 :=
  (w.blockState.dbBlockBase.getBlockIndexHashByNumber number).getD 0

def emitLog (host : EvmHost) (addr : Destination) (data : Bytes) (topics : List UInt256) : EvmHost :=
  { host with vLogs := host.vLogs ++ [⟨addr, data, topics⟩] }

/-- `CContractHostDB::ContractTransfer`. An unknown receiver is taken for a public key. -/
def contractTransfer (w : World) (destFrom destTo : Destination) (amount : UInt256) (nGasLeft : UInt64) :
    Bool × UInt64 × World :=
  let ctxToAddress := (w.blockState.getAddressContext destTo).getD (.pubkey [])
  let (fRet, nGasLeft, blockState) :=
    w.blockState.contractTransfer destFrom destTo amount nGasLeft ctxToAddress ctContract
  (fRet, nGasLeft, { w with blockState := blockState })

/-- `GetCacheKv` followed by `SaveRunResult`: the pending writes of one address are saved. -/
def saveRunResult (host : EvmHost) (w : World) (vLogs : List TransactionLogs) : World :=
  { blockState := w.blockState.saveRunResult host.destStorageContract vLogs (w.cacheKv host.destStorageContract)
    cacheKv := Function.update w.cacheKv host.destStorageContract fun _ => none }

end EvmHost

/-- A frame whose code is about to run: its host, the message the code sees, and the code. -/
structure Frame where
  host : EvmHost
  world : World
  msg : EvmcMessage
  code : Bytes

inductive Started where
  | ended (result : EvmcResult) (world : World)
  | running (frame : Frame)

def Started.world : Started → World
  | ended _ world => world
  | running frame => frame.world

namespace HostEnv
variable (env : HostEnv)

/-- `fTransFlag`: whether a call makes a transfer of its own. -/
def transFlag (msg : EvmcMessage) : Bool := if env.fFhxHeightBranch002 then msg.value > 0 else msg.inputData = []

/-- `CEvmHost::call` up to the dispatch on the kind of the message. The function contract
never reports success, because its status is set by nobody. -/
def enterCall (w : World) (msg : EvmcMessage) : EvmcResult × World ⊕ World :=
  if isFunctionContractAddress msg.destination then
    if env.fFhxHeightBranch002 ∧ msg.value > 0 then .inl (.bare .revert msg.gas, w)
    else
      let nGasLeft := if msg.inputData = [] then msg.gas.toUInt64
        else (BlockState.execFunctionContract msg.inputData msg.gas.toUInt64).getD msg.gas.toUInt64
      .inl (.bare .failure nGasLeft.toInt64, w)
  else if env.transFlag msg then
    let (fRet, nGasLeft, w) := EvmHost.contractTransfer w msg.sender msg.destination msg.value msg.gas.toUInt64
    if !fRet then .inl (.bare .revert nGasLeft.toInt64, w)
    else if !w.blockState.isContractAddress msg.destination then .inl (.bare .success nGasLeft.toInt64, w)
    else .inr w
  else .inr w

/-- The nonce bump of `CEvmHost::Create`, with the nonce that the new address comes from. -/
def bumpNonce (host : EvmHost) (w : World) (msg : EvmcMessage) : Option (UInt64 × World) :=
  if env.fFhxHeightBranch002 then
    let nAddrNonce := w.blockState.getAddressLastTxNonce msg.sender + 1
    match w.blockState.setAddressLastTxNonce msg.sender nAddrNonce with
    | none => none
    | some blockState => some (nAddrNonce, { w with blockState := blockState })
  else some (host.nTxNonce, w)

/-- `CEvmHost::Create` up to the run of the create code. -/
def enterCreate (host : EvmHost) (w : World) (msg : EvmcMessage) : Started :=
  match env.bumpNonce host w msg with
  | none => .ended (.bare .failure msg.gas) w
  | some (nAddrNonce, w) =>
    let destNewContract := if msg.kind = .create then env.createContractAddress msg.sender nAddrNonce
      else env.create2ContractAddress msg.sender msg.inputData msg.create2Salt
    if (w.blockState.getDestBalance destNewContract).isSome then .ended (.bare .failure msg.gas) w
    else .running
      { host := { host with
          destStorageContract := destNewContract
          destCodeParent := host.destCodeLocal
          destCodeLocal := destNewContract
          vLogs := [] }
        world := w
        msg := { msg with flags := 0, destination := destNewContract, create2Salt := 0 }
        code := msg.inputData }

/-- The result of a precompiled contract in `CEvmHost::Call`. -/
def precompiledResult (msg : EvmcMessage) (fResult : Bool) (out : Bytes) (usedGas : UInt64) : EvmcResult :=
  let poor := msg.gas.toUInt64 < usedGas
  let usedGas := if poor then msg.gas.toUInt64 else usedGas
  let fResult := fResult ∧ ¬poor ∧ out ≠ []
  ⟨if fResult then .success else .precompileFailure, (msg.gas.toUInt64 - usedGas).toInt64,
    if fResult then out else [], out.length, 0⟩

/-- `CEvmHost::Call` up to the run of the contract code. -/
def enterContract (host : EvmHost) (w : World) (msg : EvmcMessage) : Started :=
  match env.precompiled msg.destination msg.inputData with
  | some (fResult, out, usedGas) => .ended (precompiledResult msg fResult out usedGas) w
  | none =>
    match w.blockState.getContractRunCode msg.destination with
    | none => .ended (.bare .internalError msg.gas) w
    | some .destroyed => .ended (.bare .rejected msg.gas) w
    | some (.code ctxDestCode btContractRunCode) =>
      let value := if env.fFhxHeightBranch001 then msg.value else 0
      let host := { host with
        destCodeParent := host.destCodeLocal
        destCodeLocal := msg.destination
        destCodeOwner := ctxDestCode.destCodeOwner }
      if msg.kind = .delegatecall then .running
        { host := host
          world := w
          msg := { msg with destination := host.destStorageContract, value := value, create2Salt := 0 }
          code := btContractRunCode }
      else .running
        { host := { host with destStorageContract := msg.destination, vLogs := [] }
          world := w
          msg := { msg with value := value, create2Salt := 0 }
          code := btContractRunCode }

def isCreate (msg : EvmcMessage) : Bool := msg.kind = .create ∨ msg.kind = .create2

def start (host : EvmHost) (w : World) (msg : EvmcMessage) : Started :=
  match env.enterCall w msg with
  | .inl (result, w) => .ended result w
  | .inr w => if isCreate msg then env.enterCreate host w msg else env.enterContract host w msg

def saveGas (host : EvmHost) (frame : Frame) (w : World) (gas gasLeft : Int64) : World :=
  { w with
    blockState := w.blockState.saveCodeOwnerGasUsed host.destCodeLocal frame.host.destCodeLocal
      frame.host.destCodeOwner (gas - gasLeft).toUInt64 }

/-- `CEvmHost::Create` after the run of the create code. -/
def leaveCreate (host : EvmHost) (msg : EvmcMessage) (frame : Frame) (inner : EvmHost) (w : World)
    (result : EvmcResult) : EvmcResult × World :=
  let w := saveGas host frame w msg.gas result.gasLeft
  if result.statusCode ≠ .success then (result, w)
  else if result.outputData = [] ∨ result.outputSize < 32 then (.bare .internalError result.gasLeft, w)
  else
    let txcd := { TxContractData.ofCode msg.inputData false with destCodeOwner := host.destCodeOwner }
    let txcd := { txcd with
      btCode := (env.fetchContractCreateCode msg.inputData result.outputData).getD txcd.btCode }
    match w.blockState.saveContractRunCode env.codec frame.host.destStorageContract result.outputData txcd
      host.txid with
    | none => (.bare .failure result.gasLeft, w)
    | some blockState =>
      ({ result with createAddress := frame.host.destStorageContract },
        frame.host.saveRunResult { w with blockState := blockState } inner.vLogs)

/-- `CEvmHost::Call` after the run of the contract code. A delegate call shares the logs of
its caller. -/
def leaveContract (host : EvmHost) (msg : EvmcMessage) (frame : Frame) (inner : EvmHost) (w : World)
    (result : EvmcResult) : EvmcResult × EvmHost × World :=
  let w := if msg.gas ≥ result.gasLeft then saveGas host frame w msg.gas result.gasLeft else w
  let shared := msg.kind = .delegatecall
  if result.statusCode = .success then
    (result, if shared then { host with vLogs := [] } else host, frame.host.saveRunResult w inner.vLogs)
  else (result, if shared then { host with vLogs := inner.vLogs } else host, w)

def leave (host : EvmHost) (msg : EvmcMessage) (frame : Frame) (inner : EvmHost) (w : World) (result : EvmcResult) :
    EvmcResult × EvmHost × World :=
  if isCreate msg then
    let (result, w) := env.leaveCreate host msg frame inner w result
    (result, host, w)
  else leaveContract host msg frame inner w result

/-- How the host answers one request of the code that runs for `msg`. -/
def perform (callee : EvmHost → World → EvmcMessage → Option (EvmcResult × EvmHost × World)) (msg : EvmcMessage) :
    (op : HostOp) → EvmHost × World → Option (op.Reply × (EvmHost × World))
  | .accountExists addr, (host, w) => some (EvmHost.accountExists w addr, host, w)
  | .getStorage key, (host, w) => some (host.getStorage env w msg.destination key, host, w)
  | .setStorage key value, (host, w) =>
    let (status, w) := host.setStorage env w msg.destination key value
    some (status, host, w)
  | .getTransientStorage key, (host, w) => some (EvmHost.getTransientStorage w msg.destination key, host, w)
  | .setTransientStorage key value, (host, w) =>
    let (status, w) := EvmHost.setTransientStorage w msg.destination key value
    some (status, host, w)
  | .getBalance addr, (host, w) => some (EvmHost.getBalance w addr, host, w)
  | .getCodeSize addr, (host, w) => some (EvmHost.getCodeSize w addr, host, w)
  | .getCodeHash addr, (host, w) => some (EvmHost.getCodeHash w addr, host, w)
  | .copyCode addr codeOffset bufferSize, (host, w) =>
    some (EvmHost.copyCode w addr codeOffset bufferSize, host, w)
  | .selfdestruct beneficiary, (host, w) => some ((), host, host.selfdestruct w beneficiary)
  | .call inner, (host, w) => callee host w inner
  | .getBlockHash number, (host, w) => some (EvmHost.getBlockHash w number, host, w)
  | .emitLog data topics, (host, w) => some ((), host.emitLog msg.destination data topics, w)

/-- `CEvmHost::call`, with a bound on the nesting of frames. -/
def call : Nat → EvmHost → World → EvmcMessage → Option (EvmcResult × EvmHost × World)
  | 0, _, _, _ => none
  | depth + 1, host, w, msg =>
    match env.start host w msg with
    | .ended result w => some (result, host, w)
    | .running frame =>
      match (env.interpret frame.msg frame.code).run (env.perform (call depth) frame.msg) (frame.host, frame.world) with
      | none => none
      | some (result, inner, w) => some (env.leave host msg frame inner w result)

end HostEnv
end HashAhead.Host
