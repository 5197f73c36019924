import HashAhead.Host.Run
import HashAhead.State.Effects

/-! Contract storage across a tree of frames. The intended writes are kept in a journal that
is rolled back when a call fails. The code has one cache of pending writes that no failure
touches, and every successful frame saves the pending writes of its own address. -/

namespace HashAhead.Host
open Foundation Trie State Option Function BlockState

abbrev Writes := Destination → UInt256 → Option UInt256

def Writes.empty : Writes := fun _ _ => none

def Writes.write (writes : Writes) (addr : Destination) (key value : UInt256) : Writes :=
  Function.update writes addr (Function.update (writes addr) key (some value))

/-- The bytes at a storage location as the frames see them, above the block. -/
def World.current (w : World) (addr : Destination) (hash : UInt256) : Option Bytes :=
  (w.cacheKv addr hash).or (w.blockState.savedKv addr hash)

def storedWord : Option Bytes → UInt256
  | none => 0
  | some vValue => if vValue.length = 32 then bytesWord vValue else 0

theorem length_wordBytes (value : UInt256) : (wordBytes value).length = 32 := by
  simp [wordBytes]

theorem bytesWord_wordBytes (value : UInt256) : bytesWord (wordBytes value) = value := by
  have full : (wordBytes value).rightpad 32 0 = wordBytes value := by
    simp [List.rightpad, length_wordBytes]
  rw [bytesWord, full, wordBytes, List.reverse_reverse]
  exact word_of_bytes value

namespace HostEnv

section Journal
variable (env : HostEnv)

def note (below : EvmHost → World → EvmcMessage → Writes → Writes) (msg : EvmcMessage) (op : HostOp)
    (st : EvmHost × World) (writes : Writes) : Writes :=
  match op with
  | .setStorage key value => writes.write msg.destination key value
  | .call inner => below st.1 st.2 inner writes
  | _ => writes

/-- The journal after a call: a call that does not succeed takes all its writes back, with
those of the calls it made. -/
def writesAfter : Nat → EvmHost → World → EvmcMessage → Writes → Writes
  | 0, _, _, _, writes => writes
  | depth + 1, host, w, msg, writes =>
    match env.start host w msg with
    | .ended _ _ => writes
    | .running frame =>
      match (env.interpret frame.msg frame.code).run
        (Program.watch (note (writesAfter depth) frame.msg) (env.perform (env.call depth) frame.msg))
        ((frame.host, frame.world), writes) with
      | none => writes
      | some (outcome, (inner, middle), written) =>
        if (env.leave host msg frame inner middle outcome).1.statusCode = .success then written else writes

/-- A read of the frame at `addr` returns the last write in force or, without one, what the
cache of the block held at first and what the layers below it hold. The slot of the contract
code is no storage. -/
def ReadOk (base : BlockState) (addr : Destination) (key : UInt256) (host : EvmHost) (w : World) (writes : Writes) :
    Prop :=
  env.cryptoHash addr key ≠ toHash addr →
    host.getStorage env w addr key = (writes addr key).getD (storedWord
      ((base.savedKv addr (env.cryptoHash addr key)).or (w.blockState.lowerKvData addr (env.cryptoHash addr key))))

def ReadsJournal (base : BlockState) : Nat → EvmHost → World → EvmcMessage → Writes → Prop
  | 0, _, _, _, _ => True
  | depth + 1, host, w, msg, writes => ∀ frame, env.start host w msg = .running frame →
      (env.interpret frame.msg frame.code).Along
        (Program.watch (note (env.writesAfter depth) frame.msg) (env.perform (env.call depth) frame.msg))
        (fun op both =>
          (∀ key, op = .getStorage key → env.ReadOk base frame.msg.destination key both.1.1 both.1.2 both.2) ∧
          ∀ inner, op = .call inner → ReadsJournal base depth both.1.1 both.1.2 inner both.2)
        ((frame.host, frame.world), writes)

def Writeless : Nat → EvmHost → World → EvmcMessage → Prop :=
  env.Throughout (fun _ _ _ _ => True) fun _ op _ => ∀ key value, op ≠ .setStorage key value

/-- Wherever a call of the tree fails, neither it nor any call below it has written storage. -/
def WritersSucceed : Nat → EvmHost → World → EvmcMessage → Prop :=
  env.Throughout (fun depth host w msg => ∀ result host' w', env.call depth host w msg = some (result, host', w') →
    result.statusCode ≠ .success → env.Writeless depth host w msg) fun _ _ _ => True

end Journal

variable {env : HostEnv} {callee : EvmHost → World → EvmcMessage → Option (EvmcResult × EvmHost × World)}
  {depth : Nat} {host host' : EvmHost} {w w' w'' : World} {msg : EvmcMessage} {result : EvmcResult}

def Drains (addr : Destination) (w w' : World) : Prop :=
  w'.cacheKv addr = w.cacheKv addr ∨ w'.cacheKv addr = fun _ => none

theorem Drains.trans {addr : Destination} (first : Drains addr w w') (second : Drains addr w' w'') :
    Drains addr w w'' :=
  second.elim (fun same => first.imp same.trans same.trans) Or.inr

/-- No storage value changes for the frames, and pending writes are at most saved. -/
structure Rests (w w' : World) : Prop where
  current : ∀ addr hash, hash ≠ toHash addr → w'.current addr hash = w.current addr hash
  pending : ∀ addr, Drains addr w w'

section Parts

theorem Rests.refl (w : World) : Rests w w := ⟨fun _ _ _ => rfl, fun _ => Or.inl rfl⟩

theorem Rests.trans (first : Rests w w') (second : Rests w' w'') : Rests w w'' where
  current addr hash apart := (second.current addr hash apart).trans (first.current addr hash apart)
  pending addr := (first.pending addr).trans (second.pending addr)

theorem Rests.of_keepsKv {blockState : BlockState} (kept : w.blockState.KeepsKv blockState) :
    Rests w { w with blockState := blockState } where
  current addr hash apart := congrArg (Option.or (w.cacheKv addr hash)) (kept addr hash apart)
  pending _ := Or.inl rfl

theorem rests_saveRunResult (host : EvmHost) (w : World) (vLogs : List TransactionLogs) :
    Rests w (host.saveRunResult w vLogs) := by
  refine ⟨fun addr hash _ => ?_, fun addr => ?_⟩
  · unfold World.current EvmHost.saveRunResult
    rw [savedKv_saveRunResult]
    by_cases own : addr = host.destStorageContract <;> simp [own]
  · by_cases own : addr = host.destStorageContract
    · exact Or.inr (by simp [own, EvmHost.saveRunResult])
    · exact Or.inl (by simp [own, EvmHost.saveRunResult])

theorem rests_enterCall (env : HostEnv) (w : World) (msg : EvmcMessage) : Rests w (entered (env.enterCall w msg)) := by
  have paid : Rests w (EvmHost.contractTransfer w msg.sender msg.destination msg.value msg.gas.toUInt64).2.2 :=
    .of_keepsKv (keepsKv_contractTransfer _ _ _ _ _ _ _)
  unfold enterCall
  by_cases function : isFunctionContractAddress msg.destination = true
  · rw [if_pos function]
    split_ifs <;> exact .refl w
  · rw [if_neg function]
    by_cases flag : env.transFlag msg = true
    · rw [if_pos flag]
      dsimp only
      split_ifs <;> exact paid
    · rw [if_neg flag]
      exact .refl w

theorem rests_start (env : HostEnv) (host : EvmHost) (w : World) (msg : EvmcMessage) :
    Rests w (env.start host w msg).world := by
  refine start_rel (rests_enterCall env w msg) fun _ world first _ => first.trans ?_
  exact enterCreate_rel (.refl world) fun _ _ set => .of_keepsKv (keepsKv_setAddressLastTxNonce set)

theorem rests_leave (env : HostEnv) (host : EvmHost) (msg : EvmcMessage) (frame : Frame) (inner : EvmHost)
    (w : World) (result : EvmcResult) : Rests w (env.leave host msg frame inner w result).2.2 :=
  leave_rel Rests.refl (fun _ _ _ => Rests.trans)
    (fun _ _ _ _ _ => .of_keepsKv (by
      unfold BlockState.saveCodeOwnerGasUsed
      split_ifs <;> exact BlockState.keepsKv_of_mapCacheContractData rfl))
    (fun _ _ _ _ _ _ _ stored => .of_keepsKv (keepsKv_saveContractRunCode stored))
    rests_saveRunResult host msg frame inner w result

theorem rests_request {op : HostOp} {reply : op.Reply} (nested : ∀ inner, op ≠ .call inner)
    (writeless : ∀ key value, op ≠ .setStorage key value)
    (answer : env.perform callee msg op (host, w) = some (reply, host', w')) : Rests w w' := by
  rcases perform_cases answer with ⟨inner, _, so, _⟩ | ⟨_, ⟨rfl, _⟩ | ⟨key, value, so, _⟩ | ⟨key, value, _, rfl⟩ |
    ⟨beneficiary, _, rfl⟩⟩
  · exact absurd so (nested inner)
  · exact .refl _
  · exact absurd so (writeless key value)
  · exact .of_keepsKv (keepsKv_of_mapCacheContractData rfl)
  · exact .of_keepsKv (keepsKv_selfdestruct _ _ _)

theorem call_rests (writeless : env.Writeless depth host w msg)
    (ran : env.call depth host w msg = some (result, host', w')) : Rests w w' :=
  writeless.rel Rests.refl (fun _ _ _ => Rests.trans) (fun _ host w msg _ => rests_start env host w msg)
    (fun _ _ _ _ _ _ _ _ writeless nested answer => rests_request nested writeless answer) (rests_leave env) ran

theorem start_destination {frame : Frame} (live : env.start host w msg = .running frame) :
    frame.host.destStorageContract = frame.msg.destination := by
  unfold start at live
  split at live
  · cases live
  · split_ifs at live
    · unfold enterCreate at live
      split at live
      · cases live
      · dsimp only at live
        split_ifs at live <;> cases live <;> rfl
    · unfold enterContract at live
      split at live
      · cases live
      · split at live
        · cases live
        · cases live
        · dsimp only at live
          split_ifs at live <;> cases live <;> rfl

theorem call_destStorageContract (ran : env.call depth host w msg = some (result, host', w')) :
    host'.destStorageContract = host.destStorageContract := by
  obtain ⟨_, _, ⟨_, rfl⟩ | ⟨frame, inner, middle, outcome, _, _, leaving⟩⟩ := call_cases ran
  · rfl
  · have kept : (env.leave host msg frame inner middle outcome).2.1.destStorageContract = host.destStorageContract := by
      unfold leave leaveContract
      dsimp only
      split_ifs <;> rfl
    rwa [leaving] at kept

theorem leave_saved (env : HostEnv) (host : EvmHost) (msg : EvmcMessage) (frame : Frame) (inner : EvmHost) (w : World)
    (result : EvmcResult) (success : (env.leave host msg frame inner w result).1.statusCode = .success) :
    (env.leave host msg frame inner w result).2.2.cacheKv frame.host.destStorageContract = fun _ => none := by
  unfold leave at success ⊢
  split_ifs at success ⊢
  · unfold leaveCreate at success ⊢
    dsimp only at success ⊢
    split_ifs at success ⊢ with failed
    · exact absurd success failed
    · cases success
    · split at success
      · cases success
      · simp [EvmHost.saveRunResult]
  · unfold leaveContract at success ⊢
    dsimp only at success ⊢
    by_cases good : result.statusCode = .success
    · simp [good, EvmHost.saveRunResult]
    · simp [good] at success

end Parts

section Journaled
variable {base : BlockState} {writes : Writes} {below : EvmHost → World → EvmcMessage → Writes → Writes}

/-- The storage that the frames see is the journal over what was saved at first, and pending
writes are words. -/
structure Journaled (env : HostEnv) (base : BlockState) (w : World) (writes : Writes) : Prop where
  current : ∀ addr key, env.cryptoHash addr key ≠ toHash addr → w.current addr (env.cryptoHash addr key) =
    ((writes addr key).map wordBytes).or (base.savedKv addr (env.cryptoHash addr key))
  pending : ∀ addr hash value, w.cacheKv addr hash = some value → value.length = 32

theorem Journaled.rests (journaled : Journaled env base w writes) (rests : Rests w w') :
    Journaled env base w' writes where
  current addr key apart := (rests.current addr _ apart).trans (journaled.current addr key apart)
  pending addr hash value cached := by
    rcases rests.pending addr with same | saved
    · exact journaled.pending addr hash value (same ▸ cached)
    · simp [saved] at cached

theorem setStorage_world (host : EvmHost) (w : World) (addr : Destination) (key value : UInt256) :
    (host.setStorage env w addr key value).2 = { w with
      cacheKv := Function.update w.cacheKv addr
        (Function.update (w.cacheKv addr) (env.cryptoHash addr key) (some (wordBytes value))) } := by
  have changed : host.storageStatus env w addr key value ≠ .unchanged := by
    unfold EvmHost.storageStatus
    dsimp only
    repeat' split
    all_goals decide
  rw [EvmHost.setStorage, if_neg changed]

theorem Journaled.write (inj : ∀ addr, Function.Injective (env.cryptoHash addr))
    (journaled : Journaled env base w writes) (host : EvmHost) (addr : Destination) (key value : UInt256) :
    Journaled env base (host.setStorage env w addr key value).2 (writes.write addr key value) := by
  rw [setStorage_world]
  refine ⟨fun other key' apart => ?_, fun other hash bytes cached => ?_⟩
  · have before := journaled.current other key' apart
    unfold World.current at before ⊢
    unfold Writes.write
    by_cases own : other = addr
    · subst own
      by_cases same : key' = key
      · simp [same]
      · have slots : env.cryptoHash other key' ≠ env.cryptoHash other key := fun so => same (inj other so)
        simpa [slots, same] using before
    · simpa [own] using before
  · by_cases own : other = addr
    · subst own
      by_cases slot : hash = env.cryptoHash other key
      · simp only [slot, update_self, Option.some.injEq] at cached
        rw [← cached, length_wordBytes]
      · simp only [update_self, update_of_ne slot] at cached
        exact journaled.pending other hash bytes cached
    · simp only [update_of_ne own] at cached
      exact journaled.pending other hash bytes cached

theorem Journaled.read (journaled : Journaled env base w writes) (host : EvmHost) (key : UInt256) :
    env.ReadOk base host.destStorageContract key host w writes := by
  intro apart
  have seen := journaled.current host.destStorageContract key apart
  have read : host.getStorage env w host.destStorageContract key =
      storedWord ((w.current host.destStorageContract (env.cryptoHash host.destStorageContract key)).or
        (w.blockState.lowerKvData host.destStorageContract (env.cryptoHash host.destStorageContract key))) := by
    unfold EvmHost.getStorage World.current
    dsimp only
    cases cached : w.cacheKv host.destStorageContract (env.cryptoHash host.destStorageContract key) with
    | none =>
      rw [none_or, ← getDestKvData_eq]
      dsimp only
      split <;> simp [storedWord, *]
    | some bytes =>
      have sized := journaled.pending _ _ _ cached
      simp [storedWord, sized, List.take_of_length_le]
  rw [read, seen]
  cases writes host.destStorageContract key with
  | none => simp
  | some value => simp [storedWord, length_wordBytes, bytesWord_wordBytes]

section
variable (inj : ∀ addr, Function.Injective (env.cryptoHash addr))
include inj

theorem journaled_request {op : HostOp} {reply : op.Reply} (own : host.destStorageContract = msg.destination)
    (nested : ∀ inner outcome, op = .call inner → callee host w inner = some (outcome, host', w') → Journaled env base w' (below host w inner writes) ∧ host'.destStorageContract = host.destStorageContract)
    (journaled : Journaled env base w writes) (answer : env.perform callee msg op (host, w) = some (reply, host', w'))
    :
    Journaled env base w' (note below msg op (host, w) writes) ∧ host'.destStorageContract = msg.destination := by
  cases op with
  | call inner =>
    obtain ⟨kept, stays⟩ := nested inner reply rfl answer
    exact ⟨kept, stays.trans own⟩
  | setStorage key value =>
    cases answer
    exact ⟨journaled.write inj host msg.destination key value, own⟩
  | _ =>
    refine ⟨journaled.rests (rests_request (by simp) (by simp) answer), ?_⟩
    cases answer
    exact own

/-- Through a whole tree of frames in which no failed call has written, all reads see the
journal and every call leaves the storage that the journal says. -/
theorem journaled_call (clean : env.WritersSucceed depth host w msg) (journaled : Journaled env base w writes) :
    env.ReadsJournal base depth host w msg writes ∧ ∀ result host' w',
      env.call depth host w msg = some (result, host', w') →
        Journaled env base w' (env.writesAfter depth host w msg writes) := by
  induction depth generalizing host w msg writes with
  | zero => exact ⟨trivial, fun result host' w' ran => by simp [call] at ran⟩
  | succ depth ih =>
    obtain ⟨here, inside⟩ := clean
    have started := journaled.rests (rests_start env host w msg)
    -- the invariant of the frame: its storage is its destination, and the journal is true
    have frames : ∀ frame (live : env.start host w msg = .running frame), _ := fun frame live =>
      ((inside frame live).watch (note (env.writesAfter depth) frame.msg) writes).invariant
        (I := fun both => Journaled env base both.1.2 both.2 ∧ both.1.1.destStorageContract = frame.msg.destination)
        ⟨by rwa [live] at started, start_destination live⟩
        fun op both reply both' along kept answer => by
          obtain ⟨performed, noted⟩ := Program.watch_eq_some.mp answer
          rw [noted]
          refine journaled_request inj kept.2 (fun inner outcome so ran => ?_) kept.1 performed
          exact ⟨(ih (along.2 inner so) kept.1).2 outcome _ _ ran, call_destStorageContract ran⟩
    refine ⟨fun frame live => (frames frame live).1.mono fun op both found => ?_, fun result host' w' ran => ?_⟩
    · obtain ⟨along, kept, own⟩ := found
      exact ⟨fun key _ => own ▸ kept.read both.1.1 key, fun inner so => (ih (along.2 inner so) kept).1⟩
    · obtain ⟨_, same, ⟨ended, _⟩ | ⟨frame, inner, middle, outcome, live, run, leaving⟩⟩ := call_cases ran
      · simp only [writesAfter, ended]
        rwa [ended] at started
      · cases same
        obtain ⟨written, watched⟩ := Program.run_watch (note (env.writesAfter depth) frame.msg) writes run
        simp only [writesAfter, live, watched, leaving]
        split_ifs with success
        · have left := rests_leave env host msg frame inner middle outcome
          rw [leaving] at left
          exact ((frames frame live).2 _ _ watched).1.rests left
        · exact journaled.rests (call_rests (here result host' w' ran success) ran)

end

end Journaled

section Saved
variable {addr : Destination}

theorem drains_request {op : HostOp} {reply : op.Reply} (elsewhere : addr ≠ msg.destination)
    (nested : ∀ inner, op ≠ .call inner) (answer : env.perform callee msg op (host, w) = some (reply, host', w')) :
    Drains addr w w' := by
  by_cases writing : ∃ key value, op = .setStorage key value
  · obtain ⟨key, value, rfl⟩ := writing
    have written : w' = (host.setStorage env w msg.destination key value).2 := by
      cases answer
      rfl
    rw [written, setStorage_world]
    exact Or.inl (update_of_ne elsewhere _ _)
  · exact (rests_request nested (fun key value so => writing ⟨key, value, so⟩) answer).pending addr

/-- Every call of a tree in which no failed call has written leaves nothing of its own pending. -/
theorem call_drains (addr : Destination) (clean : env.WritersSucceed depth host w msg)
    (ran : env.call depth host w msg = some (result, host', w')) : Drains addr w w' := by
  induction depth generalizing host w msg result host' w' with
  | zero => simp [call] at ran
  | succ depth ih =>
    obtain ⟨here, inside⟩ := clean
    have started := (rests_start env host w msg).pending addr
    obtain ⟨_, same, ⟨ended, _⟩ | ⟨frame, inner, middle, outcome, live, run, leaving⟩⟩ := call_cases ran
    · rwa [ended] at started
    · cases same
      rw [live] at started
      by_cases success : result.statusCode = .success
      · by_cases own : addr = frame.msg.destination
        · have saved := leave_saved env host msg frame inner middle outcome
          rw [leaving, start_destination live, ← own] at saved
          exact Or.inr (saved success)
        · have left := (rests_leave env host msg frame inner middle outcome).pending addr
          rw [leaving] at left
          have across := (inside frame live).rel (R := fun a b => Drains addr a.2 b.2) (fun _ => Or.inl rfl)
            (fun _ _ _ => Drains.trans) (fun op st reply st' along answer => ?_) run
          · exact (started.trans across).trans left
          · by_cases nested : ∃ callMsg, op = .call callMsg
            · obtain ⟨callMsg, rfl⟩ := nested
              exact ih (along.2 callMsg rfl) answer
            · exact drains_request own (fun callMsg so => nested ⟨callMsg, so⟩) answer
      · exact (call_rests (here result host' w' ran success) ran).pending addr

/-- Where no failed call has written storage, neither itself nor through a call below it, every
storage read of the tree returns the last write in force, and exactly the last writes in
force are saved. -/
theorem storage_is_transactional (env : HostEnv) (injective : ∀ addr, Function.Injective (env.cryptoHash addr))
    (depth : Nat) (host : EvmHost) (w : World) (msg : EvmcMessage) (fresh : ∀ addr hash, w.cacheKv addr hash = none)
    (clean : env.WritersSucceed depth host w msg) :
    env.ReadsJournal w.blockState depth host w msg .empty ∧
      ∀ result host' w', env.call depth host w msg = some (result, host', w') →
        ∀ addr key, env.cryptoHash addr key ≠ toHash addr →
          w'.blockState.savedKv addr (env.cryptoHash addr key) =
            ((env.writesAfter depth host w msg .empty addr key).map wordBytes).or
              (w.blockState.savedKv addr (env.cryptoHash addr key)) := by
  have start : Journaled env w.blockState w .empty :=
    ⟨fun addr key _ => by simp [World.current, fresh, Writes.empty], fun addr hash value => by simp [fresh]⟩
  obtain ⟨reads, after⟩ := journaled_call injective clean start
  refine ⟨reads, fun result host' w' ran addr key apart => ?_⟩
  have settled : w'.cacheKv addr (env.cryptoHash addr key) = none := by
    rcases call_drains addr clean ran with same | saved
    · rw [same, fresh]
    · rw [saved]
  have seen := (after result host' w' ran).current addr key apart
  rwa [World.current, settled, none_or] at seen

end Saved
end HostEnv

namespace Sample

/-- A write of a reverted delegate call is read by its caller and saved with it. -/
theorem reverted_write_is_read_and_saved :
    (evm.call 2 caller (town loadCode (storeCode ++ revertCode)) (userCall 0)).map
        (fun out => (out.1.statusCode, out.1.outputData, out.2.2.blockState.savedKv contract 7)) =
      some (.success, wordBytes 5, some (wordBytes 5)) ∧
    (evm.call 1 caller (town loadCode (storeCode ++ revertCode)) (delegateMessage (userCall 0))).map
        (fun out => out.1.statusCode) = some .revert ∧
    evm.writesAfter 2 caller (town loadCode (storeCode ++ revertCode)) (userCall 0) .empty contract 7 = none ∧
    (town loadCode (storeCode ++ revertCode)).blockState.getDestKvData contract 7 = none := by
  decide

/-- The contract writes and reads; the library it calls in between only reverts. -/
def careful : World := town (storeCode ++ loadCode) revertCode

theorem careful_writersSucceed : evm.WritersSucceed 2 caller careful (userCall 0) := by
  have success : (evm.call 2 caller careful (userCall 0)).map (fun out => out.1.statusCode) = some .success := by decide
  refine ⟨fun result host' w' ran failed => ?_, fun frame live => ?_⟩
  · rw [ran] at success
    exact absurd (Option.some.inj success) failed
  · rw [frame_eq live]
    refine ⟨⟨trivial, by simp⟩, fun status st answer => ?_⟩
    cases answer
    refine ⟨⟨trivial, fun inner so => ?_⟩, fun _ _ _ => ⟨⟨trivial, by simp⟩, fun _ _ _ => trivial⟩⟩
    -- the library fails, but it writes nothing
    cases so
    refine ⟨fun _ _ _ _ _ => ⟨trivial, fun frame live => ?_⟩, fun frame live => ?_⟩
    all_goals
      rw [reverting_frame live (by decide)]
      trivial

theorem storage_is_transactional_careful : evm.ReadsJournal careful.blockState 2 caller careful (userCall 0) .empty ∧
    ∃ result host' w', evm.call 2 caller careful (userCall 0) = some (result, host', w') ∧
      result.outputData = wordBytes 5 ∧ w'.blockState.savedKv contract 7 = some (wordBytes 5) := by
  obtain ⟨reads, saved⟩ := HostEnv.storage_is_transactional evm (fun _ _ _ => id) 2 caller careful (userCall 0)
    (fun _ _ => rfl) careful_writersSucceed
  have output : (evm.call 2 caller careful (userCall 0)).map (fun out => out.1.outputData) = some (wordBytes 5) := by
    decide
  obtain ⟨⟨result, host', w'⟩, ran, read⟩ := map_eq_some_iff.mp output
  refine ⟨reads, result, host', w', ran, read, (saved result host' w' ran contract 7 (by decide)).trans ?_⟩
  decide

end Sample
end HashAhead.Host
