import Nxchain.Txn

namespace Nxchain

inductive HostCall where
  | accountExists (addr : Address)
  | getStorage (addr : Address) (key : Hash)
  | setStorage (addr : Address) (key value : Hash) (config : ForksInTime)
  | getBalance (addr : Address)
  | getCodeSize (addr : Address)
  | getCodeHash (addr : Address)
  | getCode (addr : Address)
  | selfdestruct (addr beneficiary : Address)
  | getTxContext
  | getBlockHash (number : Int)
  | emitLog (addr : Address) (topics : List Hash) (data : Bytes)
  | empty (addr : Address)
  | getNonce (addr : Address)
deriving DecidableEq

namespace HostCall

abbrev Response : HostCall → Type
  | accountExists _ | empty _ => Bool
  | getStorage _ _ | getCodeHash _ | getBlockHash _ => Hash
  | setStorage .. => StorageStatus
  | getBalance _ => Int
  | getCodeSize _ | getNonce _ => Nat
  | getCode _ => Bytes
  | selfdestruct .. | emitLog .. => Unit
  | getTxContext => TxContext

def writes : HostCall → Bool
  | setStorage .. | selfdestruct .. | emitLog .. => true
  | _ => false

end HostCall

structure HostEnv where
  config : ForksInTime
  ctx : TxContext
  getHash : Nat → Hash

namespace Txn

def revertTo (txn : Txn) (id : Nat) : Txn := (txn.revertToSnapshot id).toOption.getD txn

variable [Keccak]

def selfdestruct (t : Txn) (addr beneficiary : Address) : Txn :=
  let t := if t.hasSuicided addr then t else t.addRefund 24000
  let t := t.addBalance beneficiary (t.getBalance addr)
  t.suicide addr

def answer (env : HostEnv) (t : Txn) : (call : HostCall) → call.Response × Txn
  | .accountExists addr => (t.exist addr, t)
  | .getStorage addr key => (t.getState addr key, t)
  | .setStorage addr key value config => t.setStorage addr key value config
  | .getBalance addr => (t.getBalance addr, t)
  | .getCodeSize addr => t.getCodeSize addr
  | .getCodeHash addr => (t.getCodeHash addr, t)
  | .getCode addr => t.getCode addr
  | .selfdestruct addr beneficiary => ((), t.selfdestruct addr beneficiary)
  | .getTxContext => (env.ctx, t)
  | .getBlockHash number => (env.getHash (number % 2 ^ 64).toNat, t)
  | .emitLog addr topics data => ((), t.emitLog addr topics data)
  | .empty addr => (t.empty addr, t)
  | .getNonce addr => (t.getNonce addr, t)

def transfer (t : Txn) (sender recipient : Address) (amount : Option Int) :
    Except Runtime.Error Txn :=
  match amount with
  | none => .ok t
  | some amount =>
    match t.subBalance sender amount with
    | none => .error .insufficientBalance
    | some t => .ok (t.addBalance recipient amount)

def hasCodeOrNonce (t : Txn) (addr : Address) : Bool :=
  t.getNonce addr ≠ 0 ||
    (t.getCodeHash addr ≠ keccak256 [] && t.getCodeHash addr ≠ zeroHash)

def maxDepth : Nat := 1024 + 1

def spuriousDragonMaxCodeSize : Nat := 24576

variable {m : Type → Type} [Monad m]

def applyCall (run : Txn → m (Runtime.ExecutionResult × Txn)) (c : Contract) (callType : CallType)
    (t : Txn) : m (Runtime.ExecutionResult × Txn) :=
  if c.depth > maxDepth then pure (⟨[], c.gas, some .depth⟩, t)
  else
    let (snapshot, t) := t.takeSnapshot
    let t := t.touchAccount c.address
    -- transfers only allowed on calls
    match if callType = .call then t.transfer c.caller c.address c.value else .ok t with
    | .error err => pure (⟨[], c.gas, some err⟩, t)
    | .ok t => do
      let (result, t) ← run t
      pure (result, if result.failed then t.revertTo snapshot else t)

def storeCode (config : ForksInTime) (c : Contract) (snapshot : Nat)
    (result : Runtime.ExecutionResult) (t : Txn) : Runtime.ExecutionResult × Txn :=
  if result.failed then (result, t.revertTo snapshot)
  else if config.eip158 && spuriousDragonMaxCodeSize < result.returnValue.length then
    (⟨[], 0, some .maxCodeSizeExceeded⟩, t.revertTo snapshot)
  else
    let gasCost := result.returnValue.length * 200 % 2 ^ 64
    if result.gasLeft < gasCost then
      if config.homestead then (⟨[], 0, some .codeStoreOutOfGas⟩, t.revertTo snapshot)
      else (⟨[], result.gasLeft, some .codeStoreOutOfGas⟩, t)
    else ({ result with gasLeft := result.gasLeft - gasCost }, t.setCode c.address result.returnValue)

def applyCreate (config : ForksInTime) (run : Txn → m (Runtime.ExecutionResult × Txn))
    (c : Contract) (t : Txn) : m (Runtime.ExecutionResult × Txn) :=
  if c.depth > maxDepth then pure (⟨[], c.gas, some .depth⟩, t)
  else
    let t := t.incrNonce c.caller
    if t.hasCodeOrNonce c.address then pure (⟨[], 0, some .contractAddressCollision⟩, t)
    else
      let (snapshot, t) := t.takeSnapshot
      -- force the creation of the account
      let t := if config.eip158 then (t.createAccount c.address).incrNonce c.address else t
      match t.transfer c.caller c.address c.value with
      | .error err => pure (⟨[], c.gas, some err⟩, t)
      | .ok t => do
        let (result, t) ← run t
        pure (storeCode config c snapshot result t)

def callx (config : ForksInTime) (run : Txn → m (Runtime.ExecutionResult × Txn)) (c : Contract)
    (t : Txn) : m (Runtime.ExecutionResult × Txn) :=
  if c.type = .create then t.applyCreate config run c else t.applyCall run c c.type

end Txn

end Nxchain
