import Nxchain.Evm.State

namespace Nxchain.Evm

inductive Request where
  | host (call : HostCall)
  | callx (c : Contract)

abbrev Request.Answer : Request → Type
  | host call => call.Response
  | callx _ => Runtime.ExecutionResult

abbrev Prog := Program Action.Answer Request.Answer

structure Env where
  msg : Contract
  config : ForksInTime

abbrev Instruction := Env → Prog Unit

namespace Prog

def act (op : Action) : Prog op.Answer := .perform op

def pop : Prog (Option Int) := act .pop

def top : Prog (Option Int) := act .top

def setTop (v : Int) : Prog Unit := act (.setTop v)

def push (v : Int) : Prog Unit := act (.push v)

def peekAt (n : Nat) : Prog Int := act (.peekAt n)

def swap (n : Nat) : Prog Unit := act (.swap n)

def stackSize : Prog Nat := act .stackSize

def gas : Prog Nat := act .gas

def consumeGas (amount : Nat) : Prog Bool := act (.consumeGas amount)

def addGas (amount : Nat) : Prog Unit := act (.addGas amount)

def exit (err : Runtime.Error) : Prog Unit := act (.exit err)

def halt : Prog Unit := act .halt

def ip : Prog Int := act .ip

def setIp (i : Int) : Prog Unit := act (.setIp i)

def allocateMemory (offset size : Int) : Prog Bool := act (.allocateMemory offset size)

def memorySize : Prog Nat := act .memorySize

def slice (lo hi : Nat) : Prog Bytes := act (.slice lo hi)

def copySlice (lo hi : Nat) (data : Bytes) : Prog Unit := act (.copySlice lo hi data)

def copyTail (lo : Nat) (data : Bytes) : Prog Unit := act (.copyTail lo data)

def setTail (lo : Nat) (data : Bytes) : Prog Unit := act (.setTail lo data)

def setIndex (i : Nat) (v : UInt8) : Prog Unit := act (.setIndex i v)

def isSet (i : Nat) : Prog Bool := act (.isSet i)

def tmp : Prog Bytes := act .tmp

def setTmp (b : Bytes) : Prog Unit := act (.setTmp b)

def setRet (b : Bytes) : Prog Unit := act (.setRet b)

def returnData : Prog Bytes := act .returnData

def setReturnData (b : Bytes) : Prog Unit := act (.setReturnData b)

def panic {α : Type} (p : Panic) : Prog α := Program.act (Action.panic p) Empty.elim

def host (call : HostCall) : Prog call.Response := .query (Request.host call)

def callx (c : Contract) : Prog Runtime.ExecutionResult := .query (Request.callx c)

def ofExcept {α : Type} (x : Except Panic α) : Prog α :=
  match x with
  | .ok a => pure a
  | .error p => panic p

def deref (word : Option Int) : Prog Int :=
  match word with
  | some v => pure v
  | none => panic .nilDereference

def popWord : Prog Int := do deref (← pop)

def topWord : Prog Int := do deref (← top)

def popHash : Prog Hash := do return Word.toHash (← popWord)

def popAddr : Prog Address := do
  match ← pop with
  | none => return zeroAddress
  | some v => return Word.toAddress v

def stackAtLeast (n : Nat) : Prog Bool := do return n ≤ (← stackSize)

def get2 (offset length : Int) : Prog (Option Bytes) := do
  if length = 0 then return some []
  else if ← allocateMemory offset length then
    let o := Word.uint64 offset
    let l := Word.uint64 length
    return some (← slice o ((o + l) % 2 ^ 64))
  else return none

def getTmp (offset length : Int) : Prog Bool := do
  match ← get2 offset length with
  | some b =>
    setTmp b
    return true
  | none =>
    setTmp []
    return false

end Prog

open Prog Word

def unary (f : Int → Int) : Prog Unit := do setTop (f (← topWord))

def binary (f : Int → Int → Int) : Prog Unit := do
  let a ← popWord
  let b ← topWord
  setTop (f a b)

def ternary (f : Int → Int → Int → Int) : Prog Unit := do
  let a ← popWord
  let b ← popWord
  let z ← topWord
  setTop (f a b z)

def ofBool (b : Bool) : Int := if b then 1 else 0

def opAdd : Instruction := fun _ => binary fun a b => toU256 (a + b)

def opMul : Instruction := fun _ => binary fun a b => toU256 (a * b)

def opSub : Instruction := fun _ => binary fun a b => toU256 (a - b)

def opDiv : Instruction := fun _ => binary fun a b => if b = 0 then 0 else toU256 (a / b)

def sdiv (a b : Int) : Int :=
  if b = 0 then 0
  else
    let q := |a| / |b|
    toU256 (if a.sign ≠ b.sign then -q else q)

def opSDiv : Instruction := fun _ => binary fun a b => sdiv (to256 a) (to256 b)

def opMod : Instruction := fun _ => binary fun a b => if b = 0 then 0 else toU256 (a % b)

def smod (a b : Int) : Int :=
  if b = 0 then 0
  else
    let r := |a| % |b|
    toU256 (if a.sign < 0 then -r else r)

def opSMod : Instruction := fun _ => binary fun a b => smod (to256 a) (to256 b)

def expWord : Nat → Nat → Int × Int → Int × Int
  | 0, _, (z, x) => (z, x)
  | rounds + 1, d, (z, x) =>
    expWord rounds (d / 2) (if d % 2 = 1 then toU256 (z * x) else z, toU256 (x * x))

def exp (x y : Int) : Int := ((bits y).foldl (fun acc d => expWord 64 d acc) (1, x)).1

def opExp : Instruction := fun env => do
  let x ← popWord
  let y ← topWord
  let gas := if env.config.eip158 then 50 else 10
  if ← consumeGas ((bitLen y + 7) / 8 * gas % 2 ^ 64) then
    setTop (exp x y)

def opAddMod : Instruction := fun _ =>
  ternary fun a b z => if z = 0 then 0 else toU256 ((a + b) % z)

def opMulMod : Instruction := fun _ =>
  ternary fun a b z => if z = 0 then 0 else toU256 (a * b % z)

def opAnd : Instruction := fun _ => binary Int.land

def opOr : Instruction := fun _ => binary Int.lor

def opXor : Instruction := fun _ => binary Int.xor

def byteAt (x y : Int) : Int :=
  let indx := int64 x
  if 31 < indx then 0 else Int.land (y >>> ofInt64 ((31 - indx) * 8)) 255

def opByte : Instruction := fun _ => binary byteAt

def opNot : Instruction := fun _ => unary fun a => toU256 (~~~a)

def opIsZero : Instruction := fun _ => unary fun a => ofBool (a = 0)

def opEq : Instruction := fun _ => binary fun a b => ofBool (a = b)

def opLt : Instruction := fun _ => binary fun a b => ofBool (a < b)

def opGt : Instruction := fun _ => binary fun a b => ofBool (b < a)

def opSlt : Instruction := fun _ => binary fun a b => ofBool (to256 a < to256 b)

def opSgt : Instruction := fun _ => binary fun a b => ofBool (to256 b < to256 a)

def signExtend (bit : Nat) (x : Int) : Int :=
  let mask : Int := 2 ^ bit - 1
  toU256 (if x.testBit bit then Int.lor x (~~~mask) else Int.land x mask)

def opSignExtension : Instruction := fun _ => do
  let ext ← popWord
  match ← top with
  | none => pure ()
  | some x =>
    if ext ≤ 32 then
      let bit := (uint64 ext * 8 + 7) % 2 ^ 64
      -- `Bit` does not take a negative index
      if bit < 2 ^ 63 then setTop (signExtend bit x) else panic (.explicit "negative bit index")

def equalOrOverflowsUint256 (b : Int) : Bool := 8 < bitLen b

def shift (env : Env) (f : Int → Int → Int) : Prog Unit :=
  if env.config.constantinople then binary f else exit .opCodeNotFound

def opShl : Instruction := fun env =>
  shift env fun n value =>
    if equalOrOverflowsUint256 n then 0 else toU256 (value <<< uint64 n)

def opShr : Instruction := fun env =>
  shift env fun n value =>
    if equalOrOverflowsUint256 n then 0 else toU256 (value >>> uint64 n)

def sar (n value : Int) : Int :=
  if equalOrOverflowsUint256 n then (if 0 ≤ value then 0 else tt256m1)
  else toU256 (value >>> uint64 n)

def opSar : Instruction := fun env => shift env fun n value => sar n (to256 value)

def wordSize : Int := 32

def opMload : Instruction := fun _ => do
  let offset ← popWord
  if ← getTmp offset wordSize then
    push (ofBytes (← tmp))

def writeWord : Nat → Nat → Nat × Bytes → Except Panic (Nat × Bytes)
  | 0, _, place => .ok place
  | _ + 1, _, (0, _) => .error .indexOutOfRange
  | rounds + 1, d, (i + 1, buf) => writeWord rounds (d / 256) (i, buf.set i (UInt8.ofNat d))

def fillSlot (val : Int) (buf : Bytes) : Except Panic Bytes := do
  let (i, buf) ← (bits val).foldlM (fun place d => writeWord 8 d place) (32, buf)
  return List.replicate i 0 ++ buf.drop i

def opMStore : Instruction := fun _ => do
  let offset ← popWord
  let val ← popWord
  if ← allocateMemory offset wordSize then
    let o := uint64 offset
    let buf ← slice o ((o + 32) % 2 ^ 64)
    copySlice o ((o + 32) % 2 ^ 64) (← ofExcept (fillSlot val buf))

def opMStore8 : Instruction := fun _ => do
  let offset ← popWord
  let val ← popWord
  if ← allocateMemory offset 1 then
    setIndex (uint64 offset) (UInt8.ofNat (uint64 val))

def opSload : Instruction := fun env => do
  let loc ← topWord
  let gas := if env.config.istanbul then 800 else if env.config.eip150 then 200 else 50
  if ← consumeGas gas then
    let val ← host (.getStorage env.msg.address (toHash loc))
    setTop (ofBytes val.toBytes)

def storageCost (config : ForksInTime) (status : StorageStatus) : Nat :=
  let legacyGasMetering :=
    !config.istanbul && (config.petersburg || !config.constantinople)
  match status with
  | .unchanged | .modifiedAgain =>
    if config.istanbul then 800 else if legacyGasMetering then 5000 else 200
  | .modified => 5000
  | .added => 20000
  | .deleted => 5000

def opSStore : Instruction := fun env => do
  if env.msg.static then exit .writeProtection
  else if env.config.istanbul && (← gas) ≤ 2300 then exit .outOfGas
  else
    let key ← popHash
    let val ← popHash
    let status ← host (.setStorage env.msg.address key val env.config)
    let _ ← consumeGas (storageCost env.config status)

def wordGas (size price : Nat) : Nat := (size + 31) % 2 ^ 64 / 32 * price % 2 ^ 64

def sha3WordGas : Nat := 6

def copyGas : Nat := 3

def opPop : Instruction := fun _ => do
  let _ ← pop

def opAddress : Instruction := fun env => push (ofBytes env.msg.address.toBytes)

def opBalance : Instruction := fun env => do
  let addr ← popAddr
  let gas := if env.config.istanbul then 700 else if env.config.eip150 then 400 else 20
  if ← consumeGas gas then
    push (← host (.getBalance addr))

def opSelfBalance : Instruction := fun env => do
  if env.config.istanbul then push (← host (.getBalance env.msg.address))
  else exit .opCodeNotFound

def opChainID : Instruction := fun env => do
  if env.config.istanbul then push (((← host .getTxContext).chainID % 2 ^ 64 : Nat) : Int)
  else exit .opCodeNotFound

def pushContext (f : TxContext → Int) : Prog Unit := do push (f (← host .getTxContext))

def opOrigin : Instruction := fun _ => pushContext fun ctx => ofBytes ctx.origin.toBytes

def opCaller : Instruction := fun env => push (ofBytes env.msg.caller.toBytes)

def opCallValue : Instruction := fun env => push (env.msg.value.getD 0)

def setBytes (input : Bytes) (size : Nat) (dataOffset : Int) : Bytes :=
  if isUint64 dataOffset then
    let start := min (uint64 dataOffset) input.length
    let copySize := min size (input.length - start)
    (input.drop start).take copySize ++ List.replicate (size - copySize) 0
  else List.replicate size 0

def opCallDataLoad : Instruction := fun env =>
  unary fun offset => ofBytes (setBytes env.msg.input 32 offset)

def opCallDataSize : Instruction := fun env => push env.msg.input.length

def opCodeSize : Instruction := fun env => push env.msg.code.length

def opExtCodeSize : Instruction := fun env => do
  let addr ← popAddr
  if ← consumeGas (if env.config.eip150 then 700 else 20) then
    push ((← host (.getCodeSize addr) : Nat) : Int)

def opGasPrice : Instruction := fun _ => pushContext fun ctx => ofBytes (toHash ctx.gasPrice).toBytes

def opReturnDataSize : Instruction := fun env => do
  if env.config.byzantium then push ((← returnData).length : Int) else exit .opCodeNotFound

def opExtCodeHash : Instruction := fun env => do
  if env.config.constantinople then
    let address ← popAddr
    if ← consumeGas (if env.config.istanbul then 700 else 400) then
      if ← host (.empty address) then push 0
      else push (ofBytes (FixedBytes.toBytes (← host (.getCodeHash address))))
  else exit .opCodeNotFound

def opPC : Instruction := fun _ => do push (ofInt64 (← ip))

def opMSize : Instruction := fun _ => do push (← memorySize)

def opGas : Instruction := fun _ => do push (← gas)

def copyToMemory (memOffset dataOffset length : Int) (charge : Prog Bool) (input : Prog Bytes) :
    Prog Unit := do
  if ← allocateMemory memOffset length then
    let size := uint64 length
    if ← consumeGas (wordGas size copyGas) then
      if ← charge then
        let data ← input
        if size ≠ 0 then setTail (uint64 memOffset) (setBytes data size dataOffset)

def opExtCodeCopy : Instruction := fun env => do
  let address ← popAddr
  let memOffset ← popWord
  let codeOffset ← popWord
  let length ← popWord
  copyToMemory memOffset codeOffset length
    (consumeGas (if env.config.eip150 then 700 else 20)) (host (.getCode address))

def opCallDataCopy : Instruction := fun env => do
  let memOffset ← popWord
  let dataOffset ← popWord
  let length ← popWord
  copyToMemory memOffset dataOffset length (pure true) (pure env.msg.input)

def opReturnDataCopy : Instruction := fun env => do
  if env.config.byzantium then
    let memOffset ← popWord
    let dataOffset ← popWord
    let length ← popWord
    if ← allocateMemory memOffset length then
      if isUint64 dataOffset then
        if ← consumeGas (wordGas (uint64 length) copyGas) then
          let dataEnd := dataOffset + length
          let returned ← returnData
          if isUint64 dataEnd && uint64 dataEnd ≤ returned.length then
            -- the slice of the memory is also taken when there is nothing to copy
            copyTail (uint64 memOffset)
              ((returned.take (uint64 dataEnd)).drop (uint64 dataOffset))
          else exit .returnDataOutOfBounds
      else exit .gasUintOverflow
  else exit .opCodeNotFound

def opCodeCopy : Instruction := fun env => do
  let memOffset ← popWord
  let dataOffset ← popWord
  let length ← popWord
  copyToMemory memOffset dataOffset length (pure true) (pure env.msg.code)

def opBlockHash : Instruction := fun _ => do
  let num ← topWord
  if isInt64 num then
    let n := int64 num
    let lastBlock := toInt64 (← host .getTxContext).number
    if toInt64 (ofInt64 (lastBlock - 257)) < n && n < lastBlock then
      setTop (ofBytes (FixedBytes.toBytes (← host (.getBlockHash n))))
    else setTop 0
  else setTop 0

def opCoinbase : Instruction := fun _ => pushContext fun ctx => ofBytes ctx.coinbase.toBytes

def opTimestamp : Instruction := fun _ => pushContext fun ctx => toInt64 ctx.timestamp

def opNumber : Instruction := fun _ => pushContext fun ctx => toInt64 ctx.number

def opDifficulty : Instruction := fun _ =>
  pushContext fun ctx => ofBytes (toHash ctx.difficulty).toBytes

def opGasLimit : Instruction := fun _ => pushContext fun ctx => toInt64 ctx.gasLimit

def selfDestructGas (env : Env) (address : Address) : Prog Nat := do
  if env.config.eip150 then
    if env.config.eip158 then
      if ← host (.empty address) then
        if (← host (.getBalance env.msg.address)) ≠ 0 then return 5000 + 25000 else return 5000
      else return 5000
    else if ← host (.accountExists address) then return 5000
    else return 5000 + 25000
  else return 0

def opSelfDestruct : Instruction := fun env => do
  if env.msg.static then exit .writeProtection
  else
    let address ← popAddr
    if ← consumeGas (← selfDestructGas env address) then
      host (.selfdestruct env.msg.address address)
      halt

def validJumpdest (env : Env) (dest : Int) : Prog Bool := do
  if 63 ≤ bitLen dest || env.msg.code.length ≤ uint64 dest then return false
  else isSet (uint64 dest)

def jump (env : Env) (dest : Int) : Prog Unit := do
  if ← validJumpdest env dest then setIp (toInt64 (sub64 (uint64 dest) 1))
  else exit .invalidJump

def opJump : Instruction := fun env => do jump env (← popWord)

def opJumpi : Instruction := fun env => do
  let dest ← popWord
  let cond ← popWord
  if cond ≠ 0 then jump env dest

def opJumpDest : Instruction := fun _ => pure ()

def immediate (code : Bytes) (ip n : Nat) : Bytes :=
  if code.length < ip + 1 + n then code.drop (ip + 1) ++ List.replicate n 0
  else (code.drop (ip + 1)).take n

def opPush (n : Nat) : Instruction := fun env => do
  let i ← ip
  push (ofBytes (immediate env.msg.code i.toNat n))
  setIp (i + n)

def opDup (n : Nat) : Instruction := fun _ => do
  if ← stackAtLeast n then push (← peekAt n) else exit .stackUnderflow

def opSwap (n : Nat) : Instruction := fun _ => do
  if ← stackAtLeast (n + 1) then swap n else exit .stackUnderflow

def popTopics : Nat → Prog (List Hash)
  | 0 => pure []
  | size + 1 => do
    let topic ← popHash
    return topic :: (← popTopics size)

def opLog (n : Nat) : Instruction := fun env => do
  let size := n - 1
  if env.msg.static then exit .writeProtection
  else if ← stackAtLeast (2 + size) then
    let mStart ← popWord
    let mSize ← popWord
    let topics ← popTopics size
    if ← getTmp mStart mSize then
      host (.emitLog env.msg.address topics (← tmp))
      -- the log is paid after it was emitted
      if ← consumeGas (size * 375 % 2 ^ 64) then
        let _ ← consumeGas (uint64 mSize * 8 % 2 ^ 64)
  else exit .stackUnderflow

def opStop : Instruction := fun _ => halt

abbrev OpCode := UInt8

namespace OpCode

def create : OpCode := 0xf0

def call : OpCode := 0xf1

def callCode : OpCode := 0xf2

def ret : OpCode := 0xf3

def delegateCall : OpCode := 0xf4

def create2 : OpCode := 0xf5

def staticCall : OpCode := 0xfa

def revert : OpCode := 0xfd

end OpCode

inductive Built where
  | stopped
  | bad (contract : Option Contract)
  | ready (contract : Contract) (offset size : Nat)

def callsNewAccount (env : Env) (op : OpCode) (transfersValue : Bool) (addr : Address) :
    Prog Bool := do
  if op = OpCode.call then
    if env.config.eip158 then
      if transfersValue then host (.empty addr) else return false
    else return !(← host (.accountExists addr))
  else return false

def callGas (env : Env) (op : OpCode) (transfersValue : Bool) (addr : Address) : Prog Nat := do
  let gasCost := if env.config.eip150 then 700 else 40
  let gasCost := if ← callsNewAccount env op transfersValue addr then gasCost + 25000 else gasCost
  return if transfersValue then gasCost + 9000 else gasCost

def passedGas (env : Env) (initialGas : Int) (gas gasCost : Nat) : Option Nat :=
  if env.config.eip150 then
    let availableGas := sub64 gas gasCost
    let availableGas := availableGas - availableGas / 64
    if !isUint64 initialGas || availableGas < uint64 initialGas then some availableGas
    else some (uint64 initialGas)
  else if isUint64 initialGas then some (uint64 initialGas)
  else none

def callContract (env : Env) (op : OpCode) (addr : Address) (value : Option Int) (gas : Nat)
    (code input : Bytes) : Contract :=
  let c := Contract.newContractCall (env.msg.depth + 1) env.msg.origin env.msg.address addr value gas
    code input
  let c := if op = OpCode.staticCall || env.msg.static then { c with static := true } else c
  let c :=
    if op = OpCode.callCode || op = OpCode.delegateCall then { c with address := env.msg.address }
    else c
  if op = OpCode.delegateCall then { c with value := env.msg.value, caller := env.msg.caller } else c

def popValue (op : OpCode) : Prog (Option Int) := do
  if op = OpCode.call || op = OpCode.callCode then return some (← popWord) else return none

def buildCallContract (env : Env) (op : OpCode) : Prog Built := do
  let initialGas ← popWord
  let addr ← popAddr
  let value ← popValue op
  let inOffset ← popWord
  let inSize ← popWord
  let retOffset ← popWord
  let retSize ← popWord
  match ← get2 inOffset inSize with
  | none => return .stopped
  | some args =>
    if ← allocateMemory retOffset retSize then
      let transfersValue := value.getD 0 ≠ 0
      let gasCost ← callGas env op transfersValue addr
      match passedGas env initialGas (← gas) gasCost with
      | none =>
        exit .outOfGas
        return .stopped
      | some passed =>
        if ← consumeGas ((gasCost + passed) % 2 ^ 64) then
          let passed := if transfersValue then (passed + 2300) % 2 ^ 64 else passed
          let code ← host (.getCode addr)
          let contract := callContract env op addr value passed code args
          if transfersValue then
            if (← host (.getBalance env.msg.address)) < value.getD 0 then
              return .bad (some contract)
            else return .ready contract (uint64 retOffset) (uint64 retSize)
          else return .ready contract (uint64 retOffset) (uint64 retSize)
        else return .stopped
    else return .stopped

def callType (op : OpCode) : Option CallType :=
  if op = OpCode.call then some .call
  else if op = OpCode.callCode then some .callCode
  else if op = OpCode.delegateCall then some .delegateCall
  else if op = OpCode.staticCall then some .staticCall
  else none

def returned (offset size : Nat) (result : Runtime.ExecutionResult) : Prog Unit := do
  push (if result.succeeded then 1 else 0)
  if (result.succeeded || result.reverted) && result.returnValue.length ≠ 0 then
    copySlice offset ((offset + size) % 2 ^ 64) result.returnValue
  addGas result.gasLeft
  setReturnData result.returnValue

def giveBack (contract : Option Contract) : Prog Unit :=
  match contract with
  | some contract => addGas contract.gas
  | none => pure ()

def writesInStatic (env : Env) (op : OpCode) : Prog Bool := do
  if op = OpCode.call && env.msg.static then return 0 < bitLen (← peekAt 3) else return false

def opCall (op : OpCode) : Instruction := fun env => do
  setReturnData []
  if ← writesInStatic env op then exit .writeProtection
  else if op = OpCode.delegateCall && !env.config.homestead then exit .opCodeNotFound
  else if op = OpCode.staticCall && !env.config.byzantium then exit .opCodeNotFound
  else
    match callType op with
    | none => panic (.explicit "not expected")
    | some type =>
      match ← buildCallContract env op with
      | .stopped => pure ()
      | .bad contract =>
        push 0
        giveBack contract
      | .ready contract offset size =>
        let result ← callx { contract with type := type }
        returned offset size result

section Creation

variable [Keccak]

def opSha3 : Instruction := fun _ => do
  let offset ← popWord
  let length ← popWord
  if ← getTmp offset length then
    if ← consumeGas (wordGas (uint64 length) sha3WordGas) then
      setTmp (keccak256 (← tmp)).toBytes
      push (ofBytes (← tmp))

def newAddress (env : Env) (op : OpCode) (salt : Option Int) (input : Bytes) : Prog Address := do
  if op = OpCode.create then
    return createAddress env.msg.address (← host (.getNonce env.msg.address))
  else return createAddress2 env.msg.address (toHash (← deref salt)) input

def lacksValue (env : Env) (value : Int) : Prog Bool := do
  if value ≠ 0 then return (← host (.getBalance env.msg.address)) < value else return false

def buildCreateContract (env : Env) (op : OpCode) : Prog Built := do
  let value ← popWord
  let offset ← popWord
  let length ← popWord
  let salt ← if op = OpCode.create2 then pop else pure none
  match ← get2 offset length with
  | none => return .stopped
  | some input =>
    if ← lacksValue env value then return .bad none
    else if ← (if op = OpCode.create2 then consumeGas (wordGas (uint64 length) sha3WordGas)
        else pure true) then
      let available ← gas
      let passed :=
        if env.config.eip150 || op = OpCode.create2 then available - available / 64 else available
      if ← consumeGas passed then
        let address ← newAddress env op salt input
        return .ready (Contract.newContractCreation (env.msg.depth + 1) env.msg.origin
          env.msg.address address (some value) passed input) 0 0
      else return .stopped
    else return .stopped

def created (env : Env) (op : OpCode) (address : Address) (result : Runtime.ExecutionResult) :
    Prog Unit := do
  if op = OpCode.create && env.config.homestead && result.err = some .codeStoreOutOfGas then push 0
  else if result.failed && result.err ≠ some .codeStoreOutOfGas then push 0
  else push (ofBytes address.toBytes)
  addGas result.gasLeft
  if result.reverted then setReturnData result.returnValue

def opCreate (op : OpCode) : Instruction := fun env => do
  if env.msg.static then exit .writeProtection
  else if op = OpCode.create2 && !env.config.constantinople then exit .opCodeNotFound
  else
    setReturnData []
    match ← buildCreateContract env op with
    | .stopped => pure ()
    | .bad contract =>
      push 0
      giveBack contract
    | .ready contract _ _ =>
      let result ← callx { contract with type := .create }
      created env op contract.address result

end Creation

def opHalt (op : OpCode) : Instruction := fun env => do
  if op = OpCode.revert && !env.config.byzantium then exit .opCodeNotFound
  else
    let offset ← popWord
    let size ← popWord
    match ← get2 offset size with
    | none => setRet []
    | some b =>
      setRet b
      if op = OpCode.revert then exit .executionReverted else halt

structure Handler where
  inst : Instruction
  stack : Nat
  gas : Nat

def registerRange (start : OpCode) (count : Nat) (factory : Nat → Instruction) (gas : Nat) :
    List (OpCode × Handler) :=
  (List.range count).map fun i => (start + UInt8.ofNat i, ⟨factory (i + 1), 0, gas⟩)

variable [Keccak]

def registered : List (OpCode × Handler) :=
  [(0x00, ⟨opStop, 0, 0⟩), (0x01, ⟨opAdd, 2, 3⟩), (0x03, ⟨opSub, 2, 3⟩), (0x02, ⟨opMul, 2, 5⟩),
    (0x04, ⟨opDiv, 2, 5⟩), (0x05, ⟨opSDiv, 2, 5⟩), (0x06, ⟨opMod, 2, 5⟩), (0x07, ⟨opSMod, 2, 5⟩),
    (0x0a, ⟨opExp, 2, 10⟩)]
  ++ registerRange 0x60 32 opPush 3 ++ registerRange 0x80 16 opDup 3
  ++ registerRange 0x90 16 opSwap 3 ++ registerRange 0xa0 5 opLog 375
  ++ [(0x08, ⟨opAddMod, 3, 8⟩), (0x09, ⟨opMulMod, 3, 8⟩),
    (0x16, ⟨opAnd, 2, 3⟩), (0x17, ⟨opOr, 2, 3⟩), (0x18, ⟨opXor, 2, 3⟩), (0x1a, ⟨opByte, 2, 3⟩),
    (0x19, ⟨opNot, 1, 3⟩), (0x15, ⟨opIsZero, 1, 3⟩),
    (0x14, ⟨opEq, 2, 3⟩), (0x10, ⟨opLt, 2, 3⟩), (0x11, ⟨opGt, 2, 3⟩), (0x12, ⟨opSlt, 2, 3⟩),
    (0x13, ⟨opSgt, 2, 3⟩),
    (0x0b, ⟨opSignExtension, 1, 5⟩),
    (0x1b, ⟨opShl, 2, 3⟩), (0x1c, ⟨opShr, 2, 3⟩), (0x1d, ⟨opSar, 2, 3⟩),
    (OpCode.create, ⟨opCreate OpCode.create, 3, 32000⟩),
    (OpCode.create2, ⟨opCreate OpCode.create2, 4, 32000⟩),
    (OpCode.call, ⟨opCall OpCode.call, 7, 0⟩), (OpCode.callCode, ⟨opCall OpCode.callCode, 7, 0⟩),
    (OpCode.delegateCall, ⟨opCall OpCode.delegateCall, 6, 0⟩),
    (OpCode.staticCall, ⟨opCall OpCode.staticCall, 6, 0⟩),
    (OpCode.revert, ⟨opHalt OpCode.revert, 2, 0⟩), (OpCode.ret, ⟨opHalt OpCode.ret, 2, 0⟩),
    -- memory
    (0x51, ⟨opMload, 1, 3⟩), (0x52, ⟨opMStore, 2, 3⟩), (0x53, ⟨opMStore8, 2, 3⟩),
    -- store
    (0x54, ⟨opSload, 1, 0⟩), (0x55, ⟨opSStore, 2, 0⟩), (0x20, ⟨opSha3, 2, 30⟩),
    (0x50, ⟨opPop, 1, 2⟩), (0x3f, ⟨opExtCodeHash, 1, 0⟩),
    -- context operations
    (0x30, ⟨opAddress, 0, 2⟩), (0x31, ⟨opBalance, 1, 0⟩), (0x47, ⟨opSelfBalance, 0, 5⟩),
    (0x32, ⟨opOrigin, 0, 2⟩), (0x33, ⟨opCaller, 0, 2⟩), (0x34, ⟨opCallValue, 0, 2⟩),
    (0x35, ⟨opCallDataLoad, 1, 3⟩), (0x36, ⟨opCallDataSize, 0, 2⟩), (0x38, ⟨opCodeSize, 0, 2⟩),
    (0x3b, ⟨opExtCodeSize, 1, 0⟩), (0x3a, ⟨opGasPrice, 0, 2⟩), (0x3d, ⟨opReturnDataSize, 0, 2⟩),
    (0x46, ⟨opChainID, 0, 2⟩), (0x58, ⟨opPC, 0, 2⟩), (0x59, ⟨opMSize, 0, 2⟩), (0x5a, ⟨opGas, 0, 2⟩),
    (0x3c, ⟨opExtCodeCopy, 4, 0⟩), (0x37, ⟨opCallDataCopy, 3, 3⟩),
    (0x3e, ⟨opReturnDataCopy, 3, 3⟩), (0x39, ⟨opCodeCopy, 3, 3⟩),
    -- block information
    (0x40, ⟨opBlockHash, 1, 20⟩), (0x41, ⟨opCoinbase, 0, 2⟩), (0x42, ⟨opTimestamp, 0, 2⟩),
    (0x43, ⟨opNumber, 0, 2⟩), (0x44, ⟨opDifficulty, 0, 2⟩), (0x45, ⟨opGasLimit, 0, 2⟩),
    (0xff, ⟨opSelfDestruct, 1, 0⟩),
    -- jumps
    (0x56, ⟨opJump, 1, 8⟩), (0x57, ⟨opJumpi, 2, 10⟩), (0x5b, ⟨opJumpDest, 0, 1⟩)]

def dispatchTable (op : OpCode) : Option Handler := registered.lookup op

end Nxchain.Evm
