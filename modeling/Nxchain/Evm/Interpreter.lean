import Nxchain.Evm.Instructions

namespace Nxchain.Evm

open Prog

variable [SliceGrowth]

def stackLimit : Nat := 1024

def currentOpCode (env : Env) (i : Int) : Except Panic (Option OpCode) :=
  if env.msg.code.length ≤ i then .ok none
  else if i < 0 then .error .indexOutOfRange
  else .ok env.msg.code[i.toNat]?

variable [Keccak]

def dispatch (env : Env) (handler : Handler) : Prog Unit := do
  if ← stackAtLeast handler.stack then
    if ← consumeGas handler.gas then
      handler.inst env
      if stackLimit < (← stackSize) then exit .stackOverflow
      else setIp ((← ip) + 1)
  else exit .stackUnderflow

def step (env : Env) : Prog Unit := do
  match ← ofExcept (currentOpCode env (← ip)) with
  | none => halt
  | some op =>
    match dispatchTable op with
    | none => exit .opCodeNotFound
    | some handler => dispatch env handler

inductive Event where
  | step (msg : Contract) (state : State)
  | precompile (c : Contract)

abbrev Run := Traced Event Fault

def loop {τ : Type} (serve : (request : Request) → τ → Run (request.Answer × τ)) (env : Env) :
    Nat → State → τ → Run (State × τ)
  | 0, _, _ => .ofExcept (.error .outOfFuel)
  | fuel + 1, s, t =>
    if s.stop then pure (s, t)
    else do
      Traced.emit (.step env.msg s)
      let (_, s, t) ← (step env).run Action.exec serve s t
      loop serve env fuel s t

def State.start (s : State) (c : Contract) : State :=
  { s with returnData := [], gas := c.gas, bitmap := Bitmap.setCode s.bitmap c.code }

def State.result (s : State) : Runtime.ExecutionResult where
  returnValue := s.ret
  gasLeft := if s.err.isSome && s.err ≠ some .executionReverted then 0 else s.gas
  err := s.err

def runOn {τ : Type} (serve : (request : Request) → τ → Run (request.Answer × τ))
    (config : ForksInTime) (fuel : Nat) (s : State) (c : Contract) (t : τ) :
    Run (Runtime.ExecutionResult × State × τ) := do
  let (s, t) ← loop serve ⟨c, config⟩ fuel (s.start c) t
  return (s.result, s.reset, t)

structure State.Released (s : State) : Prop where
  ip : s.ip = 0
  lastGasCost : s.lastGasCost = 0
  stack : s.stack = []
  unused : s.unused = []
  err : s.err = none
  stop : s.stop = false
  tmp : s.tmp = []
  ret : s.ret = []
  memory : s.memory.bytes = []
  memory_rest : ∀ b ∈ s.memory.rest, b = 0
  bitmap : s.bitmap.bytes = []
  bitmap_rest : ∀ b ∈ s.bitmap.rest, b = 0

abbrev PooledState := { s : State // s.Released }

structure Precompile where
  gas : Bytes → ForksInTime → Nat
  run : Bytes → Except Panic (Except Runtime.Error Bytes)

def precompileAt (addr : Address) : Option (Fin 9) :=
  (List.finRange 9).find? fun i => addr = FixedBytes.ofBytes 20 [UInt8.ofNat (i + 1)]

def canRun (config : ForksInTime) (i : Fin 9) : Bool :=
  if 4 ≤ i.val && i.val ≤ 7 then config.byzantium
  else if i.val = 8 then config.istanbul
  else true

def Precompile.result (p : Precompile) (config : ForksInTime) (c : Contract) :
    Except Fault Runtime.ExecutionResult :=
  let gasCost := p.gas c.input config
  if c.gas < gasCost then .ok ⟨[], 0, some .outOfGas⟩
  else
    match p.run c.input with
    | .error crash => .error (.panic crash)
    | .ok (.error err) => .ok ⟨[], 0, some err⟩
    | .ok (.ok b) => .ok ⟨b, c.gas - gasCost, none⟩

structure World where
  txn : Txn
  acquired : Nat

structure Runtimes where
  precompiled : Fin 9 → Precompile
  acquireState : Nat → PooledState

def serve (env : HostEnv) (callx : Contract → World → Run (Runtime.ExecutionResult × World)) :
    (request : Request) → World → Run (request.Answer × World)
  | .host call, w =>
    let (answer, txn) := w.txn.answer env call
    pure (answer, { w with txn := txn })
  | .callx c, w => callx c w

def Runtimes.run (rt : Runtimes) (env : HostEnv)
    (callx : Contract → World → Run (Runtime.ExecutionResult × World)) (fuel : Nat) (c : Contract)
    (w : World) : Run (Runtime.ExecutionResult × World) :=
  match (precompileAt c.codeAddress).filter (canRun env.config) with
  | some i => do
    Traced.emit (.precompile c)
    let result ← Traced.ofExcept ((rt.precompiled i).result env.config c)
    return (result, w)
  | none => do
    let (result, _, w) ← runOn (serve env callx) env.config fuel (rt.acquireState w.acquired).val c
      { w with acquired := w.acquired + 1 }
    return (result, w)

def Runtimes.enter (run : World → Run (Runtime.ExecutionResult × World)) (txn : Txn) :
    StateT Nat Run (Runtime.ExecutionResult × Txn) := fun acquired => do
  let (result, w) ← run ⟨txn, acquired⟩
  return ((result, w.txn), w.acquired)

def Runtimes.callx (rt : Runtimes) (env : HostEnv) :
    Nat → Contract → World → Run (Runtime.ExecutionResult × World)
  | 0, _, _ => .ofExcept (.error .outOfFuel)
  | fuel + 1, c, w => do
    let ((result, txn), acquired) ←
      w.txn.callx env.config (Runtimes.enter (rt.run env (rt.callx env fuel) fuel c)) c w.acquired
    return (result, ⟨txn, acquired⟩)

end Nxchain.Evm
