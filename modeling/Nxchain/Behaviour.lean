import Nxchain.Executor
import Nxchain.Host

namespace Nxchain

inductive Behaviour where
  | done (result : Runtime.ExecutionResult)
  | host (call : HostCall) (k : call.Response → Behaviour)
  | callx (c : Contract) (child : Behaviour) (k : Runtime.ExecutionResult → Behaviour)

namespace Behaviour

def Bounded : Behaviour → Nat → Prop
  | done result, gas => result.gasLeft ≤ gas
  | host _ k, gas => ∀ response, (k response).Bounded gas
  | callx c child k, gas => child.Bounded c.gas ∧ ∀ result, (k result).Bounded gas

def PassesNoDebt : Behaviour → Prop
  | done _ => True
  | host _ k => ∀ response, (k response).PassesNoDebt
  | callx c child k =>
    (∀ v ∈ c.value, 0 ≤ v) ∧ child.PassesNoDebt ∧ ∀ result, (k result).PassesNoDebt

variable [Keccak]

abbrev Recording := StateM (List HostCall)

def exec (env : HostEnv) : Behaviour → Txn → Recording (Runtime.ExecutionResult × Txn)
  | done result, t => pure (result, t)
  | host call k, t => do
    modify (· ++ [call])
    exec env (k (t.answer env call).1) (t.answer env call).2
  | callx c child k, t => do
    let (result, t) ← t.callx env.config (fun t => exec env child t) c
    exec env (k result) t

def run (env : HostEnv) (b : Behaviour) (t : Txn) (calls : List HostCall) :
    (Runtime.ExecutionResult × Txn) × List HostCall :=
  (b.exec env t).run calls

def call (env : HostEnv) (b : Behaviour) (c : Contract) (t : Txn) (calls : List HostCall) :
    (Runtime.ExecutionResult × Txn) × List HostCall :=
  (t.callx env.config (fun t => b.exec env t) c).run calls

end Behaviour

end Nxchain
