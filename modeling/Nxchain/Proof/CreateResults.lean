import Nxchain.Proof.CallGas

namespace Nxchain.Evm

open Prog Word
open Program (Follows follows_of_run follows_run remembering)

section Results

variable [SliceGrowth] [Keccak] {env : Env} {op : OpCode} {s : State} {path : Path}

omit [SliceGrowth] [Keccak] in
theorem createdWord_eq_iff {address : Address} {result : Runtime.ExecutionResult}
    (hhomestead : env.config.homestead = true) :
    createdWord env op address result = (if result.succeeded then ofBytes address.toBytes else 0) ↔
      op = OpCode.create ∨ result.err ≠ some .codeStoreOutOfGas ∨ ofBytes address.toBytes = 0 := by
  unfold createdWord Runtime.ExecutionResult.failed Runtime.ExecutionResult.succeeded
  rw [hhomestead]
  cases herr : result.err with
  | none => simp
  | some err =>
    by_cases hstore : err = .codeStoreOutOfGas
    · by_cases hop : op = OpCode.create
      · simp [hop, hstore]
      · simp [hop, hstore]
    · simp [hstore]

inductive CreateBuilt (rest : List Int) : Built → State → Prop
  | stopped {s : State} : Failed s → CreateBuilt rest .stopped s
  | bad {s : State} : s.stack = rest → CreateBuilt rest (.bad none) s
  | ready {s : State} {contract : Contract} : s.stack = rest → CreateBuilt rest (.ready contract 0 0) s

def createOperands (op : OpCode) : Nat := if op = OpCode.create2 then 4 else 3

theorem opCreate_ends {result : Except Fault (Unit × State)} (hop : op = OpCode.create ∨ op = OpCode.create2)
    (hlength : createOperands op ≤ s.stack.length) (h : Follows Action.exec (opCreate op env) s path result) :
    ∃ s', result = .ok ((), s') ∧
      ((∀ c result, ⟨.callx c, result⟩ ∉ path) → Failed s' ∨ s'.stack = 0 :: s.stack.drop (createOperands op)) ∧
      ∀ c result, ⟨.callx c, result⟩ ∈ path → c.type = .create ∧
        s'.stack = createdWord env op c.address result :: s.stack.drop (createOperands op) := by
  have hrefused : ∀ {err : Runtime.Error}, Follows Action.exec (exit err) s path result →
      ∃ s', result = .ok ((), s') ∧ (∀ c result, ⟨.callx c, result⟩ ∉ path) ∧ Failed s' := by
    intro err hexit
    have hfails : Keeps env (safeTerms s) (exit err) (fun _ s' => Failed s') s := keeps_exit.mpr ⟨rfl, rfl⟩
    obtain ⟨hcalls, _, s', hok, hfailed⟩ := follows_keeps hfails hexit
    exact ⟨s', hok, hcalls, hfailed⟩
  unfold opCreate at h
  split at h
  · obtain ⟨s', hok, hcalls, hfailed⟩ := hrefused h
    exact ⟨s', hok, fun _ => .inl hfailed, fun c result hcall => absurd hcall (hcalls c result)⟩
  split at h
  · obtain ⟨s', hok, hcalls, hfailed⟩ := hrefused h
    exact ⟨s', hok, fun _ => .inl hfailed, fun c result hcall => absurd hcall (hcalls c result)⟩
  have hreset : Keeps env (safeTerms s) (setReturnData []) (fun _ s' => s' = { s with returnData := [] }) s :=
    keeps_setReturnData.mpr rfl
  obtain ⟨path₁, path₂, _, s₁, rfl, hcalls₁, rfl, hbuilds⟩ := follows_behind hreset h
  have hbuilder : Keeps env (safeTerms { s with returnData := [] }) (buildCreateContract env op)
      (CreateBuilt (s.stack.drop (createOperands op))) { s with returnData := [] } := by
    refine keeps_buildCreateContract hop hlength ?_ ?_ ?_
    · exact fun s' hstopped => .stopped hstopped.failed
    · exact fun s' _ hrest => .bad hrest
    · exact fun contract s' _ hrest _ => .ready hrest
  obtain ⟨path₃, path₄, built, s₂, rfl, hcalls₃, hbuilt, hcreates⟩ := follows_behind hbuilder hbuilds
  cases hbuilt with
  | stopped hfailed =>
    cases hcreates
    exact ⟨_, rfl, fun _ => .inl hfailed, by simp [hcalls₁, hcalls₃]⟩
  | bad hrest =>
    have hzero : Keeps env (safeTerms s₂) (push 0) (fun _ s' => s'.stack = 0 :: s₂.stack) s₂ := keeps_push.mpr rfl
    obtain ⟨path₅, path₆, _, s₃, rfl, hcalls₅, hstack, hdone⟩ := follows_behind hzero hcreates
    cases hdone
    exact ⟨_, rfl, fun _ => .inr (by rw [hstack, hrest]), by simp [hcalls₁, hcalls₃, hcalls₅]⟩
  | @ready _ contract hrest =>
    cases hcreates with
    | ask result hcreated =>
      have hword : Keeps env (safeTerms s₂) (created env op contract.address result)
          (fun _ s' => s'.stack = createdWord env op contract.address result :: s₂.stack) s₂ :=
        keeps_created fun _ _ => rfl
      obtain ⟨hcalls₅, _, s', hok, hstack⟩ := follows_keeps hword hcreated
      refine ⟨s', hok, fun hnone => absurd ?_ (hnone { contract with type := .create } result), ?_⟩
      · simp
      · intro c result' hcall
        simp only [List.mem_append, List.mem_cons, hcalls₁, hcalls₃, hcalls₅, false_or, or_false] at hcall
        cases hcall
        exact ⟨rfl, by rw [hstack, hrest]⟩

def Runtimes.create (rt : Runtimes) (host : HostEnv) (fuel : Nat) (c : Contract) (w : World) :
    Run (Runtime.ExecutionResult × World) := do
  let ((result, txn), acquired) ←
    w.txn.applyCreate host.config (Runtimes.enter (rt.run host (rt.callx host fuel) fuel c)) c w.acquired
  return (result, ⟨txn, acquired⟩)

theorem Runtimes.callx_of_create {rt : Runtimes} {host : HostEnv} {fuel : Nat} {c : Contract} {w : World}
    (h : c.type = .create) : rt.callx host (fuel + 1) c w = rt.create host fuel c w := by
  rw [callx, create, Txn.callx, if_pos h]

structure Reports (op : OpCode) (s s' : State) (path : Path) : Prop where
  unframed : (∀ c result, ⟨.callx c, result⟩ ∉ path) →
    Failed s' ∨ s'.stack = 0 :: s.stack.drop (createOperands op)
  framed : ∀ c result, ⟨.callx c, result⟩ ∈ path →
    (s'.stack = (if result.succeeded then ofBytes c.address.toBytes else 0) ::
        s.stack.drop (createOperands op) ↔
      op = OpCode.create ∨ result.err ≠ some .codeStoreOutOfGas ∨ ofBytes c.address.toBytes = 0)

theorem reports_of_follows {result : Except Fault (Unit × State)}
    (hop : op = OpCode.create ∨ op = OpCode.create2) (hhomestead : env.config.homestead = true)
    (hlength : createOperands op ≤ s.stack.length)
    (h : Follows Action.exec (opCreate op env) s path result) :
    ∃ s', result = .ok ((), s') ∧ Reports op s s' path ∧
      ∀ c result, ⟨.callx c, result⟩ ∈ path → c.type = .create := by
  obtain ⟨s', hok, hnone, hcalled⟩ := opCreate_ends hop hlength h
  refine ⟨s', hok, ⟨hnone, fun c result hcall => ?_⟩, fun c result hcall => (hcalled c result hcall).1⟩
  rw [(hcalled c result hcall).2, List.cons.injEq, and_iff_left rfl]
  exact createdWord_eq_iff hhomestead

theorem creation_reports_failure_iff (hop : op = OpCode.create ∨ op = OpCode.create2)
    (hhomestead : env.config.homestead = true) (hlength : createOperands op ≤ s.stack.length) :
    (∀ answer : (request : Request) → Path → request.Answer, ∃ s' path,
      runInstruction answer (opCreate op env) s = .ok ((), s', path) ∧ Reports op s s' path) ∧
    ∀ (rt : Runtimes) (host : HostEnv) (fuel : Nat) (w w' : World) (s' : State) (path : Path),
      ((opCreate op env).run Action.exec (remembering (serve host (rt.callx host (fuel + 1)))) s
        (w, [])).outcome = .ok ((), s', (w', path)) →
      Reports op s s' path ∧ ∀ c result, ⟨.callx c, result⟩ ∈ path →
        ∃ w₁ w₂, (rt.create host fuel c w₁).outcome = .ok (result, w₂) := by
  constructor
  · intro answer
    obtain ⟨path, result, hfollows, hrun⟩ := follows_run (β := Event) answer (opCreate op env) s []
    obtain ⟨s', rfl, hreports, _⟩ := reports_of_follows hop hhomestead hlength hfollows
    exact ⟨s', path, hrun, hreports⟩
  · intro rt host fuel w w' s' path hrun
    obtain ⟨_, rfl, hfollows, hserved⟩ := follows_of_run hrun
    obtain ⟨_, hok, hreports, htype⟩ := reports_of_follows hop hhomestead hlength hfollows
    cases hok
    refine ⟨hreports, fun c result hcall => ?_⟩
    obtain ⟨w₁, w₂, hcreated⟩ := hserved _ hcall
    refine ⟨w₁, w₂, ?_⟩
    rw [← Runtimes.callx_of_create (htype c result hcall)]
    exact hcreated

end Results

section Sample

local instance createKeccak : Keccak := sampleKeccak

local instance createGrowth : SliceGrowth := ⟨fun _ _ => 0⟩

def creatingState (stack : List Int) : State :=
  { State.new with stack := stack, gas := 1000, memory := ⟨[0x60, 0x20, 0x60, 0x00, 0xf3], []⟩ }

def creationRun (op : OpCode) (stack : List Int) : Run (Unit × State × World × Path) :=
  (opCreate op copyEnv).run Action.exec (remembering (serve sampleEnv (echoRuntimes.callx sampleEnv 12)))
    (creatingState stack) (⟨Txn.newTxn richSnapshot, 0⟩, [])

def callErrors (path : Path) : List (Option Runtime.Error) :=
  path.filterMap fun
    | ⟨.callx _, result⟩ => some result.err
    | ⟨.host _, _⟩ => none

theorem creation_reports_failure_iff_unpaidCode : ∃ s' w' path,
    (creationRun OpCode.create [0, 0, 5]).outcome = .ok ((), s', (w', path)) ∧
      callErrors path = [some .codeStoreOutOfGas] ∧
      ∀ c result, ⟨.callx c, result⟩ ∈ path →
        s'.stack = [if result.succeeded then ofBytes c.address.toBytes else 0] := by
  have hends : (creationRun OpCode.create [0, 0, 5]).outcome.map (fun r => callErrors r.2.2.2) =
      .ok [some .codeStoreOutOfGas] := by decide +kernel
  cases hrun : (creationRun OpCode.create [0, 0, 5]).outcome with
  | error e =>
    rw [hrun] at hends
    cases hends
  | ok r =>
    obtain ⟨_, s', w', path⟩ := r
    rw [hrun] at hends
    refine ⟨s', w', path, rfl, Except.ok.inj hends, fun c result hcall => ?_⟩
    have hreports := (creation_reports_failure_iff (.inl rfl) rfl (by decide)).2 echoRuntimes
      sampleEnv 11 _ w' s' path hrun
    exact (hreports.1.framed c result hcall).mpr (.inl rfl)

theorem unpaid_code_looks_created :
    (creationRun OpCode.create2 [0, 0, 5, 7]).outcome.map (fun r => (r.2.1.stack, callErrors r.2.2.2)) =
      .ok ([1512371650803], [some .codeStoreOutOfGas]) := by
  decide +kernel

end Sample

end Nxchain.Evm
