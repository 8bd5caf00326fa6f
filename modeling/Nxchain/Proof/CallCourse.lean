import Nxchain.Proof.RecycledState

namespace Nxchain.Evm

open Prog Word
open Program (Follows Asks follows_run replying)

section Courses

variable [SliceGrowth] {env : Env} {s : State}

def safeTerms (s : State) : Terms := ⟨s.gas, False, False, False, False, False⟩

abbrev Path := List ((request : Request) × request.Answer)

theorem follows_keeps {α : Type} {p : Prog α} {post : α → State → Prop} {path : Path}
    {result : Except Fault (α × State)} (h : Keeps env (safeTerms s) p post s)
    (hfollows : Follows Action.exec p s path result) :
    (∀ c answer, ⟨.callx c, answer⟩ ∉ path) ∧ ∃ a s', result = .ok (a, s') ∧ post a s' := by
  have hpath : ∀ call ∈ path, Request.Returns (safeTerms s) call.1 call.2 := by
    rintro ⟨request, answer⟩ _
    cases request with
    | host call => exact trivial
    | callx c => exact False.elim
  obtain ⟨hallowed, hmeets⟩ := hfollows.of_wp h hpath
  refine ⟨fun c answer hcall => (hallowed _ hcall).1, ?_⟩
  cases result with
  | ok out => exact ⟨out.1, out.2, rfl, hmeets⟩
  | error e => exact (hmeets.2.elim id id).elim

def runInstruction (answer : (request : Request) → Path → request.Answer) (p : Prog Unit) (s : State) :
    Except Fault (Unit × State × Path) :=
  (p.run Action.exec (replying (β := Event) answer) s []).outcome

theorem runInstruction_of_keeps (answer : (request : Request) → Path → request.Answer) {p : Prog Unit}
    {post : Unit → State → Prop} (h : Keeps env (safeTerms s) p post s) :
    ∃ s' path, runInstruction answer p s = .ok ((), s', path) ∧ post () s' := by
  obtain ⟨path, result, hfollows, hrun⟩ := follows_run (β := Event) answer p s []
  obtain ⟨_, _, s', rfl, hpost⟩ := follows_keeps h hfollows
  exact ⟨s', path, hrun, hpost⟩

variable {path : Path} {result : Except Fault (Unit × State)}

theorem post_of_runInstruction {answer : (request : Request) → Path → request.Answer} {p : Prog Unit}
    {terms : Terms} {post : Unit → State → Prop} {s' : State} (hmetered : ¬ terms.metered)
    (h : Keeps env terms p post s) (hrun : runInstruction answer p s = .ok ((), s', path)) :
    post () s' := by
  refine Program.post_of_run (fun request answer => ?_) h hrun
  cases request with
  | host call => exact trivial
  | callx c => exact fun hm => absurd hm hmetered

theorem follows_behind {α β : Type} {p : Prog α} {f : α → Prog β} {post : α → State → Prop}
    {result : Except Fault (β × State)} (h : Keeps env (safeTerms s) p post s)
    (hfollows : Follows Action.exec (p >>= f) s path result) :
    ∃ path₁ path₂ a s₁, path = path₁ ++ path₂ ∧ (∀ c answer, ⟨.callx c, answer⟩ ∉ path₁) ∧ post a s₁ ∧
      Follows Action.exec (f a) s₁ path₂ result := by
  rcases hfollows.bind_inv with ⟨e, rfl, herror⟩ | ⟨path₁, path₂, a, s₁, rfl, hfirst, hthen⟩
  · obtain ⟨_, _, _, hok, _⟩ := follows_keeps h herror
    cases hok
  · obtain ⟨hcalls, a', s', hok, hpost⟩ := follows_keeps h hfirst
    cases hok
    exact ⟨path₁, path₂, a, s₁, rfl, hcalls, hpost, hthen⟩

def Behind (path left : Path) : Prop :=
  ∃ before, path = before ++ left ∧ ∀ c answer, ⟨.callx c, answer⟩ ∉ before

structure PassesOn (env : Env) (course : Prog Unit → State → Path → Prop) : Prop where
  behind : ∀ {α : Type} {p : Prog α} {f : α → Prog Unit} {post : α → State → Prop} {s : State} {path : Path},
    Keeps env (safeTerms s) p post s → course (p >>= f) s path →
      ∃ left a s₁, Behind path left ∧ post a s₁ ∧ course (f a) s₁ left

omit [SliceGrowth] in
theorem Behind.trans {path left left' : Path} (h : Behind path left) (h' : Behind left left') :
    Behind path left' := by
  obtain ⟨before, rfl, hbefore⟩ := h
  obtain ⟨before', rfl, hbefore'⟩ := h'
  refine ⟨before ++ before', (List.append_assoc _ _ _).symm, fun c answer hmem => ?_⟩
  exact (List.mem_append.mp hmem).elim (hbefore c answer) (hbefore' c answer)

omit [SliceGrowth] in
theorem Behind.mem_iff {path left : Path} (h : Behind path left) {c : Contract} {answer : Runtime.ExecutionResult} :
    ⟨.callx c, answer⟩ ∈ path ↔ ⟨.callx c, answer⟩ ∈ left := by
  obtain ⟨before, rfl, hbefore⟩ := h
  exact ⟨fun hmem => (List.mem_append.mp hmem).resolve_left (hbefore c answer), List.mem_append_right _⟩

theorem passesOn_follows (result : Except Fault (Unit × State)) :
    PassesOn env fun p s path => Follows Action.exec p s path result := by
  refine ⟨fun hkeeps hfollows => ?_⟩
  obtain ⟨path₁, path₂, a, s₁, rfl, hcalls, hpost, hthen⟩ := follows_behind hkeeps hfollows
  exact ⟨path₂, a, s₁, ⟨path₁, rfl, hcalls⟩, hpost, hthen⟩

theorem passesOn_asks (c : Contract) (s' : State) :
    PassesOn env fun p s path => Asks Action.exec p s path (.callx c) s' := by
  refine ⟨fun hkeeps hasks => ?_⟩
  rcases hasks.bind_inv with hfirst | ⟨path₁, path₂, a, s₁, rfl, hfirst, hthen⟩
  · refine (hfirst.allowed hkeeps ?_).1.elim
    rintro ⟨request, answer⟩ _
    cases request with
    | host call => exact trivial
    | callx c => exact False.elim
  · obtain ⟨hcalls, a', s₂, hok, hpost⟩ := follows_keeps hkeeps hfirst
    cases hok
    exact ⟨path₂, a, s₁, ⟨path₁, rfl, hcalls⟩, hpost, hthen⟩

end Courses

def finishCall (type : CallType) : Built → Prog Unit
  | .stopped => pure ()
  | .bad contract => do
    push 0
    giveBack contract
  | .ready contract offset size => do
    let result ← callx { contract with type := type }
    returned offset size result

inductive Refused (env : Env) (op : OpCode) (args : CallOperands) : Runtime.Error → Prop
  | static : op = OpCode.call → env.msg.static = true → args.value.getD 0 ≠ 0 →
      Refused env op args .writeProtection
  | delegate : op = OpCode.delegateCall → env.config.homestead = false →
      Refused env op args .opCodeNotFound
  | staticCall : op = OpCode.staticCall → env.config.byzantium = false →
      Refused env op args .opCodeNotFound

section Calls

variable [SliceGrowth] {env : Env} {op : OpCode} {args : CallOperands} {rest : List Int} {s : State}
  {type : CallType} {path : Path} {result : Except Fault (Unit × State)}

theorem opCall_course {course : Prog Unit → State → Path → Prop} (hpasses : PassesOn env course)
    (htype : callType op = some type) (hvalue : args.value.isSome = takesValue op)
    (hstack : s.stack = args.push rest) (h : course (opCall op env) s path) :
    ∃ left, Behind path left ∧
      ((∃ err, Refused env op args err ∧ course (exit err) { s with returnData := [] } left) ∨
        (∀ err, ¬ Refused env op args err) ∧
          ∃ built s₁, CallBuilt env op args rest { s with returnData := [] } built s₁ ∧
            course (finishCall type built) s₁ left) := by
  have hreset : Keeps env (safeTerms s) (setReturnData [])
      (fun _ s' => s' = { s with returnData := [] }) s := keeps_setReturnData.mpr rfl
  obtain ⟨left₁, _, s₁, hcalls₁, rfl, hchecks⟩ := hpasses.behind hreset h
  have hstatic : Keeps env (safeTerms { s with returnData := [] }) (writesInStatic env op)
      (fun refused s' => s' = { s with returnData := [] } ∧
        (refused = true ↔ op = OpCode.call ∧ env.msg.static = true ∧ args.value.getD 0 ≠ 0))
      { s with returnData := [] } := by
    refine keeps_writesInStatic hvalue hstack ?_ ?_
    · exact fun hop hstatic htransfer => ⟨rfl, iff_of_true rfl ⟨hop, hstatic, htransfer⟩⟩
    · refine fun hzero => ⟨rfl, iff_of_false Bool.false_ne_true ?_⟩
      rintro ⟨hop, hstatic, htransfer⟩
      cases hv : args.value with
      | none => exact htransfer (by rw [hv]; rfl)
      | some v => exact htransfer (by rw [hv]; exact hzero hop hstatic v hv)
  obtain ⟨left₂, refused, s₂, hcalls₂, ⟨rfl, hrefused⟩, hbuilds⟩ := hpasses.behind hstatic hchecks
  have hcalls := hcalls₁.trans hcalls₂
  split at hbuilds
  · rename_i hwrites
    obtain ⟨hop, hstatic, htransfer⟩ := hrefused.mp hwrites
    exact ⟨left₂, hcalls, .inl ⟨_, .static hop hstatic htransfer, hbuilds⟩⟩
  rename_i hwrites
  split at hbuilds
  · rename_i hdelegate
    rw [Bool.and_eq_true, decide_eq_true_eq, Bool.not_eq_true'] at hdelegate
    exact ⟨left₂, hcalls, .inl ⟨_, .delegate hdelegate.1 hdelegate.2, hbuilds⟩⟩
  rename_i hdelegate
  split at hbuilds
  · rename_i hstaticCall
    rw [Bool.and_eq_true, decide_eq_true_eq, Bool.not_eq_true'] at hstaticCall
    exact ⟨left₂, hcalls, .inl ⟨_, .staticCall hstaticCall.1 hstaticCall.2, hbuilds⟩⟩
  rename_i hstaticCall
  rw [htype] at hbuilds
  have hbuilder : Keeps env (safeTerms { s with returnData := [] }) (buildCallContract env op)
      (CallBuilt env op args rest { s with returnData := [] }) { s with returnData := [] } :=
    keeps_callBuilt hvalue hstack
  obtain ⟨left₃, built, s₃, hcalls₃, hbuilt, hcall⟩ := hpasses.behind hbuilder hbuilds
  refine ⟨left₃, hcalls.trans hcalls₃, .inr ⟨fun err herr => ?_, built, s₃, hbuilt, ?_⟩⟩
  · cases herr with
    | static hop hstatic htransfer => exact hwrites (hrefused.mpr ⟨hop, hstatic, htransfer⟩)
    | delegate hop hfork => exact hdelegate (by rw [hop, hfork]; rfl)
    | staticCall hop hfork => exact hstaticCall (by rw [hop, hfork]; rfl)
  · cases built with
    | stopped => exact hcall
    | bad contract => exact hcall
    | ready contract offset size => exact hcall

omit [SliceGrowth] in
theorem length_copySlice {b memory : Slice} {lo hi : Nat} {data : Bytes} (h : b.copySlice lo hi data = .ok memory) :
    memory.bytes.length = b.bytes.length := by
  unfold Slice.copySlice at h
  split_ifs at h with hbounds
  obtain rfl := Except.ok.inj h
  have hfits : lo + (data.take (hi - lo)).length ≤ b.array.length := by
    have hcap : hi ≤ b.array.length := hbounds.2
    rw [List.length_take]
    omega
  rw [Slice.split, List.length_take_of_le]
  rw [Slice.length_overwrite hfits]
  exact length_le_cap b

def copiedResult (memory : Slice) (offset size : Nat) (result : Runtime.ExecutionResult) :
    Except Panic Slice :=
  if (result.succeeded || result.reverted) && result.returnValue.length ≠ 0 then
    memory.copySlice offset ((offset + size) % 2 ^ 64) result.returnValue
  else .ok memory

def State.settle (s : State) (result : Runtime.ExecutionResult) (memory : Slice) : State :=
  { s.push (if result.succeeded then 1 else 0) with
    memory := memory
    gas := (s.gas + result.gasLeft) % 2 ^ 64
    returnData := result.returnValue }

inductive CallEnd (type : CallType) (s : State) : Built → Path → Except Fault (Unit × State) → Prop
  | stopped : CallEnd type s .stopped [] (.ok ((), s))
  | bad (contract : Contract) :
      CallEnd type s (.bad (some contract)) []
        (.ok ((), { s.push 0 with gas := (s.gas + contract.gas) % 2 ^ 64 }))
  | called {contract : Contract} {offset size : Nat} {answer : Runtime.ExecutionResult}
      {memory : Slice} :
      copiedResult s.memory offset size answer = .ok memory →
      CallEnd type s (.ready contract offset size) [⟨.callx { contract with type := type }, answer⟩]
        (.ok ((), s.settle answer memory))
  | overreached {contract : Contract} {offset size : Nat} {answer : Runtime.ExecutionResult}
      {p : Panic} :
      copiedResult s.memory offset size answer = .error p →
      CallEnd type s (.ready contract offset size) [⟨.callx { contract with type := type }, answer⟩]
        (.error (.panic p))

omit [SliceGrowth] in
theorem copiedResult_length {memory memory' : Slice} {offset size : Nat}
    {answer : Runtime.ExecutionResult}
    (h : copiedResult memory offset size answer = .ok memory') :
    memory'.bytes.length = memory.bytes.length := by
  unfold copiedResult at h
  split at h
  · exact length_copySlice h
  · cases h
    rfl

theorem follows_settle {answer : Runtime.ExecutionResult} {word : Int} {memory : Slice}
    (h : Follows Action.exec (do addGas answer.gasLeft; setReturnData answer.returnValue)
      { s.push word with memory := memory } path result) :
    path = [] ∧ result = .ok ((), { s.push word with
      memory := memory
      gas := (s.gas + answer.gasLeft) % 2 ^ 64
      returnData := answer.returnValue }) := by
  have hdone := (h.of_act rfl).of_act rfl
  cases hdone
  exact ⟨rfl, rfl⟩

theorem callEnd_returned {contract : Contract} {offset size : Nat} {answer : Runtime.ExecutionResult}
    (h : Follows Action.exec (returned offset size answer) s path result) :
    CallEnd type s (.ready contract offset size)
      (⟨.callx { contract with type := type }, answer⟩ :: path) result := by
  have hrest := h.of_act rfl
  split at hrest
  · rename_i hcopies
    cases hcopy : s.memory.copySlice offset ((offset + size) % 2 ^ 64) answer.returnValue with
    | ok memory =>
      have hstore := congrArg (State.store (s.push (if answer.succeeded then 1 else 0))) hcopy
      obtain ⟨rfl, rfl⟩ := follows_settle (hrest.of_act hstore)
      exact .called ((if_pos hcopies).trans hcopy)
    | error p =>
      have hstore := congrArg (State.store (s.push (if answer.succeeded then 1 else 0))) hcopy
      obtain ⟨rfl, rfl⟩ := hrest.of_fault hstore
      exact .overreached ((if_pos hcopies).trans hcopy)
  · rename_i hcopies
    obtain ⟨rfl, rfl⟩ := follows_settle hrest
    exact .called (if_neg hcopies)

theorem not_asks_returned {offset size : Nat} {answer : Runtime.ExecutionResult} {request : Request}
    {s' : State} : ¬ Asks Action.exec (returned offset size answer) s path request s' := by
  have hsettled : ∀ {s₁ : State}, ¬ Asks Action.exec
      (do addGas answer.gasLeft; setReturnData answer.returnValue) s₁ path request s' := by
    intro s₁ h
    cases h with
    | act _ h =>
      cases h with
      | act _ h => cases h
  intro h
  cases h with
  | act _ h =>
    split at h
    · cases h with
      | act _ h => exact hsettled h
    · exact hsettled h

theorem callEnd_of_follows {built : Built} (hbuilt : built ≠ .bad none)
    (h : Follows Action.exec (finishCall type built) s path result) :
    CallEnd type s built path result := by
  cases built with
  | stopped =>
    cases h
    exact .stopped
  | bad contract =>
    cases contract with
    | none => exact absurd rfl hbuilt
    | some contract =>
      have hdone := (h.of_act rfl).of_act rfl
      cases hdone
      exact .bad contract
  | ready contract offset size =>
    cases h with
    | ask answer hrest => exact callEnd_returned hrest

theorem opCall_ends (htype : callType op = some type) (hvalue : args.value.isSome = takesValue op)
    (hstack : s.stack = args.push rest) (h : Follows Action.exec (opCall op env) s path result) :
    ∃ left, Behind path left ∧
      ((∃ err, Refused env op args err ∧ left = [] ∧
          result = .ok ((), State.exit { s with returnData := [] } err)) ∨
        (∀ err, ¬ Refused env op args err) ∧
          ∃ built s₁, CallBuilt env op args rest { s with returnData := [] } built s₁ ∧
            CallEnd type s₁ built left result) := by
  obtain ⟨left, hcalls, ⟨err, hrefused, hexit⟩ | ⟨hallowed, built, s₁, hbuilt, hcall⟩⟩ :=
    opCall_course (passesOn_follows result) htype hvalue hstack h
  · have hdone := hexit.of_act rfl
    cases hdone
    exact ⟨[], hcalls, .inl ⟨err, hrefused, rfl, rfl⟩⟩
  · refine ⟨left, hcalls, .inr ⟨hallowed, built, s₁, hbuilt, callEnd_of_follows ?_ hcall⟩⟩
    rintro rfl
    cases hbuilt

end Calls

end Nxchain.Evm
