import Nxchain.Proof.CodeCache

namespace Nxchain

namespace CodeCache

structure Derives (obj obj' : StateObject) : Prop where
  root : obj'.account.root = obj.account.root
  nonce : obj.account.nonce < 2 ^ 64 → obj'.account.nonce < 2 ^ 64

theorem Derives.refl (obj : StateObject) : Derives obj obj := ⟨rfl, id⟩

variable [Keccak]

namespace Op

def address : Op → Option Address
  | addBalance addr _ | subBalance addr _ | setBalance addr _ | incrNonce addr | setNonce addr _
  | touchAccount addr | setState addr _ _ | setStorage addr _ _ _ | setCode addr _
  | createAccount addr | suicide addr => some addr
  | getCode _ | snapshot | revertToSnapshot _ | cleanDeleteObjects _ => none

def Typed : Op → Prop
  | setNonce _ nonce => nonce < 2 ^ 64
  | _ => True

end Op

inductive Origin (txn : Txn) (named : Prop) (addr : Address) : StateObject → Prop where
  | current {obj : StateObject} : txn.overlay.objects.lookup addr = some obj → Origin txn named addr obj
  | saved {overlay : Overlay} {obj : StateObject} : overlay ∈ txn.snapshots →
      overlay.objects.lookup addr = some obj → Origin txn named addr obj
  | loaded {account : Account} : named → txn.snapshot.getAccount addr = some account →
      Origin txn named addr { account := account }
  | fresh : named → Origin txn named addr newStateObject

variable {txn : Txn} {named : Prop} {addr other : Address} {obj obj' : StateObject}

theorem origin_of_getStateObject (hnamed : named) (h : txn.getStateObject addr = some obj) :
    Origin txn named addr obj := by
  unfold Txn.getStateObject at h
  cases hlookup : txn.overlay.objects.lookup addr with
  | some found =>
    simp only [hlookup] at h
    split_ifs at h
    obtain rfl := Option.some.inj h
    exact .current hlookup
  | none =>
    simp only [hlookup] at h
    obtain ⟨account, haccount, rfl⟩ := Option.map_eq_some_iff.mp h
    exact .loaded hnamed haccount

def Descends (txn txn' : Txn) (written : Option Address) : Prop :=
  ∀ addr obj', txn'.overlay.objects.lookup addr = some obj' →
    ∃ obj, Origin txn (written = some addr) addr obj ∧ Derives obj obj'

theorem descends_insertObject (hobj : Origin txn True addr obj) (hderives : Derives obj obj') :
    Descends txn (txn.insertObject addr obj') (some addr) := by
  intro other found hfound
  by_cases hother : other = addr
  · subst hother
    rw [Txn.insertObject, AList.lookup_insert] at hfound
    obtain rfl := Option.some.inj hfound
    refine ⟨obj, ?_, hderives⟩
    cases hobj with
    | current h => exact .current h
    | saved hmem h => exact .saved hmem h
    | loaded _ h => exact .loaded rfl h
    | fresh => exact .fresh rfl
  · rw [Txn.insertObject, AList.lookup_insert_ne hother] at hfound
    exact ⟨found, .current hfound, .refl found⟩

theorem descends_of_objects {txn' : Txn} (h : txn'.overlay.objects = txn.overlay.objects)
    (written : Option Address) : Descends txn txn' written := by
  intro addr obj hobj
  rw [h] at hobj
  exact ⟨obj, .current hobj, .refl obj⟩

theorem descends_upsertAccount {f : StateObject → StateObject} (hf : ∀ obj, Derives obj (f obj)) (create : Bool) :
    Descends txn (txn.upsertAccount addr create f) (some addr) := by
  unfold Txn.upsertAccount
  cases hobj : txn.getStateObject addr with
  | some obj => exact descends_insertObject (origin_of_getStateObject trivial hobj) (hf obj)
  | none =>
    cases create with
    | true => exact descends_insertObject (.fresh trivial) (hf _)
    | false => exact descends_of_objects rfl _

theorem descends_cleanDeleteObjects (deleteEmptyObjects : Bool) :
    Descends txn (txn.cleanDeleteObjects deleteEmptyObjects) none := by
  intro addr obj' hobj'
  simp only [Txn.cleanDeleteObjects, Txn.lookup_foldl_markDeleted] at hobj'
  obtain ⟨obj, hobj, rfl⟩ := Option.map_eq_some_iff.mp hobj'
  refine ⟨obj, .current hobj, ?_⟩
  split_ifs
  · exact ⟨rfl, id⟩
  · exact .refl obj

theorem step_descends (txn : Txn) {op : Op} (htyped : op.Typed) : Descends txn (step txn op) op.address := by
  cases op with
  | addBalance | setBalance | touchAccount | setState | setCode =>
    refine descends_upsertAccount ?_ true
    exact fun _ => ⟨rfl, id⟩
  | subBalance addr amount =>
    rw [step, Txn.subBalance]
    split_ifs
    · exact descends_of_objects rfl _
    · exact descends_of_objects rfl _
    · refine descends_upsertAccount ?_ true
      exact fun _ => ⟨rfl, id⟩
  | incrNonce addr =>
    refine descends_upsertAccount ?_ true
    exact fun _ => ⟨rfl, fun _ => Nat.mod_lt _ (Nat.two_pow_pos 64)⟩
  | setNonce addr nonce =>
    refine descends_upsertAccount ?_ true
    exact fun _ => ⟨rfl, fun _ => htyped⟩
  | setStorage addr key value config =>
    rw [step]
    obtain ⟨_, heq⟩ | ⟨_, refund, heq⟩ := txn.setStorage_cases addr key value config
    · rw [heq]
      exact descends_of_objects rfl _
    · rw [heq]
      refine descends_upsertAccount ?_ true
      exact fun _ => ⟨rfl, id⟩
  | getCode addr =>
    obtain ⟨cache, hcache⟩ := txn.getCode_snd addr
    refine descends_of_objects ?_ _
    rw [step, hcache]
  | createAccount addr =>
    rw [step, Txn.createAccount]
    cases txn.getStateObject addr with
    | some prev => exact descends_insertObject (.fresh trivial) ⟨rfl, id⟩
    | none => exact descends_insertObject (.fresh trivial) (.refl _)
  | suicide addr =>
    refine descends_upsertAccount ?_ false
    exact fun _ => ⟨rfl, id⟩
  | snapshot =>
    refine descends_of_objects ?_ _
    rw [step, Txn.takeSnapshot]
  | revertToSnapshot id =>
    rw [step, Txn.revertToSnapshot]
    cases hsaved : txn.snapshots[id]? with
    | none => exact descends_of_objects rfl _
    | some overlay =>
      intro addr obj hobj
      exact ⟨obj, .saved (List.mem_of_getElem? hsaved) hobj, .refl obj⟩
  | cleanDeleteObjects deleteEmptyObjects => exact descends_cleanDeleteObjects deleteEmptyObjects

theorem step_frame (txn : Txn) (op : Op) :
    (step txn op).snapshot = txn.snapshot ∧
      ∀ overlay ∈ (step txn op).snapshots, overlay ∈ txn.snapshots ∨ overlay = txn.overlay := by
  have hsame : ∀ {txn' : Txn}, txn'.snapshot = txn.snapshot → txn'.snapshots = txn.snapshots →
      txn'.snapshot = txn.snapshot ∧ ∀ overlay ∈ txn'.snapshots, overlay ∈ txn.snapshots ∨ overlay = txn.overlay :=
    fun hsnapshot hsnapshots => ⟨hsnapshot, fun _ hmem => .inl (hsnapshots ▸ hmem)⟩
  have hupsert : ∀ {addr : Address} {create : Bool} {f : StateObject → StateObject},
      (txn.upsertAccount addr create f).snapshot = txn.snapshot ∧
        ∀ overlay ∈ (txn.upsertAccount addr create f).snapshots, overlay ∈ txn.snapshots ∨ overlay = txn.overlay :=
    hsame (Txn.snapshot_upsertAccount _ _) (Txn.snapshots_upsertAccount _ _)
  cases op with
  | addBalance | setBalance | incrNonce | setNonce | touchAccount | setState | setCode | suicide =>
    exact hupsert
  | subBalance addr amount =>
    rw [step, Txn.subBalance]
    split_ifs
    · exact hsame rfl rfl
    · exact hsame rfl rfl
    · exact hupsert
  | setStorage addr key value config =>
    rw [step]
    obtain ⟨_, heq⟩ | ⟨_, refund, heq⟩ := txn.setStorage_cases addr key value config
    · rw [heq]
      exact hsame rfl rfl
    · rw [heq]
      exact hupsert
  | getCode addr =>
    obtain ⟨cache, hcache⟩ := txn.getCode_snd addr
    rw [step, hcache]
    exact hsame rfl rfl
  | createAccount addr =>
    rw [step, Txn.createAccount]
    cases txn.getStateObject addr <;> exact hsame rfl rfl
  | snapshot =>
    refine ⟨rfl, fun overlay hmem => ?_⟩
    rw [step, Txn.takeSnapshot, List.mem_append, List.mem_singleton] at hmem
    exact hmem
  | revertToSnapshot id =>
    rw [step, Txn.revertToSnapshot]
    cases txn.snapshots[id]? <;> exact hsame rfl rfl
  | cleanDeleteObjects => exact hsame rfl rfl

structure Every (P : Address → StateObject → Prop) (txn : Txn) : Prop where
  current : ∀ addr obj, txn.overlay.objects.lookup addr = some obj → P addr obj
  saved : ∀ overlay ∈ txn.snapshots, ∀ addr obj, overlay.objects.lookup addr = some obj → P addr obj

structure Inherited (P : Address → StateObject → Prop) (snapshot : ReadSnapshot) (op : Op) : Prop where
  fresh : ∀ addr, op.address = some addr → P addr newStateObject
  loaded : ∀ addr account, op.address = some addr → snapshot.getAccount addr = some account →
    P addr { account := account }
  derives : ∀ addr obj obj', P addr obj → Derives obj obj' → P addr obj'

variable {P : Address → StateObject → Prop}

theorem Every.step {op : Op} (h : Every P txn) (hP : Inherited P txn.snapshot op) (htyped : op.Typed) :
    Every P (step txn op) where
  current := by
    intro addr obj' hobj'
    obtain ⟨obj, horigin, hderives⟩ := step_descends txn htyped addr obj' hobj'
    refine hP.derives addr obj obj' ?_ hderives
    cases horigin with
    | current hobj => exact h.current addr obj hobj
    | saved hmem hobj => exact h.saved _ hmem addr obj hobj
    | loaded hnamed haccount => exact hP.loaded addr _ hnamed haccount
    | fresh hnamed => exact hP.fresh addr hnamed
  saved := by
    intro overlay hmem addr obj hobj
    rcases (step_frame txn op).2 overlay hmem with hsaved | rfl
    · exact h.saved overlay hsaved addr obj hobj
    · exact h.current addr obj hobj

theorem snapshot_foldl_step (ops : List Op) (txn : Txn) :
    (ops.foldl CodeCache.step txn).snapshot = txn.snapshot := by
  induction ops generalizing txn with
  | nil => rfl
  | cons op ops ih => rw [List.foldl_cons, ih, (step_frame txn op).1]

variable {ops : List Op} {snapshot : ReadSnapshot} (hP : ∀ op ∈ ops, Inherited P snapshot op)
  (htyped : ∀ op ∈ ops, op.Typed)

include hP htyped

theorem Every.run : Every P (ops.foldl CodeCache.step (.newTxn snapshot)) := by
  have hkeep : ∀ txn op, txn.snapshot = snapshot ∧ Every P txn → Inherited P snapshot op ∧ op.Typed →
      (CodeCache.step txn op).snapshot = snapshot ∧ Every P (CodeCache.step txn op) := by
    rintro txn op ⟨rfl, h⟩ ⟨hP, htyped⟩
    exact ⟨(step_frame txn op).1, h.step hP htyped⟩
  have hnew : Every P (.newTxn snapshot) := ⟨nofun, nofun⟩
  exact (Runs.inv_foldl hkeep ⟨rfl, hnew⟩
    (Runs.along_of_forall_mem (fun op hop _ => ⟨hP op hop, htyped op hop⟩) _)).2

theorem Every.clean (deleteEmptyObjects : Bool) :
    Every P ((ops.foldl CodeCache.step (.newTxn snapshot)).cleanDeleteObjects deleteEmptyObjects) := by
  cases ops with
  | nil => exact ⟨nofun, nofun⟩
  | cons op ops =>
    have hclean : ∀ snapshot, Inherited P snapshot (.cleanDeleteObjects deleteEmptyObjects) :=
      fun _ => ⟨nofun, nofun, (hP op List.mem_cons_self).derives⟩
    exact (Every.run hP htyped).step (hclean _) trivial

end CodeCache

end Nxchain
