import Nxchain.Txn

namespace Nxchain

namespace Txn

variable {txn txn' : Txn} {addr other : Address} {key : Hash}

def SameView (txn txn' : Txn) : Prop :=
  txn'.snapshot = txn.snapshot ∧ txn'.overlay.objects = txn.overlay.objects

theorem SameView.getStateObject (hsame : SameView txn txn') (addr : Address) :
    txn'.getStateObject addr = txn.getStateObject addr := by
  unfold Txn.getStateObject
  rw [hsame.1, hsame.2]

theorem SameView.getState (hsame : SameView txn txn') (addr : Address) (key : Hash) :
    txn'.getState addr key = txn.getState addr key := by
  unfold Txn.getState
  rw [hsame.getStateObject, hsame.1]

theorem SameView.getBalance (hsame : SameView txn txn') (addr : Address) :
    txn'.getBalance addr = txn.getBalance addr := by
  unfold Txn.getBalance
  rw [hsame.getStateObject]

theorem sameView_addRefund (txn : Txn) (gas : Nat) : SameView txn (txn.addRefund gas) :=
  ⟨by simp only [addRefund], by simp only [addRefund]⟩

theorem getStateObject_insertObject_self (object : StateObject) (halive : object.deleted = false) :
    (txn.insertObject addr object).getStateObject addr = some object := by
  simp [getStateObject, insertObject, halive]

theorem getStateObject_insertObject_ne (object : StateObject) (hne : other ≠ addr) :
    (txn.insertObject addr object).getStateObject other = txn.getStateObject other := by
  simp [getStateObject, insertObject, AList.lookup_insert_ne hne]

theorem deleted_of_getStateObject {object : StateObject} (hobject : txn.getStateObject addr = some object) :
    object.deleted = false := by
  unfold getStateObject at hobject
  cases hlookup : txn.overlay.objects.lookup addr with
  | none =>
    rw [hlookup] at hobject
    obtain ⟨account, _, rfl⟩ := Option.map_eq_some_iff.mp hobject
    rfl
  | some found =>
    rw [hlookup] at hobject
    by_cases hdeleted : found.deleted = true
    · simp [hdeleted] at hobject
    · simp only [hdeleted, Bool.false_eq_true, if_false] at hobject
      obtain rfl := Option.some.inj hobject
      simpa using hdeleted

def read {α : Type} (txn : Txn) (default : α) (g : StateObject → α) (addr : Address) : α :=
  (txn.getStateObject addr).elim default g

theorem getBalance_eq_read (txn : Txn) (addr : Address) :
    txn.getBalance addr = txn.read 0 (·.account.balance) addr := by
  unfold getBalance read
  cases txn.getStateObject addr <;> rfl

theorem getNonce_eq_read (txn : Txn) (addr : Address) : txn.getNonce addr = txn.read 0 (·.account.nonce) addr := by
  unfold getNonce read
  cases txn.getStateObject addr <;> rfl

theorem hasSuicided_eq_read (txn : Txn) (addr : Address) :
    txn.hasSuicided addr = txn.read false (·.suicide) addr := by
  unfold hasSuicided read
  cases txn.getStateObject addr <;> rfl

theorem getState_eq_read (txn : Txn) (addr : Address) (key : Hash) :
    txn.getState addr key = txn.read zeroHash
      (fun object => (object.storage.lookup key).getD
        (txn.snapshot.getStorage addr object.account.root key)) addr := by
  unfold getState read
  cases txn.getStateObject addr <;> rfl

theorem code_eq_read (txn : Txn) (addr : Address) :
    txn.code addr = txn.read []
      (fun object => if object.dirtyCode then object.code
        else (txn.snapshot.getCode (FixedBytes.ofBytes 32 object.account.codeHash)).getD []) addr := by
  unfold code read
  cases txn.getStateObject addr <;> rfl

theorem getCode_snd (txn : Txn) (addr : Address) :
    ∃ cache, (txn.getCode addr).2 = { txn with codeCache := cache } := by
  unfold getCode
  cases txn.getStateObject addr with
  | none => exact ⟨txn.codeCache, rfl⟩
  | some object =>
    by_cases hdirty : object.dirtyCode = true
    · exact ⟨txn.codeCache, by simp only [hdirty, if_true]⟩
    · simp only [hdirty]
      cases txn.codeCache.get addr with
      | none => exact ⟨_, rfl⟩
      | some found => exact ⟨_, rfl⟩

theorem lookup_markDeleted (objects : AList (fun _ : Address => StateObject)) (k addr : Address) :
    (markDeleted objects k).lookup addr =
      (objects.lookup addr).map fun obj => if addr = k then { obj with deleted := true } else obj := by
  unfold markDeleted
  by_cases haddr : addr = k
  · subst haddr
    cases hlookup : objects.lookup addr with
    | none => simp [hlookup]
    | some obj => simp [AList.lookup_insert]
  · cases hlookup : objects.lookup k with
    | none => simp [haddr]
    | some obj => simp [AList.lookup_insert_ne haddr, haddr]

theorem lookup_foldl_markDeleted (remove : List Address) (objects : AList (fun _ : Address => StateObject))
    (addr : Address) :
    (remove.foldl markDeleted objects).lookup addr =
      (objects.lookup addr).map fun obj =>
        if addr ∈ remove then { obj with deleted := true } else obj := by
  induction remove generalizing objects with
  | nil => simp
  | cons k rest ih =>
    rw [List.foldl_cons, ih, lookup_markDeleted, Option.map_map]
    congr 1
    funext obj
    by_cases haddr : addr = k <;> by_cases hrest : addr ∈ rest <;> simp [haddr, hrest]

def withRefund (txn : Txn) (refund : Nat) : Txn :=
  { txn with overlay := { txn.overlay with refund := refund } }

theorem withRefund_getRefund (txn : Txn) : txn.withRefund txn.getRefund = txn := rfl

-- these are not proved by `rfl`, which would have `dsimp` compare the numbers
theorem withRefund_withRefund (refund refund' : Nat) :
    (txn.withRefund refund).withRefund refund' = txn.withRefund refund' := by
  simp only [withRefund]

theorem addRefund_withRefund (refund gas : Nat) :
    (txn.withRefund refund).addRefund gas = txn.withRefund ((refund + gas) % 2 ^ 64) := by
  simp only [withRefund, addRefund]

theorem subRefund_withRefund (refund gas : Nat) :
    (txn.withRefund refund).subRefund gas = txn.withRefund (sub64 refund gas) := by
  simp only [withRefund, subRefund]

variable [Keccak]

def objectOrNew (txn : Txn) (addr : Address) : StateObject :=
  (txn.getStateObject addr).getD newStateObject

theorem deleted_objectOrNew (txn : Txn) (addr : Address) : (txn.objectOrNew addr).deleted = false := by
  unfold objectOrNew
  cases hobject : txn.getStateObject addr with
  | none => rfl
  | some object => exact deleted_of_getStateObject hobject

theorem upsertAccount_create (f : StateObject → StateObject) :
    txn.upsertAccount addr true f = txn.insertObject addr (f (txn.objectOrNew addr)) := by
  unfold upsertAccount objectOrNew
  cases txn.getStateObject addr <;> rfl

theorem getStateObject_upsertAccount_self {f : StateObject → StateObject}
    (halive : ∀ object, (f object).deleted = object.deleted) :
    (txn.upsertAccount addr true f).getStateObject addr = some (f (txn.objectOrNew addr)) := by
  rw [upsertAccount_create, getStateObject_insertObject_self]
  rw [halive, deleted_objectOrNew]

theorem getStateObject_upsertAccount_ne (f : StateObject → StateObject) (create : Bool) (hne : other ≠ addr) :
    (txn.upsertAccount addr create f).getStateObject other = txn.getStateObject other := by
  unfold upsertAccount
  cases txn.getStateObject addr with
  | some object => exact getStateObject_insertObject_ne _ hne
  | none =>
    cases create with
    | true => exact getStateObject_insertObject_ne _ hne
    | false => rfl

section Frame

variable (create : Bool) (f : StateObject → StateObject)

@[simp]
theorem snapshot_upsertAccount : (txn.upsertAccount addr create f).snapshot = txn.snapshot := by
  unfold upsertAccount
  cases txn.getStateObject addr <;> cases create <;> rfl

@[simp]
theorem snapshots_upsertAccount : (txn.upsertAccount addr create f).snapshots = txn.snapshots := by
  unfold upsertAccount
  cases txn.getStateObject addr <;> cases create <;> rfl

@[simp]
theorem refund_upsertAccount : (txn.upsertAccount addr create f).overlay.refund = txn.overlay.refund := by
  unfold upsertAccount
  cases txn.getStateObject addr <;> cases create <;> rfl

@[simp]
theorem logs_upsertAccount : (txn.upsertAccount addr create f).overlay.logs = txn.overlay.logs := by
  unfold upsertAccount
  cases txn.getStateObject addr <;> cases create <;> rfl

end Frame

theorem read_upsertAccount {α : Type} {default : α} {g : StateObject → α} {f : StateObject → StateObject}
    (halive : ∀ object, (f object).deleted = object.deleted) (hsame : ∀ object, g (f object) = g object)
    (hnew : g newStateObject = default) (create : Bool) (other : Address) :
    (txn.upsertAccount addr create f).read default g other = txn.read default g other := by
  unfold read
  by_cases hother : other = addr
  · subst hother
    cases create with
    | true =>
      rw [getStateObject_upsertAccount_self halive, Option.elim_some, hsame, objectOrNew]
      cases txn.getStateObject other with
      | none => exact hnew
      | some object => rfl
    | false =>
      unfold upsertAccount
      cases hobject : txn.getStateObject other with
      | none => simp [hobject]
      | some object =>
        have hdeleted := (halive object).trans (deleted_of_getStateObject hobject)
        simp only [getStateObject_insertObject_self _ hdeleted, Option.elim_some, hsame]
  · rw [getStateObject_upsertAccount_ne _ _ hother]

theorem getStateObject_cleanDeleteObjects (txn : Txn) (deleteEmptyObjects : Bool) (addr : Address) :
    (txn.cleanDeleteObjects deleteEmptyObjects).getStateObject addr =
      match txn.overlay.objects.lookup addr with
      | none => txn.getStateObject addr
      | some obj =>
        if obj.suicide || (obj.empty && deleteEmptyObjects) then none
        else txn.getStateObject addr := by
  unfold getStateObject cleanDeleteObjects
  simp only [lookup_foldl_markDeleted]
  cases hlookup : txn.overlay.objects.lookup addr with
  | none => rfl
  | some obj =>
    have hkey : addr ∈ txn.overlay.objects.keys := by
      rw [← AList.mem_keys, ← AList.lookup_isSome, hlookup]
      rfl
    by_cases hremove : (obj.suicide || (obj.empty && deleteEmptyObjects)) = true
    · simp [hkey, hlookup, hremove]
    · simp [hlookup, hremove]

theorem getStateObject_of_cleanDeleteObjects {deleteEmptyObjects : Bool} {object : StateObject}
    (hobject : (txn.cleanDeleteObjects deleteEmptyObjects).getStateObject addr = some object) :
    txn.getStateObject addr = some object := by
  rw [getStateObject_cleanDeleteObjects] at hobject
  cases hlookup : txn.overlay.objects.lookup addr with
  | none =>
    rw [hlookup] at hobject
    exact hobject
  | some obj =>
    simp only [hlookup] at hobject
    split_ifs at hobject
    exact hobject

@[simp]
theorem snapshot_setState (value : Hash) :
    (txn.setState addr key value).snapshot = txn.snapshot := snapshot_upsertAccount _ _

theorem getStateObject_setState_self (txn : Txn) (addr : Address) (key value : Hash) :
    (txn.setState addr key value).getStateObject addr =
      some { txn.objectOrNew addr with
        storage := (txn.objectOrNew addr).storage.insert key value } :=
  getStateObject_upsertAccount_self (fun _ => rfl)

theorem getStateObject_setState_ne (value : Hash) (hne : other ≠ addr) :
    (txn.setState addr key value).getStateObject other = txn.getStateObject other :=
  getStateObject_upsertAccount_ne _ _ hne

theorem getState_setState (txn : Txn) (addr : Address) (key value : Hash) (other : Address) (slot : Hash) :
    (txn.setState addr key value).getState other slot =
      if other = addr ∧ slot = key then value else txn.getState other slot := by
  by_cases haddr : other = addr
  · subst haddr
    unfold getState
    rw [getStateObject_setState_self, snapshot_setState]
    by_cases hslot : slot = key
    · subst hslot
      simp
    · simp only [AList.lookup_insert_ne hslot, hslot, and_false, if_false]
      unfold objectOrNew
      cases hobject : txn.getStateObject other with
      | some object => rfl
      | none =>
        -- a new account has no storage
        simp [newStateObject, txn.snapshot.getStorage_empty]
  · rw [if_neg (fun h => haddr h.1)]
    unfold getState
    rw [getStateObject_setState_ne _ haddr, snapshot_setState]

theorem setStorage_cases (txn : Txn) (addr : Address) (key value : Hash) (config : ForksInTime) :
    (txn.getState addr key = value ∧ (txn.setStorage addr key value config).2 = txn)
      ∨ (txn.getState addr key ≠ value ∧ ∃ refund,
        (txn.setStorage addr key value config).2 = (txn.setState addr key value).withRefund refund) := by
  by_cases heq : txn.getState addr key = value
  · exact .inl ⟨heq, by simp [setStorage, heq]⟩
  · refine .inr ⟨heq, ?_⟩
    unfold setStorage
    simp only [heq, if_false]
    generalize txn.getCommittedState addr key = original
    generalize txn.setState addr key value = txn'
    rw [← withRefund_getRefund txn']
    split_ifs <;>
      simp only [addRefund_withRefund, subRefund_withRefund, withRefund_withRefund] <;>
      exact ⟨_, rfl⟩

end Txn

abbrev sampleKeccak : Keccak where
  keccak256 b := FixedBytes.ofBytes 32 (1 :: b)

def word (n : UInt8) : Hash := FixedBytes.ofBytes 32 [n]

def istanbulRules : ForksInTime := ⟨true, true, true, true, true, true, true, true⟩

end Nxchain
