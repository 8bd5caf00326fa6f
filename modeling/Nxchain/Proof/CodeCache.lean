import Nxchain.Lib.Runs
import Nxchain.Proof.Overlay

namespace Nxchain

namespace CodeCache

variable [Keccak]

inductive Op where
  | addBalance (addr : Address) (amount : Int)
  | subBalance (addr : Address) (amount : Int)
  | setBalance (addr : Address) (balance : Int)
  | incrNonce (addr : Address)
  | setNonce (addr : Address) (nonce : Nat)
  | touchAccount (addr : Address)
  | setState (addr : Address) (key value : Hash)
  | setStorage (addr : Address) (key value : Hash) (config : ForksInTime)
  | setCode (addr : Address) (code : Bytes)
  | getCode (addr : Address)
  | createAccount (addr : Address)
  | suicide (addr : Address)
  | snapshot
  | revertToSnapshot (id : Nat)
  | cleanDeleteObjects (deleteEmptyObjects : Bool)

def step (txn : Txn) : Op → Txn
  | .addBalance addr amount => txn.addBalance addr amount
  | .subBalance addr amount => (txn.subBalance addr amount).getD txn
  | .setBalance addr balance => txn.setBalance addr balance
  | .incrNonce addr => txn.incrNonce addr
  | .setNonce addr nonce => txn.setNonce addr nonce
  | .touchAccount addr => txn.touchAccount addr
  | .setState addr key value => txn.setState addr key value
  | .setStorage addr key value config => (txn.setStorage addr key value config).2
  | .setCode addr code => txn.setCode addr code
  | .getCode addr => (txn.getCode addr).2
  | .createAccount addr => txn.createAccount addr
  | .suicide addr => txn.suicide addr
  | .snapshot => txn.takeSnapshot.2
  | .revertToSnapshot id => (txn.revertToSnapshot id).toOption.getD txn
  | .cleanDeleteObjects deleteEmptyObjects => txn.cleanDeleteObjects deleteEmptyObjects

def Agrees (txn : Txn) : Prop :=
  ∀ addr, txn.exist addr = true → keccak256 (txn.getCode addr).1 = txn.getCodeHash addr

structure Stores (snapshot : ReadSnapshot) : Prop where
  keccak256_getCode : ∀ hash code, snapshot.getCode hash = some code → keccak256 code = hash
  getCode_account : ∀ addr account, snapshot.getAccount addr = some account →
    FixedBytes.ofBytes 32 account.codeHash = keccak256 []
      ∨ (snapshot.getCode (FixedBytes.ofBytes 32 account.codeHash)).isSome = true

def CachedAs (txn : Txn) (addr : Address) (hash : Hash) : Prop :=
  ∀ code, txn.codeCache.peek addr = some code → keccak256 code = hash

def creates (txn : Txn) : Op → Option Address
  | .addBalance addr _ | .setBalance addr _ | .incrNonce addr | .setNonce addr _
  | .touchAccount addr | .setState addr _ _ => some addr
  | .subBalance addr amount =>
    if amount = 0 ∨ (txn.getBalance addr : Int) < amount then none else some addr
  | .setStorage addr key value _ => if txn.getState addr key = value then none else some addr
  | _ => none

def Fresh (txn : Txn) (created : Option Address) : Prop :=
  ∀ addr, created = some addr → txn.getStateObject addr = none → CachedAs txn addr (keccak256 [])

def NoStaleCode (txn : Txn) : Op → Prop
  | .createAccount addr => CachedAs txn addr (keccak256 [])
  | .revertToSnapshot id =>
    ∀ overlay, txn.snapshots[id]? = some overlay →
      ∀ addr object, Txn.getStateObject { txn with overlay := overlay } addr = some object →
        object.dirtyCode = false → CachedAs txn addr (FixedBytes.ofBytes 32 object.account.codeHash)
  | op => Fresh txn (creates txn op)

def codeHash (object : StateObject) : Hash := FixedBytes.ofBytes 32 object.account.codeHash

structure HasCode (snapshot : ReadSnapshot) (object : StateObject) : Prop where
  dirty : object.dirtyCode = true → keccak256 object.code = codeHash object
  clean : object.dirtyCode = false →
    keccak256 ((snapshot.getCode (codeHash object)).getD []) = codeHash object

structure SameCode (object object' : StateObject) : Prop where
  codeHash : object'.account.codeHash = object.account.codeHash
  code : object'.code = object.code
  dirtyCode : object'.dirtyCode = object.dirtyCode
  deleted : object'.deleted = object.deleted

variable {snapshot : ReadSnapshot} {object object' : StateObject} {txn : Txn} {addr : Address}

theorem SameCode.hasCode (hsame : SameCode object object') (hcode : HasCode snapshot object) :
    HasCode snapshot object' := by
  have hhash : CodeCache.codeHash object' = CodeCache.codeHash object :=
    congrArg (FixedBytes.ofBytes 32) hsame.codeHash
  constructor
  · intro hdirty
    rw [hsame.code, hhash]
    exact hcode.dirty (hsame.dirtyCode ▸ hdirty)
  · intro hclean
    rw [hhash]
    exact hcode.clean (hsame.dirtyCode ▸ hclean)

theorem codeHash_newStateObject : codeHash newStateObject = keccak256 [] :=
  FixedBytes.ofBytes_toBytes _

theorem Stores.keccak256_getD (hstores : Stores snapshot) {hash : Hash}
    (hhash : hash = keccak256 [] ∨ (snapshot.getCode hash).isSome = true) :
    keccak256 ((snapshot.getCode hash).getD []) = hash := by
  cases hfound : snapshot.getCode hash with
  | some code => exact hstores.keccak256_getCode hash code hfound
  | none => simpa [hfound, eq_comm] using hhash

theorem hasCode_newStateObject (hstores : Stores snapshot) : HasCode snapshot newStateObject where
  dirty hdirty := by cases hdirty
  clean _ := hstores.keccak256_getD (.inl codeHash_newStateObject)

def AllHaveCode (txn : Txn) : Prop :=
  ∀ addr object, txn.getStateObject addr = some object → HasCode txn.snapshot object

def CacheAgrees (txn : Txn) : Prop :=
  ∀ addr object, txn.getStateObject addr = some object → object.dirtyCode = false →
    CachedAs txn addr (codeHash object)

omit [Keccak] in
theorem getCode_of_clean (hobject : txn.getStateObject addr = some object) (hclean : object.dirtyCode = false) :
    (txn.getCode addr).1 =
      (txn.codeCache.peek addr).getD ((txn.snapshot.getCode (codeHash object)).getD []) := by
  unfold Txn.getCode
  simp only [hobject, hclean]
  cases hget : txn.codeCache.get addr with
  | none =>
    rw [Lru.get_eq_none_iff.mp hget]
    rfl
  | some found =>
    rw [(Lru.peek_of_get hget).1]
    rfl

theorem agrees_iff (hcode : AllHaveCode txn) : Agrees txn ↔ CacheAgrees txn := by
  have hexist : ∀ addr, txn.exist addr = true ↔ ∃ object, txn.getStateObject addr = some object :=
    fun addr => Option.isSome_iff_exists
  constructor
  · intro hagrees addr object hobject hclean code hpeek
    have hhash := hagrees addr ((hexist addr).mpr ⟨object, hobject⟩)
    rw [getCode_of_clean hobject hclean, hpeek, Txn.getCodeHash, hobject] at hhash
    exact hhash
  · intro hcache addr hadd
    obtain ⟨object, hobject⟩ := (hexist addr).mp hadd
    rw [Txn.getCodeHash, hobject]
    cases hdirty : object.dirtyCode with
    | true =>
      have hget : (txn.getCode addr).1 = object.code := by simp [Txn.getCode, hobject, hdirty]
      rw [hget]
      exact (hcode addr object hobject).dirty hdirty
    | false =>
      rw [getCode_of_clean hobject hdirty]
      cases hpeek : txn.codeCache.peek addr with
      | none => exact (hcode addr object hobject).clean hdirty
      | some code => exact hcache addr object hobject hdirty code hpeek

theorem AllHaveCode.insertObject (hcode : AllHaveCode txn) (hobject : HasCode txn.snapshot object)
    (halive : object.deleted = false) : AllHaveCode (txn.insertObject addr object) := by
  intro other found hfound
  by_cases hother : other = addr
  · subst hother
    rw [Txn.getStateObject_insertObject_self object halive] at hfound
    obtain rfl := Option.some.inj hfound
    exact hobject
  · rw [Txn.getStateObject_insertObject_ne object hother] at hfound
    exact hcode other found hfound

theorem cacheAgrees_insertObject (hcache : CacheAgrees txn) (halive : object.deleted = false) :
    CacheAgrees (txn.insertObject addr object) ↔
      (object.dirtyCode = false → CachedAs txn addr (codeHash object)) := by
  constructor
  · intro hafter
    exact hafter addr object (Txn.getStateObject_insertObject_self object halive)
  · intro hnew other found hfound hclean
    by_cases hother : other = addr
    · subst hother
      rw [Txn.getStateObject_insertObject_self object halive] at hfound
      obtain rfl := Option.some.inj hfound
      exact hnew hclean
    · rw [Txn.getStateObject_insertObject_ne object hother] at hfound
      exact hcache other found hfound hclean

section Upsert

variable {f : StateObject → StateObject} (hf : ∀ object, SameCode object (f object))

include hf

theorem AllHaveCode.upsertAccount (hstores : Stores txn.snapshot) (hcode : AllHaveCode txn) :
    AllHaveCode (txn.upsertAccount addr true f) := by
  rw [Txn.upsertAccount_create]
  refine hcode.insertObject ((hf _).hasCode ?_) ?_
  · unfold Txn.objectOrNew
    cases hobject : txn.getStateObject addr with
    | none => exact hasCode_newStateObject hstores
    | some object => exact hcode addr object hobject
  · rw [(hf _).deleted, Txn.deleted_objectOrNew]

theorem cacheAgrees_upsertAccount (hcache : CacheAgrees txn) :
    CacheAgrees (txn.upsertAccount addr true f) ↔
      (txn.getStateObject addr = none → CachedAs txn addr (keccak256 [])) := by
  have halive : (f (txn.objectOrNew addr)).deleted = false :=
    ((hf _).deleted).trans (Txn.deleted_objectOrNew txn addr)
  have hhash : codeHash (f (txn.objectOrNew addr)) = codeHash (txn.objectOrNew addr) :=
    congrArg (FixedBytes.ofBytes 32) (hf _).codeHash
  rw [Txn.upsertAccount_create, cacheAgrees_insertObject hcache halive, (hf _).dirtyCode, hhash]
  unfold Txn.objectOrNew
  cases hobject : txn.getStateObject addr with
  | none =>
    rw [Option.getD_none, codeHash_newStateObject]
    exact ⟨fun h _ => h rfl, fun h _ => h rfl⟩
  | some object => exact iff_of_true (hcache addr object hobject) (fun hnone => nomatch hnone)

end Upsert

structure Base (txn : Txn) : Prop where
  stores : Stores txn.snapshot
  current : AllHaveCode txn
  saved : ∀ overlay ∈ txn.snapshots, AllHaveCode { txn with overlay := overlay }

theorem Base.of_frame {txn' : Txn} (hbase : Base txn) (hsnapshot : txn'.snapshot = txn.snapshot)
    (hsnapshots : txn'.snapshots = txn.snapshots) (hcurrent : AllHaveCode txn') : Base txn' where
  stores := hsnapshot ▸ hbase.stores
  current := hcurrent
  saved := by
    intro overlay hmem addr object hobject
    rw [hsnapshots] at hmem
    rw [hsnapshot]
    have hsame : Txn.SameView { txn with overlay := overlay } { txn' with overlay := overlay } := ⟨hsnapshot, rfl⟩
    exact hbase.saved overlay hmem addr object (hsame.getStateObject addr ▸ hobject)

theorem AllHaveCode.of_sameView {txn' : Txn} (hcode : AllHaveCode txn) (hsame : txn.SameView txn') :
    AllHaveCode txn' := by
  intro addr object hobject
  rw [hsame.1]
  exact hcode addr object (hsame.getStateObject addr ▸ hobject)

theorem cacheAgrees_of_sameView {txn' : Txn} (hsame : txn.SameView txn') (hcache : txn'.codeCache = txn.codeCache) :
    CacheAgrees txn' ↔ CacheAgrees txn := by
  unfold CacheAgrees CachedAs
  simp only [hsame.getStateObject, hcache]

theorem fresh_none : Fresh txn none := fun _ hnone => nomatch hnone

theorem upsert_spec {f : StateObject → StateObject} (hf : ∀ object, SameCode object (f object)) (hbase : Base txn)
    (hcache : CacheAgrees txn) (addr : Address) :
    Base (txn.upsertAccount addr true f) ∧
      (CacheAgrees (txn.upsertAccount addr true f) ↔ Fresh txn (some addr)) :=
  ⟨hbase.of_frame (Txn.snapshot_upsertAccount _ _) (Txn.snapshots_upsertAccount _ _)
      (AllHaveCode.upsertAccount hf hbase.stores hbase.current),
    (cacheAgrees_upsertAccount hf hcache).trans (by simp [Fresh])⟩

section Calls

variable (hbase : Base txn) (hcache : CacheAgrees txn)

include hbase hcache

theorem setCode_spec (addr : Address) (code : Bytes) :
    Base (txn.setCode addr code) ∧ CacheAgrees (txn.setCode addr code) := by
  refine ⟨hbase.of_frame (Txn.snapshot_upsertAccount _ _) (Txn.snapshots_upsertAccount _ _) ?_, ?_⟩
  · rw [Txn.setCode, Txn.upsertAccount_create]
    refine hbase.current.insertObject ⟨fun _ => ?_, fun hclean => nomatch hclean⟩ ?_
    · exact (FixedBytes.ofBytes_toBytes _).symm
    · exact Txn.deleted_objectOrNew txn addr
  · rw [Txn.setCode, Txn.upsertAccount_create]
    have halive := Txn.deleted_objectOrNew txn addr
    exact (cacheAgrees_insertObject hcache (by exact halive)).mpr fun hclean => nomatch hclean

theorem createAccount_spec (addr : Address) :
    Base (txn.createAccount addr) ∧
      (CacheAgrees (txn.createAccount addr) ↔ CachedAs txn addr (keccak256 [])) := by
  obtain ⟨balance, hcreate⟩ :
      ∃ balance, txn.createAccount addr = txn.insertObject addr (newStateObject.withBalance balance) := by
    unfold Txn.createAccount
    cases txn.getStateObject addr with
    | none => exact ⟨0, rfl⟩
    | some prev => exact ⟨prev.account.balance, rfl⟩
  have hsame : SameCode newStateObject (newStateObject.withBalance balance) := ⟨rfl, rfl, rfl, rfl⟩
  rw [hcreate]
  refine ⟨hbase.of_frame rfl rfl ?_, ?_⟩
  · exact hbase.current.insertObject (hsame.hasCode (hasCode_newStateObject hbase.stores)) rfl
  · rw [cacheAgrees_insertObject hcache rfl]
    change (_ → CachedAs txn addr (codeHash newStateObject)) ↔ _
    rw [codeHash_newStateObject]
    exact ⟨fun h => h rfl, fun h _ => h⟩

theorem suicide_spec (addr : Address) : Base (txn.suicide addr) ∧ CacheAgrees (txn.suicide addr) := by
  unfold Txn.suicide Txn.upsertAccount
  cases hobject : txn.getStateObject addr with
  | none => exact ⟨hbase, hcache⟩
  | some object =>
    have halive := Txn.deleted_of_getStateObject hobject
    have hsame : SameCode object { object.withBalance 0 with suicide := true } := ⟨rfl, rfl, rfl, rfl⟩
    refine ⟨hbase.of_frame rfl rfl ?_, ?_⟩
    · exact hbase.current.insertObject (hsame.hasCode (hbase.current addr object hobject)) halive
    · exact (cacheAgrees_insertObject hcache (by exact halive)).mpr (hcache addr object hobject)

theorem getCode_spec (addr : Address) : Base (txn.getCode addr).2 ∧ CacheAgrees (txn.getCode addr).2 := by
  unfold Txn.getCode
  cases hobject : txn.getStateObject addr with
  | none => exact ⟨hbase, hcache⟩
  | some object =>
    cases hdirty : object.dirtyCode with
    | true => exact ⟨by simpa [hdirty] using hbase, by simpa [hdirty] using hcache⟩
    | false =>
      simp only [hdirty]
      cases hget : txn.codeCache.get addr with
      | some found =>
        refine ⟨hbase.of_frame rfl rfl (hbase.current.of_sameView ⟨rfl, rfl⟩), ?_⟩
        intro other held hheld hclean code hpeek
        exact hcache other held hheld hclean code ((Lru.peek_of_get hget).2 other code hpeek)
      | none =>
        refine ⟨hbase.of_frame rfl rfl (hbase.current.of_sameView ⟨rfl, rfl⟩), ?_⟩
        intro other held hheld hclean code hpeek
        rcases Lru.peek_add_eq_some hpeek with ⟨rfl, rfl⟩ | hold
        · obtain rfl : object = held := Option.some.inj (hobject.symm.trans hheld)
          exact (hbase.current other object hobject).clean hdirty
        · exact hcache other held hheld hclean code hold

theorem takeSnapshot_spec : Base txn.takeSnapshot.2 ∧ CacheAgrees txn.takeSnapshot.2 := by
  refine ⟨⟨hbase.stores, hbase.current.of_sameView ⟨rfl, rfl⟩, ?_⟩,
    (cacheAgrees_of_sameView ⟨rfl, rfl⟩ rfl).mpr hcache⟩
  intro overlay hmem
  rcases List.mem_append.mp hmem with hold | hnew
  · exact (hbase.saved overlay hold).of_sameView ⟨rfl, rfl⟩
  · obtain rfl := List.mem_singleton.mp hnew
    exact hbase.current.of_sameView ⟨rfl, rfl⟩

theorem cleanDeleteObjects_spec (deleteEmptyObjects : Bool) :
    Base (txn.cleanDeleteObjects deleteEmptyObjects) ∧
      CacheAgrees (txn.cleanDeleteObjects deleteEmptyObjects) := by
  refine ⟨hbase.of_frame rfl rfl ?_, ?_⟩
  · intro addr object hobject
    exact hbase.current addr object (Txn.getStateObject_of_cleanDeleteObjects hobject)
  · intro addr object hobject
    exact hcache addr object (Txn.getStateObject_of_cleanDeleteObjects hobject)

theorem setStorage_spec (addr : Address) (key value : Hash) (config : ForksInTime) :
    Base (txn.setStorage addr key value config).2 ∧
      (CacheAgrees (txn.setStorage addr key value config).2 ↔
        Fresh txn (if txn.getState addr key = value then none else some addr)) := by
  rcases txn.setStorage_cases addr key value config with ⟨heq, hstep⟩ | ⟨hne, refund, hstep⟩
  · rw [hstep, if_pos heq]
    exact ⟨hbase, iff_of_true hcache fresh_none⟩
  · obtain ⟨hbase', hcache'⟩ :=
      upsert_spec (f := fun object => { object with storage := object.storage.insert key value })
        (fun _ => ⟨rfl, rfl, rfl, rfl⟩) hbase hcache addr
    rw [hstep, if_neg hne]
    refine ⟨hbase'.of_frame rfl rfl (hbase'.current.of_sameView ⟨rfl, rfl⟩), ?_⟩
    refine Iff.trans ?_ hcache'
    exact cacheAgrees_of_sameView ⟨rfl, rfl⟩ rfl

theorem subBalance_spec (addr : Address) (amount : Int) :
    Base ((txn.subBalance addr amount).getD txn) ∧
      (CacheAgrees ((txn.subBalance addr amount).getD txn) ↔
        Fresh txn (if amount = 0 ∨ (txn.getBalance addr : Int) < amount then none else some addr)) := by
  unfold Txn.subBalance
  by_cases hzero : amount = 0
  · simpa [hzero] using ⟨hbase, iff_of_true hcache fresh_none⟩
  · by_cases hfunds : (txn.getBalance addr : Int) < amount
    · simpa [hzero, hfunds] using ⟨hbase, iff_of_true hcache fresh_none⟩
    · simp only [hzero, hfunds, if_false, Option.getD_some]
      exact upsert_spec (by intro _; exact ⟨rfl, rfl, rfl, rfl⟩) hbase hcache addr

theorem revertToSnapshot_spec (id : Nat) :
    Base ((txn.revertToSnapshot id).toOption.getD txn) ∧
      (CacheAgrees ((txn.revertToSnapshot id).toOption.getD txn) ↔ NoStaleCode txn (.revertToSnapshot id)) := by
  unfold Txn.revertToSnapshot NoStaleCode
  cases hsaved : txn.snapshots[id]? with
  | none => exact ⟨hbase, iff_of_true hcache fun _ hsome => nomatch hsaved.symm.trans hsome⟩
  | some overlay =>
    refine ⟨hbase.of_frame rfl rfl (hbase.saved overlay (List.mem_of_getElem? hsaved)), ?_⟩
    constructor
    · intro hafter overlay' hoverlay'
      obtain rfl : overlay = overlay' := Option.some.inj (hsaved.symm.trans hoverlay')
      exact hafter
    · intro hsaved' addr object
      exact hsaved' overlay hsaved addr object

theorem step_spec (op : Op) : Base (step txn op) ∧ (CacheAgrees (step txn op) ↔ NoStaleCode txn op) := by
  -- calls that create no account keep the agreement
  have hkeep : ∀ {txn' : Txn}, Base txn' ∧ CacheAgrees txn' → Base txn' ∧ (CacheAgrees txn' ↔ Fresh txn none) :=
    fun h => ⟨h.1, iff_of_true h.2 fresh_none⟩
  cases op with
  | addBalance addr amount | setBalance addr balance | incrNonce addr | setNonce addr nonce
  | touchAccount addr | setState addr key value =>
    exact upsert_spec (by intro _; exact ⟨rfl, rfl, rfl, rfl⟩) hbase hcache addr
  | subBalance addr amount => exact subBalance_spec hbase hcache addr amount
  | setStorage addr key value config => exact setStorage_spec hbase hcache addr key value config
  | setCode addr code => exact hkeep (setCode_spec hbase hcache addr code)
  | getCode addr => exact hkeep (getCode_spec hbase hcache addr)
  | createAccount addr => exact createAccount_spec hbase hcache addr
  | suicide addr => exact hkeep (suicide_spec hbase hcache addr)
  | snapshot => exact hkeep (takeSnapshot_spec hbase hcache)
  | revertToSnapshot id => exact revertToSnapshot_spec hbase hcache id
  | cleanDeleteObjects deleteEmptyObjects =>
    exact hkeep (cleanDeleteObjects_spec hbase hcache deleteEmptyObjects)

end Calls

theorem base_newTxn (hstores : Stores snapshot) : Base (Txn.newTxn snapshot) where
  stores := hstores
  current := by
    intro addr object hobject
    obtain ⟨account, haccount, rfl⟩ := Option.map_eq_some_iff.mp hobject
    exact ⟨fun hdirty => (nomatch hdirty),
      fun _ => hstores.keccak256_getD (hstores.getCode_account addr account haccount)⟩
  saved _ hmem := nomatch hmem

theorem cacheAgrees_newTxn (snapshot : ReadSnapshot) : CacheAgrees (Txn.newTxn snapshot) := by
  intro addr object _ _ code hpeek
  simp [Txn.newTxn, Lru.empty, Lru.peek] at hpeek

theorem code_agrees_iff (hstores : Stores snapshot) (ops : List Op) :
    (Agrees (Txn.newTxn snapshot) ∧
        Runs.Along step (fun txn op => Agrees (step txn op)) (Txn.newTxn snapshot) ops) ↔
      Runs.Along step NoStaleCode (Txn.newTxn snapshot) ops := by
  have hbase := base_newTxn hstores
  have hcache := cacheAgrees_newTxn snapshot
  refine (and_iff_right ((agrees_iff hbase.current).mpr hcache)).trans ?_
  refine Runs.along_iff (fun txn => Base txn ∧ CacheAgrees txn) ?_ ?_ ⟨hbase, hcache⟩ ops
  · rintro txn op ⟨hbase, hcache⟩
    obtain ⟨hbase', hcache'⟩ := step_spec hbase hcache op
    exact (agrees_iff hbase'.current).trans hcache'
  · rintro txn op ⟨hbase, hcache⟩ hagrees
    have hbase' := (step_spec hbase hcache op).1
    exact ⟨hbase', (agrees_iff hbase'.current).mp hagrees⟩

end CodeCache

namespace CodeCache

section Sample

local instance : Keccak := sampleKeccak

def contractAddress : Address := FixedBytes.ofBytes 20 [1]

def codeSnapshot : ReadSnapshot where
  getStorage _ _ _ := zeroHash
  getAccount addr :=
    if addr = contractAddress then
      some { nonce := 1, balance := 0, root := emptyStateHash, codeHash := (keccak256 [7]).toBytes }
    else none
  getCode hash := if hash = keccak256 [7] then some [7] else none
  getStorage_empty _ _ := rfl

theorem stores_codeSnapshot : Stores codeSnapshot where
  keccak256_getCode := by
    intro hash code hcode
    simp only [codeSnapshot] at hcode
    split_ifs at hcode with hhash
    obtain rfl := Option.some.inj hcode
    exact hhash.symm
  getCode_account := by
    intro addr account haccount
    simp only [codeSnapshot] at haccount
    split_ifs at haccount
    obtain rfl := Option.some.inj haccount
    decide +kernel

theorem code_agrees_in_run :
    Agrees (Txn.newTxn codeSnapshot) ∧
      Runs.Along step (fun txn op => Agrees (step txn op)) (Txn.newTxn codeSnapshot)
        [.getCode contractAddress, .snapshot, .setCode contractAddress [8], .getCode contractAddress,
          .suicide contractAddress, .cleanDeleteObjects true] :=
  (code_agrees_iff stores_codeSnapshot _).mpr
    ⟨fresh_none, fresh_none, fresh_none, fresh_none, fresh_none, fresh_none, trivial⟩

theorem recreated_account_keeps_code :
    Stores codeSnapshot ∧
      ¬ Agrees (List.foldl step (Txn.newTxn codeSnapshot)
        [.getCode contractAddress, .suicide contractAddress, .cleanDeleteObjects true,
          .addBalance contractAddress 1]) := by
  refine ⟨stores_codeSnapshot, ?_⟩
  intro hagrees
  have hhash := hagrees contractAddress (by decide +kernel)
  revert hhash
  decide +kernel

end Sample

end CodeCache

end Nxchain
