import Nxchain.Proof.OverlayObjects
import Nxchain.Proof.TriePersistence
import Nxchain.WorldState

namespace Nxchain

theorem FixedBytes.toBytes_ofBytes {n : Nat} {b : Bytes} (h : b.length ≤ n) :
    (FixedBytes.ofBytes n b).toBytes = List.replicate (n - b.length) 0 ++ b := by
  simp only [FixedBytes.ofBytes, Nat.min_eq_left h, Nat.sub_self, List.drop_zero]

theorem FixedBytes.ofBytes_dropWhile {n : Nat} (b : FixedBytes n) :
    FixedBytes.ofBytes n (b.toBytes.dropWhile (· = 0)) = b := by
  have hsplit := List.takeWhile_append_dropWhile (p := fun x : UInt8 => decide (x = 0)) (l := b.toBytes)
  have hzeros : b.toBytes.takeWhile (· = 0) = List.replicate (b.toBytes.takeWhile (· = 0)).length 0 := by
    rw [List.eq_replicate_iff]
    exact ⟨rfl, fun x hx => of_decide_eq_true (List.all_eq_true.mp List.all_takeWhile x hx)⟩
  have hlength := congrArg List.length hsplit
  rw [List.length_append, b.length_toBytes] at hlength
  apply FixedBytes.ext
  rw [FixedBytes.toBytes_ofBytes (by omega)]
  conv_rhs => rw [← hsplit, hzeros]
  congr 2
  omega

namespace Account

theorem unmarshalRlp_marshal (rlp : Rlp.Codec) {a : Account} (hnonce : a.nonce < 2 ^ 64)
    (hlength : (rlp.marshal a.marshalWith).length < Rlp.maxLength) :
    unmarshalRlp rlp (rlp.marshal a.marshalWith) = .ok a := by
  have hshort : ¬ (Rlp.bigEndian a.nonce).length > 8 := by
    have := Rlp.length_bigEndian_le (n := a.nonce) (k := 8) (by norm_num at hnonce ⊢; exact hnonce)
    omega
  rw [unmarshalRlp, rlp.parse_marshal _ hlength]
  simp [marshalWith, ofElems, Rlp.Value.getElems, Rlp.Value.getUint64, Rlp.Value.getBigInt, Rlp.Value.getBytes, Rlp.Value.getFixed,
    a.root.length_toBytes, hshort, bind, Except.bind, pure, Except.pure, Except.mapError, Except.map]

theorem nonce_lt_of_unmarshalRlp {rlp : Rlp.Codec} {b : Bytes} {a : Account} (h : unmarshalRlp rlp b = .ok a) :
    a.nonce < 2 ^ 64 := by
  unfold unmarshalRlp at h
  cases hparse : rlp.parse b with
  | none =>
    rw [hparse] at h
    exact nomatch h
  | some v =>
    rw [hparse] at h
    obtain ⟨elems, _, h⟩ := Except.bind_eq_ok_iff.mp h
    unfold ofElems at h
    split at h
    · obtain ⟨nonce, hnonce, h⟩ := Except.bind_eq_ok_iff.mp h
      obtain ⟨balance, _, h⟩ := Except.bind_eq_ok_iff.mp h
      obtain ⟨root, _, h⟩ := Except.bind_eq_ok_iff.mp h
      obtain ⟨codeHash, _, h⟩ := Except.bind_eq_ok_iff.mp h
      obtain rfl := Except.ok.inj h
      rw [Except.mapError_eq_ok_iff] at hnonce
      obtain ⟨bytes, _, hnonce⟩ := Except.bind_eq_ok_iff.mp hnonce
      obtain ⟨hshort, hnonce⟩ := Except.ite_throw_bind_eq_ok_iff.mp hnonce
      obtain rfl := Except.ok.inj hnonce
      exact Rlp.ofBigEndian_lt (k := 8) (Nat.not_lt.mp hshort)
    · exact nomatch h

end Account

section Updates

variable {K H V W : Type} [DecidableEq H] {g : K → H}

theorem foldl_update_of_notMem (f : K → V → W) {entries : List (Σ _ : K, V)} {h : H}
    (hnot : ∀ entry ∈ entries, g entry.1 ≠ h) (m : H → W) :
    entries.foldl (fun m entry => Function.update m (g entry.1) (f entry.1 entry.2)) m h = m h := by
  induction entries generalizing m with
  | nil => rfl
  | cons entry entries ih =>
    rw [List.foldl_cons, ih (fun entry' hentry' => hnot entry' (List.mem_cons_of_mem _ hentry')),
      Function.update_of_ne (hnot entry List.mem_cons_self).symm]

theorem foldl_update_of_mem (hg : Function.Injective g) (f : K → V → W) {entries : List (Σ _ : K, V)}
    (hentries : entries.NodupKeys) {k : K} {v : V} (hmem : ⟨k, v⟩ ∈ entries) (m : H → W) :
    entries.foldl (fun m entry => Function.update m (g entry.1) (f entry.1 entry.2)) m (g k) =
      f k v := by
  induction entries generalizing m with
  | nil => exact nomatch hmem
  | cons entry entries ih =>
    rw [List.nodupKeys_cons] at hentries
    rw [List.foldl_cons]
    rcases List.mem_cons.mp hmem with rfl | hmem
    · rw [foldl_update_of_notMem f _ _, Function.update_self]
      intro entry' hentry' hkey
      have hkeys := List.mem_map_of_mem (f := Sigma.fst) hentry'
      rw [hg hkey] at hkeys
      exact hentries.1 hkeys
    · exact ih hentries.2 hmem _

end Updates

namespace Itrie

variable [Keccak] {rlp : Fastrlp} {storage : Storage} {fuel : Nat}

def slotValue (rlp : Fastrlp) : Option Bytes → Hash
  | none => zeroHash
  | some val =>
    match rlp.parse val with
    | some (.bytes res) => FixedBytes.ofBytes 32 res
    | _ => zeroHash

def accountAt (rlp : Fastrlp) : Option Bytes → Except AccountError (Option Account)
  | none => .ok none
  | some data => (Account.unmarshalRlp rlp.toCodec data).map some

namespace Snapshot

structure Intact (rlp : Fastrlp) (s : Snapshot) (t : Tree) : Prop where
  refines : Refines (.linked rlp s.trie.storage) s.trie.root t
  proper : Proper 65 t
  opened : ∀ key account, accountAt rlp (t.get (path key)) = .ok (some account) →
    ∃ t', Opened rlp s.trie.storage account.root t'

variable {s : Snapshot} {t : Tree}

theorem Intact.getAccount (h : s.Intact rlp t) (hfuel : pathFuel ≤ fuel) (addr : Address) :
    s.getAccount rlp fuel addr = .ok (accountAt rlp (t.get (path (keccak256 addr.toBytes)))) := by
  obtain ⟨u, hlookup⟩ := Txn.lookup_of_refines (t := s.trie.txn) h.refines h.proper rfl hfuel
    (keccak256 addr.toBytes)
  have hget : s.trie.get rlp fuel (keccak256 addr.toBytes).toBytes =
      .ok (t.get (path (keccak256 addr.toBytes))) := by
    exact congrArg (Except.map Prod.fst) hlookup
  rw [Snapshot.getAccount, hget]
  cases t.get (path (keccak256 addr.toBytes)) <;> rfl

theorem getStorage_of_opened {root : Hash} (h : Opened rlp s.trie.storage root t) (hfuel : pathFuel ≤ fuel)
    (key : Hash) : s.getStorage rlp fuel root key = .ok (slotValue rlp (t.get (path (keccak256 key.toBytes)))) := by
  obtain ⟨trie, htrie, hstorage, hrefines⟩ := h.newTrieAt
  have hopen : (if root = emptyStateHash then .ok (newTrie s.trie.storage)
      else newTrieAt rlp s.trie.storage root) = .ok trie := by
    by_cases hroot : root = emptyStateHash
    · rw [if_pos hroot, ← htrie, newTrieAt, if_pos hroot]
    · rw [if_neg hroot, htrie]
  obtain ⟨u, hlookup⟩ := Txn.lookup_of_refines (t := trie.txn) hrefines h.proper hstorage hfuel
    (keccak256 key.toBytes)
  have hget : trie.get rlp fuel (keccak256 key.toBytes).toBytes = .ok (t.get (path (keccak256 key.toBytes))) := by
    exact congrArg (Except.map Prod.fst) hlookup
  rw [getStorage, hopen]
  simp only [hget, bind, Except.bind]
  cases t.get (path (keccak256 key.toBytes)) with
  | none => rfl
  | some val =>
    simp only [slotValue]
    cases rlp.parse val with
    | none => rfl
    | some v => cases v <;> rfl

end Snapshot

def Op.ofValue (key : Hash) : Option Bytes → Op
  | some value => .insert key value
  | none => .delete key

omit [Keccak] in
theorem Op.write_ofValue (m : Hash → Option Bytes) (key : Hash) (value : Option Bytes) :
    (Op.ofValue key value).write m = Function.update m key value := by
  cases value <;> rfl

def slotData (rlp : Fastrlp) (value : Hash) : Option Bytes :=
  if value = zeroHash then none else some (rlp.marshal (.bytes (trimLeft value.toBytes)))

theorem commitEntry_storageObject (localTxn : Txn) (key value : Hash) :
    commitEntry rlp fuel localTxn (storageObject key value) =
      Op.run rlp fuel localTxn (.ofValue (keccak256 key.toBytes) (slotData rlp value)) := by
  unfold storageObject slotData
  split_ifs
  · rfl
  · rfl

omit [Keccak] in
theorem slotValue_slotData (hlength : ∀ b : Bytes, b.length ≤ 32 → (rlp.marshal (.bytes b)).length < Rlp.maxLength)
    (value : Hash) : slotValue rlp (slotData rlp value) = value := by
  unfold slotData
  split_ifs with hzero
  · exact hzero.symm
  · have hshort : (trimLeft value.toBytes).length ≤ 32 :=
      (List.dropWhile_sublist _).length_le.trans value.length_toBytes.le
    rw [slotValue, rlp.parse_marshal _ (hlength _ hshort)]
    exact FixedBytes.ofBytes_dropWhile value

structure StorageCommitted (rlp : Fastrlp) (storage : Storage) (a : StateObject) (t t' : Tree)
    (root : Hash) (written : List (Bytes × Bytes)) : Prop where
  proper : Proper 65 t'
  get : ∀ key, t'.get (path key) = (a.storage.entries.foldl (fun m entry =>
    Function.update m (keccak256 entry.1.toBytes) (slotData rlp entry.2))
      fun key => t.get (path key)) key
  root_eq : root.toBytes = rootOf rlp t'
  covers : ContentStore.Covers addressOf storage (storedNodes rlp t') written

theorem commitStorage_spec {a : StateObject} {t : Tree} (h : Opened rlp storage a.account.root t)
    (halive : a.deleted = false) (hfuel : pathFuel ≤ fuel) (addr : Address) :
    ∃ root written t', commitStorage rlp fuel storage (a.toObject addr) = .ok (root, written) ∧
      StorageCommitted rlp storage a t t' root written := by
  have hstorage : (a.toObject addr).storage = a.storage.entries.map fun entry => storageObject entry.1 entry.2 := by
    rw [StateObject.toObject, halive]
    rfl
  unfold commitStorage
  rw [hstorage, List.length_map]
  by_cases hnil : a.storage.entries.length = 0
  · rw [if_pos hnil]
    refine ⟨_, _, t, rfl, h.proper, ?_, h.root_eq, h.has.covers⟩
    rw [List.length_eq_zero_iff.mp hnil]
    exact fun _ => rfl
  · rw [if_neg hnil]
    obtain ⟨trie, u, u', root', t', written, htrie, hrun, hhash, _, hbatch, _, hproper, hget, hroot,
      hcovers⟩ := h.run (fun _ => rfl) (a.storage.entries.map fun entry =>
        Op.ofValue (keccak256 entry.1.toBytes) (slotData rlp entry.2)) hfuel
    simp only [List.foldl_map, Op.write_ofValue] at hget
    refine ⟨root', written, t', ?_, hproper, hget, hroot, hcovers⟩
    have htrie' : newTrieAt rlp storage (a.toObject addr).root = .ok trie := htrie
    rw [htrie', panicOnStateError]
    rw [List.foldlM_map] at hrun
    simp only [bind, Except.bind, List.foldlM_map, commitEntry_storageObject]
    rw [hrun]
    simp only [hhash, hbatch, FixedBytes.ofBytes_toBytes]
    rfl

theorem StorageCommitted.slot {a : StateObject} {root : Hash} {written : List (Bytes × Bytes)} {t t' : Tree}
    (h : StorageCommitted rlp storage a t t' root written)
    (hslot : Function.Injective fun key : Hash => keccak256 key.toBytes)
    (hlength : ∀ b : Bytes, b.length ≤ 32 → (rlp.marshal (.bytes b)).length < Rlp.maxLength) (key : Hash) :
    slotValue rlp (t'.get (path (keccak256 key.toBytes))) =
      (a.storage.lookup key).getD (slotValue rlp (t.get (path (keccak256 key.toBytes)))) := by
  rw [h.get]
  cases hlookup : a.storage.lookup key with
  | none =>
    rw [foldl_update_of_notMem (g := fun key : Hash => keccak256 key.toBytes) (fun _ value => slotData rlp value)]
    · rfl
    · intro entry hentry hkey
      obtain rfl : entry.1 = key := hslot hkey
      exact AList.lookup_eq_none.mp hlookup (AList.mem_keys.mpr (List.mem_map_of_mem hentry))
  | some value =>
    rw [foldl_update_of_mem hslot (fun _ value => slotData rlp value) a.storage.nodupKeys
      (AList.mem_lookup_iff.mp hlookup)]
    exact slotValue_slotData hlength value

inductive Committed (rlp : Fastrlp) (storage : Storage) (addr : Address) (a : StateObject) :
    Option Bytes → List (Bytes × Bytes) → Set Bytes → Prop where
  | deleted : a.deleted = true → Committed rlp storage addr a none [] ∅
  | alive {t t' : Tree} {root : Hash} {written : List (Bytes × Bytes)} : a.deleted = false →
      Opened rlp storage a.account.root t → StorageCommitted rlp storage a t t' root written →
      Committed rlp storage addr a
        (some (rlp.marshal (Object.account (a.toObject addr) root).marshalWith)) written
        (storedNodes rlp t')

theorem Committed.covers {addr : Address} {a : StateObject} {value : Option Bytes} {written : List (Bytes × Bytes)}
    {nodes : Set Bytes} (h : Committed rlp storage addr a value written nodes) :
    ContentStore.Covers addressOf storage nodes written := by
  cases h with
  | deleted => exact ContentStore.covers_empty
  | alive _ _ hcommitted => exact hcommitted.covers

omit [Keccak] in
theorem Txn.put_nil (t : Txn) : t.put [] = t := by
  have hbatch : t.batch.map (· ++ []) = t.batch := by simp
  rw [Txn.put, hbatch]

omit [Keccak] in
theorem Txn.put_put (t : Txn) (written written' : List (Bytes × Bytes)) :
    (t.put written).put written' = t.put (written ++ written') := by
  simp only [Txn.put, Option.map_map, Function.comp_def, List.append_assoc]

theorem commitObject_spec {a : StateObject} (hopen : ∃ t, Opened rlp storage a.account.root t)
    (hfuel : pathFuel ≤ fuel) (addr : Address) :
    ∃ value written nodes, Committed rlp storage addr a value written nodes ∧
      ∀ tt : Txn, tt.storage = storage → commitObject rlp fuel tt (a.toObject addr) =
        Op.run rlp fuel (tt.put written) (.ofValue (keccak256 addr.toBytes) value) := by
  cases hdeleted : a.deleted with
  | true =>
    refine ⟨none, [], ∅, .deleted hdeleted, fun tt _ => ?_⟩
    rw [Txn.put_nil]
    exact if_pos hdeleted
  | false =>
    obtain ⟨t, ht⟩ := hopen
    obtain ⟨root, written, t', hstorage, hcommitted⟩ := commitStorage_spec ht hdeleted hfuel addr
    refine ⟨_, written, _, .alive hdeleted ht hcommitted, fun tt htt => ?_⟩
    have hnot : (a.toObject addr).deleted = false := hdeleted
    rw [commitObject, hnot, htt, hstorage]
    rfl

section Objects

variable {entries : List (Σ _ : Address, StateObject)} (value : Address → StateObject → Option Bytes)
  (written : Address → StateObject → List (Bytes × Bytes))

theorem foldlM_commitObject (hfuel : pathFuel ≤ fuel)
    (h : ∀ entry ∈ entries, ∀ tt : Txn, tt.storage = storage →
      commitObject rlp fuel tt (entry.2.toObject entry.1) = Op.run rlp fuel (tt.put (written entry.1 entry.2))
          (.ofValue (keccak256 entry.1.toBytes) (value entry.1 entry.2)))
    (tt : Txn) (htt : tt.storage = storage) {m : Hash → Option Bytes}
    (hholds : Holds (.linked rlp storage) tt.root m) :
    ∃ root, (entries.map fun entry => entry.2.toObject entry.1).foldlM (commitObject rlp fuel) tt =
        .ok (Txn.put { tt with root := root } (entries.flatMap fun entry => written entry.1 entry.2)) ∧
      Holds (.linked rlp storage) root (entries.foldl (fun m entry =>
        Function.update m (keccak256 entry.1.toBytes) (value entry.1 entry.2)) m) := by
  induction entries generalizing tt m with
  | nil =>
    refine ⟨tt.root, ?_, hholds⟩
    rw [List.flatMap_nil, Txn.put_nil]
    rfl
  | cons entry entries ih =>
    obtain ⟨root, hrun, hroot⟩ := hholds.run (t := tt.put (written entry.1 entry.2))
      (writes_linked storage _) htt (.ofValue (keccak256 entry.1.toBytes) (value entry.1 entry.2)) hfuel
    rw [Op.write_ofValue] at hroot
    obtain ⟨root', hrun', hroot'⟩ := ih (fun entry' hentry' => h entry' (List.mem_cons_of_mem _ hentry'))
      { tt.put (written entry.1 entry.2) with root := root } htt hroot
    refine ⟨root', ?_, hroot'⟩
    rw [List.map_cons, List.foldlM_cons, h entry List.mem_cons_self tt htt]
    have hfirst : Op.run rlp fuel (tt.put (written entry.1 entry.2))
        (.ofValue (keccak256 entry.1.toBytes) (value entry.1 entry.2)) =
          .ok { tt.put (written entry.1 entry.2) with root := root } := hrun
    rw [hfirst]
    simp only [bind, Except.bind]
    rw [hrun', List.flatMap_cons, ← Txn.put_put]
    rfl

end Objects

structure TrieCommitted (rlp : Fastrlp) (storage : Storage) (m : Hash → Option Bytes)
    (entries : List (Σ _ : Address, StateObject)) (value : Address → StateObject → Option Bytes)
    (t' : Tree) (root : Hash) (u : Txn) : Prop where
  proper : Proper 65 t'
  get : ∀ key, t'.get (path key) = entries.foldl (fun m entry =>
    Function.update m (keccak256 entry.1.toBytes) (value entry.1 entry.2)) m key
  root_eq : root.toBytes = rootOf rlp t'
  storage_eq : u.storage = storage
  committed : ∀ entry ∈ entries, ∃ written nodes,
    Committed rlp storage entry.1 entry.2 (value entry.1 entry.2) written nodes ∧
      nodes ⊆ ContentStore.kept addressOf storage (u.batch.getD [])
  stored : storedNodes rlp t' ⊆ ContentStore.kept addressOf storage (u.batch.getD [])
  addressed : ∃ data, ContentStore.Covers addressOf storage data (u.batch.getD [])

section TrieCommitted

variable {m : Hash → Option Bytes} {entries : List (Σ _ : Address, StateObject)}
  {value : Address → StateObject → Option Bytes} {t' : Tree} {root : Hash} {u : Txn}

theorem TrieCommitted.get_of_mem (h : TrieCommitted rlp storage m entries value t' root u)
    (haddress : Function.Injective fun addr : Address => keccak256 addr.toBytes) (hentries : entries.NodupKeys)
    {addr : Address} {a : StateObject} (hmem : ⟨addr, a⟩ ∈ entries) :
    t'.get (path (keccak256 addr.toBytes)) = value addr a := by
  rw [h.get]
  exact foldl_update_of_mem haddress value hentries hmem m

theorem TrieCommitted.get_of_notMem (h : TrieCommitted rlp storage m entries value t' root u) {key : Hash}
    (hnot : ∀ entry ∈ entries, keccak256 entry.1.toBytes ≠ key) : t'.get (path key) = m key := by
  rw [h.get]
  exact foldl_update_of_notMem (g := fun addr : Address => keccak256 addr.toBytes) value hnot m

end TrieCommitted

theorem Trie.commit_spec {s : Snapshot} {t : Tree} (h : s.Intact rlp t)
    {entries : List (Σ _ : Address, StateObject)}
    (hopen : ∀ entry ∈ entries, ∃ t, Opened rlp s.trie.storage entry.2.account.root t) (hfuel : pathFuel ≤ fuel) :
    ∃ (value : Address → StateObject → Option Bytes) (t' : Tree) (root : Hash) (u : Txn),
      s.trie.commit rlp fuel (entries.map fun entry => entry.2.toObject entry.1) =
        .ok (root.toBytes, u) ∧
      TrieCommitted rlp s.trie.storage (fun key => t.get (path key)) entries value t' root u := by
  -- what is written for each object does not depend on the others
  have hspec : ∀ addr a, ∃ value written nodes, ⟨addr, a⟩ ∈ entries →
      Committed rlp s.trie.storage addr a value written nodes ∧
        ∀ tt : Txn, tt.storage = s.trie.storage → commitObject rlp fuel tt (a.toObject addr) =
          Op.run rlp fuel (tt.put written) (.ofValue (keccak256 addr.toBytes) value) := by
    intro addr a
    by_cases hmem : ⟨addr, a⟩ ∈ entries
    · obtain ⟨value, written, nodes, hcommitted⟩ := commitObject_spec (hopen _ hmem) hfuel addr
      exact ⟨value, written, nodes, fun _ => hcommitted⟩
    · exact ⟨none, [], ∅, fun hmem' => absurd hmem' hmem⟩
  choose value written nodes hspec using hspec
  obtain ⟨node, hrun, t', hrefines, hproper, hget⟩ := foldlM_commitObject value written hfuel
      (fun entry hentry => (hspec entry.1 entry.2 hentry).2)
      { s.trie.txn with batch := some [] } rfl ⟨t, h.refines, h.proper, fun _ => rfl⟩
  obtain ⟨node', written', hhash, _, hcovers⟩ := Txn.hash_of_refines
    (t := Txn.put { s.trie.txn with root := node, batch := some [] }
      (entries.flatMap fun entry => written entry.1 entry.2)) hrefines hproper
  obtain ⟨root, hroot⟩ := exists_root rlp t'
  have hall : ContentStore.Covers addressOf s.trie.storage
      ((⋃ entry ∈ entries, nodes entry.1 entry.2) ∪ storedNodes rlp t')
      ((entries.flatMap fun entry => written entry.1 entry.2) ++ written') :=
    (ContentStore.Covers.flatMap entries fun entry hentry =>
      (hspec entry.1 entry.2 hentry).1.covers).append hcovers
  have hcommit : s.trie.commit rlp fuel (entries.map fun entry => entry.2.toObject entry.1) =
      Txn.hash rlp (Txn.put { s.trie.txn with root := node, batch := some [] }
        (entries.flatMap fun entry => written entry.1 entry.2)) := by
    rw [Trie.commit, hrun]
    rfl
  rw [← hroot] at hhash
  refine ⟨value, t', root, _, hcommit.trans hhash, hproper, hget, hroot, rfl, ?_, ?_, ⟨_, hall⟩⟩
  · intro entry hentry
    refine ⟨_, _, (hspec entry.1 entry.2 hentry).1, ?_⟩
    exact fun d hd => hall.subset_kept (.inl (Set.mem_biUnion hentry hd))
  · exact fun d hd => hall.subset_kept (.inr hd)

structure Unambiguous (rlp : Fastrlp) (u : Txn) : Prop where
  keccak256_injOn : Set.InjOn keccak256
    ({rlp.marshal (.bytes [])} ∪ ContentStore.kept addressOf u.storage (u.batch.getD []))
  length_lt : ∀ data ∈ ContentStore.kept addressOf u.storage (u.batch.getD []),
    data.length < Rlp.maxLength

section Written

variable {u : Txn} {t : Tree} {root : Hash}

theorem Unambiguous.opened (h : Unambiguous rlp u)
    (haddressed : ∃ data, ContentStore.Covers addressOf u.storage data (u.batch.getD []))
    (hempty : emptyRoot = (keccak256 (rlp.marshal (.bytes []))).toBytes) (hproper : Proper 65 t)
    (hstored : storedNodes rlp t ⊆ ContentStore.kept addressOf u.storage (u.batch.getD []))
    (hroot : root.toBytes = rootOf rlp t) : Opened rlp u.written root t := by
  obtain ⟨data, hcovers⟩ := haddressed
  have hinj : Set.InjOn addressOf (ContentStore.kept addressOf u.storage (u.batch.getD [])) :=
    fun _ hd _ hd' heq => h.keccak256_injOn (.inr hd) (.inr hd') (FixedBytes.ext heq)
  have hstorable : Storable rlp t :=
    ⟨h.keccak256_injOn.mono (Set.union_subset_union_right _ hstored), fun d hd => h.length_lt d (hstored hd)⟩
  exact hstorable.opened hempty hproper (fun d hd => hcovers.has_kept hinj d (hstored hd)) hroot

end Written

end Itrie

structure AccountState where
  balance : Nat
  nonce : Nat
  codeHash : Hash
  slots : Hash → Hash

def Txn.world (txn : Txn) (addr : Address) : Option AccountState :=
  if txn.exist addr then
    some {
      balance := txn.getBalance addr
      nonce := txn.getNonce addr
      codeHash := txn.getCodeHash addr
      slots := txn.getState addr }
  else none

theorem Txn.world_of_none {txn : Txn} {addr : Address} (h : txn.getStateObject addr = none) :
    txn.world addr = none := by
  simp [Txn.world, Txn.exist, h]

theorem Txn.world_of_some {txn : Txn} {addr : Address} {obj : StateObject}
    (h : txn.getStateObject addr = some obj) :
    txn.world addr = some {
      balance := obj.account.balance
      nonce := obj.account.nonce
      codeHash := FixedBytes.ofBytes 32 obj.account.codeHash
      slots := fun key =>
        (obj.storage.lookup key).getD (txn.snapshot.getStorage addr obj.account.root key) } := by
  have hslots : txn.getState addr = fun key =>
      (obj.storage.lookup key).getD (txn.snapshot.getStorage addr obj.account.root key) := by
    funext key
    rw [Txn.getState, h]
  simp [Txn.world, Txn.exist, Txn.getBalance, Txn.getNonce, Txn.getCodeHash, h, hslots]

namespace Itrie

namespace Snapshot

variable [Keccak] {rlp : Fastrlp} {fuel : Nat} {s s' : Snapshot} {t t' : Tree} {addr : Address}

def Shows (rlp : Fastrlp) (fuel : Nat) (s : Snapshot) (addr : Address) : Option AccountState → Prop
  | none => s.getAccount rlp fuel addr = .ok (.ok none) ∨
      ∃ e, s.getAccount rlp fuel addr = .ok (.error e)
  | some a => ∃ account, s.getAccount rlp fuel addr = .ok (.ok (some account)) ∧
      account.balance = a.balance ∧ account.nonce = a.nonce ∧
      FixedBytes.ofBytes 32 account.codeHash = a.codeHash ∧
      ∀ key, s.getStorage rlp fuel account.root key = .ok (a.slots key)

theorem getAccount_reader {account : Account} (h : (s.reader rlp fuel).getAccount addr = some account) :
    s.getAccount rlp fuel addr = .ok (.ok (some account)) := by
  change (s.getAccount rlp fuel addr).toOption.bind (fun r => r.toOption.join) = some account at h
  cases hget : s.getAccount rlp fuel addr with
  | error e =>
    rw [hget] at h
    exact nomatch h
  | ok r =>
    rw [hget] at h
    cases r with
    | error e => exact nomatch h
    | ok account' =>
      rw [show account' = some account from h]

theorem getStorage_reader {root : Hash} (h : Opened rlp s.trie.storage root t) (hfuel : pathFuel ≤ fuel)
    (addr : Address) (key : Hash) :
    (s.reader rlp fuel).getStorage addr root key =
      slotValue rlp (t.get (path (keccak256 key.toBytes))) := by
  change ((s.getStorage rlp fuel root key).toOption.getD zeroHash) = _
  rw [getStorage_of_opened h hfuel]
  rfl

theorem Intact.opened_of_getAccount (h : s.Intact rlp t) (hfuel : pathFuel ≤ fuel) {account : Account}
    (haccount : s.getAccount rlp fuel addr = .ok (.ok (some account))) :
    ∃ t', Opened rlp s.trie.storage account.root t' := by
  rw [h.getAccount hfuel] at haccount
  exact h.opened _ account (Except.ok.inj haccount)

theorem Intact.shows_world (h : s.Intact rlp t) (hfuel : pathFuel ≤ fuel) {txn : Nxchain.Txn}
    (hsnapshot : txn.snapshot = s.reader rlp fuel) (hnone : txn.overlay.objects.lookup addr = none) :
    s.Shows rlp fuel addr (txn.world addr) := by
  have hobj : txn.getStateObject addr =
      ((s.reader rlp fuel).getAccount addr).map fun account => { account := account } := by
    rw [Nxchain.Txn.getStateObject, hnone, hsnapshot]
  have hget := h.getAccount hfuel addr
  cases haccount : (s.reader rlp fuel).getAccount addr with
  | none =>
    rw [haccount] at hobj
    rw [Nxchain.Txn.world_of_none hobj]
    change (s.getAccount rlp fuel addr).toOption.bind (fun r => r.toOption.join) = none at haccount
    rw [hget] at haccount
    cases hat : accountAt rlp (t.get (path (keccak256 addr.toBytes))) with
    | error e =>
      rw [hat] at hget
      exact .inr ⟨e, hget⟩
    | ok account =>
      rw [hat] at haccount hget
      rw [show account = none from haccount] at hget
      exact .inl hget
  | some account =>
    rw [haccount] at hobj
    rw [Nxchain.Txn.world_of_some hobj]
    have hsome := getAccount_reader haccount
    obtain ⟨t', hopened⟩ := h.opened_of_getAccount hfuel hsome
    refine ⟨account, hsome, rfl, rfl, rfl, fun key => ?_⟩
    rw [getStorage_of_opened hopened hfuel, hsnapshot]
    exact congrArg Except.ok (getStorage_reader hopened hfuel addr key).symm

theorem Intact.shows_of_same (h : s.Intact rlp t) (h' : s'.Intact rlp t') (hfuel : pathFuel ≤ fuel)
    (hsame : t'.get (path (keccak256 addr.toBytes)) = t.get (path (keccak256 addr.toBytes)))
    (hreopened : ∀ {root : Hash} {t : Tree}, Opened rlp s.trie.storage root t → Opened rlp s'.trie.storage root t)
    {o : Option AccountState} (hshows : s.Shows rlp fuel addr o) : s'.Shows rlp fuel addr o := by
  have hget : s'.getAccount rlp fuel addr = s.getAccount rlp fuel addr := by
    rw [h.getAccount hfuel, h'.getAccount hfuel, hsame]
  cases o with
  | none => exact hshows.imp (fun heq => hget.trans heq) fun ⟨e, heq⟩ => ⟨e, hget.trans heq⟩
  | some a =>
    obtain ⟨account, haccount, hbalance, hnonce, hcodeHash, hslots⟩ := hshows
    refine ⟨account, hget.trans haccount, hbalance, hnonce, hcodeHash, fun key => ?_⟩
    obtain ⟨t'', hopened⟩ := h.opened_of_getAccount hfuel haccount
    rw [← hslots key, getStorage_of_opened hopened hfuel, getStorage_of_opened (hreopened hopened) hfuel]

structure Fits (rlp : Fastrlp) (txn : Nxchain.Txn) : Prop where
  slot : ∀ b : Bytes, b.length ≤ 32 → (rlp.marshal (.bytes b)).length < Rlp.maxLength
  account : ∀ addr obj, txn.getStateObject addr = some obj → ∀ root : Hash,
    (rlp.marshal (Object.account (obj.toObject addr) root).marshalWith).length < Rlp.maxLength

def Rooted (rlp : Fastrlp) (storage : Storage) (_ : Address) (obj : StateObject) : Prop :=
  (∃ t, Opened rlp storage obj.account.root t) ∧ obj.account.nonce < 2 ^ 64

theorem Intact.inherited (h : s.Intact rlp t) (hfuel : pathFuel ≤ fuel) (op : CodeCache.Op) :
    CodeCache.Inherited (Rooted rlp s.trie.storage) (s.reader rlp fuel) op where
  fresh _ _ := ⟨⟨_, stores_nil s.trie.storage⟩, Nat.two_pow_pos 64⟩
  loaded addr account _ haccount := by
    have hget := getAccount_reader haccount
    refine ⟨h.opened_of_getAccount hfuel hget, ?_⟩
    rw [h.getAccount hfuel] at hget
    cases hdata : t.get (path (keccak256 addr.toBytes)) with
    | none =>
      rw [hdata] at hget
      exact nomatch hget
    | some data =>
      rw [hdata] at hget
      obtain ⟨account', hread, heq⟩ := Except.map_eq_ok_iff.mp (Except.ok.inj hget)
      obtain rfl := Option.some.inj heq
      exact Account.nonce_lt_of_unmarshalRlp hread
  derives _ _ _ hobj hderives := ⟨hderives.root ▸ hobj.1, hderives.nonce hobj.2⟩

section Refinement

variable {entries : List (Σ _ : Address, StateObject)} {value : Address → StateObject → Option Bytes}
  {root : Hash} {u : Txn}
  (hcommitted : TrieCommitted rlp s.trie.storage (fun key => t.get (path key)) entries value t' root u)
  (haddress : Function.Injective fun addr : Address => keccak256 addr.toBytes)
  (hslot : Function.Injective fun key : Hash => keccak256 key.toBytes)
  (hempty : emptyRoot = (keccak256 (rlp.marshal (.bytes []))).toBytes) (hu : Unambiguous rlp u)

include hcommitted hempty hu

theorem opened_written {t₁ : Tree} {root₁ : Hash} (hproper : Proper 65 t₁)
    (hstored : storedNodes rlp t₁ ⊆ ContentStore.kept addressOf s.trie.storage (u.batch.getD []))
    (hroot : root₁.toBytes = rootOf rlp t₁) : Opened rlp u.written root₁ t₁ := by
  have haddressed := hcommitted.addressed
  rw [← hcommitted.storage_eq] at haddressed hstored
  exact hu.opened haddressed hempty hproper hstored hroot

theorem opened_before {t₁ : Tree} {root₁ : Hash} (hopened : Opened rlp s.trie.storage root₁ t₁) :
    Opened rlp u.written root₁ t₁ :=
  opened_written hcommitted hempty hu hopened.proper (fun d hd => .inr (hopened.has d hd))
    hopened.root_eq

include haddress

theorem Intact.newSnapshotAt (h : s.Intact rlp t) (hentries : entries.NodupKeys)
    (hnonce : ∀ entry ∈ entries, entry.2.account.nonce < 2 ^ 64)
    (hfits : ∀ entry ∈ entries, entry.2.deleted = false → ∀ root : Hash,
      (rlp.marshal (Object.account (entry.2.toObject entry.1) root).marshalWith).length < Rlp.maxLength)
    (code : Hash → Option Bytes) :
    ∃ s', Itrie.newSnapshotAt rlp u.written code root = .ok s' ∧ s'.trie.storage = u.written ∧
      s'.Intact rlp t' := by
  obtain ⟨trie, htrie, hstorage, hrefines⟩ := (opened_written hcommitted hempty hu hcommitted.proper
    hcommitted.stored hcommitted.root_eq).newTrieAt
  refine ⟨⟨trie, code⟩, ?_, hstorage, ?_, hcommitted.proper, ?_⟩
  · rw [Itrie.newSnapshotAt, htrie]
    rfl
  · rw [hstorage]
    exact hrefines
  intro key account haccount
  rw [hstorage]
  by_cases hkey : ∃ entry ∈ entries, keccak256 entry.1.toBytes = key
  · obtain ⟨⟨addr, a⟩, hentry, rfl⟩ := hkey
    obtain ⟨written, nodes, hobject, hnodes⟩ := hcommitted.committed _ hentry
    rw [hcommitted.get_of_mem haddress hentries hentry] at haccount
    generalize value addr a = data at hobject haccount
    cases hobject with
    | deleted => exact nomatch haccount
    | @alive t₀ t₁ root₁ _ halive _ ht₁ =>
      have hread := Account.unmarshalRlp_marshal rlp.toCodec
        (a := Object.account (a.toObject addr) root₁) (hnonce _ hentry) (hfits _ hentry halive root₁)
      rw [accountAt, hread] at haccount
      obtain rfl := Option.some.inj (Except.ok.inj haccount)
      exact ⟨t₁, opened_written hcommitted hempty hu ht₁.proper hnodes ht₁.root_eq⟩
  · rw [hcommitted.get_of_notMem fun entry hentry heq => hkey ⟨entry, hentry, heq⟩] at haccount
    obtain ⟨t₁, hopened⟩ := h.opened key account haccount
    exact ⟨t₁, opened_before hcommitted hempty hu hopened⟩

include hslot

theorem Intact.shows_object (h' : s'.Intact rlp t') (hstorage : s'.trie.storage = u.written)
    (hfuel : pathFuel ≤ fuel) (hentries : entries.NodupKeys) {a : StateObject} (hentry : ⟨addr, a⟩ ∈ entries)
    (halive : a.deleted = false) (hnonce : a.account.nonce < 2 ^ 64) {txn : Nxchain.Txn}
    (hsnapshot : txn.snapshot = s.reader rlp fuel) (hobj : txn.getStateObject addr = some a)
    (hfits : Fits rlp txn) : s'.Shows rlp fuel addr (txn.world addr) := by
  obtain ⟨written, nodes, hobject, hnodes⟩ := hcommitted.committed _ hentry
  have hget := hcommitted.get_of_mem haddress hentries hentry
  generalize value addr a = data at hobject hget
  cases hobject with
  | deleted hdeleted => exact absurd (halive.symm.trans hdeleted) Bool.false_ne_true
  | @alive t₀ t₁ root₁ _ _ ht₀ ht₁ =>
    have hread := Account.unmarshalRlp_marshal rlp.toCodec
      (a := Object.account (a.toObject addr) root₁) hnonce (hfits.account addr a hobj root₁)
    have hopened : Opened rlp s'.trie.storage root₁ t₁ := by
      rw [hstorage]
      exact opened_written hcommitted hempty hu ht₁.proper hnodes ht₁.root_eq
    rw [Nxchain.Txn.world_of_some hobj]
    refine ⟨Object.account (a.toObject addr) root₁, ?_, rfl, rfl, ?_, fun key => ?_⟩
    · rw [h'.getAccount hfuel, hget, accountAt, hread]
      rfl
    · exact FixedBytes.ofBytes_toBytes _
    · change s'.getStorage rlp fuel root₁ key = _
      rw [getStorage_of_opened hopened hfuel, ht₁.slot hslot hfits.slot, hsnapshot,
        ← getStorage_reader ht₀ hfuel addr]

end Refinement

theorem commit_refines (hintact : s.Intact rlp t) (hfuel : pathFuel ≤ fuel)
    (hempty : emptyRoot = (keccak256 (rlp.marshal (.bytes []))).toBytes)
    (haddress : Function.Injective fun addr : Address => keccak256 addr.toBytes)
    (hslot : Function.Injective fun key : Hash => keccak256 key.toBytes) (ops : List CodeCache.Op)
    (htyped : ∀ op ∈ ops, op.Typed) (deleteEmptyObjects : Bool) :
    let txn := ops.foldl CodeCache.step (.newTxn (s.reader rlp fuel))
    let clean := txn.cleanDeleteObjects deleteEmptyObjects
    ∃ (root : Hash) (u : Txn),
      s.trie.commit rlp fuel (txn.commit deleteEmptyObjects) = .ok (root.toBytes, u) ∧
      u.storage = s.trie.storage ∧
      (Unambiguous rlp u → Fits rlp clean → ∃ s' t', Itrie.newSnapshotAt rlp u.written
            ((txn.commit deleteEmptyObjects).foldl commitCode s.code) root = .ok s' ∧
          s'.Intact rlp t' ∧ (∀ addr, s'.Shows rlp fuel addr (clean.world addr)) ∧
          (∀ addr obj, clean.overlay.objects.lookup addr = some obj → obj.deleted = true →
            s'.getAccount rlp fuel addr = .ok (.ok none)) ∧
          ∀ addr, (∀ op ∈ ops, op.address ≠ some addr) → ∀ o, s.Shows rlp fuel addr o →
            s'.Shows rlp fuel addr o) := by
  intro txn clean
  have hsnapshot : clean.snapshot = s.reader rlp fuel := CodeCache.snapshot_foldl_step ops _
  have hrooted : CodeCache.Every (Rooted rlp s.trie.storage) clean :=
    CodeCache.Every.clean (fun op _ => hintact.inherited hfuel op) htyped _
  have hentry : ∀ entry ∈ clean.overlay.objects.entries, Rooted rlp s.trie.storage entry.1 entry.2 :=
    fun entry hmem => hrooted.current entry.1 entry.2 (AList.mem_lookup_iff.mpr hmem)
  have hobject : ∀ {addr obj}, clean.overlay.objects.lookup addr = some obj →
      clean.getStateObject addr = if obj.deleted then none else some obj := by
    intro addr obj hlookup
    rw [Nxchain.Txn.getStateObject, hlookup]
  obtain ⟨value, t', root, u, hcommit, hcommitted⟩ :=
    Trie.commit_spec hintact (fun entry hmem => (hentry entry hmem).1) hfuel
  refine ⟨root, u, hcommit, hcommitted.storage_eq, fun hu hfits => ?_⟩
  have hnodup := clean.overlay.objects.nodupKeys
  obtain ⟨s', hsnapshotAt, hstorage, hintact'⟩ := Intact.newSnapshotAt hcommitted haddress hempty hu hintact hnodup
      (fun entry hmem => (hentry entry hmem).2) (fun entry hmem halive => hfits.account _ _
        (by rw [hobject (AList.mem_lookup_iff.mpr hmem), halive]; rfl))
      ((txn.commit deleteEmptyObjects).foldl commitCode s.code)
  -- an account without an object has the entry that it had before
  have hsame : ∀ addr, clean.overlay.objects.lookup addr = none → ∀ o, s.Shows rlp fuel addr o →
      s'.Shows rlp fuel addr o := by
    intro addr hlookup o hshows
    refine hintact.shows_of_same hintact' hfuel ?_ (fun hopened => ?_) hshows
    · refine hcommitted.get_of_notMem fun entry hmem hkey => ?_
      obtain rfl : entry.1 = addr := haddress hkey
      exact AList.lookup_eq_none.mp hlookup (AList.mem_keys.mpr (List.mem_map_of_mem hmem))
    · rw [hstorage]
      exact opened_before hcommitted hempty hu hopened
  have hdeleted : ∀ addr obj, clean.overlay.objects.lookup addr = some obj → obj.deleted = true →
      s'.getAccount rlp fuel addr = .ok (.ok none) := by
    intro addr obj hlookup hdeleted
    have hmem := AList.mem_lookup_iff.mp hlookup
    rw [hintact'.getAccount hfuel, hcommitted.get_of_mem haddress hnodup hmem]
    obtain ⟨written, nodes, hcommittedObj, _⟩ := hcommitted.committed _ hmem
    dsimp only at hcommittedObj
    generalize value addr obj = data at hcommittedObj
    cases hcommittedObj with
    | deleted => rfl
    | alive halive => exact absurd (halive.symm.trans hdeleted) Bool.false_ne_true
  refine ⟨s', t', hsnapshotAt, hintact', fun addr => ?_, hdeleted, fun addr hnot => ?_⟩
  · cases hlookup : clean.overlay.objects.lookup addr with
    | none => exact hsame addr hlookup _ (hintact.shows_world hfuel hsnapshot hlookup)
    | some obj =>
      have hmem := AList.mem_lookup_iff.mp hlookup
      have hobj := hobject hlookup
      cases halive : obj.deleted with
      | true =>
        rw [halive] at hobj
        rw [Nxchain.Txn.world_of_none hobj]
        exact .inl (hdeleted addr obj hlookup halive)
      | false =>
        rw [halive] at hobj
        exact Intact.shows_object hcommitted haddress hslot hempty hu hintact' hstorage hfuel hnodup
          hmem halive (hentry _ hmem).2 hsnapshot hobj hfits
  · have huntouched : CodeCache.Every (fun addr' _ => addr' ≠ addr) clean := by
      refine CodeCache.Every.clean (fun op hop => ⟨?_, ?_, fun _ _ _ h _ => h⟩) htyped _
      · rintro addr' haddr' rfl
        exact hnot op hop haddr'
      · rintro addr' _ haddr' _ rfl
        exact hnot op hop haddr'
    refine hsame addr ?_
    cases hlookup : clean.overlay.objects.lookup addr with
    | none => rfl
    | some obj => exact absurd rfl (huntouched.current addr obj hlookup)

end Snapshot

section Sample

local instance worldKeccak : Keccak := rootKeccak

theorem rootKeccak_injective {n : Nat} (hn : n ≤ 32) (hne : n ≠ 1) :
    Function.Injective fun b : FixedBytes n => keccak256 b.toBytes := by
  have hkeccak : ∀ b : FixedBytes n, keccak256 b.toBytes = FixedBytes.ofBytes 32 b.toBytes := by
    intro b
    refine if_neg fun heq => hne ?_
    rw [← b.length_toBytes, heq]
    rfl
  intro b b' heq
  simp only [hkeccak] at heq
  have hbytes := congrArg FixedBytes.toBytes heq
  rw [FixedBytes.toBytes_ofBytes (b.length_toBytes.trans_le hn),
    FixedBytes.toBytes_ofBytes (b'.length_toBytes.trans_le hn)] at hbytes
  exact FixedBytes.ext (List.append_inj_right' hbytes (b.length_toBytes.trans b'.length_toBytes.symm))

def emptySnapshot : Snapshot where
  trie := newTrie fun _ => none
  code _ := none

theorem intact_emptySnapshot : emptySnapshot.Intact sampleRlp .nil where
  refines := .nil
  proper := (treeOf_spec []).1
  opened := nofun

def sampleCalls : List CodeCache.Op :=
  [.addBalance zeroAddress 5, .setState zeroAddress zeroHash (word 7)]

def sampleOverlay : Nxchain.Txn :=
  sampleCalls.foldl CodeCache.step (.newTxn (emptySnapshot.reader sampleRlp pathFuel))

def sampleNodes : List Bytes :=
  let slot := sampleRlp.marshal (.list [.bytes (encodeCompact (path zeroHash)), .bytes [7]])
  let account : Account :=
    { nonce := 0, balance := 5, root := keccak256 slot, codeHash := emptyCodeHash }
  [slot, sampleRlp.marshal (.list [.bytes (encodeCompact (path zeroHash)),
    .bytes (sampleRlp.marshal account.marshalWith)])]

theorem commit_sampleOverlay :
    (emptySnapshot.trie.commit sampleRlp pathFuel (sampleOverlay.commit true)).toOption.map
      (fun r => r.2.batch) = some (some (sampleNodes.map fun data => (addressOf data, data))) := by
  decide +kernel

theorem unambiguous_sample {u : Txn} (hstorage : u.storage = fun _ => none)
    (hbatch : u.batch = some (sampleNodes.map fun data => (addressOf data, data))) : Unambiguous sampleRlp u := by
  have hkept : ∀ data ∈ ContentStore.kept addressOf u.storage (u.batch.getD []), data ∈ sampleNodes := by
    rw [hstorage, hbatch]
    rintro data (hmem | hnone)
    · obtain ⟨data', hdata', heq⟩ := List.mem_map.mp hmem
      exact (Prod.mk.inj heq).2 ▸ hdata'
    · exact nomatch hnone
  have hinj : ∀ data ∈ sampleRlp.marshal (.bytes []) :: sampleNodes,
      ∀ data' ∈ sampleRlp.marshal (.bytes []) :: sampleNodes, keccak256 data = keccak256 data' → data = data' := by
    decide +kernel
  have hall : ∀ data ∈ {sampleRlp.marshal (.bytes [])} ∪ ContentStore.kept addressOf u.storage (u.batch.getD []),
      data ∈ sampleRlp.marshal (.bytes []) :: sampleNodes := by
    rintro data (rfl | hdata)
    · exact List.mem_cons_self
    · exact List.mem_cons_of_mem _ (hkept data hdata)
  have hshort : ∀ data ∈ sampleNodes, data.length < 256 := by decide +kernel
  refine ⟨fun data hdata data' hdata' => hinj data (hall data hdata) data' (hall data' hdata'), ?_⟩
  intro data hdata
  exact (hshort data (hkept data hdata)).trans (by norm_num [Rlp.maxLength])

theorem length_marshal_account {a : Account} (hnonce : a.nonce < 256) (hbalance : a.balance < 256)
    (hcodeHash : a.codeHash.length = 32) : (sampleRlp.marshal a.marshalWith).length < Rlp.maxLength := by
  have hsmall : ∀ b : Bytes, b.length ≤ 32 → (Rlp.encode (.bytes b)).length ≤ 34 := by
    intro b hb
    have := Rlp.length_encode_bytes_le (b := b) (k := 1) (by omega)
    omega
  have h₁ := hsmall (Rlp.bigEndian a.nonce) ((Rlp.length_bigEndian_le (k := 1) (by omega)).trans (by omega))
  have h₂ := hsmall (Rlp.bigEndian a.balance) ((Rlp.length_bigEndian_le (k := 1) (by omega)).trans (by omega))
  have h₃ := hsmall a.root.toBytes a.root.length_toBytes.le
  have h₄ := hsmall a.codeHash hcodeHash.le
  have hall : (Rlp.encodeAll [.bytes (Rlp.bigEndian a.nonce), .bytes (Rlp.bigEndian a.balance),
      .bytes a.root.toBytes, .bytes a.codeHash]).length ≤ 136 := by
    simp only [Rlp.encodeAll, List.length_append, List.length_nil]
    omega
  have hlist := Rlp.length_encode_list_le (k := 1) (hall.trans_lt (by norm_num))
  exact (hlist.trans (Nat.add_le_add_left hall _)).trans_lt (by norm_num [Rlp.maxLength])

theorem fits_sampleOverlay : Snapshot.Fits sampleRlp (sampleOverlay.cleanDeleteObjects true) where
  slot b hb := by
    have := Rlp.length_encode_bytes_le (b := b) (k := 1) (by omega)
    exact this.trans_lt (by norm_num [Rlp.maxLength]; omega)
  account addr obj hobj root := by
    have hentries : ∀ entry ∈ (sampleOverlay.cleanDeleteObjects true).overlay.objects.entries,
        entry.2.account.nonce < 256 ∧ entry.2.account.balance < 256 := by
      decide +kernel
    have hlookup : (sampleOverlay.cleanDeleteObjects true).overlay.objects.lookup addr = some obj := by
      cases hlookup : (sampleOverlay.cleanDeleteObjects true).overlay.objects.lookup addr with
      | some found =>
        simp only [Nxchain.Txn.getStateObject, hlookup] at hobj
        split_ifs at hobj
        exact hobj
      | none =>
        -- there are no accounts in the snapshot
        simp only [Nxchain.Txn.getStateObject, hlookup] at hobj
        obtain ⟨account, haccount, _⟩ := Option.map_eq_some_iff.mp hobj
        have hget : emptySnapshot.getAccount sampleRlp pathFuel addr = .ok (.ok (some account)) :=
          Snapshot.getAccount_reader haccount
        cases hget
    obtain ⟨hnonce, hbalance⟩ := hentries _ (AList.mem_lookup_iff.mp hlookup)
    exact length_marshal_account hnonce hbalance (FixedBytes.length_toBytes _)

theorem commit_refines_sample :
    ∃ root u s', emptySnapshot.trie.commit sampleRlp pathFuel (sampleOverlay.commit true) =
        .ok (FixedBytes.toBytes (n := 32) root, u) ∧
      newSnapshotAt sampleRlp u.written ((sampleOverlay.commit true).foldl commitCode fun _ => none)
        root = .ok s' ∧
      ∀ addr, s'.Shows sampleRlp pathFuel addr
        ((sampleOverlay.cleanDeleteObjects true).world addr) := by
  obtain ⟨root, u, hcommit, hstorage, hrefines⟩ := Snapshot.commit_refines intact_emptySnapshot le_rfl
    (by decide +kernel) (rootKeccak_injective (by decide) (by decide))
    (rootKeccak_injective (by decide) (by decide)) sampleCalls
    (List.forall_mem_cons.mpr ⟨trivial, List.forall_mem_singleton.mpr trivial⟩) true
  have hbatch := commit_sampleOverlay
  rw [show emptySnapshot.trie.commit sampleRlp pathFuel (sampleOverlay.commit true) =
    .ok (root.toBytes, u) from hcommit] at hbatch
  obtain ⟨s', t', hsnapshot, _, hshows, _⟩ := hrefines
    (unambiguous_sample hstorage (Option.some.inj hbatch)) fits_sampleOverlay
  exact ⟨root, u, s', hcommit, hsnapshot, hshows⟩

end Sample

end Itrie

end Nxchain
