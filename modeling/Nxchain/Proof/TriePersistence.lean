import Nxchain.Proof.TrieRoot

namespace Nxchain

namespace Itrie

theorem Proper.leaf_or_branch {key : List Nibble} {child : Tree} {m : Nat}
    (h : Proper (key.length + m) (.ext key child)) :
    (hasTerminator key = true ∧ ∃ value, child = .leaf value) ∨
      (hasTerminator key = false ∧ child ≠ .nil ∧ ∃ m', m = m' + 1) := by
  obtain ⟨hkey, hnil, _⟩ := h.canonical
  obtain ⟨k, hk, hget⟩ := h.child.canonical.exists_get hnil
  have hterminated := h.terminated (key ++ k) (by rw [List.length_append, hk]) (by rwa [RadixTree.get_ext_append])
  obtain ⟨body, last, rfl⟩ : ∃ body last, key = body ++ [last] := by
    obtain rfl | ⟨body, last, rfl⟩ := List.eq_nil_or_concat key
    · exact absurd rfl hkey
    · exact ⟨body, last, List.concat_eq_append⟩
  have hlast : last = terminator ↔ k = [] := hterminated body last k (by simp)
  have hends : hasTerminator (body ++ [last]) = true ↔ last = terminator := by
    rw [hasTerminator, decide_eq_true_eq, List.getLast?_concat, Option.some_inj]
  cases m with
  | zero =>
    left
    refine ⟨hends.mpr (hlast.mpr (List.length_eq_zero_iff.mp hk)), ?_⟩
    exact h.child.canonical.of_zero.resolve_left hnil
  | succ m =>
    right
    refine ⟨?_, hnil, m, rfl⟩
    rw [← Bool.not_eq_true, hends, hlast]
    rintro rfl
    simp at hk

theorem decodeAll_eq_map (vs : List Rlp.Value) : decodeAll vs = vs.map decodeNode := by
  induction vs with
  | nil => rfl
  | cons v vs ih => rw [decodeAll, ih, List.map_cons]

theorem decodeNode_short (key value : Rlp.Value) :
    decodeNode (.list [key, value]) = decodeShort key value (decodeNode value) := by
  simp only [decodeNode, decodeAll]

theorem decodeNode_full {vs : List Rlp.Value} (h : vs.length = 17) :
    decodeNode (.list vs) = decodeFull vs (vs.map decodeNode) := by
  match vs, h with
  | a :: b :: c :: vs, h =>
    rw [decodeNode, decodeAll_eq_map, if_pos h]
    intro _ _ _ _ hpair
    cases hpair

theorem decodeFull_map {f : Nibble → Rlp.Value} {nodes : Nibble → Node} (hvalue : f terminator = .bytes [])
    (hnil : ∀ k, f k = .bytes [] → nodes k = .nil)
    (hnode : ∀ k, f k ≠ .bytes [] → decodeNode (f k) = .ok (nodes k)) :
    decodeFull ((List.finRange 17).map f) (((List.finRange 17).map f).map decodeNode) =
      .ok (.full [] 0 nodes) := by
  refine Except.bind_eq_ok_iff.mpr ⟨((List.finRange 17).take 16).map nodes, ?_, ?_⟩
  · rw [List.map_map, List.zip_map', ← List.map_take, Except.mapM_eq_ok_iff,
      List.forall₂_map_left_iff, List.forall₂_map_right_iff, List.forall₂_same]
    intro k _
    by_cases hk : f k = .bytes []
    · simp only [hk, hnil k hk]
    · rw [← hnode k hk]
      dsimp only
      split
      next heq => exact absurd heq hk
      next => rfl
  have hlast : ((List.finRange 17).map f)[16]? = some (.bytes []) := by
    exact congrArg some hvalue
  simp only [hlast]
  refine congrArg (fun edges => Except.ok (Node.full [] 0 edges)) (funext fun k => ?_)
  split_ifs with hk
  · rw [hk, hnil terminator hvalue]
  · obtain ⟨i, rfl⟩ := castSucc_of_ne_terminator hk
    have htake : ((List.finRange 17).take 16)[i.val]? = some i.castSucc := by
      rw [List.getElem?_take_of_lt i.isLt,
        List.getElem?_eq_getElem (by rw [List.length_finRange]; omega), List.getElem_finRange]
      rfl
    rw [List.getD_eq_getElem?_getD, List.getElem?_map, Fin.val_castSucc, htake]
    rfl

section Persistence

variable [Keccak] {rlp : Fastrlp} {storage : Storage} {n : Nat} {t : Tree}

variable {root : Hash} {fuel : Nat}

theorem getNode_address {vs : List Rlp.Value} {node : Node}
    (hstored : storage (addressOf (rlp.marshal (.list vs))) = some (rlp.marshal (.list vs)))
    (hlength : (rlp.marshal (.list vs)).length < Rlp.maxLength) (hdecode : decodeNode (.list vs) = .ok node) :
    getNode rlp storage (addressOf (rlp.marshal (.list vs))) = .ok (some node) := by
  simp only [getNode, hstored, rlp.parse_marshal _ hlength, hdecode]
  rfl

section

variable (h : Proper (n + 1) t) (hne : t ≠ .nil) (hhas : ContentStore.Has addressOf storage (separateNodes rlp t)) (hlength : ∀ data ∈ separateNodes rlp t, data.length < Rlp.maxLength)

include h hne hhas hlength

theorem decodeNode_treeRef {node : Node} (hdecode : decodeNode (treeValue rlp t) = .ok node)
    (hnode : Refines (.linked rlp storage) node t) :
    ∃ node', decodeNode (treeRef rlp t) = .ok node' ∧ Refines (.linked rlp storage) node' t := by
  obtain ⟨vs, hvalue, href, hmem, _⟩ := h.treeValue_eq rlp hne
  rw [hvalue] at hdecode
  by_cases hlen : rlp.len (.list vs) < 32
  · rw [href, nodeRef, if_pos hlen]
    exact ⟨node, hdecode, hnode⟩
  · have hdata : rlp.marshal (.list vs) ∈ separateNodes rlp t := ⟨_, hmem, Nat.not_lt.mp hlen, rfl⟩
    rw [nodeRef, if_neg hlen] at href
    rw [href]
    exact ⟨_, rfl, .reference ⟨href, hhas⟩ (getNode_address (hhas _ hdata) (hlength _ hdata) hdecode) hnode⟩

theorem decodeNode_treeValue :
    ∃ node, decodeNode (treeValue rlp t) = .ok node ∧ Refines (.linked rlp storage) node t := by
  induction t generalizing n with
  | nil => exact absurd rfl hne
  | leaf value => exact nomatch h.canonical
  | ext key child ih =>
    obtain ⟨_, _, _, m, hm, _⟩ := h.canonical
    rw [hm] at h
    have hkey := decodeCompact_encodeCompact h.key
    rw [separateNodes_ext] at hhas hlength
    rw [treeValue, decodeNode_short, decodeShort, hkey]
    rcases h.leaf_or_branch with ⟨hends, value, rfl⟩ | ⟨hends, hchild, m, rfl⟩
    · simp only [bind, Except.bind, hends, treeRef]
      exact ⟨_, rfl, (Refines.value value).newShort key⟩
    · have hhas' := fun data hdata => hhas data (.inl hdata)
      have hlength' := fun data hdata => hlength data (.inl hdata)
      obtain ⟨node, hdecode, hnode⟩ := ih h.child hchild hhas' hlength'
      obtain ⟨node', hdecode', hnode'⟩ := decodeNode_treeRef h.child hchild hhas' hlength' hdecode hnode
      simp only [bind, Except.bind, hends, hdecode']
      exact ⟨_, rfl, hnode'.newShort key⟩
  | branch children ih =>
    obtain ⟨m, rfl⟩ : ∃ m, n = m + 1 := ⟨n - 1, by have := h.branch_pos; omega⟩
    rw [separateNodes_branch] at hhas hlength
    have hedge : ∀ k, ∃ node, (treeRef rlp (children k) = .bytes [] → node = .nil) ∧
        (treeRef rlp (children k) ≠ .bytes [] → decodeNode (treeRef rlp (children k)) = .ok node) ∧
        Refines (.linked rlp storage) node (children k) := by
      intro k
      by_cases hk : children k = .nil
      · rw [hk]
        exact ⟨.nil, fun _ => rfl, fun hne => absurd rfl hne, .nil⟩
      · have hhas' := fun data hdata => hhas data (.inl (Set.mem_iUnion_of_mem k hdata))
        have hlength' := fun data hdata => hlength data (.inl (Set.mem_iUnion_of_mem k hdata))
        obtain ⟨node, hdecode, hnode⟩ := ih k (h.edge k) hk hhas' hlength'
        obtain ⟨node', hdecode', hnode'⟩ := decodeNode_treeRef (h.edge k) hk hhas' hlength' hdecode hnode
        obtain ⟨vs, _, href, _⟩ := (h.edge k).treeValue_eq rlp hk
        exact ⟨node', fun hnil => absurd (href.symm.trans hnil) (nodeRef_list_ne_nil vs),
          fun _ => hdecode', hnode'⟩
    choose nodes hnil hdecode hnodes using hedge
    refine ⟨.full [] 0 nodes, ?_, .newFull hnodes 0⟩
    rw [treeValue, decodeNode_full (by rw [List.length_map, List.length_finRange])]
    exact decodeFull_map (by rw [h.edge_terminator, treeRef]) hnil hdecode

end

structure Opened (rlp : Fastrlp) (storage : Storage) (root : Hash) (t : Tree) : Prop where
  proper : Proper 65 t
  has : ContentStore.Has addressOf storage (storedNodes rlp t)
  length_lt : ∀ data ∈ storedNodes rlp t, data.length < Rlp.maxLength
  root_eq : root.toBytes = rootOf rlp t
  eq_nil : root = emptyStateHash → t = .nil

theorem Opened.newTrieAt (h : Opened rlp storage root t) :
    ∃ trie, Itrie.newTrieAt rlp storage root = .ok trie ∧ trie.storage = storage ∧
      Refines (.linked rlp storage) trie.root t := by
  unfold Itrie.newTrieAt
  by_cases hroot : root = emptyStateHash
  · rw [if_pos hroot, h.eq_nil hroot]
    exact ⟨_, rfl, rfl, .nil⟩
  · have hne : t ≠ .nil := by
      rintro rfl
      exact hroot (FixedBytes.ext h.root_eq)
    obtain ⟨node, hdecode, hnode⟩ := decodeNode_treeValue h.proper hne
      (fun data hdata => h.has data (.inl hdata)) (fun data hdata => h.length_lt data (.inl hdata))
    obtain ⟨vs, hvalue, _, _, hrootOf⟩ := h.proper.treeValue_eq rlp hne
    have hmem : rlp.marshal (.list vs) ∈ storedNodes rlp t := .inr ⟨hne, by rw [hvalue]⟩
    rw [hvalue] at hdecode
    rw [if_neg hroot, h.root_eq, hrootOf, ← addressOf, getNode_address (h.has _ hmem) (h.length_lt _ hmem) hdecode]
    exact ⟨_, rfl, rfl, hnode⟩

theorem exists_root (rlp : Fastrlp) (t : Tree) : ∃ root : Hash, root.toBytes = rootOf rlp t := by
  unfold rootOf
  split
  · exact ⟨emptyStateHash, rfl⟩
  · exact ⟨_, rfl⟩

structure Storable (rlp : Fastrlp) (t : Tree) : Prop where
  keccak256_injOn : Set.InjOn keccak256 ({rlp.marshal (.bytes [])} ∪ storedNodes rlp t)
  length_lt : ∀ data ∈ storedNodes rlp t, data.length < Rlp.maxLength

theorem Storable.addressOf_injOn (h : Storable rlp t) : Set.InjOn addressOf (storedNodes rlp t) :=
  fun _ hdata _ hdata' heq => h.keccak256_injOn (.inr hdata) (.inr hdata') (FixedBytes.ext heq)

section

variable (h : Storable rlp t) (hempty : emptyRoot = (keccak256 (rlp.marshal (.bytes []))).toBytes)

include h hempty

theorem Storable.rootOf_ne (hproper : Proper (n + 1) t) (hne : t ≠ .nil) : rootOf rlp t ≠ emptyRoot := by
  obtain ⟨vs, hvalue, _, _, hroot⟩ := hproper.treeValue_eq rlp hne
  have hmem : rlp.marshal (.list vs) ∈ storedNodes rlp t := .inr ⟨hne, by rw [hvalue]⟩
  rw [hroot, hempty]
  intro heq
  have hmarshal := h.keccak256_injOn (.inr hmem) (.inl rfl) (FixedBytes.ext heq)
  have hparse := rlp.parse_marshal _ (h.length_lt _ hmem)
  have hlength := h.length_lt _ hmem
  rw [hmarshal] at hparse hlength
  exact nomatch Option.some.inj (hparse.symm.trans (rlp.parse_marshal _ hlength))

theorem Storable.opened (hproper : Proper 65 t) (hhas : ContentStore.Has addressOf storage (storedNodes rlp t))
    (hroot : root.toBytes = rootOf rlp t) :
    Opened rlp storage root t where
  proper := hproper
  has := hhas
  length_lt := h.length_lt
  root_eq := hroot
  eq_nil := by
    rintro rfl
    by_contra hne
    exact h.rootOf_ne hempty hproper hne hroot.symm

end

theorem Opened.run (h : Opened rlp storage root t) {m : Hash → Option Bytes} (hm : ∀ key, t.get (path key) = m key)
    (ops : List Op) (hfuel : pathFuel ≤ fuel) :
    ∃ (trie : Trie) (u u' : Txn) (root' : Hash) (t' : Tree) (written : List (Bytes × Bytes)),
      Itrie.newTrieAt rlp storage root = .ok trie ∧
      ops.foldlM (Op.run rlp fuel) { trie.txn with batch := some [] } = .ok u ∧
      u.hash rlp = .ok (root'.toBytes, u') ∧ u'.storage = storage ∧ u'.batch = some written ∧
      Refines (.any rlp storage) u'.root t' ∧ Proper 65 t' ∧
      (∀ key, t'.get (path key) = ops.foldl Op.write m key) ∧ root'.toBytes = rootOf rlp t' ∧
      ContentStore.Covers addressOf storage (storedNodes rlp t') written := by
  obtain ⟨trie, htrie, rfl, hloaded⟩ := h.newTrieAt
  have hholds : Holds (.linked rlp trie.storage) trie.root m := ⟨t, hloaded, h.proper, hm⟩
  obtain ⟨node, hrun, t', hrefines, hproper, hget⟩ :=
    hholds.runAll (t := { trie.txn with batch := some [] }) (writes_linked _ _) rfl hfuel ops
  obtain ⟨node', written, hhash, hnode', hcovers⟩ :=
    Txn.hash_of_refines (t := { trie.txn with root := node, batch := some [] }) hrefines hproper
  obtain ⟨root', hroot'⟩ := exists_root rlp t'
  rw [← hroot'] at hhash
  exact ⟨trie, _, _, root', t', written, htrie, hrun, hhash, rfl, rfl, hnode', hproper, hget, hroot', hcovers⟩

inductive Persisted (rlp : Fastrlp) (fuel : Nat) : List (List Op) → Storage → Hash → Prop where
  | empty (storage : Storage) : Persisted rlp fuel [] storage emptyStateHash
  | round {rounds : List (List Op)} {storage : Storage} {root root' : Hash} {trie : Trie}
      {ops : List Op} {t t' : Txn} :
      Persisted rlp fuel rounds storage root → newTrieAt rlp storage root = .ok trie →
        ops.foldlM (Op.run rlp fuel) { trie.txn with batch := some [] } = .ok t →
        t.hash rlp = .ok (root'.toBytes, t') → Persisted rlp fuel (rounds ++ [ops]) t'.written root'

abbrev Stores (rlp : Fastrlp) (ops : List Op) (storage : Storage) (root : Hash) : Prop :=
  Opened rlp storage root (treeOf ops)

theorem stores_nil (storage : Storage) : Stores rlp [] storage emptyStateHash where
  proper := (treeOf_spec []).1
  has := by
    exact nofun
  length_lt := by
    exact nofun
  root_eq := rfl
  eq_nil _ := rfl

theorem Stores.round {built : List Op} (h : Stores rlp built storage root)
    (hempty : emptyRoot = (keccak256 (rlp.marshal (.bytes []))).toBytes) {ops : List Op}
    (hstorable : Storable rlp (treeOf (built ++ ops))) (hfuel : pathFuel ≤ fuel) :
    ∃ trie t t' root', newTrieAt rlp storage root = .ok trie ∧
      ops.foldlM (Op.run rlp fuel) { trie.txn with batch := some [] } = .ok t ∧
      t.hash rlp = .ok (root'.toBytes, t') ∧ t'.storage = storage ∧
      Refines (.any rlp storage) t'.root (treeOf (built ++ ops)) ∧
      Stores rlp (built ++ ops) t'.written root' := by
  obtain ⟨trie, t, t', root', tree, written, htrie, hrun, hhash, hstorage, hbatch, hnode, hproper,
    hget, hroot, hcovers⟩ := h.run (treeOf_spec built).2 ops hfuel
  obtain ⟨hproper', hget'⟩ := treeOf_spec (built ++ ops)
  obtain rfl : tree = treeOf (built ++ ops) := by
    refine hproper.ext hproper' fun key => ?_
    rw [hget, hget', content, content, List.foldl_append]
  refine ⟨trie, t, t', root', htrie, hrun, hhash, hstorage, hnode, hstorable.opened hempty hproper' ?_ hroot⟩
  rw [Txn.written, hstorage, hbatch]
  exact hcovers.has_write hstorable.addressOf_injOn

theorem Persisted.stores {rounds : List (List Op)} (h : Persisted rlp fuel rounds storage root)
    (hfuel : pathFuel ≤ fuel) (hempty : emptyRoot = (keccak256 (rlp.marshal (.bytes []))).toBytes)
    (hstorable : ∀ p, p <+: rounds → Storable rlp (treeOf p.flatten)) : Stores rlp rounds.flatten storage root := by
  induction h with
  | empty storage => exact stores_nil storage
  | @round rounds storage root root' trie ops t t' _ htrie hrun hhash ih =>
    have hbefore := ih fun p hp => hstorable p (hp.trans (List.prefix_append _ _))
    have hafter := hstorable _ List.prefix_rfl
    rw [List.flatten_append, List.flatten_singleton] at hafter ⊢
    obtain ⟨trie', u, u', root'', htrie', hrun', hhash', _, _, hstores⟩ := hbefore.round hempty hafter hfuel
    obtain rfl := Except.ok.inj (htrie.symm.trans htrie')
    obtain rfl := Except.ok.inj (hrun.symm.trans hrun')
    obtain ⟨hroot, rfl⟩ := Prod.mk.inj (Except.ok.inj (hhash.symm.trans hhash'))
    obtain rfl := FixedBytes.ext hroot
    exact hstores

theorem trie_persists {rounds : List (List Op)} {root : Hash} {fuel : Nat} (hfuel : pathFuel ≤ fuel)
    (hpersisted : Persisted rlp fuel rounds storage root)
    (hempty : emptyRoot = (keccak256 (rlp.marshal (.bytes []))).toBytes) (ops : List Op)
    (hstorable : ∀ p, p <+: rounds ++ [ops] → Storable rlp (treeOf p.flatten)) :
    ∃ trie t t' root' loaded, newTrieAt rlp storage root = .ok trie ∧
      ops.foldlM (Op.run rlp fuel) { trie.txn with batch := some [] } = .ok t ∧
      t.hash rlp = .ok (root'.toBytes, t') ∧ newTrieAt rlp t'.written root' = .ok loaded ∧
      (∀ key : Hash, ∃ u u', t'.lookup rlp fuel key.toBytes = .ok (content (rounds.flatten ++ ops) key, u) ∧
        loaded.txn.lookup rlp fuel key.toBytes = .ok (content (rounds.flatten ++ ops) key, u')) ∧
      ∃ u, loaded.txn.hash rlp = .ok (root'.toBytes, u) := by
  have hbefore := hpersisted.stores hfuel hempty fun p hp => hstorable p (hp.trans (List.prefix_append _ _))
  have hafter := hstorable _ List.prefix_rfl
  rw [List.flatten_append, List.flatten_singleton] at hafter
  obtain ⟨trie, t, t', root', htrie, hrun, hhash, hstorage, hnode, hstores⟩ := hbefore.round hempty hafter hfuel
  obtain ⟨hproper, hget⟩ := treeOf_spec (rounds.flatten ++ ops)
  obtain ⟨loaded, hloaded, hstorage', hrefines⟩ := hstores.newTrieAt
  refine ⟨trie, t, t', root', loaded, htrie, hrun, hhash, hloaded, fun key => ?_, ?_⟩
  · obtain ⟨u, hlookup⟩ := Txn.lookup_of_refines hnode hproper hstorage hfuel key
    obtain ⟨u', hlookup'⟩ := Txn.lookup_of_refines (t := loaded.txn) hrefines hproper hstorage' hfuel key
    rw [hget] at hlookup hlookup'
    exact ⟨u, u', hlookup, hlookup'⟩
  · obtain ⟨node, written, hhash', _⟩ := Txn.hash_of_refines (t := loaded.txn) hrefines hproper
    rw [hhash', hstores.root_eq]
    exact ⟨_, rfl⟩

end Persistence

section Sample

local instance persistenceKeccak : Keccak := rootKeccak

def keyFrom (byte : UInt8) : Hash := ⟨byte :: List.replicate 31 0, rfl⟩

def nodesOf (ops : List Op) : List Bytes :=
  match ops.foldlM (Op.run sampleRlp pathFuel)
      { (newTrie fun _ => none).txn with batch := some [] } >>= (·.hash sampleRlp) with
  | .ok (_, t) => (t.batch.getD []).map Prod.snd
  | .error _ => []

theorem storable_treeOf {ops : List Op}
    (hinj : ∀ data ∈ sampleRlp.marshal (.bytes []) :: nodesOf ops,
      ∀ data' ∈ sampleRlp.marshal (.bytes []) :: nodesOf ops,
        keccak256 data = keccak256 data' → data = data')
    (hshort : ∀ data ∈ nodesOf ops, data.length < 256) : Storable sampleRlp (treeOf ops) := by
  obtain ⟨trie, t, t', root, tree, written, htrie, hrun, hhash, _, hbatch, _, hproper, hget, _,
    hcovers⟩ := (@stores_nil _ sampleRlp fun _ => none).run (treeOf_spec []).2 ops le_rfl
  obtain ⟨hproper', hget'⟩ := treeOf_spec ops
  obtain rfl : tree = treeOf ops := hproper.ext hproper' fun key => (hget key).trans (hget' key).symm
  obtain rfl : newTrie (fun _ => none) = trie := Except.ok.inj (Eq.symm (if_pos rfl) |>.trans htrie)
  have hnodes : nodesOf ops = written.map Prod.snd := by
    rw [nodesOf, hrun]
    simp only [bind, Except.bind, hhash, hbatch, Option.getD_some]
  have hstored : ∀ data ∈ storedNodes sampleRlp (treeOf ops), data ∈ nodesOf ops := by
    intro data hdata
    rw [hnodes]
    exact List.mem_map_of_mem ((hcovers.complete data hdata).resolve_right nofun)
  have hall : ∀ data ∈ {sampleRlp.marshal (.bytes [])} ∪ storedNodes sampleRlp (treeOf ops),
      data ∈ sampleRlp.marshal (.bytes []) :: nodesOf ops := by
    rintro data (rfl | hdata)
    · exact List.mem_cons_self
    · exact List.mem_cons_of_mem _ (hstored data hdata)
  refine ⟨fun data hdata data' hdata' => hinj data (hall data hdata) data' (hall data' hdata'), ?_⟩
  intro data hdata
  exact (hshort data (hstored data hdata)).trans (by norm_num [Rlp.maxLength])

theorem trie_persists_branch :
    ∃ storage root,
      Persisted sampleRlp pathFuel [[.insert (keyFrom 0xd0) [7], .insert (keyFrom 0xe0) [8]]]
        storage root ∧
      ∃ trie t t' root' loaded, newTrieAt sampleRlp storage root = .ok trie ∧
        [Op.insert (keyFrom 0xf0) [9], .delete (keyFrom 0xd0)].foldlM (Op.run sampleRlp pathFuel)
          { trie.txn with batch := some [] } = .ok t ∧
        t.hash sampleRlp = .ok (root'.toBytes, t') ∧
        newTrieAt sampleRlp t'.written root' = .ok loaded ∧
        (∀ key : Hash, ∃ u u',
          t'.lookup sampleRlp pathFuel key.toBytes =
            .ok (content [.insert (keyFrom 0xd0) [7], .insert (keyFrom 0xe0) [8],
              .insert (keyFrom 0xf0) [9], .delete (keyFrom 0xd0)] key, u) ∧
          loaded.txn.lookup sampleRlp pathFuel key.toBytes =
            .ok (content [.insert (keyFrom 0xd0) [7], .insert (keyFrom 0xe0) [8],
              .insert (keyFrom 0xf0) [9], .delete (keyFrom 0xd0)] key, u')) ∧
        ∃ u, loaded.txn.hash sampleRlp = .ok (root'.toBytes, u) := by
  have hempty : emptyRoot = (keccak256 (sampleRlp.marshal (.bytes []))).toBytes := by decide +kernel
  have hnil : Storable sampleRlp (treeOf []) :=
    storable_treeOf (by decide +kernel) (by decide +kernel)
  have htwo : Storable sampleRlp (treeOf [.insert (keyFrom 0xd0) [7], .insert (keyFrom 0xe0) [8]]) :=
    storable_treeOf (by decide +kernel) (by decide +kernel)
  have hfour : Storable sampleRlp (treeOf [.insert (keyFrom 0xd0) [7], .insert (keyFrom 0xe0) [8],
      .insert (keyFrom 0xf0) [9], .delete (keyFrom 0xd0)]) :=
    storable_treeOf (by decide +kernel) (by decide +kernel)
  obtain ⟨trie, t, t', root, htrie, hrun, hhash, _⟩ :=
    (stores_nil fun _ => none).round hempty htwo le_rfl
  have hpersisted := Persisted.round (.empty fun _ => none) htrie hrun hhash
  refine ⟨t'.written, root, hpersisted, trie_persists le_rfl hpersisted hempty _ fun p hp => ?_⟩
  rcases List.prefix_cons_iff.mp hp with rfl | ⟨p', rfl, hp'⟩
  · exact hnil
  rcases List.prefix_cons_iff.mp hp' with rfl | ⟨p'', rfl, hp''⟩
  · exact htwo
  · obtain rfl := List.prefix_nil.mp hp''
    exact hfour

end Sample

end Itrie

end Nxchain
