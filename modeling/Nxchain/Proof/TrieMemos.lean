import Nxchain.Proof.TriePersistence
import Nxchain.Lib.Runs

namespace Nxchain

namespace Itrie

def Node.Forgets (epoch : Nat) : Node → Prop
  | .nil | .value .. => True
  | .short _ _ child => child.Forgets epoch
  | .full hash nodeEpoch edges => (nodeEpoch = epoch → hash = []) ∧ ∀ k, (edges k).Forgets epoch

instance decidableForgets (epoch : Nat) : ∀ node : Node, Decidable (node.Forgets epoch)
  | .nil | .value .. => .isTrue trivial
  | .short _ _ child => decidableForgets epoch child
  | .full hash nodeEpoch edges =>
    have := fun k => decidableForgets epoch (edges k)
    inferInstanceAs (Decidable ((nodeEpoch = epoch → hash = []) ∧ ∀ k, (edges k).Forgets epoch))

section Decoding

variable {epoch : Nat} {node : Node}

mutual

theorem forgets_decodeNode : ∀ {value : Rlp.Value} {node : Node}, decodeNode value = .ok node →
    node.Forgets epoch
  | .bytes b, node, h => by
      obtain rfl := Except.ok.inj h
      trivial
  | .list vs, node, h => by
      have hall := forgets_decodeAll vs
      unfold decodeNode at h
      split at h
      next heq =>
          obtain ⟨path, child, rfl, hchild | ⟨b, rfl⟩⟩ := decodeShort_eq_ok h
          · refine hall _ ?_ child hchild
            rw [heq]
            exact List.mem_cons_of_mem _ List.mem_cons_self
          · trivial
      next =>
          split_ifs at h
          obtain ⟨edges, rfl, hedges⟩ := decodeFull_eq_ok h
          refine ⟨fun _ => rfl, fun k => ?_⟩
          rcases hedges k with hnil | ⟨b, hvalue⟩ | hmem
          · rw [hnil]
            trivial
          · rw [hvalue]
            trivial
          · exact hall _ hmem _ rfl

theorem forgets_decodeAll : ∀ (vs : List Rlp.Value), ∀ r ∈ decodeAll vs, ∀ node, r = .ok node →
    node.Forgets epoch
  | [], r, hr => nomatch hr
  | v :: vs, r, hr => by
      rcases List.mem_cons.mp hr with rfl | hr
      · exact fun _ => forgets_decodeNode
      · exact forgets_decodeAll vs r hr

end

end Decoding

section Memos

variable [Keccak] {rlp : Fastrlp} {storage : Storage}

theorem Refines.forgets {node : Node} {t : Tree} {epoch : Nat}
    (h : Refines (.memoised rlp storage fun _ => True) node t) (hforgets : node.Forgets epoch) :
    Refines (.memoised rlp storage (· ≠ some epoch)) node t := by
  induction h with
  | nil => exact .nil
  | value buf => exact .value buf
  | short key hmemo _ ih =>
    exact .short key (hmemo.imp_right (.imp_left fun _ => nofun)) (ih hforgets)
  | @full _ _ _ nodeEpoch hmemo _ ih =>
    refine .full ?_ fun k => ih k (hforgets.2 k)
    by_cases heq : nodeEpoch = epoch
    · exact .inl (hforgets.1 heq)
    · exact hmemo.imp_right (.imp_left fun _ hsome => heq (Option.some.inj hsome))
  | reference href hget _ ih =>
    obtain ⟨vs, hdecode⟩ := getNode_eq_decode hget
    exact .reference href hget (ih (forgets_decodeNode hdecode))

theorem writes_memoised (rlp : Fastrlp) (storage : Storage) (epoch : Nat) :
    (View.memoised rlp storage (· ≠ some epoch)).Writes epoch := by
  intro nodeEpoch t t' hash hmemo
  left
  unfold writtenHash
  split_ifs with hepoch
  · exact hmemo.resolve_right fun hsome => hsome.1 (congrArg some hepoch.symm)
  · rfl

theorem Holds.allow {allowed allowed' : Option Nat → Prop} {node : Node} {m : Hash → Option Bytes}
    (h : Holds (.memoised rlp storage allowed) node m) (himp : ∀ epoch, allowed epoch → allowed' epoch) :
    Holds (.memoised rlp storage allowed') node m := by
  obtain ⟨tree, hrefines, hrest⟩ := h
  exact ⟨tree, hrefines.allow himp, hrest⟩

inductive Call where
  | insert (key : Hash) (value : Bytes)
  | delete (key : Hash)
  | lookup (key : Hash)
  | hash
  | commit

namespace Call

def run (rlp : Fastrlp) (fuel : Nat) (t : Txn) : Call → Except (Fault String) Txn
  | insert key value => t.insert rlp fuel key.toBytes value
  | delete key => t.delete rlp fuel key.toBytes
  | lookup key => (t.lookup rlp fuel key.toBytes).map Prod.snd
  | hash => (t.hash rlp).map Prod.snd
  | commit => .ok t.commit.txn

def step (rlp : Fastrlp) (fuel : Nat) (t : Txn) (call : Call) : Txn :=
  (call.run rlp fuel t).toOption.getD t

def write (m : Hash → Option Bytes) : Call → Hash → Option Bytes
  | insert key value => Function.update m key (some value)
  | delete key => Function.update m key none
  | _ => m

def Settled (t : Txn) : Call → Prop
  | insert .. => t.root.Forgets t.epoch
  | _ => True

instance (t : Txn) : ∀ call : Call, Decidable (call.Settled t)
  | insert .. => inferInstanceAs (Decidable (t.root.Forgets t.epoch))
  | delete _ | lookup _ | hash | commit => .isTrue trivial

end Call

theorem Holds.call {t : Txn} {m : Hash → Option Bytes} (hstorage : t.storage = storage)
    (h : Holds (.memoised rlp storage fun _ => True) t.root m) {call : Call} (hsettled : call.Settled t)
    {fuel : Nat} (hfuel : pathFuel ≤ fuel) :
    ∃ t', call.run rlp fuel t = .ok t' ∧ t'.storage = storage ∧
      Holds (.memoised rlp storage fun _ => True) t'.root (call.write m) := by
  cases call with
  | insert key value =>
    obtain ⟨tree, hrefines, hrest⟩ := h
    have hforgets : Holds (.memoised rlp storage (· ≠ some t.epoch)) t.root m :=
      ⟨tree, hrefines.forgets hsettled, hrest⟩
    obtain ⟨root, hinsert, hroot⟩ := hforgets.insert (writes_memoised rlp storage t.epoch) hstorage key value hfuel
    exact ⟨_, hinsert, hstorage, hroot.allow fun _ _ => trivial⟩
  | delete key =>
    obtain ⟨root, hdelete, hroot⟩ := h.delete hstorage key hfuel
    exact ⟨_, hdelete, hstorage, hroot⟩
  | lookup key =>
    obtain ⟨root, hlookup, hroot⟩ := h.lookup hstorage key hfuel
    exact ⟨_, Except.map_eq_ok_iff.mpr ⟨_, hlookup, rfl⟩, hstorage, hroot⟩
  | hash =>
    obtain ⟨tree, hrefines, hproper, hm⟩ := h
    obtain ⟨root, written, hhash, hroot, _⟩ := Txn.hash_of_memoised hrefines hproper
    exact ⟨_, Except.map_eq_ok_iff.mpr ⟨_, hhash, rfl⟩, hstorage, tree, hroot, hproper, hm⟩
  | commit => exact ⟨_, rfl, hstorage, h⟩

theorem Holds.calls {t : Txn} {m : Hash → Option Bytes} (hstorage : t.storage = storage)
    (h : Holds (.memoised rlp storage fun _ => True) t.root m) {fuel : Nat} (hfuel : pathFuel ≤ fuel)
    {calls : List Call} (hsettled : Runs.Along (Call.step rlp fuel) Call.Settled t calls) :
    ∃ t', calls.foldlM (Call.run rlp fuel) t = .ok t' ∧
      Holds (.memoised rlp storage fun _ => True) t'.root (calls.foldl Call.write m) := by
  induction calls generalizing t m with
  | nil => exact ⟨t, rfl, h⟩
  | cons call calls ih =>
    obtain ⟨hcall, hcalls⟩ := hsettled
    obtain ⟨next, hrun, hstorage', hnext⟩ := h.call hstorage hcall hfuel
    have hstep : call.step rlp fuel t = next := by
      rw [Call.step, hrun]
      rfl
    rw [hstep] at hcalls
    obtain ⟨t', hrest, ht'⟩ := ih hstorage' hnext hcalls
    exact ⟨t', Except.bind_eq_ok hrun hrest, ht'⟩

theorem remembered_hashes_are_current {root : Hash} {tree : Tree} (hopened : Opened rlp storage root tree)
    {fuel : Nat} (hfuel : pathFuel ≤ fuel) {trie : Trie} (htrie : newTrieAt rlp storage root = .ok trie)
    (batch : Option (List (Bytes × Bytes))) {calls : List Call}
    (hsettled : Runs.Along (Call.step rlp fuel) Call.Settled { trie.txn with batch := batch } calls) :
    ∃ t root' t', calls.foldlM (Call.run rlp fuel) { trie.txn with batch := batch } = .ok t ∧
      t.hash rlp = .ok (root', t') ∧
      ∀ other ops, content ops = calls.foldl Call.write (fun key => tree.get (path key)) →
        ∃ u u', ops.foldlM (Op.run rlp fuel) (newTrie other).txn = .ok u ∧
          u.hash rlp = .ok (root', u') := by
  obtain ⟨trie', htrie', hstorage, hrefines⟩ := hopened.newTrieAt
  obtain rfl := Except.ok.inj (htrie.symm.trans htrie')
  have hholds : Holds (.memoised rlp storage fun _ => True) trie.root fun key => tree.get (path key) :=
    ⟨tree, hrefines.memoised _, hopened.proper, fun _ => rfl⟩
  obtain ⟨t, hcalls, current, hcurrent, hproper, hget⟩ :=
    Holds.calls (t := { trie.txn with batch := batch }) hstorage hholds hfuel hsettled
  obtain ⟨node, written, hhash, _⟩ := Txn.hash_of_memoised hcurrent hproper
  refine ⟨t, _, _, hcalls, hhash, fun other ops hcontent => ?_⟩
  obtain ⟨u, u', hops, hfresh⟩ := run_hash rlp other ops hfuel
  obtain ⟨hproper', hget'⟩ := treeOf_spec ops
  obtain rfl : current = treeOf ops := hproper.ext hproper' fun key => by rw [hget, hget', hcontent]
  exact ⟨u, u', hops, hfresh⟩

end Memos

section Sample

local instance memoKeccak : Keccak := rootKeccak

def rootAfter (calls : List Call) : Option Bytes :=
  ((calls.foldlM (Call.run sampleRlp pathFuel) (newTrie leafStorage).txn >>=
    (·.hash sampleRlp)).map Prod.fst).toOption

theorem remembered_hashes_are_current_after_commit :
    ∃ t root' t', [Call.insert (keyFrom 0xd0) [7], .insert (keyFrom 0xe0) [8], .hash, .commit,
          .insert (keyFrom 0xf0) [9]].foldlM (Call.run sampleRlp pathFuel)
          { (newTrie leafStorage).txn with batch := some [] } = .ok t ∧
      t.hash sampleRlp = .ok (root', t') ∧
      ∀ other ops, content ops = [Call.insert (keyFrom 0xd0) [7], .insert (keyFrom 0xe0) [8], .hash,
          .commit, .insert (keyFrom 0xf0) [9]].foldl Call.write (fun key => RadixTree.nil.get (path key)) →
        ∃ u u', ops.foldlM (Op.run sampleRlp pathFuel) (newTrie other).txn = .ok u ∧
          u.hash sampleRlp = .ok (root', u') := by
  have htrie : newTrieAt sampleRlp leafStorage emptyStateHash = .ok (newTrie leafStorage) := if_pos rfl
  exact remembered_hashes_are_current (stores_nil leafStorage) le_rfl htrie (some []) (by decide +kernel)

theorem insert_keeps_stale_hash :
    rootAfter [.insert (keyFrom 0xd0) [7], .insert (keyFrom 0xe0) [8], .hash, .insert (keyFrom 0xf0) [9]] =
      rootAfter [.insert (keyFrom 0xd0) [7], .insert (keyFrom 0xe0) [8]] ∧
    rootAfter [.insert (keyFrom 0xd0) [7], .insert (keyFrom 0xe0) [8], .insert (keyFrom 0xf0) [9]] ≠
      rootAfter [.insert (keyFrom 0xd0) [7], .insert (keyFrom 0xe0) [8]] ∧
    (rootAfter [.insert (keyFrom 0xd0) [7], .insert (keyFrom 0xe0) [8],
      .insert (keyFrom 0xf0) [9]]).isSome = true := by
  decide +kernel

end Sample

end Itrie

end Nxchain
