import Nxchain.Proof.ForkChoice

namespace Nxchain.Blockchain

variable {headerHash : Header → Hash} {b : Blockchain} {chain : List Header} {h : Header}

def Extends (parent child : Header) : Prop :=
  child.parentHash = parent.hash ∧ child.number = parent.number + 1

instance (parent child : Header) : Decidable (Extends parent child) :=
  inferInstanceAs (Decidable (_ ∧ _))

structure StoredChain (headerHash : Header → Hash) (b : Blockchain) (chain : List Header) : Prop where
  genesis : ∀ g, chain.head? = some g → g.number = 0
  linked : chain.IsChain Extends
  stored : ∀ x ∈ chain, b.db.headers x.hash = some x
  sealed : Sealed headerHash b.db
  cache : b.headersCache.Sound b.db.headers

section

variable (hchain : StoredChain headerHash b chain)

include hchain

theorem StoredChain.extends_getElem {k : Nat} (hk : k + 1 < chain.length) : Extends chain[k] chain[k + 1] :=
  List.isChain_iff_getElem.mp hchain.linked k hk

theorem StoredChain.number_getElem {k : Nat} (hk : k < chain.length) : chain[k].number = k := by
  induction k with
  | zero =>
    apply hchain.genesis
    rw [List.head?_eq_getElem?, List.getElem?_eq_getElem hk]
  | succ k ih => rw [(hchain.extends_getElem hk).2, ih]

theorem getHashLoop_run (i : Nat) {fuel k : Nat} (hk : k < chain.length) (hfuel : k < fuel) :
    ∃ cache, (getHashLoop headerHash i fuel k chain[k].hash).run b
      = .ok (if hi : i ≤ k then chain[i].hash else zeroHash) { b with headersCache := cache } := by
  induction fuel generalizing k b with
  | zero => omega
  | succ fuel ih =>
    by_cases hki : k = i
    · subst hki
      refine ⟨b.headersCache, ?_⟩
      simp only [getHashLoop, if_true, EStateM.run_pure, le_refl, dite_true]
    · obtain ⟨cache, hrun, hsound⟩ := readHeader_of_sound hchain.sealed hchain.cache chain[k].hash
      rw [hchain.stored _ (List.getElem_mem hk)] at hrun
      cases k with
      | zero =>
        refine ⟨cache, ?_⟩
        simp only [getHashLoop, hki, if_false, EStateM.run_bind, hrun, if_true,
          EStateM.run_pure, Nat.le_zero, Ne.symm hki, dite_false]
      | succ k =>
        obtain ⟨cache', hrest⟩ := ih (b := { b with headersCache := cache }) { hchain with cache := hsound } (Nat.lt_of_succ_lt hk) (by omega)
        refine ⟨cache', ?_⟩
        have hparent : chain[k + 1].parentHash = chain[k].hash := (hchain.extends_getElem hk).1
        have hiff : i ≤ k + 1 ↔ i ≤ k := by omega
        simp only [getHashLoop, hki, if_false, EStateM.run_bind, hrun, Nat.succ_ne_zero,
          Nat.add_sub_cancel, hparent, hrest, hiff]

end

theorem blockhash_follows_own_chain (hchain : StoredChain headerHash b chain) {parent : Header}
    (hparent : chain.getLast? = some parent) (htop : Extends parent h) {fuel : Nat} (hfuel : h.number ≤ fuel)
    (i : Nat) :
    ∃ res b', (getHashHelper headerHash fuel h i).run b = .ok res b'
      ∧ (i < h.number → ∃ ancestor ∈ chain, ancestor.number = i ∧ res = ancestor.hash)
      ∧ (h.number ≤ i → res = zeroHash) := by
  have hlen : 0 < chain.length := List.length_pos_of_mem (List.mem_of_getLast? hparent)
  have hlast : chain.length - 1 < chain.length := by omega
  have hget : chain[chain.length - 1] = parent := by
    rw [List.getLast?_eq_getElem?, List.getElem?_eq_getElem hlast] at hparent
    exact Option.some.inj hparent
  have hnumber : h.number = (chain.length - 1) + 1 := by
    rw [htop.2, ← hget, hchain.number_getElem hlast]
  obtain ⟨cache, hrun⟩ := getHashLoop_run hchain i hlast (show chain.length - 1 < fuel by omega)
  refine ⟨if hi : i ≤ chain.length - 1 then chain[i].hash else zeroHash,
    { b with headersCache := cache }, ?_, ?_, ?_⟩
  · rw [getHashHelper, hnumber, pred64_succ, htop.1, ← hget, hrun]
  · intro hi
    have hi' : i ≤ chain.length - 1 := by omega
    rw [dif_pos hi']
    exact ⟨chain[i], List.getElem_mem _, hchain.number_getElem _, rfl⟩
  · intro hi
    rw [dif_neg (by omega)]

theorem Sealed.writeHeader {s : Storage} {x : Header} (hs : Sealed headerHash s) (hx : headerHash x = x.hash) :
    Sealed headerHash (s.writeHeader x) := by
  intro hash y hy
  simp only [Storage.writeHeader, Function.update_apply] at hy
  split at hy
  · cases hy
    exact hx
  · exact hs hash y hy

def firstChild : Header := sampleHeader 1 1 sampleGenesis.hash 1

def sampleForks : Blockchain :=
  { Blockchain.new with
    db := ((Storage.empty.writeHeader sampleGenesis).writeHeader firstChild).writeHeader
      (sampleHeader 1 1 sampleGenesis.hash 3) }

theorem storedChain_sampleForks : StoredChain sampleHash sampleForks [sampleGenesis, firstChild] := by
  refine ⟨by decide, by decide, by decide +kernel, ?_, Lru.sound_empty _ _⟩
  have hempty : Sealed sampleHash Storage.empty := by
    intro hash h hh
    cases hh
  exact ((hempty.writeHeader rfl).writeHeader rfl).writeHeader rfl

theorem blockhash_follows_own_chain_sampleForks :
    ∃ res b', (getHashHelper sampleHash 2 (sampleHeader 2 1 firstChild.hash 2) 1).run sampleForks
        = .ok res b'
      ∧ (1 < 2 → ∃ ancestor ∈ [sampleGenesis, firstChild], ancestor.number = 1 ∧ res = ancestor.hash)
      ∧ (2 ≤ 1 → res = zeroHash) := by
  have htop : Extends firstChild (sampleHeader 2 1 firstChild.hash 2) := ⟨rfl, rfl⟩
  exact blockhash_follows_own_chain storedChain_sampleForks rfl htop le_rfl 1

end Nxchain.Blockchain
