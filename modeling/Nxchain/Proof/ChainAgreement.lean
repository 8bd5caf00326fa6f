import Nxchain.Proof.Quorum

namespace Nxchain

theorem calculateContractStoreFetchingHeight_lt {height forkFrom : Nat} (epochSize : Nat) (hpos : 0 < height)
    (hfrom : forkFrom ≤ height) : calculateContractStoreFetchingHeight height epochSize forkFrom < height := by
  have hepoch := Nat.div_mul_le_self height epochSize
  unfold calculateContractStoreFetchingHeight
  dsimp only
  split_ifs <;> omega

theorem IBFTForks.fromHeight_le {forks : IBFTForks} {height : Nat} {fork : IBFTFork}
    (h : forks.getFork height = some fork) : fork.fromHeight ≤ height := by
  have hcovers := List.find?_some h
  simp only [Bool.and_eq_true, decide_eq_true_eq] at hcovers
  exact hcovers.1

namespace BackendIBFT

def onChain (i : BackendIBFT) (contract : ValidatorType → Hash → Except SnapshotError Validators)
    (headers : Nat → Header) : BackendIBFT :=
  { i with forkManager :=
    { i.forkManager with contractValidators := fun type height => contract type (headers height).hash } }

structure Verified (i : BackendIBFT) (headers : Nat → Header) (head : Nat) : Prop where
  number : ∀ n, 0 < n → n ≤ head → (headers n).number = n
  sealed : ∀ n, 0 < n → n ≤ head → i.headerHash (headers n) = .ok (headers n).hash
  accepted : ∀ n, 0 < n → n ≤ head → ∃ chain s, i.verifyHeader chain s (headers n) = .ok ()

variable {i : BackendIBFT} {contract : ValidatorType → Hash → Except SnapshotError Validators}
  {headers headers' : Nat → Header} {head head' : Nat} {Signed : Address → Bytes → Prop}

theorem Verified.signed (h : i.Verified headers head) {n : Nat} (hpos : 0 < n) (hn : n ≤ head)
    (hquorum : i.quorumSizeBlockNum ≤ n) (hsound : i.forkManager.crypto.Unforgeable Signed)
    (hsets : ∀ s set, i.forkManager.getValidators s n = .ok set → (set.validators.map Validator.addr).Nodup) :
    ∃ s set, i.forkManager.getValidators s n = .ok set ∧
      SignedByQuorum set Signed (i.forkManager.crypto.commitMessage (headers n).hash.toBytes)
        (optimalQuorumSize set) := by
  obtain ⟨chain, s, hverify⟩ := h.accepted n hpos hn
  unfold verifyHeader at hverify
  split at hverify
  · cases hverify
  obtain ⟨⟨signer, set, hooks⟩, hmodules, hverify⟩ := Except.bind_eq_ok_iff.mp hverify
  obtain ⟨signer', hsigner, hmodules⟩ := Except.bind_eq_ok_iff.mp hmodules
  obtain ⟨set', hset, hmodules⟩ := Except.bind_eq_ok_iff.mp hmodules
  cases hmodules
  obtain ⟨_, _, hseals⟩ := Except.bind_eq_ok_iff.mp hverify
  have hhash := h.sealed n hpos hn
  rw [Except.mapError_eq_ok_iff, h.number n hpos hn] at hset
  rw [Except.mapError_eq_ok_iff, h.number n hpos hn, quorumSize, if_neg (Nat.not_lt.mpr hquorum)] at hseals
  obtain ⟨hash, hcalculated, hsigned⟩ := signedByQuorum_of_verify hsound (hsets s set hset) hseals
  simp only [headerHash, Except.mapError_eq_ok_iff.mp hsigner, hcalculated, Except.ok.injEq] at hhash
  subst hhash
  exact ⟨s, set, hset, hsigned⟩

theorem getValidators_eq {fork : IBFTFork} {n : Nat} (hfork : i.forkManager.forks.getFork n = some fork)
    (htype : fork.type = .poS) (s : SnapshotStore) :
    (i.onChain contract headers).forkManager.getValidators s n =
    ((i.forkManager.getSigner n).mapError .fork).bind fun signer => contract signer.keyManager.type
      (headers (calculateContractStoreFetchingHeight n i.forkManager.epochSize fork.fromHeight)).hash := by
  simp only [ForkManager.getValidators, onChain, hfork, htype]
  rfl

theorem pos_chains_agree (hsound : i.forkManager.crypto.Unforgeable Signed)
    (hquorum : i.quorumSizeBlockNum ≤ 1)
    (hpos : ∀ n, 0 < n → ∃ fork, i.forkManager.forks.getFork n = some fork ∧ fork.type = .poS)
    (hsets : ∀ type hash set, contract type hash = .ok set →
      0 < set.len ∧ (set.validators.map Validator.addr).Nodup)
    (hchain : (i.onChain contract headers).Verified headers head)
    (hchain' : (i.onChain contract headers').Verified headers' head')
    (hgenesis : (headers 0).hash = (headers' 0).hash)
    (hfaulty : ∀ n s set (common : List Address),
      (i.onChain contract headers).forkManager.getValidators s n = .ok set →
      (headers n).hash ≠ (headers' n).hash → common.Nodup → (∀ a ∈ common, set.includes a = true ∧
        Signed a (i.forkManager.crypto.commitMessage (headers n).hash.toBytes) ∧
        Signed a (i.forkManager.crypto.commitMessage (headers' n).hash.toBytes)) →
      common.length ≤ calcMaxFaultyNodes set) :
    ∀ n, n ≤ head → n ≤ head' → (headers n).hash = (headers' n).hash := by
  intro n
  induction n using Nat.strong_induction_on with
  | h n ih =>
    intro hn hn'
    obtain rfl | hn₀ := Nat.eq_zero_or_pos n
    · exact hgenesis
    obtain ⟨fork, hfork, htype⟩ := hpos n hn₀
    have hlt := calculateContractStoreFetchingHeight_lt i.forkManager.epochSize hn₀ (IBFTForks.fromHeight_le hfork)
    -- the header whose state has the validators is an earlier one, so both nodes read the same set
    have hsame : ∀ s s', (i.onChain contract headers').forkManager.getValidators s' n =
        (i.onChain contract headers).forkManager.getValidators s n := by
      intro s s'
      rw [getValidators_eq hfork htype, getValidators_eq hfork htype, ih _ hlt (hlt.le.trans hn) (hlt.le.trans hn')]
    have hwell : ∀ s set, (i.onChain contract headers).forkManager.getValidators s n = .ok set →
        0 < set.len ∧ (set.validators.map Validator.addr).Nodup := by
      intro s set hset
      rw [getValidators_eq hfork htype] at hset
      obtain ⟨signer, _, hset⟩ := Except.bind_eq_ok_iff.mp hset
      exact hsets _ _ _ hset
    obtain ⟨s, set, hset, hsigned⟩ := hchain.signed hn₀ hn (hquorum.trans hn₀) hsound
      fun s set hset => (hwell s set hset).2
    obtain ⟨s', set', hset', hsigned'⟩ := hchain'.signed hn₀ hn' (hquorum.trans hn₀) hsound
      fun s' set hset => (hwell s' set (hsame s' s' ▸ hset)).2
    rw [hsame s s', hset] at hset'
    obtain rfl := Except.ok.inj hset'
    obtain ⟨common, hnodup, hlen, hcommon⟩ := hsigned.exists_common (hwell s set hset).1 hsigned'
    by_contra hne
    exact absurd (hfaulty n s set common hset hne hnodup hcommon) (Nat.not_le.mpr hlen)

section Sample

def posBackend : BackendIBFT := toyBackend [⟨.poS, .ecdsa, 0, none, none⟩] 2 (by decide)

def posHeader (signers : List UInt8) (n : Nat) : Header :=
  let seals (signers : List UInt8) := Seals.serialized (signers.map fun n => Crypto.toySeal (sampleAddress n))
  let header := putIbftExtra Rlp.standard { committedHeader 0 signers with number := n, difficulty := n }
    ⟨fourValidators, Crypto.toySeal (sampleAddress 1), seals signers,
      if 1 < n then some (seals [1, 2, 3]) else none⟩
  { header with hash := (posBackend.headerHash header).toOption.getD zeroHash }

def sealedChain (signers : List UInt8) (n : Nat) : Header := posHeader signers (min n 3)

theorem verified_sealedChain {signers : List UInt8} (h : signers = [1, 2, 3] ∨ signers = [2, 3, 4]) :
    (posBackend.onChain (fun _ _ => .ok fourValidators) (sealedChain signers)).Verified
      (sealedChain signers) 3 := by
  have hheights : ∀ n, 0 < n → n ≤ 3 → n = 1 ∨ n = 2 ∨ n = 3 := by omega
  constructor
  · exact fun n _ hle => min_eq_left hle
  · intro n hn hle
    obtain rfl | rfl := h <;> obtain rfl | rfl | rfl := hheights n hn hle <;> decide +kernel
  · intro n hn hle
    refine ⟨⟨sealedChain signers 3, fun n => some (sealedChain signers n)⟩, .empty, ?_⟩
    obtain rfl | rfl := h <;> obtain rfl | rfl | rfl := hheights n hn hle <;> decide +kernel

theorem pos_chains_agree_sealedChain :
    (sealedChain [1, 2, 3] 3).extraData ≠ (sealedChain [2, 3, 4] 3).extraData ∧
      (sealedChain [1, 2, 3] 3).hash = (sealedChain [2, 3, 4] 3).hash := by
  have hheights : ∀ n, n < 4 → (posHeader [1, 2, 3] n).hash = (posHeader [2, 3, 4] n).hash := by
    intro n hn
    obtain rfl | rfl | rfl | rfl : n = 0 ∨ n = 1 ∨ n = 2 ∨ n = 3 := by omega
    all_goals decide +kernel
  have hsame : ∀ n, (sealedChain [1, 2, 3] n).hash = (sealedChain [2, 3, 4] n).hash := fun n =>
    hheights (min n 3) (by omega)
  refine ⟨by decide +kernel, ?_⟩
  exact pos_chains_agree (i := posBackend) toy_unforgeable (by decide)
    (fun n _ => ⟨⟨.poS, .ecdsa, 0, none, none⟩, by simp [posBackend, toyBackend, IBFTForks.getFork], rfl⟩)
    (fun _ _ set hset => by
      obtain rfl := Except.ok.inj hset
      decide +kernel) (verified_sealedChain (.inl rfl)) (verified_sealedChain (.inr rfl)) (hsame 0)
    (fun n _ _ _ _ hne => absurd (hsame n) hne) 3 le_rfl le_rfl

end Sample

end BackendIBFT

end Nxchain
