import Nxchain.Proof.HostileExtra

namespace Nxchain

namespace Signer

variable {crypto : Crypto} {codec : Rlp.Codec} {s : Signer} {header : Header} {extra : IstanbulExtra}

theorem getIBFTExtra_packProposerSeal (hextra : s.getIBFTExtra codec header = .ok extra) {proposerSeal : Bytes}
    (hsize : (packProposerSealIntoExtra codec header.extraData proposerSeal).length < Rlp.maxLength) :
    (packProposerSealIntoExtra codec header.extraData proposerSeal).take IstanbulExtra.vanity
        = header.extraData.take IstanbulExtra.vanity
      ∧ s.getIBFTExtra codec
          { header with extraData := packProposerSealIntoExtra codec header.extraData proposerSeal }
        = .ok { extra with proposerSeal := proposerSeal } := by
  refine getIBFTExtra_packFields hextra ?_ hsize
  intro parentType vals proposer committed rest hvalidators _ hcommitted hparent
  exact IstanbulExtra.unmarshalRLPFrom_eq_ok_iff.mpr
    ⟨vals, .bytes proposerSeal, committed, rest.take 1, rfl, hvalidators, rfl, hcommitted, hparent⟩

def ParentSealsFormed (extra : IstanbulExtra) : Prop :=
  ∀ seals ∈ extra.parentCommittedSeals, ∃ num, seals.num = .ok num

theorem calculateHeaderHash_eq_ok (hextra : s.getIBFTExtra codec header = .ok extra)
    (hformed : ParentSealsFormed extra) : ∃ hash, s.calculateHeaderHash crypto codec header = .ok hash := by
  have hhashed : ∃ seals, hashedParentSeals extra.parentCommittedSeals = .ok seals := by
    cases hparent : extra.parentCommittedSeals with
    | none => exact ⟨none, rfl⟩
    | some seals =>
      obtain ⟨num, hnum⟩ := hformed seals hparent
      exact ⟨_, Except.bind_eq_ok hnum rfl⟩
  obtain ⟨seals, hseals⟩ := hhashed
  have hfiltered : s.filterHeaderForHash codec header
      = .ok (s.initIbftExtra codec header extra.validators seals) := by
    refine Except.bind_eq_ok hextra ?_
    exact Except.bind_eq_ok hseals rfl
  exact ⟨_, Except.bind_eq_ok hfiltered rfl⟩

theorem seals_outside_hash (hextra : s.getIBFTExtra codec header = .ok extra) (hformed : ParentSealsFormed extra) :
    ∃ hash, s.calculateHeaderHash crypto codec header = .ok hash
      ∧ (∀ signProposerSeal proposerSeal,
          signProposerSeal (crypto.keccak256 hash.toBytes).toBytes = .ok proposerSeal →
          (packProposerSealIntoExtra codec header.extraData proposerSeal).length < Rlp.maxLength →
          ∃ header', s.writeProposerSeal crypto codec signProposerSeal header = .ok header'
            ∧ s.calculateHeaderHash crypto codec header' = .ok hash
            ∧ s.getIBFTExtra codec header' = .ok { extra with proposerSeal := proposerSeal })
      ∧ ∀ sealMap seals, sealMap ≠ [] →
          s.keyManager.generateCommittedSeals crypto sealMap extra.validators = .ok seals →
          (packCommittedSealsIntoExtra codec header.extraData seals).length < Rlp.maxLength →
          ∃ header', s.writeCommittedSeals crypto codec header sealMap = .ok header'
            ∧ s.calculateHeaderHash crypto codec header' = .ok hash
            ∧ s.getIBFTExtra codec header' = .ok { extra with committedSeals := seals } := by
  obtain ⟨hash, hhash⟩ : ∃ hash, s.calculateHeaderHash crypto codec header = .ok hash :=
    calculateHeaderHash_eq_ok hextra hformed
  refine ⟨hash, hhash, ?_, ?_⟩
  · intro signProposerSeal proposerSeal hsign hsize
    have hextra' := getIBFTExtra_packProposerSeal hextra hsize
    refine ⟨_, ?_, (calculateHeaderHash_congr hextra hextra' rfl rfl).trans hhash, hextra'.2⟩
    refine Except.bind_eq_ok hhash ?_
    exact Except.bind_eq_ok (Except.mapError_eq_ok_iff.mpr hsign) rfl
  · intro sealMap seals hne hgenerate hsize
    have hextra' := getIBFTExtra_pack hextra (KeyManager.unmarshal_generated hgenerate) hsize
    exact ⟨_, (writeCommittedSeals_eq_ok_iff hextra hne).mpr ⟨seals, hgenerate, rfl⟩,
      (calculateHeaderHash_congr hextra hextra' rfl rfl).trans hhash, hextra'.2⟩

def parentSealedExtra : IstanbulExtra :=
  ⟨⟨.bls, []⟩, [], .aggregated none [], some (.aggregated (some 7) [1])⟩

theorem seals_outside_hash_parentSealed :
    ∃ hash header', twoBlsSigner.calculateHeaderHash Crypto.toy Rlp.standard
        (hostileHeader parentSealed) = .ok hash
      ∧ twoBlsSigner.writeProposerSeal Crypto.toy Rlp.standard (fun _ => .ok [9])
        (hostileHeader parentSealed) = .ok header'
      ∧ twoBlsSigner.calculateHeaderHash Crypto.toy Rlp.standard header' = .ok hash
      ∧ twoBlsSigner.getIBFTExtra Rlp.standard header'
        = .ok { parentSealedExtra with proposerSeal := [9] } := by
  have hextra : twoBlsSigner.getIBFTExtra Rlp.standard (hostileHeader parentSealed)
      = .ok parentSealedExtra := by decide +kernel
  have hformed : ParentSealsFormed parentSealedExtra := by
    rintro seals ⟨⟩
    exact ⟨3, rfl⟩
  obtain ⟨hash, hhash, hproposer, _⟩ : ∃ hash, twoBlsSigner.calculateHeaderHash Crypto.toy Rlp.standard
      (hostileHeader parentSealed) = .ok hash ∧ _ ∧ _ := seals_outside_hash hextra hformed
  obtain ⟨header', hwrite, hhash', hextra'⟩ := hproposer (fun _ => .ok [9]) [9] rfl (by decide +kernel)
  exact ⟨hash, header', hhash, hwrite, hhash', hextra'⟩

end Signer

end Nxchain
