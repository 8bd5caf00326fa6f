import Nxchain.Lib.Except
import Nxchain.Signer

namespace Nxchain

theorem unmarshalRlp_eq_ok_iff {α : Type} {codec : Rlp.Codec} {decode : Rlp.Value → Except SignerError α}
    {input : Bytes} {a : α} :
    unmarshalRlp codec decode input = .ok a ↔ ∃ v, codec.parse input = some v ∧ decode v = .ok a := by
  unfold unmarshalRlp
  cases codec.parse input <;> simp

namespace Seals

theorem unmarshalRLPFrom_serialized (seals : List Bytes) :
    unmarshalRLPFrom .ecdsa (serialized seals).marshalRLPWith = .ok (serialized seals) := by
  refine Except.bind_eq_ok rfl ?_
  refine Except.bind_eq_ok (Except.mapM_eq_ok_iff.mpr ?_) rfl
  exact List.forall₂_map_left_iff.mpr (List.forall₂_same.mpr fun _ _ => rfl)

theorem unmarshalRLPFrom_aggregated (bitmap : Nat) (signature : Bytes) :
    unmarshalRLPFrom .bls (aggregated (some bitmap) signature).marshalRLPWith
      = .ok (aggregated (some bitmap) signature) := by
  refine Except.bind_eq_ok rfl ?_
  refine Except.bind_eq_ok_iff.mpr ⟨Rlp.bigEndian bitmap, rfl, ?_⟩
  rw [Rlp.ofBigEndian_bigEndian]
  rfl

end Seals

theorem IstanbulExtra.unmarshalRLPFrom_eq_ok_iff {t : ValidatorType} {parentType : Option ValidatorType}
    {v : Rlp.Value} {extra : IstanbulExtra} :
    unmarshalRLPFrom t parentType v = .ok extra ↔
      ∃ vals proposer committed rest, v = .list (vals :: proposer :: committed :: rest)
        ∧ Validators.unmarshalRLPFrom t vals = .ok extra.validators
        ∧ proposer.getBytes = .ok extra.proposerSeal
        ∧ Seals.unmarshalRLPFrom t committed = .ok extra.committedSeals
        ∧ unmarshalParent parentType rest = .ok extra.parentCommittedSeals := by
  constructor
  · intro hdecode
    obtain ⟨elems, helems, h⟩ := Except.bind_eq_ok_iff.mp hdecode
    rw [Except.mapError_eq_ok_iff, Rlp.Value.getElems_eq_ok_iff] at helems
    subst helems
    split at h
    · rename_i vals proposer committed rest
      obtain ⟨validators, hvalidators, h⟩ := Except.bind_eq_ok_iff.mp h
      obtain ⟨proposerSeal, hproposer, h⟩ := Except.bind_eq_ok_iff.mp h
      obtain ⟨committedSeals, hcommitted, h⟩ := Except.bind_eq_ok_iff.mp h
      obtain ⟨parentCommittedSeals, hparent, h⟩ := Except.bind_eq_ok_iff.mp h
      obtain rfl := Except.ok.inj h
      exact ⟨vals, proposer, committed, rest, rfl, Except.mapError_eq_ok_iff.mp hvalidators,
        Except.mapError_eq_ok_iff.mp hproposer, hcommitted, hparent⟩
    · cases h
  · rintro ⟨vals, proposer, committed, rest, rfl, hvalidators, hproposer, hcommitted, hparent⟩
    refine Except.bind_eq_ok rfl ?_
    refine Except.bind_eq_ok (Except.mapError_eq_ok_iff.mpr hvalidators) ?_
    refine Except.bind_eq_ok (Except.mapError_eq_ok_iff.mpr hproposer) ?_
    refine Except.bind_eq_ok hcommitted ?_
    exact Except.bind_eq_ok hparent rfl

namespace Signer

variable {crypto : Crypto} {codec : Rlp.Codec} {s : Signer} {header : Header} {extra : IstanbulExtra}

theorem getIBFTExtra_eq_ok_iff :
    s.getIBFTExtra codec header = .ok extra ↔
      IstanbulExtra.vanity ≤ header.extraData.length ∧ ∃ parentType v,
        s.parentType header.number = .ok parentType
        ∧ codec.parse (header.extraData.drop IstanbulExtra.vanity) = some v
        ∧ IstanbulExtra.unmarshalRLPFrom s.keyManager.type parentType v = .ok extra := by
  unfold getIBFTExtra verifyIBFTExtraSize
  by_cases hlen : header.extraData.length < IstanbulExtra.vanity
  · simp [hlen, liftError, Except.mapError, bind, Except.bind]
  · rw [if_neg hlen]
    simp only [liftError, Except.bind_eq_ok_iff, Except.mapError_eq_ok_iff, unmarshalRlp_eq_ok_iff,
      not_lt.mp hlen, true_and, exists_and_left]
    constructor
    · rintro ⟨_, h⟩
      exact h
    · intro h
      exact ⟨(), h⟩

theorem unmarshalParent_take_one (parentType : Option ValidatorType) (rest : List Rlp.Value) :
    IstanbulExtra.unmarshalParent parentType (rest.take 1)
      = IstanbulExtra.unmarshalParent parentType rest := by
  cases parentType with
  | none => rfl
  | some t => cases rest <;> rfl

variable (hextra : s.getIBFTExtra codec header = .ok extra)

include hextra

theorem getIBFTExtra_packFields {extra' : IstanbulExtra}
    {packFn : List Rlp.Value → List Rlp.Value}
    (hpack : ∀ parentType vals proposer committed rest,
      Validators.unmarshalRLPFrom s.keyManager.type vals = .ok extra.validators →
      proposer.getBytes = .ok extra.proposerSeal →
      Seals.unmarshalRLPFrom s.keyManager.type committed = .ok extra.committedSeals →
      IstanbulExtra.unmarshalParent parentType (rest.take 1) = .ok extra.parentCommittedSeals →
      IstanbulExtra.unmarshalRLPFrom s.keyManager.type parentType
        (.list (packFn (vals :: proposer :: committed :: rest))) = .ok extra')
    (hsize : (packFieldsIntoExtra codec header.extraData packFn).length < Rlp.maxLength) :
    (packFieldsIntoExtra codec header.extraData packFn).take IstanbulExtra.vanity
        = header.extraData.take IstanbulExtra.vanity
      ∧ s.getIBFTExtra codec { header with extraData := packFieldsIntoExtra codec header.extraData packFn }
        = .ok extra' := by
  obtain ⟨hlen, parentType, v, hparentType, hparse, hdecode⟩ := getIBFTExtra_eq_ok_iff.mp hextra
  obtain ⟨vals, proposer, committed, rest, rfl, hvalidators, hproposer, hcommitted, hparent⟩ :=
    IstanbulExtra.unmarshalRLPFrom_eq_ok_iff.mp hdecode
  rw [← unmarshalParent_take_one] at hparent
  have hdecode' := hpack parentType vals proposer committed rest hvalidators hproposer hcommitted hparent
  have hvanity : (header.extraData.take IstanbulExtra.vanity).length = IstanbulExtra.vanity :=
    List.length_take_of_le hlen
  have hdata : packFieldsIntoExtra codec header.extraData packFn = header.extraData.take IstanbulExtra.vanity
      ++ codec.marshal (.list (packFn (vals :: proposer :: committed :: rest))) := by
    simp only [packFieldsIntoExtra, packFields, hparse, Rlp.Value.getElems]
    rw [if_neg (by simp only [List.length_cons]; omega)]
  rw [hdata] at hsize ⊢
  rw [List.length_append] at hsize
  refine ⟨List.take_left' hvanity, getIBFTExtra_eq_ok_iff.mpr ⟨?_, parentType, _, hparentType, ?_, hdecode'⟩⟩
  · rw [List.length_append, hvanity]
    exact Nat.le_add_right _ _
  · rw [List.drop_left' hvanity]
    exact codec.parse_marshal _ (by omega)

theorem calculateHeaderHash_congr {extra' : IstanbulExtra} {extraData : Bytes}
    (hextra' : extraData.take IstanbulExtra.vanity = header.extraData.take IstanbulExtra.vanity ∧
      s.getIBFTExtra codec { header with extraData := extraData } = .ok extra')
    (hvalidators : extra'.validators = extra.validators)
    (hparent : extra'.parentCommittedSeals = extra.parentCommittedSeals) :
    s.calculateHeaderHash crypto codec { header with extraData := extraData }
      = s.calculateHeaderHash crypto codec header := by
  obtain ⟨hvanity, hextra'⟩ := hextra'
  have hlen := (getIBFTExtra_eq_ok_iff.mp hextra).1
  have hlen' := (getIBFTExtra_eq_ok_iff.mp hextra').1
  have hput (seals : Option Seals) : s.initIbftExtra codec { header with extraData := extraData }
      extra.validators seals = s.initIbftExtra codec header extra.validators seals := by
    simp only [initIbftExtra, putIbftExtra, hvanity, Nat.sub_eq_zero_of_le hlen, Nat.sub_eq_zero_of_le hlen']
  simp only [calculateHeaderHash, filterHeaderForHash, hextra, hextra', hvalidators, hparent, bind,
    Except.bind, hput]

theorem getIBFTExtra_pack {seals : Seals}
    (hseals : Seals.unmarshalRLPFrom s.keyManager.type seals.marshalRLPWith = .ok seals)
    (hsize : (packCommittedSealsIntoExtra codec header.extraData seals).length < Rlp.maxLength) :
    (packCommittedSealsIntoExtra codec header.extraData seals).take IstanbulExtra.vanity
        = header.extraData.take IstanbulExtra.vanity
      ∧ s.getIBFTExtra codec
          { header with extraData := packCommittedSealsIntoExtra codec header.extraData seals }
        = .ok { extra with committedSeals := seals } := by
  refine getIBFTExtra_packFields hextra ?_ hsize
  intro parentType vals proposer committed rest hvalidators hproposer _ hparent
  exact IstanbulExtra.unmarshalRLPFrom_eq_ok_iff.mpr
    ⟨vals, proposer, _, rest.take 1, rfl, hvalidators, hproposer, hseals, hparent⟩

theorem writeCommittedSeals_eq_ok_iff {sealMap : List (Address × Bytes)} (hne : sealMap ≠ []) {written : Header} :
    s.writeCommittedSeals crypto codec header sealMap = .ok written ↔
      ∃ seals, s.keyManager.generateCommittedSeals crypto sealMap extra.validators = .ok seals
        ∧ written = { header with
            extraData := packCommittedSealsIntoExtra codec header.extraData seals } := by
  have hlen : ¬ sealMap.length = 0 := by
    rwa [List.length_eq_zero_iff]
  simp only [writeCommittedSeals, Except.ite_throw_bind_eq_ok_iff, hlen, not_false_eq_true, true_and,
    getValidators, hextra, liftError, Except.bind_eq_ok_iff, Except.mapError_eq_ok_iff, pure,
    Except.pure, Except.ok.injEq, exists_eq_left']
  exact exists_congr fun seals => and_congr_right fun _ => eq_comm

end Signer

theorem KeyManager.unmarshal_generated {crypto : Crypto} {keyManager : KeyManager}
    {sealMap : List (Address × Bytes)} {vals : Validators} {seals : Seals}
    (hgenerate : keyManager.generateCommittedSeals crypto sealMap vals = .ok seals) :
    Seals.unmarshalRLPFrom keyManager.type seals.marshalRLPWith = .ok seals := by
  unfold generateCommittedSeals at hgenerate
  cases htype : keyManager.type with
  | ecdsa =>
    simp only [htype, ECDSAKeyManager.generateCommittedSeals] at hgenerate
    split at hgenerate
    · cases hgenerate
    · cases hgenerate
      exact Seals.unmarshalRLPFrom_serialized _
  | bls =>
    simp only [htype, BLSKeyManager.generateCommittedSeals, Except.ite_throw_bind_eq_ok_iff] at hgenerate
    obtain ⟨⟨signatures, bitMap⟩, _, hgenerate⟩ := Except.bind_eq_ok_iff.mp hgenerate.2
    obtain ⟨multi, _, hgenerate⟩ := Except.bind_eq_ok_iff.mp hgenerate
    obtain ⟨raw, _, hgenerate⟩ := Except.bind_eq_ok_iff.mp hgenerate
    cases hgenerate
    exact Seals.unmarshalRLPFrom_aggregated _ _

end Nxchain
