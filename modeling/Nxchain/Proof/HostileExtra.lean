import Nxchain.Proof.SealWriting

namespace Nxchain

def Returns {ε α : Type} (x : Except (Fault ε) α) : Prop :=
  (∃ a, x = .ok a) ∨ ∃ e, x = .error (.error e)

section Returns

variable {ε α β : Type}

theorem returns_ok (a : α) : Returns (.ok a : Except (Fault ε) α) := .inl ⟨a, rfl⟩

theorem returns_error_iff {f : Fault ε} : Returns (.error f : Except (Fault ε) α) ↔ ∃ e, f = .error e := by
  simp [Returns]

theorem returns_error (e : ε) : Returns (.error (.error e) : Except (Fault ε) α) :=
  returns_error_iff.mpr ⟨e, rfl⟩

theorem not_returns_panic (p : Panic) : ¬ Returns (.error (.panic p) : Except (Fault ε) α) := by
  rw [returns_error_iff]
  rintro ⟨e, h⟩
  cases h

theorem returns_bind_iff {x : Except (Fault ε) α} {f : α → Except (Fault ε) β} :
    Returns (x >>= f) ↔ Returns x ∧ ∀ a, x = .ok a → Returns (f a) := by
  cases x with
  | ok a =>
    constructor
    · intro h
      refine ⟨returns_ok a, ?_⟩
      intro a' heq
      obtain rfl := Except.ok.inj heq
      exact h
    · rintro ⟨_, h⟩
      exact h a rfl
  | error f =>
    change Returns (.error f : Except (Fault ε) β) ↔ _
    rw [returns_error_iff, returns_error_iff]
    constructor
    · intro h
      exact ⟨h, fun a heq => by cases heq⟩
    · rintro ⟨h, _⟩
      exact h

theorem returns_liftError (x : Except SignerError α) : Returns (liftError x) := by
  cases x with
  | ok a => exact returns_ok a
  | error e => exact returns_error e

end Returns

theorem Seals.returns_num_iff {seals : Seals} :
    Returns seals.num ↔ ∀ signature, seals ≠ .aggregated none signature := by
  cases seals with
  | serialized seals => exact iff_of_true (returns_ok _) (fun _ h => by cases h)
  | aggregated bitmap signature =>
    cases bitmap with
    | none => exact iff_of_false (not_returns_panic _) (fun h => h signature rfl)
    | some bitmap => exact iff_of_true (returns_ok _) (fun _ h => by cases h)

theorem Seals.unmarshalRLPFrom_bls_none_iff {v : Rlp.Value} {signature : Bytes} :
    unmarshalRLPFrom .bls v = .ok (.aggregated none signature) ↔ v = .list [] ∧ signature = [] := by
  constructor
  · intro hdecode
    obtain ⟨elems, helems, h⟩ := Except.bind_eq_ok_iff.mp hdecode
    rw [Except.mapError_eq_ok_iff, Rlp.Value.getElems_eq_ok_iff] at helems
    subst helems
    split at h
    · cases h
      exact ⟨rfl, rfl⟩
    · cases h
    · obtain ⟨_, _, h⟩ := Except.bind_eq_ok_iff.mp h
      obtain ⟨_, _, h⟩ := Except.bind_eq_ok_iff.mp h
      cases h
  · rintro ⟨rfl, rfl⟩
    rfl

namespace Signer

variable {codec : Rlp.Codec} {header : Header} {s : Signer}

def ParentSealsMissing (codec : Rlp.Codec) (header : Header) : Prop :=
  IstanbulExtra.vanity ≤ header.extraData.length ∧ ∃ elems,
    codec.parse (header.extraData.drop IstanbulExtra.vanity) = some (.list elems)
      ∧ ∀ parent, elems[3]? = some parent → parent = .list []

theorem unmarshalParentCommittedSeals_none_iff {v : Rlp.Value} :
    (∃ signature, IstanbulExtra.unmarshalParentCommittedSeals .bls v = .ok (.aggregated none signature)) ↔
      ∃ elems, v = .list elems ∧ ∀ parent, elems[3]? = some parent → parent = .list [] := by
  constructor
  · rintro ⟨signature, hdecode⟩
    obtain ⟨elems, helems, h⟩ := Except.bind_eq_ok_iff.mp hdecode
    rw [Except.mapError_eq_ok_iff, Rlp.Value.getElems_eq_ok_iff] at helems
    refine ⟨elems, helems, ?_⟩
    intro parent hparent
    match elems, hparent, h with
    | _ :: _ :: _ :: parent' :: _, hparent, h =>
      obtain rfl := Option.some.inj hparent
      exact (Seals.unmarshalRLPFrom_bls_none_iff.mp h).1
  · rintro ⟨elems, rfl, hparent⟩
    match elems, hparent with
    | [], _ => exact ⟨[], rfl⟩
    | [_], _ => exact ⟨[], rfl⟩
    | [_, _], _ => exact ⟨[], rfl⟩
    | [_, _, _], _ => exact ⟨[], rfl⟩
    | _ :: _ :: _ :: parent :: _, hparent =>
      obtain rfl := hparent parent rfl
      exact ⟨[], rfl⟩

theorem getParentCommittedSeals_none_iff (hbls : s.keyManager.type = .bls) :
    (∃ signature, s.getParentCommittedSeals codec header = .ok (.aggregated none signature)) ↔
      ParentSealsMissing codec header := by
  unfold getParentCommittedSeals ParentSealsMissing verifyIBFTExtraSize
  by_cases hlen : header.extraData.length < IstanbulExtra.vanity
  · simp [hlen, bind, Except.bind]
  · rw [if_neg hlen, hbls]
    simp only [not_lt.mp hlen, true_and]
    change (∃ signature, unmarshalRlp codec _ _ = _) ↔ _
    simp only [unmarshalRlp_eq_ok_iff]
    constructor
    · rintro ⟨signature, v, hparse, hdecode⟩
      obtain ⟨elems, rfl, hparent⟩ := unmarshalParentCommittedSeals_none_iff.mp ⟨signature, hdecode⟩
      exact ⟨elems, hparse, hparent⟩
    · rintro ⟨elems, hparse, hparent⟩
      obtain ⟨signature, hdecode⟩ := unmarshalParentCommittedSeals_none_iff.mpr ⟨elems, rfl, hparent⟩
      exact ⟨signature, _, hparse, hdecode⟩

theorem returns_verifyParentCommittedSeals_iff (hbls : s.keyManager.type = .bls) (crypto : Crypto) (parent : Header)
    (parentValidators : Validators) (quorum : Nat) (mustExist : Bool) :
    Returns (s.verifyParentCommittedSeals crypto codec parent header parentValidators quorum
      mustExist) ↔ ¬ ParentSealsMissing codec header := by
  rw [← getParentCommittedSeals_none_iff hbls]
  unfold verifyParentCommittedSeals
  rw [returns_bind_iff]
  constructor
  · rintro ⟨_, h⟩ ⟨signature, hmissing⟩
    rw [hmissing] at h
    have hnum := (returns_bind_iff.mp (h _ rfl)).1
    exact Seals.returns_num_iff.mp hnum signature rfl
  · intro hpresent
    refine ⟨returns_liftError _, ?_⟩
    intro seals hseals
    rw [liftError, Except.mapError_eq_ok_iff] at hseals
    refine returns_bind_iff.mpr ⟨Seals.returns_num_iff.mpr ?_, ?_⟩
    · rintro signature rfl
      exact hpresent ⟨signature, hseals⟩
    · intro num _
      split
      · cases mustExist with
        | true => exact returns_error _
        | false => exact returns_ok ()
      · refine returns_bind_iff.mpr ⟨returns_liftError _, ?_⟩
        intro numSeals _
        split
        · exact returns_error _
        · exact returns_ok ()

variable {keyManager : KeyManager} (hbls : s.keyManager.type = .bls)
  (hparent : s.parentKeyManager = some keyManager) (hparentBls : keyManager.type = .bls)

include hparent

theorem returns_getIBFTExtra : Returns (s.getIBFTExtra codec header) := by
  refine returns_bind_iff.mpr ⟨returns_liftError _, ?_⟩
  intro _ _
  refine returns_bind_iff.mpr ⟨?_, fun _ _ => returns_liftError _⟩
  unfold parentType
  rw [hparent]
  split
  · exact returns_ok _
  · exact returns_ok _

include hparentBls

theorem getIBFTExtra_parent_none_iff {extra : IstanbulExtra} (hextra : s.getIBFTExtra codec header = .ok extra) :
    (∃ signature, extra.parentCommittedSeals = some (.aggregated none signature)) ↔
      1 < header.number ∧ ParentSealsMissing codec header := by
  obtain ⟨hlen, parentType, v, hparentType, hparse, hdecode⟩ := getIBFTExtra_eq_ok_iff.mp hextra
  obtain ⟨vals, proposer, committed, rest, rfl, _, _, _, hseals⟩ :=
    IstanbulExtra.unmarshalRLPFrom_eq_ok_iff.mp hdecode
  have hmissing : ParentSealsMissing codec header ↔ ∀ parent, rest.head? = some parent → parent = .list [] := by
    unfold ParentSealsMissing
    rw [hparse]
    constructor
    · rintro ⟨_, elems, helems, h⟩
      cases helems
      intro parent hhead
      apply h
      rw [← hhead]
      exact List.head?_eq_getElem?.symm
    · intro h
      refine ⟨hlen, _, rfl, ?_⟩
      intro parent hget
      apply h
      rw [← hget]
      exact List.head?_eq_getElem?
  rw [hmissing]
  by_cases hnumber : 1 < header.number
  · simp only [Signer.parentType, hnumber, hparent, hparentBls] at hparentType
    obtain rfl := Except.ok.inj hparentType
    simp only [hnumber, true_and]
    cases rest with
    | nil =>
      have hempty : extra.parentCommittedSeals = some (.aggregated none []) := (Except.ok.inj hseals).symm
      exact iff_of_true ⟨[], hempty⟩ (fun parent h => by cases h)
    | cons parent rest =>
      obtain ⟨seals, hunmarshal, heq⟩ := Except.map_eq_ok_iff.mp hseals
      rw [← heq]
      constructor
      · rintro ⟨signature, hnone⟩ parent' hhead
        obtain rfl := Option.some.inj hhead
        rw [Option.some.inj hnone] at hunmarshal
        exact (Seals.unmarshalRLPFrom_bls_none_iff.mp hunmarshal).1
      · intro h
        obtain rfl := h parent rfl
        exact ⟨[], congrArg some (Except.ok.inj hunmarshal).symm⟩
  · simp only [Signer.parentType, hnumber] at hparentType
    obtain rfl := Except.ok.inj hparentType
    have hnone : extra.parentCommittedSeals = none := (Except.ok.inj hseals).symm
    simp [hnone, hnumber]

theorem returns_calculateHeaderHash_iff (crypto : Crypto) :
    Returns (s.calculateHeaderHash crypto codec header) ↔
      ¬ (1 < header.number ∧ (∃ extra, s.getIBFTExtra codec header = .ok extra)
        ∧ ParentSealsMissing codec header) := by
  have hreturns : Returns (s.calculateHeaderHash crypto codec header) ↔
      ∀ extra, s.getIBFTExtra codec header = .ok extra →
        Returns (hashedParentSeals extra.parentCommittedSeals) := by
    simp only [calculateHeaderHash, filterHeaderForHash, returns_bind_iff]
    constructor
    · rintro ⟨⟨_, h⟩, _⟩ extra hextra
      exact (h extra hextra).1
    · intro h
      refine ⟨⟨returns_getIBFTExtra hparent, ?_⟩, fun _ _ => returns_ok _⟩
      intro extra hextra
      exact ⟨h extra hextra, fun _ _ => returns_ok _⟩
  have hhashed (seals : Option Seals) : Returns (hashedParentSeals seals) ↔
      ¬ ∃ signature, seals = some (.aggregated none signature) := by
    cases seals with
    | none => exact iff_of_true (returns_ok _) (by rintro ⟨_, ⟨⟩⟩)
    | some seals =>
      unfold hashedParentSeals
      rw [returns_bind_iff, Seals.returns_num_iff]
      constructor
      · rintro ⟨h, _⟩ ⟨signature, heq⟩
        exact h signature (Option.some.inj heq)
      · intro h
        exact ⟨fun signature heq => h ⟨signature, congrArg some heq⟩, fun _ _ => returns_ok _⟩
  rw [hreturns]
  constructor
  · rintro h ⟨hnumber, ⟨extra, hextra⟩, hmissing⟩
    refine (hhashed _).mp (h extra hextra) ?_
    exact (getIBFTExtra_parent_none_iff hparent hparentBls hextra).mpr ⟨hnumber, hmissing⟩
  · intro h extra hextra
    rw [hhashed, getIBFTExtra_parent_none_iff hparent hparentBls hextra]
    rintro ⟨hnumber, hmissing⟩
    exact h ⟨hnumber, ⟨extra, hextra⟩, hmissing⟩

include hbls

theorem bls_returns_iff (crypto : Crypto) :
    (Returns (s.calculateHeaderHash crypto codec header) ↔
      ¬ (1 < header.number ∧ (∃ extra, s.getIBFTExtra codec header = .ok extra) ∧ ParentSealsMissing codec header))
    ∧ ∀ parent parentValidators quorum mustExist,
      Returns (s.verifyParentCommittedSeals crypto codec parent header parentValidators quorum
        mustExist) ↔ ¬ ParentSealsMissing codec header :=
  ⟨returns_calculateHeaderHash_iff hparent hparentBls crypto, returns_verifyParentCommittedSeals_iff hbls crypto⟩

end Signer

def twoBlsSigner : Signer := ⟨⟨.bls, zeroAddress⟩, some ⟨.bls, zeroAddress⟩⟩

def hostileHeader (elems : List Rlp.Value) : Header :=
  { parentHash := zeroHash, sha3Uncles := zeroHash, miner := [], stateRoot := zeroHash,
    txRoot := zeroHash, receiptsRoot := zeroHash, logsBloom := FixedBytes.zero 256,
    difficulty := 2, number := 2, gasLimit := 0, gasUsed := 0, timestamp := 0,
    extraData := List.replicate 32 0 ++ Rlp.standard.marshal (.list elems), mixHash := zeroHash,
    nonce := FixedBytes.zero 8, hash := zeroHash }

def parentSealed : List Rlp.Value := [.list [], .bytes [], .list [], .list [.bytes [7], .bytes [1]]]

theorem bls_returns_iff_parentSealed :
    Returns (twoBlsSigner.calculateHeaderHash Crypto.toy Rlp.standard (hostileHeader parentSealed))
      ∧ ∀ parent parentValidators quorum mustExist,
        Returns (twoBlsSigner.verifyParentCommittedSeals Crypto.toy Rlp.standard parent
          (hostileHeader parentSealed) parentValidators quorum mustExist) := by
  have hpresent : ¬ Signer.ParentSealsMissing Rlp.standard (hostileHeader parentSealed) := by
    rintro ⟨_, elems, hparse, h⟩
    have hbody : (hostileHeader parentSealed).extraData.drop IstanbulExtra.vanity
        = Rlp.standard.marshal (.list parentSealed) :=
      List.drop_left' List.length_replicate
    rw [hbody, Rlp.standard.parse_marshal _ (by decide +kernel)] at hparse
    cases hparse
    have hempty := h _ rfl
    cases hempty
  obtain ⟨hhash, hverify⟩ := @Signer.bls_returns_iff Rlp.standard (hostileHeader parentSealed)
    twoBlsSigner ⟨.bls, zeroAddress⟩ rfl rfl rfl Crypto.toy
  refine ⟨hhash.mpr fun h => hpresent h.2.2, ?_⟩
  intro parent parentValidators quorum mustExist
  exact (hverify parent parentValidators quorum mustExist).mpr hpresent

theorem missing_parentSeals_panics :
    twoBlsSigner.calculateHeaderHash Crypto.toy Rlp.standard
        (hostileHeader [.list [], .bytes [], .list []]) = .error (.panic .nilDereference)
      ∧ twoBlsSigner.verifyParentCommittedSeals Crypto.toy Rlp.standard (hostileHeader [])
        (hostileHeader [.list [], .bytes [], .list []]) ⟨.bls, []⟩ 0 true
          = .error (.panic .nilDereference) := by
  constructor <;> decide +kernel

end Nxchain
