import Nxchain.Ibft

namespace Nxchain

section Counting

variable {α : Type} [DecidableEq α]

theorem exists_common {members left right : List α} (hleft : left.Nodup) (hright : right.Nodup)
    (hleftSub : left ⊆ members) (hrightSub : right ⊆ members) :
    ∃ common : List α, common.Nodup ∧ common ⊆ left ∧ common ⊆ right
      ∧ left.length + right.length ≤ members.length + common.length := by
  refine ⟨left.filter (· ∈ right), hleft.filter _, List.filter_subset_self _, ?_, ?_⟩
  · intro a ha
    simpa using (List.mem_filter.mp ha).2
  · have hcommon : (left.filter (· ∈ right)).toFinset = left.toFinset ∩ right.toFinset := by
      ext a
      simp
    have hunion : (left.toFinset ∪ right.toFinset).card ≤ members.length := by
      calc
        (left.toFinset ∪ right.toFinset).card ≤ members.toFinset.card := by
          apply Finset.card_le_card
          intro a ha
          rw [Finset.mem_union, List.mem_toFinset, List.mem_toFinset] at ha
          rw [List.mem_toFinset]
          exact ha.elim (fun h => hleftSub h) (fun h => hrightSub h)
        _ ≤ members.length := List.toFinset_card_le members
    have hsum := Finset.card_union_add_card_inter left.toFinset right.toFinset
    rw [← hcommon, List.toFinset_card_of_nodup (hleft.filter _),
      List.toFinset_card_of_nodup hleft, List.toFinset_card_of_nodup hright] at hsum
    omega

end Counting

theorem maxFaultyNodes_lt_overlap {set : Validators} (hpos : 0 < set.len) {k : Nat}
    (hk : 2 * optimalQuorumSize set ≤ set.len + k) : calcMaxFaultyNodes set + 1 ≤ k := by
  unfold optimalQuorumSize calcMaxFaultyNodes at *
  split at hk <;> omega

section Signers

def Crypto.HasKey (crypto : Crypto) (w : Validator) (key : crypto.bls.PublicKey) : Prop :=
  ∃ address raw, w = .bls address raw ∧ crypto.bls.unmarshalPublicKey raw = .ok key

structure Crypto.Unforgeable (crypto : Crypto) (Signed : Address → Bytes → Prop) : Prop where
  ecdsa : ∀ signature msg addr, crypto.ecrecover signature msg = .ok addr → Signed addr msg
  bls : ∀ ws keys aggregate msg multi, List.Forall₂ crypto.HasKey ws keys →
    crypto.bls.aggregatePublicKeys keys = .ok aggregate →
    crypto.bls.verifyMultiSignature aggregate msg multi = .ok true → ∀ w ∈ ws, Signed w.addr msg

def SignedByQuorum (set : Validators) (Signed : Address → Bytes → Prop) (msg : Bytes)
    (quorum : Nat) : Prop :=
  ∃ signers : List Address, signers.Nodup ∧ quorum ≤ signers.length
    ∧ ∀ a ∈ signers, set.includes a = true ∧ Signed a msg

variable {crypto : Crypto} {Signed : Address → Bytes → Prop} {set : Validators} {msg : Bytes}

theorem SignedByQuorum.exists_common {msg' : Bytes} (hpos : 0 < set.len)
    (h : SignedByQuorum set Signed msg (optimalQuorumSize set))
    (h' : SignedByQuorum set Signed msg' (optimalQuorumSize set)) :
    ∃ common : List Address, common.Nodup ∧ calcMaxFaultyNodes set + 1 ≤ common.length ∧
      ∀ a ∈ common, set.includes a = true ∧ Signed a msg ∧ Signed a msg' := by
  obtain ⟨signers, hnodup, hlen, hsigned⟩ := h
  obtain ⟨signers', hnodup', hlen', hsigned'⟩ := h'
  have hmember {a : Address} (hincluded : set.includes a = true) : a ∈ set.validators.map Validator.addr := by
    obtain ⟨w, hw, rfl⟩ := Validators.includes_iff.mp hincluded
    exact List.mem_map_of_mem hw
  obtain ⟨common, hcommon, hsub, hsub', hcount⟩ := Nxchain.exists_common hnodup hnodup'
    (fun a ha => hmember (hsigned a ha).1) (fun a ha => hmember (hsigned' a ha).1)
  rw [List.length_map] at hcount
  refine ⟨common, hcommon, maxFaultyNodes_lt_overlap hpos ?_, fun a ha => ?_⟩
  · unfold Validators.len
    omega
  · exact ⟨(hsigned a (hsub ha)).1, (hsigned a (hsub ha)).2, (hsigned' a (hsub' ha)).2⟩

theorem checkSeals_signers {visited : List Address} {seals : List Bytes}
    (hcheck : ECDSAKeyManager.checkSeals crypto msg set visited seals = .ok ()) :
    ∃ signers : List Address, signers.Nodup ∧ signers.length = seals.length
      ∧ (∀ a ∈ signers, a ∉ visited)
      ∧ ∀ a ∈ signers, set.includes a = true ∧ ∃ signature, crypto.ecrecover signature msg = .ok a := by
  induction seals generalizing visited with
  | nil => exact ⟨[], by simp⟩
  | cons signature rest ih =>
    obtain ⟨addr, hrecover, hcheck⟩ := Except.bind_eq_ok_iff.mp hcheck
    simp only [Except.ite_throw_bind_eq_ok_iff] at hcheck
    obtain ⟨hfresh, hincluded, hrest⟩ := hcheck
    obtain ⟨signers, hnodup, hlen, hvisited, hsigned⟩ := ih hrest
    refine ⟨addr :: signers, ?_, ?_, ?_, ?_⟩
    · refine List.nodup_cons.mpr ⟨?_, hnodup⟩
      intro hmem
      exact hvisited addr hmem List.mem_cons_self
    · simp [hlen]
    · intro a ha
      rcases List.mem_cons.mp ha with rfl | ha
      · exact hfresh
      · intro hmem
        exact hvisited a ha (List.mem_cons_of_mem _ hmem)
    · intro a ha
      rcases List.mem_cons.mp ha with rfl | ha
      · exact ⟨by simpa using hincluded, signature, hrecover⟩
      · exact hsigned a ha

theorem signerKeys_signers {bitMap idx : Nat} {vals : List Validator} {keys : List crypto.bls.PublicKey}
    (hkeys : BLSKeyManager.signerKeys crypto bitMap idx vals = .ok keys) :
    ∃ ws, ws.Sublist vals ∧ List.Forall₂ crypto.HasKey ws keys := by
  induction vals generalizing idx keys with
  | nil =>
    cases hkeys
    exact ⟨[], List.Sublist.refl _, .nil⟩
  | cons validator rest ih =>
    unfold BLSKeyManager.signerKeys at hkeys
    split at hkeys
    · obtain ⟨ws, hsub, hall⟩ := ih hkeys
      exact ⟨ws, hsub.cons _, hall⟩
    · cases validator with
      | ecdsa address => cases hkeys
      | bls address raw =>
        obtain ⟨key, hkey, hkeys⟩ := Except.bind_eq_ok_iff.mp hkeys
        obtain ⟨keys', hkeys', hkeys⟩ := Except.bind_eq_ok_iff.mp hkeys
        obtain rfl := Except.ok.inj hkeys
        obtain ⟨ws, hsub, hall⟩ := ih hkeys'
        refine ⟨.bls address raw :: ws, hsub.cons_cons _, .cons ?_ hall⟩
        exact ⟨address, raw, rfl, Except.mapError_eq_ok_iff.mp hkey⟩

variable (hsound : crypto.Unforgeable Signed) (hdistinct : (set.validators.map Validator.addr).Nodup)

include hsound

theorem signedByQuorum_of_ecdsa {seals : List Bytes} {num : Nat}
    (hverify : ECDSAKeyManager.verifyCommittedSealsImpl crypto seals msg set = .ok num) :
    SignedByQuorum set Signed msg num := by
  simp only [ECDSAKeyManager.verifyCommittedSealsImpl, Except.ite_throw_bind_eq_ok_iff] at hverify
  obtain ⟨_, hverify⟩ := hverify
  obtain ⟨_, hcheck, hverify⟩ := Except.bind_eq_ok_iff.mp hverify
  obtain rfl := Except.ok.inj hverify
  obtain ⟨signers, hnodup, hlen, _, hsigned⟩ := checkSeals_signers hcheck
  refine ⟨signers, hnodup, hlen.ge, ?_⟩
  intro a ha
  obtain ⟨hincluded, signature, hrecover⟩ := hsigned a ha
  exact ⟨hincluded, hsound.ecdsa signature msg a hrecover⟩

include hdistinct

theorem signedByQuorum_of_bls {bitmap : Option Nat} {signature : Bytes} {num : Nat}
    (hverify : BLSKeyManager.verifyBLSCommittedSealsImpl crypto bitmap signature msg set = .ok num) :
    SignedByQuorum set Signed msg num := by
  unfold BLSKeyManager.verifyBLSCommittedSealsImpl at hverify
  cases bitmap with
  | none => cases hverify
  | some bitmap =>
    simp only [Except.ite_throw_bind_eq_ok_iff] at hverify
    obtain ⟨_, hverify⟩ := hverify
    obtain ⟨⟨aggregate, numKeys⟩, hcreate, hverify⟩ := Except.bind_eq_ok_iff.mp hverify
    obtain ⟨multi, _, hverify⟩ := Except.bind_eq_ok_iff.mp hverify
    obtain ⟨valid, hvalid, hverify⟩ := Except.bind_eq_ok_iff.mp hverify
    rw [Except.mapError_eq_ok_iff] at hcreate hvalid
    cases valid with
    | false => cases hverify
    | true =>
      obtain rfl := Except.ok.inj hverify
      obtain ⟨keys, hkeys, hcreate⟩ := Except.bind_eq_ok_iff.mp hcreate
      obtain ⟨aggregate', haggregate, hcreate⟩ := Except.bind_eq_ok_iff.mp hcreate
      rw [Except.mapError_eq_ok_iff] at haggregate
      obtain ⟨rfl, rfl⟩ := Prod.mk.inj (Except.ok.inj hcreate)
      obtain ⟨ws, hsub, hall⟩ := signerKeys_signers hkeys
      refine ⟨ws.map Validator.addr, hdistinct.sublist (hsub.map _), ?_, ?_⟩
      · rw [List.length_map, hall.length_eq]
      · intro a ha
        obtain ⟨w, hw, rfl⟩ := List.mem_map.mp ha
        exact ⟨Validators.includes_iff.mpr ⟨w, hsub.subset hw, rfl⟩,
          hsound.bls ws keys aggregate' msg multi hall haggregate hvalid w hw⟩

theorem signedByQuorum_of_verify {codec : Rlp.Codec} {signer : Signer} {header : Header} {quorum : Nat}
    (hverify : signer.verifyCommittedSeals crypto codec header set quorum = .ok ()) :
    ∃ hash, signer.calculateHeaderHash crypto codec header = .ok hash
      ∧ SignedByQuorum set Signed (crypto.commitMessage hash.toBytes) quorum := by
  obtain ⟨extra, _, hverify⟩ := Except.bind_eq_ok_iff.mp hverify
  obtain ⟨hash, hhash, hverify⟩ := Except.bind_eq_ok_iff.mp hverify
  obtain ⟨num, hnum, hverify⟩ := Except.bind_eq_ok_iff.mp hverify
  have hquorum : quorum ≤ num := by
    by_contra hlt
    rw [if_pos (by omega)] at hverify
    cases hverify
  have hsigned : SignedByQuorum set Signed (crypto.commitMessage hash.toBytes) num := by
    rw [liftError, Except.mapError_eq_ok_iff] at hnum
    unfold KeyManager.verifyCommittedSeals at hnum
    split at hnum
    · split at hnum
      · cases hnum
      · exact signedByQuorum_of_ecdsa hsound hnum
    · split at hnum
      · cases hnum
      · exact signedByQuorum_of_bls hsound hdistinct hnum
    · cases hnum
  obtain ⟨signers, hnodup, hlen, hsigned⟩ := hsigned
  exact ⟨hash, hhash, signers, hnodup, hquorum.trans hlen, hsigned⟩

theorem quorum_agreement (codec : Rlp.Codec) (signer : Signer) (header header' : Header) (hpos : 0 < set.len)
    (hverify : signer.verifyCommittedSeals crypto codec header set (optimalQuorumSize set) = .ok ())
    (hverify' : signer.verifyCommittedSeals crypto codec header' set (optimalQuorumSize set) = .ok ()) :
    ∃ hash hash', signer.calculateHeaderHash crypto codec header = .ok hash
      ∧ signer.calculateHeaderHash crypto codec header' = .ok hash'
      ∧ ∃ common : List Address, common.Nodup ∧ calcMaxFaultyNodes set + 1 ≤ common.length
        ∧ ∀ a ∈ common, set.includes a = true ∧ Signed a (crypto.commitMessage hash.toBytes)
          ∧ Signed a (crypto.commitMessage hash'.toBytes) := by
  obtain ⟨hash, hhash, hsigned⟩ := signedByQuorum_of_verify hsound hdistinct hverify
  obtain ⟨hash', hhash', hsigned'⟩ := signedByQuorum_of_verify hsound hdistinct hverify'
  exact ⟨hash, hash', hhash, hhash', hsigned.exists_common hpos hsigned'⟩

end Signers

def fourValidators : Validators := ⟨.ecdsa, [1, 2, 3, 4].map fun n => .ecdsa (sampleAddress n)⟩

def committedHeader (gasLimit : Nat) (signers : List UInt8) : Header :=
  putIbftExtra Rlp.standard
    { parentHash := zeroHash, sha3Uncles := emptyUncleHash, miner := zeroAddress.toBytes,
      stateRoot := zeroHash, txRoot := zeroHash, receiptsRoot := zeroHash,
      logsBloom := FixedBytes.zero 256, difficulty := 1, number := 1, gasLimit := gasLimit,
      gasUsed := 0, timestamp := 0, extraData := [], mixHash := istanbulDigest,
      nonce := FixedBytes.zero 8, hash := zeroHash }
    ⟨fourValidators, Crypto.toySeal (sampleAddress 1),
      .serialized (signers.map fun n => Crypto.toySeal (sampleAddress n)), none⟩

theorem toy_unforgeable : Crypto.toy.Unforgeable fun addr msg =>
    ∃ signature, Crypto.toy.ecrecover signature msg = .ok addr where
  ecdsa signature _ _ hrecover := ⟨signature, hrecover⟩
  bls _ _ _ msg _ _ _ _ w _ := ⟨Crypto.toySeal w.addr, Crypto.toy_ecrecover_toySeal w.addr msg⟩

theorem quorum_agreement_committedHeader :
    ∃ common : List Address, common.Nodup ∧ calcMaxFaultyNodes fourValidators + 1 ≤ common.length
      ∧ ∀ a ∈ common, fourValidators.includes a = true := by
  obtain ⟨_, _, _, _, common, hnodup, hlen, hcommon⟩ := quorum_agreement toy_unforgeable
    (show (fourValidators.validators.map Validator.addr).Nodup by decide +kernel) Rlp.standard
    ⟨⟨.ecdsa, zeroAddress⟩, none⟩ (committedHeader 0 [1, 2, 3]) (committedHeader 1 [2, 3, 4])
    (by decide) (by decide +kernel) (by decide +kernel)
  exact ⟨common, hnodup, hlen, fun a ha => (hcommon a ha).1⟩

end Nxchain
