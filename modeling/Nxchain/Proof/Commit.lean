import Mathlib.Data.Nat.Bitwise
import Mathlib.Data.Nat.Size
import Nxchain.Ibft
import Nxchain.Proof.SealWriting

namespace Nxchain

section SealMap

variable (committedSeals : List CommittedSeal)

theorem committedSealsMap_concat (c : CommittedSeal) :
    committedSealsMap (committedSeals ++ [c])
      = setEntry (committedSealsMap committedSeals) c.signerAddress c.signature := by
  simp [committedSealsMap]

theorem mem_committedSealsMap {entry : Address × Bytes} (hentry : entry ∈ committedSealsMap committedSeals) :
    ∃ c ∈ committedSeals, c.signerAddress = entry.1 ∧ c.signature = entry.2 := by
  induction committedSeals using List.reverseRecOn with
  | nil => cases hentry
  | append_singleton rest c ih =>
    rw [committedSealsMap_concat, setEntry, List.mem_append, List.mem_singleton] at hentry
    cases hentry with
    | inl hold =>
      obtain ⟨c', hc', heq⟩ := ih (List.mem_of_mem_filter hold)
      exact ⟨c', List.mem_append_left _ hc', heq⟩
    | inr hnew =>
      subst hnew
      exact ⟨c, by simp, rfl, rfl⟩

theorem keys_committedSealsMap :
    ((committedSealsMap committedSeals).map Prod.fst).Nodup
      ∧ ∀ a, a ∈ (committedSealsMap committedSeals).map Prod.fst
        ↔ a ∈ committedSeals.map CommittedSeal.signerAddress := by
  induction committedSeals using List.reverseRecOn with
  | nil => exact ⟨List.nodup_nil, fun _ => Iff.rfl⟩
  | append_singleton rest c ih =>
    obtain ⟨hnodup, hmem⟩ := ih
    have hkeys : (committedSealsMap (rest ++ [c])).map Prod.fst
        = ((committedSealsMap rest).map Prod.fst).filter (· ≠ c.signerAddress) ++ [c.signerAddress] := by
      rw [committedSealsMap_concat, setEntry, List.map_append, List.filter_map]
      rfl
    rw [hkeys]
    refine ⟨?_, ?_⟩
    · rw [List.nodup_append]
      refine ⟨hnodup.filter _, List.nodup_singleton _, ?_⟩
      intro a ha b hb heq
      rw [List.mem_singleton] at hb
      simp [heq, hb] at ha
    · intro a
      rw [List.mem_append, List.mem_filter, hmem, List.map_append]
      by_cases ha : a = c.signerAddress <;> simp [ha]

theorem keys_perm_dedup :
    ((committedSealsMap committedSeals).map Prod.fst).Perm
      (committedSeals.map CommittedSeal.signerAddress).dedup := by
  obtain ⟨hnodup, hmem⟩ := keys_committedSealsMap committedSeals
  rw [List.perm_ext_iff_of_nodup hnodup (List.nodup_dedup _)]
  intro a
  rw [hmem, List.mem_dedup]

theorem MapOrder.keys_iterate (order : MapOrder) :
    ((order.iterate (committedSealsMap committedSeals)).map Prod.fst).Perm
      (committedSeals.map CommittedSeal.signerAddress).dedup :=
  ((order.perm _).map Prod.fst).trans (keys_perm_dedup committedSeals)

end SealMap

structure Crypto.Aggregates (crypto : Crypto) : Prop where
  compactLength : ∀ sig msg addr, crypto.recoverCompact sig msg = .ok addr →
    sig.length = IstanbulExtra.sealLength
  keysPerm : ∀ keys keys', keys.Perm keys' →
    crypto.bls.aggregatePublicKeys keys = crypto.bls.aggregatePublicKeys keys'
  aggregate : ∀ (signed : List (crypto.bls.PublicKey × crypto.bls.Signature)) msg, signed ≠ [] →
    (∀ p ∈ signed, crypto.bls.verify p.1 msg p.2 = .ok true) →
    ∃ multi raw key, crypto.bls.aggregateSignatures (signed.map Prod.snd) = .ok multi
      ∧ crypto.bls.marshalMultiSignature multi = .ok raw ∧ raw ≠ []
      ∧ crypto.bls.unmarshalMultiSignature raw = .ok multi
      ∧ crypto.bls.aggregatePublicKeys (signed.map Prod.fst) = .ok key
      ∧ ∀ key', crypto.bls.verifyMultiSignature key' msg multi = .ok true ↔ key' = key

section Ecdsa

variable {crypto : Crypto} {set : Validators} {msg : Bytes}

theorem Crypto.Aggregates.length_of_ecrecover (hcrypto : crypto.Aggregates) {signature : Bytes} {addr : Address}
    (hrecover : crypto.ecrecover signature msg = .ok addr) : signature.length = IstanbulExtra.sealLength := by
  unfold Crypto.ecrecover at hrecover
  cases hlast : signature.getLast? with
  | none => simp [hlast] at hrecover
  | some v =>
    simp only [hlast, Except.mapError_eq_ok_iff] at hrecover
    have hlength := hcrypto.compactLength _ _ _ hrecover
    have hpos : signature ≠ [] := by
      rintro rfl
      cases hlast
    rw [List.length_cons, List.length_dropLast] at hlength
    have := List.length_pos_iff.mpr hpos
    omega

theorem ECDSAKeyManager.verifyCommittedSeal_eq_ok_iff {addr : Address} {signature : Bytes} :
    verifyCommittedSeal crypto set addr signature msg = .ok () ↔
      set.validatorType = .ecdsa ∧ crypto.ecrecover signature msg = .ok addr
        ∧ set.includes addr = true := by
  unfold verifyCommittedSeal
  by_cases htype : set.validatorType = .ecdsa
  · cases hrecover : crypto.ecrecover signature msg with
    | error e => simp [htype]
    | ok signer =>
      by_cases hsigner : addr = signer
      · subst hsigner
        cases hincludes : set.includes addr <;> simp [htype]
      · simp [htype, hsigner, Ne.symm hsigner]
  · simp [htype]

theorem checkSeals_of_distinct {entries : List (Address × Bytes)} {visited : List Address}
    (hvalid : ∀ e ∈ entries, crypto.ecrecover e.2 msg = .ok e.1 ∧ set.includes e.1 = true)
    (hnodup : (entries.map Prod.fst).Nodup) (hfresh : ∀ e ∈ entries, e.1 ∉ visited) :
    ECDSAKeyManager.checkSeals crypto msg set visited (entries.map Prod.snd) = .ok () := by
  induction entries generalizing visited with
  | nil => rfl
  | cons e rest ih =>
    rw [List.map_cons, List.nodup_cons] at hnodup
    obtain ⟨hrecover, hincludes⟩ := hvalid e List.mem_cons_self
    refine Except.bind_eq_ok hrecover ?_
    simp only [Except.ite_throw_bind_eq_ok_iff]
    refine ⟨hfresh e List.mem_cons_self, by simp [hincludes], ?_⟩
    apply ih
    · exact fun e' he' => hvalid e' (List.mem_cons_of_mem _ he')
    · exact hnodup.2
    · intro e' he' hvisited
      cases List.mem_cons.mp hvisited with
      | inl heq => exact hnodup.1 (heq ▸ List.mem_map_of_mem he')
      | inr hold => exact hfresh e' (List.mem_cons_of_mem _ he') hold

theorem ECDSAKeyManager.generate_verify (hcrypto : crypto.Aggregates) {entries : List (Address × Bytes)}
    (hne : entries ≠ []) (hvalid : ∀ e ∈ entries, verifyCommittedSeal crypto set e.1 e.2 msg = .ok ())
    (hnodup : (entries.map Prod.fst).Nodup) :
    generateCommittedSeals entries = .ok (.serialized (entries.map Prod.snd))
      ∧ verifyCommittedSealsImpl crypto (entries.map Prod.snd) msg set = .ok entries.length := by
  have hvalid' (e) (he : e ∈ entries) : crypto.ecrecover e.2 msg = .ok e.1 ∧ set.includes e.1 = true :=
    (verifyCommittedSeal_eq_ok_iff.mp (hvalid e he)).2
  constructor
  · unfold generateCommittedSeals
    rw [if_neg]
    rw [List.any_eq_true]
    rintro ⟨e, he, hlength⟩
    have := hcrypto.length_of_ecrecover (hvalid' e he).1
    simp [this] at hlength
  · simp only [verifyCommittedSealsImpl, Except.ite_throw_bind_eq_ok_iff]
    refine ⟨by simpa using hne, ?_⟩
    refine Except.bind_eq_ok_iff.mpr ⟨(), ?_, by rw [List.length_map]; rfl⟩
    exact checkSeals_of_distinct hvalid' hnodup (fun _ _ => List.not_mem_nil)

end Ecdsa

section Bls

variable {crypto : Crypto} {listed set : Validators} {msg : Bytes}

def Crypto.blsKey (crypto : Crypto) : Validator → Except SignerError crypto.bls.PublicKey
  | .ecdsa _ => .error .invalidValidator
  | .bls _ blsPublicKey => (crypto.bls.unmarshalPublicKey blsPublicKey).mapError .crypto

def Crypto.aggregateKey (crypto : Crypto) (vs : List Validator) :
    Except SignerError crypto.bls.MultiPublicKey := do
  let keys ← vs.mapM crypto.blsKey
  (crypto.bls.aggregatePublicKeys keys).mapError .crypto

def validatorsAt (listed set : Validators) (signers : List Address) : List Validator :=
  (set.validators.zipIdx.filter fun p => signers.any fun a => listed.index a = some p.2).map Prod.fst

structure PositionsAgree (crypto : Crypto) (listed set : Validators) (signers : List Address)
    (quorum : Nat) : Prop where
  included : ∀ a ∈ signers, listed.includes a = true
  enough : quorum ≤ (validatorsAt listed set signers).length
  sameKey : crypto.aggregateKey (validatorsAt listed set signers)
    = crypto.aggregateKey (set.validators.filter fun v => v.addr ∈ signers)

theorem index_eq_some_iff (hdistinct : (set.validators.map Validator.addr).Nodup) {a : Address} {idx : Nat} :
    set.index a = some idx ↔ (set.validators[idx]?).map Validator.addr = some a := by
  unfold Validators.index
  rw [List.findIdx?_eq_some_iff_getElem]
  constructor
  · rintro ⟨hidx, haddr, _⟩
    rw [List.getElem?_eq_getElem hidx]
    exact congrArg some (by simpa using haddr)
  · intro haddr
    obtain ⟨v, hv, rfl⟩ := Option.map_eq_some_iff.mp haddr
    obtain ⟨hidx, rfl⟩ := List.getElem?_eq_some_iff.mp hv
    refine ⟨hidx, by simp, ?_⟩
    intro j hj heq
    refine List.nodup_iff_getElem?_ne_getElem?.mp hdistinct j idx hj (by simpa using hidx) ?_
    rw [List.getElem?_map, List.getElem?_map, hv, List.getElem?_eq_getElem (hj.trans hidx)]
    exact congrArg some (by simpa using heq)

theorem validatorsAt_self (hdistinct : (set.validators.map Validator.addr).Nodup) (signers : List Address) :
    validatorsAt set set signers = set.validators.filter fun v => v.addr ∈ signers := by
  have hfilter : (set.validators.zipIdx.filter fun p => signers.any fun a => set.index a = some p.2)
      = set.validators.zipIdx.filter ((fun v => decide (v.addr ∈ signers)) ∘ Prod.fst) := by
    apply List.filter_congr
    rintro ⟨v, idx⟩ hp
    rw [List.mem_zipIdx_iff_getElem?] at hp
    rw [Bool.eq_iff_iff]
    simp only [List.any_eq_true, decide_eq_true_eq, index_eq_some_iff hdistinct, hp,
      Option.map_some, Option.some.injEq, Function.comp_apply]
    constructor
    · rintro ⟨a, ha, rfl⟩
      exact ha
    · intro ha
      exact ⟨v.addr, ha, rfl⟩
  rw [validatorsAt, hfilter, ← List.filter_map, List.zipIdx_map_fst]

theorem signerKeys_eq_mapM (bitMap idx : Nat) (vals : List Validator) :
    BLSKeyManager.signerKeys crypto bitMap idx vals
      = (((vals.zipIdx idx).filter fun p => bitMap.testBit p.2).map Prod.fst).mapM crypto.blsKey := by
  induction vals generalizing idx with
  | nil => rfl
  | cons validator rest ih =>
    unfold BLSKeyManager.signerKeys
    rw [List.zipIdx_cons, List.filter_cons]
    cases hbit : bitMap.testBit idx with
    | false => simpa using ih (idx + 1)
    | true =>
      cases validator with
      | ecdsa address => simp [Crypto.blsKey, bind, Except.bind]
      | bls address raw => simp [Crypto.blsKey, ih]

def MarksSigners (listed : Validators) (signers : List Address) (bitMap : Nat) : Prop :=
  ∀ idx, bitMap.testBit idx = true ↔ ∃ a ∈ signers, listed.index a = some idx

theorem createAggregatedBLSPubKeys_eq_ok_iff {signers : List Address} {bitMap : Nat}
    (hmarks : MarksSigners listed signers bitMap) {key : crypto.bls.MultiPublicKey} {num : Nat} :
    BLSKeyManager.createAggregatedBLSPubKeys crypto set bitMap = .ok (key, num) ↔
      crypto.aggregateKey (validatorsAt listed set signers) = .ok key
        ∧ num = (validatorsAt listed set signers).length := by
  have hkeys : BLSKeyManager.signerKeys crypto bitMap 0 set.validators
      = (validatorsAt listed set signers).mapM crypto.blsKey := by
    rw [signerKeys_eq_mapM]
    congr 2
    apply List.filter_congr
    rintro ⟨v, idx⟩ _
    rw [Bool.eq_iff_iff, hmarks idx]
    simp
  simp only [BLSKeyManager.createAggregatedBLSPubKeys, Crypto.aggregateKey, hkeys, Except.bind_eq_ok_iff]
  constructor
  · rintro ⟨keys, hmapM, key', hkey, heq⟩
    obtain ⟨rfl, rfl⟩ := Prod.mk.inj (Except.ok.inj heq)
    exact ⟨⟨keys, hmapM, hkey⟩, (Except.mapM_eq_ok_iff.mp hmapM).length_eq.symm⟩
  · rintro ⟨⟨keys, hmapM, hkey⟩, rfl⟩
    refine ⟨keys, hmapM, key, hkey, ?_⟩
    rw [(Except.mapM_eq_ok_iff.mp hmapM).length_eq]
    rfl

theorem verifyBLSCommittedSealsImpl_eq_ok_iff {signers : List Address} {bitMap : Nat}
    (hmarks : MarksSigners listed signers bitMap) (hbitMap : bitMap ≠ 0) {raw : Bytes} (hraw : raw ≠ [])
    {multi : crypto.bls.MultiSignature} (hmulti : crypto.bls.unmarshalMultiSignature raw = .ok multi)
    {key : crypto.bls.MultiPublicKey}
    (hkey : ∀ key', crypto.bls.verifyMultiSignature key' msg multi = .ok true ↔ key' = key) {num : Nat} :
    BLSKeyManager.verifyBLSCommittedSealsImpl crypto (some bitMap) raw msg set = .ok num ↔
      crypto.aggregateKey (validatorsAt listed set signers) = .ok key
        ∧ num = (validatorsAt listed set signers).length := by
  have hsize : ¬ (raw.length = 0 ∨ bitMap.size = 0) := by
    rw [List.length_eq_zero_iff, Nat.size_eq_zero]
    exact not_or.mpr ⟨hraw, hbitMap⟩
  simp only [BLSKeyManager.verifyBLSCommittedSealsImpl, Except.ite_throw_bind_eq_ok_iff, hsize,
    not_false_eq_true, true_and, Except.bind_eq_ok_iff, Except.mapError_eq_ok_iff, hmulti,
    Except.ok.injEq, exists_eq_left']
  constructor
  · rintro ⟨⟨key', num'⟩, hcreate, valid, hverify, hnum⟩
    cases valid with
    | false => cases hnum
    | true =>
      obtain rfl := Except.ok.inj hnum
      obtain rfl := (hkey key').mp hverify
      exact (createAggregatedBLSPubKeys_eq_ok_iff hmarks).mp hcreate
  · intro h
    exact ⟨(key, num), (createAggregatedBLSPubKeys_eq_ok_iff hmarks).mpr h, true, (hkey key).mpr rfl, rfl⟩

theorem getBLSSignatures_spec {entries : List (Address × Bytes)} {sig : Address × Bytes → _}
    (hsig : ∀ e ∈ entries, crypto.bls.unmarshalSignature e.2 = .ok (sig e))
    (hlisted : ∀ e ∈ entries, listed.includes e.1 = true) (collected : List crypto.bls.Signature) (marked : Nat) :
    ∃ bitMap, BLSKeyManager.getBLSSignatures crypto listed entries collected marked
        = .ok (collected ++ entries.map sig, bitMap)
      ∧ ∀ idx, bitMap.testBit idx = true ↔ marked.testBit idx = true
        ∨ ∃ e ∈ entries, listed.index e.1 = some idx := by
  induction entries generalizing collected marked with
  | nil => exact ⟨marked, by simp [BLSKeyManager.getBLSSignatures], by simp⟩
  | cons e rest ih =>
    obtain ⟨addr, signature⟩ := e
    obtain ⟨index, hindex⟩ := Option.isSome_iff_exists.mp (hlisted _ List.mem_cons_self)
    obtain ⟨bitMap, hrest, hbits⟩ := ih (fun e he => hsig e (List.mem_cons_of_mem _ he))
      (fun e he => hlisted e (List.mem_cons_of_mem _ he))
      (collected ++ [sig (addr, signature)]) (marked ||| 2 ^ index)
    refine ⟨bitMap, ?_, ?_⟩
    · unfold BLSKeyManager.getBLSSignatures
      rw [hindex]
      refine Except.bind_eq_ok_iff.mpr ⟨sig (addr, signature), ?_, ?_⟩
      · exact Except.mapError_eq_ok_iff.mpr (hsig _ List.mem_cons_self)
      · rw [hrest, List.append_assoc]
        rfl
    · intro idx
      rw [hbits idx, Nat.testBit_or, Nat.testBit_two_pow]
      simp only [Bool.or_eq_true, decide_eq_true_eq, List.exists_mem_cons_iff, hindex, Option.some.injEq]
      exact or_assoc

theorem getBLSSignatures_listed {entries : List (Address × Bytes)}
    {collected signatures : List crypto.bls.Signature} {marked bitMap : Nat}
    (hrun : BLSKeyManager.getBLSSignatures crypto listed entries collected marked = .ok (signatures, bitMap)) :
    ∀ e ∈ entries, listed.includes e.1 = true := by
  induction entries generalizing collected marked with
  | nil => exact fun e he => absurd he List.not_mem_nil
  | cons e rest ih =>
    obtain ⟨addr, signature⟩ := e
    unfold BLSKeyManager.getBLSSignatures at hrun
    cases hindex : listed.index addr with
    | none => simp [hindex] at hrun
    | some index =>
      rw [hindex] at hrun
      obtain ⟨bsig, _, hrun⟩ := Except.bind_eq_ok_iff.mp hrun
      intro e he
      cases List.mem_cons.mp he with
      | inl heq => simp [heq, Validators.includes, hindex]
      | inr hrest => exact ih hrun e hrest

theorem verifyBLSSignatureFromBytes_eq_ok {rawPubkey rawSig : Bytes}
    (hverify : crypto.verifyBLSSignatureFromBytes rawPubkey rawSig msg = .ok ()) :
    ∃ key sig, crypto.bls.unmarshalPublicKey rawPubkey = .ok key
      ∧ crypto.bls.unmarshalSignature rawSig = .ok sig ∧ crypto.bls.verify key msg sig = .ok true := by
  obtain ⟨key, hkey, hverify⟩ := Except.bind_eq_ok_iff.mp hverify
  obtain ⟨sig, hsig, hverify⟩ := Except.bind_eq_ok_iff.mp hverify
  obtain ⟨valid, hvalid, hverify⟩ := Except.bind_eq_ok_iff.mp hverify
  rw [Except.mapError_eq_ok_iff] at hkey hsig hvalid
  cases valid with
  | false => cases hverify
  | true => exact ⟨key, sig, hkey, hsig, hvalid⟩

section Accepted

variable (hdistinct : (set.validators.map Validator.addr).Nodup)

include hdistinct

theorem BLSKeyManager.verifyCommittedSeal_eq_ok {addr : Address} {rawSig : Bytes}
    (haccept : verifyCommittedSeal crypto set addr rawSig msg = .ok ()) :
    set.validatorType = .bls ∧ set.includes addr = true ∧ ∃ key sig,
      (∀ v ∈ set.validators, v.addr = addr → crypto.blsKey v = .ok key)
        ∧ crypto.bls.unmarshalSignature rawSig = .ok sig
        ∧ crypto.bls.verify key msg sig = .ok true := by
  unfold verifyCommittedSeal at haccept
  split at haccept
  · cases haccept
  rename_i htype
  split at haccept
  · cases haccept
  · cases haccept
  · rename_i address raw hfound
    obtain ⟨idx, hidx, hget⟩ := Option.bind_eq_some_iff.mp hfound
    obtain ⟨key, sig, hkey, hsig, hvalid⟩ := verifyBLSSignatureFromBytes_eq_ok haccept
    refine ⟨not_not.mp htype, by simp [Validators.includes, hidx], key, sig, ?_, hsig, hvalid⟩
    intro v hv haddr
    obtain ⟨j, hj⟩ := List.mem_iff_getElem?.mp hv
    have hindex : set.index addr = some j := by
      rw [index_eq_some_iff hdistinct, hj, Option.map_some, haddr]
    obtain rfl : idx = j := Option.some.inj (hidx.symm.trans hindex)
    obtain rfl : Validator.bls address raw = v := Option.some.inj (hget.symm.trans hj)
    exact Except.mapError_eq_ok_iff.mpr hkey

variable {entries : List (Address × Bytes)} (hne : entries ≠ [])
  (haccept : ∀ e ∈ entries, BLSKeyManager.verifyCommittedSeal crypto set e.1 e.2 msg = .ok ())

include hne haccept

theorem exists_keys_signatures :
    ∃ (key : Address → crypto.bls.PublicKey) (sig : Address × Bytes → crypto.bls.Signature),
      (∀ v ∈ set.validators, v.addr ∈ entries.map Prod.fst → crypto.blsKey v = .ok (key v.addr))
      ∧ ∀ e ∈ entries, crypto.bls.unmarshalSignature e.2 = .ok (sig e)
        ∧ crypto.bls.verify (key e.1) msg (sig e) = .ok true := by
  have hentry (e) (he : e ∈ entries) := (BLSKeyManager.verifyCommittedSeal_eq_ok hdistinct (haccept e he)).2
  obtain ⟨e₀, he₀⟩ := List.exists_mem_of_ne_nil entries hne
  obtain ⟨_, key₀, sig₀, _⟩ := hentry e₀ he₀
  have : Nonempty crypto.bls.PublicKey := ⟨key₀⟩
  have : Nonempty crypto.bls.Signature := ⟨sig₀⟩
  have hkeys : ∀ a ∈ entries.map Prod.fst, ∃ key, ∀ v ∈ set.validators, v.addr = a → crypto.blsKey v = .ok key := by
    intro a ha
    obtain ⟨e, he, rfl⟩ := List.mem_map.mp ha
    obtain ⟨_, key, _, hkey, _⟩ := hentry e he
    exact ⟨key, hkey⟩
  choose! key hkey using hkeys
  have hsigs : ∀ e ∈ entries, ∃ sig, crypto.bls.unmarshalSignature e.2 = .ok sig
      ∧ crypto.bls.verify (key e.1) msg sig = .ok true := by
    intro e he
    obtain ⟨hincludes, key', sig, hkey', hsig, hvalid⟩ := hentry e he
    obtain ⟨v, hv, haddr⟩ := Validators.includes_iff.mp hincludes
    have heq : key' = key e.1 := by
      have hfirst := hkey' v hv haddr
      rw [hkey e.1 (List.mem_map_of_mem he) v hv haddr] at hfirst
      exact (Except.ok.inj hfirst).symm
    exact ⟨sig, hsig, heq ▸ hvalid⟩
  choose! sig hsig using hsigs
  exact ⟨key, sig, fun v hv hmem => hkey v.addr hmem v hv rfl, hsig⟩

variable (hcrypto : crypto.Aggregates) (hnodup : (entries.map Prod.fst).Nodup)
  {signers : List Address} (hsigners : ∀ a, a ∈ entries.map Prod.fst ↔ a ∈ signers)

include hcrypto hnodup hsigners

theorem BLSKeyManager.generateCommittedSeals_spec (htype : listed.validatorType = .bls)
    (hlisted : ∀ a ∈ signers, listed.includes a = true) :
    ∃ bitMap raw multi key,
      generateCommittedSeals crypto entries listed = .ok (.aggregated (some bitMap) raw)
        ∧ MarksSigners listed signers bitMap ∧ bitMap ≠ 0 ∧ raw ≠ []
        ∧ crypto.bls.unmarshalMultiSignature raw = .ok multi
        ∧ (∀ key', crypto.bls.verifyMultiSignature key' msg multi = .ok true ↔ key' = key)
        ∧ crypto.aggregateKey (set.validators.filter fun v => v.addr ∈ signers) = .ok key := by
  obtain ⟨key, sig, hkey, hsig⟩ := exists_keys_signatures hdistinct hne haccept
  have hlisted' (e) (he : e ∈ entries) : listed.includes e.1 = true :=
    hlisted e.1 ((hsigners e.1).mp (List.mem_map_of_mem he))
  obtain ⟨bitMap, hcollect, hbits⟩ := getBLSSignatures_spec (fun e he => (hsig e he).1) hlisted' [] 0
  have hmarks : MarksSigners listed signers bitMap := by
    intro idx
    rw [hbits idx, Nat.zero_testBit]
    simp only [Bool.false_eq_true, false_or, ← hsigners, List.mem_map, exists_exists_and_eq_and]
  obtain ⟨multi, raw, aggregate, hmulti, hmarshal, hraw, hunmarshal, haggregate, hvalid⟩ :=
    hcrypto.aggregate (entries.map fun e => (key e.1, sig e)) msg (by simpa using hne) (by
      intro p hp
      obtain ⟨e, he, rfl⟩ := List.mem_map.mp hp
      exact (hsig e he).2)
  rw [List.map_map] at hmulti haggregate
  refine ⟨bitMap, raw, multi, aggregate, ?_, hmarks, ?_, hraw, hunmarshal, hvalid, ?_⟩
  · simp only [generateCommittedSeals, Except.ite_throw_bind_eq_ok_iff, htype, ne_eq,
      not_true_eq_false, not_false_eq_true, true_and]
    refine Except.bind_eq_ok hcollect ?_
    refine Except.bind_eq_ok (Except.mapError_eq_ok_iff.mpr hmulti) ?_
    exact Except.bind_eq_ok (Except.mapError_eq_ok_iff.mpr hmarshal) rfl
  · rintro rfl
    obtain ⟨e, he⟩ := List.exists_mem_of_ne_nil entries hne
    obtain ⟨idx, hidx⟩ := Option.isSome_iff_exists.mp (hlisted' e he)
    have := (hbits idx).mpr (.inr ⟨e, he, hidx⟩)
    simp at this
  · -- both lists have the signers' addresses once each, in the order of the set and of the map
    have hperm : (entries.map Prod.fst).Perm
        ((set.validators.filter fun v => v.addr ∈ signers).map Validator.addr) := by
      rw [List.perm_ext_iff_of_nodup hnodup (hdistinct.sublist (List.filter_sublist.map _))]
      intro a
      rw [hsigners, List.mem_map]
      constructor
      · intro ha
        obtain ⟨e, he, rfl⟩ := List.mem_map.mp ((hsigners a).mpr ha)
        obtain ⟨_, hincludes, _⟩ := verifyCommittedSeal_eq_ok hdistinct (haccept e he)
        obtain ⟨v, hv, haddr⟩ := Validators.includes_iff.mp hincludes
        exact ⟨v, by simp [hv, haddr, ha], haddr⟩
      · rintro ⟨v, hv, rfl⟩
        simpa using (List.mem_filter.mp hv).2
    refine Except.bind_eq_ok_iff.mpr
      ⟨(set.validators.filter fun v => v.addr ∈ signers).map fun v => key v.addr, ?_, ?_⟩
    · rw [Except.mapM_eq_ok_iff, List.forall₂_map_right_iff, List.forall₂_same]
      intro v hv
      obtain ⟨hv, hsigner⟩ := List.mem_filter.mp hv
      exact hkey v hv ((hsigners v.addr).mpr (by simpa using hsigner))
    · rw [Except.mapError_eq_ok_iff, ← haggregate]
      have hkeys := (hperm.map key).symm
      rw [List.map_map, List.map_map] at hkeys
      exact hcrypto.keysPerm _ _ hkeys

theorem BLSKeyManager.generate_verify_iff (htype : listed.validatorType = .bls) (quorum : Nat) :
    (∃ bitMap raw num, generateCommittedSeals crypto entries listed = .ok (.aggregated (some bitMap) raw)
      ∧ verifyBLSCommittedSealsImpl crypto (some bitMap) raw msg set = .ok num ∧ quorum ≤ num) ↔
      PositionsAgree crypto listed set signers quorum := by
  constructor
  · rintro ⟨bitMap, raw, num, hgenerate, hverify, hquorum⟩
    have hlisted : ∀ a ∈ signers, listed.includes a = true := by
      simp only [generateCommittedSeals, Except.ite_throw_bind_eq_ok_iff] at hgenerate
      obtain ⟨⟨signatures, bitMap'⟩, hcollect, _⟩ := Except.bind_eq_ok_iff.mp hgenerate.2
      intro a ha
      obtain ⟨e, he, rfl⟩ := List.mem_map.mp ((hsigners a).mpr ha)
      exact getBLSSignatures_listed hcollect e he
    obtain ⟨bitMap', raw', multi, key, hgenerate', hmarks, hbitMap, hraw, hmulti, hvalid, hkey⟩ :=
      generateCommittedSeals_spec hdistinct hne haccept hcrypto hnodup hsigners htype hlisted
    rw [hgenerate'] at hgenerate
    cases hgenerate
    obtain ⟨hsame, rfl⟩ := (verifyBLSCommittedSealsImpl_eq_ok_iff hmarks hbitMap hraw hmulti hvalid).mp hverify
    exact ⟨hlisted, hquorum, hsame.trans hkey.symm⟩
  · intro hagree
    obtain ⟨bitMap, raw, multi, key, hgenerate, hmarks, hbitMap, hraw, hmulti, hvalid, hkey⟩ :=
      generateCommittedSeals_spec hdistinct hne haccept hcrypto hnodup hsigners htype hagree.included
    refine ⟨bitMap, raw, _, hgenerate, ?_, hagree.enough⟩
    apply (verifyBLSCommittedSealsImpl_eq_ok_iff hmarks hbitMap hraw hmulti hvalid).mpr
    exact ⟨hagree.sameKey.trans hkey, rfl⟩

end Accepted

end Bls

section Proposal

variable {i : BackendIBFT} {signer : Signer} {extra : IstanbulExtra}

theorem Signer.calculateHeaderHash_hash (crypto : Crypto) (codec : Rlp.Codec) (signer : Signer) (h : Header)
    (hash : Hash) :
    signer.calculateHeaderHash crypto codec { h with hash := hash }
      = signer.calculateHeaderHash crypto codec h := by
  have hextra : signer.getIBFTExtra codec { h with hash := hash } = signer.getIBFTExtra codec h := rfl
  unfold calculateHeaderHash filterHeaderForHash
  rw [hextra]
  cases signer.getIBFTExtra codec h with
  | error e => rfl
  | ok extra =>
    dsimp only [bind, Except.bind]
    cases hashedParentSeals extra.parentCommittedSeals with
    | error e => rfl
    | ok seals => rfl

theorem Signer.calculateHeaderHash_ne_error {crypto : Crypto} {codec : Rlp.Codec} {h : Header}
    (hextra : signer.getIBFTExtra codec h = .ok extra) {e : Fault SignerError}
    (herror : signer.calculateHeaderHash crypto codec h = .error e) : e = .panic .nilDereference := by
  unfold calculateHeaderHash filterHeaderForHash at herror
  rw [hextra] at herror
  dsimp only [bind, Except.bind] at herror
  match hseals : extra.parentCommittedSeals with
  | none =>
    simp [hseals, hashedParentSeals, pure, Except.pure] at herror
  | some (.serialized seals) =>
    simp [hseals, hashedParentSeals, Seals.num, bind, Except.bind, pure, Except.pure] at herror
  | some (.aggregated (some bitmap) signature) =>
    simp [hseals, hashedParentSeals, Seals.num, bind, Except.bind, pure, Except.pure] at herror
  | some (.aggregated none signature) =>
    simp only [hseals] at herror
    exact (Except.error.inj herror).symm

namespace BackendIBFT

theorem unmarshalBlock_header {input : Bytes} {block : Block} (hblock : i.unmarshalBlock input = .ok block) :
    ∃ h : Header, i.headerHash h = .ok block.header.hash
      ∧ block.header = { h with hash := block.header.hash } := by
  unfold unmarshalBlock at hblock
  cases hparse : i.forkManager.codec.parse input with
  | none => simp [hparse] at hblock
  | some v =>
    simp only [hparse, Except.mapError_eq_ok_iff] at hblock
    obtain ⟨elems, _, hblock⟩ := Except.bind_eq_ok_iff.mp hblock
    split at hblock
    · obtain ⟨header, hheader, hblock⟩ := Except.bind_eq_ok_iff.mp hblock
      obtain ⟨_, _, hblock⟩ := Except.bind_eq_ok_iff.mp hblock
      obtain ⟨_, _, hblock⟩ := Except.bind_eq_ok_iff.mp hblock
      obtain ⟨_, _, hblock⟩ := Except.bind_eq_ok_iff.mp hblock
      obtain ⟨_, _, hblock⟩ := Except.bind_eq_ok_iff.mp hblock
      obtain rfl := Except.ok.inj hblock
      obtain ⟨_, _, hheader⟩ := Except.bind_eq_ok_iff.mp hheader
      simp only [Except.ite_throw_bind_eq_ok_iff] at hheader
      obtain ⟨h, _, hheader⟩ := Except.bind_eq_ok_iff.mp hheader.2
      obtain ⟨hash, hhash, hheader⟩ := Except.bind_eq_ok_iff.mp hheader
      obtain rfl := Except.ok.inj hheader
      exact ⟨h, Except.mapError_eq_ok_iff.mp hhash, rfl⟩
    · cases hblock

theorem calculateHeaderHash_of_unmarshalBlock {input : Bytes} {block : Block}
    (hblock : i.unmarshalBlock input = .ok block)
    (hsigner : i.forkManager.getSigner block.header.number = .ok signer)
    (hextra : signer.getIBFTExtra i.forkManager.codec block.header = .ok extra) :
    signer.calculateHeaderHash i.forkManager.crypto i.forkManager.codec block.header
      = .ok block.header.hash := by
  obtain ⟨h, hhash, hheader⟩ := unmarshalBlock_header hblock
  rw [hheader] at hsigner hextra
  have hsigner' : i.forkManager.getSigner h.number = .ok signer := hsigner
  have hextra' : signer.getIBFTExtra i.forkManager.codec h = .ok extra := hextra
  have hcalculate : signer.calculateHeaderHash i.forkManager.crypto i.forkManager.codec block.header
      = signer.calculateHeaderHash i.forkManager.crypto i.forkManager.codec h := by
    rw [hheader]
    exact Signer.calculateHeaderHash_hash _ _ _ _ _
  rw [hcalculate]
  unfold headerHash at hhash
  rw [hsigner'] at hhash
  dsimp only at hhash
  cases hresult : signer.calculateHeaderHash i.forkManager.crypto i.forkManager.codec h with
  | ok hash =>
    rw [hresult] at hhash
    rw [Except.ok.inj hhash]
  | error e =>
    obtain rfl := Signer.calculateHeaderHash_ne_error hextra' hresult
    rw [hresult] at hhash
    cases hhash

end BackendIBFT

theorem KeyManager.generate_verify_iff {crypto : Crypto} {keyManager : KeyManager} {listed set : Validators}
    {msg : Bytes} {entries : List (Address × Bytes)} {signers : List Address} {quorum : Nat}
    (hcrypto : crypto.Aggregates) (hdistinct : (set.validators.map Validator.addr).Nodup) (hne : entries ≠ [])
    (haccept : ∀ e ∈ entries, keyManager.verifyCommittedSeal crypto set e.1 e.2 msg = .ok ())
    (hnodup : (entries.map Prod.fst).Nodup) (hsigners : ∀ a, a ∈ entries.map Prod.fst ↔ a ∈ signers)
    (hlisted : listed.validatorType = keyManager.type) (hquorum : quorum ≤ entries.length) :
    (∃ seals num, keyManager.generateCommittedSeals crypto entries listed = .ok seals
        ∧ keyManager.verifyCommittedSeals crypto seals msg set = .ok num ∧ quorum ≤ num) ↔
      (keyManager.type = .bls → PositionsAgree crypto listed set signers quorum) := by
  obtain ⟨e₀, he₀⟩ := List.exists_mem_of_ne_nil entries hne
  cases htype : keyManager.type with
  | ecdsa =>
    simp only [verifyCommittedSeal, htype] at haccept
    obtain ⟨hgenerate, hverify⟩ := ECDSAKeyManager.generate_verify hcrypto hne haccept hnodup
    have hsetType := (ECDSAKeyManager.verifyCommittedSeal_eq_ok_iff.mp (haccept e₀ he₀)).1
    refine iff_of_true ⟨.serialized (entries.map Prod.snd), entries.length, ?_, ?_, hquorum⟩
      (fun hbls => by cases hbls)
    · simp only [generateCommittedSeals, htype]
      exact hgenerate
    · simp only [verifyCommittedSeals, htype, hsetType]
      exact hverify
  | bls =>
    simp only [verifyCommittedSeal, htype] at haccept
    rw [htype] at hlisted
    have hsetType := (BLSKeyManager.verifyCommittedSeal_eq_ok hdistinct (haccept e₀ he₀)).1
    rw [forall_prop_of_true rfl, ← BLSKeyManager.generate_verify_iff hdistinct hne haccept hcrypto hnodup
      hsigners hlisted quorum]
    simp only [generateCommittedSeals, verifyCommittedSeals, htype, hsetType]
    constructor
    · rintro ⟨seals, num, hgenerate, hverify, hnum⟩
      match seals, hverify with
      | .aggregated (some bitMap) raw, hverify => exact ⟨bitMap, raw, num, hgenerate, hverify, hnum⟩
    · rintro ⟨bitMap, raw, num, h⟩
      exact ⟨.aggregated (some bitMap) raw, num, h⟩

theorem Signer.verifyCommittedSeals_eq_ok_iff {crypto : Crypto} {codec : Rlp.Codec} {header : Header} {hash : Hash}
    (hextra : signer.getIBFTExtra codec header = .ok extra)
    (hhash : signer.calculateHeaderHash crypto codec header = .ok hash) {set : Validators} {quorum : Nat} :
    signer.verifyCommittedSeals crypto codec header set quorum = .ok () ↔
      ∃ num, signer.keyManager.verifyCommittedSeals crypto extra.committedSeals
        (crypto.commitMessage hash.toBytes) set = .ok num ∧ quorum ≤ num := by
  simp only [verifyCommittedSeals, hextra, hhash, liftError, Except.bind_eq_ok_iff,
    Except.mapError_eq_ok_iff, Except.ok.injEq, exists_eq_left']
  refine exists_congr fun num => and_congr_right fun _ => ?_
  by_cases hlt : num < quorum
  · simp [hlt]
  · simp [hlt, pure, Except.pure]
    omega

namespace BackendIBFT

variable {order : MapOrder} {s : SnapshotStore} {set : Validators} {hooks : Hooks} {proposal : Bytes}
  {block : Block} {committedSeals : List CommittedSeal}

theorem exists_insertBlock_iff (hblock : i.unmarshalBlock proposal = .ok block)
    (hmodules : i.getModulesFromForkManager s block.header.number = .ok (signer, set, hooks))
    (hextra : signer.getIBFTExtra i.forkManager.codec block.header = .ok extra)
    (hhash : signer.calculateHeaderHash i.forkManager.crypto i.forkManager.codec block.header
      = .ok block.header.hash)
    (hne : order.iterate (committedSealsMap committedSeals) ≠ [])
    (hsize : ∀ header, signer.writeCommittedSeals i.forkManager.crypto i.forkManager.codec
      block.header (order.iterate (committedSealsMap committedSeals)) = .ok header →
      header.extraData.length < Rlp.maxLength) {quorum : Nat} :
    (∃ written, i.insertBlock order s signer proposal committedSeals = .ok written
        ∧ signer.verifyCommittedSeals i.forkManager.crypto i.forkManager.codec written.header set quorum = .ok ()) ↔
      ∃ seals num, signer.keyManager.generateCommittedSeals i.forkManager.crypto
          (order.iterate (committedSealsMap committedSeals)) extra.validators = .ok seals
        ∧ signer.keyManager.verifyCommittedSeals i.forkManager.crypto seals
          (i.forkManager.crypto.commitMessage block.header.hash.toBytes) set = .ok num
        ∧ quorum ≤ num := by
  have hpacked {seals : Seals} (hgenerate : signer.keyManager.generateCommittedSeals
      i.forkManager.crypto (order.iterate (committedSealsMap committedSeals)) extra.validators = .ok seals) :
      let header := { block.header with
        extraData := packCommittedSealsIntoExtra i.forkManager.codec block.header.extraData seals }
      signer.getIBFTExtra i.forkManager.codec header = .ok { extra with committedSeals := seals }
        ∧ signer.calculateHeaderHash i.forkManager.crypto i.forkManager.codec header = .ok block.header.hash := by
    have hlength := hsize _ ((Signer.writeCommittedSeals_eq_ok_iff hextra hne).mpr ⟨seals, hgenerate, rfl⟩)
    have hpack := Signer.getIBFTExtra_pack hextra (KeyManager.unmarshal_generated hgenerate) hlength
    exact ⟨hpack.2, (Signer.calculateHeaderHash_congr hextra hpack rfl rfl).trans hhash⟩
  constructor
  · rintro ⟨written, hinsert, hverify⟩
    obtain ⟨block', hblock', hinsert⟩ := Except.bind_eq_ok_iff.mp hinsert
    obtain rfl : block = block' := Except.ok.inj (hblock.symm.trans hblock')
    obtain ⟨header, hwrite, hinsert⟩ := Except.bind_eq_ok_iff.mp hinsert
    obtain ⟨_, _, hinsert⟩ := Except.bind_eq_ok_iff.mp hinsert
    obtain rfl := Except.ok.inj hinsert
    rw [Except.mapError_eq_ok_iff] at hwrite
    obtain ⟨seals, hgenerate, rfl⟩ := (Signer.writeCommittedSeals_eq_ok_iff hextra hne).mp hwrite
    obtain ⟨hextra', hhash'⟩ := hpacked hgenerate
    obtain ⟨num, hnum⟩ := (Signer.verifyCommittedSeals_eq_ok_iff hextra' hhash').mp hverify
    exact ⟨seals, num, hgenerate, hnum⟩
  · rintro ⟨seals, num, hgenerate, hnum⟩
    obtain ⟨hextra', hhash'⟩ := hpacked hgenerate
    refine ⟨{ block with header := _ }, ?_, (Signer.verifyCommittedSeals_eq_ok_iff hextra' hhash').mpr ⟨num, hnum⟩⟩
    refine Except.bind_eq_ok hblock ?_
    refine Except.bind_eq_ok (Except.mapError_eq_ok_iff.mpr
      ((Signer.writeCommittedSeals_eq_ok_iff hextra hne).mpr ⟨seals, hgenerate, rfl⟩)) ?_
    exact Except.bind_eq_ok (Except.mapError_eq_ok_iff.mpr
      (Except.bind_eq_ok hmodules (Except.bind_eq_ok (Except.mapError_eq_ok_iff.mpr hextra') rfl))) rfl

theorem getSigner_of_modules {height : Nat}
    (hmodules : i.getModulesFromForkManager s height = .ok (signer, set, hooks)) :
    i.forkManager.getSigner height = .ok signer := by
  obtain ⟨signer', hsigner, hmodules⟩ := Except.bind_eq_ok_iff.mp hmodules
  obtain ⟨_, _, hmodules⟩ := Except.bind_eq_ok_iff.mp hmodules
  obtain ⟨rfl, _⟩ := Prod.mk.inj (Except.ok.inj hmodules)
  exact Except.mapError_eq_ok_iff.mp hsigner

theorem isValidBlock_eq_ok {verifyPotentialBlock : Block → Except String Unit} {latestHeader : Header}
    (hvalid : i.isValidBlock verifyPotentialBlock s latestHeader signer set hooks proposal = .ok ())
    (hblock : i.unmarshalBlock proposal = .ok block) :
    block.header.number = latestHeader.number + 1
      ∧ (∃ extra, signer.getIBFTExtra i.forkManager.codec block.header = .ok extra)
      ∧ 0 < set.len := by
  simp only [isValidBlock, hblock, Except.bind_eq_ok_iff, Except.ok.injEq, exists_eq_left',
    Except.ite_throw_bind_eq_ok_iff] at hvalid
  obtain ⟨hnumber, _, hheader, _⟩ := hvalid
  obtain ⟨proposer, hrecover, hincludes⟩ := verifyHeaderImpl_proposer hheader
  obtain ⟨extra, hextra, _⟩ := Except.bind_eq_ok_iff.mp hrecover
  obtain ⟨v, hv, _⟩ := Validators.includes_iff.mp hincludes
  exact ⟨(not_not.mp hnumber).symm, ⟨extra, hextra⟩, List.length_pos_of_mem hv⟩

theorem optimalQuorumSize_pos {set : Validators} (hpos : 0 < set.len) : 0 < optimalQuorumSize set := by
  unfold optimalQuorumSize
  split <;> omega

theorem validatorType_of_getIBFTExtra (hextra : signer.getIBFTExtra i.forkManager.codec block.header = .ok extra) :
    extra.validators.validatorType = signer.keyManager.type := by
  obtain ⟨_, _, v, _, _, hdecode⟩ := Signer.getIBFTExtra_eq_ok_iff.mp hextra
  obtain ⟨_, _, _, _, _, hvalidators, _⟩ := IstanbulExtra.unmarshalRLPFrom_eq_ok_iff.mp hdecode
  obtain ⟨_, _, hvalidators⟩ := Except.bind_eq_ok_iff.mp hvalidators
  obtain ⟨vs, _, hvalidators⟩ := Except.bind_eq_ok_iff.mp hvalidators
  rw [← Except.ok.inj hvalidators]

theorem insertBlock_verifies_iff (hcrypto : i.forkManager.crypto.Aggregates) (order : MapOrder)
    (verifyPotentialBlock : Block → Except String Unit) (latestHeader : Header)
    (hmodules : i.getModulesFromForkManager s (latestHeader.number + 1) = .ok (signer, set, hooks))
    (hdistinct : (set.validators.map Validator.addr).Nodup)
    (hvalid : i.isValidBlock verifyPotentialBlock s latestHeader signer set hooks proposal = .ok ())
    (hblock : i.unmarshalBlock proposal = .ok block)
    (hseals : ∀ c ∈ committedSeals, i.isValidCommittedSeal signer set block.header.hash.toBytes c = .ok ())
    (hquorum : optimalQuorumSize set ≤ (committedSeals.map CommittedSeal.signerAddress).dedup.length)
    (hsize : ∀ header, signer.writeCommittedSeals i.forkManager.crypto i.forkManager.codec
      block.header (order.iterate (committedSealsMap committedSeals)) = .ok header →
      header.extraData.length < Rlp.maxLength) :
    (∃ written, i.insertBlock order s signer proposal committedSeals = .ok written
        ∧ signer.verifyCommittedSeals i.forkManager.crypto i.forkManager.codec written.header set
          (optimalQuorumSize set) = .ok ()) ↔
      (signer.keyManager.type = .bls → ∀ extra, signer.getIBFTExtra i.forkManager.codec block.header = .ok extra →
        PositionsAgree i.forkManager.crypto extra.validators set
          (committedSeals.map CommittedSeal.signerAddress) (optimalQuorumSize set)) := by
  obtain ⟨hnumber, ⟨extra, hextra⟩, hpos⟩ := isValidBlock_eq_ok hvalid hblock
  rw [← hnumber] at hmodules
  have hhash := calculateHeaderHash_of_unmarshalBlock hblock (getSigner_of_modules hmodules) hextra
  have hkeys := order.keys_iterate committedSeals
  set entries := order.iterate (committedSealsMap committedSeals) with hentries
  have hlength : optimalQuorumSize set ≤ entries.length := by
    rw [← List.length_map Prod.fst, hkeys.length_eq]
    exact hquorum
  have hne : entries ≠ [] := by
    have := optimalQuorumSize_pos hpos
    rw [← List.length_pos_iff]
    omega
  have hnodup : (entries.map Prod.fst).Nodup := hkeys.nodup_iff.mpr (List.nodup_dedup _)
  have hsigners (a) : a ∈ entries.map Prod.fst ↔ a ∈ committedSeals.map CommittedSeal.signerAddress := by
    rw [hkeys.mem_iff, List.mem_dedup]
  have haccept (e) (he : e ∈ entries) : signer.keyManager.verifyCommittedSeal i.forkManager.crypto set
      e.1 e.2 (i.forkManager.crypto.commitMessage block.header.hash.toBytes) = .ok () := by
    obtain ⟨c, hc, haddr, hsig⟩ := mem_committedSealsMap committedSeals ((order.perm _).mem_iff.mp he)
    rw [← haddr, ← hsig]
    exact hseals c hc
  rw [exists_insertBlock_iff hblock hmodules hextra hhash hne hsize, ← hentries,
    KeyManager.generate_verify_iff hcrypto hdistinct hne haccept hnodup hsigners
      (validatorType_of_getIBFTExtra hextra) hlength]
  simp only [hextra, Except.ok.injEq, forall_eq']

end BackendIBFT

end Proposal

theorem sum_keys_eq {signed : List (Nat × Nat)} {msg : Bytes}
    (hverify : ∀ p ∈ signed, Crypto.toy.bls.verify p.1 msg p.2 = .ok true) :
    (signed.map Prod.fst).sum = (signed.map Prod.snd).sum := by
  rw [List.map_congr_left]
  intro p hp
  have hvalid : (Except.ok (decide (p.1 = p.2)) : Except String Bool) = .ok true := hverify p hp
  exact of_decide_eq_true (Except.ok.inj hvalid)

theorem toy_aggregates : Crypto.toy.Aggregates where
  compactLength sig msg addr hrecover := by
    change (if _ then _ else _) = _ at hrecover
    split at hrecover
    · assumption
    · cases hrecover
  keysPerm := by
    intro keys keys' hperm
    exact congrArg Except.ok (@List.Perm.sum_eq Nat _ keys keys' hperm)
  aggregate := by
    intro (signed : List (Nat × Nat)) msg _ hverify
    refine ⟨(signed.map Prod.snd).sum, 1 :: Rlp.bigEndian (signed.map Prod.snd).sum,
      (signed.map Prod.snd).sum, rfl, rfl, List.cons_ne_nil _ _, ?_, ?_, ?_⟩
    · exact congrArg Except.ok (Rlp.ofBigEndian_bigEndian _)
    · exact congrArg Except.ok (sum_keys_eq hverify)
    · intro (key' : Nat)
      change Except.ok (decide (key' = _)) = _ ↔ _
      rw [Except.ok.injEq, decide_eq_true_eq]
      rfl

def blsSigner : Signer := ⟨⟨.bls, zeroAddress⟩, none⟩

def blsValidators (members : List UInt8) : Validators :=
  ⟨.bls, members.map fun n => .bls (sampleAddress n) [n]⟩

def blsGenesis : Header :=
  { parentHash := zeroHash, sha3Uncles := emptyUncleHash, miner := zeroAddress.toBytes,
    stateRoot := zeroHash, txRoot := zeroHash, receiptsRoot := zeroHash,
    logsBloom := FixedBytes.zero 256, difficulty := 0, number := 0, gasLimit := 0, gasUsed := 0,
    timestamp := 0, extraData := [], mixHash := istanbulDigest, nonce := FixedBytes.zero 8,
    hash := FixedBytes.ofBytes 32 [1] }

def blsStore : SnapshotStore :=
  SnapshotStore.empty.add ⟨0, blsGenesis.hash, [], blsValidators [1, 2, 3, 4]⟩

def proposedBlock (listed : List UInt8) : Block :=
  let header := putIbftExtra Rlp.standard
    { blsGenesis with
      difficulty := 1, number := 1, nonce := FixedBytes.zero 8 }
    ⟨blsValidators listed, Crypto.toySeal (sampleAddress 1), .aggregated none [], none⟩
  ⟨header.computeHash fun h => ((blsBackend.headerHash h).toOption).getD zeroHash, [], []⟩

def proposalBytes (listed : List UInt8) : Bytes :=
  Rlp.standard.marshal (proposedBlock listed).marshalRLPWith

def threeSeals : List CommittedSeal := [1, 2, 3].map fun n => ⟨(sampleAddress n).toBytes, [n]⟩

def MapOrder.insertion : MapOrder := ⟨id, fun m => List.Perm.refl m⟩

theorem blsBackend_modules :
    blsBackend.getModulesFromForkManager blsStore (blsGenesis.number + 1)
      = .ok (blsSigner, blsValidators [1, 2, 3, 4], blsBackend.forkManager.getHooks 1) := by
  have hvalidators : blsBackend.forkManager.getValidators blsStore 1 = .ok (blsValidators [1, 2, 3, 4]) := by
    decide +kernel
  refine Except.bind_eq_ok_iff.mpr ⟨blsSigner, rfl, ?_⟩
  exact Except.bind_eq_ok (Except.mapError_eq_ok_iff.mpr hvalidators) rfl

def ProposalAccepted (listed : List UInt8) : Prop :=
  blsBackend.unmarshalBlock (proposalBytes listed) = .ok (proposedBlock listed)
    ∧ blsBackend.isValidBlock (fun _ => .ok ()) blsStore blsGenesis blsSigner
      (blsValidators [1, 2, 3, 4]) (blsBackend.forkManager.getHooks 1) (proposalBytes listed)
        = .ok ()
    ∧ (∀ c ∈ threeSeals, blsBackend.isValidCommittedSeal blsSigner (blsValidators [1, 2, 3, 4])
      (proposedBlock listed).header.hash.toBytes c = .ok ())
    ∧ optimalQuorumSize (blsValidators [1, 2, 3, 4])
      ≤ (threeSeals.map CommittedSeal.signerAddress).dedup.length

def ProposalCommitted (listed : List UInt8) : Prop :=
  ∃ written, blsBackend.insertBlock .insertion blsStore blsSigner (proposalBytes listed) threeSeals
      = .ok written
    ∧ blsSigner.verifyCommittedSeals Crypto.toy Rlp.standard written.header
      (blsValidators [1, 2, 3, 4]) (optimalQuorumSize (blsValidators [1, 2, 3, 4])) = .ok ()

theorem insertBlock_verifies_iff_proposedBlock : ProposalCommitted [1, 2, 3, 4] := by
  obtain ⟨hblock, hvalid, hseals, hquorum⟩ : ProposalAccepted [1, 2, 3, 4] := by
    unfold ProposalAccepted
    decide +kernel
  have hdistinct : ((blsValidators [1, 2, 3, 4]).validators.map Validator.addr).Nodup := by
    decide +kernel
  have hextra : (blsSigner.getIBFTExtra Rlp.standard (proposedBlock [1, 2, 3, 4]).header).map
      IstanbulExtra.validators = .ok (blsValidators [1, 2, 3, 4]) := by
    decide +kernel
  refine (BackendIBFT.insertBlock_verifies_iff toy_aggregates .insertion (fun _ => .ok ()) blsGenesis
    blsBackend_modules hdistinct hvalid hblock hseals hquorum ?_).mpr ?_
  · intro header hwrite
    have hsmall : (blsSigner.writeCommittedSeals Crypto.toy Rlp.standard
        (proposedBlock [1, 2, 3, 4]).header (committedSealsMap threeSeals)).toOption.all
          (fun header => header.extraData.length < Rlp.maxLength) = true := by
      decide +kernel
    have hwrite' : blsSigner.writeCommittedSeals Crypto.toy Rlp.standard
        (proposedBlock [1, 2, 3, 4]).header (committedSealsMap threeSeals) = .ok header := hwrite
    rw [hwrite'] at hsmall
    exact of_decide_eq_true hsmall
  · intro _ extra hextra'
    have hlisted : extra.validators = blsValidators [1, 2, 3, 4] := by
      have hextra'' : blsSigner.getIBFTExtra Rlp.standard (proposedBlock [1, 2, 3, 4]).header
          = .ok extra := hextra'
      rw [hextra''] at hextra
      exact Except.ok.inj hextra
    rw [hlisted]
    refine ⟨by decide +kernel, by decide +kernel, ?_⟩
    rw [validatorsAt_self hdistinct]

theorem permuted_proposal_fails : ProposalAccepted [4, 3, 2, 1] ∧ ¬ ProposalCommitted [4, 3, 2, 1] := by
  constructor
  · unfold ProposalAccepted
    decide +kernel
  · rintro ⟨written, hinsert, hverify⟩
    have hfails : (blsBackend.insertBlock .insertion blsStore blsSigner (proposalBytes [4, 3, 2, 1])
        threeSeals).toOption.all (fun written => blsSigner.verifyCommittedSeals Crypto.toy Rlp.standard
          written.header (blsValidators [1, 2, 3, 4])
          (optimalQuorumSize (blsValidators [1, 2, 3, 4])) ≠ .ok ()) = true := by
      decide +kernel
    rw [hinsert] at hfails
    exact of_decide_eq_true hfails hverify

end Nxchain
