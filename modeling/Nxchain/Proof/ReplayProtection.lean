import Nxchain.Proof.SignatureValues

namespace Nxchain.TxSigner

variable {crypto : Crypto} {codec : Rlp.Codec} {chainID : Nat} {tx : Transaction} {a : Address}

theorem lowByte_eq_iff {x : Int} {p : UInt8} : lowByte x = p ↔ x % 256 = p.toNat := by
  have hbyte : asInt64 x % 256 = x % 256 := by
    have hcut := Int.bmod_emod (x := x) (m := 2 ^ 64)
    rw [asInt64]
    omega
  rw [lowByte, UInt8.ofNat_eq_iff_mod_eq_toNat]
  omega

def signatureFields (R S : Int) : Except (Fault String) Bytes := do
  let sig ← copyUpTo (List.replicate 65 0) 32 (bytes R)
  copyUpTo sig 64 (bytes S)

theorem length_copyUpTo {sig data sig' : Bytes} {hi : Nat} (h : copyUpTo sig hi data = .ok sig') :
    sig'.length = sig.length := by
  rw [copyUpTo] at h
  split at h
  · cases h
    simp only [List.length_append, List.length_take, List.length_drop]
    omega
  · cases h

theorem length_signatureFields {R S : Int} {fields : Bytes} (h : signatureFields R S = .ok fields) :
    fields.length = 65 := by
  obtain ⟨sig, hfirst, hsecond⟩ := Except.bind_eq_ok_iff.mp h
  rw [length_copyUpTo hsecond, length_copyUpTo hfirst, List.length_replicate]

theorem parity_of_valid {v : UInt8} {r s : Option Int} (hvalid : validateSignatureValues v r s) :
    v = 0 ∨ v = 1 := by
  cases r with
  | none => cases hvalid
  | some r =>
    cases s with
    | none => cases hvalid
    | some s =>
      rw [validateSignatureValues] at hvalid
      split at hvalid
      · cases hvalid
      · rename_i hle
        rw [← UInt8.toNat_inj, ← UInt8.toNat_inj, UInt8.toNat_one, UInt8.toNat_zero]
        rw [gt_iff_lt, UInt8.lt_iff_toNat_lt, UInt8.toNat_one] at hle
        omega

theorem encodeSignature_ok {R S : Int} {v : UInt8} {sig : Bytes}
    (hsig : encodeSignature (some R) (some S) v = .ok sig) :
    (v = 0 ∨ v = 1) ∧ ∃ fields, signatureFields R S = .ok fields ∧ sig = fields.dropLast ++ [v] := by
  rw [encodeSignature] at hsig
  split at hsig
  · cases hsig
  · rename_i hvalid
    refine ⟨parity_of_valid (by simpa using hvalid), ?_⟩
    obtain ⟨first, hfirst, hsig⟩ := Except.bind_eq_ok_iff.mp hsig
    obtain ⟨fields, hsecond, hlast⟩ := Except.bind_eq_ok_iff.mp hsig
    have hfields : signatureFields R S = .ok fields := Except.bind_eq_ok hfirst hsecond
    refine ⟨fields, hfields, ?_⟩
    have hlength := length_signatureFields hfields
    have hne : fields ≠ [] := List.ne_nil_of_length_pos (by omega)
    rw [← List.dropLast_append_getLast hne, setByte_last _ _ _ (by rw [List.length_dropLast, hlength])] at hlast
    exact (Except.ok.inj hlast).symm

def DistinctParities (crypto : Crypto) : Prop :=
  ∀ body msg a, crypto.recoverCompact (27 :: body) msg = .ok a → crypto.recoverCompact (28 :: body) msg ≠ .ok a

theorem recoverSender_ok {hash : Hash} {p : UInt8} (hsender : recoverSender crypto tx hash p = .ok a) :
    (p = 0 ∨ p = 1) ∧ ∃ fields, signatureFields tx.r tx.s = .ok fields
      ∧ crypto.recoverCompact ((if p = 1 then 28 else 27) :: fields.dropLast) hash.toBytes = .ok a := by
  obtain ⟨sig, hsig, hrecover⟩ := Except.bind_eq_ok_iff.mp hsender
  obtain ⟨hp, fields, hfields, rfl⟩ := encodeSignature_ok (Except.mapError_eq_ok_iff.mp hsig)
  have hrecover := Except.mapError_eq_ok_iff.mp hrecover
  rw [Crypto.ecrecover, List.getLast?_concat, List.dropLast_concat] at hrecover
  exact ⟨hp, fields, hfields, Except.mapError_eq_ok_iff.mp hrecover⟩

theorem parity_unique (hparity : DistinctParities crypto) {hash : Hash} {p p' : UInt8}
    (hsender : recoverSender crypto tx hash p = .ok a) (hsender' : recoverSender crypto tx hash p' = .ok a) :
    p = p' := by
  obtain ⟨hp, fields, hfields, hrecover⟩ := recoverSender_ok hsender
  obtain ⟨hp', fields', hfields', hrecover'⟩ := recoverSender_ok hsender'
  obtain rfl : fields = fields' := Except.ok.inj (hfields.symm.trans hfields')
  rcases hp with rfl | rfl <;> rcases hp' with rfl | rfl
  · rfl
  · exact absurd hrecover' (hparity _ _ _ hrecover)
  · exact absurd hrecover (hparity _ _ _ hrecover')
  · rfl

def Standard (chainID v : Nat) : Prop :=
  v = 27 ∨ v = 28 ∨ v = 2 * chainID + 35 ∨ v = 2 * chainID + 36

def TakenForStandard (chainID v : Nat) : Prop :=
  (v % 2 ^ 64 = 27 ∨ v % 2 ^ 64 = 28)
    ∨ ((v : Int) - chainID * 2 - 35) % 256 = 0 ∨ ((v : Int) - chainID * 2 - 35) % 256 = 1

instance (chainID v : Nat) : Decidable (Standard chainID v) := inferInstanceAs (Decidable (_ ∨ _))

instance (chainID v : Nat) : Decidable (TakenForStandard chainID v) :=
  inferInstanceAs (Decidable (_ ∨ _))

theorem eip155Sender_earlier (h : tx.v % 2 ^ 64 = 27 ∨ tx.v % 2 ^ 64 = 28) :
    eip155Sender crypto codec chainID tx = frontierSender crypto codec tx := by
  unfold eip155Sender
  rcases h with h | h <;> rw [h] <;> rfl

theorem eip155Sender_protected (hchain : chainID < 2 ^ 62)
    (h : ¬ (tx.v % 2 ^ 64 = 27 ∨ tx.v % 2 ^ 64 = 28)) :
    eip155Sender crypto codec chainID tx = recoverSender crypto tx
      (calcTxHash crypto codec tx chainID) (lowByte ((tx.v : Int) - chainID * 2 - 35)) := by
  have hid : asInt64 chainID = chainID := asInt64_eq (by omega) (by omega)
  simp only [eip155Sender, hid]
  rw [if_neg]
  split <;> simp_all

theorem eip155Sender_ok (hchain : chainID < 2 ^ 62)
    (hsender : eip155Sender crypto codec chainID tx = .ok a) :
    ∃ p : UInt8, (p = 0 ∨ p = 1)
      ∧ ((tx.v % 2 ^ 64 = 27 + p.toNat
          ∧ recoverSender crypto tx (calcTxHash crypto codec tx 0) p = .ok a)
        ∨ (¬ (tx.v % 2 ^ 64 = 27 ∨ tx.v % 2 ^ 64 = 28)
          ∧ ((tx.v : Int) - chainID * 2 - 35) % 256 = p.toNat
          ∧ recoverSender crypto tx (calcTxHash crypto codec tx chainID) p = .ok a)) := by
  by_cases hearlier : tx.v % 2 ^ 64 = 27 ∨ tx.v % 2 ^ 64 = 28
  · rw [eip155Sender_earlier hearlier, frontierSender] at hsender
    refine ⟨_, (recoverSender_ok hsender).1, Or.inl ⟨?_, hsender⟩⟩
    have hbyte := lowByte_eq_iff.mp (rfl : lowByte ((tx.v : Int) - 27) = _)
    omega
  · rw [eip155Sender_protected hchain hearlier] at hsender
    exact ⟨_, (recoverSender_ok hsender).1, Or.inr ⟨hearlier, lowByte_eq_iff.mp rfl, hsender⟩⟩

theorem takenForStandard_of_ok (hchain : chainID < 2 ^ 62)
    (hsender : eip155Sender crypto codec chainID tx = .ok a) : TakenForStandard chainID tx.v := by
  obtain ⟨p, rfl | rfl, ⟨heq, _⟩ | ⟨_, heq, _⟩⟩ := eip155Sender_ok hchain hsender
  · exact Or.inl (Or.inl heq)
  · exact Or.inr (Or.inl heq)
  · exact Or.inl (Or.inr heq)
  · exact Or.inr (Or.inr heq)

def Recoverable (crypto : Crypto) (codec : Rlp.Codec) (chainID : Nat) (tx : Transaction) : Prop :=
  ∀ p : UInt8, p = 0 ∨ p = 1 → ∀ id, id = 0 ∨ id = chainID →
    ∃ a, recoverSender crypto tx (calcTxHash crypto codec tx id) p = .ok a

theorem ok_of_takenForStandard (hchain : chainID < 2 ^ 62)
    (hrecoverable : Recoverable crypto codec chainID tx) (h : TakenForStandard chainID tx.v) :
    ∃ a, eip155Sender crypto codec chainID tx = .ok a := by
  by_cases hearlier : tx.v % 2 ^ 64 = 27 ∨ tx.v % 2 ^ 64 = 28
  · rw [eip155Sender_earlier hearlier, frontierSender]
    refine hrecoverable _ ?_ 0 (Or.inl rfl)
    rw [lowByte_eq_iff, lowByte_eq_iff, UInt8.toNat_zero, UInt8.toNat_one]
    omega
  · rw [eip155Sender_protected hchain hearlier]
    refine hrecoverable _ ?_ chainID (Or.inr rfl)
    rw [lowByte_eq_iff, lowByte_eq_iff]
    exact h.resolve_left hearlier

theorem replay_protection_is_exact_iff (crypto : Crypto) (codec : Rlp.Codec)
    (hchain : chainID < 2 ^ 62) :
    (∀ tx, Standard chainID tx.v ∨ ¬ TakenForStandard chainID tx.v →
        ∀ a, eip155Sender crypto codec chainID tx = .ok a → Standard chainID tx.v)
      ∧ (∀ tx, Recoverable crypto codec chainID tx →
        (∀ a, eip155Sender crypto codec chainID tx = .ok a → Standard chainID tx.v) →
        Standard chainID tx.v ∨ ¬ TakenForStandard chainID tx.v)
      ∧ (DistinctParities crypto → ∀ (tx : Transaction) v v' a,
        (Standard chainID v ∨ ¬ TakenForStandard chainID v) →
        (Standard chainID v' ∨ ¬ TakenForStandard chainID v') →
        (v = 27 ∨ v = 28 ↔ v' = 27 ∨ v' = 28) →
        eip155Sender crypto codec chainID { tx with v := v } = .ok a →
        eip155Sender crypto codec chainID { tx with v := v' } = .ok a → v = v') := by
  refine ⟨fun tx hv a hsender => ?_, fun tx hrecoverable honly => ?_, ?_⟩
  · exact hv.resolve_right (not_not_intro (takenForStandard_of_ok hchain hsender))
  · by_cases htaken : TakenForStandard chainID tx.v
    · obtain ⟨a, hsender⟩ := ok_of_takenForStandard hchain hrecoverable htaken
      exact Or.inl (honly a hsender)
    · exact Or.inr htaken
  · intro hparity tx v v' a hv hv' hform hsender hsender'
    replace hv : Standard chainID v :=
      hv.resolve_right (not_not_intro (takenForStandard_of_ok hchain hsender))
    replace hv' : Standard chainID v' :=
      hv'.resolve_right (not_not_intro (takenForStandard_of_ok hchain hsender'))
    obtain ⟨p, hp, hcase⟩ := eip155Sender_ok hchain hsender
    obtain ⟨p', hp', hcase'⟩ := eip155Sender_ok hchain hsender'
    dsimp only at hcase hcase'
    have hle : p.toNat ≤ 1 := by rcases hp with rfl | rfl <;> decide
    have hle' : p'.toNat ≤ 1 := by rcases hp' with rfl | rfl <;> decide
    unfold Standard at hv hv'
    -- the hash that was signed does not depend on `V`, and the form says which one it is
    rcases hcase with ⟨heq, hrecover⟩ | ⟨hlater, heq, hrecover⟩ <;>
      rcases hcase' with ⟨heq', hrecover'⟩ | ⟨hlater', heq', hrecover'⟩
    · have hsame : recoverSender crypto { tx with v := v }
          (calcTxHash crypto codec { tx with v := v } 0) p' = .ok a := hrecover'
      obtain rfl : p = p' := parity_unique hparity hrecover hsame
      omega
    · omega
    · omega
    · have hsame : recoverSender crypto { tx with v := v }
          (calcTxHash crypto codec { tx with v := v } chainID) p' = .ok a := hrecover'
      obtain rfl : p = p' := parity_unique hparity hrecover hsame
      omega

def parityCrypto : Crypto := { Crypto.toy with recoverCompact := fun sig _ => .ok (sampleAddress (sig.headD 0)) }

theorem distinctParities_parityCrypto : DistinctParities parityCrypto := by
  rintro body msg a hfirst hsecond
  have heq : sampleAddress 27 = sampleAddress 28 := Except.ok.inj (hfirst.trans hsecond.symm)
  exact absurd heq (by decide)

def signedTransfer (v : Nat) : Transaction :=
  ⟨0, 0, 21000, some (sampleAddress 2), 1, [], v, 1, 1, zeroHash, zeroAddress⟩

theorem sender_signedTransfer (v : Nat) (hv : v = 235 ∨ v = 491 ∨ v = 27 ∨ v = 2 ^ 64 + 27) :
    eip155Sender parityCrypto Rlp.standard 100 (signedTransfer v) = .ok (sampleAddress 27) := by
  rcases hv with rfl | rfl | rfl | rfl <;> decide +kernel

theorem recoverable_signedTransfer (v : Nat) :
    Recoverable parityCrypto Rlp.standard 100 (signedTransfer v) := by
  rintro p (rfl | rfl) id _ <;> exact ⟨_, rfl⟩

theorem replay_protection_is_exact_iff_chain_100 :
    eip155Sender parityCrypto Rlp.standard 100 (signedTransfer 235) = .ok (sampleAddress 27)
      ∧ (∀ v, Standard 100 v → (235 = 27 ∨ 235 = 28 ↔ v = 27 ∨ v = 28) →
        eip155Sender parityCrypto Rlp.standard 100 (signedTransfer v) = .ok (sampleAddress 27) → 235 = v)
      ∧ ¬ (∀ a, eip155Sender parityCrypto Rlp.standard 100 (signedTransfer 491) = .ok a →
        Standard 100 491) := by
  have hsender := sender_signedTransfer 235 (Or.inl rfl)
  have hexact := replay_protection_is_exact_iff parityCrypto Rlp.standard (show 100 < 2 ^ 62 by decide)
  refine ⟨hsender, fun v hv hform hother => ?_, fun honly => ?_⟩
  · exact hexact.2.2 distinctParities_parityCrypto (signedTransfer 235) 235 v _
      (Or.inl (by decide)) (Or.inl hv) hform hsender hother
  · exact absurd (hexact.2.1 (signedTransfer 491) (recoverable_signedTransfer 491) honly) (by decide)

theorem other_values_recover_the_sender :
    eip155Sender parityCrypto Rlp.standard 100 (signedTransfer 235) = .ok (sampleAddress 27)
      ∧ eip155Sender parityCrypto Rlp.standard 100 (signedTransfer 491) = .ok (sampleAddress 27)
      ∧ eip155Sender parityCrypto Rlp.standard 100 (signedTransfer 27) = .ok (sampleAddress 27)
      ∧ eip155Sender parityCrypto Rlp.standard 100 (signedTransfer (2 ^ 64 + 27)) = .ok (sampleAddress 27) :=
  ⟨sender_signedTransfer _ (by decide), sender_signedTransfer _ (by decide),
    sender_signedTransfer _ (by decide), sender_signedTransfer _ (by decide)⟩

end Nxchain.TxSigner
