import Nxchain.Proof.Ballots

namespace Nxchain

namespace Tally

variable (t : Tally) (v : Vote)

def TakesEffect : Prop :=
  (∃ t', t.cast v = .ok t') ∧ (t.pendingCount v = 0 ∨ t.Majority v)

theorem count_eq_self_iff : t.count v = t ↔ ¬ t.TakesEffect v := by
  unfold count TakesEffect
  cases hcast : t.cast v with
  | error e => simp
  | ok t' =>
    simp only [Except.ok.injEq, exists_eq', true_and, not_or]
    rcases cast_ok_cases hcast with ⟨hmajority, set, hdecide, rfl⟩ | ⟨hmajority, rfl⟩
    · have hlen := addsOrDelsCandidate_len_ne hdecide
      constructor
      · intro heq
        exact absurd (congrArg (fun t : Tally => t.set.len) heq) hlen
      · intro hnot
        exact absurd hmajority hnot.2
    · simp only [hmajority, not_false_eq_true, and_true]
      unfold withVote
      split
      · rename_i hpending
        constructor
        · intro heq
          have hlen := congrArg (fun t : Tally => t.votes.length) heq
          simp at hlen
        · intro hnot
          exact absurd hpending hnot
      · rename_i hpending
        simp [hpending]

theorem getD_count_eq_self_iff {ballot : Option Vote} :
    (ballot.map t.count).getD t = t ↔ ∀ v, ballot = some v → ¬ t.TakesEffect v := by
  cases ballot with
  | none => simp
  | some v => simp [count_eq_self_iff]

end Tally

namespace SnapshotConfig

variable {config : SnapshotConfig} {t : Tally} {header header' : Header}

theorem ballot_epoch (hepoch : header.number % config.epochSize = 0) : config.ballot t header = none := by
  unfold ballot
  cases config.signerAt header.number with
  | error e => rfl
  | ok signer =>
    dsimp only
    cases signer.ecrecoverFromHeader header <;> cases isAuthorize header.nonce <;>
      cases minerToValidator config.codec signer.type header.miner <;> simp [hepoch]

theorem isAuthorize_of_verifyHeader (hverify : verifyHeader header = .ok ()) :
    ∃ authorize, isAuthorize header.nonce = .ok authorize
      ∧ header.nonce = if authorize then nonceAuthVote else nonceDropVote := by
  unfold verifyHeader at hverify
  unfold isAuthorize
  by_cases hauth : header.nonce = nonceAuthVote
  · exact ⟨true, by simp [hauth], hauth⟩
  · by_cases hdrop : header.nonce = nonceDropVote
    · refine ⟨false, ?_, hdrop⟩
      rw [if_neg hauth, if_pos hdrop]
    · simp [hauth, hdrop] at hverify

variable (hnumber : header'.number = header.number) (hminer : header'.miner = header.miner)
  (hrecover : ∀ signer, config.signerAt header.number = .ok signer →
    signer.ecrecoverFromHeader header' = signer.ecrecoverFromHeader header)

include hnumber hminer hrecover

theorem step_congr (hnonce : header.number % config.epochSize = 0 ∨ header'.nonce = header.nonce) :
    config.step t header' = config.step t header := by
  unfold step
  rw [hnumber]
  cases hsigner : config.signerAt header.number with
  | error e => rfl
  | ok signer =>
    simp only [bind, Except.bind, hrecover signer hsigner]
    rcases hnonce with hepoch | hnonce
    · simp only [hepoch, if_true]
    · unfold processVote
      rw [hnonce, hminer]

theorem ballot_eq_none_or (hnonce : header'.nonce ≠ header.nonce) (hverify : verifyHeader header = .ok ())
    (hverify' : verifyHeader header' = .ok ()) :
    config.ballot t header' = none ∨ config.ballot t header = none := by
  obtain ⟨authorize, hauthorize, heq⟩ := isAuthorize_of_verifyHeader hverify
  obtain ⟨authorize', hauthorize', heq'⟩ := isAuthorize_of_verifyHeader hverify'
  unfold ballot
  rw [hnumber]
  cases hsigner : config.signerAt header.number with
  | error e => exact .inl rfl
  | ok signer =>
    simp only [hrecover signer hsigner, hminer, hauthorize']
    cases signer.ecrecoverFromHeader header with
    | error e => exact .inl rfl
    | ok proposer =>
      cases minerToValidator config.codec signer.type header.miner with
      | error e => exact .inl rfl
      | ok candidate =>
        by_cases hincluded : t.set.includes candidate.addr = true
        · cases authorize <;> cases authorize' <;> simp_all [shouldProcessVote]
        · cases authorize <;> cases authorize' <;> simp_all [shouldProcessVote]

theorem advance_eq_iff (hverify : verifyHeader header = .ok ()) (hverify' : verifyHeader header' = .ok ()) :
    config.advance t header' = config.advance t header
      ↔ header'.nonce = header.nonce ∨ ∀ v,
        config.ballot t header' = some v ∨ config.ballot t header = some v → ¬ t.TakesEffect v := by
  by_cases hnonce : header'.nonce = header.nonce
  · simp only [hnonce, true_or, iff_true]
    unfold advance
    rw [step_congr hnumber hminer hrecover (.inr hnonce)]
  · simp only [hnonce, false_or]
    by_cases hepoch : header.number % config.epochSize = 0
    · have hepoch' : header'.number % config.epochSize = 0 := hnumber ▸ hepoch
      simp only [ballot_epoch hepoch, ballot_epoch hepoch', reduceCtorEq, or_self,
        IsEmpty.forall_iff, implies_true, iff_true]
      unfold advance
      rw [step_congr hnumber hminer hrecover (.inl hepoch)]
    · rw [config.advance_eq_count t header hepoch, config.advance_eq_count t header' (hnumber ▸ hepoch)]
      rcases ballot_eq_none_or (t := t) hnumber hminer hrecover hnonce hverify hverify' with
        hnone | hnone
      · simp only [hnone, Option.map_none, Option.getD_none, reduceCtorEq, false_or]
        rw [eq_comm, t.getD_count_eq_self_iff]
      · simp only [hnone, Option.map_none, Option.getD_none, reduceCtorEq, or_false]
        rw [t.getD_count_eq_self_iff]

end SnapshotConfig

namespace ForkManager

variable (m : ForkManager)

def tallyAfter (s : SnapshotStore) (header : Header) (n : Nat) : Option Tally :=
  ((m.snapshotConfig.applyHeader s header).find n).map Snapshot.tally

variable {m}

theorem tallyAfter_eq {s : SnapshotStore} {n : Nat} {last : Snapshot} {header : Header} (hsound : s.Sound n last)
    (hnumber : header.number = n + 1) :
    m.tallyAfter s header (n + 1) = some (m.snapshotConfig.advance last.tally header) := by
  have hcov : s.Covers n n (fun _ => last.tally) := .of_last hsound rfl
  have hcov' := SnapshotConfig.applyHeader_covers m.snapshotConfig hcov le_rfl hnumber
  have hbegin : m.snapshotConfig.beginAfter n header ≤ n + 1 := by
    unfold SnapshotConfig.beginAfter
    split <;> omega
  rw [tallyAfter, hcov'.find (n + 1) hbegin le_rfl, Function.update_self]

theorem signerAt_eq {n : Nat} {signer : Signer} (hsigner : m.getSigner n = .ok signer) :
    m.snapshotConfig.signerAt n = .ok (m.signerInterface signer) := by
  simp [SnapshotConfig.signerAt, snapshotConfig, hsigner, Except.map, Except.mapError, bind,
    Except.bind, pure, Except.pure]

theorem filterHeaderForHash_miner {codec : Rlp.Codec} {signer : Signer} {header filtered : Header}
    (hfilter : signer.filterHeaderForHash codec header = .ok filtered) : filtered.miner = header.miner := by
  obtain ⟨extra, _, hfilter⟩ := Except.bind_eq_ok_iff.mp hfilter
  obtain ⟨seals, _, hfilter⟩ := Except.bind_eq_ok_iff.mp hfilter
  rw [← Except.ok.inj hfilter]
  rfl

theorem ecrecoverFromHeader_congr {crypto : Crypto} {codec : Rlp.Codec} {signer : Signer} {header header' : Header}
    {extra extra' : IstanbulExtra} (hextra : signer.getIBFTExtra codec header = .ok extra)
    (hextra' : signer.getIBFTExtra codec header' = .ok extra') (hseal : extra'.proposerSeal = extra.proposerSeal)
    (hhash : header'.hash = header.hash) :
    signer.ecrecoverFromHeader crypto codec header'
      = signer.ecrecoverFromHeader crypto codec header := by
  simp only [Signer.ecrecoverFromHeader, hextra, hextra', bind, Except.bind, hseal, hhash]

theorem same_hash_same_tally_iff (m : ForkManager) (s : SnapshotStore) (n : Nat) (last : Snapshot)
    (signer : Signer) (header header' : Header) (hash : Hash) (extra extra' : IstanbulExtra)
    (hsound : s.Sound n last) (hsigner : m.getSigner (n + 1) = .ok signer)
    (hnumber : header.number = n + 1) (hnumber' : header'.number = n + 1)
    (hhash : signer.calculateHeaderHash m.crypto m.codec header = .ok hash)
    (hhash' : signer.calculateHeaderHash m.crypto m.codec header' = .ok hash)
    (hfield : header.hash = hash) (hfield' : header'.hash = hash)
    (hinjective : ∀ filtered filtered', signer.filterHeaderForHash m.codec header = .ok filtered →
      signer.filterHeaderForHash m.codec header' = .ok filtered' →
      calculateHeaderHash m.crypto m.codec filtered = calculateHeaderHash m.crypto m.codec filtered' →
      headerFields filtered = headerFields filtered')
    (hextra : signer.getIBFTExtra m.codec header = .ok extra)
    (hextra' : signer.getIBFTExtra m.codec header' = .ok extra')
    (hseal : extra'.proposerSeal = extra.proposerSeal)
    (hverify : SnapshotConfig.verifyHeader header = .ok ())
    (hverify' : SnapshotConfig.verifyHeader header' = .ok ()) :
    m.tallyAfter s header' (n + 1) = m.tallyAfter s header (n + 1)
      ↔ header'.nonce = header.nonce ∨ ∀ v,
        m.snapshotConfig.ballot last.tally header' = some v
          ∨ m.snapshotConfig.ballot last.tally header = some v →
        ¬ last.tally.TakesEffect v := by
  have hminer : header'.miner = header.miner := by
    obtain ⟨filtered, hfilter, heq⟩ := Except.bind_eq_ok_iff.mp hhash
    obtain ⟨filtered', hfilter', heq'⟩ := Except.bind_eq_ok_iff.mp hhash'
    have hfields := hinjective filtered filtered' hfilter hfilter'
      ((Except.ok.inj heq).trans (Except.ok.inj heq').symm)
    simp only [headerFields, Rlp.Value.list.injEq, List.cons.injEq, Rlp.Value.bytes.injEq] at hfields
    rw [← filterHeaderForHash_miner hfilter, ← filterHeaderForHash_miner hfilter']
    exact hfields.2.2.1.symm
  have hrecover : ∀ interface, m.snapshotConfig.signerAt header.number = .ok interface →
      interface.ecrecoverFromHeader header' = interface.ecrecoverFromHeader header := by
    intro interface hinterface
    rw [hnumber, signerAt_eq hsigner] at hinterface
    obtain rfl := Except.ok.inj hinterface
    exact ecrecoverFromHeader_congr hextra hextra' hseal (hfield'.trans hfield.symm)
  rw [tallyAfter_eq hsound hnumber, tallyAfter_eq hsound hnumber', Option.some.injEq]
  exact SnapshotConfig.advance_eq_iff (hnumber'.trans hnumber.symm) hminer hrecover hverify hverify'

end ForkManager

def voterBackend : BackendIBFT := toyBackend [⟨.poA, .ecdsa, 0, none, none⟩] 10 toyEpochSize_pos

def voterSigner : Signer := ⟨⟨.ecdsa, zeroAddress⟩, none⟩

def hashedHeader (header : Header) : Header :=
  voterSigner.initIbftExtra Rlp.standard header ⟨.ecdsa, [.ecdsa (sampleAddress 1)]⟩ none

def voteHeader (nonce : Nonce) : Header :=
  let header := { sealedHeader 1 1 [1] with miner := (sampleAddress 2).toBytes, nonce := nonce }
  { header with hash := calculateHeaderHash .toy Rlp.standard (hashedHeader header) }

def voteExtra : IstanbulExtra :=
  ⟨⟨.ecdsa, [.ecdsa (sampleAddress 1)]⟩, Crypto.toySeal (sampleAddress 1), .serialized [], none⟩

theorem genesisStore_sound : genesisStore.Sound 0
    ⟨0, FixedBytes.ofBytes 32 [1], [], ⟨.ecdsa, [.ecdsa (sampleAddress 1)]⟩⟩ :=
  SnapshotConfig.add_empty_sound _

theorem headerFields_voteHeader (nonce nonce' : Nonce) :
    headerFields (hashedHeader (voteHeader nonce))
      = headerFields (hashedHeader (voteHeader nonce')) := by
  simp only [headerFields, hashedHeader, Signer.initIbftExtra, putIbftExtra, voteHeader]

theorem voteHeader_accepted : ∀ nonce ∈ [nonceAuthVote, nonceDropVote],
    voterSigner.filterHeaderForHash Rlp.standard (voteHeader nonce)
        = .ok (hashedHeader (voteHeader nonce))
      ∧ voterSigner.calculateHeaderHash .toy Rlp.standard (voteHeader nonce)
        = .ok (voteHeader nonce).hash
      ∧ voterSigner.getIBFTExtra Rlp.standard (voteHeader nonce) = .ok voteExtra
      ∧ SnapshotConfig.verifyHeader (voteHeader nonce) = .ok () := by
  rw [List.forall_mem_cons]
  exact ⟨by decide +kernel, by decide +kernel⟩

theorem same_hash_same_tally_iff_voteHeader :
    voterBackend.forkManager.tallyAfter genesisStore (voteHeader nonceAuthVote) 1
        = voterBackend.forkManager.tallyAfter genesisStore (voteHeader nonceDropVote) 1
      ↔ (voteHeader nonceAuthVote).nonce = (voteHeader nonceDropVote).nonce ∨ ∀ v,
        voterBackend.forkManager.snapshotConfig.ballot ⟨⟨.ecdsa, [.ecdsa (sampleAddress 1)]⟩, []⟩
            (voteHeader nonceAuthVote) = some v
          ∨ voterBackend.forkManager.snapshotConfig.ballot
            ⟨⟨.ecdsa, [.ecdsa (sampleAddress 1)]⟩, []⟩ (voteHeader nonceDropVote) = some v →
        ¬ Tally.TakesEffect ⟨⟨.ecdsa, [.ecdsa (sampleAddress 1)]⟩, []⟩ v := by
  obtain ⟨hfilter, hhash, hextra, hverify⟩ := voteHeader_accepted nonceDropVote (by simp)
  obtain ⟨hfilter', hhash', hextra', hverify'⟩ := voteHeader_accepted nonceAuthVote (by simp)
  have hsame : (voteHeader nonceAuthVote).hash = (voteHeader nonceDropVote).hash := by
    decide +kernel
  have hnumber (nonce : Nonce) : (voteHeader nonce).number = 0 + 1 := rfl
  refine voterBackend.forkManager.same_hash_same_tally_iff genesisStore 0
    ⟨0, FixedBytes.ofBytes 32 [1], [], ⟨.ecdsa, [.ecdsa (sampleAddress 1)]⟩⟩ voterSigner
    (voteHeader nonceDropVote) (voteHeader nonceAuthVote) (voteHeader nonceDropVote).hash voteExtra
    voteExtra genesisStore_sound rfl (hnumber _) (hnumber _) hhash
    (hhash'.trans (congrArg Except.ok hsame)) (Eq.refl _) hsame ?_ hextra hextra' (Eq.refl _) hverify hverify'
  intro filtered filtered' heq heq' _
  rw [← Except.ok.inj (hfilter.symm.trans heq), ← Except.ok.inj (hfilter'.symm.trans heq')]
  exact headerFields_voteHeader nonceDropVote nonceAuthVote

theorem voteHeader_opposite_votes :
    voterBackend.forkManager.getSigner 1 = .ok voterSigner
      ∧ (∀ nonce ∈ [nonceAuthVote, nonceDropVote], voterSigner.filterHeaderForHash Rlp.standard (voteHeader nonce)
            = .ok (hashedHeader (voteHeader nonce))
          ∧ voterSigner.calculateHeaderHash .toy Rlp.standard (voteHeader nonce) = .ok (voteHeader nonce).hash
          ∧ voterSigner.getIBFTExtra Rlp.standard (voteHeader nonce) = .ok voteExtra
          ∧ SnapshotConfig.verifyHeader (voteHeader nonce) = .ok ())
      ∧ headerFields (hashedHeader (voteHeader nonceAuthVote))
        = headerFields (hashedHeader (voteHeader nonceDropVote))
      ∧ (voteHeader nonceAuthVote).hash = (voteHeader nonceDropVote).hash
      ∧ voterBackend.forkManager.tallyAfter genesisStore (voteHeader nonceAuthVote) 1
        = some ⟨⟨.ecdsa, [.ecdsa (sampleAddress 1), .ecdsa (sampleAddress 2)]⟩, []⟩
      ∧ voterBackend.forkManager.tallyAfter genesisStore (voteHeader nonceDropVote) 1
        = some ⟨⟨.ecdsa, [.ecdsa (sampleAddress 1)]⟩, []⟩ := by
  refine ⟨rfl, voteHeader_accepted, headerFields_voteHeader _ _, ?_, ?_, ?_⟩
  · decide +kernel
  · decide +kernel
  · decide +kernel

end Nxchain
