import Nxchain.Proof.VoteCommitment

namespace Nxchain

namespace Tally

structure Consistent (t : Tally) : Prop where
  voter_mem : ∀ v ∈ t.votes, t.set.includes v.validator = true
  authorize_eq : ∀ v ∈ t.votes, v.authorize = !t.set.includes v.candidate.addr
  unique : t.votes.Pairwise fun v w =>
    ¬ (v.validator = w.validator ∧ v.candidate.addr = w.candidate.addr)

def SingleKey (t : Tally) (v : Vote) : Prop :=
  ∀ w ∈ t.votes, w.candidate.addr = v.candidate.addr → w.validator = v.validator ∨ t.Majority v →
    w.candidate = v.candidate

def MajorityCast (set : Validators) (log : List Vote) (addr : Address) (authorize : Bool) : Prop :=
  ∃ voters : List Address, voters.Nodup ∧ set.len < 2 * voters.length
    ∧ ∀ voter ∈ voters, set.includes voter = true
      ∧ ∃ v ∈ log, v.validator = voter ∧ v.candidate.addr = addr ∧ v.authorize = authorize

variable {t : Tally} {v : Vote}

theorem mem_withVote {w : Vote} (hmem : w ∈ t.withVote v) : w ∈ t.votes ∨ t.pendingCount v = 0 ∧ w = v := by
  unfold withVote at hmem
  split at hmem
  · rename_i hpending
    rw [List.mem_append, List.mem_singleton] at hmem
    exact hmem.imp_right fun heq => ⟨hpending, heq⟩
  · exact .inl hmem

theorem mem_votes_count {w : Vote} (hmem : w ∈ (t.count v).votes) : w ∈ t.votes ∨ w = v := by
  rcases t.count_cases v with heq | ⟨_, set, _, heq⟩ | ⟨_, heq⟩
  · rw [heq] at hmem
    exact .inl hmem
  · rw [heq] at hmem
    exact (mem_withVote (List.mem_of_mem_filter hmem)).imp_right And.right
  · rw [heq] at hmem
    exact (mem_withVote hmem).imp_right And.right

variable (hvoter : t.set.includes v.validator = true)
  (hauthorize : v.authorize = !t.set.includes v.candidate.addr)

include hvoter hauthorize

variable (hcons : t.Consistent) (hsingle : t.SingleKey v)

include hcons hsingle

theorem Consistent.withVote : (Tally.mk t.set (t.withVote v)).Consistent := by
  refine ⟨?_, ?_, ?_⟩
  · intro w hw
    rcases mem_withVote hw with hw | ⟨_, rfl⟩
    · exact hcons.voter_mem w hw
    · exact hvoter
  · intro w hw
    rcases mem_withVote hw with hw | ⟨_, rfl⟩
    · exact hcons.authorize_eq w hw
    · exact hauthorize
  · unfold Tally.withVote
    split
    · rename_i hpending
      rw [List.pairwise_append]
      refine ⟨hcons.unique, List.pairwise_singleton _ _, ?_⟩
      intro w hw v' hv'
      rw [List.mem_singleton] at hv'
      subst hv'
      rintro ⟨hsame, haddr⟩
      rw [pendingCount, List.countP_eq_zero] at hpending
      have hcandidate := hsingle w hw haddr (.inl hsame)
      exact hpending w hw (by simp [hsame, hcandidate])
    · exact hcons.unique

theorem Consistent.decided (hmajority : t.Majority v) {set : Validators}
    (hdecide : addsOrDelsCandidate t.set v.candidate v.authorize = .ok set) : (t.decided v set).Consistent := by
  have hwith := hcons.withVote hvoter hauthorize hsingle
  have hsplit {w : Vote} (hw : w ∈ (t.decided v set).votes) :
      w ∈ t.withVote v ∧ (v.authorize = true ∨ w.validator ≠ v.candidate.addr) ∧ w.candidate ≠ v.candidate := by
    simp only [Tally.decided, List.mem_filter, Bool.and_eq_true, Bool.or_eq_true,
      Bool.not_eq_true', decide_eq_false_iff_not] at hw
    refine ⟨hw.1, hw.2.1, ?_⟩
    intro heq
    rw [Validator.equal_iff.mpr heq] at hw
    exact Bool.noConfusion hw.2.2
  have haddr {w : Vote} (hw : w ∈ (t.decided v set).votes) : w.candidate.addr ≠ v.candidate.addr := by
    obtain ⟨hmem, _, hne⟩ := hsplit hw
    intro heq
    rcases mem_withVote hmem with hmem | ⟨_, rfl⟩
    · exact hne (hsingle w hmem heq (.inr hmajority))
    · exact hne rfl
  refine ⟨?_, ?_, hwith.unique.filter _⟩
  · intro w hw
    obtain ⟨hmem, hkept, _⟩ := hsplit hw
    have hincluded : t.set.includes w.validator = true := hwith.voter_mem w hmem
    by_cases heq : w.validator = v.candidate.addr
    · have htrue : v.authorize = true := hkept.resolve_right fun hne => hne heq
      rw [htrue] at hdecide
      rw [heq]
      exact addsOrDelsCandidate_added hdecide
    · exact (addsOrDelsCandidate_includes hdecide heq).trans hincluded
  · intro w hw
    rw [hwith.authorize_eq w (hsplit hw).1]
    exact congrArg _ (addsOrDelsCandidate_includes hdecide (haddr hw)).symm

theorem Consistent.count : (t.count v).Consistent := by
  rcases t.count_cases v with heq | ⟨hmajority, set, hdecide, heq⟩ | ⟨_, heq⟩
  · rw [heq]
    exact hcons
  · rw [heq]
    exact hcons.decided hvoter hauthorize hsingle hmajority hdecide
  · rw [heq]
    exact hcons.withVote hvoter hauthorize hsingle

theorem Consistent.majorityCast {addr : Address} (hchange : (t.count v).set.includes addr ≠ t.set.includes addr)
    {log : List Vote} (hlog : ∀ w ∈ t.withVote v, w ∈ log) :
    MajorityCast t.set log addr (!t.set.includes addr) := by
  have hwith := hcons.withVote hvoter hauthorize hsingle
  rcases t.count_cases v with heq | ⟨hmajority, set, hdecide, heq⟩ | ⟨_, heq⟩
  · rw [heq] at hchange
    exact absurd rfl hchange
  · rw [heq] at hchange
    have haddr : addr = v.candidate.addr := by
      by_contra hne
      exact hchange (addsOrDelsCandidate_includes hdecide hne)
    have hcandidate {w : Vote} (hw : w ∈ t.supporters v) : w.candidate = v.candidate := by
      simpa [supporters] using (List.mem_filter.mp hw).2
    refine ⟨(t.supporters v).map (·.validator), ?_, ?_, ?_⟩
    · rw [List.Nodup, List.pairwise_map]
      apply (hwith.unique.filter _).imp_of_mem
      intro w w' hw hw' hne hsame
      refine hne ⟨hsame, ?_⟩
      rw [hcandidate hw, hcandidate hw']
    · rw [List.length_map]
      unfold Majority at hmajority
      omega
    · intro voter hmem
      obtain ⟨w, hw, rfl⟩ := List.mem_map.mp hmem
      have hw' : w ∈ t.withVote v := List.mem_of_mem_filter hw
      refine ⟨hwith.voter_mem w hw', w, hlog w hw', rfl, ?_, ?_⟩
      · rw [hcandidate hw, haddr]
      · rw [hwith.authorize_eq w hw', hcandidate hw, haddr]
  · rw [heq] at hchange
    exact absurd rfl hchange

end Tally

namespace SnapshotConfig

variable (config : SnapshotConfig)

def run (t : Tally) (headers : List Header) : Tally := headers.foldl config.advance t

def ballots (t : Tally) : List Header → List Vote
  | [] => []
  | header :: rest =>
    (config.ballot t header).toList ++ ballots (config.advance t header) rest

theorem run_append (t : Tally) (headers : List Header) (header : Header) :
    config.run t (headers ++ [header]) = config.advance (config.run t headers) header := by
  simp [run]

theorem ballots_append (t : Tally) (headers : List Header) (header : Header) :
    config.ballots t (headers ++ [header])
      = config.ballots t headers ++ (config.ballot (config.run t headers) header).toList := by
  induction headers generalizing t with
  | nil => simp [ballots, run]
  | cons first rest ih =>
    simp only [List.cons_append, ballots, ih, List.append_assoc]
    rfl

variable {config} {t : Tally} {header : Header} {v : Vote}

theorem ballot_eq_some (hballot : config.ballot t header = some v) :
    t.set.includes v.validator = true ∧ v.authorize = !t.set.includes v.candidate.addr
      ∧ ∃ signer, config.signerAt header.number = .ok signer
        ∧ minerToValidator config.codec signer.type header.miner = .ok v.candidate := by
  unfold ballot at hballot
  split at hballot
  · cases hballot
  · split at hballot
    · rename_i proposer authorize candidate _ _ hcandidate
      split at hballot
      · rename_i hcounted
        cases hballot
        have hshould := hcounted.2.2.2
        unfold shouldProcessVote at hshould
        cases authorize <;> cases hset : t.set.includes candidate.addr <;> simp_all
      · cases hballot
    · cases hballot

theorem unmarshalRLPFrom_type {type : ValidatorType} {value : Rlp.Value} {candidate : Validator}
    (hdecode : Validator.unmarshalRLPFrom type value = .ok candidate) : candidate.type = type := by
  cases type with
  | ecdsa =>
    obtain ⟨address, _, rfl⟩ := Except.map_eq_ok_iff.mp hdecode
    rfl
  | bls =>
    obtain ⟨elems, _, hdecode⟩ := Except.bind_eq_ok_iff.mp hdecode
    split at hdecode
    · obtain ⟨address, _, hdecode⟩ := Except.bind_eq_ok_iff.mp hdecode
      obtain ⟨key, _, hdecode⟩ := Except.bind_eq_ok_iff.mp hdecode
      rw [← Except.ok.inj hdecode]
      rfl
    · cases hdecode

theorem minerToValidator_type {codec : Rlp.Codec} {type : ValidatorType} {miner : Bytes} {candidate : Validator}
    (hcandidate : minerToValidator codec type miner = .ok candidate) : candidate.type = type := by
  cases type with
  | ecdsa =>
    cases hcandidate
    rfl
  | bls =>
    rw [minerToValidator, Validator.setFromBytes] at hcandidate
    split at hcandidate
    · cases hcandidate
    · exact unmarshalRLPFrom_type hcandidate

structure Session (config : SnapshotConfig) (n : Nat) (type : ValidatorType) (headers : List Header) :
    Prop where
  number : ∀ done header, done ++ [header] <+: headers → header.number = n + done.length + 1
  epoch : ∀ header ∈ headers, header.number % config.epochSize ≠ 0
  type_eq : ∀ header ∈ headers, ∀ signer, config.signerAt header.number = .ok signer →
    signer.type = type

namespace Session

variable {n : Nat} {type : ValidatorType} {headers done : List Header}

section

variable (hsession : config.Session n type headers)

include hsession

theorem mono (hle : done <+: headers) :
    config.Session n type done where
  number done' header hle' := hsession.number done' header (hle'.trans hle)
  epoch header hmem := hsession.epoch header (hle.subset hmem)
  type_eq header hmem := hsession.type_eq header (hle.subset hmem)

theorem mem_ballots (hvotes : t.votes = []) : ∀ w ∈ (config.run t headers).votes, w ∈ config.ballots t headers := by
  induction headers using List.reverseRecOn with
  | nil =>
    intro w hw
    rw [run, List.foldl_nil, hvotes] at hw
    exact absurd hw List.not_mem_nil
  | append_singleton headers header ih =>
    intro w hw
    have hbefore := ih (hsession.mono (List.prefix_append _ _))
    rw [ballots_append, List.mem_append]
    rw [run_append, advance_eq_count _ _ _ (hsession.epoch header (by simp))] at hw
    cases hballot : config.ballot (config.run t headers) header with
    | none =>
      rw [hballot] at hw
      exact .inl (hbefore w hw)
    | some v =>
      rw [hballot] at hw
      rcases Tally.mem_votes_count hw with hw | rfl
      · exact .inl (hbefore w hw)
      · exact .inr (by simp)

theorem candidate_type : ∀ w ∈ config.ballots t headers, w.candidate.type = type := by
  induction headers using List.reverseRecOn with
  | nil =>
    intro w hw
    exact absurd hw List.not_mem_nil
  | append_singleton headers header ih =>
    intro w hw
    rw [ballots_append, List.mem_append] at hw
    rcases hw with hw | hw
    · exact ih (hsession.mono (List.prefix_append _ _)) w hw
    · rw [Option.mem_toList] at hw
      obtain ⟨_, _, signer, hsigner, hcandidate⟩ := ballot_eq_some hw
      rw [← hsession.type_eq header (by simp) signer hsigner]
      exact minerToValidator_type hcandidate

end

theorem singleKey_of_ecdsa (hsession : config.Session n .ecdsa (done ++ [header])) (hvotes : t.votes = [])
    (hballot : config.ballot (config.run t done) header = some v) : (config.run t done).SingleKey v := by
  have hbefore : config.Session n .ecdsa done := hsession.mono (List.prefix_append _ _)
  have htype : v.candidate.type = .ecdsa := by
    apply hsession.candidate_type v
    rw [ballots_append, List.mem_append, hballot]
    exact .inr (by simp)
  intro w hw haddr _
  have htype' := hbefore.candidate_type w (hbefore.mem_ballots hvotes w hw)
  cases hc : v.candidate with
  | bls address key => simp [hc, Validator.type] at htype
  | ecdsa address =>
    cases hc' : w.candidate with
    | bls address' key => simp [hc', Validator.type] at htype'
    | ecdsa address' => simpa [hc, hc', Validator.addr] using haddr

theorem consistent (hsession : config.Session n type headers) (hvotes : t.votes = [])
    (hsingle : ∀ done header v, done ++ [header] <+: headers →
      config.ballot (config.run t done) header = some v → (config.run t done).SingleKey v) :
    (config.run t headers).Consistent := by
  induction headers using List.reverseRecOn with
  | nil =>
    rw [run]
    refine ⟨?_, ?_, ?_⟩ <;> simp [hvotes]
  | append_singleton headers header ih =>
    have hbefore := ih (hsession.mono (List.prefix_append _ _))
      fun done header v hle => hsingle done header v (hle.trans (List.prefix_append _ _))
    rw [run_append, advance_eq_count _ _ _ (hsession.epoch header (by simp))]
    cases hballot : config.ballot (config.run t headers) header with
    | none => exact hbefore
    | some v =>
      obtain ⟨hvoter, hauthorize, _⟩ := ballot_eq_some hballot
      exact hbefore.count hvoter hauthorize (hsingle headers header v (List.prefix_refl _) hballot)

theorem stored (hsession : config.Session n type headers) {s : SnapshotStore} {last : Snapshot}
    (hsound : s.Sound n last) :
    ∃ last', (headers.foldl config.applyHeader s).Sound (n + headers.length) last'
      ∧ last'.tally = config.run last.tally headers := by
  induction headers using List.reverseRecOn with
  | nil => exact ⟨last, hsound, rfl⟩
  | append_singleton headers header ih =>
    obtain ⟨last', hsound', htally⟩ := ih (hsession.mono (List.prefix_append _ _))
    have hcov : (headers.foldl config.applyHeader s).Covers (n + headers.length)
        (n + headers.length) (fun _ => last'.tally) := .of_last hsound' rfl
    have hcov' := applyHeader_covers config hcov le_rfl (hsession.number headers header (List.prefix_refl _))
    have hbegin : config.beginAfter (n + headers.length) header ≤ n + headers.length + 1 := by
      rw [beginAfter, if_neg (hsession.epoch header (by simp))]
      omega
    obtain ⟨last'', hsound'', htally''⟩ := hcov'.exists_last hbegin
    rw [Function.update_self, htally] at htally''
    refine ⟨last'', ?_, ?_⟩
    · rw [List.foldl_append, List.length_append]
      exact hsound''
    · rw [run_append, htally'']

theorem of_getElem {headers : List Header} (hnumber : ∀ k (hk : k < headers.length), headers[k].number = n + k + 1)
    (hepoch : ∀ header ∈ headers, header.number % config.epochSize ≠ 0)
    (htype : ∀ header ∈ headers, (config.signerAt header.number).toOption.map (·.type) = some type) :
    config.Session n type headers where
  number done header hle := by
    obtain ⟨rest, rfl⟩ := hle
    have hget := hnumber done.length (by simp)
    simpa using hget
  epoch := hepoch
  type_eq header hmem signer hsigner := by
    have htype' := htype header hmem
    rw [hsigner] at htype'
    exact Option.some.inj htype'

end Session

theorem votes_majority_safe (config : SnapshotConfig) (s : SnapshotStore) (n : Nat) (last : Snapshot)
    (type : ValidatorType) (headers : List Header) (hsound : s.Sound n last)
    (hvotes : last.votes = []) (hsession : config.Session n type headers)
    (hsingle : type = .bls → ∀ done header v, done ++ [header] <+: headers →
      config.ballot (config.run last.tally done) header = some v → (config.run last.tally done).SingleKey v) :
    (∀ done, done <+: headers → ((done.foldl config.applyHeader s).find (n + done.length)).map Snapshot.tally
            = some (config.run last.tally done) ∧ (config.run last.tally done).Consistent)
      ∧ ∀ done header addr, done ++ [header] <+: headers →
        (config.run last.tally (done ++ [header])).set.includes addr
            ≠ (config.run last.tally done).set.includes addr →
        Tally.MajorityCast (config.run last.tally done).set
          (config.ballots last.tally (done ++ [header])) addr
          (!(config.run last.tally done).set.includes addr) := by
  have hsingle' : ∀ done header v, done ++ [header] <+: headers →
      config.ballot (config.run last.tally done) header = some v → (config.run last.tally done).SingleKey v := by
    intro done header v hle hballot
    cases type with
    | ecdsa => exact (hsession.mono hle).singleKey_of_ecdsa hvotes hballot
    | bls => exact hsingle rfl done header v hle hballot
  have hconsistent : ∀ done, done <+: headers → (config.run last.tally done).Consistent := by
    intro done hle
    exact (hsession.mono hle).consistent hvotes
      fun done' header v hle' => hsingle' done' header v (hle'.trans hle)
  refine ⟨?_, ?_⟩
  · intro done hle
    obtain ⟨last', hsound', htally⟩ := (hsession.mono hle).stored hsound
    refine ⟨?_, hconsistent done hle⟩
    rw [hsound'.find_eq, Option.map_some, htally]
  · intro done header addr hle hchange
    have hbefore : done <+: headers := (List.prefix_append done [header]).trans hle
    have hmem : header ∈ headers := hle.subset (by simp)
    rw [run_append, advance_eq_count _ _ _ (hsession.epoch header hmem)] at hchange
    cases hballot : config.ballot (config.run last.tally done) header with
    | none =>
      rw [hballot] at hchange
      exact absurd rfl hchange
    | some v =>
      rw [hballot] at hchange
      obtain ⟨hvoter, hauthorize, _⟩ := ballot_eq_some hballot
      apply (hconsistent done hbefore).majorityCast hvoter hauthorize (hsingle' done header v hle hballot) hchange
      intro w hw
      rw [ballots_append, List.mem_append, hballot]
      rcases Tally.mem_withVote hw with hw | ⟨_, rfl⟩
      · exact .inl ((hsession.mono hbefore).mem_ballots hvotes w hw)
      · exact .inr (by simp)

end SnapshotConfig

def blsSnapshot : Snapshot :=
  ⟨0, FixedBytes.ofBytes 32 [1], [],
    ⟨.bls, [1, 2, 3, 4].map fun n => .bls (sampleAddress n) [n]⟩⟩

def keyVote (number : Nat) (proposer key : UInt8) (nonce : Nonce) : Header :=
  { sealedHeader number proposer [] with
    miner := Rlp.standard.marshal (Validator.bls (sampleAddress 5) [key]).marshalRLPWith
    nonce := nonce }

def agreedVotes : List Header :=
  [keyVote 1 1 2 nonceAuthVote, keyVote 2 2 2 nonceAuthVote, keyVote 3 3 2 nonceAuthVote]

theorem votes_majority_safe_agreedVotes :
    Tally.MajorityCast blsSnapshot.set
      (blsBackend.forkManager.snapshotConfig.ballots blsSnapshot.tally agreedVotes)
      (sampleAddress 5) true := by
  have hsession : blsBackend.forkManager.snapshotConfig.Session 0 .bls agreedVotes := by
    apply SnapshotConfig.Session.of_getElem
    · decide +kernel
    · decide +kernel
    · decide +kernel
  have hkeys : ∀ done ∈ agreedVotes.inits, ∀ header ∈ agreedVotes,
      ∀ v ∈ blsBackend.forkManager.snapshotConfig.ballot
        (blsBackend.forkManager.snapshotConfig.run blsSnapshot.tally done) header,
      ∀ w ∈ (blsBackend.forkManager.snapshotConfig.run blsSnapshot.tally done).votes,
        w.candidate = v.candidate := by
    decide +kernel
  have hlast : agreedVotes.take 2 ++ [keyVote 3 3 2 nonceAuthVote] = agreedVotes := rfl
  have hbefore : (blsBackend.forkManager.snapshotConfig.run blsSnapshot.tally
      (agreedVotes.take 2)).set = blsSnapshot.set := by
    decide +kernel
  have hsafe := (SnapshotConfig.votes_majority_safe _ (SnapshotStore.empty.add blsSnapshot) 0
    blsSnapshot .bls agreedVotes (SnapshotConfig.add_empty_sound _) rfl hsession ?_).2
    (agreedVotes.take 2) (keyVote 3 3 2 nonceAuthVote) (sampleAddress 5)
  · rw [hlast, hbefore] at hsafe
    exact hsafe (List.prefix_refl _) (by decide +kernel)
  · intro _ done header v hle hballot w hw _ _
    have hdone := (List.prefix_append done [header]).trans hle
    exact hkeys done ((List.mem_inits _ _).mpr hdone) header (hle.subset (by simp)) v hballot w hw

def keyVotes : List Header :=
  [keyVote 1 1 1 nonceAuthVote, keyVote 2 2 1 nonceAuthVote, keyVote 3 1 2 nonceAuthVote,
    keyVote 4 2 2 nonceAuthVote, keyVote 5 3 2 nonceAuthVote, keyVote 6 3 1 nonceDropVote]

theorem keyVotes_removed_without_majority :
    (SnapshotStore.empty.add blsSnapshot).Sound 0 blsSnapshot
      ∧ blsBackend.forkManager.snapshotConfig.Session 0 .bls keyVotes
      ∧ (blsBackend.forkManager.snapshotConfig.run blsSnapshot.tally
        (keyVotes.take 5)).set.includes (sampleAddress 5) = true
      ∧ (blsBackend.forkManager.snapshotConfig.run blsSnapshot.tally keyVotes).set.includes
        (sampleAddress 5) = false
      ∧ ¬ Tally.MajorityCast
        (blsBackend.forkManager.snapshotConfig.run blsSnapshot.tally (keyVotes.take 5)).set
        (blsBackend.forkManager.snapshotConfig.ballots blsSnapshot.tally keyVotes)
        (sampleAddress 5) false := by
  refine ⟨SnapshotConfig.add_empty_sound _, ?_, ?_, ?_, ?_⟩
  · apply SnapshotConfig.Session.of_getElem
    · decide +kernel
    · decide +kernel
    · decide +kernel
  · decide +kernel
  · decide +kernel
  · rintro ⟨voters, hnodup, hlen, hvoters⟩
    have hset : (blsBackend.forkManager.snapshotConfig.run blsSnapshot.tally (keyVotes.take 5)).set.len = 5 := by
      decide +kernel
    have hdrop : ∀ v ∈ blsBackend.forkManager.snapshotConfig.ballots blsSnapshot.tally keyVotes,
        v.authorize = false → v.validator = sampleAddress 3 := by
      decide +kernel
    have hsub : voters ⊆ [sampleAddress 3] := by
      intro voter hmem
      obtain ⟨_, v, hv, rfl, _, hfalse⟩ := hvoters voter hmem
      rw [hdrop v hv hfalse]
      exact List.mem_singleton_self _
    have hle := (List.subperm_of_subset hnodup hsub).length_le
    rw [List.length_singleton] at hle
    omega

end Nxchain
