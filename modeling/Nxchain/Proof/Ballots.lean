import Nxchain.Proof.Restart

namespace Nxchain

section Decision

variable {set set' : Validators} {candidate : Validator} {authorize : Bool}

section

variable (hdecide : addsOrDelsCandidate set candidate authorize = .ok set')

include hdecide

theorem addsOrDelsCandidate_cases :
    (authorize = true ∧ set'.validators = set.validators ++ [candidate])
      ∨ (authorize = false ∧ ∃ i, ∃ hi : i < set.validators.length, set.validators[i].addr = candidate.addr
          ∧ set'.validators = set.validators.eraseIdx i) := by
  unfold addsOrDelsCandidate Validators.add Validators.del at hdecide
  cases authorize with
  | true =>
    simp only [if_true] at hdecide
    split at hdecide
    · cases hdecide
    split at hdecide
    · cases hdecide
    cases hdecide
    exact .inl ⟨rfl, rfl⟩
  | false =>
    simp only [Bool.false_eq_true, if_false] at hdecide
    split at hdecide
    · cases hdecide
    split at hdecide
    · cases hdecide
    · rename_i i hindex
      rw [Validators.index, List.findIdx?_eq_some_iff_getElem] at hindex
      obtain ⟨hi, haddr, _⟩ := hindex
      cases hdecide
      exact .inr ⟨rfl, i, hi, of_decide_eq_true haddr, (List.eraseIdx_eq_take_drop_succ set.validators i).symm⟩

theorem addsOrDelsCandidate_len_ne : set'.len ≠ set.len := by
  unfold Validators.len
  rcases addsOrDelsCandidate_cases hdecide with ⟨_, heq⟩ | ⟨_, i, hi, _, heq⟩
  · simp [heq]
  · rw [heq, List.length_eraseIdx, if_pos hi]
    omega

theorem addsOrDelsCandidate_includes {addr : Address} (hne : addr ≠ candidate.addr) :
    set'.includes addr = set.includes addr := by
  rw [Bool.eq_iff_iff, Validators.includes_iff, Validators.includes_iff]
  apply exists_congr
  intro v
  apply and_congr_left
  intro haddr
  rcases addsOrDelsCandidate_cases hdecide with ⟨_, heq⟩ | ⟨_, i, hi, hremoved, heq⟩
  · have hv : v ≠ candidate := by
      rintro rfl
      exact hne haddr.symm
    simp [heq, hv]
  · rw [heq, List.mem_eraseIdx_iff_getElem, List.mem_iff_getElem]
    constructor
    · rintro ⟨j, hj, _, hget⟩
      exact ⟨j, hj, hget⟩
    · rintro ⟨j, hj, hget⟩
      refine ⟨j, hj, ?_, hget⟩
      rintro rfl
      rw [hget, haddr] at hremoved
      exact hne hremoved

end

theorem addsOrDelsCandidate_added (hdecide : addsOrDelsCandidate set candidate true = .ok set') :
    set'.includes candidate.addr = true := by
  rcases addsOrDelsCandidate_cases hdecide with ⟨_, heq⟩ | ⟨hfalse, _⟩
  · rw [Validators.includes_iff, heq]
    exact ⟨candidate, by simp, rfl⟩
  · cases hfalse

end Decision

namespace Tally

variable (t : Tally) (v : Vote)

def pendingCount : Nat :=
  t.votes.countP fun w => w.validator = v.validator && w.candidate.equal v.candidate

def withVote : List Vote := if t.pendingCount v = 0 then t.votes ++ [v] else t.votes

def supporters : List Vote := (t.withVote v).filter fun w => w.candidate.equal v.candidate

def Majority : Prop := t.set.len / 2 < (t.supporters v).length

instance : Decidable (t.Majority v) := inferInstanceAs (Decidable (_ < _))

def decided (set : Validators) : Tally :=
  ⟨set, (t.withVote v).filter fun w =>
    (v.authorize || !decide (w.validator = v.candidate.addr)) && !w.candidate.equal v.candidate⟩

def cast : Except SnapshotError Tally :=
  if 1 < t.pendingCount v then .error .multipleVotesBySameValidator
  else if t.Majority v then
    ((addsOrDelsCandidate t.set v.candidate v.authorize).mapError .validators).map (t.decided v)
  else .ok ⟨t.set, t.withVote v⟩

def count : Tally :=
  match t.cast v with
  | .error _ => t
  | .ok t' => t'

variable {t v} in
theorem cast_ok_cases {t' : Tally} (hcast : t.cast v = .ok t') :
    (t.Majority v ∧ ∃ set, addsOrDelsCandidate t.set v.candidate v.authorize = .ok set ∧ t' = t.decided v set)
      ∨ (¬ t.Majority v ∧ t' = ⟨t.set, t.withVote v⟩) := by
  unfold cast at hcast
  split at hcast
  · cases hcast
  split at hcast
  · rename_i hmajority
    obtain ⟨set, hdecide, heq⟩ := Except.map_eq_ok_iff.mp hcast
    exact .inl ⟨hmajority, set, Except.mapError_eq_ok_iff.mp hdecide, heq.symm⟩
  · rename_i hmajority
    exact .inr ⟨hmajority, (Except.ok.inj hcast).symm⟩

theorem count_cases :
    t.count v = t
      ∨ (t.Majority v ∧ ∃ set, addsOrDelsCandidate t.set v.candidate v.authorize = .ok set
        ∧ t.count v = t.decided v set)
      ∨ (¬ t.Majority v ∧ t.count v = ⟨t.set, t.withVote v⟩) := by
  unfold count
  cases hcast : t.cast v with
  | error e => exact .inl rfl
  | ok t' => exact .inr (cast_ok_cases hcast)

theorem castVote_eq_cast :
    (castVote ⟨0, zeroHash, t.votes, t.set⟩ v.validator v.candidate v.authorize).map Snapshot.tally
      = t.cast v := by
  have hwith : (if t.pendingCount v = 0 then
        (Snapshot.mk 0 zeroHash t.votes t.set).addVote v.validator v.candidate v.authorize
      else ⟨0, zeroHash, t.votes, t.set⟩) = ⟨0, zeroHash, t.withVote v, t.set⟩ := by
    unfold withVote
    split <;> rfl
  have hpending : (Snapshot.mk 0 zeroHash t.votes t.set).countByVoterAndCandidate v.validator
      v.candidate = t.pendingCount v := rfl
  unfold castVote cast
  simp only [hpending]
  by_cases hmultiple : 1 < t.pendingCount v
  · simp only [hmultiple, if_true]
    rfl
  · simp only [hmultiple, if_false, hwith]
    have hcount : (Snapshot.mk 0 zeroHash (t.withVote v) t.set).countByCandidate v.candidate
        = (t.supporters v).length := by
      rw [supporters, ← List.countP_eq_length_filter]
      rfl
    by_cases hmajority : t.Majority v
    · rw [if_pos hmajority]
      simp only [hcount, show t.set.len / 2 < (t.supporters v).length from hmajority]
      cases addsOrDelsCandidate t.set v.candidate v.authorize with
      | error e => rfl
      | ok set =>
        cases hauthorize : v.authorize with
        | true =>
          simp [Except.mapError, Except.map, bind, Except.bind, pure, Except.pure,
            Snapshot.tally, Snapshot.removeVotesByCandidate, Snapshot.removeVotes, decided, hauthorize]
        | false =>
          simp [Except.mapError, Except.map, bind, Except.bind, pure, Except.pure,
            Snapshot.tally, Snapshot.removeVotesByCandidate, Snapshot.removeVotesByVoter,
            Snapshot.removeVotes, decided, hauthorize, List.filter_filter, Bool.and_comm]
    · rw [if_neg hmajority]
      simp only [hcount, show ¬ t.set.len / 2 < (t.supporters v).length from hmajority]
      rfl

end Tally

namespace SnapshotConfig

variable (config : SnapshotConfig) (t : Tally) (header : Header)

def ballot : Option Vote :=
  match config.signerAt header.number with
  | .error _ => none
  | .ok signer =>
    match signer.ecrecoverFromHeader header, isAuthorize header.nonce,
      minerToValidator config.codec signer.type header.miner with
    | .ok proposer, .ok authorize, .ok candidate =>
      if t.set.includes proposer ∧ header.number % config.epochSize ≠ 0
          ∧ header.miner ≠ zeroAddress.toBytes
          ∧ shouldProcessVote t.set candidate.addr authorize then
        some ⟨proposer, candidate, authorize⟩
      else none
    | _, _, _ => none

theorem advance_eq_count (hepoch : header.number % config.epochSize ≠ 0) :
    config.advance t header = ((config.ballot t header).map t.count).getD t := by
  unfold advance step ballot
  cases config.signerAt header.number with
  | error e => rfl
  | ok signer =>
    simp only [bind, Except.bind]
    cases signer.ecrecoverFromHeader header with
    | error e => rfl
    | ok proposer =>
      simp only [Except.mapError]
      by_cases hincluded : t.set.includes proposer = true
      · by_cases hminer : header.miner = zeroAddress.toBytes
        · cases isAuthorize header.nonce <;>
            cases minerToValidator config.codec signer.type header.miner <;>
            simp [hincluded, hepoch, hminer, pure, Except.pure]
        · unfold processVote
          cases isAuthorize header.nonce with
          | error e => simp [hincluded, hepoch, hminer, bind, Except.bind]
          | ok authorize =>
            cases minerToValidator config.codec signer.type header.miner with
            | error e =>
              simp [hincluded, hepoch, hminer, bind, Except.bind, Except.mapError]
            | ok candidate =>
              have hcast := t.castVote_eq_cast ⟨proposer, candidate, authorize⟩
              by_cases hshould : shouldProcessVote t.set candidate.addr authorize = true
              · simp only [hincluded, hepoch, hminer, hshould, bind, Except.bind,
                  Except.mapError, Bool.not_true, Bool.false_eq_true, if_false, ne_eq,
                  not_false_eq_true, and_self, if_true, Option.map_some, Option.getD_some, Tally.count]
                rw [← hcast]
                cases castVote ⟨0, zeroHash, t.votes, t.set⟩ proposer candidate authorize <;> rfl
              · simp [hincluded, hepoch, hminer, hshould, bind, Except.bind,
                  Except.mapError, Snapshot.tally, pure, Except.pure]
      · cases isAuthorize header.nonce <;>
          cases minerToValidator config.codec signer.type header.miner <;>
          simp [hincluded, throw, throwThe, MonadExceptOf.throw]

end SnapshotConfig

end Nxchain
