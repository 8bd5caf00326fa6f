import Nxchain.Ibft
import Nxchain.Proof.Timeline

namespace Nxchain

def chainOf (headers : Nat → Header) (head : Nat) : HeaderGetter where
  header := headers head
  getHeaderByNumber n := if n ≤ head then some (headers n) else none

namespace SnapshotStore.Covers

variable {s : SnapshotStore} {b n : Nat} {ts : Nat → Tally}

theorem getValidatorsByHeight (hcov : s.Covers b n ts) {h : Nat} (hb : b ≤ h) (hn : h ≤ n) :
    s.getValidatorsByHeight h = .ok (ts h).set := by
  have hfind := hcov.find h hb hn
  rw [Option.map_eq_some_iff] at hfind
  obtain ⟨snap, hsnap, htally⟩ := hfind
  unfold SnapshotStore.getValidatorsByHeight
  rw [hsnap, ← htally]
  rfl

theorem mono_begin (hcov : s.Covers b n ts) {b' : Nat} (hle : b ≤ b') : s.Covers b' n ts := by
  refine ⟨hcov.sound, ?_, fun h hb hn => hcov.find h (hle.trans hb) hn⟩
  obtain ⟨x, hx, hxb⟩ := hcov.oldest
  exact ⟨x, hx, hxb.trans hle⟩

theorem update_eq (hcov : s.Covers b n (Function.update ts n t)) (ht : t = ts n) : s.Covers b n ts := by
  rwa [ht, Function.update_eq_self] at hcov

end SnapshotStore.Covers

namespace SnapshotConfig

variable (config : SnapshotConfig) (headers : Nat → Header)

variable {b n head : Nat} {t : Tally} {s : SnapshotStore} {ts : Nat → Tally}

def epochBegin (n : Nat) : Nat := n / config.epochSize * config.epochSize

theorem epochBegin_le (n : Nat) : config.epochBegin n ≤ n := Nat.div_mul_le_self n config.epochSize

theorem epochBegin_succ (n : Nat) :
    config.epochBegin (n + 1)
      = if (n + 1) % config.epochSize = 0 then n + 1 else config.epochBegin n := by
  unfold epochBegin
  rw [Nat.succ_div]
  split
  · rename_i hdvd
    rw [if_pos (Nat.mod_eq_zero_of_dvd hdvd)]
    have hmul := Nat.div_mul_cancel hdvd
    rw [Nat.succ_div, if_pos hdvd] at hmul
    exact hmul
  · rename_i hdvd
    rw [if_neg (fun hmod => hdvd (Nat.dvd_of_mod_eq_zero hmod)), Nat.add_zero]

def advance (t : Tally) (header : Header) : Tally :=
  match config.step t header with
  | .error _ => t
  | .ok t' => t'

def tallies (b : Nat) (t : Tally) : Nat → Tally
  | 0 => t
  | n + 1 => if n < b then t else config.advance (tallies b t n) (headers (n + 1))

def Replays (b : Nat) (t : Tally) (n : Nat) : Prop :=
  ∀ i, b ≤ i → i < n → ∃ t', config.step (config.tallies headers b t i) (headers (i + 1)) = .ok t'

theorem tallies_begin (b : Nat) (t : Tally) : config.tallies headers b t b = t := by
  cases b with
  | zero => rfl
  | succ b => simp [tallies]

variable {config headers}

theorem tallies_succ_ok {t' : Tally} (hb : b ≤ n)
    (hstep : config.step (config.tallies headers b t n) (headers (n + 1)) = .ok t') :
    config.tallies headers b t (n + 1) = t' := by
  rw [tallies, if_neg (by omega), advance, hstep]

theorem tallies_eq_of_meet {a : Nat} {u : Tally} (hab : a ≤ b) (hmeet : config.tallies headers a t b = u) {h : Nat}
    (hbh : b ≤ h) : config.tallies headers a t h = config.tallies headers b u h := by
  induction h, hbh using Nat.le_induction with
  | base => rw [hmeet, tallies_begin]
  | succ h hbh ih =>
    rw [tallies, if_neg (by omega), ih]
    conv => rhs; rw [tallies, if_neg (by omega)]

def applyHeader (config : SnapshotConfig) (s : SnapshotStore) (header : Header) : SnapshotStore :=
  match config.processHeader s header with
  | .error _ => s
  | .ok s' => s'

theorem applyHeader_covers (config : SnapshotConfig) {header : Header} (hcov : s.Covers b n ts) (hb : b ≤ n)
    (hnumber : header.number = n + 1) :
    (config.applyHeader s header).Covers (config.beginAfter b header) (n + 1)
      (Function.update ts (n + 1) (config.advance (ts n) header)) := by
  have hspec := processHeader_spec config hcov hb hnumber
  unfold applyHeader advance
  cases hstep : config.step (ts n) header with
  | error e =>
    rw [hstep] at hspec
    rw [hspec]
    refine (hcov.keep hb).mono_begin ?_
    unfold beginAfter
    split <;> omega
  | ok t =>
    rw [hstep] at hspec
    obtain ⟨s', hrun, _, hcov'⟩ := hspec
    rw [hrun]
    exact hcov'

def processAll (config : SnapshotConfig) (headers : Nat → Header) (s : SnapshotStore) :
    Nat → SnapshotStore
  | 0 => s
  | n + 1 => config.applyHeader (processAll config headers s n) (headers (n + 1))

theorem processAll_covers (hnumber : ∀ n, n ≤ head → (headers n).number = n)
    (hcov : s.Covers 0 0 (config.tallies headers 0 t)) :
    ∀ n, n ≤ head →
      (config.processAll headers s n).Covers (config.epochBegin n) n
        (config.tallies headers 0 t) := by
  intro n hn
  induction n with
  | zero =>
    rw [epochBegin, Nat.zero_div, Nat.zero_mul]
    exact hcov
  | succ n ih =>
    have hcov' := applyHeader_covers config (ih (by omega)) (config.epochBegin_le n) (hnumber (n + 1) hn)
    have hbegin : config.beginAfter (config.epochBegin n) (headers (n + 1)) = config.epochBegin (n + 1) := by
      rw [beginAfter, hnumber (n + 1) hn, epochBegin_succ]
    rw [hbegin] at hcov'
    apply hcov'.update_eq
    rw [tallies, if_neg n.not_lt_zero]

def extraValidators (config : SnapshotConfig) (header : Header) :
    Except (Fault SnapshotError) Validators := do
  let signer ← config.signerAt header.number
  (signer.getValidators header).mapError .ofSigner

theorem addHeaderSnap_eq (s : SnapshotStore) (header : Header) :
    config.addHeaderSnap s header
      = (config.extraValidators header).map fun validators =>
          s.add ⟨header.number, header.hash, [], validators⟩ := by
  unfold addHeaderSnap extraValidators
  cases config.signerAt header.number with
  | error e => rfl
  | ok signer =>
    cases (signer.getValidators header).mapError Fault.ofSigner <;> rfl

theorem add_empty_sound (snap : Snapshot) : (SnapshotStore.empty.add snap).Sound snap.number snap :=
  ⟨List.pairwise_singleton _ _, rfl, le_rfl⟩

theorem Replays.succ_iff (hb : b ≤ n) :
    config.Replays headers b t (n + 1) ↔ config.Replays headers b t n
      ∧ ∃ t', config.step (config.tallies headers b t n) (headers (n + 1)) = .ok t' := by
  constructor
  · intro hreplays
    exact ⟨fun i hbi hin => hreplays i hbi (by omega), hreplays n hb (Nat.lt_succ_self n)⟩
  · rintro ⟨hreplays, hlast⟩ i hbi hin
    rcases Nat.lt_succ_iff_lt_or_eq.mp hin with hlt | rfl
    · exact hreplays i hbi hlt
    · exact hlast

theorem processHeadersInRange_eq (chain : HeaderGetter) (s : SnapshotStore) (hle : b ≤ head) :
    (if head > b then config.processHeadersInRange chain s (b + 1) head else .ok s)
      = (List.range' (b + 1) (head - b)).foldlM (config.processHeaderAt chain) s := by
  split
  · rw [processHeadersInRange, Nat.add_sub_add_right]
  · rw [Nat.sub_eq_zero_of_le (by omega)]
    rfl

theorem initializeStore_genesis (hnumber : (headers 0).number = 0) :
    config.initializeStore (chainOf headers 0) .empty = config.addHeaderSnap .empty (headers 0) := by
  have hheader : (chainOf headers 0).header = headers 0 := rfl
  unfold initializeStore
  simp only [hheader, hnumber, addHeaderSnap_eq]
  cases config.extraValidators (headers 0) with
  | error e => rfl
  | ok validators =>
    have hfind := (add_empty_sound ⟨0, (headers 0).hash, [], validators⟩).find_eq
    simp [Except.map, bind, Except.bind, hfind, pure, Except.pure]

theorem initializeStore_pos (hpos : 0 < head) (hnumber : (headers head).number = head) :
    config.initializeStore (chainOf headers head) .empty
      = (config.restoreBeginning (chainOf headers head) .empty).bind fun s =>
          if head > s.lastNumber then
            config.processHeadersInRange (chainOf headers head) s (s.lastNumber + 1) head
          else .ok s := by
  have hne : (chainOf headers head).header.number ≠ 0 := by
    rw [chainOf, hnumber]
    omega
  have hfind (n : Nat) : SnapshotStore.empty.find n = none := rfl
  unfold initializeStore
  simp only [hne, hfind, Option.isNone_none, true_or, if_true, pure_bind]
  rw [show (chainOf headers head).header.number = head from hnumber]
  rfl

theorem mod_epochSize_ne_zero {i : Nat} (hlt : config.epochBegin n < i) (hi : i ≤ n) :
    i % config.epochSize ≠ 0 := by
  intro hmod
  have hdiv : i / config.epochSize ≤ n / config.epochSize := Nat.div_le_div_right hi
  have hle : i / config.epochSize * config.epochSize ≤ config.epochBegin n := Nat.mul_le_mul_right _ hdiv
  rw [Nat.div_mul_cancel (Nat.dvd_of_mod_eq_zero hmod)] at hle
  omega

variable (hnumber : ∀ n, n ≤ head → (headers n).number = n)

include hnumber

theorem processHeaders_spec (hcov : s.Covers b b (config.tallies headers b t)) (k : Nat) (hk : b + k ≤ head)
    (hepoch : ∀ i, b < i → i ≤ b + k → i % config.epochSize ≠ 0) :
    (config.Replays headers b t (b + k) ∧ ∃ s',
        (List.range' (b + 1) k).foldlM (config.processHeaderAt (chainOf headers head)) s = .ok s'
          ∧ s'.Covers b (b + k) (config.tallies headers b t))
      ∨ (¬ config.Replays headers b t (b + k) ∧ ∃ e,
        (List.range' (b + 1) k).foldlM (config.processHeaderAt (chainOf headers head)) s = .error e) := by
  induction k with
  | zero => exact .inl ⟨fun i hbi hi => absurd hi (by omega), s, rfl, hcov⟩
  | succ k ih =>
    have hsplit : List.range' (b + 1) (k + 1) = List.range' (b + 1) k ++ [b + k + 1] := by
      rw [List.range'_concat, Nat.one_mul, Nat.add_right_comm]
    rw [hsplit, List.foldlM_append]
    rw [← Nat.add_assoc, Replays.succ_iff (Nat.le_add_right b k)]
    rcases ih (by omega) (fun i hbi hi => hepoch i hbi (by omega)) with
      ⟨hreplays, s', hrun, hcov'⟩ | ⟨hreplays, e, hrun⟩
    · have hspec := processHeader_spec config hcov' (Nat.le_add_right b k) (hnumber (b + k + 1) (by omega))
      have hat : config.processHeaderAt (chainOf headers head) s' (b + k + 1)
          = config.processHeader s' (headers (b + k + 1)) := by
        simp [processHeaderAt, chainOf, show b + k + 1 ≤ head by omega]
      simp only [hrun, List.foldlM_cons, bind, Except.bind, hat]
      cases hstep : config.step (config.tallies headers b t (b + k)) (headers (b + k + 1)) with
      | error e =>
        rw [hstep] at hspec
        right
        refine ⟨by simp, e, ?_⟩
        rw [hspec]
      | ok t' =>
        rw [hstep] at hspec
        obtain ⟨s'', hrun', _, hcov''⟩ := hspec
        left
        refine ⟨⟨hreplays, t', rfl⟩, s'', ?_, ?_⟩
        · rw [hrun']
          rfl
        · have hbegin : config.beginAfter b (headers (b + k + 1)) = b := by
            rw [beginAfter, hnumber (b + k + 1) (by omega), if_neg (hepoch (b + k + 1) (by omega) (by omega))]
          rw [hbegin] at hcov''
          exact hcov''.update_eq (tallies_succ_ok (Nat.le_add_right b k) hstep).symm
    · right
      refine ⟨fun h => hreplays h.1, e, ?_⟩
      rw [hrun]
      rfl

theorem restoreBeginning_eq :
    config.restoreBeginning (chainOf headers head) .empty
      = (config.extraValidators (headers (config.epochBegin head))).map fun validators =>
          (SnapshotStore.empty.add ⟨config.epochBegin head, (headers (config.epochBegin head)).hash,
            [], validators⟩).updateLastBlock (config.epochBegin head) := by
  have hbegin : (chainOf headers head).header.number / config.epochSize * config.epochSize
      = config.epochBegin head := by
    rw [epochBegin, chainOf, hnumber head le_rfl]
  have hget : (chainOf headers head).getHeaderByNumber (config.epochBegin head)
      = some (headers (config.epochBegin head)) := by
    simp [chainOf, config.epochBegin_le head]
  unfold restoreBeginning
  simp only [hbegin, hget, addHeaderSnap_eq, hnumber _ (config.epochBegin_le head)]
  cases config.extraValidators (headers (config.epochBegin head)) <;> rfl

theorem initializeStore_spec :
    match config.extraValidators (headers (config.epochBegin head)) with
    | .error e => config.initializeStore (chainOf headers head) .empty = .error e
    | .ok validators =>
      (config.Replays headers (config.epochBegin head) ⟨validators, []⟩ head ∧ ∃ s',
          config.initializeStore (chainOf headers head) .empty = .ok s' ∧ s'.Covers (config.epochBegin head) head
              (config.tallies headers (config.epochBegin head) ⟨validators, []⟩))
        ∨ (¬ config.Replays headers (config.epochBegin head) ⟨validators, []⟩ head ∧ ∃ e,
          config.initializeStore (chainOf headers head) .empty = .error e) := by
  rcases Nat.eq_zero_or_pos head with rfl | hpos
  · have hzero : config.epochBegin 0 = 0 := Nat.le_zero.mp (config.epochBegin_le 0)
    rw [hzero, initializeStore_genesis (hnumber 0 le_rfl), addHeaderSnap_eq]
    cases config.extraValidators (headers 0) with
    | error e => rfl
    | ok validators =>
      left
      refine ⟨fun i _ hi => absurd hi (Nat.not_lt_zero i), _, rfl, ?_⟩
      rw [hnumber 0 le_rfl]
      exact .of_last (add_empty_sound ⟨0, (headers 0).hash, [], validators⟩) rfl
  · rw [initializeStore_pos hpos (hnumber head le_rfl), restoreBeginning_eq hnumber]
    cases config.extraValidators (headers (config.epochBegin head)) with
    | error e => rfl
    | ok validators =>
      have hsound : SnapshotStore.Sound _ (config.epochBegin head) _ := add_empty_sound
        ⟨config.epochBegin head, (headers (config.epochBegin head)).hash, [], validators⟩
      have hcov := (SnapshotStore.Covers.of_last hsound (tallies_begin config headers
        (config.epochBegin head) ⟨validators, []⟩).symm).updateLastBlock (config.epochBegin head)
      have hle := config.epochBegin_le head
      have hspec := processHeaders_spec hnumber hcov (head - config.epochBegin head) (by omega)
        (fun i hbi hi => mod_epochSize_ne_zero hbi (by omega))
      rw [Nat.add_sub_cancel' hle] at hspec
      simp only [Except.map, Except.bind, SnapshotStore.updateLastBlock] at hspec ⊢
      rw [processHeadersInRange_eq _ _ hle]
      exact hspec

theorem initializeStore_ok {s' : SnapshotStore}
    (hinit : config.initializeStore (chainOf headers head) .empty = .ok s') :
    ∃ validators, config.extraValidators (headers (config.epochBegin head)) = .ok validators
      ∧ config.Replays headers (config.epochBegin head) ⟨validators, []⟩ head
      ∧ s'.Covers (config.epochBegin head) head
        (config.tallies headers (config.epochBegin head) ⟨validators, []⟩) := by
  have hspec := @initializeStore_spec config headers head hnumber
  cases hextra : config.extraValidators (headers (config.epochBegin head)) with
  | error e =>
    rw [hextra] at hspec
    cases hspec.symm.trans hinit
  | ok validators =>
    rw [hextra] at hspec
    rcases hspec with ⟨hreplays, s'', hinit', hcov⟩ | ⟨_, e, herror⟩
    · obtain rfl := Except.ok.inj (hinit.symm.trans hinit')
      exact ⟨validators, rfl, hreplays, hcov⟩
    · cases herror.symm.trans hinit

def RestartAgrees (config : SnapshotConfig) (headers : Nat → Header) (head : Nat)
    (running : SnapshotStore) : Prop :=
  ∃ s', config.initializeStore (chainOf headers head) .empty = .ok s'
    ∧ ∀ h, config.epochBegin head ≤ h → h ≤ head →
      s'.getValidatorsByHeight h = running.getValidatorsByHeight h

section Agreement

variable {running : SnapshotStore} (hcov : running.Covers (config.epochBegin head) head ts)
  (hvotes : (ts (config.epochBegin head)).votes = [])
  (hfollows : ∀ h, config.epochBegin head ≤ h → h ≤ head →
    ts h = config.tallies headers (config.epochBegin head) (ts (config.epochBegin head)) h)

include hvotes hfollows

theorem restartAgrees_iff_of_extra
    (hextra : config.extraValidators (headers (config.epochBegin head)) = .ok (ts (config.epochBegin head)).set) :
    config.RestartAgrees headers head running
      ↔ config.Replays headers (config.epochBegin head) (ts (config.epochBegin head)) head
        ∧ ∀ h, config.epochBegin head ≤ h → h ≤ head →
          running.getValidatorsByHeight h = .ok (ts h).set := by
  have hspec := @initializeStore_spec config headers head hnumber
  have htally : ts (config.epochBegin head) = ⟨(ts (config.epochBegin head)).set, []⟩ := by
    rw [← hvotes]
  rw [hextra] at hspec
  simp only [← htally] at hspec
  rcases hspec with ⟨hreplays, s', hinit, hcov⟩ | ⟨hnot, e, herror⟩
  · have hagree : ∀ h, config.epochBegin head ≤ h → h ≤ head → s'.getValidatorsByHeight h = .ok (ts h).set := by
      intro h hb hh
      rw [hcov.getValidatorsByHeight hb hh, hfollows h hb hh]
    constructor
    · rintro ⟨s'', hinit', hagree'⟩
      obtain rfl := Except.ok.inj (hinit.symm.trans hinit')
      exact ⟨hreplays, fun h hb hh => (hagree' h hb hh).symm.trans (hagree h hb hh)⟩
    · rintro ⟨_, hrunning⟩
      exact ⟨s', hinit, fun h hb hh => (hagree h hb hh).trans (hrunning h hb hh).symm⟩
  · exact iff_of_false (fun ⟨s', hinit, _⟩ => nomatch herror.symm.trans hinit) fun h => hnot h.1

include hcov in
theorem restartAgrees_iff_replays : config.RestartAgrees headers head running
      ↔ (∃ validators, config.extraValidators (headers (config.epochBegin head)) = .ok validators
          ∧ running.getValidatorsByHeight (config.epochBegin head) = .ok validators)
        ∧ config.Replays headers (config.epochBegin head) (ts (config.epochBegin head)) head := by
  have hle := config.epochBegin_le head
  have hset := hcov.getValidatorsByHeight le_rfl hle
  constructor
  · intro hagrees
    obtain ⟨s', hinit, hagree⟩ := id hagrees
    obtain ⟨validators, hextra, _, hcov'⟩ := initializeStore_ok hnumber hinit
    have hsame := hagree _ le_rfl hle
    rw [hset, hcov'.getValidatorsByHeight le_rfl hle, tallies_begin] at hsame
    obtain rfl : validators = _ := Except.ok.inj hsame
    exact ⟨⟨_, hextra, hset⟩, ((restartAgrees_iff_of_extra hnumber hvotes hfollows hextra).mp hagrees).1⟩
  · rintro ⟨⟨validators, hextra, hset'⟩, hreplays⟩
    rw [hset] at hset'
    rw [← Except.ok.inj hset'] at hextra
    exact (restartAgrees_iff_of_extra hnumber hvotes hfollows hextra).mpr
      ⟨hreplays, fun h hb hh => hcov.getValidatorsByHeight hb hh⟩

end Agreement

end SnapshotConfig

namespace BackendIBFT

variable (i : BackendIBFT) (headers : Nat → Header) (s : SnapshotStore)

abbrev config : SnapshotConfig := i.forkManager.snapshotConfig

def Accepts (shouldVerifyParentCommittedSeals : Nat → Bool) (n : Nat) : Prop :=
  (do
    let running := i.forkManager.snapshotConfig.processAll headers s (n - 1)
    let (signer, validators, hooks) ← i.getModulesFromForkManager running n
    i.verifyHeaderImpl running (headers (n - 1)) (headers n) signer validators hooks
      (shouldVerifyParentCommittedSeals n)) = .ok ()

variable {i headers s}

theorem Accepts.step_epoch {mustExist : Nat → Bool} {n b : Nat} {ts : Nat → Tally} {fork : IBFTFork}
    (hfork : i.forkManager.forks.getFork (n + 1) = some fork) (hpoa : fork.type = .poA)
    (hcov : (i.config.processAll headers s n).Covers b n ts) (hb : b ≤ n)
    (hnumber : (headers (n + 1)).number = n + 1) (haccepts : i.Accepts headers s mustExist (n + 1))
    (hepoch : (n + 1) % i.forkManager.epochSize = 0) :
    i.config.step (ts n) (headers (n + 1)) = .ok ⟨(ts n).set, []⟩ := by
  obtain ⟨⟨signer, validators, hooks⟩, hmodules, hverify⟩ := Except.bind_eq_ok_iff.mp haccepts
  obtain ⟨signer', hsigner, hmodules⟩ := Except.bind_eq_ok_iff.mp hmodules
  obtain ⟨validators', hvalidators, hmodules⟩ := Except.bind_eq_ok_iff.mp hmodules
  cases hmodules
  rw [Except.mapError_eq_ok_iff] at hsigner hvalidators
  have hset : validators = (ts n).set := by
    rw [ForkManager.getValidators, hfork] at hvalidators
    simp only [hpoa, Nat.add_sub_cancel, pred64_succ, hcov.getValidatorsByHeight hb le_rfl]
      at hvalidators
    exact (Except.ok.inj hvalidators).symm
  obtain ⟨proposer, hrecover, hincluded⟩ := verifyHeaderImpl_proposer hverify
  have hsignerAt : i.config.signerAt (headers (n + 1)).number = .ok (i.forkManager.signerInterface signer) := by
    simp [SnapshotConfig.signerAt, ForkManager.snapshotConfig, hnumber, hsigner, Except.map,
      Except.mapError, bind, Except.bind, pure, Except.pure]
  have hrecover' : (i.forkManager.signerInterface signer).ecrecoverFromHeader (headers (n + 1))
      = .ok proposer := hrecover
  have hepoch' : (headers (n + 1)).number % i.config.epochSize = 0 := by
    rw [hnumber]
    exact hepoch
  rw [hset] at hincluded
  simp [SnapshotConfig.step, hsignerAt, hrecover', hincluded, hepoch', bind, Except.bind,
    Except.mapError, pure, Except.pure]

theorem votes_epochBegin {mustExist : Nat → Bool} {head : Nat} {validators : Validators}
    (hpoa : ∀ n, 0 < n → n ≤ head → ∃ fork, i.forkManager.forks.getFork n = some fork ∧ fork.type = .poA)
    (hnumber : ∀ n, n ≤ head → (headers n).number = n)
    (hcov : ∀ n, n ≤ head → (i.config.processAll headers s n).Covers (i.config.epochBegin n) n
      (i.config.tallies headers 0 ⟨validators, []⟩))
    (haccepts : ∀ n, 0 < n → n ≤ head → i.Accepts headers s mustExist n) :
    (i.config.tallies headers 0 ⟨validators, []⟩ (i.config.epochBegin head)).votes = [] := by
  have hle := i.config.epochBegin_le head
  have hmod : i.config.epochBegin head % i.forkManager.epochSize = 0 := Nat.mul_mod_left _ _
  generalize i.config.epochBegin head = b at hle hmod
  cases b with
  | zero => rfl
  | succ n =>
    obtain ⟨fork, hfork, htype⟩ := hpoa (n + 1) n.succ_pos hle
    have hstep := (haccepts (n + 1) n.succ_pos hle).step_epoch hfork htype
      (hcov n (by omega)) (i.config.epochBegin_le n) (hnumber (n + 1) hle) hmod
    rw [SnapshotConfig.tallies_succ_ok n.zero_le hstep]

theorem processHeader_ok_iff {config : SnapshotConfig} {b n : Nat} {ts : Nat → Tally} (hcov : s.Covers b n ts)
    (hb : b ≤ n) (hnumber : (headers (n + 1)).number = n + 1) :
    (∃ s', config.processHeader s (headers (n + 1)) = .ok s')
      ↔ ∃ t, config.step (ts n) (headers (n + 1)) = .ok t := by
  have hspec := SnapshotConfig.processHeader_spec config hcov hb hnumber
  cases hstep : config.step (ts n) (headers (n + 1)) with
  | error e =>
    rw [hstep] at hspec
    simp [hspec]
  | ok t =>
    rw [hstep] at hspec
    obtain ⟨s', hrun, _⟩ := hspec
    simp [hrun]

theorem restart_agrees_iff (i : BackendIBFT) (headers : Nat → Header) (s : SnapshotStore) (mustExist : Nat → Bool)
    (head : Nat)
    (hpoa : ∀ n, 0 < n → n ≤ head → ∃ fork, i.forkManager.forks.getFork n = some fork ∧ fork.type = .poA)
    (hnumber : ∀ n, n ≤ head → (headers n).number = n)
    (hgenesis : i.forkManager.snapshotConfig.initializeStore (chainOf headers 0) .empty = .ok s)
    (haccepts : ∀ n, 0 < n → n ≤ head → i.Accepts headers s mustExist n) :
    i.forkManager.snapshotConfig.RestartAgrees headers head
        (i.forkManager.snapshotConfig.processAll headers s head)
      ↔ (∃ validators, i.forkManager.snapshotConfig.extraValidators
              (headers (i.forkManager.snapshotConfig.epochBegin head)) = .ok validators
            ∧ (i.forkManager.snapshotConfig.processAll headers s head).getValidatorsByHeight
              (i.forkManager.snapshotConfig.epochBegin head) = .ok validators)
        ∧ ∀ n, i.forkManager.snapshotConfig.epochBegin head ≤ n → n < head →
          ∃ s', i.forkManager.snapshotConfig.processHeader
            (i.forkManager.snapshotConfig.processAll headers s n) (headers (n + 1)) = .ok s' := by
  obtain ⟨validators, hextra, hs⟩ : ∃ validators,
      i.forkManager.snapshotConfig.extraValidators (headers 0) = .ok validators
        ∧ SnapshotStore.empty.add ⟨(headers 0).number, (headers 0).hash, [], validators⟩ = s := by
    rw [SnapshotConfig.initializeStore_genesis (hnumber 0 head.zero_le),
      SnapshotConfig.addHeaderSnap_eq] at hgenesis
    exact Except.map_eq_ok_iff.mp hgenesis
  have hcov : ∀ n, n ≤ head → (i.forkManager.snapshotConfig.processAll headers s n).Covers
      (i.forkManager.snapshotConfig.epochBegin n) n
      (i.forkManager.snapshotConfig.tallies headers 0 ⟨validators, []⟩) := by
    apply SnapshotConfig.processAll_covers hnumber
    rw [← hs, hnumber 0 head.zero_le]
    exact .of_last (SnapshotConfig.add_empty_sound ⟨0, (headers 0).hash, [], validators⟩) rfl
  have hvotes := votes_epochBegin hpoa hnumber hcov haccepts
  have hfollows : ∀ h, i.forkManager.snapshotConfig.epochBegin head ≤ h → h ≤ head →
      i.forkManager.snapshotConfig.tallies headers 0 ⟨validators, []⟩ h
        = i.forkManager.snapshotConfig.tallies headers (i.forkManager.snapshotConfig.epochBegin head) _ h :=
    fun h hb _ => SnapshotConfig.tallies_eq_of_meet (Nat.zero_le _) rfl hb
  rw [SnapshotConfig.restartAgrees_iff_replays hnumber (hcov head le_rfl) hvotes hfollows]
  apply and_congr_right
  intro _
  apply forall_congr'
  intro n
  apply forall_congr'
  intro hb
  apply forall_congr'
  intro hn
  rw [processHeader_ok_iff (hcov n hn.le) (i.forkManager.snapshotConfig.epochBegin_le n)
    (hnumber (n + 1) hn), hfollows n hb hn.le]

end BackendIBFT

def sampleBackend : BackendIBFT := toyBackend [⟨.poA, .ecdsa, 0, none, none⟩] 1 Nat.one_pos

def sealedHeader (number : Nat) (proposer : UInt8) (validators : List UInt8) : Header :=
  putIbftExtra Rlp.standard
    { parentHash := zeroHash, sha3Uncles := emptyUncleHash, miner := zeroAddress.toBytes,
      stateRoot := zeroHash, txRoot := zeroHash, receiptsRoot := zeroHash,
      logsBloom := FixedBytes.zero 256, difficulty := number, number := number, gasLimit := 0,
      gasUsed := 0, timestamp := 0, extraData := [], mixHash := istanbulDigest,
      nonce := nonceDropVote, hash := FixedBytes.ofBytes 32 [1] }
    ⟨⟨.ecdsa, validators.map fun n => .ecdsa (sampleAddress n)⟩, Crypto.toySeal
      (sampleAddress proposer), .serialized [], none⟩

def genesisStore : SnapshotStore :=
  SnapshotStore.empty.add ⟨0, FixedBytes.ofBytes 32 [1], [], ⟨.ecdsa, [.ecdsa (sampleAddress 1)]⟩⟩

def epochBackend : BackendIBFT := toyBackend [⟨.poA, .ecdsa, 0, none, none⟩] 2 Nat.two_pos

def epochChain (n : Nat) : Header :=
  let voted (header : Header) (candidate : UInt8) (nonce : Nonce) :=
    { header with miner := (sampleAddress candidate).toBytes, nonce := nonce }
  if n = 0 then sealedHeader n 1 [1]
  else if n = 1 then voted (sealedHeader n 1 [1]) 2 nonceAuthVote
  else if n = 2 then sealedHeader n 1 [1, 2]
  else voted (sealedHeader n 2 [1, 2]) 1 nonceDropVote

theorem restart_agrees_iff_epochChain :
    epochBackend.forkManager.snapshotConfig.RestartAgrees epochChain 3
      (epochBackend.forkManager.snapshotConfig.processAll epochChain genesisStore 3) := by
  have hnumber : ∀ n < 4, (epochChain n).number = n := by decide +kernel
  have haccepts : ∀ n < 3, epochBackend.Accepts epochChain genesisStore (fun _ => false) (n + 1) := by
    unfold BackendIBFT.Accepts
    decide +kernel
  refine (epochBackend.restart_agrees_iff epochChain genesisStore (fun _ => false) 3 ?_ ?_ ?_
    ?_).mpr ⟨?_, ?_⟩
  · intro n _ _
    exact ⟨⟨.poA, .ecdsa, 0, none, none⟩, by simp [epochBackend, toyBackend, IBFTForks.getFork], rfl⟩
  · intro n hn
    exact hnumber n (by omega)
  · decide +kernel
  · intro n hpos hn
    obtain ⟨m, rfl⟩ := Nat.exists_eq_succ_of_ne_zero hpos.ne'
    exact haccepts m hn
  · exact ⟨⟨.ecdsa, [.ecdsa (sampleAddress 1), .ecdsa (sampleAddress 2)]⟩, by decide +kernel,
      by decide +kernel⟩
  · intro n hb hn
    change 2 ≤ n at hb
    obtain rfl : n = 2 := by omega
    obtain ⟨s', hs'⟩ := Option.isSome_iff_exists.mp (show (epochBackend.forkManager.snapshotConfig.processHeader
      (epochBackend.forkManager.snapshotConfig.processAll epochChain genesisStore 2)
      (epochChain 3)).toOption.isSome = true by decide +kernel)
    exact ⟨s', Except.toOption_eq_some_iff.mp hs'⟩

def sampleChain (n : Nat) : Header :=
  if n = 0 then sealedHeader 0 1 [1] else sealedHeader n 1 [2]

theorem sampleChain_restart_disagrees :
    sampleBackend.forkManager.snapshotConfig.initializeStore (chainOf sampleChain 0) .empty
        = .ok genesisStore
      ∧ sampleBackend.Accepts sampleChain genesisStore (fun _ => true) 1
      ∧ ¬ sampleBackend.forkManager.snapshotConfig.RestartAgrees sampleChain 1
        (sampleBackend.forkManager.snapshotConfig.processAll sampleChain genesisStore 1) := by
  refine ⟨by decide +kernel, ?_, ?_⟩
  · unfold BackendIBFT.Accepts
    decide +kernel
  · rintro ⟨s', hinit, hagree⟩
    have hrun : sampleBackend.forkManager.snapshotConfig.initializeStore (chainOf sampleChain 1) .empty
          = .ok ⟨1, [⟨1, FixedBytes.ofBytes 32 [1], [], ⟨.ecdsa, [.ecdsa (sampleAddress 2)]⟩⟩]⟩ := by
      decide +kernel
    rw [hrun] at hinit
    obtain rfl := Except.ok.inj hinit
    have hat := hagree 1 le_rfl le_rfl
    revert hat
    decide +kernel

end Nxchain
