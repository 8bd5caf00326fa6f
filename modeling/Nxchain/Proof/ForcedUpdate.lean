import Nxchain.Proof.Restart

namespace Nxchain

theorem IBFTForks.getFork_filterByType {forks : IBFTForks} {n : Nat} {fork : IBFTFork}
    (hfork : forks.getFork n = some fork) : ∃ fork', (forks.filterByType fork.type).getFork n = some fork' := by
  unfold getFork at hfork ⊢
  have hcovers := List.find?_some hfork
  rw [← Option.isSome_iff_exists, List.find?_isSome]
  refine ⟨fork, ?_, hcovers⟩
  have hmem := List.mem_of_find?_eq_some hfork
  rw [List.mem_reverse] at hmem ⊢
  exact List.mem_filter.mpr ⟨hmem, by simp⟩

theorem IBFTForks.updateValidatorsFork_spec {forks : IBFTForks} {n : Nat} {fork : IBFTFork}
    (hfork : forks.updateValidatorsFork n = some fork) :
    fork.fromHeight = n ∧ ∃ validators, fork.validators = some validators := by
  have hspec := List.find?_some hfork
  simp only [Bool.and_eq_true, decide_eq_true_eq, Option.isSome_iff_exists] at hspec
  exact ⟨hspec.2, hspec.1⟩

namespace SnapshotConfig

variable {config : SnapshotConfig} {headers : Nat → Header}

def forcedTallies (config : SnapshotConfig) (headers : Nat → Header)
    (forced : Nat → Option Validators) (t : Tally) : Nat → Tally
  | 0 => t
  | n + 1 =>
    match forced (n + 1) with
    | some validators => ⟨validators, []⟩
    | none => config.advance (forcedTallies config headers forced t n) (headers (n + 1))

theorem forcedTallies_eq_tallies {forced : Nat → Option Validators} {t : Tally} {b h : Nat}
    (hforced : ∀ n, b < n → n ≤ h → forced n = none) (hbh : b ≤ h) :
    config.forcedTallies headers forced t h
      = config.tallies headers b (config.forcedTallies headers forced t b) h := by
  induction h, hbh using Nat.le_induction with
  | base => rw [tallies_begin]
  | succ h hbh ih =>
    rw [forcedTallies, hforced (h + 1) (by omega) le_rfl, tallies, if_neg (by omega)]
    simp only [ih fun n hb hn => hforced n hb (by omega)]

structure VotesIdle (config : SnapshotConfig) (headers : Nat → Header) (b : Nat) (t : Tally)
    (head : Nat) : Prop where
  replays : config.Replays headers b t head
  set_eq : ∀ h, b ≤ h → h ≤ head →
    (config.tallies headers b t h).set = (config.tallies headers b ⟨t.set, []⟩ h).set

theorem step_epoch_eq {t t' : Tally} {header : Header} (hstep : config.step t header = .ok t')
    (hepoch : header.number % config.epochSize = 0) : t' = ⟨t.set, []⟩ := by
  obtain ⟨signer, _, hstep⟩ := Except.bind_eq_ok_iff.mp hstep
  obtain ⟨proposer, _, hstep⟩ := Except.bind_eq_ok_iff.mp hstep
  simp only [Except.ite_throw_bind_eq_ok_iff, hepoch] at hstep
  exact (Except.ok.inj hstep.2).symm

end SnapshotConfig

namespace BackendIBFT

variable (i : BackendIBFT) (headers : Nat → Header)

def insertAll (s : SnapshotStore) : Nat → SnapshotStore
  | 0 => s
  | n + 1 => i.insertHeader (chainOf headers (n + 1)) (insertAll s n) (headers (n + 1))

def forcedAfter (n : Nat) : Option Validators :=
  (i.forkManager.forks.updateValidatorsFork (n + 1)).bind (·.validators)

variable {i headers}

theorem insertHeader_covers {s : SnapshotStore} {b n : Nat} {ts : Nat → Tally} {t : Tally} {fork : IBFTFork}
    (hfork : i.forkManager.forks.getFork (n + 1) = some fork) (hpoa : fork.type = .poA) (hcov : s.Covers b n ts)
    (hb : b ≤ n) (hnumber : (headers (n + 1)).number = n + 1)
    (hstep : i.config.step (ts n) (headers (n + 1)) = .ok t) :
    (i.insertHeader (chainOf headers (n + 1)) s (headers (n + 1))).Covers
      (i.config.beginAfter b (headers (n + 1))) (n + 1)
      (Function.update ts (n + 1) (match i.forcedAfter (n + 1) with
          | some validators => ⟨validators, []⟩
          | none => t)) := by
  obtain ⟨fork', hfork'⟩ := IBFTForks.getFork_filterByType hfork
  have hspec := SnapshotConfig.processHeader_spec i.config hcov hb hnumber
  rw [hstep] at hspec
  obtain ⟨s', hrun, _, hcov'⟩ := hspec
  rw [hpoa] at hfork'
  have hprocess : (i.forkManager.getHooks (n + 1)).processHeader s (headers (n + 1)) = .ok s' := by
    simp only [Hooks.processHeader, ForkManager.getHooks, hfork', Option.map_some, hrun]
  have hbegin : i.config.beginAfter b (headers (n + 1)) ≤ n + 1 := by
    unfold SnapshotConfig.beginAfter
    split <;> omega
  unfold insertHeader forcedAfter
  simp only [hnumber, hprocess]
  cases hupdate : i.forkManager.forks.updateValidatorsFork (n + 1 + 1) with
  | none =>
    simp only [ForkManager.getHooks, hupdate, Option.bind_none]
    exact hcov'
  | some update =>
    obtain ⟨hfrom, validators, hvalidators⟩ := IBFTForks.updateValidatorsFork_spec hupdate
    have hpost : (i.forkManager.getHooks (n + 1)).postInsertBlock (chainOf headers (n + 1)) s' (headers (n + 1))
          = .ok (s'.putByNumber ⟨n + 1, (headers (n + 1)).hash, [], validators⟩) := by
      simp [Hooks.postInsertBlock, ForkManager.getHooks, hupdate, hvalidators, hfrom, hnumber,
        SnapshotConfig.updateValidatorSet, chainOf]
    simp only [hpost, Option.bind_some, hvalidators]
    have hput := hcov'.putByNumber hbegin
      (show (Snapshot.mk (n + 1) (headers (n + 1)).hash [] validators).number = n + 1 from rfl)
    rwa [Function.update_idem] at hput

theorem insertAll_covers {s : SnapshotStore} {t : Tally} {head : Nat}
    (hpoa : ∀ n, 0 < n → n ≤ head → ∃ fork, i.forkManager.forks.getFork n = some fork ∧ fork.type = .poA)
    (hnumber : ∀ n, n ≤ head → (headers n).number = n)
    (hprocessed : ∀ n, n < head → ∃ s', i.config.processHeader (i.insertAll headers s n) (headers (n + 1)) = .ok s')
    (hcov : s.Covers 0 0 (i.config.forcedTallies headers i.forcedAfter t)) (n : Nat) (hn : n ≤ head) :
    (i.insertAll headers s n).Covers (i.config.epochBegin n) n
      (i.config.forcedTallies headers i.forcedAfter t) := by
  induction n with
  | zero =>
    rw [SnapshotConfig.epochBegin, Nat.zero_div, Nat.zero_mul]
    exact hcov
  | succ n ih =>
    have hle := i.config.epochBegin_le n
    obtain ⟨t', hstep⟩ := (processHeader_ok_iff (ih (by omega)) hle (hnumber (n + 1) hn)).mp (hprocessed n hn)
    obtain ⟨fork, hfork, htype⟩ := hpoa (n + 1) n.succ_pos hn
    have hcov' := insertHeader_covers hfork htype (ih (by omega)) hle (hnumber (n + 1) hn) hstep
    have hbegin : i.config.beginAfter (i.config.epochBegin n) (headers (n + 1)) = i.config.epochBegin (n + 1) := by
      rw [SnapshotConfig.beginAfter, hnumber (n + 1) hn, SnapshotConfig.epochBegin_succ]
    rw [hbegin] at hcov'
    apply hcov'.update_eq
    rw [SnapshotConfig.forcedTallies, SnapshotConfig.advance, hstep]

structure Runs (i : BackendIBFT) (headers : Nat → Header) (s : SnapshotStore) (head : Nat) :
    Prop where
  poA : ∀ n, 0 < n → n ≤ head →
    ∃ fork, i.forkManager.forks.getFork n = some fork ∧ fork.type = .poA
  number : ∀ n, n ≤ head → (headers n).number = n
  genesis : i.forkManager.snapshotConfig.initializeStore (chainOf headers 0) .empty = .ok s
  processed : ∀ n, n < head → ∃ s', i.forkManager.snapshotConfig.processHeader
    (i.insertAll headers s n) (headers (n + 1)) = .ok s'
  extra : ∀ n, n < head → ∃ validators,
    i.forkManager.getValidators (i.insertAll headers s n) (n + 1) = .ok validators
      ∧ i.forkManager.snapshotConfig.extraValidators (headers (n + 1)) = .ok validators

namespace Runs

variable {s : SnapshotStore} {head : Nat}

theorem exists_genesis (hrun : i.Runs headers s head) :
    ∃ validators, i.config.extraValidators (headers 0) = .ok validators
      ∧ ∀ ts : Nat → Tally, ts 0 = ⟨validators, []⟩ → s.Covers 0 0 ts := by
  have hzero := hrun.number 0 head.zero_le
  have hgenesis := hrun.genesis
  rw [SnapshotConfig.initializeStore_genesis hzero, SnapshotConfig.addHeaderSnap_eq, hzero] at hgenesis
  obtain ⟨validators, hextra, rfl⟩ := Except.map_eq_ok_iff.mp hgenesis
  refine ⟨validators, hextra, ?_⟩
  intro ts hts
  exact .of_last (SnapshotConfig.add_empty_sound ⟨0, (headers 0).hash, [], validators⟩) hts.symm

variable {ts : Nat → Tally}
  (hcov : ∀ n, n ≤ head → (i.insertAll headers s n).Covers
    (i.forkManager.snapshotConfig.epochBegin n) n ts)

include hcov

theorem exists_step (hrun : i.Runs headers s head) {n : Nat} (hn : n < head) :
    ∃ t, i.config.step (ts n) (headers (n + 1)) = .ok t :=
  (processHeader_ok_iff (hcov n hn.le) (i.config.epochBegin_le n) (hrun.number (n + 1) hn)).mp (hrun.processed n hn)

theorem extraValidators_eq (hrun : i.Runs headers s head) {n : Nat} (hn : n < head) :
    i.config.extraValidators (headers (n + 1)) = .ok (ts n).set := by
  obtain ⟨validators, hvalidators, hextra⟩ := hrun.extra n hn
  obtain ⟨fork, hfork, htype⟩ := hrun.poA (n + 1) n.succ_pos hn
  rw [ForkManager.getValidators, hfork] at hvalidators
  simp only [htype, pred64_succ, (hcov n hn.le).getValidatorsByHeight
    (i.config.epochBegin_le n) le_rfl] at hvalidators
  rw [hextra, Except.ok.inj hvalidators]

theorem step_epochBegin (hrun : i.Runs headers s head) {n : Nat} (hbegin : i.config.epochBegin head = n + 1) :
    i.config.step (ts n) (headers (n + 1)) = .ok ⟨(ts n).set, []⟩ := by
  have hn : n + 1 ≤ head := hbegin ▸ i.config.epochBegin_le head
  obtain ⟨t, hstep⟩ := exists_step hcov hrun hn
  have hepoch : (headers (n + 1)).number % i.config.epochSize = 0 := by
    rw [hrun.number (n + 1) hn, ← hbegin]
    exact Nat.mul_mod_left _ _
  rw [hstep, SnapshotConfig.step_epoch_eq hstep hepoch]

omit hcov

theorem restart_agrees (hrun : i.Runs headers s head) (hpos : 0 < i.config.epochBegin head)
    (hforced : ∀ n, i.config.epochBegin head ≤ n → n ≤ head → i.forcedAfter n = none) :
    i.config.RestartAgrees headers head (i.insertAll headers s head) := by
  obtain ⟨validators, _, hstart⟩ := hrun.exists_genesis
  have hcov := insertAll_covers hrun.poA hrun.number hrun.processed
    (hstart (i.config.forcedTallies headers i.forcedAfter ⟨validators, []⟩) rfl)
  have hle := i.config.epochBegin_le head
  have hfollows : ∀ h, i.config.epochBegin head ≤ h → h ≤ head →
      i.config.forcedTallies headers i.forcedAfter ⟨validators, []⟩ h = i.config.tallies headers
          (i.config.epochBegin head) _ h :=
    fun h hb hh => SnapshotConfig.forcedTallies_eq_tallies
      (fun n hn hnh => hforced n hn.le (hnh.trans hh)) hb
  obtain ⟨n, hbegin⟩ := Nat.exists_eq_succ_of_ne_zero hpos.ne'
  have hnone := hforced (n + 1) hbegin.le (by omega)
  have hstep := step_epochBegin hcov hrun hbegin
  rw [SnapshotConfig.restartAgrees_iff_of_extra hrun.number _ hfollows]
  · refine ⟨?_, fun h hb hh => (hcov head le_rfl).getValidatorsByHeight hb hh⟩
    intro k hb hk
    rw [← hfollows k hb hk.le]
    exact exists_step hcov hrun hk
  · simp only [hbegin, SnapshotConfig.forcedTallies, hnone, SnapshotConfig.advance, hstep]
    exact extraValidators_eq hcov hrun (by omega)
  · simp only [hbegin, SnapshotConfig.forcedTallies, hnone, SnapshotConfig.advance, hstep]

theorem restart_agrees_iff_tallies (hrun : i.Runs headers s head) {validators : Validators}
    (hextra : i.config.extraValidators (headers 0) = .ok validators)
    (hcov : ∀ n, n ≤ head → (i.insertAll headers s n).Covers (i.config.epochBegin n) n
      (i.config.forcedTallies headers i.forcedAfter ⟨validators, []⟩))
    (hforced : ∀ n, 0 < n → n < i.config.epochBegin head → i.forcedAfter n = none) :
    i.config.RestartAgrees headers head (i.insertAll headers s head)
      ↔ ∀ h, i.config.epochBegin head ≤ h → h ≤ head →
        (h < head → ∃ t, i.config.step (i.config.tallies headers 0 ⟨validators, []⟩ h)
          (headers (h + 1)) = .ok t)
        ∧ (i.config.forcedTallies headers i.forcedAfter ⟨validators, []⟩ h).set
          = (i.config.tallies headers 0 ⟨validators, []⟩ h).set := by
  have hle := i.config.epochBegin_le head
  have hfollows : ∀ h, i.config.epochBegin head ≤ h → h ≤ head →
      i.config.tallies headers 0 ⟨validators, []⟩ h
        = i.config.tallies headers (i.config.epochBegin head) _ h :=
    fun h hb _ => SnapshotConfig.tallies_eq_of_meet (Nat.zero_le _) rfl hb
  have hbegin : (i.config.tallies headers 0 ⟨validators, []⟩ (i.config.epochBegin head)).votes = []
      ∧ i.config.extraValidators (headers (i.config.epochBegin head))
        = .ok (i.config.tallies headers 0 ⟨validators, []⟩ (i.config.epochBegin head)).set := by
    cases hb : i.config.epochBegin head with
    | zero => exact ⟨rfl, hextra⟩
    | succ n =>
      have hsame : i.config.forcedTallies headers i.forcedAfter ⟨validators, []⟩ n
          = i.config.tallies headers 0 ⟨validators, []⟩ n :=
        SnapshotConfig.forcedTallies_eq_tallies (fun k hpos hk => hforced k hpos (by omega)) n.zero_le
      have hstep := step_epochBegin hcov hrun hb
      rw [hsame] at hstep
      rw [SnapshotConfig.tallies_succ_ok n.zero_le hstep, ← hsame]
      exact ⟨rfl, extraValidators_eq hcov hrun (by omega)⟩
  rw [SnapshotConfig.restartAgrees_iff_of_extra hrun.number hbegin.1 hfollows hbegin.2]
  constructor
  · rintro ⟨hreplays, hsets⟩ h hb hh
    have hset := hsets h hb hh
    rw [(hcov head le_rfl).getValidatorsByHeight hb hh] at hset
    refine ⟨fun hlt => ?_, Except.ok.inj hset⟩
    rw [hfollows h hb hh]
    exact hreplays h hb hlt
  · intro hall
    refine ⟨fun h hb hlt => ?_, fun h hb hh => ?_⟩
    · rw [← hfollows h hb hlt.le]
      exact (hall h hb hlt.le).1 hlt
    · rw [(hcov head le_rfl).getValidatorsByHeight hb hh, (hall h hb hh).2]

theorem exists_processed (hrun : i.Runs headers s head) {ts : Nat → Tally} {n : Nat}
    (hcov : (i.insertAll headers s n).Covers (i.config.epochBegin n) n ts) (hn : n < head) {t : Tally}
    (hstep : i.config.step (ts n) (headers (n + 1)) = .ok t) :
    ∃ s' last, i.config.processHeader (i.insertAll headers s n) (headers (n + 1)) = .ok s'
      ∧ s'.find (n + 1) = some last ∧ last.tally = t := by
  have hspec := SnapshotConfig.processHeader_spec i.config hcov (i.config.epochBegin_le n)
    (hrun.number (n + 1) hn)
  rw [hstep] at hspec
  obtain ⟨s', hprocess, _, hcov'⟩ := hspec
  have hbegin : i.config.beginAfter (i.config.epochBegin n) (headers (n + 1)) ≤ n + 1 := by
    have hle := i.config.epochBegin_le n
    rw [SnapshotConfig.beginAfter, hrun.number (n + 1) hn]
    split <;> omega
  have hfind := hcov'.find (n + 1) hbegin le_rfl
  rw [Function.update_self] at hfind
  obtain ⟨last, hlast, htally⟩ := Option.map_eq_some_iff.mp hfind
  exact ⟨s', last, hprocess, hlast, htally⟩

end Runs

theorem restart_after_update_agrees_iff (i : BackendIBFT) (headers : Nat → Header) (s : SnapshotStore)
    (head F : Nat) (hF : 2 ≤ F) (hrun : i.Runs headers s head)
    (honly : ∀ n, 2 ≤ n → n ≤ head + 1 → n ≠ F → i.forkManager.forks.updateValidatorsFork n = none) :
    i.forkManager.snapshotConfig.RestartAgrees headers head (i.insertAll headers s head)
      ↔ F ≤ i.forkManager.snapshotConfig.epochBegin head
        ∨ ∀ validators, i.forcedAfter (F - 1) = some validators → F - 1 ≤ head →
          ∃ s' last, i.forkManager.snapshotConfig.processHeader (i.insertAll headers s (F - 2))
              (headers (F - 1)) = .ok s'
            ∧ s'.find (F - 1) = some last ∧ last.set = validators
            ∧ i.forkManager.snapshotConfig.VotesIdle headers (F - 1) last.tally head := by
  obtain ⟨f, rfl⟩ := Nat.exists_eq_add_of_le' hF
  rw [show f + 2 - 1 = f + 1 from rfl, Nat.add_sub_cancel]
  have hforced : ∀ n, 0 < n → n ≤ head → n ≠ f + 1 → i.forcedAfter n = none := by
    intro n hpos hn hne
    rw [forcedAfter, honly (n + 1) (by omega) (by omega) (by omega), Option.bind_none]
  have hle := i.config.epochBegin_le head
  change i.config.RestartAgrees headers head _ ↔ f + 2 ≤ i.config.epochBegin head ∨ _
  by_cases hbefore : f + 2 ≤ i.config.epochBegin head
  · simp only [hbefore, true_or, iff_true]
    apply hrun.restart_agrees (by omega)
    intro n hb hn
    exact hforced n (by omega) hn (by omega)
  simp only [hbefore, false_or]
  obtain ⟨genesis, hextra, hstart⟩ := hrun.exists_genesis
  have hcov := insertAll_covers hrun.poA hrun.number hrun.processed
    (hstart (i.config.forcedTallies headers i.forcedAfter ⟨genesis, []⟩) rfl)
  rw [hrun.restart_agrees_iff_tallies hextra hcov
    fun n hpos hn => hforced n hpos (by omega) (by omega)]
  -- the two timelines are the same below the update
  have hsame : ∀ h, h ≤ head → (h < f + 1 ∨ i.forcedAfter (f + 1) = none) →
      i.config.forcedTallies headers i.forcedAfter ⟨genesis, []⟩ h
        = i.config.tallies headers 0 ⟨genesis, []⟩ h := by
    intro h hh hbelow
    refine SnapshotConfig.forcedTallies_eq_tallies (fun n hpos hn => ?_) h.zero_le
    by_cases hn' : n = f + 1
    · exact hbelow.elim (fun hlt => absurd hn' (by omega)) (fun hnone => hn' ▸ hnone)
    · exact hforced n hpos (by omega) hn'
  have hagree : ∀ h, h ≤ head → (h < f + 1 ∨ i.forcedAfter (f + 1) = none) →
      (h < head → ∃ t, i.config.step (i.config.tallies headers 0 ⟨genesis, []⟩ h)
          (headers (h + 1)) = .ok t)
        ∧ (i.config.forcedTallies headers i.forcedAfter ⟨genesis, []⟩ h).set
          = (i.config.tallies headers 0 ⟨genesis, []⟩ h).set := by
    intro h hh hbelow
    rw [← hsame h hh hbelow]
    exact ⟨fun hlt => Runs.exists_step hcov hrun hlt, rfl⟩
  cases hupdate : i.forcedAfter (f + 1) with
  | none => exact iff_of_true (fun h _ hh => hagree h hh (.inr hupdate)) nofun
  | some validators =>
    by_cases hreached : f + 1 ≤ head
    · obtain ⟨t, hstep⟩ := Runs.exists_step hcov hrun hreached
      obtain ⟨s', last, hprocess, hlast, rfl⟩ := hrun.exists_processed (hcov f (by omega)) hreached hstep
      rw [hsame f (by omega) (.inl f.lt_succ_self)] at hstep
      have hreplayed : ∀ h, f + 1 ≤ h → i.config.tallies headers 0 ⟨genesis, []⟩ h
          = i.config.tallies headers (f + 1) last.tally h :=
        fun h hfh => SnapshotConfig.tallies_eq_of_meet (Nat.zero_le _)
          (SnapshotConfig.tallies_succ_ok f.zero_le hstep) hfh
      have hupdated : ∀ h, f + 1 ≤ h → h ≤ head →
          i.config.forcedTallies headers i.forcedAfter ⟨genesis, []⟩ h
            = i.config.tallies headers (f + 1) ⟨validators, []⟩ h := by
        intro h hfh hh
        rw [SnapshotConfig.forcedTallies_eq_tallies
          (fun n hn hnh => hforced n (by omega) (by omega) (by omega)) hfh]
        simp only [SnapshotConfig.forcedTallies, hupdate]
      constructor
      · rintro hall _ ⟨⟩ -
        have hset : last.set = validators := by
          have hat := (hall (f + 1) (by omega) hreached).2
          rw [hreplayed _ le_rfl, hupdated _ le_rfl hreached, SnapshotConfig.tallies_begin,
            SnapshotConfig.tallies_begin] at hat
          exact hat.symm
        refine ⟨s', last, hprocess, hlast, hset, fun h hfh hlt => ?_, fun h hfh hh => ?_⟩
        · rw [← hreplayed h hfh]
          exact (hall h (by omega) hlt.le).1 hlt
        · rw [← hreplayed h hfh, show last.tally.set = validators from hset, ← hupdated h hfh hh]
          exact (hall h (by omega) hh).2.symm
      · intro hall h hb hh
        by_cases hfh : f + 1 ≤ h
        · obtain ⟨s'', last', hprocess', hlast', hset, hidle⟩ := hall validators rfl hreached
          obtain rfl := Except.ok.inj (hprocess.symm.trans hprocess')
          obtain rfl := Option.some.inj (hlast.symm.trans hlast')
          rw [hreplayed h hfh, hupdated h hfh hh, hidle.set_eq h hfh hh, ← hset]
          exact ⟨fun hlt => hidle.replays h hfh hlt, rfl⟩
        · exact hagree h hh (.inl (by omega))
    · exact iff_of_true (fun h _ hh => hagree h hh (.inl (by omega)))
        fun _ _ hle => absurd hle hreached

end BackendIBFT

def updateBackend (long : Bool) : BackendIBFT :=
  toyBackend [⟨.poA, .ecdsa, 0, some 1, none⟩,
    ⟨.poA, .ecdsa, 2, none, some ⟨.ecdsa, [.ecdsa (sampleAddress 2)]⟩⟩]
    (if long then 10 else 3) (by cases long <;> decide)

def updateChain (n : Nat) : Header :=
  if n < 2 then sealedHeader n 1 [1] else sealedHeader n 2 [2]

theorem updateChain_runs (long : Bool) : (updateBackend long).Runs updateChain genesisStore 3 := by
  have hpoA : ∀ n, n < 4 → 0 < n → ((updateBackend long).forkManager.forks.getFork n).map (·.type) = some .poA := by
    cases long <;> decide +kernel
  have hprocessed : ∀ n, n < 3 → ((updateBackend long).forkManager.snapshotConfig.processHeader
      ((updateBackend long).insertAll updateChain genesisStore n) (updateChain (n + 1))).toOption.isSome := by
    cases long <;> decide +kernel
  have hextra : ∀ n, n < 3 → (updateBackend long).forkManager.getValidators
        ((updateBackend long).insertAll updateChain genesisStore n) (n + 1)
          = .ok ⟨.ecdsa, [.ecdsa (sampleAddress (if n = 0 then 1 else 2))]⟩
      ∧ (updateBackend long).forkManager.snapshotConfig.extraValidators (updateChain (n + 1))
          = .ok ⟨.ecdsa, [.ecdsa (sampleAddress (if n = 0 then 1 else 2))]⟩ := by
    cases long <;> decide +kernel
  refine ⟨?_, ?_, ?_, ?_, fun n hn => ⟨_, hextra n hn⟩⟩
  · intro n hpos hn
    exact Option.map_eq_some_iff.mp (hpoA n (by omega) hpos)
  · intro n _
    unfold updateChain
    split <;> rfl
  · cases long <;> decide +kernel
  · intro n hn
    have hsome := hprocessed n hn
    cases hrun : (updateBackend long).forkManager.snapshotConfig.processHeader
        ((updateBackend long).insertAll updateChain genesisStore n) (updateChain (n + 1)) with
    | error e =>
      rw [hrun] at hsome
      cases hsome
    | ok s' => exact ⟨s', rfl⟩

theorem restart_after_update_agrees_iff_updateChain :
    (updateBackend false).forkManager.snapshotConfig.RestartAgrees updateChain 3
      ((updateBackend false).insertAll updateChain genesisStore 3) := by
  have honly : ∀ n, n < 5 → 2 ≤ n → n ≠ 2 →
      (updateBackend false).forkManager.forks.updateValidatorsFork n = none := by
    decide +kernel
  apply ((updateBackend false).restart_after_update_agrees_iff updateChain genesisStore 3 2 le_rfl
    (updateChain_runs false) (fun n hpos hn hne => honly n (by omega) hpos hne)).mpr
  left
  decide +kernel

theorem updateChain_restart_fails :
    (updateBackend true).Runs updateChain genesisStore 3
      ∧ (updateBackend true).forkManager.forks.updateValidatorsFork 2
        = some ⟨.poA, .ecdsa, 2, none, some ⟨.ecdsa, [.ecdsa (sampleAddress 2)]⟩⟩
      ∧ (updateBackend true).forkManager.snapshotConfig.initializeStore (chainOf updateChain 3) .empty
        = .error (.error .unauthorizedProposer) :=
  ⟨updateChain_runs true, by decide +kernel, by decide +kernel⟩

end Nxchain
