import Nxchain.Proof.SnapshotStore

namespace Nxchain

structure Tally where
  set : Validators
  votes : List Vote
deriving DecidableEq

def Snapshot.tally (s : Snapshot) : Tally := ⟨s.set, s.votes⟩

def SnapshotConfig.step (config : SnapshotConfig) (t : Tally) (header : Header) :
    Except (Fault SnapshotError) Tally := do
  let signer ← config.signerAt header.number
  let proposer ← (signer.ecrecoverFromHeader header).mapError .ofSigner
  if !t.set.includes proposer then
    throw (.error .unauthorizedProposer)
  if header.number % config.epochSize = 0 then
    return ⟨t.set, []⟩
  if header.miner = zeroAddress.toBytes then
    return t
  let snap ← (processVote config.codec ⟨0, zeroHash, t.votes, t.set⟩ header signer.type
    proposer).mapError .error
  return snap.tally

theorem Vote.equal_iff {v w : Vote} : v.equal w = true ↔ v = w := by
  cases v
  cases w
  simp [Vote.equal, and_assoc]

theorem all_zip_eq_iff {α : Type} {eq : α → α → Bool} (heq : ∀ {x y}, eq x y = true ↔ x = y) {xs ys : List α}
    (hlen : xs.length = ys.length) : (xs.zip ys).all (fun p => eq p.1 p.2) = true ↔ xs = ys := by
  induction xs generalizing ys with
  | nil => simp [List.eq_nil_of_length_eq_zero hlen.symm]
  | cons x xs ih =>
    cases ys with
    | nil => simp at hlen
    | cons y ys =>
      rw [List.zip_cons_cons, List.all_cons, Bool.and_eq_true, heq, ih (Nat.succ.inj hlen), List.cons.injEq]

theorem Validators.equal_iff {s ss : Validators} : s.equal ss = true ↔ s = ss := by
  cases s
  cases ss
  unfold equal len
  simp only [Bool.and_eq_true, decide_eq_true_eq, mk.injEq]
  constructor
  · rintro ⟨⟨htype, hlen⟩, hall⟩
    exact ⟨htype, (all_zip_eq_iff Validator.equal_iff hlen).mp hall⟩
  · rintro ⟨rfl, rfl⟩
    exact ⟨⟨rfl, rfl⟩, (all_zip_eq_iff Validator.equal_iff rfl).mpr rfl⟩

theorem Snapshot.equal_iff {s ss : Snapshot} : s.equal ss = true ↔ s.tally = ss.tally := by
  simp only [equal, Bool.and_eq_true, decide_eq_true_eq, Validators.equal_iff, tally, Tally.mk.injEq]
  constructor
  · rintro ⟨⟨hlen, hall⟩, hset⟩
    exact ⟨hset, (all_zip_eq_iff Vote.equal_iff hlen).mp hall⟩
  · rintro ⟨hset, hvotes⟩
    rw [hvotes]
    exact ⟨⟨rfl, (all_zip_eq_iff Vote.equal_iff rfl).mpr rfl⟩, hset⟩

structure SnapshotStore.Covers (s : SnapshotStore) (b n : Nat) (ts : Nat → Tally) : Prop where
  sound : ∃ last, s.Sound n last
  oldest : ∃ x ∈ s.list, x.number ≤ b
  find : ∀ h, b ≤ h → h ≤ n → (s.find h).map Snapshot.tally = some (ts h)

namespace SnapshotStore

variable {s s' : SnapshotStore} {b n : Nat} {ts : Nat → Tally} {snap : Snapshot}

theorem find_congr (hlist : s'.list = s.list) (h : Nat) : s'.find h = s.find h := by
  cases s
  cases hlist
  rfl

section

variable (hcov : s.Covers b n ts)

include hcov

theorem Covers.of_list_eq (hlist : s'.list = s.list) : s'.Covers b n ts := by
  obtain ⟨⟨last, hsound⟩, holdest, hfind⟩ := hcov
  refine ⟨⟨last, hlist ▸ hsound.increasing, hlist ▸ hsound.last_eq, hsound.last_le⟩, hlist ▸ holdest, ?_⟩
  intro h hb hn
  rw [find_congr hlist, hfind h hb hn]

theorem Covers.updateLastBlock (num : Nat) : (s.updateLastBlock num).Covers b n ts := hcov.of_list_eq rfl

theorem Covers.exists_last (hb : b ≤ n) : ∃ last, s.Sound n last ∧ last.tally = ts n := by
  obtain ⟨last, hsound⟩ := hcov.sound
  refine ⟨last, hsound, ?_⟩
  have hfind := hcov.find n hb le_rfl
  rw [hsound.find_eq] at hfind
  exact Option.some.inj hfind

theorem Covers.keep (hb : b ≤ n) : s.Covers b (n + 1) (Function.update ts (n + 1) (ts n)) := by
  obtain ⟨last, hsound, htally⟩ := hcov.exists_last hb
  refine ⟨⟨last, hsound.mono (Nat.le_succ n)⟩, hcov.oldest, ?_⟩
  intro h hbh hhn
  rcases hhn.eq_or_lt with rfl | hlt
  · rw [(hsound.mono (Nat.le_succ n)).find_eq, Option.map_some, htally, Function.update_self]
  · rw [hcov.find h hbh (by omega), Function.update_of_ne (by omega)]

theorem Covers.add (hb : b ≤ n) (hnumber : snap.number = n + 1) :
    (s.add snap).Covers b (n + 1) (Function.update ts (n + 1) snap.tally) := by
  obtain ⟨last, hsound, htally⟩ := hcov.exists_last hb
  have hlt : n < snap.number := by omega
  refine ⟨⟨snap, hnumber ▸ hsound.add hlt⟩, ?_, ?_⟩
  · obtain ⟨x, hx, hxb⟩ := hcov.oldest
    refine ⟨x, ?_, hxb⟩
    rw [hsound.list_add hlt]
    exact List.mem_append_left _ hx
  · intro h hbh hhn
    rcases hhn.eq_or_lt with rfl | hh
    · rw [← hnumber, (hsound.add hlt).find_eq, Option.map_some, Function.update_self]
    · obtain ⟨x, hx, hxb⟩ := hcov.oldest
      rw [hsound.find_add hlt (by omega) ⟨x, hx, hxb.trans hbh⟩, hcov.find h hbh (by omega),
        Function.update_of_ne (by omega)]

end

theorem Covers.of_last {last : Snapshot} (hsound : s.Sound n last) (htally : last.tally = ts n) :
    s.Covers n n ts := by
  refine ⟨⟨last, hsound⟩, ⟨last, List.mem_of_getLast? hsound.last_eq, hsound.last_le⟩, ?_⟩
  intro h hb hn
  obtain rfl : h = n := by omega
  rw [hsound.find_eq, Option.map_some, htally]

theorem Covers.putByNumber (hcov : s.Covers b n ts) (hb : b ≤ n) (hnumber : snap.number = n) :
    (s.putByNumber snap).Covers b n (Function.update ts n snap.tally) := by
  obtain ⟨last, hsound, _⟩ := hcov.exists_last hb
  obtain ⟨hsound', hmem, hkeep⟩ := hsound.putByNumber hnumber
  obtain ⟨x, hx, hxb⟩ := hcov.oldest
  refine ⟨⟨snap, hsound'⟩, ?_, ?_⟩
  · rcases hb.eq_or_lt with rfl | hlt
    · exact ⟨snap, List.mem_of_getLast? hsound'.last_eq, hsound'.last_le⟩
    · exact ⟨x, hmem x hx (by omega), hxb⟩
  · intro h hbh hhn
    rcases hhn.eq_or_lt with rfl | hlt
    · rw [hsound'.find_eq, Option.map_some, Function.update_self]
    · rw [hkeep h hlt ⟨x, hx, hxb.trans hbh⟩, hcov.find h hbh hhn, Function.update_of_ne (by omega)]

end SnapshotStore

namespace SnapshotConfig

variable {s : SnapshotStore} {b n : Nat} {ts : Nat → Tally}
  {header : Header}

theorem saveSnapshotIfChanged_covers (hcov : s.Covers b n ts) (hb : b ≤ n) (hnumber : header.number = n + 1)
    {parentSnap : Snapshot} (hparent : parentSnap.tally = ts n) (snap : Snapshot) :
    (saveSnapshotIfChanged s parentSnap snap header).Covers b (n + 1)
      (Function.update ts (n + 1) snap.tally) := by
  unfold saveSnapshotIfChanged
  split
  · rename_i hequal
    rw [Snapshot.equal_iff.mp hequal, hparent]
    exact hcov.keep hb
  · exact hcov.add hb hnumber

def beginAfter (config : SnapshotConfig) (b : Nat) (header : Header) : Nat :=
  if header.number % config.epochSize = 0 then header.number else b

theorem removeLowerSnapshots_sound (config : SnapshotConfig) {last : Snapshot} (hsound : s.Sound n last)
    (height : Nat) : ∃ s', config.removeLowerSnapshots s height = .ok s' ∧ s'.Sound n last := by
  unfold removeLowerSnapshots
  split
  · exact hsound.deleteLower _
  · exact ⟨s, rfl, hsound⟩

theorem processHeader_spec (config : SnapshotConfig) (hcov : s.Covers b n ts) (hb : b ≤ n)
    (hnumber : header.number = n + 1) :
    match config.step (ts n) header with
    | .error e => config.processHeader s header = .error e
    | .ok t => ∃ s', config.processHeader s header = .ok s' ∧ s'.lastNumber = n + 1
        ∧ s'.Covers (config.beginAfter b header) (n + 1) (Function.update ts (n + 1) t) := by
  obtain ⟨last, hsound, htally⟩ := hcov.exists_last hb
  have hfind : s.find (pred64 header.number) = some last := by
    rw [hnumber, pred64_succ, hsound.find_eq]
  rw [← htally]
  unfold step processHeader beginAfter
  rw [hfind]
  cases config.signerAt header.number with
  | error e => rfl
  | ok signer =>
    cases hrecover : (signer.ecrecoverFromHeader header).mapError Fault.ofSigner with
    | error e => simp [hrecover, bind, Except.bind]
    | ok proposer =>
      simp only [hrecover, bind, Except.bind, Snapshot.tally, Snapshot.copy]
      by_cases hincluded : last.set.includes proposer = true
      · simp only [hincluded]
        by_cases hepoch : header.number % config.epochSize = 0
        · simp only [hepoch]
          have hreset : (resetSnapshot s last ⟨0, zeroHash, last.votes, last.set⟩ header).Covers b
              (n + 1) (Function.update ts (n + 1) ⟨last.set, []⟩) :=
            saveSnapshotIfChanged_covers hcov hb hnumber htally _
          obtain ⟨last', hsound', htally'⟩ := hreset.exists_last (hb.trans (Nat.le_succ n))
          obtain ⟨s', hprune, hsound''⟩ := config.removeLowerSnapshots_sound hsound' header.number
          refine ⟨s'.updateLastBlock header.number, ?_, hnumber, ?_⟩
          · rw [hprune]
            rfl
          · rw [hnumber]
            exact (SnapshotStore.Covers.of_last hsound'' htally').of_list_eq rfl
        · simp only [hepoch]
          by_cases hminer : header.miner = zeroAddress.toBytes
          · simp only [hminer]
            refine ⟨s.updateLastBlock header.number, rfl, hnumber, ?_⟩
            have hkeep := hcov.keep hb
            rw [← htally] at hkeep
            exact hkeep.of_list_eq rfl
          · simp only [hminer]
            cases (processVote config.codec ⟨0, zeroHash, last.votes, last.set⟩ header
                signer.type proposer).mapError Fault.error with
            | error e => rfl
            | ok snap =>
              refine ⟨saveSnapshotIfChanged (s.updateLastBlock header.number) last snap header, rfl, ?_, ?_⟩
              · unfold saveSnapshotIfChanged
                split <;> exact hnumber
              · have hcov' : (s.updateLastBlock header.number).Covers b n ts := hcov.of_list_eq rfl
                exact saveSnapshotIfChanged_covers hcov' hb hnumber htally snap
      · simp only [hincluded]
        rfl

end SnapshotConfig

end Nxchain
