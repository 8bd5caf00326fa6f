import Nxchain.Lib.Runs
import Nxchain.Proof.Overlay

namespace Nxchain

namespace Metering

variable [Keccak]

inductive Op where
  | setStorage (addr : Address) (key value : Hash)
  | snapshot
  | revert (id : Nat)
  | endTransaction (deleteEmptyObjects : Bool)

structure Progress where
  txn : Txn
  start : Txn

def step (config : ForksInTime) (b : Progress) : Op → Progress
  | .setStorage addr key value => { b with txn := (b.txn.setStorage addr key value config).2 }
  | .snapshot => { b with txn := b.txn.takeSnapshot.2 }
  | .revert id =>
    match b.txn.revertToSnapshot (b.start.snapshots.length + id) with
    | .ok txn => { b with txn := txn }
    | .error _ => b
  | .endTransaction deleteEmptyObjects =>
    let txn := b.txn.cleanDeleteObjects deleteEmptyObjects
    { txn := txn, start := txn }

def begin (snapshot : ReadSnapshot) : Progress := ⟨Txn.newTxn snapshot, Txn.newTxn snapshot⟩

def SubtractsRefund (txn : Txn) (addr : Address) (key : Hash) : Prop :=
  txn.getCommittedState addr key ≠ txn.getState addr key
    ∧ txn.getCommittedState addr key ≠ zeroHash ∧ txn.getState addr key = zeroHash

def PerTransaction (b : Progress) : Op → Prop
  | .setStorage addr key value =>
    b.txn.getState addr key ≠ value →
      b.txn.getCommittedState addr key = b.start.getState addr key
        ∧ (SubtractsRefund b.txn addr key → 15000 ≤ b.txn.getRefund)
  | _ => True

def CleanAtStart (b : Progress) : Op → Prop
  | .setStorage addr key value =>
    b.txn.getState addr key ≠ value →
      b.start.getState addr key = b.start.getCommittedState addr key
  | _ => True

def HasRoom (b : Progress) : Op → Prop
  | .setStorage .. => b.txn.getRefund + 19200 < 2 ^ 64
  | _ => True

section Decidable

variable (b : Progress)

instance (txn : Txn) (addr : Address) (key : Hash) : Decidable (SubtractsRefund txn addr key) :=
  inferInstanceAs (Decidable (_ ∧ _ ∧ _))

instance : ∀ op, Decidable (PerTransaction b op)
  | .setStorage .. => inferInstanceAs (Decidable (_ → _ ∧ (_ → _)))
  | .snapshot | .revert _ | .endTransaction _ => .isTrue trivial

instance : ∀ op, Decidable (CleanAtStart b op)
  | .setStorage .. => inferInstanceAs (Decidable (_ → _))
  | .snapshot | .revert _ | .endTransaction _ => .isTrue trivial

instance : ∀ op, Decidable (HasRoom b op)
  | .setStorage .. => inferInstanceAs (Decidable (_ < _))
  | .snapshot | .revert _ | .endTransaction _ => .isTrue trivial

end Decidable

def meteredRefund (refund : Nat) (original current value : Hash) : Nat :=
  if original = current then
    if original ≠ zeroHash ∧ value = zeroHash then (refund + 15000) % 2 ^ 64 else refund
  else
    let refund :=
      if original ≠ zeroHash then
        if current = zeroHash then sub64 refund 15000
        else if value = zeroHash then (refund + 15000) % 2 ^ 64
        else refund
      else refund
    if original = value then
      if original = zeroHash then (refund + 19200) % 2 ^ 64 else (refund + 4200) % 2 ^ 64
    else refund

variable {config : ForksInTime} {txn start : Txn} {addr : Address} {key value : Hash}

theorem setStorage_of_eq (heq : txn.getState addr key = value) :
    (txn.setStorage addr key value config).2 = txn := by
  simp [Txn.setStorage, heq]

theorem withRefund_setState : (txn.setState addr key value).withRefund txn.getRefund =
    txn.setState addr key value := by
  have hrefund : (txn.setState addr key value).getRefund = txn.getRefund := Txn.refund_upsertAccount _ _
  rw [← hrefund]
  rfl

theorem setStorage_of_ne (histanbul : config.istanbul = true) (hne : txn.getState addr key ≠ value) :
    (txn.setStorage addr key value config).2 =
      (txn.setState addr key value).withRefund
        (meteredRefund txn.getRefund (txn.getCommittedState addr key) (txn.getState addr key) value) := by
  unfold Txn.setStorage meteredRefund
  rw [← withRefund_setState]
  generalize txn.getCommittedState addr key = original
  generalize txn.getState addr key = current at hne ⊢
  simp only [hne, if_false, histanbul, Bool.not_true, Bool.false_and, Bool.false_eq_true,
    if_true, Txn.addRefund_withRefund, Txn.subRefund_withRefund, Txn.withRefund_withRefund]
  by_cases heq : original = current
  · simp only [heq, if_true]
    by_cases hzero : current = zeroHash
    · simp only [hzero, if_true, ne_eq, not_true_eq_false, false_and, if_false]
    · by_cases hvalue : value = zeroHash
      · simp only [hzero, hvalue, if_false, if_true, ne_eq, not_false_eq_true, and_self]
      · simp only [hzero, hvalue, if_false, and_false]
  · simp only [heq]
    by_cases hzero : original = zeroHash
    · by_cases hvalue : zeroHash = value <;>
        simp only [hzero, hvalue, ne_eq, not_true_eq_false, if_false, if_true, Txn.addRefund_withRefund]
    · by_cases hcurrent : current = zeroHash <;> by_cases hvalue : original = value <;>
        by_cases hclear : value = zeroHash <;>
        simp only [hzero, hcurrent, hvalue, hclear, ne_eq, not_false_eq_true, not_true_eq_false,
          if_true, if_false, Txn.addRefund_withRefund]

omit [Keccak] in
theorem le_meteredRefund {refund : Nat} (original : Hash) {current value : Hash} (hne : current ≠ value)
    (hroom : refund + 19200 < 2 ^ 64)
    (hcovered : original ≠ current → original ≠ zeroHash → current = zeroHash → 15000 ≤ refund) :
    refund + (if original ≠ zeroHash ∧ value = zeroHash then 15000 else 0) ≤
      meteredRefund refund original current value
        + (if original ≠ zeroHash ∧ current = zeroHash then 15000 else 0) := by
  unfold meteredRefund sub64
  by_cases horiginal : original = zeroHash
  · by_cases heq : original = current
    · simp [heq, ← horiginal]
    · simp only [horiginal, ne_eq, not_true_eq_false, false_and, if_false]
      split_ifs <;> omega
  · by_cases heq : original = current
    · subst heq
      simp only [ne_eq, if_true]
      split_ifs <;> omega
    · simp only [horiginal, heq, ne_eq, not_false_eq_true, true_and, if_false]
      by_cases hcurrent : current = zeroHash
      · have hvalue : value ≠ zeroHash := fun h => hne (hcurrent.trans h.symm)
        simp only [hvalue, if_true, if_false]
        split_ifs <;> omega
      · split_ifs <;> omega

structure Rooted (start txn : Txn) : Prop where
  snapshot : txn.snapshot = start.snapshot
  root : ∀ addr object, txn.getStateObject addr = some object →
    object.account.root = (start.objectOrNew addr).account.root
  kept : ∀ addr, txn.getStateObject addr = none → start.getStateObject addr = none

theorem Rooted.refl (start : Txn) : Rooted start start where
  snapshot := rfl
  root := by
    intro addr object hobject
    rw [Txn.objectOrNew, hobject]
    rfl
  kept _ hnone := hnone

theorem Rooted.getCommittedState (hrooted : Rooted start txn) (addr : Address) (key : Hash) :
    txn.getCommittedState addr key = start.getCommittedState addr key := by
  unfold Txn.getCommittedState
  cases hobject : txn.getStateObject addr with
  | none => rw [hrooted.kept addr hobject]
  | some object =>
    have hroot := hrooted.root addr object hobject
    unfold Txn.objectOrNew at hroot
    cases hstart : start.getStateObject addr with
    | some found =>
      rw [hstart] at hroot
      simp only [hrooted.snapshot, hroot, Option.getD_some]
    | none =>
      rw [hstart] at hroot
      simp only [hroot]
      exact txn.snapshot.getStorage_empty addr key

theorem Rooted.of_sameView {txn' : Txn} (hrooted : Rooted start txn) (hsame : txn.SameView txn') :
    Rooted start txn' where
  snapshot := hsame.1.trans hrooted.snapshot
  root addr object hobject := hrooted.root addr object (hsame.getStateObject addr ▸ hobject)
  kept addr hnone := hrooted.kept addr (hsame.getStateObject addr ▸ hnone)

theorem Rooted.setState (hrooted : Rooted start txn) (addr : Address) (key value : Hash) :
    Rooted start (txn.setState addr key value) where
  snapshot := (Txn.snapshot_setState value).trans hrooted.snapshot
  root := by
    intro other object hobject
    by_cases hother : other = addr
    · subst hother
      rw [Txn.getStateObject_setState_self] at hobject
      obtain rfl := Option.some.inj hobject
      -- the object was there, or it is new and so it was at the beginning
      unfold Txn.objectOrNew
      cases hfound : txn.getStateObject other with
      | some found => exact hrooted.root other found hfound
      | none => rw [hrooted.kept other hfound]
    · rw [Txn.getStateObject_setState_ne _ hother] at hobject
      exact hrooted.root other object hobject
  kept := by
    intro other hnone
    by_cases hother : other = addr
    · subst hother
      rw [Txn.getStateObject_setState_self] at hnone
      cases hnone
    · rw [Txn.getStateObject_setState_ne _ hother] at hnone
      exact hrooted.kept other hnone

def Cleared (start txn : Txn) (slot : Address × Hash) : Prop :=
  start.getState slot.1 slot.2 ≠ zeroHash ∧ txn.getState slot.1 slot.2 = zeroHash

def Covered (start txn : Txn) : Prop :=
  ∃ slots : Finset (Address × Hash),
    (∀ slot, slot ∈ slots ↔ Cleared start txn slot) ∧ 15000 * slots.card ≤ txn.getRefund

omit [Keccak] in
theorem Covered.refl (start : Txn) : Covered start start := by
  refine ⟨∅, ?_, Nat.zero_le _⟩
  simp [Cleared]

omit [Keccak] in
theorem Covered.of_sameView {txn' : Txn} (hcovered : Covered start txn) (hsame : txn.SameView txn')
    (hrefund : txn'.getRefund = txn.getRefund) : Covered start txn' := by
  obtain ⟨slots, hslots, hle⟩ := hcovered
  refine ⟨slots, ?_, hrefund ▸ hle⟩
  intro slot
  rw [hslots, Cleared, Cleared, hsame.getState]

omit [Keccak] in
theorem Covered.subtracts_le (hcovered : Covered start txn) (addr : Address) (key : Hash)
    (hcleared : Cleared start txn (addr, key)) : 15000 ≤ txn.getRefund := by
  obtain ⟨slots, hslots, hrefund⟩ := hcovered
  have hcard : 0 < slots.card := Finset.card_pos.mpr ⟨_, (hslots _).mpr hcleared⟩
  omega

omit [Keccak] in
theorem card_update_add (slots : Finset (Address × Hash)) (slot : Address × Hash) (p : Prop) [Decidable p] :
    (if p then insert slot slots else slots.erase slot).card + (if slot ∈ slots then 1 else 0) =
      slots.card + (if p then 1 else 0) := by
  by_cases hmem : slot ∈ slots
  · have hcard := Finset.card_erase_add_one hmem
    by_cases hp : p
    · simp [hp, hmem]
    · simp only [hp, hmem, if_false, if_true]
      omega
  · by_cases hp : p
    · simp [hp, hmem]
    · simp [hp, hmem]

theorem Covered.setStorage (histanbul : config.istanbul = true) (hrooted : Rooted start txn)
    (hcovered : Covered start txn) (hne : txn.getState addr key ≠ value)
    (hclean : start.getState addr key = start.getCommittedState addr key) (hroom : txn.getRefund + 19200 < 2 ^ 64) :
    Covered start (txn.setStorage addr key value config).2 := by
  have hbound := hcovered.subtracts_le addr key
  obtain ⟨slots, hslots, hrefund⟩ := hcovered
  have horiginal : txn.getCommittedState addr key = start.getState addr key :=
    (hrooted.getCommittedState addr key).trans hclean.symm
  rw [setStorage_of_ne histanbul hne, horiginal]
  have hmeter := le_meteredRefund (start.getState addr key) hne hroom
    (fun _ hzero hcurrent => hbound ⟨hzero, hcurrent⟩)
  by_cases hzero : start.getState addr key = zeroHash
  · refine ⟨slots, ?_, ?_⟩
    · intro slot
      rw [hslots]
      refine and_congr_right fun hnonzero => ?_
      have hother : ¬ (slot.1 = addr ∧ slot.2 = key) := by
        rintro ⟨haddr, hkey⟩
        rw [haddr, hkey] at hnonzero
        exact hnonzero hzero
      change _ ↔ (txn.setState addr key value).getState slot.1 slot.2 = zeroHash
      rw [Txn.getState_setState, if_neg hother]
    · simp only [hzero] at hmeter
      rw [hzero]
      exact hrefund.trans hmeter
  · refine ⟨if value = zeroHash then insert (addr, key) slots else slots.erase (addr, key), ?_, ?_⟩
    · intro slot
      change _ ↔ _ ∧ (txn.setState addr key value).getState slot.1 slot.2 = zeroHash
      rw [Txn.getState_setState]
      by_cases hslot : slot = (addr, key)
      · subst hslot
        by_cases hvalue : value = zeroHash <;> simp [hvalue, hzero]
      · have hother : ¬ (slot.1 = addr ∧ slot.2 = key) := fun h => hslot (Prod.ext h.1 h.2)
        rw [if_neg hother]
        by_cases hvalue : value = zeroHash <;> simp [hvalue, hslot, hslots, Cleared]
    · have hcard := card_update_add slots (addr, key) (value = zeroHash)
      have hmem : (addr, key) ∈ slots ↔ txn.getState addr key = zeroHash := (hslots _).trans (and_iff_right hzero)
      simp only [hmem] at hcard
      simp only [hzero, ne_eq, not_false_eq_true, true_and] at hmeter
      change 15000 * _ ≤ meteredRefund _ _ _ _
      generalize (if value = zeroHash then _ else _ : Finset (Address × Hash)).card = count at hcard ⊢
      split_ifs at hcard hmeter <;> omega

structure InOrder (start txn : Txn) : Prop where
  rooted : Rooted start txn
  covered : Covered start txn

theorem InOrder.refl (start : Txn) : InOrder start start := ⟨Rooted.refl start, Covered.refl start⟩

theorem InOrder.of_sameView {txn' : Txn} (horder : InOrder start txn) (hsame : txn.SameView txn')
    (hrefund : txn'.getRefund = txn.getRefund) : InOrder start txn' :=
  ⟨horder.rooted.of_sameView hsame, horder.covered.of_sameView hsame hrefund⟩

structure Invariant (b : Progress) : Prop where
  current : InOrder b.start b.txn
  saved : ∀ id overlay, b.txn.snapshots[b.start.snapshots.length + id]? = some overlay →
    InOrder b.start { b.txn with overlay := overlay }
  length_le : b.start.snapshots.length ≤ b.txn.snapshots.length

theorem Invariant.of_start (txn : Txn) : Invariant ⟨txn, txn⟩ where
  current := InOrder.refl txn
  saved := by
    intro id overlay hsaved
    have hnone : txn.snapshots[txn.snapshots.length + id]? = none := List.getElem?_eq_none (Nat.le_add_right _ _)
    rw [hnone] at hsaved
    cases hsaved
  length_le := le_rfl

theorem snapshots_setStorage (txn : Txn) (addr : Address) (key value : Hash) (histanbul : config.istanbul = true) :
    (txn.setStorage addr key value config).2.snapshots = txn.snapshots
      ∧ (txn.setStorage addr key value config).2.snapshot = txn.snapshot := by
  by_cases heq : txn.getState addr key = value
  · rw [setStorage_of_eq heq]
    exact ⟨rfl, rfl⟩
  · rw [setStorage_of_ne histanbul heq]
    exact ⟨Txn.snapshots_upsertAccount _ _, Txn.snapshot_setState _⟩

theorem Rooted.setStorage (histanbul : config.istanbul = true) (hrooted : Rooted start txn) :
    Rooted start (txn.setStorage addr key value config).2 := by
  by_cases heq : txn.getState addr key = value
  · rwa [setStorage_of_eq heq]
  · rw [setStorage_of_ne histanbul heq]
    exact (hrooted.setState addr key value).of_sameView ⟨rfl, rfl⟩

variable {b : Progress} {op : Op}

theorem InOrder.setStorage (histanbul : config.istanbul = true) (horder : InOrder start txn)
    (hclean : txn.getState addr key ≠ value → start.getState addr key = start.getCommittedState addr key)
    (hroom : txn.getRefund + 19200 < 2 ^ 64) : InOrder start (txn.setStorage addr key value config).2 := by
  refine ⟨horder.rooted.setStorage histanbul, ?_⟩
  by_cases heq : txn.getState addr key = value
  · rw [setStorage_of_eq heq]
    exact horder.covered
  · exact horder.covered.setStorage histanbul horder.rooted heq (hclean heq) hroom

theorem Invariant.takeSnapshot (hinv : Invariant b) :
    Invariant { b with txn := b.txn.takeSnapshot.2 } where
  current := hinv.current.of_sameView ⟨rfl, rfl⟩ rfl
  saved := by
    intro id overlay hsaved
    by_cases hlast : b.start.snapshots.length + id < b.txn.snapshots.length
    · have hold : b.txn.snapshots[b.start.snapshots.length + id]? = some overlay := by
        rw [← hsaved]
        exact (List.getElem?_append_left hlast).symm
      exact (hinv.saved id overlay hold).of_sameView ⟨rfl, rfl⟩ rfl
    · have hnew : [b.txn.overlay][b.start.snapshots.length + id - b.txn.snapshots.length]? = some overlay := by
        rw [← hsaved]
        exact (List.getElem?_append_right (not_lt.mp hlast)).symm
      obtain rfl := List.mem_singleton.mp (List.mem_of_getElem? hnew)
      exact hinv.current.of_sameView ⟨rfl, rfl⟩ rfl
  length_le := hinv.length_le.trans (by simp [Txn.takeSnapshot])

theorem Invariant.step (histanbul : config.istanbul = true) (hinv : Invariant b) (hclean : CleanAtStart b op)
    (hroom : HasRoom b op) : Invariant (step config b op) := by
  cases op with
  | setStorage addr key value =>
    obtain ⟨hsnapshots, hsnapshot⟩ := snapshots_setStorage b.txn addr key value histanbul
    refine ⟨hinv.current.setStorage histanbul hclean hroom, ?_, ?_⟩
    · intro id overlay hsaved
      change (b.txn.setStorage addr key value config).2.snapshots[_]? = _ at hsaved
      rw [hsnapshots] at hsaved
      exact (hinv.saved id overlay hsaved).of_sameView ⟨hsnapshot, rfl⟩ rfl
    · exact hinv.length_le.trans_eq (congrArg List.length hsnapshots).symm
  | snapshot => exact hinv.takeSnapshot
  | revert id =>
    cases hsaved : b.txn.snapshots[b.start.snapshots.length + id]? with
    | none =>
      simp only [Metering.step, Txn.revertToSnapshot, hsaved]
      exact hinv
    | some overlay =>
      simp only [Metering.step, Txn.revertToSnapshot, hsaved]
      refine ⟨hinv.saved id overlay hsaved, ?_, hinv.length_le⟩
      intro id' overlay' hsaved'
      exact (hinv.saved id' overlay' hsaved').of_sameView ⟨rfl, rfl⟩ rfl
  | endTransaction deleteEmptyObjects => exact Invariant.of_start _

theorem perTransaction_iff (hinv : Invariant b) : PerTransaction b op ↔ CleanAtStart b op := by
  cases op with
  | setStorage addr key value =>
    refine forall_congr' fun _ => ?_
    rw [hinv.current.rooted.getCommittedState]
    constructor
    · rintro ⟨hcommitted, _⟩
      exact hcommitted.symm
    · intro hclean
      refine ⟨hclean.symm, ?_⟩
      rintro ⟨_, hnonzero, hzero⟩
      rw [hinv.current.rooted.getCommittedState, ← hclean] at hnonzero
      exact hinv.current.covered.subtracts_le _ _ ⟨hnonzero, hzero⟩
  | snapshot | revert id | endTransaction deleteEmptyObjects => exact Iff.rfl

theorem metering_perTransaction_iff (histanbul : config.istanbul = true) (snapshot : ReadSnapshot) (ops : List Op) :
    Runs.Along (step config) (fun b op => PerTransaction b op ∧ HasRoom b op) (begin snapshot) ops ↔
      Runs.Along (step config) (fun b op => CleanAtStart b op ∧ HasRoom b op) (begin snapshot) ops :=
  Runs.along_iff Invariant
    (fun _ _ hinv => and_congr_left fun _ => perTransaction_iff hinv)
    (fun _ _ hinv hstep =>
      hinv.step histanbul ((perTransaction_iff hinv).mp hstep.1) hstep.2)
    (Invariant.of_start _) ops

end Metering

namespace Metering

section Sample

local instance : Keccak := sampleKeccak

def slotSnapshot : ReadSnapshot where
  getStorage _ root key := if root ≠ emptyStateHash ∧ key = word 1 then word 7 else zeroHash
  getAccount addr :=
    if addr = FixedBytes.ofBytes 20 [1] then
      some { nonce := 1, balance := 0, root := word 2, codeHash := emptyCodeHash }
    else none
  getCode _ := none
  getStorage_empty := by simp

theorem metering_within_transactions :
    Runs.Along (step istanbulRules) (fun b op => PerTransaction b op ∧ HasRoom b op)
      (begin slotSnapshot)
      [.setStorage (FixedBytes.ofBytes 20 [1]) (word 1) zeroHash, .snapshot,
        .setStorage (FixedBytes.ofBytes 20 [1]) (word 1) (word 7), .revert 0,
        .setStorage (FixedBytes.ofBytes 20 [1]) (word 1) (word 7), .endTransaction true,
        .setStorage (FixedBytes.ofBytes 20 [1]) (word 1) (word 5)] :=
  (metering_perTransaction_iff rfl slotSnapshot _).mpr (by decide +kernel)

theorem refund_wraps_across_transactions :
    ¬ Runs.Along (step istanbulRules) PerTransaction (begin slotSnapshot)
        [.setStorage (FixedBytes.ofBytes 20 [1]) (word 1) zeroHash, .endTransaction true,
          .setStorage (FixedBytes.ofBytes 20 [1]) (word 1) (word 5)]
      ∧ (List.foldl (step istanbulRules) (begin slotSnapshot)
        [.setStorage (FixedBytes.ofBytes 20 [1]) (word 1) zeroHash, .endTransaction true,
          .setStorage (FixedBytes.ofBytes 20 [1]) (word 1) (word 5)]).txn.getRefund
        = 2 ^ 64 - 15000 := by
  decide +kernel

end Sample

end Metering

end Nxchain
