import Nxchain.Proof.HeaderTree

namespace Nxchain.Blockchain

open ForkTree

section Histories

def insertAll (headerHash : Header → Hash) (fuel : Nat) (genesis : Header) (hs : List Header) :
    M Unit := do
  writeGenesisImpl genesis
  hs.forM fun h => do
    let _ ← writeHeaderImpl headerHash fuel {} h

def known (genesis : Header) (hs : List Header) : Finset Header := (genesis :: hs).toFinset

structure IsGenesis (headerHash : Header → Hash) (genesis : Header) : Prop where
  number : genesis.number = 0
  parent_hash : genesis.parentHash = zeroHash
  sealed : headerHash genesis = genesis.hash

inductive History (headerHash : Header → Hash) (genesis : Header) : List Header → Prop
  | start (hgenesis : IsGenesis headerHash genesis) : History headerHash genesis []
  | insert {hs : List Header} {h p : Header} (hist : History headerHash genesis hs)
      (hins : CanInsert headerHash (known genesis hs) h p) : History headerHash genesis (hs ++ [h])

variable {headerHash : Header → Hash} {genesis : Header} {hs : List Header} {h p : Header}
  {fuel : Nat}

theorem known_append_singleton (genesis : Header) (hs : List Header) (h : Header) :
    known genesis (hs ++ [h]) = insert h (known genesis hs) := by
  ext x
  simp [known]
  tauto

theorem known_subset_append (genesis : Header) (hs : List Header) (h : Header) :
    known genesis hs ⊆ known genesis (hs ++ [h]) := by
  rw [known_append_singleton]
  exact Finset.subset_insert h _

theorem insertAll_append_run {b : Blockchain} (hrun : (insertAll headerHash fuel genesis hs).run new = .ok () b)
    (h : Header) :
    (insertAll headerHash fuel genesis (hs ++ [h])).run new
      = (writeHeaderImpl headerHash fuel {} h >>= fun _ => pure ()).run b := by
  have hsplit : insertAll headerHash fuel genesis (hs ++ [h]) = insertAll headerHash fuel genesis hs
        >>= fun _ => writeHeaderImpl headerHash fuel {} h >>= fun _ => pure () := by
    simp [insertAll, bind_assoc]
  rw [hsplit, EStateM.run_bind, hrun]

theorem History.grown (hist : History headerHash genesis hs) : Grown headerShape genesis (known genesis hs) := by
  induction hist with
  | start hgenesis => exact Grown.root hgenesis.number
  | insert _ hins ih =>
    rw [known_append_singleton]
    exact hins.grown ih

theorem update_none_eq_some_iff {κ ν : Type} [DecidableEq κ] {key other : κ} {value found : ν} :
    Function.update (fun _ => none) key (some value) other = some found
      ↔ other = key ∧ value = found := by
  by_cases hkey : other = key
  · subst hkey
    simp
  · simp [hkey]

theorem writeGenesisImpl_run (hgenesis : IsGenesis headerHash genesis) :
    ∃ b, (writeGenesisImpl genesis).run new = .ok () b ∧ Tracks headerHash {genesis} genesis b
      ∧ b.db.canonical = Function.update (fun _ => none) 0 (some genesis.hash) := by
  have hroot : Grown headerShape genesis {genesis} := Grown.root hgenesis.number
  have hweight : totalWeight headerShape {genesis} genesis = genesis.difficulty := totalWeight_root hroot
  simp only [writeGenesisImpl, advanceHead, modifyDb, setCurrentHeader, EStateM.run_bind,
    EStateM.run_modify, ne_eq, hgenesis.parent_hash, not_true_eq_false, if_false, EStateM.run_pure,
    Nat.zero_add, hgenesis.number]
  refine ⟨_, rfl, ⟨?_, ?_, ?_, rfl, by rw [hweight], Finset.mem_singleton_self _, ?_, ?_, ?_⟩, rfl⟩
  · intro x hx
    rw [Finset.mem_singleton.mp hx]
    exact hgenesis.sealed
  · intro hash x
    refine update_none_eq_some_iff.trans ?_
    rw [Finset.mem_singleton]
    constructor
    · rintro ⟨rfl, rfl⟩
      exact ⟨rfl, rfl⟩
    · rintro ⟨rfl, rfl⟩
      exact ⟨rfl, rfl⟩
  · intro hash d
    refine update_none_eq_some_iff.trans ?_
    simp only [Finset.mem_singleton, exists_eq_left, hweight]
    exact and_congr_left' eq_comm
  · intro x hparent
    have hlevel := hparent.2.2.2
    rw [Finset.mem_singleton.mp hparent.1] at hlevel
    omega
  · intro x hx
    rw [Finset.mem_singleton.mp hx]
  · exact ⟨Lru.sound_empty _ _, Lru.sound_empty _ _⟩

theorem History.insert_run (hist : History headerHash genesis hs)
    (hins : CanInsert headerHash (known genesis hs) h p) (hzero : ∀ x, headerHash x ≠ zeroHash)
    (hfuel : ∀ x ∈ known genesis (hs ++ [h]), x.number < fuel) {b : Blockchain} {head : Header}
    (hrun : (insertAll headerHash fuel genesis hs).run new = .ok () b)
    (htracks : Tracks headerHash (known genesis hs) head b) :
    ∃ b' head', (insertAll headerHash fuel genesis (hs ++ [h])).run new = .ok () b'
      ∧ Tracks headerHash (known genesis (hs ++ [h])) head' b'
      ∧ HeadMove (known genesis hs) head h p b.db.canonical b'.db.canonical head' := by
  rw [known_append_singleton] at hfuel ⊢
  have hparent : h.parentHash ≠ zeroHash := by
    rw [← hins.parent_hash, ← htracks.sealed p hins.parent_mem]
    exact hzero p
  obtain ⟨evnt, b', head', hwrite, htracks', hmove⟩ := writeHeaderImpl_run htracks hist.grown hins
    hparent (hfuel head (Finset.mem_insert_of_mem htracks.head_mem)) (hfuel h (Finset.mem_insert_self _ _)) {}
  refine ⟨b', head', ?_, htracks', hmove⟩
  rw [insertAll_append_run hrun, EStateM.run_bind, hwrite]
  rfl

theorem History.insertAll_run (hist : History headerHash genesis hs) (hzero : ∀ x, headerHash x ≠ zeroHash)
    (hfuel : ∀ x ∈ known genesis hs, x.number < fuel) :
    ∃ b head, (insertAll headerHash fuel genesis hs).run new = .ok () b
      ∧ Tracks headerHash (known genesis hs) head b := by
  induction hist with
  | start hgenesis =>
    obtain ⟨b, hrun, htracks, _⟩ := writeGenesisImpl_run hgenesis
    refine ⟨b, genesis, ?_, htracks⟩
    simp only [insertAll, EStateM.run_bind, hrun]
    rfl
  | insert hist hins ih =>
    rename_i hs h p
    obtain ⟨b, head, hrun, htracks⟩ := ih (fun x hx => hfuel x (known_subset_append genesis hs h hx))
    obtain ⟨b', head', hrun', htracks', _⟩ := hist.insert_run hins hzero hfuel hrun htracks
    exact ⟨b', head', hrun', htracks'⟩

def sampleHeader (number difficulty : Nat) (parent : Hash) (tag : UInt8) : Header where
  parentHash := parent
  sha3Uncles := zeroHash
  miner := []
  stateRoot := zeroHash
  txRoot := zeroHash
  receiptsRoot := zeroHash
  logsBloom := FixedBytes.zero 256
  difficulty := difficulty
  number := number
  gasLimit := 0
  gasUsed := 0
  timestamp := 0
  extraData := [tag]
  mixHash := zeroHash
  nonce := FixedBytes.zero 8
  hash := FixedBytes.ofBytes 32 [tag, 1]

def sampleHash (h : Header) : Hash := FixedBytes.ofBytes 32 [h.extraData.headD 0, 1]

def sampleGenesis : Header := sampleHeader 0 1 zeroHash 0

def sampleBranches : List Header :=
  let first := sampleHeader 1 1 sampleGenesis.hash 1
  let second := sampleHeader 1 1 sampleGenesis.hash 3
  [first, sampleHeader 2 1 first.hash 2, second, sampleHeader 2 2 second.hash 4]

theorem sampleHash_ne_zero (h : Header) : sampleHash h ≠ zeroHash := by
  intro hzero
  have hlast : some (1 : UInt8) = some 0 := congrArg (fun hash : Hash => hash.toBytes.getLast?) hzero
  exact absurd hlast (by decide)

theorem history_sampleBranches : History sampleHash sampleGenesis sampleBranches := by
  let first := sampleHeader 1 1 sampleGenesis.hash 1
  let second := sampleHeader 1 1 sampleGenesis.hash 3
  have h₀ : History sampleHash sampleGenesis [] := .start ⟨rfl, rfl, rfl⟩
  have h₁ : History sampleHash sampleGenesis [first] :=
    h₀.insert (p := sampleGenesis) ⟨by decide +kernel, rfl, rfl, by decide +kernel, rfl⟩
  have h₂ : History sampleHash sampleGenesis [first, sampleHeader 2 1 first.hash 2] :=
    h₁.insert (p := first) ⟨by decide +kernel, rfl, rfl, by decide +kernel, rfl⟩
  have h₃ : History sampleHash sampleGenesis [first, sampleHeader 2 1 first.hash 2, second] :=
    h₂.insert (p := sampleGenesis) ⟨by decide +kernel, rfl, rfl, by decide +kernel, rfl⟩
  exact h₃.insert (p := second) ⟨by decide +kernel, rfl, rfl, by decide +kernel, rfl⟩

theorem insertAll_heaviest_chain (hist : History headerHash genesis hs) (hzero : ∀ x, headerHash x ≠ zeroHash)
    (hfuel : ∀ x ∈ known genesis hs, x.number < fuel) :
    ∃ b head, (insertAll headerHash fuel genesis hs).run new = .ok () b
      ∧ b.currentHeader = some head ∧ head ∈ known genesis hs
      ∧ (∀ x ∈ known genesis hs, b.db.difficulty x.hash = some (totalWeight headerShape (known genesis hs) x)
          ∧ ∃ b', (readTotalDifficulty x.hash).run b = .ok (some (totalWeight headerShape (known genesis hs) x)) b')
      ∧ ∀ x ∈ known genesis hs, totalWeight headerShape (known genesis hs) x
        ≤ totalWeight headerShape (known genesis hs) head := by
  obtain ⟨b, head, hrun, htracks⟩ := hist.insertAll_run hzero hfuel
  refine ⟨b, head, hrun, htracks.current, htracks.head_mem, ?_, htracks.heaviest⟩
  intro x hx
  have hstored := htracks.difficulty_of_mem hx
  obtain ⟨b', hread, _⟩ := readTotalDifficulty_run htracks.caches x.hash
  exact ⟨hstored, b', hread.trans (by rw [hstored])⟩

theorem insertAll_heaviest_chain_sampleBranches :
    ∃ b head, (insertAll sampleHash 3 sampleGenesis sampleBranches).run new = .ok () b
      ∧ b.currentHeader = some head ∧ head ∈ known sampleGenesis sampleBranches
      ∧ (∀ x ∈ known sampleGenesis sampleBranches, b.db.difficulty x.hash
            = some (totalWeight headerShape (known sampleGenesis sampleBranches) x)
          ∧ ∃ b', (readTotalDifficulty x.hash).run b
            = .ok (some (totalWeight headerShape (known sampleGenesis sampleBranches) x)) b')
      ∧ ∀ x ∈ known sampleGenesis sampleBranches,
        totalWeight headerShape (known sampleGenesis sampleBranches) x
          ≤ totalWeight headerShape (known sampleGenesis sampleBranches) head :=
  insertAll_heaviest_chain history_sampleBranches sampleHash_ne_zero (by decide +kernel)

end Histories

section CanonicalIndex

structure Indexes (t : Finset Header) (head : Header) (canonical : Nat → Option Hash) : Prop where
  branch : ∀ n ≤ head.number, ∃ a, Ancestor headerShape t a head ∧ a.number = n
    ∧ canonical n = some a.hash
  above : ∀ n, head.number < n → canonical n = none

def Shallow (t : Finset Header) (head h p : Header) : Prop :=
  p ≠ head → totalWeight headerShape t head < totalWeight headerShape t p + h.difficulty →
    ∃ q, IsParent headerShape t head q ∧ Ancestor headerShape (insert h t) q h

variable {headerHash : Header → Hash} {root : Header} {t : Finset Header} {head h p head' : Header}
  {old new : Nat → Option Hash}

theorem Indexes.of_ancestor (hindex : Indexes t head old) (ht : Grown headerShape root t) {a : Header}
    (ha : Ancestor headerShape t a head) : old a.number = some a.hash := by
  obtain ⟨a', ha', hnumber, hold⟩ := hindex.branch a.number ha.level_le
  rw [hold, Ancestor.unique ht ha' ha hnumber]

theorem indexes_of_forall_ancestor (ht : Grown headerShape root t) (hhead : head ∈ t)
    (hbranch : ∀ a, Ancestor headerShape t a head → old a.number = some a.hash)
    (habove : ∀ n, head.number < n → old n = none) : Indexes t head old := by
  refine ⟨?_, habove⟩
  intro n hn
  obtain ⟨a, ha, rfl⟩ := ht.exists_ancestor hhead hn
  exact ⟨a, ha, rfl, hbranch a ha⟩

section

variable (hindex : Indexes t head old) (ht : Grown headerShape root t)

include hindex ht

theorem Indexes.extend (hins : CanInsert headerHash t h head) :
    Indexes (insert h t) h (Function.update old h.number (some h.hash)) := by
  have hnumber := hins.number
  apply indexes_of_forall_ancestor (hins.grown ht) (Finset.mem_insert_self h t)
  · intro a ha
    rcases ha.eq_or_parent (hins.grown ht) hins.isParent with rfl | ha
    · exact Function.update_self ..
    · have hle : a.number ≤ head.number := ha.level_le
      rw [Function.update_of_ne (by omega)]
      exact hindex.of_ancestor ht ((ancestor_insert_iff ht hins.parent_mem hins.fresh).mp ha)
  · intro n hn
    rw [Function.update_of_ne (by omega)]
    exact hindex.above n (by omega)

theorem Indexes.fork (hhead : head ∈ t) (hins : CanInsert headerHash t h p) : Indexes (insert h t) head old := by
  apply indexes_of_forall_ancestor (hins.grown ht) (Finset.mem_insert_of_mem hhead)
  · intro a ha
    exact hindex.of_ancestor ht ((ancestor_insert_iff ht hhead hins.fresh).mp ha)
  · exact hindex.above

theorem Indexes.reorg_iff (hins : CanInsert headerHash t h p) (hrewrites : Rewrites (insert h t) head h old new)
    {q : Header} (hq : IsParent headerShape t head q) :
    Indexes (insert h t) h new ↔ Ancestor headerShape (insert h t) q h := by
  have ht' := hins.grown ht
  have hqnumber : head.number = q.number + 1 := hq.2.2.2
  have hqold : old q.number = some q.hash := hindex.of_ancestor ht hq.ancestor
  constructor
  · intro hnew
    have hle : head.number ≤ h.number := by
      by_contra hlt
      have hstale := hnew.above head.number (by omega)
      rw [hrewrites.frame head.number (by omega) (Or.inr (by omega)),
        hindex.of_ancestor ht (Ancestor.refl head)] at hstale
      cases hstale
    obtain ⟨z, hz, hznumber, hzhash⟩ := hnew.branch q.number (by omega)
    rw [hrewrites.frame q.number (by omega) (Or.inl (by omega)), hqold] at hzhash
    have hzmem : z ∈ insert h t := hz.mem (Finset.mem_insert_self h t)
    have heq : q = z := ht'.eq_of_key_eq (Finset.mem_insert_of_mem hq.2.1) hzmem (Option.some.inj hzhash)
    exact heq ▸ hz
  · intro hanc
    have hle : head.number ≤ h.number := by
      have hqle : q.number ≤ h.number := hanc.level_le
      by_contra hlt
      have heq : q = h := hanc.eq_of_level_eq (show q.number = h.number by omega)
      exact hins.fresh q hq.2.1 (congrArg Header.hash heq)
    apply indexes_of_forall_ancestor ht' (Finset.mem_insert_self h t)
    · intro a ha
      have hale : a.number ≤ h.number := ha.level_le
      rcases hale.eq_or_lt with heq | hlt
      · rw [ha.eq_of_level_eq heq]
        exact hrewrites.newHead
      · rcases Nat.lt_or_ge a.number head.number with hbelow | habove
        · have haq : Ancestor headerShape (insert h t) a q := ha.of_level_le ht' hanc (Finset.mem_insert_self h t)
              (show a.number ≤ q.number by omega)
          rw [hrewrites.frame a.number (by omega) (Or.inl hbelow)]
          exact hindex.of_ancestor ht (((ancestor_insert_iff ht hq.2.1 hins.fresh).mp haq).trans hq.ancestor)
        · exact hrewrites.above a ha habove hlt
    · intro n hn
      rw [hrewrites.frame n (by omega) (Or.inr hn)]
      exact hindex.above n (by omega)

end

theorem HeadMove.indexes_iff (hmove : HeadMove t head h p old new head') (hindex : Indexes t head old)
    (ht : Grown headerShape root t) (hhead : head ∈ t) (hleaf : Leaf headerShape t head)
    (hins : CanInsert headerHash t h p) : Indexes (insert h t) head' new ↔ Shallow t head h p := by
  cases hmove with
  | extend hparent hcanonical =>
    subst hparent
    rw [hcanonical]
    exact iff_of_true (hindex.extend ht hins) (fun hne => absurd rfl hne)
  | fork hparent hlighter hcanonical =>
    rw [hcanonical]
    exact iff_of_true (hindex.fork ht hhead hins) (fun _ hheavier => absurd hheavier (by omega))
  | reorg hparent hheavier hcanonical =>
    rcases ht.exists_parent hhead with rfl | ⟨q, hq⟩
    · obtain ⟨z, hz, hzlevel⟩ := ht.exists_ancestor hins.parent_mem (Nat.zero_le _)
      rw [ht.eq_root_of_level_eq_zero (hz.mem hins.parent_mem) hzlevel] at hz
      exact absurd (hleaf.eq_of_ancestor hz) hparent
    · rw [hindex.reorg_iff ht hins hcanonical hq]
      constructor
      · intro hanc _ _
        exact ⟨q, hq, hanc⟩
      · intro hshallow
        obtain ⟨q', hq', hanc⟩ := hshallow hparent hheavier
        rwa [IsParent.unique ht hq hq']

variable {genesis : Header} {hs : List Header} {fuel : Nat}

def IndexedAfter (headerHash : Header → Hash) (fuel : Nat) (genesis : Header) (hs : List Header) :
    Prop :=
  ∃ b head, (insertAll headerHash fuel genesis hs).run Blockchain.new = .ok () b
    ∧ b.currentHeader = some head ∧ Indexes (known genesis hs) head b.db.canonical

def ShallowAfter (headerHash : Header → Hash) (fuel : Nat) (genesis : Header) (hs : List Header)
    (h : Header) : Prop :=
  ∀ b head p, (insertAll headerHash fuel genesis hs).run Blockchain.new = .ok () b →
    b.currentHeader = some head → p ∈ known genesis hs → p.hash = h.parentHash →
    Shallow (known genesis hs) head h p

theorem Tracks.indexedAfter_iff {b : Blockchain} (htracks : Tracks headerHash (known genesis hs) head b)
    (hrun : (insertAll headerHash fuel genesis hs).run Blockchain.new = .ok () b) :
    IndexedAfter headerHash fuel genesis hs ↔ Indexes (known genesis hs) head b.db.canonical := by
  constructor
  · rintro ⟨b', head', hrun', hcurrent, hindex⟩
    obtain rfl : b = b' := by
      rw [hrun] at hrun'
      injection hrun'
    obtain rfl : head = head' := Option.some.inj (htracks.current.symm.trans hcurrent)
    exact hindex
  · intro hindex
    exact ⟨b, head, hrun, htracks.current, hindex⟩

theorem Tracks.shallowAfter_iff {b : Blockchain} (htracks : Tracks headerHash (known genesis hs) head b)
    (ht : Grown headerShape genesis (known genesis hs))
    (hrun : (insertAll headerHash fuel genesis hs).run Blockchain.new = .ok () b)
    (hins : CanInsert headerHash (known genesis hs) h p) :
    ShallowAfter headerHash fuel genesis hs h ↔ Shallow (known genesis hs) head h p := by
  constructor
  · intro hshallow
    exact hshallow b head p hrun htracks.current hins.parent_mem hins.parent_hash
  · intro hshallow b' head' p' hrun' hcurrent hmem hhash
    obtain rfl : b = b' := by
      rw [hrun] at hrun'
      injection hrun'
    obtain rfl : head = head' := Option.some.inj (htracks.current.symm.trans hcurrent)
    obtain rfl : p = p' := ht.eq_of_key_eq hins.parent_mem hmem (hins.parent_hash.trans hhash.symm)
    exact hshallow

theorem History.indexedAfter_append_iff (hist : History headerHash genesis hs)
    (hins : CanInsert headerHash (known genesis hs) h p) (hzero : ∀ x, headerHash x ≠ zeroHash)
    (hfuel : ∀ x ∈ known genesis (hs ++ [h]), x.number < fuel)
    (hindexed : IndexedAfter headerHash fuel genesis hs) :
    IndexedAfter headerHash fuel genesis (hs ++ [h])
      ↔ ShallowAfter headerHash fuel genesis hs h := by
  obtain ⟨b, head, hrun, htracks⟩ := hist.insertAll_run hzero
    (fun x hx => hfuel x (known_subset_append genesis hs h hx))
  obtain ⟨b', head', hrun', htracks', hmove⟩ := hist.insert_run hins hzero hfuel hrun htracks
  have hindex := (htracks.indexedAfter_iff hrun).mp hindexed
  rw [htracks'.indexedAfter_iff hrun', htracks.shallowAfter_iff hist.grown hrun hins, known_append_singleton]
  exact hmove.indexes_iff hindex hist.grown htracks.head_mem htracks.head_leaf hins

theorem IsGenesis.indexedAfter (hgenesis : IsGenesis headerHash genesis) :
    IndexedAfter headerHash fuel genesis [] := by
  obtain ⟨b, hrun, htracks, hcanonical⟩ := writeGenesisImpl_run hgenesis
  refine ⟨b, genesis, ?_, htracks.current, ?_⟩
  · simp only [insertAll, EStateM.run_bind, hrun]
    rfl
  · rw [hcanonical]
    constructor
    · intro n hn
      obtain rfl : n = 0 := Nat.le_zero.mp (hgenesis.number ▸ hn)
      exact ⟨genesis, Ancestor.refl genesis, hgenesis.number, Function.update_self ..⟩
    · intro n hn
      exact Function.update_of_ne (by omega) ..

theorem insertAll_indexes_iff_shallow (hist : History headerHash genesis hs) (hzero : ∀ x, headerHash x ≠ zeroHash)
    (hfuel : ∀ x ∈ known genesis hs, x.number < fuel) :
    (∀ before, before <+: hs → IndexedAfter headerHash fuel genesis before)
      ↔ ∀ before h, before ++ [h] <+: hs → ShallowAfter headerHash fuel genesis before h := by
  induction hist with
  | start hgenesis =>
    refine iff_of_true ?_ ?_
    · intro before hbefore
      rw [List.prefix_nil.mp hbefore]
      exact hgenesis.indexedAfter
    · intro before h hbefore
      simp at hbefore
  | insert hist hins ih =>
    rename_i hs h p
    have hstep := hist.indexedAfter_append_iff hins hzero hfuel
    have hrest := ih (fun x hx => hfuel x (known_subset_append genesis hs h hx))
    constructor
    · intro hall before x hbefore
      rcases List.prefix_concat_iff.mp hbefore with heq | hshorter
      · obtain ⟨rfl, hx⟩ := List.append_inj' heq rfl
        obtain rfl : x = h := by simpa using hx
        exact (hstep (hall _ (List.prefix_append _ _))).mp (hall _ List.prefix_rfl)
      · exact hrest.mp (fun pre hpre => hall pre (hpre.trans (List.prefix_append _ _))) before x hshorter
    · intro hall before hbefore
      have hindexed := hrest.mpr fun pre x hpre =>
        hall pre x (hpre.trans (List.prefix_append _ _))
      rcases List.prefix_concat_iff.mp hbefore with rfl | hshorter
      · exact (hstep (hindexed hs List.prefix_rfl)).mpr (hall hs h List.prefix_rfl)
      · exact hindexed before hshorter

theorem insertAll_indexes_iff_shallow_sampleBranches :
    (∀ before, before <+: sampleBranches → IndexedAfter sampleHash 3 sampleGenesis before)
      ↔ ∀ before h, before ++ [h] <+: sampleBranches →
        ShallowAfter sampleHash 3 sampleGenesis before h :=
  insertAll_indexes_iff_shallow history_sampleBranches sampleHash_ne_zero (by decide +kernel)

theorem sampleBranches_run :
    (match (insertAll sampleHash 3 sampleGenesis sampleBranches).run Blockchain.new with
      | .ok _ b => (b.db.canonical 1, b.currentHeader)
      | .error _ _ => (none, none))
    = (some (sampleHeader 1 1 sampleGenesis.hash 1).hash, sampleBranches.getLast?) := by
  decide +kernel

theorem sampleBranches_not_indexed :
    History sampleHash sampleGenesis sampleBranches
      ∧ ¬ IndexedAfter sampleHash 3 sampleGenesis sampleBranches := by
  refine ⟨history_sampleBranches, ?_⟩
  rintro ⟨b, head, hrun, hcurrent, hindex⟩
  let second := sampleHeader 1 1 sampleGenesis.hash 3
  have hvalues := sampleBranches_run
  rw [hrun] at hvalues
  obtain ⟨hstale, hlast⟩ := Prod.mk.inj hvalues
  obtain rfl : head = sampleHeader 2 2 second.hash 4 := Option.some.inj (hcurrent.symm.trans hlast)
  obtain ⟨a, ha, hnumber, hindexed⟩ := hindex.branch 1 (by decide)
  have hsecond : IsParent headerShape (known sampleGenesis sampleBranches)
      (sampleHeader 2 2 second.hash 4) second := ⟨by decide +kernel, by decide +kernel, rfl, rfl⟩
  rw [Ancestor.unique history_sampleBranches.grown ha hsecond.ancestor hnumber, hstale] at hindexed
  exact absurd hindexed (by decide +kernel)

end CanonicalIndex

end Nxchain.Blockchain
