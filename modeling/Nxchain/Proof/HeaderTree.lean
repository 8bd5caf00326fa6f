import Nxchain.Blockchain
import Nxchain.Lib.ForkTree

namespace Nxchain.Blockchain

open ForkTree

def headerShape : Shape Header Hash where
  key := Header.hash
  up := Header.parentHash
  level := Header.number
  weight := Header.difficulty

section Reads

variable {b : Blockchain}

structure CachesOk (b : Blockchain) : Prop where
  headers : b.headersCache.Sound b.db.headers
  difficulty : b.difficultyCache.Sound b.db.difficulty

def CacheStep (b b' : Blockchain) : Prop :=
  (∃ headers difficulties,
    b' = { b with headersCache := headers, difficultyCache := difficulties }) ∧ CachesOk b'

theorem CacheStep.refl (hcaches : CachesOk b) : CacheStep b b :=
  ⟨⟨_, _, rfl⟩, hcaches⟩

theorem CacheStep.trans {c d : Blockchain} (hbc : CacheStep b c) (hcd : CacheStep c d) : CacheStep b d := by
  obtain ⟨⟨headers, difficulties, rfl⟩, _⟩ := hbc
  obtain ⟨⟨headers', difficulties', rfl⟩, hcaches⟩ := hcd
  exact ⟨⟨headers', difficulties', rfl⟩, hcaches⟩

theorem CacheStep.db_eq {b' : Blockchain} (h : CacheStep b b') : b'.db = b.db := by
  obtain ⟨⟨_, _, rfl⟩, _⟩ := h
  rfl

theorem readTotalDifficulty_run (hcaches : CachesOk b) (hash : Hash) :
    ∃ b', (readTotalDifficulty hash).run b = .ok (b.db.difficulty hash) b' ∧ CacheStep b b' := by
  cases hget : b.difficultyCache.get hash with
  | some found =>
    obtain ⟨d, cache⟩ := found
    obtain ⟨hstore, hsound⟩ := hcaches.difficulty.get hget
    refine ⟨{ b with difficultyCache := cache }, ?_, ⟨_, _, rfl⟩, hcaches.headers, hsound⟩
    simp only [readTotalDifficulty, EStateM.run_bind, EStateM.run_get, hget, EStateM.run_set,
      EStateM.run_pure, hstore]
  | none =>
    cases hdb : b.db.difficulty hash with
    | none =>
      refine ⟨b, ?_, CacheStep.refl hcaches⟩
      simp only [readTotalDifficulty, EStateM.run_bind, EStateM.run_get, hget, hdb, EStateM.run_pure]
    | some d =>
      refine ⟨{ b with difficultyCache := b.difficultyCache.add hash d }, ?_, ⟨_, _, rfl⟩,
        hcaches.headers, hcaches.difficulty.add hdb⟩
      simp only [readTotalDifficulty, EStateM.run_bind, EStateM.run_get, hget, hdb,
        EStateM.run_set, EStateM.run_pure]

variable {headerHash : Header → Hash}

theorem computeHash_eq {h : Header} (hsealed : headerHash h = h.hash) : h.computeHash headerHash = h := by
  simp_all [Header.computeHash]

def Sealed (headerHash : Header → Hash) (s : Storage) : Prop :=
  ∀ hash h, s.headers hash = some h → headerHash h = h.hash

theorem readHeader_of_sound (hsealed : Sealed headerHash b.db) (hcache : b.headersCache.Sound b.db.headers)
    (hash : Hash) :
    ∃ cache, (readHeader headerHash hash).run b
        = .ok (b.db.headers hash) { b with headersCache := cache }
      ∧ cache.Sound b.db.headers := by
  cases hget : b.headersCache.get hash with
  | some found =>
    obtain ⟨h, cache⟩ := found
    obtain ⟨hstore, hsound⟩ := hcache.get hget
    refine ⟨cache, ?_, hsound⟩
    simp only [readHeader, EStateM.run_bind, EStateM.run_get, hget, EStateM.run_set, EStateM.run_pure, hstore]
  | none =>
    cases hdb : b.db.headers hash with
    | none =>
      refine ⟨b.headersCache, ?_, hcache⟩
      simp only [readHeader, EStateM.run_bind, EStateM.run_get, hget, Storage.readHeader, hdb,
        Option.map_none, EStateM.run_pure]
    | some h =>
      refine ⟨b.headersCache.add hash h, ?_, hcache.add hdb⟩
      have heq := computeHash_eq (hsealed hash h hdb)
      simp only [readHeader, EStateM.run_bind, EStateM.run_get, hget, Storage.readHeader, hdb,
        Option.map_some, heq, EStateM.run_set, EStateM.run_pure]

theorem readHeader_run (hsealed : Sealed headerHash b.db) (hcaches : CachesOk b) (hash : Hash) :
    ∃ b', (readHeader headerHash hash).run b = .ok (b.db.headers hash) b' ∧ CacheStep b b' := by
  obtain ⟨cache, hrun, hsound⟩ := readHeader_of_sound hsealed hcaches.headers hash
  exact ⟨_, hrun, ⟨_, _, rfl⟩, hsound, hcaches.difficulty⟩

end Reads

section Walks

variable {headerHash : Header → Hash} {root : Header} {t : Finset Header}

variable {b : Blockchain} {x : Header}

structure Readable (headerHash : Header → Hash) (t : Finset Header) (b : Blockchain) : Prop where
  sealed : Sealed headerHash b.db
  stored : ∀ h ∈ t, b.db.headers h.hash = some h
  caches : CachesOk b

theorem Readable.of_cacheStep {b' : Blockchain} (hread : Readable headerHash t b) (hstep : CacheStep b b') :
    Readable headerHash t b' := by
  refine ⟨?_, ?_, hstep.2⟩
  · rw [hstep.db_eq]
    exact hread.sealed
  · rw [hstep.db_eq]
    exact hread.stored

theorem readParent_run {p : Header} (hread : Readable headerHash t b) (hparent : IsParent headerShape t x p) :
    ∃ b', (readParent headerHash x).run b = .ok p b' ∧ CacheStep b b' := by
  obtain ⟨b', hrun, hstep⟩ := readHeader_run hread.sealed hread.caches x.parentHash
  have hkey : p.hash = x.parentHash := hparent.2.2.1
  have hstored : b.db.headers x.parentHash = some p := hkey ▸ hread.stored p hparent.2.1
  refine ⟨b', ?_, hstep⟩
  simp only [readParent, EStateM.run_bind, hrun, hstored, EStateM.run_pure]

structure Collects (t : Finset Header) (number : Nat) (x y : Header) (chain : List Header) :
    Prop where
  ancestor : Ancestor headerShape t y x
  reached : y.number = min x.number number
  sound : ∀ z ∈ chain, Ancestor headerShape t z x ∧ number ≤ z.number ∧ z.number < x.number
  complete : ∀ z, Ancestor headerShape t z x → number ≤ z.number → z.number < x.number → z ∈ chain

theorem Collects.stop {number : Nat} (hnumber : x.number ≤ number) : Collects t number x x [] := by
  refine ⟨Ancestor.refl x, by omega, by simp, ?_⟩
  omega

variable (ht : Grown headerShape root t)

include ht

theorem Collects.step {number : Nat} {p y : Header} {chain : List Header} (hnumber : number < x.number)
    (hparent : IsParent headerShape t x p) (hrest : Collects t number p y chain) :
    Collects t number x y (p :: chain) := by
  have hlevel : x.number = p.number + 1 := hparent.2.2.2
  refine ⟨hrest.ancestor.trans hparent.ancestor, ?_, ?_, ?_⟩
  · have := hrest.reached
    omega
  · intro z hz
    rcases List.mem_cons.mp hz with rfl | hz
    · exact ⟨hparent.ancestor, by omega, by omega⟩
    · obtain ⟨hanc, hge, hlt⟩ := hrest.sound z hz
      exact ⟨hanc.trans hparent.ancestor, hge, by omega⟩
  · intro z hanc hge hlt
    rcases hanc.eq_or_parent ht hparent with rfl | hzp
    · omega
    · rcases Nat.lt_or_ge z.number p.number with hzlt | hzge
      · exact List.mem_cons_of_mem p (hrest.complete z hzp hge hzlt)
      · have heq : z = p := hzp.eq_of_level_eq (le_antisymm hzp.level_le hzge)
        exact heq ▸ List.mem_cons_self

theorem walkDown_run (number : Nat) (chain : List Header) {fuel : Nat} (hread : Readable headerHash t b)
    (hx : x ∈ t) (hfuel : x.number < fuel) :
    ∃ y collected b', (walkDown headerHash number fuel x chain).run b
        = .ok (y, chain ++ collected) b'
      ∧ CacheStep b b' ∧ Collects t number x y collected := by
  induction fuel generalizing x b chain with
  | zero => omega
  | succ fuel ih =>
    by_cases hnumber : number < x.number
    · rcases ht.exists_parent hx with rfl | ⟨p, hparent⟩
      · have hroot : x.number = 0 := ht.level_root
        omega
      · have hlevel : x.number = p.number + 1 := hparent.2.2.2
        obtain ⟨b₁, hrun₁, hstep₁⟩ := readParent_run hread hparent
        obtain ⟨y, collected, b₂, hrun₂, hstep₂, hcollects⟩ :=
          ih (chain ++ [p]) (hread.of_cacheStep hstep₁) hparent.2.1 (by omega)
        refine ⟨y, p :: collected, b₂, ?_, hstep₁.trans hstep₂, Collects.step ht hnumber hparent hcollects⟩
        simp only [walkDown, gt_iff_lt, hnumber, if_true, EStateM.run_bind, hrun₁, hrun₂,
          List.append_assoc, List.singleton_append]
    · refine ⟨x, [], b, ?_, CacheStep.refl hread.caches, Collects.stop (by omega)⟩
      simp only [walkDown, hnumber, if_false, EStateM.run_pure, List.append_nil]

theorem walkTogether_run (chain : List Header) {fuel : Nat} {y : Header} (hread : Readable headerHash t b)
    (hx : x ∈ t) (hy : y ∈ t) (hnumber : x.number = y.number) (hfuel : x.number < fuel) :
    ∃ collected b', (walkTogether headerHash fuel x y chain).run b = .ok (chain ++ collected) b'
      ∧ CacheStep b b' ∧ (x ≠ y → collected ≠ []) := by
  induction fuel generalizing x y b chain with
  | zero => omega
  | succ fuel ih =>
    by_cases hhash : x.hash = y.hash
    · refine ⟨[], b, ?_, CacheStep.refl hread.caches, ?_⟩
      · simp only [walkTogether, ne_eq, hhash, not_true_eq_false, if_false, EStateM.run_pure, List.append_nil]
      · intro hne
        exact absurd (ht.eq_of_key_eq hx hy hhash) hne
    · rcases ht.exists_parent hx with rfl | ⟨p, hp⟩
      · have hroot : x.number = 0 := ht.level_root
        have heq : y = x := ht.eq_root_of_level_eq_zero hy (hnumber.symm.trans hroot)
        exact absurd (congrArg Header.hash heq.symm) hhash
      · rcases ht.exists_parent hy with rfl | ⟨q, hq⟩
        · have hroot : y.number = 0 := ht.level_root
          have heq : x = y := ht.eq_root_of_level_eq_zero hx (hnumber.trans hroot)
          exact absurd (congrArg Header.hash heq) hhash
        · have hplevel : x.number = p.number + 1 := hp.2.2.2
          have hqlevel : y.number = q.number + 1 := hq.2.2.2
          obtain ⟨b₁, hrun₁, hstep₁⟩ := readParent_run hread hp
          have hread₁ := hread.of_cacheStep hstep₁
          obtain ⟨b₂, hrun₂, hstep₂⟩ := readParent_run hread₁ hq
          obtain ⟨collected, b₃, hrun₃, hstep₃, _⟩ :=
            ih (chain ++ [p]) (hread₁.of_cacheStep hstep₂) hp.2.1 hq.2.1 (by omega) (by omega)
          refine ⟨p :: collected, b₃, ?_, (hstep₁.trans hstep₂).trans hstep₃, by simp⟩
          simp only [walkTogether, ne_eq, hhash, not_false_eq_true, if_true, EStateM.run_bind,
            hrun₁, hrun₂, hrun₃, List.append_assoc, List.singleton_append]

end Walks

section Insertion

variable {headerHash : Header → Hash} {root : Header} {t : Finset Header} {head h p : Header}

variable {b : Blockchain} {chain : List Header}

structure Tracks (headerHash : Header → Hash) (t : Finset Header) (head : Header)
    (b : Blockchain) : Prop where
  sealed : ∀ x ∈ t, headerHash x = x.hash
  headers : ∀ hash x, b.db.headers hash = some x ↔ x ∈ t ∧ x.hash = hash
  difficulty : ∀ hash d, b.db.difficulty hash = some d
    ↔ ∃ x ∈ t, x.hash = hash ∧ totalWeight headerShape t x = d
  current : b.currentHeader = some head
  currentDifficulty : b.currentDifficulty = some (totalWeight headerShape t head)
  head_mem : head ∈ t
  head_leaf : Leaf headerShape t head
  heaviest : ∀ x ∈ t, totalWeight headerShape t x ≤ totalWeight headerShape t head
  caches : CachesOk b

structure CanInsert (headerHash : Header → Hash) (t : Finset Header) (h p : Header) : Prop where
  parent_mem : p ∈ t
  parent_hash : p.hash = h.parentHash
  number : h.number = p.number + 1
  fresh : ∀ x ∈ t, x.hash ≠ h.hash
  sealed : headerHash h = h.hash

section

variable (hins : CanInsert headerHash t h p)

include hins

theorem CanInsert.grown (ht : Grown headerShape root t) : Grown headerShape root (insert h t) :=
  ht.insert hins.parent_mem hins.parent_hash hins.number hins.fresh

theorem CanInsert.isParent : IsParent headerShape (insert h t) h p :=
  ⟨Finset.mem_insert_self h t, Finset.mem_insert_of_mem hins.parent_mem, hins.parent_hash, hins.number⟩

theorem CanInsert.totalWeight_eq (ht : Grown headerShape root t) :
    totalWeight headerShape (insert h t) h = totalWeight headerShape t p + h.difficulty := by
  rw [totalWeight_parent (hins.grown ht) hins.isParent, totalWeight_insert ht hins.parent_mem hins.fresh]
  rfl

end

theorem Tracks.difficulty_of_mem (htracks : Tracks headerHash t head b) {x : Header} (hx : x ∈ t) :
    b.db.difficulty x.hash = some (totalWeight headerShape t x) :=
  (htracks.difficulty x.hash _).mpr ⟨x, hx, rfl, rfl⟩

structure Stores (t : Finset Header) (h p : Header) (b b' : Blockchain) : Prop where
  headers : b'.db.headers = Function.update b.db.headers h.hash (some h)
  difficulty : b'.db.difficulty = Function.update b.db.difficulty h.hash
    (some (totalWeight headerShape t p + h.difficulty))
  caches : CachesOk b'

theorem Tracks.insert {b' : Blockchain} (htracks : Tracks headerHash t head b)
    (ht : Grown headerShape root t) (hins : CanInsert headerHash t h p)
    (hstores : Stores t h p b b') {head' : Header}
    (hcurrent : b'.currentHeader = some head')
    (htd : b'.currentDifficulty = some (totalWeight headerShape (insert h t) head'))
    (hhead : (head' = h ∧ totalWeight headerShape t head ≤ totalWeight headerShape (insert h t) h)
      ∨ (head' = head ∧ p ≠ head ∧ totalWeight headerShape (insert h t) h ≤ totalWeight headerShape t head)) :
    Tracks headerHash (insert h t) head' b' := by
  have hweight : ∀ x ∈ t, totalWeight headerShape (Insert.insert h t) x
      = totalWeight headerShape t x := fun x hx => totalWeight_insert ht hx hins.fresh
  have hmemHead := htracks.head_mem
  refine ⟨?_, ?_, ?_, hcurrent, htd, ?_, ?_, ?_, hstores.caches⟩
  · intro x hx
    rcases Finset.mem_insert.mp hx with rfl | hx
    · exact hins.sealed
    · exact htracks.sealed x hx
  · intro hash x
    rw [hstores.headers]
    by_cases hhash : hash = h.hash
    · subst hhash
      rw [Function.update_self, Option.some.injEq]
      constructor
      · rintro rfl
        exact ⟨Finset.mem_insert_self _ _, rfl⟩
      · rintro ⟨hx, hkey⟩
        rcases Finset.mem_insert.mp hx with rfl | hx
        · rfl
        · exact absurd hkey (hins.fresh x hx)
    · rw [Function.update_of_ne hhash, htracks.headers]
      constructor
      · rintro ⟨hx, hkey⟩
        exact ⟨Finset.mem_insert_of_mem hx, hkey⟩
      · rintro ⟨hx, hkey⟩
        rcases Finset.mem_insert.mp hx with rfl | hx
        · exact absurd hkey.symm hhash
        · exact ⟨hx, hkey⟩
  · intro hash d
    rw [hstores.difficulty]
    by_cases hhash : hash = h.hash
    · subst hhash
      rw [Function.update_self, Option.some.injEq, ← hins.totalWeight_eq ht]
      constructor
      · rintro rfl
        exact ⟨h, Finset.mem_insert_self _ _, rfl, rfl⟩
      · rintro ⟨x, hx, hkey, rfl⟩
        rcases Finset.mem_insert.mp hx with rfl | hx
        · rfl
        · exact absurd hkey (hins.fresh x hx)
    · rw [Function.update_of_ne hhash, htracks.difficulty]
      constructor
      · rintro ⟨x, hx, hkey, hd⟩
        exact ⟨x, Finset.mem_insert_of_mem hx, hkey, (hweight x hx).trans hd⟩
      · rintro ⟨x, hx, hkey, hd⟩
        rcases Finset.mem_insert.mp hx with rfl | hx
        · exact absurd hkey.symm hhash
        · exact ⟨x, hx, hkey, (hweight x hx).symm.trans hd⟩
  · rcases hhead with ⟨rfl, _⟩ | ⟨rfl, _, _⟩
    · exact Finset.mem_insert_self _ _
    · exact Finset.mem_insert_of_mem hmemHead
  · rcases hhead with ⟨rfl, _⟩ | ⟨rfl, hne, _⟩
    · exact leaf_insert_self ht hins.fresh
    · exact htracks.head_leaf.insert ht hmemHead hins.parent_mem hins.parent_hash hne hins.fresh
  · intro x hx
    rcases hhead with ⟨rfl, hle⟩ | ⟨rfl, _, hle⟩
    · rcases Finset.mem_insert.mp hx with rfl | hx
      · exact le_rfl
      · rw [hweight x hx]
        exact (htracks.heaviest x hx).trans hle
    · rw [hweight _ hmemHead]
      rcases Finset.mem_insert.mp hx with rfl | hx
      · exact hle
      · rw [hweight x hx]
        exact htracks.heaviest x hx

theorem CanInsert.headers_update (hins : CanInsert headerHash t h p) (htracks : Tracks headerHash t head b)
    (hash : Hash) (x : Header) (hstored : b.db.headers hash = some x) :
    Function.update b.db.headers h.hash (some h) hash = some x := by
  obtain ⟨hx, rfl⟩ := (htracks.headers hash x).mp hstored
  rw [Function.update_of_ne (hins.fresh x hx), hstored]

theorem CanInsert.difficulty_update (hins : CanInsert headerHash t h p) (htracks : Tracks headerHash t head b)
    (td : Nat) (hash : Hash) (d : Nat) (hstored : b.db.difficulty hash = some d) :
    Function.update b.db.difficulty h.hash (some td) hash = some d := by
  obtain ⟨x, hx, rfl, _⟩ := (htracks.difficulty hash d).mp hstored
  rw [Function.update_of_ne (hins.fresh x hx), hstored]

theorem writeCanonicalHeader_run (htracks : Tracks headerHash t head b) (ht : Grown headerShape root t)
    (hins : CanInsert headerHash t h head) (evnt : Event) :
    ∃ evnt' b', (writeCanonicalHeader evnt h).run b = .ok evnt' b'
      ∧ Tracks headerHash (insert h t) h b'
      ∧ b'.db.canonical = Function.update b.db.canonical h.number (some h.hash) := by
  obtain ⟨b₁, hrun, ⟨headers, difficulties, rfl⟩, hcaches⟩ := readTotalDifficulty_run htracks.caches h.parentHash
  rw [← hins.parent_hash, htracks.difficulty_of_mem htracks.head_mem] at hrun
  have hweight := hins.totalWeight_eq ht
  let newTD := totalWeight headerShape t head + h.difficulty
  refine ⟨{ (evnt.addNewHeader h).setDifficulty newTD with type := .head }, { b with
    db := b.db.writeCanonicalHeader h newTD
    headersCache := headers
    difficultyCache := difficulties
    currentHeader := some h
    currentDifficulty := some newTD }, ?_, ?_, rfl⟩
  · simp only [writeCanonicalHeader, EStateM.run_bind, ← hins.parent_hash, hrun, modifyDb,
      setCurrentHeader, EStateM.run_modify, EStateM.run_pure]
    rfl
  · refine htracks.insert ht hins ⟨rfl, rfl, ?_⟩ rfl (by rw [hweight]) (Or.inl ⟨rfl, ?_⟩)
    · exact ⟨hcaches.headers.mono (hins.headers_update (b := b) htracks),
        hcaches.difficulty.mono (hins.difficulty_update (b := b) htracks newTD)⟩
    · omega

structure Rewrites (t : Finset Header) (head h : Header) (old new : Nat → Option Hash) : Prop where
  newHead : new h.number = some h.hash
  above : ∀ z, Ancestor headerShape t z h → head.number ≤ z.number → z.number < h.number →
    new z.number = some z.hash
  frame : ∀ n, n ≠ h.number → n < head.number ∨ h.number < n → new n = old n

def indexAll (chain : List Header) (canonical : Nat → Option Hash) : Nat → Option Hash :=
  chain.foldl (fun canonical x => Function.update canonical x.number (some x.hash)) canonical

theorem foldl_writeCanonicalHash (chain : List Header) (s : Storage) :
    chain.foldl (fun db x => db.writeCanonicalHash x.number x.hash) s
      = { s with canonical := indexAll chain s.canonical } := by
  induction chain generalizing s with
  | nil => rfl
  | cons x chain ih =>
    rw [List.foldl_cons, ih]
    rfl

theorem indexAll_of_mem {n : Nat} {hash : Hash} (hunique : ∀ x ∈ chain, x.number = n → x.hash = hash)
    (canonical : Nat → Option Hash) (hn : canonical n = some hash ∨ ∃ x ∈ chain, x.number = n) :
    indexAll chain canonical n = some hash := by
  induction chain generalizing canonical with
  | nil =>
    rcases hn with hn | ⟨x, hx, _⟩
    · exact hn
    · simp at hx
  | cons x chain ih =>
    apply ih (fun y hy => hunique y (List.mem_cons_of_mem x hy))
    by_cases hx : n = x.number
    · left
      simp only [hx, Function.update_self, hunique x List.mem_cons_self hx.symm]
    · rcases hn with hn | ⟨y, hy, hyn⟩
      · left
        simp only [Function.update_of_ne hx, hn]
      · rcases List.mem_cons.mp hy with rfl | hy
        · exact absurd hyn.symm hx
        · exact Or.inr ⟨y, hy, hyn⟩

theorem indexAll_of_forall_ne {n : Nat} (hne : ∀ x ∈ chain, x.number ≠ n) (canonical : Nat → Option Hash) :
    indexAll chain canonical n = canonical n := by
  induction chain generalizing canonical with
  | nil => rfl
  | cons x chain ih =>
    have hrest := ih (fun y hy => hne y (List.mem_cons_of_mem x hy))
      (Function.update canonical x.number (some x.hash))
    rw [Function.update_of_ne (hne x List.mem_cons_self).symm] at hrest
    exact hrest

theorem advanceHead_run (hcaches : CachesOk b) (hzero : h.parentHash ≠ zeroHash) {parentTD : Nat}
    (hparent : b.db.difficulty h.parentHash = some parentTD)
    (hself : b.db.difficulty h.hash = some (parentTD + h.difficulty)) :
    ∃ b', (advanceHead h).run b = .ok (parentTD + h.difficulty) b'
      ∧ b'.db.headers = b.db.headers ∧ b'.db.difficulty = b.db.difficulty
      ∧ b'.db.canonical = Function.update b.db.canonical h.number (some h.hash)
      ∧ b'.currentHeader = some h ∧ b'.currentDifficulty = some (parentTD + h.difficulty)
      ∧ CachesOk b' := by
  let written : Blockchain := { b with
    db := ((b.db.writeHeadHash h.hash).writeHeadNumber h.number).writeCanonicalHash h.number
      h.hash }
  have hwritten : CachesOk written := ⟨hcaches.headers, hcaches.difficulty⟩
  obtain ⟨b₁, hrun, ⟨headers, difficulties, rfl⟩, hcaches₁⟩ := readTotalDifficulty_run hwritten h.parentHash
  have hread : written.db.difficulty h.parentHash = some parentTD := hparent
  rw [hread] at hrun
  have hupdate : Function.update b.db.difficulty h.hash (some (parentTD + h.difficulty)) = b.db.difficulty := by
    rw [← hself, Function.update_eq_self]
  refine ⟨{ written with
    db := written.db.writeTotalDifficulty h.hash (parentTD + h.difficulty)
    headersCache := headers
    difficultyCache := difficulties
    currentHeader := some h
    currentDifficulty := some (parentTD + h.difficulty) }, ?_, rfl, hupdate, rfl, rfl, rfl, hcaches₁.headers, ?_⟩
  · simp only [advanceHead, modifyDb, setCurrentHeader, EStateM.run_bind, EStateM.run_modify,
      ne_eq, hzero, not_false_eq_true, if_true]
    rw [show EStateM.run (readTotalDifficulty h.parentHash) _ = _ from hrun]
    rfl
  · change difficulties.Sound (Function.update b.db.difficulty h.hash _)
    rw [hupdate]
    exact hcaches₁.difficulty

theorem Collects.rewrites (ht : Grown headerShape root t) {y : Header}
    (hcollects : Collects t (min head.number h.number) h y chain) (canonical : Nat → Option Hash) :
    Rewrites t head h canonical
      (Function.update (indexAll chain canonical) h.number (some h.hash)) := by
  refine ⟨Function.update_self .., ?_, ?_⟩
  · intro z hz hge hlt
    have hmem : z ∈ chain := hcollects.complete z hz (by omega) hlt
    rw [Function.update_of_ne (by omega)]
    refine indexAll_of_mem ?_ canonical (Or.inr ⟨z, hmem, rfl⟩)
    intro x hx hnumber
    exact congrArg Header.hash ((hcollects.sound x hx).1.unique ht hz hnumber)
  · intro n hne hn
    rw [Function.update_of_ne hne]
    apply indexAll_of_forall_ne
    intro x hx hnumber
    obtain ⟨_, hge, hlt⟩ := hcollects.sound x hx
    omega

theorem writeFork_run (b : Blockchain) (h : Header) :
    ∃ forks, (writeFork h).run b = .ok () { b with db := b.db.writeForks forks } := by
  exact ⟨_, rfl⟩

theorem walks_run (ht : Grown headerShape root t) {fuel : Nat} (hread : Readable headerHash t b)
    (hhead : head ∈ t) (hh : h ∈ t) (hapart : ¬ Ancestor headerShape t head h)
    (hfuelHead : head.number < fuel) (hfuel : h.number < fuel) :
    ∃ old oldChain b₁ new newChain b₂ chain b₃,
      (walkDown headerHash h.number fuel head []).run b = .ok (old, oldChain) b₁
      ∧ (walkDown headerHash old.number fuel h []).run b₁ = .ok (new, newChain) b₂
      ∧ (walkTogether headerHash fuel old new oldChain).run b₂ = .ok chain b₃
      ∧ chain.isEmpty = false ∧ CacheStep b b₃
      ∧ Collects t (min head.number h.number) h new newChain := by
  obtain ⟨old, oldChain, b₁, hrun₁, hstep₁, hold⟩ := walkDown_run ht h.number [] hread hhead hfuelHead
  have hread₁ := hread.of_cacheStep hstep₁
  obtain ⟨new, newChain, b₂, hrun₂, hstep₂, hnew⟩ := walkDown_run ht old.number [] hread₁ hh hfuel
  have hread₂ := hread₁.of_cacheStep hstep₂
  have holdNumber := hold.reached
  have hnewNumber := hnew.reached
  obtain ⟨rest, b₃, hrun₃, hstep₃, hrest⟩ :=
    walkTogether_run ht oldChain hread₂ (hold.ancestor.mem hhead) (hnew.ancestor.mem hh) (by omega)
      (show old.number < fuel by omega)
  have hnonempty : (oldChain ++ rest).isEmpty = false := by
    rw [List.isEmpty_eq_false_iff]
    intro hnil
    obtain ⟨rfl, rfl⟩ := List.append_eq_nil_iff.mp hnil
    rcases Nat.lt_or_ge h.number head.number with hlt | hge
    · obtain ⟨z, hz, hzlevel⟩ := ht.exists_ancestor hhead (n := h.number) hlt.le
      have hznumber : z.number = h.number := hzlevel
      exact List.not_mem_nil (hold.complete z hz hznumber.ge (by omega))
    · have heq : old = new := by
        by_contra hne
        exact hrest hne rfl
      have hnumber : old.number = head.number := by omega
      exact hapart (hold.ancestor.eq_of_level_eq hnumber ▸ heq ▸ hnew.ancestor)
  rw [List.nil_append] at hrun₁ hrun₂
  exact ⟨old, oldChain, b₁, new, newChain, b₂, oldChain ++ rest, b₃, hrun₁, hrun₂, hrun₃, hnonempty,
    (hstep₁.trans hstep₂).trans hstep₃, holdNumber ▸ hnew⟩

theorem handleReorg_run (ht : Grown headerShape root t) {fuel : Nat} (hread : Readable headerHash t b)
    (hhead : head ∈ t) (hh : h ∈ t) (hapart : ¬ Ancestor headerShape t head h)
    (hfuelHead : head.number < fuel) (hfuel : h.number < fuel) (hzero : h.parentHash ≠ zeroHash)
    {parentTD : Nat} (hparent : b.db.difficulty h.parentHash = some parentTD)
    (hself : b.db.difficulty h.hash = some (parentTD + h.difficulty)) (evnt : Event) :
    ∃ evnt' b', (handleReorg headerHash fuel evnt head h).run b = .ok evnt' b'
      ∧ b'.db.headers = b.db.headers ∧ b'.db.difficulty = b.db.difficulty
      ∧ Rewrites t head h b.db.canonical b'.db.canonical
      ∧ b'.currentHeader = some h ∧ b'.currentDifficulty = some (parentTD + h.difficulty)
      ∧ CachesOk b' := by
  obtain ⟨old, oldChain, b₁, new, newChain, b₂, chain, b₃, hrun₁, hrun₂, hrun₃, hnonempty,
    ⟨⟨headers, difficulties, rfl⟩, hcaches₃⟩, hnew⟩ := walks_run ht hread hhead hh hapart hfuelHead hfuel
  obtain ⟨forks, hfork⟩ :=
    writeFork_run { b with headersCache := headers, difficultyCache := difficulties } head
  have hwritten : CachesOk { b with
      db := { b.db.writeForks forks with
        canonical := indexAll newChain (b.db.writeForks forks).canonical }
      headersCache := headers
      difficultyCache := difficulties } := ⟨hcaches₃.headers, hcaches₃.difficulty⟩
  obtain ⟨b₄, hrun₄, hheaders, hdifficulty, hcanonical, hcurrent, htd, hcaches⟩ :=
    advanceHead_run hwritten hzero hparent hself
  simp only [handleReorg, EStateM.run_bind, hrun₁, hrun₂, hrun₃, hnonempty, Bool.false_eq_true,
    if_false, EStateM.run_pure, hfork, modifyDb, EStateM.run_modify, foldl_writeCanonicalHash, hrun₄]
  refine ⟨_, b₄, rfl, hheaders, hdifficulty, ?_, hcurrent, htd, hcaches⟩
  rw [hcanonical]
  exact hnew.rewrites ht b.db.canonical

inductive HeadMove (t : Finset Header) (head h p : Header) (old new : Nat → Option Hash) :
    Header → Prop where
  | extend (hparent : p = head)
      (hcanonical : new = Function.update old h.number (some h.hash)) :
      HeadMove t head h p old new h
  | reorg (hparent : p ≠ head)
      (hheavier : totalWeight headerShape t head < totalWeight headerShape t p + h.difficulty)
      (hcanonical : Rewrites (insert h t) head h old new) : HeadMove t head h p old new h
  | fork (hparent : p ≠ head)
      (hlighter : totalWeight headerShape t p + h.difficulty ≤ totalWeight headerShape t head)
      (hcanonical : new = old) : HeadMove t head h p old new head

theorem Tracks.readable (htracks : Tracks headerHash t head b) : Readable headerHash t b := by
  refine ⟨?_, fun x hx => (htracks.headers x.hash x).mpr ⟨hx, rfl⟩, htracks.caches⟩
  intro hash x hstored
  exact htracks.sealed x ((htracks.headers hash x).mp hstored).1

theorem Tracks.of_cacheStep {b' : Blockchain} (h : Tracks headerHash t head b) (hstep : CacheStep b b') :
    Tracks headerHash t head b' := by
  obtain ⟨⟨_, _, rfl⟩, hcaches⟩ := hstep
  exact ⟨h.sealed, h.headers, h.difficulty, h.current, h.currentDifficulty, h.head_mem, h.head_leaf,
    h.heaviest, hcaches⟩

theorem Tracks.header_run (htracks : Tracks headerHash t head b) : (header).run b = .ok head b := by
  simp only [header, EStateM.run_bind, EStateM.run_get, htracks.current, EStateM.run_pure]

theorem CanInsert.cachesOk (hins : CanInsert headerHash t h p) (htracks : Tracks headerHash t head b) :
    CachesOk { b with db := b.db.writeHeader h } :=
  ⟨htracks.caches.headers.mono (hins.headers_update htracks), htracks.caches.difficulty⟩

theorem CanInsert.stores (hins : CanInsert headerHash t h p) (htracks : Tracks headerHash t head b)
    {b' : Blockchain} (hstep : CacheStep { b with db := b.db.writeHeader h } b') :
    Stores t h p b { b' with
      db := b'.db.writeTotalDifficulty h.hash (totalWeight headerShape t p + h.difficulty)
      headersCache := b'.headersCache.add h.hash h } := by
  obtain ⟨⟨headers, difficulties, rfl⟩, hcaches⟩ := hstep
  exact ⟨rfl, rfl, hcaches.headers.add (Function.update_self ..),
    hcaches.difficulty.mono (hins.difficulty_update (b := b) htracks _)⟩

theorem Tracks.parentHash_ne (htracks : Tracks headerHash t head b) (ht : Grown headerShape root t)
    (hp : p ∈ t) (hhash : p.hash = h.parentHash) (hslow : p ≠ head) : h.parentHash ≠ head.hash :=
  fun heq => hslow (ht.eq_of_key_eq hp htracks.head_mem (hhash.trans heq))

theorem writeHeaderImpl_slow (htracks : Tracks headerHash t head b) (hins : CanInsert headerHash t h p)
    (hslow : p ≠ head) (ht : Grown headerShape root t) (fuel : Nat) (evnt : Event) :
    ∃ b', Stores t h p b b' ∧ b'.db.canonical = b.db.canonical
      ∧ b'.currentHeader = b.currentHeader ∧ b'.currentDifficulty = b.currentDifficulty
      ∧ (writeHeaderImpl headerHash fuel evnt h).run b
        = (if totalWeight headerShape t p + h.difficulty > totalWeight headerShape t head then
            handleReorg headerHash fuel evnt head h
          else do
            writeFork h
            return { evnt.addOldHeader h with type := .fork }).run b' := by
  obtain ⟨b₂, hrun₂, hstep₂⟩ := readTotalDifficulty_run (hins.cachesOk htracks) head.hash
  obtain ⟨b₃, hrun₃, hstep₃⟩ := readTotalDifficulty_run hstep₂.2 h.parentHash
  have hhead : (b.db.writeHeader h).difficulty head.hash
      = some (totalWeight headerShape t head) := htracks.difficulty_of_mem htracks.head_mem
  have hparent : (b.db.writeHeader h).difficulty h.parentHash = some (totalWeight headerShape t p) :=
    hins.parent_hash ▸ htracks.difficulty_of_mem hins.parent_mem
  rw [hhead] at hrun₂
  rw [hstep₂.db_eq, hparent] at hrun₃
  have hstores := hins.stores htracks (hstep₂.trans hstep₃)
  obtain ⟨⟨headers, difficulties, rfl⟩, _⟩ := hstep₂.trans hstep₃
  refine ⟨_, hstores, rfl, rfl, rfl, ?_⟩
  simp only [writeHeaderImpl, EStateM.run_bind, htracks.header_run,
    htracks.parentHash_ne ht hins.parent_mem hins.parent_hash hslow, if_false, modifyDb,
    EStateM.run_modify, hrun₂, hrun₃]

theorem Stores.readable {b' : Blockchain} (hstores : Stores t h p b b') (htracks : Tracks headerHash t head b)
    (hins : CanInsert headerHash t h p) : Readable headerHash (insert h t) b' := by
  refine ⟨?_, ?_, hstores.caches⟩
  · intro hash x hstored
    rw [hstores.headers] at hstored
    by_cases hhash : hash = h.hash
    · rw [hhash, Function.update_self, Option.some.injEq] at hstored
      exact hstored ▸ hins.sealed
    · rw [Function.update_of_ne hhash] at hstored
      exact htracks.readable.sealed hash x hstored
  · intro x hx
    rw [hstores.headers]
    rcases Finset.mem_insert.mp hx with rfl | hx
    · exact Function.update_self ..
    · exact hins.headers_update htracks x.hash x (htracks.readable.stored x hx)

theorem CanInsert.not_ancestor (hins : CanInsert headerHash t h p) (htracks : Tracks headerHash t head b)
    (ht : Grown headerShape root t) (hslow : p ≠ head) : ¬ Ancestor headerShape (insert h t) head h := by
  intro hancestor
  have hleaf : Leaf headerShape (insert h t) head :=
    htracks.head_leaf.insert ht htracks.head_mem hins.parent_mem hins.parent_hash hslow hins.fresh
  have heq : h = head := hleaf.eq_of_ancestor hancestor
  exact hins.fresh head htracks.head_mem (congrArg Header.hash heq.symm)

theorem writeHeaderImpl_run (htracks : Tracks headerHash t head b) (ht : Grown headerShape root t)
    (hins : CanInsert headerHash t h p) (hzero : h.parentHash ≠ zeroHash) {fuel : Nat}
    (hfuelHead : head.number < fuel) (hfuel : h.number < fuel) (evnt : Event) :
    ∃ evnt' b' head', (writeHeaderImpl headerHash fuel evnt h).run b = .ok evnt' b'
      ∧ Tracks headerHash (insert h t) head' b'
      ∧ HeadMove t head h p b.db.canonical b'.db.canonical head' := by
  by_cases hparent : p = head
  · subst hparent
    obtain ⟨evnt', b', hrun, htracks', hcanonical⟩ := writeCanonicalHeader_run htracks ht hins evnt
    refine ⟨evnt', b', h, ?_, htracks', .extend rfl hcanonical⟩
    simp only [writeHeaderImpl, EStateM.run_bind, htracks.header_run, hins.parent_hash, if_true, hrun]
  · obtain ⟨b₁, hstores, hcanonical, hcurrent, htd, hrun⟩ := writeHeaderImpl_slow htracks hins hparent ht fuel evnt
    have ht' := hins.grown ht
    have hweight := hins.totalWeight_eq ht
    by_cases hheavier :
        totalWeight headerShape t p + h.difficulty > totalWeight headerShape t head
    · have hapart := hins.not_ancestor htracks ht hparent
      have hparentTD : b₁.db.difficulty h.parentHash = some (totalWeight headerShape t p) := by
        rw [hstores.difficulty, ← hins.parent_hash]
        exact hins.difficulty_update htracks _ p.hash _ (htracks.difficulty_of_mem hins.parent_mem)
      have hselfTD : b₁.db.difficulty h.hash = some (totalWeight headerShape t p + h.difficulty) := by
        rw [hstores.difficulty, Function.update_self]
      obtain ⟨evnt', b', hrun', hheaders, hdifficulty, hrewrites, hcurrent', htd', hcaches⟩ :=
        handleReorg_run ht' (hstores.readable htracks hins)
          (Finset.mem_insert_of_mem htracks.head_mem) (Finset.mem_insert_self h t) hapart hfuelHead
          hfuel hzero hparentTD hselfTD evnt
      rw [if_pos hheavier, hrun'] at hrun
      rw [hcanonical] at hrewrites
      refine ⟨evnt', b', h, hrun, ?_, .reorg hparent hheavier hrewrites⟩
      refine htracks.insert ht hins ⟨hheaders.trans hstores.headers,
        hdifficulty.trans hstores.difficulty, hcaches⟩ hcurrent' (hweight ▸ htd') (Or.inl ⟨rfl, ?_⟩)
      omega
    · obtain ⟨forks, hfork⟩ := writeFork_run b₁ h
      simp only [if_neg hheavier, EStateM.run_bind, hfork] at hrun
      have hstores' : Stores t h p b { b₁ with db := b₁.db.writeForks forks } :=
        ⟨hstores.headers, hstores.difficulty, hstores.caches.headers, hstores.caches.difficulty⟩
      refine ⟨_, _, head, hrun, ?_, .fork hparent (by omega) hcanonical⟩
      refine htracks.insert ht hins hstores' ?_ ?_ (Or.inr ⟨rfl, hparent, ?_⟩)
      · exact hcurrent.trans htracks.current
      · rw [totalWeight_insert ht htracks.head_mem hins.fresh]
        exact htd.trans htracks.currentDifficulty
      · omega

theorem writeHeaderImpl_again (htracks : Tracks headerHash t head b) (ht : Grown headerShape root t)
    (hp : IsParent headerShape t h p) (fuel : Nat) (evnt : Event) :
    ∃ evnt' b', (writeHeaderImpl headerHash fuel evnt h).run b = .ok evnt' b' ∧ Tracks headerHash t head b' := by
  have hslow : p ≠ head := by
    rintro rfl
    exact htracks.head_leaf h hp
  have hwrite : b.db.writeHeader h = b.db := by
    rw [Storage.writeHeader, ← htracks.readable.stored h hp.1, Function.update_eq_self]
  have hweight : totalWeight headerShape t h = totalWeight headerShape t p + h.difficulty :=
    totalWeight_parent ht hp
  have hdifficulty : b.db.writeTotalDifficulty h.hash (totalWeight headerShape t p + h.difficulty) = b.db := by
    rw [Storage.writeTotalDifficulty, ← hweight, ← htracks.difficulty_of_mem hp.1, Function.update_eq_self]
  have hparent : b.db.difficulty h.parentHash = some (totalWeight headerShape t p) := by
    have hkey : p.hash = h.parentHash := hp.2.2.1
    rw [← hkey, htracks.difficulty_of_mem hp.2.1]
  obtain ⟨b₁, hrun₁, hstep₁⟩ := readTotalDifficulty_run htracks.caches head.hash
  obtain ⟨b₂, hrun₂, hstep₂⟩ := readTotalDifficulty_run hstep₁.2 h.parentHash
  rw [htracks.difficulty_of_mem htracks.head_mem] at hrun₁
  rw [hstep₁.db_eq, hparent] at hrun₂
  obtain ⟨⟨headers, difficulties, rfl⟩, hcaches⟩ := hstep₁.trans hstep₂
  have hheaviest := htracks.heaviest h hp.1
  simp only [writeHeaderImpl, EStateM.run_bind, htracks.header_run,
    htracks.parentHash_ne ht hp.2.1 hp.2.2.1 hslow, if_false, modifyDb, EStateM.run_modify, hwrite, hrun₁,
    hrun₂, hdifficulty, if_neg (show ¬ totalWeight headerShape t p + h.difficulty >
      totalWeight headerShape t head by omega)]
  refine ⟨_, _, rfl, htracks.sealed, htracks.headers, htracks.difficulty, htracks.current,
    htracks.currentDifficulty, htracks.head_mem, htracks.head_leaf, htracks.heaviest, ?_⟩
  exact ⟨hcaches.headers.add (htracks.readable.stored h hp.1), hcaches.difficulty⟩

end Insertion

end Nxchain.Blockchain
