import Nxchain.BlockWriting
import Nxchain.Lib.Stateful
import Nxchain.Lib.Except
import Nxchain.Proof.ForkChoice

namespace Nxchain.BlockStore

open ForkTree Stateful

open Blockchain (headerShape Tracks CanInsert)

variable {e : BlockStore → Prop} {headerHash : Header → Hash} {f : BlockStore → BlockStore}
  {q : Unit → BlockStore → Prop}

def headDifficulty (b : Blockchain) : Option Nat :=
  b.currentHeader.bind fun head => (b.difficultyCache.peek head.hash).or (b.db.difficulty head.hash)

structure View where
  head : Option Header
  difficulty : Option Nat
  canonical : Nat → Option Hash
  storedHash : Option Hash
  storedNumber : Option Nat

def visible (s : BlockStore) : View where
  head := s.chain.currentHeader
  difficulty := headDifficulty s.chain
  canonical := s.chain.db.canonical
  storedHash := s.chain.db.headHash
  storedNumber := s.chain.db.headNumber

structure Kept (head : Header) (old : Storage) (b : Blockchain) : Prop where
  head_eq : b.currentHeader = some head
  canonical_eq : b.db.canonical = old.canonical
  headHash_eq : b.db.headHash = old.headHash
  headNumber_eq : b.db.headNumber = old.headNumber
  td_eq : b.db.difficulty head.hash = old.difficulty head.hash
  cached : ∀ d, b.difficultyCache.peek head.hash = some d → old.difficulty head.hash = some d

variable {env : WriteEnv} {head : Header} {old : Storage} {b : Blockchain} {s : BlockStore} {α : Type}

theorem Kept.visible_eq (hb : Kept head old s.chain) :
    s.visible = ⟨some head, old.difficulty head.hash, old.canonical, old.headHash, old.headNumber⟩ := by
  have htd : headDifficulty s.chain = old.difficulty head.hash := by
    rw [headDifficulty, hb.head_eq, Option.bind_some, hb.td_eq]
    cases hpeek : s.chain.difficultyCache.peek head.hash with
    | none => rfl
    | some d => exact (hb.cached d hpeek).symm
  rw [visible, hb.head_eq, hb.canonical_eq, hb.headHash_eq, hb.headNumber_eq, htd]

theorem kept_of_sound (hhead : b.currentHeader = some head)
    (hsound : b.difficultyCache.Sound b.db.difficulty) : Kept head b.db b :=
  ⟨hhead, rfl, rfl, rfl, rfl, fun d => hsound head.hash d⟩

theorem post_onChain {x : Blockchain.M α} {q : α → BlockStore → Prop}
    (hx : Post x s.chain (fun a chain => q a { s with chain }) fun chain => e { s with chain }) :
    Post (onChain x) s q e := by
  unfold Post at hx ⊢
  cases hres : x.run s.chain with
  | ok a chain =>
    have hrun : (onChain x).run s = .ok a { s with chain } := by
      change onChain x s = _
      simp only [onChain, hres]
    rw [hres] at hx
    rw [hrun]
    exact hx
  | error err chain =>
    have hrun : (onChain x).run s = .error (err.map .chain) { s with chain } := by
      change onChain x s = _
      simp only [onChain, hres]
    rw [hres] at hx
    rw [hrun]
    exact hx

theorem readTotalDifficulty_kept (hb : Kept head old b) (hash : Hash) (e : Blockchain → Prop) :
    Post (Blockchain.readTotalDifficulty hash) b (fun d b' => Kept head old b' ∧
      (b.difficultyCache.Sound b.db.difficulty → d = b.db.difficulty hash ∧
        ∃ cache, b' = { b with difficultyCache := cache } ∧ cache.Sound b.db.difficulty)) e := by
  refine post_bind (post_get ?_)
  split
  · rename_i d cache hget
    obtain ⟨hfound, hkeep⟩ := Lru.peek_of_get hget
    have hcached : Kept head old { b with difficultyCache := cache } := { hb with
      cached := fun held hpeek => hb.cached held (hkeep _ held hpeek) }
    refine post_bind (post_set (post_pure ⟨hcached, fun hsound => ?_⟩))
    exact ⟨(hsound hash d hfound).symm, cache, rfl, (hsound.get hget).2⟩
  · split
    · rename_i hdb
      exact post_pure ⟨hb, fun hsound => ⟨hdb.symm, _, rfl, hsound⟩⟩
    · rename_i d hdb
      have hcached : Kept head old { b with difficultyCache := b.difficultyCache.add hash d } := by
        refine { hb with cached := fun held hpeek => ?_ }
        obtain ⟨hhash, rfl⟩ | hold := Lru.peek_add_eq_some hpeek
        · rw [← hb.td_eq, hhash, hdb]
        · exact hb.cached held hold
      refine post_bind (post_set (post_pure ⟨hcached, fun hsound => ?_⟩))
      exact ⟨hdb.symm, _, rfl, hsound.add hdb⟩

section Reads

/- What does not depend on the cache of the headers. -/
variable {I : Blockchain → Prop} (hI : ∀ b headersCache, I b → I { b with headersCache })

include hI

theorem readHeader_keeps (hb : I b) (hash : Hash) (e : Blockchain → Prop) :
    Post (Blockchain.readHeader headerHash hash) b (fun _ => I) e := by
  refine post_bind (post_get ?_)
  split
  · exact post_bind (post_set (post_pure (hI b _ hb)))
  · split
    · exact post_pure hb
    · exact post_bind (post_set (post_pure (hI b _ hb)))

theorem readParent_keeps (hb : I b) (h : Header) :
    Post (Blockchain.readParent headerHash h) b (fun _ => I) I := by
  refine (readHeader_keeps hI hb h.parentHash _).bind fun found b' hb' => ?_
  cases found with
  | none => exact post_throw hb'
  | some parent => exact post_pure hb'

theorem walkDown_keeps (number fuel : Nat) (hb : I b) (h : Header) (chain : List Header) :
    Post (Blockchain.walkDown headerHash number fuel h chain) b (fun _ => I) I := by
  induction fuel generalizing b h chain with
  | zero => exact post_throw hb
  | succ fuel ih =>
    unfold Blockchain.walkDown
    split
    · exact (readParent_keeps hI hb h).bind fun parent b' hb' => ih hb' parent _
    · exact post_pure hb

theorem walkTogether_keeps (fuel : Nat) (hb : I b) (oldHeader newHeader : Header)
    (oldChain : List Header) :
    Post (Blockchain.walkTogether headerHash fuel oldHeader newHeader oldChain) b (fun _ => I) I := by
  induction fuel generalizing b oldHeader newHeader oldChain with
  | zero => exact post_throw hb
  | succ fuel ih =>
    unfold Blockchain.walkTogether
    split
    · refine (readParent_keeps hI hb oldHeader).bind fun oldParent b' hb' => ?_
      exact (readParent_keeps hI hb' newHeader).bind fun newParent b'' hb'' => ih hb'' _ _ _
    · exact post_pure hb

theorem walkReorg_keeps (fuel : Nat) (hb : I b) (oldHeader newHeader : Header) :
    Post (walkReorg env fuel oldHeader newHeader) b (fun _ => I) I := by
  refine (walkDown_keeps hI _ fuel hb oldHeader []).bind fun old b₁ hb₁ => ?_
  refine (walkDown_keeps hI _ fuel hb₁ newHeader []).bind fun new b₂ hb₂ => ?_
  refine (walkTogether_keeps hI fuel hb₂ old.1 new.1 old.2).bind fun oldChain b₃ hb₃ => ?_
  split
  · exact post_throw hb₃
  · exact post_pure hb₃

end Reads

theorem Kept.headersCache (b : Blockchain) (headersCache : Lru Hash Header) (hb : Kept head old b) :
    Kept head old { b with headersCache } := { hb with }

theorem post_put (hfail : env.fails s.writes = true → e { s with writes := s.writes + 1 })
    (hok : env.fails s.writes = false → q () { f s with writes := s.writes + 1 }) : Post (put env f) s q e := by
  refine post_bind (post_get ?_)
  split
  · rename_i hfails
    exact post_bind (post_set (post_throw (hfail hfails)))
  · rename_i hfails
    exact post_set (hok (by simpa using hfails))

def Passed (env : WriteEnv) (start n : Nat) : Prop := ∀ i < n, env.fails (start + i) = false

structure Counted (env : WriteEnv) (start n : Nat) (s : BlockStore) : Prop where
  writes_eq : s.writes = start + n
  passed : Passed env start n

variable {start n : Nat}

theorem Counted.next (hs : Counted env start n s) (hok : env.fails s.writes = false) {t : BlockStore}
    (ht : t.writes = s.writes + 1) : Counted env start (n + 1) t := by
  refine ⟨by rw [ht, hs.writes_eq]; omega, fun i hi => ?_⟩
  by_cases hin : i = n
  · rw [hin, ← hs.writes_eq]
    exact hok
  · exact hs.passed i (by omega)

theorem Counted.not_passed (hs : Counted env start n s) (hfails : env.fails s.writes = true) {m : Nat}
    (hn : n < m) : ¬ Passed env start m := by
  intro hpassed
  rw [hs.writes_eq, hpassed n hn] at hfails
  cases hfails

theorem post_put_counted (hs : Counted env start n s)
    (hfail : (∀ m, n < m → ¬ Passed env start m) → e { s with writes := s.writes + 1 })
    (hok : ∀ t, t = { f s with writes := s.writes + 1 } → Counted env start (n + 1) t → q () t) :
    Post (put env f) s q e :=
  post_put (fun h => hfail fun _ hn => hs.not_passed h hn) fun h => hok _ rfl (hs.next h rfl)

theorem forM_put_counted {as : List α} {f : α → BlockStore → BlockStore} (hf : ∀ a t, (f a t).chain = t.chain)
    (hs : Counted env start n s) :
    Post (as.forM fun a => put env (f a)) s
      (fun _ t => t.chain = s.chain ∧ Counted env start (n + as.length) t)
      fun t => t.chain = s.chain ∧ ¬ Passed env start (n + as.length) := by
  induction as generalizing s n with
  | nil => exact post_pure ⟨rfl, hs⟩
  | cons a as ih =>
    rw [List.length_cons, Nat.add_comm as.length, ← Nat.add_assoc]
    refine post_bind (post_put_counted hs (fun hnot => ⟨rfl, hnot _ (by omega)⟩) fun t ht hcount => ?_)
    have hchain : t.chain = s.chain := by rw [ht, hf]
    exact (ih hcount).mono (fun _ u hu => ⟨hu.1.trans hchain, hu.2⟩) fun u hu => ⟨hu.1.trans hchain, hu.2⟩

theorem post_check {ε : Type} {error : ε → WriteError} {x : Except ε α} {q : α → BlockStore → Prop}
    (hok : ∀ a, x = .ok a → q a s) (herr : (∀ a, x ≠ .ok a) → e s) : Post (check error x) s q e := by
  cases x with
  | ok a => exact post_pure (hok a rfl)
  | error err => exact post_throw (herr fun _ => by simp)

theorem length_recoverFromFields {block block' : Block} (hok : recoverFromFields env block = .ok block') :
    block'.header = block.header ∧ block'.transactions.length = block.transactions.length := by
  obtain ⟨transactions, hmap, hblock⟩ := Except.bind_eq_ok_iff.mp hok
  cases hblock
  exact ⟨rfl, (Except.mapM_eq_ok_iff.mp hmap).length_eq.symm⟩

theorem writeBody_post (block : Block) :
    Post (writeBody env block) s
      (fun block' t => t.chain = s.chain ∧ Counted env s.writes (block.transactions.length + 1) t ∧
        block'.header = block.header ∧ recoverFromFields env block = .ok block')
      fun t => t.chain = s.chain ∧ ((∃ block', recoverFromFields env block = .ok block') →
        ¬ Passed env s.writes (block.transactions.length + 1)) := by
  refine post_bind (post_check (fun block' hok => ?_) fun hnot => ⟨rfl, fun ⟨a, ha⟩ => absurd ha (hnot a)⟩)
  obtain ⟨hheader, hlength⟩ := length_recoverFromFields hok
  have hzero : Counted env s.writes 0 s := ⟨rfl, fun i hi => absurd hi (Nat.not_lt_zero i)⟩
  refine post_bind (post_put_counted hzero (fun hnot => ⟨rfl, fun _ => hnot _ (by omega)⟩)
    fun t ht hcount => ?_)
  have hchain : t.chain = s.chain := by rw [ht]
  refine post_bind ((forM_put_counted ?_ hcount).mono ?_ ?_)
  · exact fun _ _ => rfl
  · rintro _ u ⟨hu, hcount'⟩
    rw [hlength, Nat.zero_add, Nat.add_comm] at hcount'
    exact post_pure ⟨hu.trans hchain, hcount', hheader, hok⟩
  · rintro u ⟨hu, hnot⟩
    rw [hlength, Nat.zero_add, Nat.add_comm] at hnot
    exact ⟨hu.trans hchain, fun _ => hnot⟩

theorem extractBlockReceipts_keeps {I : BlockStore → Prop}
    (hI : ∀ s headersCache receiptsCache, I s →
      I { s with chain := { s.chain with headersCache }, receiptsCache }) (hs : I s) (block : Block) :
    Post (extractBlockReceipts env block) s (fun _ => I) I := by
  refine post_bind (post_get ?_)
  split
  · exact post_bind (post_set (post_pure (hI s s.chain.headersCache _ hs)))
  · have hread : Post (Blockchain.readHeader env.headerHash block.header.parentHash) s.chain
        (fun _ chain => I { s with chain }) fun chain => I { s with chain } :=
      readHeader_keeps (fun chain headersCache =>
        hI { s with chain } headersCache s.receiptsCache) hs _ _
    refine post_bind (post_onChain (hread.mono (fun parent chain hs => ?_) fun _ he => he))
    cases parent with
    | none => exact post_throw hs
    | some parent =>
      refine post_bind (post_check (fun receipts _ => ?_) fun _ => hs)
      exact post_bind (post_modify (post_pure (hI _ chain.headersCache _ hs)))

variable {h x : Header} {db : Storage}

def Shows (h x : Header) (db : Storage) : Prop :=
  db.headHash = some h.hash ∨ db.canonical x.number = some x.hash

theorem Shows.writeCanonicalHash (hdb : Shows h x db) {y : Header} (hy : y.number = x.number → y.hash = x.hash) :
    Shows h x (db.writeCanonicalHash y.number y.hash) := by
  refine hdb.imp_right fun hcanonical => ?_
  change Function.update db.canonical y.number (some y.hash) x.number = some x.hash
  by_cases hnumber : y.number = x.number
  · rw [hnumber, Function.update_self, hy hnumber]
  · rw [Function.update_of_ne (Ne.symm hnumber), hcanonical]

def Moved (h : Header) (old db : Storage) : Prop :=
  ∃ x : Header, old.canonical x.number ≠ some x.hash ∧ Shows h x db

abbrev KeepsShown (h x : Header) (m : M α) : Prop := ∀ s : BlockStore, Shows h x s.chain.db →
  Post m s (fun _ t => Shows h x t.chain.db) fun t => Shows h x t.chain.db

theorem keepsShown_bind {β : Type} {m : M α} {k : α → M β} (hm : KeepsShown h x m)
    (hk : ∀ a, KeepsShown h x (k a)) : KeepsShown h x (m >>= k) :=
  fun s hs => (hm s hs).bind fun a t ht => hk a t ht

theorem keepsShown_pure (a : α) : KeepsShown h x (pure a) := fun _ hs => post_pure hs

theorem keepsShown_throw (err : Fault WriteError) : KeepsShown h x (throw err : M α) :=
  fun _ hs => post_throw hs

theorem keepsShown_putDb {f : Storage → Storage} (hf : ∀ db, Shows h x db → Shows h x (f db)) :
    KeepsShown h x (putDb env f) :=
  fun s hs => post_put (fun _ => hs) fun _ => hf s.chain.db hs

theorem keepsShown_onChain {m : Blockchain.M α}
    (hm : ∀ b, Post m b (fun _ b' => b'.db = b.db) fun b' => b'.db = b.db) : KeepsShown h x (onChain m) := by
  refine fun s hs => post_onChain ((hm s.chain).mono (fun _ b' hdb => ?_) fun b' hdb => ?_)
  · exact hdb ▸ hs
  · exact hdb ▸ hs

theorem readTotalDifficulty_db (hash : Hash) (b : Blockchain) : Post (Blockchain.readTotalDifficulty hash) b
    (fun _ b' => b'.db = b.db) fun b' => b'.db = b.db := by
  refine post_bind (post_get ?_)
  split
  · exact post_bind (post_set (post_pure rfl))
  · split
    · exact post_pure rfl
    · exact post_bind (post_set (post_pure rfl))

theorem keepsShown_advanceHead (hx : h.number = x.number → h.hash = x.hash) :
    KeepsShown h x (advanceHead env h) := by
  have hrest : ∀ newTD, KeepsShown h x (do
      putDb env (·.writeTotalDifficulty h.hash newTD)
      onChain (Blockchain.setCurrentHeader h newTD)
      return newTD) := fun newTD =>
    keepsShown_bind (keepsShown_putDb fun _ hdb => hdb) fun _ =>
      keepsShown_bind (keepsShown_onChain fun _ => post_modify rfl) fun _ => keepsShown_pure newTD
  refine keepsShown_bind (keepsShown_putDb fun _ _ => .inl rfl) fun _ =>
    keepsShown_bind (keepsShown_putDb fun _ hdb => hdb) fun _ =>
    keepsShown_bind (keepsShown_putDb fun _ hdb => hdb.writeCanonicalHash hx) fun _ => ?_
  split
  · refine keepsShown_bind (keepsShown_onChain (readTotalDifficulty_db _)) fun found => ?_
    cases found with
    | none => exact keepsShown_bind (keepsShown_throw _) fun _ => hrest _
    | some parentTD => exact hrest (parentTD + h.difficulty)
  · exact hrest (0 + h.difficulty)

theorem keepsShown_forM {chain : List Header} (hchain : ∀ y ∈ chain, y.number = x.number → y.hash = x.hash) :
    KeepsShown h x (chain.forM fun y => putDb env (·.writeCanonicalHash y.number y.hash)) := by
  induction chain with
  | nil => exact keepsShown_pure ()
  | cons y chain ih =>
    exact keepsShown_bind
      (keepsShown_putDb fun _ hdb => hdb.writeCanonicalHash (hchain y List.mem_cons_self)) fun _ =>
        ih fun z hz => hchain z (List.mem_cons_of_mem y hz)

variable {sound late : Prop} {m : M α}

def Seen (sound late : Prop) (head h : Header) (old : Storage) (s : BlockStore) : Prop :=
  Kept head old s.chain ∧ (sound → ¬ late) ∨ late ∧ (sound → Moved h old s.chain.db)

abbrev Tells (sound late : Prop) (head h : Header) (old : Storage) (m : M α) (s : BlockStore) : Prop :=
  Post m s (fun _ => Seen sound late head h old) (Seen sound late head h old)

theorem tells_of_late (hlate : late) (hshown : sound →
      ∃ x : Header, old.canonical x.number ≠ some x.hash ∧ Shows h x s.chain.db ∧ KeepsShown h x m) :
    Tells sound late head h old m s := by
  by_cases hsound : sound
  · obtain ⟨x, hx, hshows, hm⟩ := hshown hsound
    exact (hm s hshows).mono (fun _ _ hshows => .inr ⟨hlate, fun _ => ⟨x, hx, hshows⟩⟩)
      fun _ hshows => .inr ⟨hlate, fun _ => ⟨x, hx, hshows⟩⟩
  · exact post_of_forall (fun _ _ => .inr ⟨hlate, (absurd · hsound)⟩)
      fun _ => .inr ⟨hlate, (absurd · hsound)⟩

def Unseen (head : Header) (f : Storage → Storage) : Prop := ∀ db, (f db).canonical = db.canonical ∧
  (f db).headHash = db.headHash ∧ (f db).headNumber = db.headNumber ∧
  (f db).difficulty head.hash = db.difficulty head.hash

theorem unseen_writeHeader : Unseen head (·.writeHeader h) := fun _ => ⟨rfl, rfl, rfl, rfl⟩

section Counting

variable (hs : Kept head old s.chain) (hcount : Counted env start n s)

include hs hcount

theorem post_putDb_kept {f : Storage → Storage} (hf : Unseen head f) {m : Nat} (hn : n < m)
    (hlate : late → Passed env start m)
    (hok : ∀ t, t.chain = { s.chain with db := f s.chain.db } → Kept head old t.chain →
      Counted env start (n + 1) t → q () t) :
    Post (putDb env f) s q (Seen sound late head h old) := by
  refine post_put_counted hcount (fun hnot => .inl ⟨hs, fun _ h => hnot m hn (hlate h)⟩)
    fun t ht hcount => hok t (by rw [ht]) ?_ hcount
  obtain ⟨hcanonical, hhash, hnumber, htd⟩ := hf s.chain.db
  rw [ht]
  exact ⟨hs.head_eq, hcanonical.trans hs.canonical_eq, hhash.trans hs.headHash_eq,
    hnumber.trans hs.headNumber_eq, htd.trans hs.td_eq, hs.cached⟩

theorem post_put_late (hlate : late ↔ Passed env start (n + 1)) :
    Post (put env f) s (fun _ t => late ∧ t.chain = (f s).chain) (Seen sound late head h old) :=
  post_put_counted hcount (fun hnot => .inl ⟨hs, fun _ h => hnot _ (Nat.lt_succ_self n) (hlate.mp h)⟩)
    fun t ht hcount => ⟨hlate.mpr hcount.passed, by rw [ht]⟩

theorem post_readTotalDifficulty {q : Option Nat → BlockStore → Prop} (hash : Hash)
    (hok : ∀ d t, Kept head old t.chain → Counted env start n t →
      (s.chain.difficultyCache.Sound s.chain.db.difficulty → d = s.chain.db.difficulty hash ∧
        ∃ cache, t.chain = { s.chain with difficultyCache := cache } ∧
          cache.Sound s.chain.db.difficulty) → q d t) :
    Post (onChain (Blockchain.readTotalDifficulty hash)) s q e :=
  post_onChain ((readTotalDifficulty_kept hs hash _).mono
    (fun d chain hfound => hok d { s with chain } hfound.1 ⟨hcount.writes_eq, hcount.passed⟩ hfound.2)
    fun _ he => he)

theorem writeCanonicalHeader_tells (hlate : late ↔ Passed env start (n + 2))
    (hcache : s.chain.difficultyCache.Sound s.chain.db.difficulty)
    (htd : sound → s.chain.db.difficulty h.parentHash ≠ none)
    (hfirst : sound → old.canonical h.number ≠ some h.hash) (evnt : Event) :
    Tells sound late head h old (writeCanonicalHeader env evnt h) s := by
  refine post_bind (post_readTotalDifficulty hs hcount h.parentHash fun found s hs hcount hread => ?_)
  cases found with
  | none => exact post_throw (.inl ⟨hs, fun hsound => absurd (hread hcache).1.symm (htd hsound)⟩)
  | some parentTD =>
    refine post_bind (post_putDb_kept hs hcount unseen_writeHeader (Nat.lt_succ_of_lt n.lt_succ_self)
      hlate.mp fun s _ hs hcount => ?_)
    refine (post_put_late hs hcount hlate).bind fun _ s hput => ?_
    refine tells_of_late hput.1 fun hsound => ⟨h, hfirst hsound, ?_, ?_⟩
    · rw [hput.2]
      exact .inl rfl
    · exact keepsShown_bind (keepsShown_putDb fun _ hdb => hdb) fun _ =>
        keepsShown_bind (keepsShown_putDb fun _ hdb => hdb.writeCanonicalHash fun _ => rfl) fun _ =>
        keepsShown_bind (keepsShown_putDb fun _ hdb => hdb) fun _ =>
        keepsShown_bind (keepsShown_onChain fun _ => post_modify rfl) fun _ => keepsShown_pure _

theorem writeFork_post {m : Nat} (hn : n < m) (hlate : late → Passed env start m)
    (hok : ∀ t, Kept head old t.chain → Counted env start (n + 1) t → q () t) (y : Header) :
    Post (writeFork env y) s q (Seen sound late head h old) :=
  post_bind (post_get (post_putDb_kept hs hcount (fun _ => ⟨rfl, rfl, rfl, rfl⟩) hn hlate
    fun t _ => hok t))

theorem handleReorg_tells (hlate : late ↔ Passed env start (n + 2)) {fuel : Nat}
    (hwalk : sound → ∃ oldChain x rest b', (walkReorg env fuel head h).run s.chain =
        .ok (oldChain, x :: rest) b' ∧ old.canonical x.number ≠ some x.hash ∧
      ∀ y ∈ h :: rest, y.number = x.number → y.hash = x.hash) (evnt : Event) :
    Tells sound late head h old (handleReorg env fuel evnt head h) s := by
  have hkept : Post (walkReorg env fuel head h) s.chain (fun _ => Kept head old) (Kept head old) :=
    walkReorg_keeps Kept.headersCache fuel hs head h
  refine post_bind (post_onChain ?_)
  unfold Post at hkept ⊢
  cases hrun : (walkReorg env fuel head h).run s.chain with
  | error err b' =>
    rw [hrun] at hkept
    refine .inl ⟨hkept, fun hsound => ?_⟩
    obtain ⟨_, _, _, _, hok, -⟩ := hwalk hsound
    cases hrun.symm.trans hok
  | ok chains b' =>
    rw [hrun] at hkept
    obtain ⟨oldChain, newChain⟩ := chains
    have hfirst : sound → ∃ x rest, newChain = x :: rest ∧ old.canonical x.number ≠ some x.hash ∧
        ∀ y ∈ h :: rest, y.number = x.number → y.hash = x.hash := by
      intro hsound
      obtain ⟨_, x, rest, _, hok, hx⟩ := hwalk hsound
      cases hrun.symm.trans hok
      exact ⟨x, rest, rfl, hx⟩
    have hcount : Counted env start n { s with chain := b' } := ⟨hcount.writes_eq, hcount.passed⟩
    refine post_bind (writeFork_post hkept hcount (Nat.lt_succ_of_lt n.lt_succ_self) hlate.mp
      (fun s hs hcount => ?_) head)
    cases newChain with
    | nil =>
      rw [List.forM_eq_forM, List.forM_nil, pure_bind, advanceHead, bind_assoc]
      refine (post_put_late hs hcount hlate).bind fun _ s hput => tells_of_late hput.1 fun hsound => ?_
      obtain ⟨_, _, hnil, -⟩ := hfirst hsound
      cases hnil
    | cons x rest =>
      rw [List.forM_eq_forM, List.forM_cons, bind_assoc]
      refine (post_put_late hs hcount hlate).bind fun _ s hput => tells_of_late hput.1 fun hsound => ?_
      obtain ⟨_, _, ⟨⟩, hx, hunique⟩ := hfirst hsound
      obtain ⟨hhead, hrest⟩ := List.forall_mem_cons.mp hunique
      refine ⟨x, hx, ?_, ?_⟩
      · rw [hput.2]
        exact .inr (Function.update_self ..)
      · exact keepsShown_bind (keepsShown_forM hrest) fun _ =>
          keepsShown_bind (keepsShown_advanceHead hhead) fun _ => keepsShown_pure _

end Counting

def Adopts (b : Blockchain) (head h : Header) : Prop :=
  h.parentHash = head.hash ∨ ∃ parentTD headTD, b.db.difficulty h.parentHash = some parentTD ∧
    b.db.difficulty head.hash = some headTD ∧ headTD < parentTD + h.difficulty

def unseenWrites (head h : Header) : Nat := if h.parentHash = head.hash then 1 else 3

section Sound

variable {p root : Header} {t : Finset Header} {fuel : Nat}

structure Indexed (head : Header) (db : Storage) : Prop where
  headHash : db.headHash = some head.hash
  canonical : db.canonical head.number = some head.hash
  above : ∀ n, head.number < n → db.canonical n = none

theorem walkReorg_run (ht : Grown headerShape root t) (hread : Blockchain.Readable env.headerHash t b)
    (hhead : head ∈ t) (hh : h ∈ t) (hapart : ¬ Ancestor headerShape t head h) (hfuelHead : head.number < fuel)
    (hfuel : h.number < fuel) :
    ∃ oldChain newChain new b', (walkReorg env fuel head h).run b = .ok (oldChain, newChain) b' ∧
      Blockchain.Collects t (min head.number h.number) h new newChain := by
  obtain ⟨old, oldChain, b₁, new, newChain, b₂, chain, b₃, hrun₁, hrun₂, hrun₃, hnonempty, -, hnew⟩ :=
    Blockchain.walks_run ht hread hhead hh hapart hfuelHead hfuel
  refine ⟨chain, newChain, new, b₃, ?_, hnew⟩
  simp only [walkReorg, EStateM.run_bind, hrun₁, hrun₂, hrun₃, hnonempty, Bool.false_eq_true, if_false,
    EStateM.run_pure]

theorem walkReorg_first (ht : Grown headerShape root t)
    (hread : Blockchain.Readable env.headerHash t b) (hhead : head ∈ t) (hh : h ∈ t)
    (hp : IsParent headerShape t h p) (hapart : ¬ Ancestor headerShape t head h)
    (habove : head.number < h.number) (hfuel : h.number < fuel) (hold : Indexed head old) :
    ∃ oldChain x rest b', (walkReorg env fuel head h).run b = .ok (oldChain, x :: rest) b' ∧
      old.canonical x.number ≠ some x.hash ∧
      ∀ y ∈ h :: rest, y.number = x.number → y.hash = x.hash := by
  obtain ⟨oldChain, newChain, new, b', hrun, hnew⟩ :=
    @walkReorg_run env head b h root t fuel ht hread hhead hh hapart (by omega) hfuel
  rw [min_eq_left habove.le] at hnew
  have hlevel : h.number = p.number + 1 := hp.2.2.2
  have hmem : p ∈ newChain := hnew.complete p hp.ancestor (by omega) (by omega)
  obtain ⟨x, rest, rfl⟩ := List.exists_cons_of_ne_nil (List.ne_nil_of_mem hmem)
  obtain ⟨hx, hxlow, hxhigh⟩ := hnew.sound x List.mem_cons_self
  refine ⟨oldChain, x, rest, b', hrun, ?_, ?_⟩
  · obtain heq | hlt := hxlow.eq_or_lt
    · rw [← heq, hold.canonical]
      intro hsame
      exact hapart (ht.eq_of_key_eq hhead (hx.mem hh) (Option.some.inj hsame) ▸ hx)
    · rw [hold.above x.number hlt]
      exact (Option.some_ne_none _).symm
  · refine List.forall_mem_cons.mpr ⟨fun hnumber => absurd hnumber (by omega), fun y hy hnumber => ?_⟩
    exact congrArg Header.hash
      ((hnew.sound y (List.mem_cons_of_mem x hy)).1.unique ht hx hnumber)

structure Verified (env : WriteEnv) (b : Blockchain) (h : Header) : Prop where
  number : ∀ p, b.db.headers h.parentHash = some p → h.number = p.number + 1
  unique : ∀ x, b.db.headers h.hash = some x → x = h
  sealed : env.headerHash h = h.hash

theorem Adopts.canInsert (hadopts : Adopts b head h) (htracks : Tracks env.headerHash t head b)
    (ht : Grown headerShape root t) (hverified : Verified env b h) :
    ∃ p, CanInsert env.headerHash t h p ∧ (p ≠ head →
      totalWeight headerShape t head < totalWeight headerShape t p + h.difficulty) := by
  have hparent : ∃ p ∈ t, p.hash = h.parentHash ∧ (p ≠ head →
      totalWeight headerShape t head < totalWeight headerShape t p + h.difficulty) := by
    obtain hhash | ⟨parentTD, headTD, hparentTD, hheadTD, hlt⟩ := hadopts
    · exact ⟨head, htracks.head_mem, hhash.symm, fun hne => absurd rfl hne⟩
    · obtain ⟨p, hp, hhash, rfl⟩ := (htracks.difficulty _ _).mp hparentTD
      rw [htracks.difficulty_of_mem htracks.head_mem] at hheadTD
      exact ⟨p, hp, hhash, fun _ => Option.some.inj hheadTD ▸ hlt⟩
  obtain ⟨p, hp, hhash, hheavier⟩ := hparent
  have hnumber := hverified.number p ((htracks.headers _ _).mpr ⟨hp, hhash⟩)
  refine ⟨p, ⟨hp, hhash, hnumber, fun x hx hsame => ?_, hverified.sealed⟩, hheavier⟩
  obtain rfl := hverified.unique x ((htracks.headers _ _).mpr ⟨hx, hsame⟩)
  have hchild : IsParent headerShape t x p := ⟨hx, hp, hhash, hnumber⟩
  by_cases hslow : p = head
  · exact htracks.head_leaf x (hslow ▸ hchild)
  · have hweight : totalWeight headerShape t x = totalWeight headerShape t p + x.difficulty :=
      totalWeight_parent ht hchild
    have hlighter := htracks.heaviest x hx
    have hlt := hheavier hslow
    omega

structure OnTree (env : WriteEnv) (fuel : Nat) (head h : Header) (b : Blockchain) : Prop where
  tree : ∃ root t, Grown headerShape root t ∧ Tracks env.headerHash t head b
  indexed : Indexed head b.db
  verified : Verified env b h
  lt_fuel : h.number < fuel

theorem writeHeaderImpl_tells (hs : Kept head s.chain.db s.chain)
    (hcache : s.chain.difficultyCache.Sound s.chain.db.difficulty) (hcount : Counted env start n s)
    (hne : h.hash ≠ head.hash) (habove : head.number < h.number)
    (hlate : late ↔ Adopts s.chain head h ∧ Passed env start (n + unseenWrites head h + 1))
    (evnt : Event) :
    Tells (OnTree env fuel head h s.chain) late head h s.chain.db
      (writeHeaderImpl env fuel evnt h) s := by
  have hfirst : OnTree env fuel head h s.chain → s.chain.db.canonical h.number ≠ some h.hash := by
    intro hsound
    rw [hsound.indexed.above h.number habove]
    exact (Option.some_ne_none _).symm
  have htd : OnTree env fuel head h s.chain → s.chain.db.difficulty head.hash ≠ none := by
    intro hsound
    obtain ⟨_, _, -, htracks⟩ := hsound.tree
    rw [htracks.difficulty_of_mem htracks.head_mem]
    exact Option.some_ne_none _
  unfold unseenWrites at hlate
  refine post_bind (post_onChain (post_bind (post_get ?_)))
  rw [hs.head_eq]
  refine post_pure ?_
  split
  · rename_i hparent
    rw [if_pos hparent, and_iff_right (.inl hparent)] at hlate
    exact writeCanonicalHeader_tells hs hcount hlate hcache (hparent ▸ htd) hfirst evnt
  rename_i hparent
  rw [if_neg hparent] at hlate
  refine post_bind (post_putDb_kept hs hcount unseen_writeHeader (by omega) (fun h => (hlate.mp h).2)
    fun s₁ hs₁ hs hcount => ?_)
  refine post_bind (post_readTotalDifficulty hs hcount head.hash fun current s₂ hs hcount hcurrent => ?_)
  obtain ⟨hcurrent, cache₂, hs₂, hcache₂⟩ := hcurrent (hs₁ ▸ hcache)
  rw [hs₁] at hcurrent hs₂ hcache₂
  cases current with
  | none => exact post_throw (.inl ⟨hs, fun hsound => absurd hcurrent.symm (htd hsound)⟩)
  | some currentTD =>
    refine post_bind (post_readTotalDifficulty hs hcount h.parentHash fun parent s₃ hs hcount hup => ?_)
    obtain ⟨hup, cache₃, hs₃, hcache₃⟩ := hup (hs₂ ▸ hcache₂)
    rw [hs₂] at hup hs₃ hcache₃
    have hadopts : late → ∃ parentTD, parent = some parentTD ∧ currentTD < parentTD + h.difficulty := by
      intro hlate'
      obtain hfast | ⟨parentTD, headTD, hparentTD, hheadTD, hlt⟩ := (hlate.mp hlate').1
      · exact absurd hfast hparent
      · cases hcurrent.trans hheadTD
        exact ⟨parentTD, hup.trans hparentTD, hlt⟩
    cases parent with
    | none =>
      refine post_throw (.inl ⟨hs, fun _ hlate => ?_⟩)
      obtain ⟨_, hnone, -⟩ := hadopts hlate
      cases hnone
    | some parentTD =>
      have hunseen : Unseen head (·.writeTotalDifficulty h.hash (parentTD + h.difficulty)) := fun db =>
        ⟨rfl, rfl, rfl, Function.update_of_ne hne.symm _ _⟩
      refine post_bind (post_putDb_kept hs hcount hunseen (by omega) (fun h => (hlate.mp h).2)
        fun s₄ hs₄ hs hcount => ?_)
      refine post_bind (post_onChain (post_modify ?_))
      have hcount : Counted env start (n + 2)
          { s₄ with chain := { s₄.chain with headersCache := s₄.chain.headersCache.add h.hash h } } :=
        ⟨hcount.writes_eq, hcount.passed⟩
      split
      · rename_i hheavier
        have hadopts : Adopts s.chain head h :=
          .inr ⟨parentTD, currentTD, hup.symm, hcurrent.symm, hheavier⟩
        rw [and_iff_right hadopts] at hlate
        refine handleReorg_tells ?_ hcount hlate (fun hsound => ?_) evnt
        · exact hs.headersCache _ _
        obtain ⟨root, t, ht, htracks⟩ := hsound.tree
        obtain ⟨p, hins, hheavier⟩ := hadopts.canInsert htracks ht hsound.verified
        have hslow : p ≠ head := fun heq => hparent (heq ▸ hins.parent_hash.symm)
        have hstep : Blockchain.CacheStep { s.chain with db := s.chain.db.writeHeader h } s₃.chain :=
          ⟨⟨s.chain.headersCache, cache₃, hs₃⟩, hs₃ ▸ ⟨(hins.cachesOk htracks).headers, hcache₃⟩⟩
        have hweight : parentTD = totalWeight headerShape t p := by
          have hstored := htracks.difficulty_of_mem hins.parent_mem
          rw [hins.parent_hash] at hstored
          exact Option.some.inj (hup.trans hstored)
        refine walkReorg_first (hins.grown ht) ?_ (Finset.mem_insert_of_mem htracks.head_mem)
          (Finset.mem_insert_self h t) hins.isParent (hins.not_ancestor htracks ht hslow) habove
          hsound.lt_fuel hsound.indexed
        rw [hs₄, hweight]
        exact (hins.stores htracks hstep).readable htracks hins
      · rename_i hlighter
        have hnot : ¬ late := fun hlate => by
          obtain ⟨_, ⟨⟩, hlt⟩ := hadopts hlate
          exact hlighter hlt
        refine post_bind (writeFork_post ?_ hcount (Nat.lt_succ_self _) (absurd · hnot) ?_ h)
        · exact hs.headersCache _ _
        · exact fun _ hs _ => post_pure (.inl ⟨hs, fun _ => hnot⟩)

end Sound

structure Late (env : WriteEnv) (s : BlockStore) (head : Header) (block : Block) : Prop where
  adopts : Adopts s.chain head block.header
  recovered : ∃ block', recoverFromFields env block = .ok block'
  passed : Passed env s.writes (block.transactions.length + 1 + unseenWrites head block.header + 1)

theorem writeBlock_post {block : Block} {fuel : Nat} (hhead : s.chain.currentHeader = some head)
    (hsound : s.chain.difficultyCache.Sound s.chain.db.difficulty)
    (hne : block.header.hash ≠ head.hash) (source : String) :
    Post (writeBlock env fuel block source) s (fun _ _ => True)
      (Seen (OnTree env fuel head block.header s.chain) (Late env s head block) head block.header
        s.chain.db) := by
  have hs := kept_of_sound hhead hsound
  refine post_bind (post_onChain (post_bind (post_get ?_)))
  rw [hhead]
  refine post_pure ?_
  split
  · exact post_pure trivial
  rename_i habove
  refine post_bind ((writeBody_post block).mono ?_ fun t ht => .inl ⟨ht.1 ▸ hs, fun _ hlate => ?_⟩)
  · rintro block' t ⟨hchain, hcount, hheader, hrecovered⟩
    have hlate : Late env s head block ↔ Adopts t.chain head block'.header ∧ Passed env s.writes
        (block.transactions.length + 1 + unseenWrites head block'.header + 1) := by
      rw [hchain, hheader]
      exact ⟨fun h => ⟨h.adopts, h.passed⟩, fun h => ⟨h.1, ⟨block', hrecovered⟩, h.2⟩⟩
    rw [← hchain] at hs hsound ⊢
    rw [← hheader] at hne habove ⊢
    refine (writeHeaderImpl_tells hs hsound hcount hne (by omega) hlate _).bind fun evnt t ht => ?_
    refine (extractBlockReceipts_keeps (fun _ _ _ hs => ?_) ht block').bind fun receipts t ht => ?_
    · exact hs.imp_left fun hkept => ⟨hkept.1.headersCache _ _, hkept.2⟩
    refine post_bind (post_put (fun _ => ht) fun _ => ?_)
    refine post_bind (post_get (post_bind (post_check (fun _ _ => ?_) fun _ => ht)))
    exact post_modify trivial
  · exact ht.2 hlate.recovered fun i hi => hlate.passed i (by omega)

theorem failed_insertion_is_invisible_iff {env : WriteEnv} {s s' : BlockStore} {head : Header}
    {block : Block} {fuel : Nat} {source : String} {e : Fault WriteError}
    (hhead : s.chain.currentHeader = some head)
    (hsound : s.chain.difficultyCache.Sound s.chain.db.difficulty) (hne : block.header.hash ≠ head.hash)
    (hfailed : (writeBlock env fuel block source).run s = .error e s') :
    (¬ Late env s head block → s'.visible = s.visible) ∧
      ∀ t root, Grown headerShape root t → Tracks env.headerHash t head s.chain →
        Indexed head s.chain.db → Verified env s.chain block.header → block.header.number < fuel →
        s'.visible = s.visible → ¬ Late env s head block := by
  have hpost := @writeBlock_post env head s block fuel hhead hsound hne source
  rw [Post, hfailed] at hpost
  constructor
  · intro hlate
    obtain ⟨hkept, -⟩ := hpost.resolve_right fun h => hlate h.1
    rw [hkept.visible_eq, (kept_of_sound hhead hsound).visible_eq]
  · intro t root ht htracks hindexed hverified hfuel hsame hlate
    have htree : OnTree env fuel head block.header s.chain := ⟨⟨root, t, ht, htracks⟩, hindexed, hverified, hfuel⟩
    obtain ⟨-, hnot⟩ | ⟨-, hmoved⟩ := hpost
    · exact hnot htree hlate
    obtain ⟨x, hx, hhash | hcanonical⟩ := hmoved htree
    · have hstored : s'.chain.db.headHash = s.chain.db.headHash := congrArg View.storedHash hsame
      rw [hhash, hindexed.headHash] at hstored
      exact hne (Option.some.inj hstored)
    · have hindex : s'.chain.db.canonical = s.chain.db.canonical := congrArg View.canonical hsame
      exact hx (hindex ▸ hcanonical)

section Sample

open Blockchain (sampleHeader sampleHash sampleGenesis)

def sampleStore : BlockStore where
  chain := match (Blockchain.writeGenesisImpl sampleGenesis).run Blockchain.new with
    | .ok _ b => b
    | .error _ b => b
  bodies := fun _ => none
  txLookup := fun _ => none
  receipts := fun _ => none
  receiptsCache := Lru.empty 100
  writes := 0
  events := []

def sampleChild : Block := ⟨sampleHeader 1 1 sampleGenesis.hash 1, [], []⟩

def sampleEnv (index : Nat) : WriteEnv where
  headerHash := sampleHash
  fails := (· == index)
  sender := fun _ => .error "unknown sender"
  processBlock := fun _ _ => .ok []
  processHeaders := fun _ _ => .ok ()

def sampleFork : Header := sampleHeader 1 1 sampleGenesis.hash 3

def forkStore : BlockStore := { sampleStore with
  chain := match (Blockchain.insertAll sampleHash 3 sampleGenesis [sampleChild.header, sampleFork]).run
      Blockchain.new with
    | .ok _ b => b
    | .error _ b => b }

def sampleHeavier : Block := ⟨sampleHeader 2 1 sampleFork.hash 4, [], []⟩

theorem history_forkStore : Blockchain.History sampleHash sampleGenesis [sampleChild.header, sampleFork] := by
  have hfirst : Blockchain.History sampleHash sampleGenesis ([] ++ [sampleChild.header]) :=
    .insert (p := sampleGenesis) (.start ⟨rfl, rfl, rfl⟩) ⟨by decide +kernel, rfl, rfl, by decide +kernel, rfl⟩
  exact .insert (p := sampleGenesis) hfirst ⟨by decide +kernel, rfl, rfl, by decide +kernel, rfl⟩

theorem tracks_forkStore :
    Tracks sampleHash (Blockchain.known sampleGenesis [sampleChild.header, sampleFork]) sampleChild.header
      forkStore.chain := by
  have hfuel : ∀ x ∈ Blockchain.known sampleGenesis [sampleChild.header, sampleFork], x.number < 3 := by
    decide +kernel
  obtain ⟨b, head, hrun, htracks⟩ :=
    history_forkStore.insertAll_run Blockchain.sampleHash_ne_zero hfuel
  have hchain : forkStore.chain = b := by rw [forkStore, hrun]
  rw [← hchain] at htracks
  have hcurrent : forkStore.chain.currentHeader = some sampleChild.header := rfl
  obtain rfl := Option.some.inj (hcurrent.symm.trans htracks.current)
  exact htracks

theorem indexed_forkStore : Indexed sampleChild.header forkStore.chain.db := by
  have hcanonical : forkStore.chain.db.canonical = Function.update (Function.update (fun _ => none) 0
    (some sampleGenesis.hash)) 1 (some sampleChild.header.hash) := rfl
  refine ⟨rfl, rfl, fun n hn => ?_⟩
  have hnumber : sampleChild.header.number = 1 := rfl
  rw [hcanonical, Function.update_of_ne (by omega), Function.update_of_ne (by omega)]

def failsOn (x : M α) (s : BlockStore) : Bool :=
  match x.run s with
  | .ok _ _ => false
  | .error _ _ => true

theorem exists_error_of_failsOn (x : M α) (s : BlockStore) (h : failsOn x s = true) :
    ∃ e s', x.run s = .error e s' := by
  unfold failsOn at h
  cases hrun : x.run s with
  | ok a s' =>
    rw [hrun] at h
    cases h
  | error e s' => exact ⟨e, s', rfl⟩

theorem failed_insertion_is_invisible_iff_heavier :
    (∃ e s', (writeBlock (sampleEnv 4) 3 sampleHeavier "").run forkStore = .error e s' ∧
      s'.visible = forkStore.visible) ∧
    ∃ e s', (writeBlock (sampleEnv 5) 3 sampleHeavier "").run forkStore = .error e s' ∧
      s'.visible ≠ forkStore.visible := by
  have hhead := tracks_forkStore.current
  have hsound := tracks_forkStore.caches.difficulty
  have hne : sampleHeavier.header.hash ≠ sampleChild.header.hash := by decide +kernel
  have hverified : Verified (sampleEnv 5) forkStore.chain sampleHeavier.header := by
    refine ⟨?_, ?_, rfl⟩
    · rintro p ⟨⟩
      rfl
    · rintro x ⟨⟩
  constructor
  · obtain ⟨e, s', hfailed⟩ := exists_error_of_failsOn (writeBlock (sampleEnv 4) 3 sampleHeavier "") forkStore
      (by decide +kernel)
    refine ⟨e, s', hfailed, (failed_insertion_is_invisible_iff hhead hsound hne hfailed).1 fun hlate => ?_⟩
    exact absurd (hlate.passed 4 (by decide +kernel)) (by decide)
  · obtain ⟨e, s', hfailed⟩ := exists_error_of_failsOn (writeBlock (sampleEnv 5) 3 sampleHeavier "") forkStore
      (by decide +kernel)
    refine ⟨e, s', hfailed, fun hsame => (failed_insertion_is_invisible_iff hhead hsound hne hfailed).2 _ _
      history_forkStore.grown tracks_forkStore indexed_forkStore hverified (by decide) hsame ?_⟩
    refine ⟨.inr ⟨2, 2, rfl, rfl, by decide⟩, ⟨_, rfl⟩, ?_⟩
    unfold Passed
    decide +kernel

theorem head_moved_by_failed_insertion :
    ∃ e s', (writeBlock (sampleEnv 6) 1 sampleChild "").run sampleStore = .error e s' ∧
      sampleStore.chain.currentHeader = some sampleGenesis ∧
      s'.chain.currentHeader = some sampleChild.header ∧
      sampleStore.chain.db.canonical 1 = none ∧
      s'.chain.db.canonical 1 = some sampleChild.header.hash ∧
      headDifficulty sampleStore.chain = some 1 ∧ headDifficulty s'.chain = some 2 :=
  ⟨_, _, rfl, rfl, rfl, rfl, by decide +kernel, by decide +kernel, by decide +kernel⟩

end Sample

def ActsAs (x : M α) (y : Blockchain.M α) : Prop :=
  ∀ s, ∃ writes, x.run s = match y.run s.chain with
    | .ok a chain => .ok a { s with chain, writes }
    | .error e chain => .error (e.map .chain) { s with chain, writes }

section Reliable

variable {β : Type} {x : M α} {y : Blockchain.M α}

theorem actsAs_onChain (y : Blockchain.M α) : ActsAs (onChain y) y := by
  intro s
  refine ⟨s.writes, ?_⟩
  have hrun : (onChain y).run s = match y.run s.chain with
      | .ok a chain => .ok a { s with chain }
      | .error e chain => .error (e.map .chain) { s with chain } := rfl
  rw [hrun]

theorem actsAs_pure (a : α) : ActsAs (pure a) (pure a) := fun s => ⟨s.writes, rfl⟩

theorem actsAs_throw (e : Fault BlockchainError) : ActsAs (throw (e.map .chain) : M α) (throw e) := fun s =>
  ⟨s.writes, rfl⟩

theorem ActsAs.bind {k : α → M β} {l : α → Blockchain.M β} (hx : ActsAs x y) (hk : ∀ a, ActsAs (k a) (l a)) :
    ActsAs (x >>= k) (y >>= l) := by
  intro s
  obtain ⟨writes, hrun⟩ := hx s
  rw [EStateM.run_bind, EStateM.run_bind, hrun]
  cases y.run s.chain with
  | error e chain => exact ⟨writes, rfl⟩
  | ok a chain =>
    obtain ⟨writes', hrun'⟩ := hk a { s with chain, writes }
    exact ⟨writes', hrun'⟩

theorem actsAs_putDb (hnever : ∀ i, env.fails i = false) (f : Storage → Storage) :
    ActsAs (putDb env f) (Blockchain.modifyDb f) := by
  intro s
  refine ⟨s.writes + 1, ?_⟩
  have hrun : (putDb env f).run s = if env.fails s.writes then
      .error (.error .database) { s with writes := s.writes + 1 }
    else .ok () { s with chain := { s.chain with db := f s.chain.db }, writes := s.writes + 1 } := by
    unfold putDb put
    simp only [EStateM.run_bind, EStateM.run_get]
    split <;> rfl
  rw [hrun, hnever]
  rfl

theorem actsAs_readTotalDifficulty {k : Nat → M β} {l : Nat → Blockchain.M β} (hash : Hash)
    (e : Fault BlockchainError) (hk : ∀ d, ActsAs (k d) (l d)) :
    ActsAs (do
      match ← onChain (Blockchain.readTotalDifficulty hash) with
      | none => throw (e.map .chain)
      | some d => k d) (do
      match ← Blockchain.readTotalDifficulty hash with
      | none => throw e
      | some d => l d) := by
  refine (actsAs_onChain _).bind fun found => ?_
  cases found with
  | none => exact actsAs_throw e
  | some d => exact hk d

variable (hnever : ∀ i, env.fails i = false)
include hnever

theorem actsAs_writeCanonicalHeader (evnt : Event) (h : Header) :
    ActsAs (writeCanonicalHeader env evnt h) (Blockchain.writeCanonicalHeader evnt h) := by
  refine actsAs_readTotalDifficulty _ (.error .parentDifficultyNotFound) fun parentTD => ?_
  -- the chain writes the five fields in one step
  exact (actsAs_putDb hnever _).bind fun _ => (actsAs_putDb hnever _).bind fun _ =>
    (actsAs_putDb hnever _).bind fun _ => (actsAs_putDb hnever _).bind fun _ =>
    (actsAs_putDb hnever _).bind fun _ => (actsAs_onChain _).bind fun _ => actsAs_pure _

theorem actsAs_advanceHead (h : Header) : ActsAs (advanceHead env h) (Blockchain.advanceHead h) := by
  have hset : ∀ newTD, ActsAs (do
        putDb env (·.writeTotalDifficulty h.hash newTD)
        onChain (Blockchain.setCurrentHeader h newTD)
        return newTD) (do
        Blockchain.modifyDb (·.writeTotalDifficulty h.hash newTD)
        Blockchain.setCurrentHeader h newTD
        return newTD) := fun newTD =>
    (actsAs_putDb hnever _).bind fun _ => (actsAs_onChain _).bind fun _ => actsAs_pure newTD
  refine (actsAs_putDb hnever _).bind fun _ => (actsAs_putDb hnever _).bind fun _ =>
    (actsAs_putDb hnever _).bind fun _ => ?_
  split
  · refine (actsAs_onChain _).bind fun found => ?_
    cases found with
    | none => exact (actsAs_throw (.error .parentDifficultyNotFound)).bind fun _ => hset _
    | some parentTD => exact hset (parentTD + h.difficulty)
  · exact hset (0 + h.difficulty)

theorem actsAs_writeFork (h : Header) : ActsAs (writeFork env h) (Blockchain.writeFork h) := fun s =>
  actsAs_putDb hnever (·.writeForks ((s.chain.db.forks.getD []).filter (fun fork => fork ≠ h.parentHash) ++
    [h.hash])) s

theorem actsAs_forM_putDb {as : List α} (f : α → Storage → Storage) :
    ActsAs (as.forM fun a => putDb env (f a)) (Blockchain.modifyDb fun db => as.foldl (fun db a => f a db) db) := by
  induction as with
  | nil => exact actsAs_pure ()
  | cons a as ih => exact (actsAs_putDb hnever (f a)).bind fun _ => ih

theorem actsAs_handleReorg (fuel : Nat) (evnt : Event) (oldHead newHead : Header) :
    ActsAs (handleReorg env fuel evnt oldHead newHead)
      (Blockchain.handleReorg env.headerHash fuel evnt oldHead newHead) := by
  have hsplit : Blockchain.handleReorg env.headerHash fuel evnt oldHead newHead = (do
      let chains ← walkReorg env fuel oldHead newHead
      let evnt := chains.1.dropLast.foldl Event.addOldHeader evnt
      let evnt := (evnt.addOldHeader oldHead).addNewHeader newHead
      let evnt := chains.2.foldl Event.addNewHeader evnt
      Blockchain.writeFork oldHead
      Blockchain.modifyDb fun db => chains.2.foldl (fun db h => db.writeCanonicalHash h.number h.hash) db
      let diff ← Blockchain.advanceHead newHead
      return { evnt.setDifficulty diff with type := .reorg }) := by
    unfold Blockchain.handleReorg walkReorg
    simp only [bind_assoc]
    refine bind_congr fun old => bind_congr fun new => bind_congr fun oldChain => ?_
    split <;> rfl
  rw [hsplit]
  refine (actsAs_onChain _).bind fun chains => ?_
  obtain ⟨oldChain, newChain⟩ := chains
  exact (actsAs_writeFork hnever oldHead).bind fun _ => (actsAs_forM_putDb hnever _).bind fun _ =>
    (actsAs_advanceHead hnever newHead).bind fun _ => actsAs_pure _

theorem actsAs_writeHeaderImpl (fuel : Nat) (evnt : Event) (h : Header) :
    ActsAs (writeHeaderImpl env fuel evnt h) (Blockchain.writeHeaderImpl env.headerHash fuel evnt h) := by
  refine (actsAs_onChain _).bind fun head => ?_
  split
  · exact actsAs_writeCanonicalHeader hnever evnt h
  · refine (actsAs_putDb hnever _).bind fun _ => ?_
    refine actsAs_readTotalDifficulty _ (.panic (.explicit "failed to get header difficulty")) fun headTD => ?_
    refine actsAs_readTotalDifficulty _ (.error (.parentNotFound h.hash h.number)) fun parentTD => ?_
    refine (actsAs_putDb hnever _).bind fun _ => (actsAs_onChain _).bind fun _ => ?_
    split
    · exact actsAs_handleReorg hnever fuel evnt head h
    · exact (actsAs_writeFork hnever h).bind fun _ => actsAs_pure _

end Reliable

end Nxchain.BlockStore
