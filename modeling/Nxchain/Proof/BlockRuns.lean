import Nxchain.Lib.Runs
import Nxchain.Proof.FailedInsertion

namespace Nxchain.BlockStore

open ForkTree Stateful

open Blockchain (headerShape Tracks CanInsert)

variable {env : WriteEnv} {fuel low : Nat} {s : BlockStore} {t : Finset Header} {head root p : Header}
  {block : Block}

def writeNext (env : WriteEnv) (fuel : Nat) (s : BlockStore) (block : Block) : BlockStore :=
  match (writeBlock env fuel block "").run s with
  | .ok _ s' => s'
  | .error _ s' => s'

structure Linked (env : WriteEnv) (fuel : Nat) (s : BlockStore) (block : Block) : Prop where
  parent : ∃ p, s.chain.db.headers block.header.parentHash = some p
  verified : Verified env s.chain block.header
  lt_fuel : block.header.number < fuel

theorem Linked.stored_or_canInsert (h : Linked env fuel s block)
    (htracks : Tracks env.headerHash t head s.chain) :
    ∃ p, IsParent headerShape t block.header p ∨ CanInsert env.headerHash t block.header p := by
  obtain ⟨p, hstored⟩ := h.parent
  have hnumber := h.verified.number p hstored
  obtain ⟨hp, hhash⟩ := (htracks.headers _ _).mp hstored
  refine ⟨p, ?_⟩
  by_cases hmem : block.header ∈ t
  · exact .inl ⟨hmem, hp, hhash, hnumber⟩
  · refine .inr ⟨hp, hhash, hnumber, fun x hx hsame => hmem ?_, h.verified.sealed⟩
    exact h.verified.unique x ((htracks.headers _ _).mpr ⟨hx, hsame⟩) ▸ hx

theorem extractBlockReceipts_tracks (h : Tracks env.headerHash t head s.chain) (block : Block) :
    Post (extractBlockReceipts env block) s (fun _ s' => Tracks env.headerHash t head s'.chain)
      fun s' => Tracks env.headerHash t head s'.chain := by
  refine post_bind (post_get ?_)
  split
  · exact post_bind (post_set (post_pure h))
  · obtain ⟨b', hrun, hstep⟩ := Blockchain.readHeader_run h.readable.sealed h.caches block.header.parentHash
    have h' := h.of_cacheStep hstep
    refine post_bind (post_onChain ?_)
    rw [Post, hrun]
    dsimp only
    split
    · exact post_throw h'
    · refine post_bind (post_check (fun receipts _ => ?_) fun _ => h')
      exact post_bind (post_modify (post_pure h'))

def Settled (env : WriteEnv) (root : Header) (t : Finset Header) (h : Header) (s : BlockStore) : Prop :=
  ∃ t' head', (t' = t ∨ t' = insert h t ∧ (∀ x ∈ t, x.hash ≠ h.hash) ∧ Grown headerShape root t') ∧
    Tracks env.headerHash t' head' s.chain

theorem Settled.extractBlockReceipts {h : Header} (hs : Settled env root t h s) (block : Block) :
    Post (extractBlockReceipts env block) s (fun _ s' => Settled env root t h s')
      fun s' => Settled env root t h s' := by
  obtain ⟨t', head', hcases, htracks⟩ := hs
  exact (extractBlockReceipts_tracks htracks block).mono (fun _ _ htracks => ⟨t', head', hcases, htracks⟩)
    fun _ htracks => ⟨t', head', hcases, htracks⟩

section Reliable

variable (hnever : ∀ i, env.fails i = false) (hzero : ∀ x, env.headerHash x ≠ zeroHash)

include hnever hzero

theorem writeHeaderImpl_settled (h : Tracks env.headerHash t head s.chain) (ht : Grown headerShape root t)
    (hhead : head.number < fuel) (hlinked : Linked env fuel s block) (evnt : Event) :
    Post (writeHeaderImpl env fuel evnt block.header) s
      (fun _ s' => Settled env root t block.header s') fun _ => False := by
  obtain ⟨p, hparent⟩ := hlinked.stored_or_canInsert h
  have hsettled : ∃ evnt' b', (Blockchain.writeHeaderImpl env.headerHash fuel evnt block.header).run s.chain
      = .ok evnt' b' ∧ ∀ s' : BlockStore, s'.chain = b' → Settled env root t block.header s' := by
    obtain hparent | hins := hparent
    · obtain ⟨evnt', b', hrun, htracks⟩ := Blockchain.writeHeaderImpl_again h ht hparent fuel evnt
      exact ⟨evnt', b', hrun, fun s' hs' => ⟨t, head, .inl rfl, hs' ▸ htracks⟩⟩
    · have hzeroHash : block.header.parentHash ≠ zeroHash := by
        rw [← hins.parent_hash, ← h.sealed p hins.parent_mem]
        exact hzero p
      obtain ⟨evnt', b', head', hrun, htracks, -⟩ :=
        Blockchain.writeHeaderImpl_run h ht hins hzeroHash hhead hlinked.lt_fuel evnt
      exact ⟨evnt', b', hrun, fun s' hs' =>
        ⟨_, head', .inr ⟨rfl, hins.fresh, hins.grown ht⟩, hs' ▸ htracks⟩⟩
  obtain ⟨evnt', b', hrun, hsettled⟩ := hsettled
  obtain ⟨writes, hacts⟩ := actsAs_writeHeaderImpl hnever fuel evnt block.header s
  rw [hrun] at hacts
  rw [Post, hacts]
  exact hsettled _ rfl

theorem writeBlock_tracks (h : Tracks env.headerHash t head s.chain) (ht : Grown headerShape root t)
    (hhead : head.number < fuel) (hlinked : Linked env fuel s block) (source : String) :
    Post (writeBlock env fuel block source) s (fun _ s' => Settled env root t block.header s')
      fun s' => Settled env root t block.header s' := by
  refine post_bind (post_onChain ?_)
  rw [Post, h.header_run]
  dsimp only
  split
  · exact post_pure ⟨t, head, .inl rfl, h⟩
  refine post_bind ((writeBody_post block).mono ?_ fun s' hs' => ⟨t, head, .inl rfl, hs'.1 ▸ h⟩)
  rintro block' s' ⟨hchain, -, hheader, -⟩
  have hlinked' : Linked env fuel s' block :=
    ⟨hchain ▸ hlinked.parent, hchain ▸ hlinked.verified, hlinked.lt_fuel⟩
  rw [hheader]
  refine post_bind ((writeHeaderImpl_settled hnever hzero (hchain ▸ h) ht hhead hlinked' _).mono
    (fun evnt s' hs => ?_) fun _ => False.elim)
  refine post_bind ((hs.extractBlockReceipts block').mono (fun _ s' hs => ?_) fun _ hs => hs)
  refine post_bind (post_put (fun _ => hs) fun _ => ?_)
  exact post_bind (post_get (post_bind (post_check (fun _ _ => post_modify hs) fun _ => hs)))

def Grows (env : WriteEnv) (fuel : Nat) (root : Header) (low : Nat) (s : BlockStore) : Prop :=
  ∃ t head, Grown headerShape root t ∧ Tracks env.headerHash t head s.chain ∧ (∀ x ∈ t, x.number < fuel) ∧
    low ≤ totalWeight headerShape t head

theorem Grows.writeNext (h : Grows env fuel root low s) (hlinked : Linked env fuel s block) :
    Grows env fuel root low (writeNext env fuel s block) := by
  obtain ⟨t, head, ht, htracks, hfuel, hlow⟩ := h
  have hpost := writeBlock_tracks hnever hzero htracks ht (hfuel head htracks.head_mem) hlinked ""
  have hnext : Settled env root t block.header (BlockStore.writeNext env fuel s block) := by
    unfold BlockStore.writeNext
    unfold Post at hpost
    generalize (writeBlock env fuel block "").run s = result at hpost ⊢
    cases result <;> exact hpost
  obtain ⟨t', head', rfl | ⟨rfl, hfresh, ht'⟩, htracks'⟩ := hnext
  · exact ⟨t', head', ht, htracks', hfuel, hlow.trans (htracks'.heaviest head htracks.head_mem)⟩
  · refine ⟨_, head', ht', htracks', fun x hx => ?_, hlow.trans ?_⟩
    · exact (Finset.mem_insert.mp hx).elim (fun heq => heq ▸ hlinked.lt_fuel) (hfuel x)
    · rw [← totalWeight_insert ht htracks.head_mem hfresh]
      exact htracks'.heaviest head (Finset.mem_insert_of_mem htracks.head_mem)

theorem writeNext_run_heaviest (htracks : Tracks env.headerHash t head s.chain) (ht : Grown headerShape root t)
    (hfuel : ∀ x ∈ t, x.number < fuel) (blocks : List Block)
    (hrun : Runs.Along (writeNext env fuel) (Linked env fuel) s blocks) :
    let db := (blocks.foldl (BlockStore.writeNext env fuel) s).chain.db
    ∃ head' td td', (blocks.foldl (BlockStore.writeNext env fuel) s).chain.currentHeader = some head' ∧
      s.chain.db.difficulty head.hash = some td ∧ db.difficulty head'.hash = some td' ∧ td ≤ td' ∧
      ∀ hash x, db.headers hash = some x → ∃ d, db.difficulty hash = some d ∧ d ≤ td' ∧
        (x = root ∨ ∃ p d₀, db.headers x.parentHash = some p ∧ db.difficulty x.parentHash = some d₀ ∧
          d = d₀ + x.difficulty) := by
  have hgrows : Grows env fuel root (totalWeight headerShape t head) s := ⟨t, head, ht, htracks, hfuel, le_rfl⟩
  obtain ⟨t', head', ht', htracks', -, hle⟩ :=
    Runs.inv_foldl (fun _ _ h hlinked => Grows.writeNext hnever hzero h hlinked) hgrows hrun
  refine ⟨head', _, _, htracks'.current, htracks.difficulty_of_mem htracks.head_mem,
    htracks'.difficulty_of_mem htracks'.head_mem, hle, fun hash x hstored => ?_⟩
  obtain ⟨hx, rfl⟩ := (htracks'.headers hash x).mp hstored
  refine ⟨_, htracks'.difficulty_of_mem hx, htracks'.heaviest x hx, ?_⟩
  refine (ht'.exists_parent hx).imp_right fun ⟨p, hp⟩ => ?_
  have hkey : p.hash = x.parentHash := hp.2.2.1
  refine ⟨p, totalWeight headerShape t' p, ?_, ?_, totalWeight_parent ht' hp⟩
  · exact (htracks'.headers _ _).mpr ⟨hp.2.1, hkey⟩
  · rw [← hkey]
    exact htracks'.difficulty_of_mem hp.2.1

end Reliable

section Sample

open Blockchain (sampleHash sampleGenesis)

def refusingEnv : WriteEnv where
  headerHash := sampleHash
  fails := fun _ => false
  sender := fun _ => .error "unknown sender"
  processBlock := fun _ _ => .error "invalid block"
  processHeaders := fun _ _ => .ok ()

def sampleGrandchild : Block := ⟨Blockchain.sampleHeader 2 1 sampleChild.header.hash 2, [], []⟩

theorem writeNext_run_heaviest_refused :
    ∃ s, [sampleChild, sampleChild, sampleGrandchild].foldl (writeNext refusingEnv 3) sampleStore = s ∧
      s.chain.currentHeader = some sampleGrandchild.header ∧
      ∃ td, s.chain.db.difficulty sampleGrandchild.header.hash = some td ∧ 1 ≤ td := by
  have hgenesis : Blockchain.IsGenesis sampleHash sampleGenesis := ⟨rfl, rfl, rfl⟩
  obtain ⟨b, hb, htracks, -⟩ := Blockchain.writeGenesisImpl_run hgenesis
  have hchain : sampleStore.chain = b := by rw [sampleStore, hb]
  have hlinked : Runs.Along (writeNext refusingEnv 3) (Linked refusingEnv 3) sampleStore
      [sampleChild, sampleChild, sampleGrandchild] := by
    refine ⟨⟨⟨_, rfl⟩, ⟨?_, ?_, rfl⟩, by decide⟩, ⟨⟨_, rfl⟩, ⟨?_, ?_, rfl⟩, by decide⟩,
      ⟨⟨_, rfl⟩, ⟨?_, ?_, rfl⟩, by decide⟩, trivial⟩
    all_goals
      rintro _ ⟨⟩
      try rfl
  obtain ⟨head', td, td', hcurrent, htd, htd', hle, -⟩ := writeNext_run_heaviest (fun _ => rfl)
    Blockchain.sampleHash_ne_zero (hchain ▸ htracks) (.root rfl) (by decide) _ hlinked
  obtain rfl : 1 = td := Option.some.inj htd
  exact ⟨_, rfl, rfl, td', Option.some.inj (hcurrent.symm.trans rfl) ▸ htd', hle⟩

end Sample

end Nxchain.BlockStore
