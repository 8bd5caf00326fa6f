import Nxchain.Proof.LogViews

namespace Nxchain.Jsonrpc

def LogQuery.Matches (q : LogQuery) (log : Log) : Prop :=
  (q.addresses = [] ∨ log.address ∈ q.addresses)
    ∧ ∀ (i : Nat) (sub : List Hash), q.topics[i]? = some sub →
      ∃ topic, log.topics[i]? = some topic ∧ (sub = [] ∨ topic ∈ sub)

structure ChainLog where
  number : Nat
  txIndex : Nat
  logIndex : Nat
  log : Log
deriving DecidableEq

namespace ChainLog

def position (e : ChainLog) : List Nat := [e.number, e.txIndex, e.logIndex]

def IsIn (receipts : Nat → List Receipt) (e : ChainLog) : Prop :=
  ∃ receipt, (receipts e.number)[e.txIndex]? = some receipt ∧ receipt.logs[e.logIndex]? = some e.log

def object (blocks : Nat → Block) (e : ChainLog) : LogObject where
  address := e.log.address
  topics := e.log.topics
  data := e.log.data
  blockNumber := e.number
  txHash := txHashAt (blocks e.number) e.txIndex
  txIndex := e.txIndex
  blockHash := (blocks e.number).header.hash
  logIndex := e.logIndex
  removed := false

end ChainLog

def ListsMatching (query : LogQuery) (blocks : Nat → Block) (receipts : Nat → List Receipt)
    (first last : Nat) (found : List LogObject) : Prop :=
  ∃ entries : List ChainLog, found = entries.map (ChainLog.object blocks)
    ∧ entries.Pairwise (fun e e' => e.position < e'.position)
    ∧ ∀ e, e ∈ entries ↔
      first ≤ e.number ∧ e.number ≤ last ∧ e.IsIn receipts ∧ query.Matches e.log

structure LoggedChain (store : Store) (head : Nat) (blocks : Nat → Block)
    (receipts : Nat → List Receipt) : Prop where
  head_eq : ∃ header, store.header = some header ∧ header.number = head
  block_eq : ∀ i ≤ head, store.getBlockByNumber i = some (blocks i)
  number_eq : ∀ i ≤ head, (blocks i).header.number = i
  receipts_eq : ∀ i ≤ head, (blocks i).transactions ≠ [] →
    store.getReceiptsByHash (blocks i).header.hash = .ok (receipts i)
  length_eq : ∀ i ≤ head, (receipts i).length = (blocks i).transactions.length
  genesis_eq : (blocks 0).transactions = []

variable {store : Store} {query : LogQuery} {blocks : Nat → Block} {receipts : Nat → List Receipt}
  {head first last : Nat}

theorem accepts_iff_matches (log : Log) : query.accepts log = true ↔ query.Matches log := by
  rw [LogQuery.accepts, LogQuery.Matches, ← List.length_eq_zero_iff]
  split
  · rename_i haddress
    simp only [Bool.false_eq_true, false_iff]
    intro hmatch
    rcases hmatch with hnone | hmem
    · omega
    · exact absurd hmem haddress.2
  · rename_i haddress
    have hmatch : query.addresses.length = 0 ∨ log.address ∈ query.addresses := by
      by_contra hnot
      rw [not_or] at hnot
      exact haddress ⟨Nat.pos_of_ne_zero hnot.1, hnot.2⟩
    rw [and_iff_right hmatch]
    split
    · rename_i hshort
      simp only [Bool.false_eq_true, false_iff]
      intro htopics
      obtain ⟨topic, htopic, _⟩ :=
        htopics log.topics.length query.topics[log.topics.length] (List.getElem?_eq_getElem hshort)
      rw [List.getElem?_eq_none le_rfl] at htopic
      cases htopic
    · rw [List.all_eq_true]
      constructor
      · intro hall i sub hsub
        obtain ⟨hi, _⟩ := List.getElem?_eq_some_iff.mp hsub
        have htopic : log.topics[i]? = some log.topics[i] := List.getElem?_eq_getElem (by omega)
        refine ⟨log.topics[i], htopic, ?_⟩
        have hmem : (sub, log.topics[i]) ∈ query.topics.zip log.topics :=
          List.mem_of_getElem? (List.getElem?_zip_eq_some.mpr ⟨hsub, htopic⟩)
        simpa using hall _ hmem
      · rintro htopics ⟨sub, topic⟩ hmem
        obtain ⟨i, hi⟩ := List.mem_iff_getElem?.mp hmem
        obtain ⟨hsub, htopic⟩ := List.getElem?_zip_eq_some.mp hi
        obtain ⟨topic', htopic', hmatch⟩ := htopics i sub hsub
        obtain rfl : topic' = topic := Option.some.inj (htopic'.symm.trans htopic)
        simpa using hmatch

def entriesOf (query : LogQuery) (receipts : List Receipt) (number : Nat) : List ChainLog :=
  ((placesIn receipts).filter fun p => query.accepts p.log).map fun p =>
    ⟨number, p.txIndex, p.receiptIndex, p.log⟩

def entriesIn (query : LogQuery) (receipts : Nat → List Receipt) (numbers : List Nat) : List ChainLog :=
  numbers.flatMap fun i => entriesOf query (receipts i) i

theorem mem_entriesIn {numbers : List Nat} {e : ChainLog} :
    e ∈ entriesIn query receipts numbers ↔
      e.number ∈ numbers ∧ e.IsIn receipts ∧ query.Matches e.log := by
  obtain ⟨number, txIndex, logIndex, log⟩ := e
  simp only [entriesIn, entriesOf, List.mem_flatMap, List.mem_map, List.mem_filter, mem_placesIn,
    ChainLog.mk.injEq, ChainLog.IsIn, accepts_iff_matches]
  constructor
  · rintro ⟨i, hi, p, ⟨⟨receipt, hreceipt, hlog, _⟩, hmatch⟩, rfl, rfl, rfl, rfl⟩
    exact ⟨hi, ⟨receipt, hreceipt, hlog⟩, hmatch⟩
  · rintro ⟨hi, ⟨receipt, hreceipt, hlog⟩, hmatch⟩
    exact ⟨number, hi, ⟨log, txIndex, logIndex, logsBefore (receipts number) txIndex + logIndex⟩,
      ⟨⟨receipt, hreceipt, hlog, rfl⟩, hmatch⟩, rfl, rfl, rfl, rfl⟩

theorem pairwise_zipIdx {α : Type} (l : List α) : l.zipIdx.Pairwise (fun x y => x.2 < y.2) := by
  have hrange : (l.zipIdx.map Prod.snd).Pairwise (· < ·) := by
    rw [List.zipIdx_map_snd]
    exact List.pairwise_lt_range'
  exact List.pairwise_map.mp hrange

theorem pairwise_placesIn (receipts : List Receipt) :
    (placesIn receipts).Pairwise fun p p' =>
      p.txIndex < p'.txIndex ∨ p.txIndex = p'.txIndex ∧ p.receiptIndex < p'.receiptIndex := by
  rw [placesIn, List.pairwise_flatMap]
  constructor
  · rintro ⟨receipt, i⟩ _
    rw [List.pairwise_map]
    exact (pairwise_zipIdx receipt.logs).imp fun hlt => Or.inr ⟨rfl, hlt⟩
  · refine (pairwise_zipIdx receipts).imp ?_
    rintro ⟨receipt, i⟩ ⟨receipt', i'⟩ hlt p hp p' hp'
    obtain ⟨x, _, rfl⟩ := List.mem_map.mp hp
    obtain ⟨x', _, rfl⟩ := List.mem_map.mp hp'
    exact Or.inl hlt

theorem number_of_mem_entriesOf {receipts : List Receipt} {number : Nat} {e : ChainLog}
    (he : e ∈ entriesOf query receipts number) : e.number = number := by
  obtain ⟨p, _, rfl⟩ := List.mem_map.mp he
  rfl

theorem pairwise_entriesIn {numbers : List Nat} (hnumbers : numbers.Pairwise (· < ·)) :
    (entriesIn query receipts numbers).Pairwise (fun e e' => e.position < e'.position) := by
  rw [entriesIn, List.pairwise_flatMap]
  constructor
  · intro i _
    rw [entriesOf, List.pairwise_map]
    refine ((pairwise_placesIn (receipts i)).filter _).imp ?_
    simp [ChainLog.position, List.cons_lt_cons_iff]
  · refine hnumbers.imp ?_
    intro i i' hlt e he e' he'
    rw [ChainLog.position, ChainLog.position, number_of_mem_entriesOf he, number_of_mem_entriesOf he',
      List.cons_lt_cons_iff]
    exact Or.inl hlt

theorem getLogsInRange_step (hchain : LoggedChain store head blocks receipts) {fuel i : Nat}
    (hi : i ≤ head) (hle : i ≤ last) (logs : List LogObject) :
    store.getLogsInRange query last (fuel + 1) i logs =
      store.getLogsInRange query last fuel ((i + 1) % 2 ^ 64)
        (logs ++ (entriesOf query (receipts i) i).map (ChainLog.object blocks)) := by
  rw [Store.getLogsInRange, if_pos hle, hchain.block_eq i hi]
  dsimp only
  split
  · rename_i hnone
    have hreceipts : receipts i = [] :=
      List.eq_nil_of_length_eq_zero ((hchain.length_eq i hi).trans hnone)
    simp [entriesOf, placesIn, hreceipts]
  · rename_i hsome
    have hne : (blocks i).transactions ≠ [] := fun hnil => hsome (congrArg List.length hnil)
    have hblock : ((placesIn (receipts i)).filter fun p => query.accepts p.log).map
        (fun p => p.object (blocks i) p.txIndex p.receiptIndex) =
          (entriesOf query (receipts i) i).map (ChainLog.object blocks) := by
      rw [entriesOf, List.map_map]
      apply List.map_congr_left
      intro p _
      simp only [LogPlace.object, Function.comp_apply, ChainLog.object, hchain.number_eq i hi]
    rw [getLogsFromBlock_eq (hchain.receipts_eq i hi hne) (hchain.length_eq i hi) query, hblock]
    rfl

theorem getLogsInRange_eq (hchain : LoggedChain store head blocks receipts) {fuel count i : Nat}
    (hend : i + count = last + 1) (hlast : last ≤ head) (hlt : last < 2 ^ 64 - 1) (hfuel : count < fuel)
    (logs : List LogObject) :
    store.getLogsInRange query last fuel i logs =
      .ok (logs ++ (entriesIn query receipts (List.range' i count)).map (ChainLog.object blocks)) := by
  induction count generalizing fuel i logs with
  | zero =>
    obtain ⟨fuel, rfl⟩ := Nat.exists_eq_succ_of_ne_zero hfuel.ne'
    rw [Store.getLogsInRange, if_neg (by omega)]
    simp [entriesIn]
  | succ count ih =>
    obtain ⟨fuel, rfl⟩ := Nat.exists_eq_succ_of_ne_zero (Nat.ne_zero_of_lt hfuel)
    have hentries : entriesIn query receipts (List.range' i (count + 1)) =
        entriesOf query (receipts i) i ++ entriesIn query receipts (List.range' (i + 1) count) := by
      rw [List.range'_succ, entriesIn, List.flatMap_cons, entriesIn]
    rw [getLogsInRange_step hchain (by omega) (by omega), hentries, List.map_append,
      ← List.append_assoc, Nat.mod_eq_of_lt (by omega)]
    exact ih (by omega) (by omega) _

theorem getLogsInRange_diverges (hchain : LoggedChain store head blocks receipts)
    (hhead : 2 ^ 64 - 1 ≤ head) {fuel i : Nat} (hi : i < 2 ^ 64) (logs : List LogObject) :
    store.getLogsInRange query (2 ^ 64 - 1) fuel i logs = .error .outOfFuel := by
  induction fuel generalizing i logs with
  | zero => rfl
  | succ fuel ih =>
    rw [getLogsInRange_step hchain (by omega) (by omega)]
    exact ih (Nat.mod_lt _ (by decide)) _

theorem listsMatching_entriesIn (hchain : LoggedChain store head blocks receipts) {start : Nat}
    (hstart : start = if first = 0 then 1 else first) :
    ListsMatching query blocks receipts first last
      ((entriesIn query receipts (List.range' start (last + 1 - start))).map (ChainLog.object blocks)) := by
  refine ⟨_, rfl, pairwise_entriesIn List.pairwise_lt_range', ?_⟩
  intro e
  rw [mem_entriesIn, List.mem_range'_1, and_assoc]
  have hgenesis : e.IsIn receipts → e.number ≠ 0 := by
    rintro ⟨receipt, hreceipt, _⟩ hzero
    have hnil : receipts 0 = [] := by
      apply List.eq_nil_of_length_eq_zero
      rw [hchain.length_eq 0 (Nat.zero_le _), hchain.genesis_eq]
      rfl
    rw [hzero, hnil] at hreceipt
    cases hreceipt
  have hlow : e.number ≠ 0 → (start ≤ e.number ↔ first ≤ e.number) := by
    rw [hstart]
    split <;> omega
  constructor
  · rintro ⟨hge, hlt, hin, hmatch⟩
    exact ⟨(hlow (hgenesis hin)).mp hge, by omega, hin, hmatch⟩
  · rintro ⟨hge, hle, hin, hmatch⟩
    have hge := (hlow (hgenesis hin)).mpr hge
    exact ⟨hge, by omega, hin, hmatch⟩

theorem getLogsForQuery_range (hhash : query.blockHash = none)
    (hfirst : store.getNumericBlockNumber query.fromBlock = .ok first)
    (hlast : store.getNumericBlockNumber query.toBlock = .ok last) (hle : first ≤ last)
    (fuel limit : Nat) :
    store.getLogsForQuery fuel limit query =
      if limit ≠ 0 ∧ limit < sub64 last (if first = 0 then 1 else first) then
        .error (.error .blockRangeTooHigh)
      else store.getLogsInRange query last fuel (if first = 0 then 1 else first) [] := by
  simp only [Store.getLogsForQuery, hhash, Store.getLogsFromBlocks, hfirst, hlast, Except.mapError,
    bind, Except.bind, if_neg (Nat.not_lt.mpr hle)]
  rfl

def Answers (store : Store) (query : LogQuery) (blocks : Nat → Block) (receipts : Nat → List Receipt)
    (limit first last : Nat) : Prop :=
  ∃ fuel, (store.getLogsForQuery fuel limit query = .error (.error .blockRangeTooHigh)
      ∧ limit ≠ 0 ∧ limit < last - first)
    ∨ ∃ found, store.getLogsForQuery fuel limit query = .ok found
      ∧ ListsMatching query blocks receipts first last found

theorem getLogs_lists_matching_logs_iff (hchain : LoggedChain store head blocks receipts)
    (hhash : query.blockHash = none)
    (hfirst : store.getNumericBlockNumber query.fromBlock = .ok first)
    (hlast : store.getNumericBlockNumber query.toBlock = .ok last) (hle : first ≤ last)
    (hend : last ≤ head) (hnumber : last < 2 ^ 64) (limit : Nat) :
    Answers store query blocks receipts limit first last
      ↔ (limit ≠ 0 ∧ limit < last - max first 1)
        ∨ last < 2 ^ 64 - 1 ∧ (limit = 0 ∨ 1 ≤ last ∨ 2 ^ 64 - 1 ≤ limit) := by
  obtain ⟨start, hstart⟩ : ∃ start, start = if first = 0 then 1 else first := ⟨_, rfl⟩
  have hmax : start = max first 1 := by
    rw [hstart]
    split <;> omega
  have hlength : sub64 last start = if last = 0 then 2 ^ 64 - 1 else last - start := by
    split
    · obtain rfl : last = 0 := ‹_›
      obtain rfl : start = 1 := by omega
      rfl
    · exact sub64_eq hnumber (by omega)
  unfold Answers
  simp only [getLogsForQuery_range hhash hfirst hlast hle, ← hstart]
  by_cases hrange : limit ≠ 0 ∧ limit < sub64 last start
  · -- the error is right unless the length has wrapped
    simp only [if_pos hrange, true_and, reduceCtorEq, false_and, exists_false, or_false, exists_const]
    rw [hlength] at hrange
    split at hrange <;> omega
  · simp only [if_neg hrange]
    by_cases hlargest : last < 2 ^ 64 - 1
    · have hcount : start + (last + 1 - start) = last + 1 := by omega
      refine iff_of_true ⟨last + 2, Or.inr ⟨_, getLogsInRange_eq hchain hcount hend hlargest
        (by omega) [], ?_⟩⟩ (Or.inr ⟨hlargest, ?_⟩)
      · rw [List.nil_append]
        exact listsMatching_entriesIn hchain hstart
      · rw [hlength] at hrange
        split at hrange <;> omega
    · obtain rfl : last = 2 ^ 64 - 1 := by omega
      simp only [getLogsInRange_diverges hchain hend (show start < 2 ^ 64 by omega), reduceCtorEq,
        Except.error.injEq, false_and, exists_false, or_self, false_iff]
      rw [hlength] at hrange
      split at hrange <;> omega

def emptyGenesis : Block where
  header := { loggingBlock.header with number := 0, hash := zeroHash }
  transactions := []
  uncles := []

def sampleBlocks : Nat → Block
  | 0 => emptyGenesis
  | _ => loggingBlock

def sampleReceipts : Nat → List Receipt
  | 0 => []
  | _ => [twoLogs]

def sampleStore (head : Nat) : Store where
  header := some (sampleBlocks head).header
  getReceiptsByHash := fun _ => .ok [twoLogs]
  getBlockByHash := fun _ => none
  getBlockByNumber := fun i => some (sampleBlocks i)
  readTxLookup := fun _ => none

theorem loggedChain_sampleStore {head : Nat} (hhead : head ≤ 1) :
    LoggedChain (sampleStore head) head sampleBlocks sampleReceipts where
  head_eq := by
    interval_cases head
    · exact ⟨_, rfl, rfl⟩
    · exact ⟨_, rfl, rfl⟩
  block_eq := fun i hi => rfl
  number_eq := by
    intro i hi
    have := hi.trans hhead
    interval_cases i <;> rfl
  receipts_eq := by
    intro i hi hne
    have := hi.trans hhead
    interval_cases i
    · exact absurd rfl hne
    · rfl
  length_eq := by
    intro i hi
    have := hi.trans hhead
    interval_cases i <;> rfl
  genesis_eq := rfl

def allLogs : LogQuery := ⟨none, earliestBlockNumber, latestBlockNumber, [], []⟩

theorem getLogs_lists_matching_logs_iff_sampleStore :
    Answers (sampleStore 1) allLogs sampleBlocks sampleReceipts 1000 0 1
      ∧ ¬ Answers (sampleStore 0) allLogs sampleBlocks sampleReceipts 1000 0 0 := by
  have hiff := @getLogs_lists_matching_logs_iff _ allLogs _ _ _ 0 1 (loggedChain_sampleStore le_rfl)
    rfl rfl rfl (by decide) le_rfl (by decide) 1000
  have hiff' := @getLogs_lists_matching_logs_iff _ allLogs _ _ _ 0 0
    (loggedChain_sampleStore (Nat.zero_le 1)) rfl rfl rfl le_rfl le_rfl (by decide) 1000
  exact ⟨hiff.mpr (by decide), fun h => absurd (hiff'.mp h) (by decide)⟩

theorem genesis_range_is_too_high :
    LoggedChain (sampleStore 0) 0 sampleBlocks sampleReceipts
      ∧ (sampleStore 0).getNumericBlockNumber allLogs.fromBlock = .ok 0
      ∧ (sampleStore 0).getNumericBlockNumber allLogs.toBlock = .ok 0
      ∧ ∀ fuel, (sampleStore 0).getLogsForQuery fuel 1000 allLogs
        = .error (.error .blockRangeTooHigh) :=
  ⟨loggedChain_sampleStore (Nat.zero_le 1), rfl, rfl, fun fuel =>
    (getLogsForQuery_range rfl rfl rfl le_rfl fuel 1000).trans (if_pos (by decide))⟩

end Nxchain.Jsonrpc
