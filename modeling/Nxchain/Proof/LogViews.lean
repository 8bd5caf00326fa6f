import Nxchain.Jsonrpc.FilterManager
import Nxchain.Lib.Except

namespace Nxchain.Jsonrpc

variable {i : Nat} {query : LogQuery}

structure LogPlace where
  log : Log
  txIndex : Nat
  receiptIndex : Nat
  blockIndex : Nat
deriving DecidableEq

def logsBefore (receipts : List Receipt) (i : Nat) : Nat := ((receipts.take i).map (·.logs.length)).sum

def placesIn (receipts : List Receipt) : List LogPlace :=
  receipts.zipIdx.flatMap fun (receipt, i) =>
    receipt.logs.zipIdx.map fun (log, j) => ⟨log, i, j, logsBefore receipts i + j⟩

variable {receipts : List Receipt} {p : LogPlace} {block : Block} {store : Store}

theorem mem_placesIn :
    p ∈ placesIn receipts ↔ ∃ receipt, receipts[p.txIndex]? = some receipt ∧
      receipt.logs[p.receiptIndex]? = some p.log ∧
      p.blockIndex = logsBefore receipts p.txIndex + p.receiptIndex := by
  obtain ⟨log, i, j, k⟩ := p
  simp only [placesIn, List.mem_flatMap, List.mem_map, Prod.exists, List.mem_zipIdx_iff_getElem?, LogPlace.mk.injEq]
  constructor
  · rintro ⟨receipt, _, hreceipt, _, _, hlog, rfl, rfl, rfl, rfl⟩
    exact ⟨receipt, hreceipt, hlog, rfl⟩
  · rintro ⟨receipt, hreceipt, hlog, rfl⟩
    exact ⟨receipt, i, hreceipt, log, j, hlog, rfl, rfl, rfl, rfl⟩

def txHashAt (block : Block) (i : Nat) : Hash := ((block.transactions[i]?).map (·.hash)).getD zeroHash

def LogPlace.object (block : Block) (p : LogPlace) (txIndex logIndex : Nat) : LogObject where
  address := p.log.address
  topics := p.log.topics
  data := p.log.data
  blockNumber := block.header.number
  txHash := txHashAt block p.txIndex
  txIndex
  blockHash := block.header.hash
  logIndex
  removed := false

structure Recorded (store : Store) (block : Block) (receipts : List Receipt) : Prop where
  block_eq : store.getBlockByHash block.header.hash = some block
  receipts_eq : store.getReceiptsByHash block.header.hash = .ok receipts
  length_eq : receipts.length = block.transactions.length
  txHash_eq : ∀ i receipt, receipts[i]? = some receipt →
    receipt.txHash = zeroHash ∨ receipt.txHash = txHashAt block i
  lookup_eq : ∀ txn ∈ block.transactions, store.readTxLookup txn.hash = some block.header.hash
  hash_nodup : (block.transactions.map (·.hash)).Nodup

def HasStatus (receipts : List Receipt) (i : Nat) : Prop :=
  ∃ receipt status, receipts[i]? = some receipt ∧ receipt.status = some status

theorem transactionAt_of_receipt (hlength : receipts.length = block.transactions.length) {receipt : Receipt}
    (hi : receipts[i]? = some receipt) :
    ∃ txn, block.transactions[i]? = some txn ∧ Store.transactionAt block i = .ok txn ∧
      txHashAt block i = txn.hash := by
  obtain ⟨hlt, _⟩ := List.getElem?_eq_some_iff.mp hi
  obtain ⟨txn, htxn⟩ : ∃ txn, block.transactions[i]? = some txn := ⟨_, List.getElem?_eq_getElem (hlength ▸ hlt)⟩
  exact ⟨txn, htxn, by rw [Store.transactionAt, htxn], by rw [txHashAt, htxn]; rfl⟩

theorem flatMap_if {α β : Type} (c : α → Bool) (f : α → β) (as : List α) :
    as.flatMap (fun a => if c a then [f a] else []) = (as.filter c).map f := by
  induction as with
  | nil => rfl
  | cons a as ih => cases hc : c a <;> simp [hc, ih]

theorem getLogsFromReceipt_eq (query : LogQuery) {idx : Nat} {txn : Transaction}
    (htxn : Store.transactionAt block idx = .ok txn) (hhash : txHashAt block idx = txn.hash) (receipt : Receipt)
    (before : Nat) (logs : List LogObject) :
    Store.getLogsFromReceipt query block idx receipt logs =
      .ok (logs ++ ((receipt.logs.zipIdx.map fun (log, j) => LogPlace.mk log idx j (before + j)).filter
        fun p => query.accepts p.log).map fun p => p.object block p.txIndex p.receiptIndex) := by
  refine (Except.foldlM_append (g := fun (log, j) => if query.accepts log then
    [(LogPlace.mk log idx j (before + j)).object block idx j] else []) ?_ logs).trans ?_
  · rintro acc ⟨log, j⟩ _
    by_cases haccepts : query.accepts log = true
    · simp only [haccepts, htxn, LogPlace.object, hhash]
      rfl
    · simp [haccepts, pure, Except.pure]
  · rw [List.filter_map, List.map_map]
    exact congrArg (fun rest => Except.ok (logs ++ rest)) (flatMap_if _ _ _)

theorem getLogsFromBlock_eq (hreceipts : store.getReceiptsByHash block.header.hash = .ok receipts)
    (hlength : receipts.length = block.transactions.length) (query : LogQuery) :
    store.getLogsFromBlock query block =
      .ok (((placesIn receipts).filter fun p => query.accepts p.log).map fun p =>
        p.object block p.txIndex p.receiptIndex) := by
  unfold Store.getLogsFromBlock
  rw [hreceipts]
  refine (Except.foldlM_append (g := fun (receipt, idx) =>
    ((receipt.logs.zipIdx.map fun (log, j) => LogPlace.mk log idx j (logsBefore receipts idx + j)).filter
      fun p => query.accepts p.log).map fun p => p.object block p.txIndex p.receiptIndex) ?_ []).trans ?_
  · rintro acc ⟨receipt, idx⟩ hreceipt
    obtain ⟨txn, _, htxn, hhash⟩ := transactionAt_of_receipt hlength (List.mem_zipIdx_iff_getElem?.mp hreceipt)
    exact getLogsFromReceipt_eq query htxn hhash receipt _ acc
  · rw [placesIn, List.filter_flatMap, List.map_flatMap]
    rfl

def FromBlocks (store : Store) (query : LogQuery) (logs : List LogObject) : Prop :=
  ∀ object ∈ logs, ∃ b blockLogs, store.getLogsFromBlock query b = .ok blockLogs ∧ object ∈ blockLogs

theorem getLogsInRange_fromBlocks {last fuel : Nat} {logs found : List LogObject}
    (hlogs : FromBlocks store query logs)
    (hfound : store.getLogsInRange query last fuel i logs = .ok found) : FromBlocks store query found := by
  induction fuel generalizing i logs with
  | zero => cases hfound
  | succ fuel ih =>
    unfold Store.getLogsInRange at hfound
    split at hfound
    · split at hfound
      · cases hfound
        exact hlogs
      · split at hfound
        · exact ih hlogs hfound
        · rename_i b _ _
          obtain ⟨blockLogs, hblock, hrest⟩ := Except.bind_eq_ok_iff.mp hfound
          refine ih (fun object hobject => ?_) hrest
          exact (List.mem_append.mp hobject).elim (hlogs object) fun hmem =>
            ⟨b, blockLogs, hblock, hmem⟩
    · cases hfound
      exact hlogs

theorem getLogsForQuery_fromBlocks {fuel limit : Nat} {found : List LogObject}
    (hfound : store.getLogsForQuery fuel limit query = .ok found) : FromBlocks store query found := by
  have hnil : FromBlocks store query [] := fun object hobject => by cases hobject
  unfold Store.getLogsForQuery at hfound
  split at hfound
  · obtain ⟨first, _, hfound⟩ := Except.bind_eq_ok_iff.mp hfound
    obtain ⟨last, _, hfound⟩ := Except.bind_eq_ok_iff.mp hfound
    obtain ⟨_, hfound⟩ := Except.ite_throw_bind_eq_ok_iff.mp hfound
    obtain ⟨_, hfound⟩ := Except.ite_throw_bind_eq_ok_iff.mp hfound
    exact getLogsInRange_fromBlocks hnil hfound
  · split at hfound
    · cases hfound
    · rename_i b _
      split at hfound
      · cases hfound
        exact hnil
      · exact fun object hobject => ⟨b, found, hfound, hobject⟩

theorem getLogsForQuery_eq (h : Recorded store block receipts) (fuel limit : Nat)
    (hquery : query.blockHash = some block.header.hash) :
    store.getLogsForQuery fuel limit query =
      .ok (((placesIn receipts).filter fun p => query.accepts p.log).map fun p =>
        p.object block p.txIndex p.receiptIndex) := by
  simp only [Store.getLogsForQuery, hquery, h.block_eq]
  split
  · rename_i hnone
    obtain rfl : receipts = [] := List.eq_nil_of_length_eq_zero (h.length_eq.trans hnone)
    rfl
  · exact getLogsFromBlock_eq h.receipts_eq h.length_eq query

namespace FilterManager

variable {m : FilterManager} {r : Ref} {query : LogQuery} {logs : List LogObject}

variable {filters : List Ref}

theorem appendLog_kinds_of_ne (log : Log) (object : LogObject) {x : Ref} (hx : r ≠ x) :
    (m.appendLog log object x).kinds r = m.kinds r := by
  unfold appendLog
  split
  · rfl
  · split
    · exact Function.update_of_ne hx _ _
    · rfl

theorem appendLog_kinds_self (log : Log) (object : LogObject) (hm : m.kinds r = .log query logs) :
    (m.appendLog log object r).kinds r =
      .log query (logs ++ if query.accepts log then [object] else []) := by
  simp only [appendLog, hm]
  split
  · exact Function.update_self _ _ _
  · rw [hm, List.append_nil]

theorem foldl_appendLog_of_notMem (log : Log) (object : LogObject) (hr : r ∉ filters) :
    (filters.foldl (fun m => m.appendLog log object) m).kinds r = m.kinds r := by
  induction filters generalizing m with
  | nil => rfl
  | cons x filters ih =>
    rw [List.mem_cons, not_or] at hr
    exact (ih hr.2).trans (appendLog_kinds_of_ne log object hr.1)

theorem foldl_appendLog (log : Log) (object : LogObject) (hr : r ∈ filters) (hnodup : filters.Nodup)
    (hm : m.kinds r = .log query logs) :
    (filters.foldl (fun m => m.appendLog log object) m).kinds r =
      .log query (logs ++ if query.accepts log then [object] else []) := by
  induction filters generalizing m with
  | nil => cases hr
  | cons x filters ih =>
    obtain ⟨hx, hnodup⟩ := List.nodup_cons.mp hnodup
    by_cases hxr : r = x
    · subst hxr
      exact (foldl_appendLog_of_notMem log object hx).trans (appendLog_kinds_self log object hm)
    · have hmem : r ∈ filters := (List.mem_cons.mp hr).resolve_left hxr
      exact ih hmem hnodup ((appendLog_kinds_of_ne log object hxr).trans hm)

theorem foldl_receiptLogs (object : Log → LogObject) (hr : r ∈ filters) (hnodup : filters.Nodup)
    (hm : m.kinds r = .log query logs) (found : List Log) :
    (found.foldl (fun m log => filters.foldl (fun m => m.appendLog log (object log)) m) m).kinds r =
      .log query (logs ++ (found.filter query.accepts).map object) := by
  induction found generalizing m logs with
  | nil => simpa using hm
  | cons log found ih =>
    rw [List.foldl_cons, ih (foldl_appendLog log (object log) hr hnodup hm)]
    cases haccepts : query.accepts log <;> simp [haccepts]

theorem receiptTxHash_eq (h : Recorded store block receipts) {indx : Nat} {receipt : Receipt}
    (hreceipt : receipts[indx]? = some receipt) : receiptTxHash block receipt indx = .ok (txHashAt block indx) := by
  obtain ⟨txn, _, htxn, hhash⟩ := transactionAt_of_receipt h.length_eq hreceipt
  unfold receiptTxHash
  split
  · rw [htxn, hhash]
    rfl
  · rename_i hne
    rw [(h.txHash_eq indx receipt hreceipt).resolve_left hne]

theorem appendReceiptLogs_eq (h : Recorded store block receipts) {indx : Nat} {receipt : Receipt}
    (hreceipt : receipts[indx]? = some receipt) (hr : r ∈ filters) (hnodup : filters.Nodup)
    (hm : m.kinds r = .log query logs) (before : Nat) :
    ∃ m', m.appendReceiptLogs block.header block filters receipt indx = .ok m' ∧
      m'.kinds r = .log query (logs ++
        ((receipt.logs.zipIdx.map fun (log, j) => LogPlace.mk log indx j (before + j)).filter
          fun p => query.accepts p.log).map fun p => p.object block p.txIndex 0) := by
  refine ⟨_, Except.bind_eq_ok (receiptTxHash_eq h hreceipt) rfl, ?_⟩
  rw [foldl_receiptLogs _ hr hnodup hm, List.filter_map, List.map_map]
  have hlogs : receipt.logs.zipIdx.map Prod.fst = receipt.logs := List.zipIdx_map_fst 0 receipt.logs
  conv_lhs => rw [← hlogs, List.filter_map, List.map_map]
  rfl

theorem nodup_logFilters (m : FilterManager) : m.logFilters.Nodup :=
  (List.nodup_range.filter _).filter _

theorem appendLogsToFilters_eq (h : Recorded store block receipts) (hr : r ∈ m.logFilters)
    (hm : m.kinds r = .log query logs) :
    ∃ m', m.appendLogsToFilters store block.header = .ok m' ∧
      m'.kinds r = .log query (logs ++ ((placesIn receipts).filter fun p => query.accepts p.log).map
        fun p => p.object block p.txIndex 0) := by
  have hlength : m.logFilters.length ≠ 0 := (List.length_pos_of_mem hr).ne'
  simp only [appendLogsToFilters, h.receipts_eq, if_neg hlength, h.block_eq]
  rw [placesIn, List.filter_flatMap, List.map_flatMap]
  refine Except.foldlM_collects (p := fun (m : FilterManager) logs => m.kinds r = .log query logs) ?_ hm
  rintro m' logs' ⟨receipt, indx⟩ hreceipt hm'
  exact appendReceiptLogs_eq h (List.mem_zipIdx_iff_getElem?.mp hreceipt) hr m.nodup_logFilters hm' _

end FilterManager

theorem Recorded.findIdx?_eq (h : Recorded store block receipts) {txn : Transaction}
    (htxn : block.transactions[i]? = some txn) : block.transactions.findIdx? (·.hash = txn.hash) = some i := by
  obtain ⟨hi, rfl⟩ := List.getElem?_eq_some_iff.mp htxn
  refine List.findIdx?_eq_some_iff_getElem.mpr ⟨hi, by simp, fun j hj heq => hj.ne ?_⟩
  have hi' : i < (block.transactions.map (·.hash)).length := by simpa using hi
  have hj' : j < (block.transactions.map (·.hash)).length := hj.trans hi'
  have hhash : (block.transactions.map (·.hash))[j] = (block.transactions.map (·.hash))[i] := by
    simpa using heq
  exact h.hash_nodup.getElem_inj_iff.mp hhash

theorem getTransactionReceipt_eq (h : Recorded store block receipts) (hp : p ∈ placesIn receipts)
    (hstatus : HasStatus receipts p.txIndex) :
    ∃ receipt, store.getTransactionReceipt (txHashAt block p.txIndex) = .ok (some receipt) ∧
      receipt.logs[p.receiptIndex]? = some (p.object block p.receiptIndex p.receiptIndex) := by
  obtain ⟨raw, hraw, hlog, _⟩ := mem_placesIn.mp hp
  obtain ⟨raw', status, hraw', hstatus⟩ := hstatus
  obtain rfl := Option.some.inj (hraw.symm.trans hraw')
  obtain ⟨txn, htxn, hat, hhash⟩ := transactionAt_of_receipt h.length_eq hraw
  have hlength : receipts.length ≠ 0 := by
    obtain ⟨hlt, _⟩ := List.getElem?_eq_some_iff.mp hraw
    omega
  rw [hhash, Store.getTransactionReceipt, h.lookup_eq txn (List.mem_of_getElem? htxn)]
  simp only [h.block_eq, h.receipts_eq, if_neg hlength, h.findIdx?_eq htxn, hat, hraw, bind, Except.bind,
    hstatus]
  refine ⟨_, rfl, ?_⟩
  simp [receiptLogs, hlog, LogPlace.object, hhash]

theorem hasStatus_of_getTransactionReceipt (h : Recorded store block receipts)
    (hp : p ∈ placesIn receipts) {receipt : ReceiptObject}
    (hreceipt : store.getTransactionReceipt (txHashAt block p.txIndex) = .ok (some receipt)) :
    HasStatus receipts p.txIndex := by
  obtain ⟨raw, hraw, -⟩ := mem_placesIn.mp hp
  obtain ⟨txn, htxn, hat, hhash⟩ := transactionAt_of_receipt h.length_eq hraw
  cases hstatus : raw.status with
  | some status => exact ⟨raw, status, hraw, hstatus⟩
  | none =>
    rw [hhash, Store.getTransactionReceipt, h.lookup_eq txn (List.mem_of_getElem? htxn)] at hreceipt
    simp only [h.block_eq, h.receipts_eq, h.findIdx?_eq htxn, hat, hraw, bind, Except.bind,
      hstatus] at hreceipt
    split at hreceipt <;> cases hreceipt

theorem log_views_agree_iff (h : Recorded store block receipts) :
    (∀ fuel limit query, query.blockHash = some block.header.hash →
        store.getLogsForQuery fuel limit query =
          .ok (((placesIn receipts).filter fun p => query.accepts p.log).map fun p =>
            p.object block p.txIndex p.receiptIndex)) ∧
      (∀ fuel limit query logs, store.getLogsForQuery fuel limit query = .ok logs →
        FromBlocks store query logs) ∧
      (∀ query, store.getLogsFromBlock query block =
        .ok (((placesIn receipts).filter fun p => query.accepts p.log).map fun p =>
          p.object block p.txIndex p.receiptIndex)) ∧
      (∀ (m : FilterManager) r query logs, r ∈ m.logFilters → m.kinds r = .log query logs →
        ∃ m', m.appendLogsToFilters store block.header = .ok m' ∧ m'.kinds r = .log query (logs ++
            ((placesIn receipts).filter fun p => query.accepts p.log).map fun p =>
              p.object block p.txIndex 0)) ∧
      (∀ p ∈ placesIn receipts, HasStatus receipts p.txIndex →
        ∃ receipt, store.getTransactionReceipt (txHashAt block p.txIndex) = .ok (some receipt) ∧
          receipt.logs[p.receiptIndex]? = some (p.object block p.receiptIndex p.receiptIndex)) ∧
      ∀ p ∈ placesIn receipts,
        ((p.object block p.txIndex p.receiptIndex = p.object block p.txIndex p.blockIndex ∧
          p.object block p.txIndex 0 = p.object block p.txIndex p.blockIndex ∧
          ∃ receipt, store.getTransactionReceipt (txHashAt block p.txIndex) = .ok (some receipt) ∧
            receipt.logs[p.receiptIndex]? = some (p.object block p.txIndex p.blockIndex)) ↔
        p.txIndex = 0 ∧ p.receiptIndex = 0 ∧ HasStatus receipts p.txIndex) := by
  refine ⟨fun fuel limit query => getLogsForQuery_eq h fuel limit,
    fun fuel limit query logs => getLogsForQuery_fromBlocks,
    getLogsFromBlock_eq h.receipts_eq h.length_eq,
    fun m r query logs => FilterManager.appendLogsToFilters_eq h,
    fun p => getTransactionReceipt_eq h, fun p hp => ?_⟩
  obtain ⟨_, _, _, hindex⟩ := mem_placesIn.mp hp
  have hsame : ∀ i j i' j', p.object block i j = p.object block i' j' ↔ i = i' ∧ j = j' := by
    simp [LogPlace.object]
  constructor
  · rintro ⟨hqueried, hfiltered, receipt, hreceipt, hlog⟩
    have hstatus := hasStatus_of_getTransactionReceipt h hp hreceipt
    obtain ⟨receipt', hreceipt', hlog'⟩ := getTransactionReceipt_eq h hp hstatus
    rw [hreceipt] at hreceipt'
    cases hreceipt'
    obtain ⟨htx, hlogIndex⟩ := (hsame _ _ _ _).mp (Option.some.inj (hlog'.symm.trans hlog))
    have hzero := ((hsame _ _ _ _).mp hfiltered).2
    exact ⟨by omega, by omega, hstatus⟩
  · rintro ⟨htx, hreceipt, hstatus⟩
    have hblock : p.blockIndex = 0 := by simp [hindex, htx, hreceipt, logsBefore]
    obtain ⟨receipt, hfound, hlog⟩ := getTransactionReceipt_eq h hp hstatus
    refine ⟨(hsame _ _ _ _).mpr ⟨rfl, hreceipt.trans hblock.symm⟩,
      (hsame _ _ _ _).mpr ⟨rfl, hblock.symm⟩, receipt, hfound, ?_⟩
    rw [hlog, Option.some.injEq, hsame]
    omega

def loggingTransaction : Transaction :=
  ⟨0, 0, 0, none, 0, [], 0, 0, 0, FixedBytes.ofBytes 32 [1], zeroAddress⟩

def twoLogs : Receipt :=
  ⟨zeroHash, 0, FixedBytes.zero 256, [⟨zeroAddress, [], [1]⟩, ⟨zeroAddress, [], [2]⟩], some .success, 0, none,
    loggingTransaction.hash⟩

def loggingBlock : Block where
  header := ⟨zeroHash, zeroHash, [], zeroHash, zeroHash, zeroHash, FixedBytes.zero 256, 1, 1, 0, 0, 0, [], zeroHash,
    FixedBytes.zero 8, FixedBytes.ofBytes 32 [2]⟩
  transactions := [loggingTransaction]
  uncles := []

def loggingStore : Store where
  header := some loggingBlock.header
  getReceiptsByHash := fun _ => .ok [twoLogs]
  getBlockByHash := fun _ => some loggingBlock
  getBlockByNumber := fun _ => some loggingBlock
  readTxLookup := fun _ => some loggingBlock.header.hash

theorem recorded_loggingBlock : Recorded loggingStore loggingBlock [twoLogs] where
  block_eq := rfl
  receipts_eq := rfl
  length_eq := rfl
  txHash_eq := by
    intro i receipt hi
    obtain ⟨rfl, rfl⟩ : i = 0 ∧ twoLogs = receipt := by cases i <;> simp_all
    exact .inr rfl
  lookup_eq := by decide
  hash_nodup := by decide

def firstLog : LogPlace := ⟨⟨zeroAddress, [], [1]⟩, 0, 0, 0⟩

theorem log_views_agree_iff_firstLog :
    ∃ receipt, loggingStore.getTransactionReceipt (txHashAt loggingBlock 0) = .ok (some receipt) ∧
      receipt.logs[0]? = some (firstLog.object loggingBlock 0 0) :=
  (log_views_agree_iff recorded_loggingBlock).2.2.2.2.1 firstLog (by decide) ⟨_, _, rfl, rfl⟩

def anyLog : LogQuery := ⟨some loggingBlock.header.hash, 0, 0, [], []⟩

def indices (objects : List LogObject) : List (Nat × Nat) := objects.map fun o => (o.txIndex, o.logIndex)

def FilterKind.collected : FilterKind → List LogObject
  | .block _ => []
  | .log _ logs => logs

theorem second_log_has_three_indices :
    (loggingStore.getLogsForQuery 0 0 anyLog).toOption.map indices = some [(0, 0), (0, 1)] ∧
      ((((FilterManager.new 60 loggingBlock.header).newLogFilter "filter" anyLog none).addFilter 0 0
        |>.appendLogsToFilters loggingStore loggingBlock.header).toOption.map
          fun m => indices (m.kinds 0).collected) = some [(0, 0), (0, 0)] ∧
      (loggingStore.getTransactionReceipt loggingTransaction.hash).toOption.map (·.map (indices ·.logs)) =
        some (some [(0, 0), (1, 1)]) := by
  decide +kernel

end Nxchain.Jsonrpc
