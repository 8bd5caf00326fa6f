import Nxchain.Proof.TrieMap

namespace Nxchain

namespace Itrie

variable {hex : List Nibble}

theorem nibblesOf_pack : ∀ high low : Nibble, high ≠ terminator → low ≠ terminator →
    nibblesOf (UInt8.ofNat high.val <<< 4 ||| UInt8.ofNat low.val) = [high, low] := by
  decide +kernel

theorem flatMap_packNibbles (heven : hex.length % 2 = 0) (hnibbles : terminator ∉ hex) :
    (packNibbles hex).flatMap nibblesOf = hex := by
  fun_induction packNibbles hex with
  | case1 high low rest ih =>
    simp only [List.mem_cons, not_or] at hnibbles
    rw [List.flatMap_cons, nibblesOf_pack high low (Ne.symm hnibbles.1) (Ne.symm hnibbles.2.1),
      ih (by simp only [List.length_cons] at heven; omega) hnibbles.2.2]
    rfl
  | case2 hex hshort =>
    match hex, heven, hshort with
    | [], _, _ => rfl
    | [_], heven, _ => exact absurd heven (by simp)
    | high :: low :: rest, _, hshort => exact (hshort high low rest rfl).elim

theorem hasTerminator_iff : hasTerminator hex = true ↔ ∃ body, hex = body ++ [terminator] := by
  rw [hasTerminator, decide_eq_true_eq, List.getLast?_eq_some_iff]

theorem decodeCompact_packNibbles {flag : Nibble} {rest : List Nibble} (heven : (flag :: rest).length % 2 = 0)
    (hnibbles : terminator ∉ flag :: rest) :
    decodeCompact (packNibbles (flag :: rest)) =
      let base := if flag.val < 2 then rest else rest ++ [terminator]
      if flag.val % 2 = 1 then .ok base else dropFirst base := by
  have hbase : (rest ++ [terminator]).dropLast = rest := List.dropLast_concat
  rw [decodeCompact, bytesToHexNibbles, flatMap_packNibbles heven hnibbles]
  simp only [List.cons_append, hbase]

theorem encodeCompact_eq (hex : List Nibble) :
    ∃ (body : List Nibble) (terminated : Bool), hex = body ++ (if terminated then [terminator] else []) ∧
      (terminator ∉ hex.dropLast → terminator ∉ body) ∧
      encodeCompact hex = packNibbles
        (if body.length % 2 = 1 then Fin.ofNat 17 ((if terminated then 2 else 0) + 1) :: body
        else Fin.ofNat 17 (if terminated then 2 else 0) :: 0 :: body) := by
  by_cases hterminated : hasTerminator hex = true
  · obtain ⟨body, rfl⟩ := hasTerminator_iff.mp hterminated
    refine ⟨body, true, rfl, ?_, ?_⟩
    · rw [List.dropLast_concat]
      exact id
    · simp only [encodeCompact, hterminated, if_true, List.dropLast_concat]
      split_ifs <;> rfl
  · refine ⟨hex, false, (List.append_nil hex).symm, ?_, ?_⟩
    · intro hnot hmem
      obtain rfl | ⟨body, a, rfl⟩ := List.eq_nil_or_concat hex
      · exact nomatch hmem
      · rw [List.concat_eq_append, List.dropLast_concat] at hnot
        rw [List.concat_eq_append] at hmem hterminated
        obtain hbody | hlast := List.mem_append.mp hmem
        · exact hnot hbody
        · refine hterminated (hasTerminator_iff.mpr ⟨body, ?_⟩)
          rw [List.mem_singleton.mp hlast]
    · simp only [encodeCompact, if_false, Bool.false_eq_true]
      split_ifs <;> rfl

theorem decodeCompact_encodeCompact (h : terminator ∉ hex.dropLast) :
    decodeCompact (encodeCompact hex) = .ok hex := by
  obtain ⟨body, terminated, rfl, hbody, hencode⟩ := encodeCompact_eq hex
  have hnibbles := hbody h
  have hflag : ∀ flag : Nat, flag < 4 → terminator ≠ Fin.ofNat 17 flag := by
    intro flag hlt heq
    have : (16 : Nat) = flag % 17 := congrArg Fin.val heq
    omega
  rw [hencode]
  by_cases hodd : body.length % 2 = 1
  · rw [if_pos hodd, decodeCompact_packNibbles]
    · cases terminated with
      | false => exact congrArg Except.ok (List.append_nil body).symm
      | true => rfl
    · rw [List.length_cons]
      omega
    · refine List.not_mem_cons_of_ne_of_not_mem (hflag _ ?_) hnibbles
      split_ifs <;> decide
  · rw [if_neg hodd, decodeCompact_packNibbles]
    · cases terminated with
      | false => exact congrArg Except.ok (List.append_nil body).symm
      | true => rfl
    · simp only [List.length_cons]
      omega
    · refine List.not_mem_cons_of_ne_of_not_mem (hflag _ ?_)
        (List.not_mem_cons_of_ne_of_not_mem (hflag 0 (by decide)) hnibbles)
      split_ifs <;> decide

theorem encodeCompact_inj {key key' : List Nibble} (h : terminator ∉ key.dropLast) (h' : terminator ∉ key'.dropLast)
    (heq : encodeCompact key = encodeCompact key') : key = key' := by
  have hdecode := decodeCompact_encodeCompact h
  rw [heq, decodeCompact_encodeCompact h'] at hdecode
  exact (Except.ok.inj hdecode).symm

def nibblePath (body : List (Fin 16)) (terminated : Bool) : List Nibble :=
  body.map Fin.castSucc ++ if terminated then [terminator] else []

theorem terminator_notMem_map (body : List (Fin 16)) : terminator ∉ body.map Fin.castSucc := by
  intro hmem
  obtain ⟨nibble, _, heq⟩ := List.mem_map.mp hmem
  exact absurd heq (Fin.castSucc_lt_last nibble).ne

theorem terminator_notMem_dropLast_nibblePath (body : List (Fin 16)) (terminated : Bool) :
    terminator ∉ (nibblePath body terminated).dropLast := by
  cases terminated with
  | false =>
    rw [nibblePath, if_neg Bool.false_ne_true, List.append_nil]
    exact fun hmem => terminator_notMem_map body (List.mem_of_mem_dropLast hmem)
  | true =>
    rw [nibblePath, if_pos rfl, List.dropLast_concat]
    exact terminator_notMem_map body

theorem hasTerminator_nibblePath (body : List (Fin 16)) (terminated : Bool) :
    hasTerminator (nibblePath body terminated) = terminated := by
  cases terminated with
  | false =>
    rw [nibblePath, if_neg Bool.false_ne_true, List.append_nil, ← Bool.not_eq_true, hasTerminator_iff]
    rintro ⟨front, heq⟩
    apply terminator_notMem_map body
    rw [heq]
    exact List.mem_append_right front List.mem_cons_self
  | true => exact hasTerminator_iff.mpr ⟨body.map Fin.castSucc, rfl⟩

theorem nibblePath_inj {body body' : List (Fin 16)} {terminated terminated' : Bool}
    (heq : nibblePath body terminated = nibblePath body' terminated') :
    body = body' ∧ terminated = terminated' := by
  have hterminated := hasTerminator_nibblePath body terminated
  rw [heq, hasTerminator_nibblePath] at hterminated
  subst hterminated
  exact ⟨List.map_injective_iff.mpr (Fin.castSucc_injective 16) (List.append_cancel_right heq), rfl⟩

theorem compact_encoding_is_invertible :
    (∀ body terminated, decodeCompact (encodeCompact (nibblePath body terminated)) =
      .ok (nibblePath body terminated)) ∧
    (∀ body terminated body' terminated', encodeCompact (nibblePath body terminated) =
      encodeCompact (nibblePath body' terminated') → body = body' ∧ terminated = terminated') ∧
    ∀ body terminated hex, decodeCompact (encodeCompact (nibblePath body terminated)) = .ok hex →
      hasTerminator hex = terminated := by
  have hdecode : ∀ body terminated, decodeCompact (encodeCompact (nibblePath body terminated)) =
      .ok (nibblePath body terminated) := fun body terminated =>
    decodeCompact_encodeCompact (terminator_notMem_dropLast_nibblePath body terminated)
  refine ⟨hdecode, ?_, ?_⟩
  · intro body terminated body' terminated' heq
    apply nibblePath_inj
    exact encodeCompact_inj (terminator_notMem_dropLast_nibblePath body terminated)
      (terminator_notMem_dropLast_nibblePath body' terminated') heq
  · intro body terminated hex hhex
    obtain rfl := Except.ok.inj ((hdecode body terminated).symm.trans hhex)
    exact hasTerminator_nibblePath body terminated

section Encoding

variable [Keccak] (rlp : Fastrlp)

variable {values : Set Rlp.Value} {n : Nat} {t : Tree} {storage : Storage}

def nodeRef (value : Rlp.Value) : Rlp.Value :=
  if rlp.len value < 32 then value else .bytes (keccak256 (rlp.marshal value)).toBytes

def treeRef : Tree → Rlp.Value
  | .nil => .bytes []
  | .leaf value => .bytes value
  | .ext key child => nodeRef rlp (.list [.bytes (encodeCompact key), treeRef child])
  | .branch children =>
    nodeRef rlp (.list ((List.finRange 17).map fun k => treeRef (children k)))

def treeValue : Tree → Rlp.Value
  | .nil => .bytes []
  | .leaf value => .bytes value
  | .ext key child => .list [.bytes (encodeCompact key), treeRef rlp child]
  | .branch children => .list ((List.finRange 17).map fun k => treeRef rlp (children k))

inductive NodeValue : Tree → Rlp.Value → Prop where
  | ext (key : List Nibble) (child : Tree) : NodeValue (.ext key child) (treeValue rlp (.ext key child))
  | branch (children : Nibble → Tree) : NodeValue (.branch children) (treeValue rlp (.branch children))
  | child {key : List Nibble} {child : Tree} {value : Rlp.Value} :
      NodeValue child value → NodeValue (.ext key child) value
  | edge {children : Nibble → Tree} {value : Rlp.Value} (k : Nibble) :
      NodeValue (children k) value → NodeValue (.branch children) value

structure CollisionFree (values : Set Rlp.Value) : Prop where
  marshal_injOn : Set.InjOn rlp.marshal values
  keccak256_injOn : Set.InjOn keccak256 (rlp.marshal '' values)

def rootOf (t : Tree) : Bytes :=
  match t with
  | .nil => emptyRoot
  | t => (keccak256 (rlp.marshal (treeValue rlp t))).toBytes

variable {rlp}

theorem CollisionFree.eq (h : CollisionFree rlp values) {value value' : Rlp.Value} (hvalue : value ∈ values)
    (hvalue' : value' ∈ values) (heq : keccak256 (rlp.marshal value) = keccak256 (rlp.marshal value')) :
    value = value' :=
  h.marshal_injOn hvalue hvalue'
    (h.keccak256_injOn (Set.mem_image_of_mem _ hvalue) (Set.mem_image_of_mem _ hvalue') heq)

theorem CollisionFree.nodeRef_inj (h : CollisionFree rlp values) {vs vs' : List Rlp.Value} (hvs : .list vs ∈ values)
    (hvs' : .list vs' ∈ values) (heq : nodeRef rlp (.list vs) = nodeRef rlp (.list vs')) : vs = vs' := by
  unfold nodeRef at heq
  split_ifs at heq
  · exact Rlp.Value.list.inj heq
  · have hbytes := FixedBytes.ext (Rlp.Value.bytes.inj heq)
    exact Rlp.Value.list.inj (h.eq hvs hvs' hbytes)

theorem nodeRef_list_ne_nil (vs : List Rlp.Value) : nodeRef rlp (.list vs) ≠ .bytes [] := by
  unfold nodeRef
  split_ifs
  · exact nofun
  · intro heq
    have hlength := congrArg List.length (Rlp.Value.bytes.inj heq)
    rw [FixedBytes.length_toBytes] at hlength
    exact nomatch hlength

theorem treeRef_inj (hfree : CollisionFree rlp values) {t' : Tree} (h : Proper n t) (h' : Proper n t')
    (hpos : 0 < n ∨ t ≠ .nil ∧ t' ≠ .nil) (hvalues : ∀ value, NodeValue rlp t value → value ∈ values)
    (hvalues' : ∀ value, NodeValue rlp t' value → value ∈ values) (heq : treeRef rlp t = treeRef rlp t') :
    t = t' := by
  induction t generalizing n t' with
  | nil =>
    cases t' with
    | nil => rfl
    | leaf value =>
      obtain rfl : n = 0 := h'.canonical
      exact absurd rfl (hpos.resolve_left (Nat.lt_irrefl 0)).1
    | ext key child => exact absurd heq.symm (nodeRef_list_ne_nil _)
    | branch children => exact absurd heq.symm (nodeRef_list_ne_nil _)
  | leaf value =>
    obtain rfl : n = 0 := h.canonical
    obtain rfl | ⟨value', rfl⟩ := h'.canonical.of_zero
    · exact absurd rfl (hpos.resolve_left (Nat.lt_irrefl 0)).2
    · rw [Rlp.Value.bytes.inj heq]
  | ext key child ih =>
    obtain ⟨_, hchild, _, m, rfl, _⟩ := h.canonical
    cases t' with
    | nil => exact absurd heq (nodeRef_list_ne_nil _)
    | leaf value =>
      have hpos := List.length_pos_iff.mpr h.canonical.1
      have : key.length + m = 0 := h'.canonical
      omega
    | branch children' =>
      have hvs := hfree.nodeRef_inj (hvalues _ (.ext key child)) (hvalues' _ (.branch children')) heq
      exact absurd (congrArg List.length hvs) (by simp)
    | ext key' child' =>
      have hvs := hfree.nodeRef_inj (hvalues _ (.ext key child)) (hvalues' _ (.ext key' child')) heq
      obtain ⟨hcompact, hrest⟩ := List.cons.inj hvs
      obtain ⟨_, hchild', _, m', hm', _⟩ := h'.canonical
      obtain rfl : key = key' := encodeCompact_inj h.key (Proper.key (hm' ▸ h')) (Rlp.Value.bytes.inj hcompact)
      rw [ih h.child h'.child (.inr ⟨hchild, hchild'⟩) (fun _ hv => hvalues _ (.child hv))
        (fun _ hv => hvalues' _ (.child hv)) (List.cons.inj hrest).1]
  | branch children ih =>
    obtain ⟨_, m, rfl, _⟩ := h.canonical
    cases t' with
    | nil => exact absurd heq (nodeRef_list_ne_nil _)
    | leaf value => exact nomatch h'.canonical
    | ext key child =>
      have hvs := hfree.nodeRef_inj (hvalues _ (.branch children)) (hvalues' _ (.ext key child)) heq
      exact absurd (congrArg List.length hvs) (by simp)
    | branch children' =>
      have hvs := hfree.nodeRef_inj (hvalues _ (.branch children)) (hvalues' _ (.branch children')) heq
      congr 1
      funext k
      exact ih k (h.edge k) (h'.edge k) (.inl h.branch_pos) (fun _ hv => hvalues _ (.edge k hv))
        (fun _ hv => hvalues' _ (.edge k hv)) (List.map_inj_left.mp hvs k (List.mem_finRange k))

def addressOf (data : Bytes) : Bytes := (keccak256 data).toBytes

def separateNodes (rlp : Fastrlp) (t : Tree) : Set Bytes :=
  { data | ∃ value, NodeValue rlp t value ∧ 32 ≤ rlp.len value ∧ data = rlp.marshal value }

def storedNodes (rlp : Fastrlp) (t : Tree) : Set Bytes :=
  separateNodes rlp t ∪ { data | t ≠ .nil ∧ data = rlp.marshal (treeValue rlp t) }

theorem separateNodes_ext (key : List Nibble) (child : Tree) :
    separateNodes rlp (.ext key child) = separateNodes rlp child ∪
      { data | 32 ≤ rlp.len (treeValue rlp (.ext key child)) ∧
        data = rlp.marshal (treeValue rlp (.ext key child)) } := by
  ext data
  constructor
  · rintro ⟨value, hvalue, hlen, rfl⟩
    cases hvalue with
    | ext => exact .inr ⟨hlen, rfl⟩
    | child hvalue => exact .inl ⟨value, hvalue, hlen, rfl⟩
  · rintro (⟨value, hvalue, hlen, rfl⟩ | ⟨hlen, rfl⟩)
    · exact ⟨value, .child hvalue, hlen, rfl⟩
    · exact ⟨_, .ext key child, hlen, rfl⟩

theorem separateNodes_branch (children : Nibble → Tree) :
    separateNodes rlp (.branch children) = (⋃ k, separateNodes rlp (children k)) ∪
      { data | 32 ≤ rlp.len (treeValue rlp (.branch children)) ∧
        data = rlp.marshal (treeValue rlp (.branch children)) } := by
  ext data
  constructor
  · rintro ⟨value, hvalue, hlen, rfl⟩
    cases hvalue with
    | branch => exact .inr ⟨hlen, rfl⟩
    | edge k hvalue => exact .inl (Set.mem_iUnion.mpr ⟨k, value, hvalue, hlen, rfl⟩)
  · rintro (hdata | ⟨hlen, rfl⟩)
    · obtain ⟨k, value, hvalue, hlen, rfl⟩ := Set.mem_iUnion.mp hdata
      exact ⟨value, .edge k hvalue, hlen, rfl⟩
    · exact ⟨_, .branch children, hlen, rfl⟩

theorem separateNodes_nil : separateNodes rlp .nil = ∅ :=
  Set.eq_empty_of_forall_notMem fun _ ⟨_, hvalue, _⟩ => nomatch hvalue

theorem separateNodes_leaf (value : Bytes) : separateNodes rlp (.leaf value) = ∅ :=
  Set.eq_empty_of_forall_notMem fun _ ⟨_, hvalue, _⟩ => nomatch hvalue

theorem storedNodes_nil : storedNodes rlp .nil = ∅ := by
  rw [storedNodes, separateNodes_nil, Set.empty_union]
  exact Set.eq_empty_of_forall_notMem fun _ hdata => hdata.1 rfl

def View.linked (rlp : Fastrlp) (storage : Storage) : View where
  rlp := rlp
  storage := storage
  short _ hash := hash = []
  full _ _ hash := hash = []
  reference t buf := treeRef rlp t = .bytes buf ∧
    ContentStore.Has addressOf storage (separateNodes rlp t)
  short_nil _ := rfl
  full_nil _ _ := rfl

theorem writes_linked (storage : Storage) (epoch : Nat) : (View.linked rlp storage).Writes epoch := by
  rintro nodeEpoch t t' hash rfl
  exact ite_self _

theorem hashNode_value (value : Rlp.Value) (node : Bytes → Node) (written : List (Bytes × Bytes)) :
    (hashNode rlp value node written).value = nodeRef rlp value := by
  unfold hashNode nodeRef
  split_ifs <;> rfl

theorem covers_hashNode {data : Set Bytes} {written : List (Bytes × Bytes)}
    (h : ContentStore.Covers addressOf storage data written) (value : Rlp.Value) (node : Bytes → Node) :
    ContentStore.Covers addressOf storage
      (data ∪ { d | 32 ≤ rlp.len value ∧ d = rlp.marshal value })
      (hashNode rlp value node written).written := by
  unfold hashNode
  split_ifs with hlen
  · have hempty : { d | 32 ≤ rlp.len value ∧ d = rlp.marshal value } = ∅ :=
      Set.eq_empty_of_forall_notMem fun _ ⟨hlong, _⟩ => absurd hlen (Nat.not_lt.mpr hlong)
    rwa [hempty, Set.union_empty]
  · have hsingle : { d | 32 ≤ rlp.len value ∧ d = rlp.marshal value } = {rlp.marshal value} :=
      Set.ext fun _ => and_iff_right (Nat.not_lt.mp hlen)
    rw [hsingle]
    exact h.append (ContentStore.covers_singleton _)

def View.memoised (rlp : Fastrlp) (storage : Storage) (allowed : Option Nat → Prop) : View where
  rlp := rlp
  storage := storage
  short t hash := hash = [] ∨ allowed none ∧ treeRef rlp t = .bytes hash
  full epoch t hash := hash = [] ∨ allowed (some epoch) ∧ treeRef rlp t = .bytes hash
  reference t buf := treeRef rlp t = .bytes buf ∧
    ContentStore.Has addressOf storage (separateNodes rlp t)
  short_nil _ := .inl rfl
  full_nil _ _ := .inl rfl

theorem Refines.memoised {node : Node} (h : Refines (.linked rlp storage) node t) (allowed : Option Nat → Prop) :
    Refines (.memoised rlp storage allowed) node t :=
  h.mono rfl rfl (fun _ _ => .inl) (fun _ _ _ => .inl) fun _ _ => id

theorem Refines.allow {node : Node} {allowed allowed' : Option Nat → Prop}
    (h : Refines (.memoised rlp storage allowed) node t) (himp : ∀ epoch, allowed epoch → allowed' epoch) :
    Refines (.memoised rlp storage allowed') node t :=
  h.mono rfl rfl (fun _ _ => .imp_right (.imp_left (himp _)))
    (fun _ _ _ => .imp_right (.imp_left (himp _))) fun _ _ => id

theorem hashNode_node (rlp : Fastrlp) (value : Rlp.Value) (node : Bytes → Node) (written : List (Bytes × Bytes)) :
    ∃ memo, (hashNode rlp value node written).node = node memo ∧
      (memo = [] ∨ True ∧ nodeRef rlp value = .bytes memo) := by
  unfold hashNode nodeRef
  split_ifs
  · exact ⟨[], rfl, .inl rfl⟩
  · exact ⟨_, rfl, .inr ⟨trivial, rfl⟩⟩

structure Hashed (rlp : Fastrlp) (storage : Storage) (allowed : Option Nat → Prop) (t : Tree)
    (r : HashResult) : Prop where
  value : r.value = treeRef rlp t
  node : Refines (.memoised rlp storage fun _ => True) r.node t
  written : (∀ epoch, ¬ allowed epoch) →
    ContentStore.Covers addressOf storage (separateNodes rlp t) r.written

section Hashed

variable {storage : Storage} {allowed : Option Nat → Prop}

theorem hashed_nil : Hashed rlp storage allowed .nil ⟨.bytes [], .nil, []⟩ where
  value := by rw [treeRef]
  node := .nil
  written _ := by
    rw [separateNodes_nil]
    exact ContentStore.covers_empty

theorem Hashed.short {child : Tree} {r : HashResult} (h : Hashed rlp storage allowed child r) (key : List Nibble) :
    Hashed rlp storage allowed (.ext key child)
      (hashNode rlp (.list [.bytes (encodeCompact key), r.value])
        (fun memo => .short memo key r.node) r.written) := by
  rw [h.value]
  refine ⟨?_, ?_, fun hfresh => ?_⟩
  · rw [hashNode_value, treeRef]
  · obtain ⟨memo, hnode, hmemo⟩ := hashNode_node rlp
      (.list [.bytes (encodeCompact key), treeRef rlp child]) (fun memo => .short memo key r.node) r.written
    rw [hnode]
    exact .short key hmemo h.node
  · rw [separateNodes_ext]
    exact covers_hashNode (h.written hfresh) _ _

theorem Hashed.full {children : Nibble → Tree} {r : Nibble → HashResult}
    (h : ∀ k, Hashed rlp storage allowed (children k) (r k)) (epoch : Nat) :
    Hashed rlp storage allowed (.branch children)
      (let rs := (List.finRange 17).map r
      hashNode rlp (.list (rs.map HashResult.value))
        (fun memo => .full memo epoch fun k => (rs.map HashResult.node).getD k .nil)
        (rs.flatMap HashResult.written)) := by
  have hvalues : ((List.finRange 17).map r).map HashResult.value =
      (List.finRange 17).map fun k => treeRef rlp (children k) := by
    rw [List.map_map]
    exact List.map_congr_left fun k _ => (h k).value
  refine ⟨?_, ?_, fun hfresh => ?_⟩
  · rw [hashNode_value, hvalues, treeRef]
  · obtain ⟨memo, hnode, hmemo⟩ := hashNode_node rlp (.list (((List.finRange 17).map r).map HashResult.value))
      (fun memo => .full memo epoch fun k =>
        (((List.finRange 17).map r).map HashResult.node).getD k .nil)
      (((List.finRange 17).map r).flatMap HashResult.written)
    rw [hnode]
    rw [hvalues] at hmemo
    refine .full hmemo fun k => ?_
    rw [List.map_map, List.getD_eq_getElem?_getD, List.getElem?_map,
      List.getElem?_eq_getElem (by rw [List.length_finRange]; exact k.isLt), List.getElem_finRange]
    exact (h k).node
  · dsimp only
    have hcovers := ContentStore.Covers.flatMap (List.finRange 17) fun k _ => (h k).written hfresh
    simp only [List.mem_finRange, Set.iUnion_true] at hcovers
    rw [separateNodes_branch, hvalues]
    exact covers_hashNode hcovers _ _

theorem hashed_of_memo {node : Node} {t : Tree} {memo : Bytes} {epoch : Option Nat} (hallowed : allowed epoch)
    (hmemo : treeRef rlp t = .bytes memo) (hnode : Refines (.memoised rlp storage allowed) node t) :
    Hashed rlp storage allowed t ⟨.bytes memo, node, []⟩ where
  value := hmemo.symm
  node := hnode.allow fun _ _ => trivial
  written hfresh := absurd hallowed (hfresh epoch)

theorem hashEdges_of_refines {edges : Nibble → Node} {children : Nibble → Tree}
    (hedges : ∀ k, Refines (.memoised rlp storage allowed) (edges k) (children k))
    (hhash : ∀ k, children k ≠ .nil → ∃ r, hash rlp (edges k) = .ok r ∧ Hashed rlp storage allowed (children k) r) :
    ∃ r : Nibble → HashResult,
      (List.finRange 17).mapM (fun k => hashEdge (edges k) (hash rlp (edges k))) =
        .ok ((List.finRange 17).map r) ∧
      ∀ k, Hashed rlp storage allowed (children k) (r k) := by
  have hedge : ∀ k, ∃ r, hashEdge (edges k) (hash rlp (edges k)) = .ok r ∧
      Hashed rlp storage allowed (children k) r := by
    intro k
    by_cases hk : children k = .nil
    · refine ⟨⟨.bytes [], .nil, []⟩, ?_, ?_⟩
      · rw [hashEdge, if_pos ((hedges k).isNil_iff.mpr hk)]
      · rw [hk]
        exact hashed_nil
    · obtain ⟨r, hr, hhashed⟩ := hhash k hk
      refine ⟨r, ?_, hhashed⟩
      rw [hashEdge, if_neg fun hnil => hk ((hedges k).isNil_iff.mp hnil), hr]
  choose r hr hhashed using hedge
  refine ⟨r, ?_, hhashed⟩
  rw [Except.mapM_eq_ok_iff, List.forall₂_map_right_iff, List.forall₂_same]
  exact fun k _ => hr k

theorem hash_of_refines {node : Node} {t : Tree} {n : Nat} (h : Refines (.memoised rlp storage allowed) node t)
    (hcanonical : t.Canonical n) (hne : t ≠ .nil) :
    ∃ r, hash rlp node = .ok r ∧ Hashed rlp storage allowed t r := by
  induction h generalizing n with
  | nil => exact absurd rfl hne
  | value buf =>
    refine ⟨_, rfl, rfl, .value buf, fun _ => ?_⟩
    rw [separateNodes_leaf]
    exact ContentStore.covers_empty
  | @short child t memo key hmemo hchild ih =>
    by_cases hnil : memo = []
    · subst hnil
      obtain ⟨_, hnil, _, m, _, hm⟩ := hcanonical
      obtain ⟨r, hr, hhashed⟩ := ih hm hnil
      refine ⟨_, ?_, hhashed.short key⟩
      simp only [hash, hr]
      rfl
    · obtain ⟨hallowed, href⟩ := hmemo.resolve_left hnil
      refine ⟨_, ?_, hashed_of_memo hallowed href (.short key hmemo hchild)⟩
      rw [hash, if_pos hnil]
  | @full edges children memo epoch hmemo hedges ih =>
    by_cases hnil : memo = []
    · subst hnil
      obtain ⟨_, m, _, hm⟩ := hcanonical
      obtain ⟨r, hrs, hhashed⟩ := hashEdges_of_refines hedges fun k hk => ih k (hm k) hk
      refine ⟨_, ?_, Hashed.full hhashed epoch⟩
      simp only [hash, hrs]
      rfl
    · obtain ⟨hallowed, href⟩ := hmemo.resolve_left hnil
      refine ⟨_, ?_, hashed_of_memo hallowed href (.full hmemo hedges)⟩
      rw [hash, if_pos hnil]
  | @reference buf node t href hget hrefines ih =>
    have hnode := Refines.reference (v := .memoised rlp storage allowed) href hget hrefines
    refine ⟨_, rfl, href.1.symm, ?_, fun _ => href.2.covers⟩
    exact hnode.allow fun _ _ => trivial

end Hashed

theorem Proper.treeValue_eq (rlp : Fastrlp) (h : Proper (n + 1) t) (hne : t ≠ .nil) :
    ∃ vs, treeValue rlp t = .list vs ∧ treeRef rlp t = nodeRef rlp (.list vs) ∧
      NodeValue rlp t (.list vs) ∧ rootOf rlp t = (keccak256 (rlp.marshal (.list vs))).toBytes := by
  cases t with
  | nil => exact absurd rfl hne
  | leaf value => exact nomatch h.canonical
  | ext key child => exact ⟨_, rfl, rfl, .ext key child, rfl⟩
  | branch children => exact ⟨_, rfl, rfl, .branch children, rfl⟩

theorem Txn.hash_of_memoised {t : Txn} {tree : Tree} {allowed : Option Nat → Prop}
    (h : Refines (.memoised rlp storage allowed) t.root tree) (hproper : Proper (n + 1) tree) :
    ∃ node written, t.hash rlp = .ok (rootOf rlp tree, { t with root := node }.put written) ∧
      Refines (.memoised rlp storage fun _ => True) node tree ∧
      ((∀ epoch, ¬ allowed epoch) → ContentStore.Covers addressOf storage (storedNodes rlp tree) written) := by
  unfold Txn.hash
  by_cases hnil : tree = .nil
  · rw [if_pos (h.isNil_iff.mpr hnil), hnil]
    refine ⟨t.root, [], ?_, hnil ▸ h.allow fun _ _ => trivial, fun _ => ?_⟩
    · have hbatch : t.batch.map (· ++ []) = t.batch := by simp
      rw [Txn.put, hbatch]
      rfl
    · rw [storedNodes_nil]
      exact ContentStore.covers_empty
  · rw [if_neg fun hroot => hnil (h.isNil_iff.mp hroot)]
    obtain ⟨r, hr, hhashed⟩ := Itrie.hash_of_refines h hproper.canonical hnil
    obtain ⟨vs, hvs, href, hnode, hroot⟩ := hproper.treeValue_eq rlp hnil
    have hvalue := hhashed.value
    have hstored : storedNodes rlp tree = separateNodes rlp tree ∪ {rlp.marshal (.list vs)} := by
      rw [storedNodes, hvs]
      exact congrArg (separateNodes rlp tree ∪ ·) (Set.ext fun _ => and_iff_right hnil)
    rw [hr, hroot]
    rw [href] at hvalue
    by_cases hlen : rlp.len (.list vs) < 32
    · rw [nodeRef, if_pos hlen] at hvalue
      simp only [bind, Except.bind, hvalue]
      refine ⟨r.node, r.written ++ [(addressOf (rlp.marshal (.list vs)), rlp.marshal (.list vs))], ?_,
        hhashed.node, fun hfresh => ?_⟩
      · simp only [Txn.put, Option.map_map, Function.comp_def, List.append_assoc]
        rfl
      · rw [hstored]
        exact (hhashed.written hfresh).append (ContentStore.covers_singleton _)
    · rw [nodeRef, if_neg hlen] at hvalue
      have hhash : rlp.len (.bytes (keccak256 (rlp.marshal (.list vs))).toBytes) = 32 := by
        rw [rlp.len_bytes, FixedBytes.length_toBytes]
      simp only [bind, Except.bind, hvalue, hhash]
      refine ⟨r.node, r.written, rfl, hhashed.node, fun hfresh => ?_⟩
      -- the root was written with the other nodes
      have hmem : rlp.marshal (.list vs) ∈ separateNodes rlp tree := ⟨_, hnode, Nat.not_lt.mp hlen, rfl⟩
      rw [hstored, Set.union_eq_self_of_subset_right (Set.singleton_subset_iff.mpr hmem)]
      exact hhashed.written hfresh

theorem Txn.hash_of_refines {t : Txn} {tree : Tree} (h : Refines (.linked rlp storage) t.root tree)
    (hproper : Proper (n + 1) tree) :
    ∃ node written, t.hash rlp = .ok (rootOf rlp tree, { t with root := node }.put written) ∧
      Refines (.any rlp storage) node tree ∧
      ContentStore.Covers addressOf storage (storedNodes rlp tree) written := by
  obtain ⟨node, written, hhash, hnode, hcovers⟩ := Txn.hash_of_memoised (h.memoised fun _ => False) hproper
  exact ⟨node, written, hhash, hnode.any, hcovers fun _ => id⟩

theorem rootOf_inj (hfree : CollisionFree rlp values)
    (hempty : emptyRoot = (keccak256 (rlp.marshal (.bytes []))).toBytes) (hnil : .bytes [] ∈ values) {t' : Tree}
    (h : Proper (n + 1) t) (h' : Proper (n + 1) t') (hvalues : ∀ value, NodeValue rlp t value → value ∈ values)
    (hvalues' : ∀ value, NodeValue rlp t' value → value ∈ values) (heq : rootOf rlp t = rootOf rlp t') :
    t = t' := by
  -- the empty root is the hash of a string
  have hroot : ∀ {t : Tree}, Proper (n + 1) t → (∀ value, NodeValue rlp t value → value ∈ values) →
      emptyRoot = rootOf rlp t → t = .nil := by
    intro t ht hvalues heq
    by_contra hne
    obtain ⟨vs, _, _, hvs, hroot⟩ := ht.treeValue_eq rlp hne
    rw [hempty, hroot] at heq
    exact nomatch hfree.eq hnil (hvalues _ hvs) (FixedBytes.ext heq)
  by_cases ht : t = .nil
  · subst ht
    exact (hroot h' hvalues' heq).symm
  by_cases ht' : t' = .nil
  · subst ht'
    exact hroot h hvalues heq.symm
  obtain ⟨vs, _, href, hvs, hroot⟩ := h.treeValue_eq rlp ht
  obtain ⟨vs', _, href', hvs', hroot'⟩ := h'.treeValue_eq rlp ht'
  rw [hroot, hroot'] at heq
  have hlist := hfree.eq (hvalues _ hvs) (hvalues' _ hvs') (FixedBytes.ext heq)
  apply treeRef_inj hfree h h' (.inl (Nat.succ_pos n)) hvalues hvalues'
  rw [href, href', hlist]

end Encoding

theorem exists_path {k : List Nibble} (hk : k.length = 65) (hterminated : Terminated k) : ∃ key, path key = k := by
  obtain ⟨body, last, rfl⟩ : ∃ body last, k = body ++ [last] := by
    obtain rfl | ⟨body, last, rfl⟩ := List.eq_nil_or_concat k
    · exact nomatch hk
    · exact ⟨body, last, List.concat_eq_append⟩
  obtain rfl : last = terminator := (hterminated body last [] rfl).mpr rfl
  have hbody : terminator ∉ body := by
    intro hmem
    obtain ⟨p, s, rfl⟩ := List.append_of_mem hmem
    have hnil := (hterminated p terminator (s ++ [terminator]) (by simp)).mp rfl
    simp at hnil
  rw [List.length_append, List.length_singleton] at hk
  have hnibbles := flatMap_packNibbles (by omega) hbody
  have hlength : (packNibbles body).length = 32 := by
    have := length_flatMap_nibblesOf (packNibbles body)
    rw [hnibbles] at this
    omega
  refine ⟨⟨packNibbles body, hlength⟩, ?_⟩
  rw [path, bytesToHexNibbles, hnibbles]

theorem Proper.ext {t t' : Tree} (h : Proper 65 t) (h' : Proper 65 t')
    (heq : ∀ key, t.get (path key) = t'.get (path key)) : t = t' := by
  apply h.canonical.ext_get h'.canonical
  intro k hk
  by_cases hterminated : Terminated k
  · obtain ⟨key, rfl⟩ := exists_path hk hterminated
    exact heq key
  · have hnone : ∀ {t : Tree}, Proper 65 t → t.get k = none := fun ht =>
      not_not.mp fun hget => hterminated (ht.terminated k hk hget)
    rw [hnone h, hnone h']

noncomputable def Op.put (t : Tree) : Op → Tree
  | insert key value => t.put (path key) (some value)
  | delete key => t.put (path key) none

noncomputable def treeOf (ops : List Op) : Tree := ops.foldl Op.put .nil

theorem Op.get_put {t : Tree} (h : Proper 65 t) {m : Hash → Option Bytes} (hm : ∀ key, t.get (path key) = m key)
    (op : Op) : Proper 65 (op.put t) ∧ ∀ key, (op.put t).get (path key) = op.write m key := by
  cases op with
  | insert key value =>
    exact ⟨h.put (length_path key) (terminated_path key) _, get_put_path h hm key _⟩
  | delete key => exact ⟨h.put (length_path key) (terminated_path key) _, get_put_path h hm key _⟩

theorem treeOf_spec (ops : List Op) :
    Proper 65 (treeOf ops) ∧ ∀ key, (treeOf ops).get (path key) = content ops key := by
  have hfold : ∀ (ops : List Op) (t : Tree) (m : Hash → Option Bytes), Proper 65 t →
      (∀ key, t.get (path key) = m key) → Proper 65 (ops.foldl Op.put t) ∧
        ∀ key, (ops.foldl Op.put t).get (path key) = ops.foldl Op.write m key := by
    intro ops
    induction ops with
    | nil => exact fun t m h hm => ⟨h, hm⟩
    | cons op ops ih =>
      intro t m h hm
      obtain ⟨hproper, hget⟩ := op.get_put h hm
      exact ih _ _ hproper hget
  exact hfold ops .nil _ ⟨trivial, fun _ _ h => absurd rfl h⟩ fun _ => rfl

section Root

variable [Keccak] {rlp : Fastrlp}

theorem run_hash (rlp : Fastrlp) (storage : Storage) (ops : List Op) {fuel : Nat} (hfuel : pathFuel ≤ fuel) :
    ∃ t t', ops.foldlM (Op.run rlp fuel) (newTrie storage).txn = .ok t ∧
      t.hash rlp = .ok (rootOf rlp (treeOf ops), t') := by
  obtain ⟨root, hrun, tree, hrefines, hproper, hget⟩ :=
    (holds_nil (.linked rlp storage)).runAll (t := (newTrie storage).txn) (writes_linked storage _) rfl hfuel ops
  obtain ⟨hproper', hget'⟩ := treeOf_spec ops
  obtain rfl : tree = treeOf ops := hproper.ext hproper' fun key => (hget key).trans (hget' key).symm
  obtain ⟨node, written, hhash, _⟩ :=
    Txn.hash_of_refines (t := { (newTrie storage).txn with root := root }) hrefines hproper
  exact ⟨_, _, hrun, hhash⟩

theorem root_eq_iff_content_eq (storage : Storage) (ops ops' : List Op) {fuel : Nat}
    (hfuel : pathFuel ≤ fuel)
    (hempty : emptyRoot = (keccak256 (rlp.marshal (.bytes []))).toBytes)
    (hfree : CollisionFree rlp { value | value = .bytes [] ∨ NodeValue rlp (treeOf ops) value
        ∨ NodeValue rlp (treeOf ops') value }) :
    ∃ t t' root root' u u',
      ops.foldlM (Op.run rlp fuel) (newTrie storage).txn = .ok t ∧ t.hash rlp = .ok (root, u) ∧
        ops'.foldlM (Op.run rlp fuel) (newTrie storage).txn = .ok t' ∧
        t'.hash rlp = .ok (root', u') ∧ (root = root' ↔ content ops = content ops') := by
  obtain ⟨t, u, hrun, hhash⟩ := run_hash rlp storage ops hfuel
  obtain ⟨t', u', hrun', hhash'⟩ := run_hash rlp storage ops' hfuel
  refine ⟨t, t', _, _, u, u', hrun, hhash, hrun', hhash', ?_⟩
  obtain ⟨hproper, hget⟩ := treeOf_spec ops
  obtain ⟨hproper', hget'⟩ := treeOf_spec ops'
  constructor
  · intro hroot
    have htree := rootOf_inj hfree hempty (.inl rfl) hproper hproper'
      (fun _ hvalue => .inr (.inl hvalue)) (fun _ hvalue => .inr (.inr hvalue)) hroot
    funext key
    rw [← hget, ← hget', htree]
  · intro hcontent
    have htree := hproper.ext hproper' fun key => by rw [hget, hget', hcontent]
    rw [htree]

end Root

section Sample

abbrev rootKeccak : Keccak where
  keccak256 b := if b = [128] then emptyStateHash else FixedBytes.ofBytes 32 b

local instance : Keccak := rootKeccak

def leafValue : Rlp.Value := .list [.bytes (encodeCompact (path zeroHash)), .bytes [7]]

theorem treeOf_leaf : treeOf [.insert zeroHash [7]] = .ext (path zeroHash) (.leaf [7]) := by
  have hpath : path zeroHash ≠ [] := by
    intro hnil
    have hlength := length_path zeroHash
    rw [hnil] at hlength
    exact nomatch hlength
  change RadixTree.put .nil (path zeroHash) (some [7]) = _
  rw [RadixTree.put_nil_some, (RadixTree.compact_leaf _).extend hpath]

theorem content_detour :
    content [.insert zeroHash [7], .insert (word 1) [8], .delete (word 1)] =
      content [.insert zeroHash [7]] := by
  funext key
  have hword : word 1 ≠ zeroHash := by decide +kernel
  by_cases hkey : key = word 1
  · subst hkey
    simp [content, Op.write, hword]
  · simp [content, Op.write, hkey]

theorem collisionFree_leaf {values : Set Rlp.Value} (h : ∀ value ∈ values, value = .bytes [] ∨ value = leafValue) :
    CollisionFree sampleRlp values where
  marshal_injOn := by
    intro value hvalue value' hvalue' heq
    rcases h value hvalue with rfl | rfl <;> rcases h value' hvalue' with rfl | rfl
    · rfl
    · exact absurd heq (by decide +kernel)
    · exact absurd heq (by decide +kernel)
    · rfl
  keccak256_injOn := by
    rintro _ ⟨value, hvalue, rfl⟩ _ ⟨value', hvalue', rfl⟩ heq
    rcases h value hvalue with rfl | rfl <;> rcases h value' hvalue' with rfl | rfl
    · rfl
    · exact absurd heq (by decide +kernel)
    · exact absurd heq (by decide +kernel)
    · rfl

theorem root_eq_iff_content_eq_detour :
    ∃ t t' root root' u u',
      [Op.insert zeroHash [7]].foldlM (Op.run sampleRlp pathFuel) (newTrie leafStorage).txn = .ok t ∧
        t.hash sampleRlp = .ok (root, u) ∧
        [Op.insert zeroHash [7], .insert (word 1) [8], .delete (word 1)].foldlM
          (Op.run sampleRlp pathFuel) (newTrie leafStorage).txn = .ok t' ∧
        t'.hash sampleRlp = .ok (root', u') ∧
        (root = root' ↔ content [.insert zeroHash [7]] =
          content [.insert zeroHash [7], .insert (word 1) [8], .delete (word 1)]) := by
  have htree : treeOf [.insert zeroHash [7], .insert (word 1) [8], .delete (word 1)] =
      treeOf [.insert zeroHash [7]] := by
    obtain ⟨hproper, hget⟩ := treeOf_spec [.insert zeroHash [7]]
    obtain ⟨hproper', hget'⟩ :=
      treeOf_spec [.insert zeroHash [7], .insert (word 1) [8], .delete (word 1)]
    exact hproper'.ext hproper fun key => by rw [hget, hget', content_detour]
  have hvalue : ∀ value, NodeValue sampleRlp (treeOf [.insert zeroHash [7]]) value → value = leafValue := by
    rw [treeOf_leaf]
    intro value hvalue
    cases hvalue with
    | ext => rfl
    | child hchild => exact nomatch hchild
  refine root_eq_iff_content_eq leafStorage _ _ le_rfl (by decide +kernel) (collisionFree_leaf ?_)
  rintro value (rfl | hleaf | hleaf)
  · exact .inl rfl
  · exact .inr (hvalue value hleaf)
  · exact .inr (hvalue value (htree ▸ hleaf))

end Sample

end Itrie

end Nxchain
