import Nxchain.Buildroot
import Nxchain.Proof.TrieRoot
import Mathlib.Algebra.Order.BigOperators.Group.List

namespace Nxchain

variable {i : Nat}

namespace FastHasher

variable {n size : Nat} {v : Bytes}

theorem length_bigEndian_eq {k : Nat} (hlow : 256 ^ k ≤ n) (hhigh : n < 256 ^ (k + 1)) :
    (Rlp.bigEndian n).length = k + 1 := by
  have hle := Rlp.length_bigEndian_le hhigh
  have hlt : k < (Nat.digits 256 n).length := (Nat.lt_digits_length_iff (by norm_num) n).mpr hlow
  rw [Rlp.bigEndian, List.length_reverse, List.length_map] at hle ⊢
  omega

theorem intsize_eq (hpos : 0 < n) (hn : n < 2 ^ 64) : intsize n = (Rlp.bigEndian n).length := by
  unfold intsize
  split_ifs
  all_goals exact (length_bigEndian_eq (by omega) (by omega)).symm

theorem drop_putUint64 (hn : n < 2 ^ 64) : (putUint64 n).drop (8 - (Rlp.bigEndian n).length) = Rlp.bigEndian n := by
  have hlength : (Nat.digits 256 n).length ≤ 8 := (Nat.digits_length_le_iff (by norm_num) n).mpr (by omega)
  have hdigits : Nat.digits 256 n = (List.range (Nat.digits 256 n).length).map fun i => n / 256 ^ i % 256 := by
    refine List.ext_getElem (by simp) fun i hi _ => ?_
    rw [List.getElem_map, List.getElem_range, ← Nat.getD_digits n i (by norm_num), List.getD_eq_getElem?_getD,
      List.getElem?_eq_getElem hi, Option.getD_some]
  have hbytes : (Nat.digits 256 n).map UInt8.ofNat =
      (List.range (Nat.digits 256 n).length).map fun i => UInt8.ofNat (n / 256 ^ i) := by
    conv_lhs => rw [hdigits, List.map_map]
    exact List.map_congr_left fun i _ => UInt8.ofNat_mod_size
  rw [putUint64, Rlp.bigEndian, hbytes, List.length_reverse, List.length_map, List.length_range,
    List.drop_reverse, List.length_map, List.length_range, ← List.map_take, List.take_range]
  congr 4
  omega

theorem marshalRlpSize_eq (dst : Bytes) (hsize : size < 2 ^ 64) (offset : Nat) :
    marshalRlpSize dst size (UInt8.ofNat offset) (UInt8.ofNat (offset + 55)) =
      dst ++ Rlp.lengthPrefix offset size := by
  unfold marshalRlpSize Rlp.lengthPrefix
  by_cases hshort : size < 56
  · rw [if_pos hshort, if_pos (by omega), UInt8.ofNat_add]
  · rw [if_neg hshort, if_neg (by omega), intsize_eq (by omega) hsize]
    dsimp only
    rw [drop_putUint64 hsize, List.append_assoc, List.singleton_append, ← UInt8.ofNat_add]

theorem marshalItemRlpSize_eq (dst : Bytes) (hsize : size < 2 ^ 64) :
    marshalItemRlpSize dst size = dst ++ Rlp.lengthPrefix 128 size := by
  rw [marshalItemRlpSize, Nat.mod_eq_of_lt hsize]
  exact marshalRlpSize_eq dst hsize 128

theorem marshalListRlpSize_eq (dst : Bytes) (hsize : size < 2 ^ 64) :
    marshalListRlpSize dst size = dst ++ Rlp.lengthPrefix 192 size := by
  rw [marshalListRlpSize, Nat.mod_eq_of_lt hsize]
  exact marshalRlpSize_eq dst hsize 192

theorem getRlpSize_eq (hsize : size < 2 ^ 64) (offset : Nat) :
    getRlpSize size = (Rlp.lengthPrefix offset size).length := by
  unfold getRlpSize Rlp.lengthPrefix
  by_cases hshort : size < 56
  · rw [if_pos hshort, if_pos (by omega), List.length_singleton]
  · rw [if_neg hshort, if_neg (by omega), List.length_cons, intsize_eq (by omega) hsize]

def leafNode (key v : Bytes) : Rlp.Value := .list [.bytes key, .bytes v]

def Leaf (v : Bytes) : Prop := 32 ≤ v.length ∧ v.length < Rlp.maxLength

theorem encode_leaf (hv : Leaf v) : Rlp.encode (.bytes v) = Rlp.lengthPrefix 128 v.length ++ v := by
  have hlong := hv.1
  rw [Rlp.encode, if_neg fun hone => by omega]

theorem encodeAll_leafNode {key : Bytes} (hv : Leaf v) :
    Rlp.encodeAll [.bytes key, .bytes v] =
      Rlp.encode (.bytes key) ++ (Rlp.lengthPrefix 128 v.length ++ v) := by
  rw [Rlp.encodeAll, Rlp.encodeAll, Rlp.encodeAll, encode_leaf hv, List.append_nil]

theorem marshal_leafNode {key : Bytes} (hv : Leaf v) {keyBytes : Bytes} (hkey : Rlp.encode (.bytes key) = keyBytes)
    (hshort : keyBytes.length ≤ 3) :
    marshalItemRlpSize (marshalListRlpSize [] (getRlpSize v.length + v.length + keyBytes.length) ++ keyBytes)
      v.length ++ v = Rlp.encode (leafNode key v) := by
  have hmax : v.length < 2 ^ 63 := hv.2
  have hsize : v.length < 2 ^ 64 := by omega
  have hprefix : (Rlp.lengthPrefix 128 v.length).length ≤ 8 + 1 := Rlp.length_lengthPrefix_le 128 (by omega)
  have hlength : (Rlp.encodeAll [.bytes key, .bytes v]).length =
      getRlpSize v.length + v.length + keyBytes.length := by
    rw [encodeAll_leafNode hv, hkey, getRlpSize_eq hsize 128, List.length_append, List.length_append]
    omega
  rw [getRlpSize_eq hsize 128] at hlength ⊢
  rw [marshalItemRlpSize_eq _ hsize, marshalListRlpSize_eq _ (by omega), leafNode, Rlp.encode, hlength,
    encodeAll_leafNode hv, hkey, List.nil_append, List.append_assoc, List.append_assoc]

variable {num : Nat} {cb : Nat → Bytes} {i : Nat}

theorem getCb_eq_some (h : getCb num cb i = some v) : v = cb i ∧ 32 ≤ (cb i).length := by
  unfold getCb at h
  dsimp only at h
  split_ifs at h
  exact ⟨(Option.some.inj h).symm, by omega⟩

variable [Keccak]

def nodeHash (value : Rlp.Value) : Bytes := (keccak256 (Rlp.encode value)).toBytes

theorem encode_nodeHash (value : Rlp.Value) :
    Rlp.encode (.bytes (nodeHash value)) = rlpHashPrefix ++ nodeHash value := by
  have hlength : (nodeHash value).length = 32 := FixedBytes.length_toBytes _
  rw [Rlp.encode, hlength]
  rfl

theorem encodeSingle_eq (dst : Bytes) (hv : Leaf v) (b : Bool) :
    encodeSingle dst v b = dst ++ nodeHash (leafNode (if b then oneKey else zeroKey) v) := by
  have hkey : Rlp.encode (.bytes (if b then oneKey else zeroKey)) = if b then oneKey else zeroKey := by
    cases b <;> decide +kernel
  have hlength : (if b then oneKey else zeroKey).length = 1 := by
    cases b <;> rfl
  have hnode := marshal_leafNode hv hkey (by omega)
  rw [hlength] at hnode
  exact congrArg (appendHash dst) hnode

theorem appendLeaf_eq_some {buf buf' : Bytes} (hmax : (cb i).length < Rlp.maxLength)
    (h : appendLeaf num cb buf i = some buf') :
    Leaf (cb i) ∧ buf' = buf ++ (rlpHashPrefix ++ nodeHash (leafNode leafVal (cb i))) := by
  obtain ⟨v, hv, hbuf⟩ := Option.bind_eq_some_iff.mp h
  obtain ⟨rfl, hlong⟩ := getCb_eq_some hv
  have hkey : Rlp.encode (.bytes leafVal) = leafVal := by decide +kernel
  have hnode := marshal_leafNode ⟨hlong, hmax⟩ hkey (by decide)
  refine ⟨⟨hlong, hmax⟩, ?_⟩
  rw [← Option.some.inj hbuf, ← List.append_assoc, nodeHash, ← hnode, Nat.add_right_comm]
  rfl

end FastHasher

open FastHasher Itrie

section Lists

variable {α β : Type}

theorem foldlM_appends {f : List β → α → Option (List β)} {g : α → List β} {p : α → Prop} {as : List α}
    (hstep : ∀ b b' a, a ∈ as → f b a = some b' → p a ∧ b' = b ++ g a) {b b' : List β}
    (h : as.foldlM f b = some b') : (∀ a ∈ as, p a) ∧ b' = b ++ as.flatMap g := by
  induction as generalizing b with
  | nil => simpa using h.symm
  | cons a as ih =>
    obtain ⟨c, hc, hrest⟩ := Option.bind_eq_some_iff.mp h
    obtain ⟨hp, hbytes⟩ := hstep b c a List.mem_cons_self hc
    obtain ⟨hall, hbytes'⟩ := ih (fun b b' x hx => hstep b b' x (List.mem_cons_of_mem a hx)) hrest
    refine ⟨List.forall_mem_cons.mpr ⟨hp, hall⟩, ?_⟩
    rw [hbytes', hbytes, List.flatMap_cons, List.append_assoc]

theorem flatMap_range'_const {f : Nat → List β} {e : List β} {start count : Nat}
    (h : ∀ i, start ≤ i → i < start + count → f i = e) :
    (List.range' start count).flatMap f = (List.replicate count e).flatten := by
  have hmap : (List.range' start count).map f = List.replicate count e := by
    rw [List.eq_replicate_iff, List.length_map, List.length_range']
    refine ⟨rfl, fun b hb => ?_⟩
    obtain ⟨i, hi, rfl⟩ := List.mem_map.mp hb
    rw [List.mem_range'_1] at hi
    exact h i hi.1 hi.2
  rw [List.flatMap_def, hmap]

theorem range'_mul (step start count : Nat) :
    List.range' (step * start) count step = (List.range' start count).map (step * ·) := by
  induction count generalizing start with
  | zero => rfl
  | succ count ih => rw [List.range'_succ, List.range'_succ, List.map_cons, ← ih, Nat.mul_add, Nat.mul_one]

theorem encodeAll_map (f : α → Rlp.Value) (as : List α) :
    Rlp.encodeAll (as.map f) = as.flatMap fun a => Rlp.encode (f a) := by
  induction as with
  | nil => rfl
  | cons a as ih => rw [List.map_cons, Rlp.encodeAll, ih, List.flatMap_cons]

end Lists

structure Itrie.Fastrlp.Standard (rlp : Fastrlp) : Prop where
  marshal_eq : ∀ v, rlp.marshal v = Rlp.encode v
  len_list : ∀ vs, (Rlp.encodeAll vs).length ≤ rlp.len (.list vs)

local instance nibbles_neZero : NeZero 17 := ⟨by decide⟩

def indexPath (i : Nat) : List Nibble :=
  [Fin.ofNat 17 (if i = 0 then 8 else i / 16), Fin.ofNat 17 (i % 16), terminator]

theorem bytesToHexNibbles_indexKey {rlp : Fastrlp} (hrlp : rlp.Standard) (hi : i < 128) :
    bytesToHexNibbles (indexKey rlp i) = indexPath i := by
  rw [indexKey, hrlp.marshal_eq]
  by_cases hzero : i = 0
  · subst hzero
    decide +kernel
  · have hbytes : Rlp.bigEndian i = [UInt8.ofNat i] := by
      rw [Rlp.bigEndian, Nat.digits_of_lt 256 i hzero (by omega)]
      rfl
    have htoNat : (UInt8.ofNat i).toNat = i := by
      rw [UInt8.toNat_ofNat']
      omega
    have hencode : Rlp.encode (.bytes [UInt8.ofNat i]) = [UInt8.ofNat i] := by
      have hsmall : UInt8.ofNat i < 128 := by
        rw [UInt8.lt_iff_toNat_lt, htoNat]
        exact hi
      rw [Rlp.encode, if_pos ⟨rfl, by simpa using hsmall⟩]
    rw [hbytes, hencode, indexPath, if_neg hzero, bytesToHexNibbles, List.flatMap_singleton, nibblesOf, htoNat]
    rfl

def keyIndex (hi lo : Nibble) : Option Nat :=
  if hi.val = 8 ∧ lo.val = 0 then some 0
  else if hi.val < 8 ∧ lo.val < 16 ∧ 0 < 16 * hi.val + lo.val then some (16 * hi.val + lo.val)
  else none

theorem keyIndex_eq_some_iff {hi lo : Nibble} (hbound : i < 128) :
    keyIndex hi lo = some i ↔ [hi, lo, terminator] = indexPath i := by
  simp only [indexPath, List.cons.injEq, Fin.ext_iff, Fin.ofNat, keyIndex]
  split_ifs <;> simp <;> omega

theorem keyIndex_lt {hi lo : Nibble} (h : keyIndex hi lo = some i) : i < 128 := by
  unfold keyIndex at h
  split_ifs at h <;> simp at h <;> omega

variable (num : Nat) (cb : Nat → Bytes)

def cell (hi lo : Nibble) : Tree :=
  match (keyIndex hi lo).filter (· < num) with
  | some i => .ext [terminator] (.leaf (cb i))
  | none => .nil

noncomputable def row (hi : Nibble) : Tree := RadixTree.collapse (cell num cb hi)

noncomputable def indexTree : Tree := RadixTree.collapse (row num cb)

theorem canonical_cell (hi lo : Nibble) : (cell num cb hi lo).Canonical 1 := by
  unfold cell
  split
  · exact ⟨nofun, nofun, nofun, 0, rfl, rfl⟩
  · trivial

theorem get_cell (hi lo t : Nibble) : (cell num cb hi lo).get [t] =
    if t = terminator then ((keyIndex hi lo).filter (· < num)).map cb else none := by
  unfold cell
  split
  · rename_i i hindex
    rw [hindex]
    by_cases ht : t = terminator
    · subst ht
      rfl
    · rw [if_neg ht]
      refine RadixTree.get_ext_of_not ?_ _
      rintro ⟨rest, hrest⟩
      exact ht (List.cons.inj hrest).1.symm
  · rename_i hindex
    rw [hindex, Option.map_none, ite_self]
    rfl

theorem canonical_indexTree : (indexTree num cb).Canonical 3 :=
  .collapse fun hi => .collapse fun lo => canonical_cell num cb hi lo

theorem get_indexTree (hi lo t : Nibble) : (indexTree num cb).get [hi, lo, t] =
    if t = terminator then ((keyIndex hi lo).filter (· < num)).map cb else none := by
  rw [indexTree, RadixTree.get_collapse, row, RadixTree.get_collapse, get_cell]

theorem indexPath_eq_cons (i : Nat) : ∃ hi lo, indexPath i = [hi, lo, terminator] := ⟨_, _, rfl⟩

theorem indexTree_zero : indexTree 0 cb = .nil := by
  have hnil : RadixTree.Canonical 3 (.nil : Tree) := trivial
  refine (canonical_indexTree 0 cb).ext_get hnil fun k hk => ?_
  obtain ⟨hi, lo, t, rfl⟩ := List.length_eq_three.mp hk
  rw [get_indexTree]
  cases keyIndex hi lo <;> simp [RadixTree.get]

theorem indexTree_succ {num : Nat} (hnum : num < 128) :
    indexTree (num + 1) cb = (indexTree num cb).put (indexPath num) (some (cb num)) := by
  have hlength : (indexPath num).length = 3 := rfl
  refine (canonical_indexTree _ cb).ext_get ((canonical_indexTree num cb).put hlength _) fun k hk => ?_
  obtain ⟨hi, lo, t, rfl⟩ := List.length_eq_three.mp hk
  rw [RadixTree.get_put (canonical_indexTree num cb) hlength _ hk, get_indexTree, get_indexTree]
  by_cases ht : t = terminator
  · subst ht
    by_cases hpath : [hi, lo, terminator] = indexPath num
    · rw [if_pos hpath, (keyIndex_eq_some_iff hnum).mpr hpath]
      simp
    · rw [if_neg hpath]
      have hindex : keyIndex hi lo ≠ some num := fun h => hpath ((keyIndex_eq_some_iff hnum).mp h)
      cases hkey : keyIndex hi lo with
      | none => rfl
      | some i =>
        have hne : i ≠ num := fun h => hindex (h ▸ hkey)
        have hlt : i < num + 1 ↔ i < num := by omega
        simp [Option.filter, hlt]
  · rw [if_neg ht, if_neg ht, if_neg]
    intro hpath
    obtain ⟨hi', lo', hcons⟩ := indexPath_eq_cons num
    rw [hcons] at hpath
    simp at hpath
    exact ht hpath.2.2

theorem terminated_indexPath (hi : i < 128) : Terminated (indexPath i) := by
  refine terminated_append_terminator (k := [_, _]) ?_
  have hhigh : (if i = 0 then 8 else i / 16) < 16 := by
    split_ifs <;> omega
  simp [terminator, Fin.ext_iff]
  omega

theorem proper_indexTree : Proper 3 (indexTree num cb) := by
  refine ⟨canonical_indexTree num cb, fun k hk hget => ?_⟩
  obtain ⟨hi, lo, t, rfl⟩ := List.length_eq_three.mp hk
  rw [get_indexTree] at hget
  split_ifs at hget with ht
  · subst ht
    cases hkey : keyIndex hi lo with
    | none => exact absurd (by rw [hkey]; rfl) hget
    | some i =>
      have hi := keyIndex_lt hkey
      rw [(keyIndex_eq_some_iff hi).mp hkey]
      exact terminated_indexPath hi
  · exact absurd rfl hget

section Rows

variable {num cb} {g first last : Nat}

variable {hi lo : Nibble}

theorem cell_of_some {i : Nat} (hkey : keyIndex hi lo = some i) (hi' : i < num) :
    cell num cb hi lo = .ext [terminator] (.leaf (cb i)) := by
  have hfilter : (some i).filter (· < num) = some i := Option.filter_some_pos (decide_eq_true hi')
  rw [cell, hkey, hfilter]

theorem cell_of_none (hkey : ∀ i, keyIndex hi lo = some i → num ≤ i) : cell num cb hi lo = .nil := by
  have hfilter : (keyIndex hi lo).filter (· < num) = none := by
    rw [Option.filter_eq_none_iff]
    exact fun i hi => by simpa using hkey i hi
  rw [cell, hfilter]

theorem keyIndex_group (hg : g < 8) (lo : Nibble) (i : Nat) :
    keyIndex (Fin.ofNat 17 g) lo = some i ↔ i = 16 * g + lo.val ∧ lo.val < 16 ∧ 0 < i := by
  have hval : (Fin.ofNat 17 g).val = g := Nat.mod_eq_of_lt (by omega)
  rw [keyIndex, if_neg (by omega)]
  split_ifs with hin
  · rw [Option.some.injEq]
    omega
  · simp only [false_iff]
    omega

theorem row_eq_nil (hcell : ∀ lo, cell num cb hi lo = .nil) : row num cb hi = .nil := by
  rw [row, RadixTree.collapse_of_one fun lo _ => hcell lo, hcell terminator]
  rfl

theorem row_eq_leaf {i : Nat} (hkey : keyIndex hi lo = some i) (hi' : i < num)
    (hother : ∀ lo', lo' ≠ lo → cell num cb hi lo' = .nil) :
    row num cb hi = .ext [lo, terminator] (.leaf (cb i)) := by
  rw [row, RadixTree.collapse_of_one hother, cell_of_some hkey hi']
  rfl

theorem row_eight (hnum : 0 < num) : row num cb 8 = .ext [0, terminator] (.leaf (cb 0)) := by
  refine row_eq_leaf rfl hnum fun lo hlo => cell_of_none fun i hkey => ?_
  have hne : lo.val ≠ 0 := fun h => hlo (Fin.ext h)
  simp [keyIndex, hne] at hkey

theorem row_high (hhi : 8 < hi.val) : row num cb hi = .nil := by
  refine row_eq_nil fun lo => cell_of_none fun i hkey => ?_
  rw [keyIndex, if_neg (by omega), if_neg (by omega)] at hkey
  exact nomatch hkey

theorem row_empty (hg : g < 8) (hnum : num ≤ 16 * g) : row num cb (Fin.ofNat 17 g) = .nil := by
  refine row_eq_nil fun lo => cell_of_none fun i hkey => ?_
  rw [keyIndex_group hg] at hkey
  omega

structure Group (num g first last : Nat) : Prop where
  lt_eight : g < 8
  first_eq : first = if g = 0 then 1 else 16 * g
  last_eq : last = min num (16 * g + 16)
  first_lt : first < last

section

variable (hgroup : Group num g first last)

include hgroup

theorem Group.le_first : 16 * g ≤ first := by
  rw [hgroup.first_eq]
  split_ifs <;> omega

theorem Group.last_le : last ≤ 16 * g + 16 := by
  rw [hgroup.last_eq]
  exact Nat.min_le_right _ _

theorem Group.cell_in (hfirst : first ≤ 16 * g + lo.val) (hlast : 16 * g + lo.val < last) :
    cell num cb (Fin.ofNat 17 g) lo = .ext [terminator] (.leaf (cb (16 * g + lo.val))) := by
  obtain ⟨hg, rfl, rfl, _⟩ := hgroup
  refine cell_of_some ((keyIndex_group hg lo _).mpr ⟨rfl, by omega, ?_⟩) (by omega)
  split_ifs at hfirst <;> omega

theorem Group.cell_out (hout : 16 * g + lo.val < first ∨ last ≤ 16 * g + lo.val) :
    cell num cb (Fin.ofNat 17 g) lo = .nil := by
  obtain ⟨hg, rfl, rfl, _⟩ := hgroup
  refine cell_of_none fun i hkey => ?_
  rw [keyIndex_group hg] at hkey
  split_ifs at hout <;> omega

theorem Group.row_single (hone : last - first = 1) :
    ∃ key, row num cb (Fin.ofNat 17 g) = .ext key (.leaf (cb first)) ∧
      encodeCompact key = if first = 1 then oneKey else zeroKey := by
  obtain ⟨hg, hfirst, hlast, hlt⟩ := id hgroup
  have hother : ∀ lo : Nibble, 16 * g + lo.val ≠ first → cell num cb (Fin.ofNat 17 g) lo = .nil := fun lo hlo =>
    hgroup.cell_out (by omega)
  have hkey : ∀ lo : Nibble, 16 * g + lo.val = first → lo.val < 16 →
      row num cb (Fin.ofNat 17 g) = .ext [lo, terminator] (.leaf (cb first)) := by
    intro lo hlo hnibble
    refine row_eq_leaf ((keyIndex_group hg lo first).mpr ⟨hlo.symm, hnibble, ?_⟩) (by omega) fun lo' hne =>
      hother lo' fun heq => hne (Fin.ext (by omega))
    split_ifs at hfirst <;> omega
  by_cases hzero : g = 0
  · rw [if_pos hzero] at hfirst
    refine ⟨_, hkey 1 (by omega) (by decide), ?_⟩
    rw [if_pos hfirst]
    decide +kernel
  · rw [if_neg hzero] at hfirst
    refine ⟨_, hkey 0 (by simp; omega) (by decide), ?_⟩
    rw [if_neg (by omega)]
    decide +kernel

theorem Group.row_branch (hmany : last - first ≠ 1) :
    row num cb (Fin.ofNat 17 g) = .branch (cell num cb (Fin.ofNat 17 g)) := by
  obtain ⟨hg, hfirst, hlast, hlt⟩ := id hgroup
  have hlow : 16 * g ≤ first := by
    split_ifs at hfirst <;> omega
  have hval : ∀ i, i < 16 → (Fin.ofNat 17 i).val = i := fun i hi => Nat.mod_eq_of_lt (by omega)
  have hcell : ∀ i, first ≤ i → i < last → cell num cb (Fin.ofNat 17 g) (Fin.ofNat 17 (i - 16 * g)) ≠ .nil := by
    intro i hfirst hlast'
    have hlo := hval (i - 16 * g) (by omega)
    rw [hgroup.cell_in (by omega) (by omega)]
    exact nofun
  refine RadixTree.collapse_of_two ⟨_, _, ?_, hcell first le_rfl (by omega), hcell (first + 1) (by omega) (by omega)⟩
  intro heq
  have hval₁ := hval (first - 16 * g) (by omega)
  have hval₂ := hval (first + 1 - 16 * g) (by omega)
  rw [heq] at hval₁
  omega

theorem Group.before_eq :
    (if first = 1 then rlpEmptyValue else []) = (List.replicate (first - 16 * g) rlpEmptyValue).flatten := by
  obtain ⟨_, hfirst, _, _⟩ := hgroup
  by_cases hzero : g = 0
  · subst hzero hfirst
    rfl
  · rw [if_neg hzero] at hfirst
    rw [if_neg (by omega), hfirst, Nat.sub_self]
    rfl

theorem Group.after_eq (buf : Bytes) :
    (if last - first < 16 then
        buf ++ (List.replicate ((if first = 1 then 15 else 16) - (last - first)) rlpEmptyValue).flatten
      else buf) ++ rlpEmptyValue =
      buf ++ (List.replicate (16 * g + 17 - last) rlpEmptyValue).flatten := by
  have hsucc : ∀ n, (List.replicate n rlpEmptyValue).flatten ++ rlpEmptyValue =
      (List.replicate (n + 1) rlpEmptyValue).flatten := by
    intro n
    rw [List.replicate_succ', List.flatten_append, List.flatten_singleton]
  have hlow := hgroup.le_first
  obtain ⟨_, hfirst, _, hlt⟩ := hgroup
  split_ifs with hshort hone
  · rw [List.append_assoc, hsucc]
    congr 4
    split_ifs at hfirst <;> omega
  · rw [List.append_assoc, hsucc]
    congr 4
    split_ifs at hfirst <;> omega
  · obtain rfl : last = 16 * g + 16 := by omega
    rw [Nat.add_sub_add_left]
    rfl

end

theorem indexTree_one : indexTree 1 cb = .ext [8, 0, terminator] (.leaf (cb 0)) := by
  have hother : ∀ hi : Nibble, hi ≠ 8 → row 1 cb hi = .nil := by
    intro hi hne
    refine row_eq_nil fun lo => cell_of_none fun i hkey => ?_
    have hne : hi.val ≠ 8 := fun h => hne (Fin.ext h)
    rw [keyIndex, if_neg (by omega)] at hkey
    split_ifs at hkey with hpos
    have := Option.some.inj hkey
    omega
  rw [indexTree, RadixTree.collapse_of_one hother, row_eight Nat.one_pos]
  rfl

theorem indexTree_eq_branch (hpos : 0 < num) (hzero : row num cb 0 ≠ .nil) :
    indexTree num cb = .branch (row num cb) := by
  refine RadixTree.collapse_of_two ⟨0, 8, by decide, hzero, ?_⟩
  rw [row_eight hpos]
  exact nofun

end Rows

def Slices (cb : Nat → Bytes) : Prop := ∀ i, (cb i).length < Rlp.maxLength

def valueAt (values : List { b : Bytes // b.length < Rlp.maxLength }) (i : Nat) : Bytes :=
  (values[i]?.map Subtype.val).getD []

theorem slices_valueAt (values : List { b : Bytes // b.length < Rlp.maxLength }) : Slices (valueAt values) := by
  intro i
  rw [valueAt]
  cases values[i]? with
  | none => exact Nat.pow_pos (by norm_num)
  | some v => exact v.property

theorem acquireFastHasher_dst (pooled : Option Idle) : (acquireFastHasher pooled).dst = [] := by
  cases pooled with
  | none => rfl
  | some f => exact f.property

section Roots

variable [Keccak] {rlp : Fastrlp}

variable {t : Tree} {dst : Bytes} {f : FastHasher}

section

variable (hrlp : rlp.Standard)

include hrlp

theorem insertAll_refines {num : Nat} (hnum : num ≤ 128) :
    ∃ root, (List.range num).foldlM
        (fun (txn : Itrie.Txn) i => txn.insert rlp indexFuel (indexKey rlp i) (cb i)) (newTrie fun _ => none).txn =
          .ok { (newTrie fun _ => none).txn with root } ∧
      Refines (.linked rlp fun _ => none) root (indexTree num cb) := by
  induction num with
  | zero => exact ⟨.nil, rfl, indexTree_zero cb ▸ .nil⟩
  | succ num ih =>
    obtain ⟨root, hrun, hrefines⟩ := ih (by omega)
    have hfuel : fuelFor root (indexPath num) ≤ indexFuel := by
      have hbool := Bool.toNat_le root.isReference
      rw [fuelFor, indexFuel]
      simp only [indexPath, List.length_cons, List.length_nil]
      omega
    obtain ⟨root', hinsert, _, hrefines'⟩ := hrefines.insert (writes_linked _ (newTrie fun _ => none).txn.epoch)
      (canonical_indexTree num cb) rfl (cb num) hfuel
    rw [← indexTree_succ cb (by omega)] at hrefines'
    refine ⟨root', ?_, hrefines'⟩
    have hnil : root'.isNil ≠ true := by
      rw [ne_eq, hrefines'.isNil_iff, indexTree_succ cb (by omega)]
      exact RadixTree.put_some_ne_nil (canonical_indexTree num cb) rfl (cb num)
    have hstep : Txn.insert rlp indexFuel { (newTrie fun _ => none).txn with root } (indexKey rlp num) (cb num) =
        .ok { (newTrie fun _ => none).txn with root := root' } := by
      rw [Txn.insert, bytesToHexNibbles_indexKey hrlp (by omega)]
      exact (congrArg (· >>= _) hinsert).trans (congrArg Except.ok (if_neg hnil))
    rw [List.range_succ, List.foldlM_append, hrun]
    exact congrArg (· >>= pure) hstep

theorem deriveSlow_eq {num : Nat} (hnum : num ≤ 128) :
    deriveSlow rlp num cb = .ok (rootOf rlp (indexTree num cb)) := by
  obtain ⟨root, hrun, hrefines⟩ := insertAll_refines cb hrlp hnum
  obtain ⟨node, written, hhash, _⟩ :=
    Txn.hash_of_refines (t := { (newTrie fun _ => none).txn with root }) hrefines (proper_indexTree num cb)
  rw [deriveSlow, hrun]
  simp only [bind, Except.bind, hhash]
  rfl

theorem nodeRef_eq {vs : List Rlp.Value} (hlong : 32 ≤ (Rlp.encodeAll vs).length) :
    nodeRef rlp (.list vs) = .bytes (nodeHash (.list vs)) := by
  rw [nodeRef, if_neg (Nat.not_lt.mpr (hlong.trans (hrlp.len_list vs))), hrlp.marshal_eq]
  rfl

theorem treeRef_leaf (key : List Nibble) {v : Bytes} (hv : Leaf v) :
    treeRef rlp (.ext key (.leaf v)) = .bytes (nodeHash (leafNode (encodeCompact key) v)) := by
  refine nodeRef_eq hrlp ?_
  rw [treeRef, encodeAll_leafNode hv, List.length_append, List.length_append]
  have hlong := hv.1
  omega

end

def edgeBytes (rlp : Fastrlp) (t : Tree) : Bytes := Rlp.encode (treeRef rlp t)

def Separate (rlp : Fastrlp) (t : Tree) : Prop := ∃ v, treeRef rlp t = .bytes (nodeHash v)

theorem edgeBytes_nil : edgeBytes rlp .nil = rlpEmptyValue := by
  rw [edgeBytes, treeRef]
  decide +kernel

theorem edgeBytes_leaf (hrlp : rlp.Standard) (key : List Nibble) {v : Bytes} (hv : Leaf v) :
    edgeBytes rlp (.ext key (.leaf v)) = rlpHashPrefix ++ nodeHash (leafNode (encodeCompact key) v) := by
  rw [edgeBytes, treeRef_leaf hrlp key hv, encode_nodeHash]

theorem Separate.length_edgeBytes (h : Separate rlp t) : (edgeBytes rlp t).length = 33 := by
  obtain ⟨v, hv⟩ := h
  rw [edgeBytes, hv, encode_nodeHash, List.length_append, nodeHash, FixedBytes.length_toBytes]
  rfl

theorem Separate.ne_nil (h : Separate rlp t) : t ≠ .nil := by
  rintro rfl
  have hlength := h.length_edgeBytes
  rw [edgeBytes_nil] at hlength
  exact absurd hlength (by decide)

theorem treeRef_branch (hrlp : rlp.Standard) {children : Nibble → Tree} {k : Nibble}
    (hk : Separate rlp (children k)) :
    treeRef rlp (.branch children) = .bytes (nodeHash (treeValue rlp (.branch children))) := by
  refine nodeRef_eq hrlp ?_
  rw [encodeAll_map, List.length_flatMap]
  have hlength : 33 ∈ (List.finRange 17).map fun k => (Rlp.encode (treeRef rlp (children k))).length :=
    List.mem_map.mpr ⟨k, List.mem_finRange k, hk.length_edgeBytes⟩
  exact (by norm_num : 32 ≤ 33).trans (List.le_sum_of_mem hlength)

theorem marshal_branch {children : Nibble → Tree} (hchildren : ∀ k, children k = .nil ∨ Separate rlp (children k))
    {buf : Bytes} (hedges : buf = (List.range' 0 17).flatMap fun i => edgeBytes rlp (children (Fin.ofNat 17 i))) :
    marshalListRlpSize [] buf.length ++ buf = Rlp.encode (treeValue rlp (.branch children)) := by
  have hedge : ∀ k, (edgeBytes rlp (children k)).length ≤ 33 := by
    intro k
    obtain hnil | hk := hchildren k
    · rw [hnil, edgeBytes_nil]
      decide
    · exact hk.length_edgeBytes.le
  have hlength : buf.length ≤ 17 * 33 := by
    rw [hedges, List.length_flatMap]
    refine (List.sum_le_card_nsmul _ 33 ?_).trans ?_
    · intro n hn
      obtain ⟨i, _, rfl⟩ := List.mem_map.mp hn
      exact hedge _
    · simp
  have hall : Rlp.encodeAll ((List.finRange 17).map fun k => treeRef rlp (children k)) = buf := hedges.symm
  rw [treeValue, Rlp.encode, hall, marshalListRlpSize_eq _ (by omega), List.nil_append]

variable {cb} {num g first last : Nat}

def leafBytes (v : Bytes) : Bytes := rlpHashPrefix ++ nodeHash (leafNode leafVal v)

section

variable (hrlp : rlp.Standard) (hgroup : Group num g first last)

include hrlp hgroup

theorem Group.cell_leaf {i : Nat} (hfirst : first ≤ i) (hlast : i < last) (hleaf : Leaf (cb i)) :
    Separate rlp (cell num cb (Fin.ofNat 17 g) (Fin.ofNat 17 (i - 16 * g))) ∧
      edgeBytes rlp (cell num cb (Fin.ofNat 17 g) (Fin.ofNat 17 (i - 16 * g))) = leafBytes (cb i) := by
  have hlow := hgroup.le_first
  have hhigh := hgroup.last_le
  have hlo : (Fin.ofNat 17 (i - 16 * g)).val = i - 16 * g := Nat.mod_eq_of_lt (by omega)
  have hindex : 16 * g + (Fin.ofNat 17 (i - 16 * g)).val = i := by omega
  rw [hgroup.cell_in (by omega) (by omega), hindex, edgeBytes_leaf hrlp _ hleaf]
  exact ⟨⟨_, treeRef_leaf hrlp _ hleaf⟩, rfl⟩

theorem Group.cell_nil_or_separate (hleaf : ∀ i ∈ List.range' first (last - first), Leaf (cb i)) (lo : Nibble) :
    cell num cb (Fin.ofNat 17 g) lo = .nil ∨ Separate rlp (cell num cb (Fin.ofNat 17 g) lo) := by
  by_cases hin : first ≤ 16 * g + lo.val ∧ 16 * g + lo.val < last
  · have hcell := hgroup.cell_leaf hrlp hin.1 hin.2 (hleaf _ (List.mem_range'_1.mpr ⟨hin.1, by omega⟩))
    rw [Nat.add_sub_cancel_left, show Fin.ofNat 17 lo.val = lo from Fin.ext (Nat.mod_eq_of_lt lo.isLt)] at hcell
    exact .inr hcell.1
  · exact .inl (hgroup.cell_out (by omega))

theorem Group.edges_eq (hleaf : ∀ i ∈ List.range' first (last - first), Leaf (cb i)) :
    ((List.range' 0 17).flatMap fun i => edgeBytes rlp (cell num cb (Fin.ofNat 17 g) (Fin.ofNat 17 i))) =
      (List.replicate (first - 16 * g) rlpEmptyValue).flatten ++
        ((List.range' first (last - first)).flatMap (fun i => leafBytes (cb i)) ++
          (List.replicate (16 * g + 17 - last) rlpEmptyValue).flatten) := by
  have hlow := hgroup.le_first
  have hhigh := hgroup.last_le
  have hlt := hgroup.first_lt
  have hsplit : List.range' 0 17 = List.range' 0 (first - 16 * g) ++
      (List.range' (first - 16 * g) (last - first) ++ List.range' (last - 16 * g) (16 * g + 17 - last)) := by
    have hmiddle : last - 16 * g = first - 16 * g + (last - first) := by omega
    have hstart := List.range'_append_1 (s := 0) (m := first - 16 * g) (n := last - first + (16 * g + 17 - last))
    rw [hmiddle, List.range'_append_1]
    rw [Nat.zero_add] at hstart
    rw [hstart]
    congr 1
    omega
  have hout : ∀ i, i < 17 → (i < first - 16 * g ∨ last - 16 * g ≤ i) →
      edgeBytes rlp (cell num cb (Fin.ofNat 17 g) (Fin.ofNat 17 i)) = rlpEmptyValue := by
    intro i hi hout
    have hlo : (Fin.ofNat 17 i).val = i := Nat.mod_eq_of_lt hi
    rw [hgroup.cell_out (by omega), edgeBytes_nil]
  have hshift : List.range' first (last - first) =
      (List.range' (first - 16 * g) (last - first)).map (16 * g + ·) := by
    rw [List.map_add_range']
    congr 1
    omega
  rw [hsplit, List.flatMap_append, List.flatMap_append, hshift, List.flatMap_map]
  rw [hshift] at hleaf
  congr 1
  · exact flatMap_range'_const fun i _ hi => hout i (by omega) (by omega)
  · congr 1
    · refine List.flatMap_congr fun i hi => ?_
      have hleaf := hleaf (16 * g + i) (List.mem_map.mpr ⟨i, hi, rfl⟩)
      rw [List.mem_range'_1] at hi
      have hcell := (hgroup.cell_leaf hrlp (i := 16 * g + i) (by omega) (by omega) hleaf).2
      rwa [Nat.add_sub_cancel_left] at hcell
    · exact flatMap_range'_const fun i hi hi' => hout i (by omega) (by omega)

end

theorem Group.deriveGroup_eq (hrlp : rlp.Standard) (hcb : Slices cb) (hgroup : Group num g first last)
    {dst' : Bytes} (h : deriveGroup num cb (dst ++ rlpHashPrefix) first last = some dst') :
    Separate rlp (row num cb (Fin.ofNat 17 g)) ∧ dst' = dst ++ edgeBytes rlp (row num cb (Fin.ofNat 17 g)) := by
  have hlt := hgroup.first_lt
  rw [deriveGroup] at h
  by_cases hone : last - first = 1
  · rw [if_pos hone] at h
    obtain ⟨v, hv, hdst⟩ := Option.map_eq_some_iff.mp h
    obtain ⟨rfl, hlong⟩ := getCb_eq_some hv
    have hleaf : Leaf (cb first) := ⟨hlong, hcb first⟩
    obtain ⟨key, hrow, hkey⟩ : ∃ key, row num cb (Fin.ofNat 17 g) = .ext key (.leaf (cb first)) ∧
      encodeCompact key = if first = 1 then oneKey else zeroKey := hgroup.row_single hone
    rw [hrow, edgeBytes_leaf hrlp key hleaf, hkey]
    refine ⟨⟨_, treeRef_leaf hrlp key hleaf⟩, ?_⟩
    rw [← hdst, encodeSingle_eq _ hleaf, List.append_assoc]
    simp only [decide_eq_true_eq]
  · rw [if_neg hone] at h
    obtain ⟨buf, hloop, hdst⟩ := Option.bind_eq_some_iff.mp h
    obtain ⟨hleaf, hbuf⟩ := foldlM_appends (g := fun i => leafBytes (cb i))
      (fun b b' i _ => appendLeaf_eq_some (hcb i)) hloop
    have hsome := hgroup.cell_leaf hrlp le_rfl hgroup.first_lt (hleaf first (List.mem_range'_1.mpr ⟨le_rfl, by omega⟩))
    have hedges := (hgroup.edges_eq hrlp hleaf).symm
    rw [← List.append_assoc, ← hgroup.before_eq, ← hbuf, ← hgroup.after_eq] at hedges
    have hnode := marshal_branch (hgroup.cell_nil_or_separate hrlp hleaf) hedges
    rw [hgroup.row_branch hone]
    refine ⟨⟨_, treeRef_branch hrlp hsome.1⟩, ?_⟩
    rw [edgeBytes, treeRef_branch hrlp hsome.1, encode_nodeHash, nodeHash, ← hnode, ← Option.some.inj hdst]
    exact List.append_assoc _ _ _

theorem appendGroups_eq (hrlp : rlp.Standard) (hcb : Slices cb) (htwo : 2 ≤ num) (hnum : num ≤ 128) {dst' : Bytes}
    (h : (List.range' 0 ((num + 15) / 16) 16).foldlM (appendGroup num cb num) dst = some dst') :
    (∀ g ∈ List.range' 0 ((num + 15) / 16), Separate rlp (row num cb (Fin.ofNat 17 g))) ∧
      dst' = dst ++ (List.range' 0 ((num + 15) / 16)).flatMap fun g =>
        edgeBytes rlp (row num cb (Fin.ofNat 17 g)) := by
  have hrange := range'_mul 16 0 ((num + 15) / 16)
  rw [hrange, List.foldlM_map] at h
  refine foldlM_appends (fun dst dst' g hg hstep => ?_) h
  rw [List.mem_range'_1] at hg
  have hgroup : Group num g (if 16 * g = 0 then 1 else 16 * g) (min num (16 * g + 16)) := by
    refine ⟨by omega, ?_, rfl, ?_⟩
    · simp only [Nat.mul_eq_zero, OfNat.ofNat_ne_zero, false_or]
    · split_ifs <;> omega
  exact hgroup.deriveGroup_eq hrlp hcb hstep

theorem rows_eq (rlp : Fastrlp) (cb : Nat → Bytes) (htwo : 2 ≤ num) (hnum : num ≤ 128) :
    ((List.range' 0 17).flatMap fun i => edgeBytes rlp (row num cb (Fin.ofNat 17 i))) =
      ((List.range' 0 ((num + 15) / 16)).flatMap fun g => edgeBytes rlp (row num cb (Fin.ofNat 17 g))) ++
        (List.replicate ((128 - num) / 16) rlpEmptyValue).flatten ++
          edgeBytes rlp (.ext [0, terminator] (.leaf (cb 0))) ++ (List.replicate 8 rlpEmptyValue).flatten := by
  have hsplit : List.range' 0 17 = List.range' 0 ((num + 15) / 16) ++
      List.range' ((num + 15) / 16) ((128 - num) / 16) ++ List.range' 8 1 ++ List.range' 9 8 := by
    have hcount : (num + 15) / 16 + (128 - num) / 16 = 8 := by omega
    have hfirst := List.range'_append_1 (s := 0) (m := (num + 15) / 16) (n := (128 - num) / 16)
    rw [Nat.zero_add] at hfirst
    rw [hfirst, hcount]
    rfl
  rw [hsplit, List.flatMap_append, List.flatMap_append, List.flatMap_append]
  congr 1
  · congr 1
    · congr 1
      refine flatMap_range'_const fun g hg hg' => ?_
      rw [row_empty (by omega) (by omega), edgeBytes_nil]
    · rw [List.range'_one, List.flatMap_singleton]
      exact congrArg (edgeBytes rlp) (row_eight (by omega))
  · refine flatMap_range'_const fun i hi hi' => ?_
    have hval : (Fin.ofNat 17 i).val = i := Nat.mod_eq_of_lt (by omega)
    rw [row_high (by omega), edgeBytes_nil]

section

variable (hrlp : rlp.Standard)

include hrlp

theorem rootOf_eq (ht : t ≠ .nil) : rootOf rlp t = nodeHash (treeValue rlp t) := by
  rw [rootOf, hrlp.marshal_eq]
  · rfl
  · exact ht

theorem encodeOneItem_eq (hcb : Slices cb) (hidle : f.dst = []) (h : (encodeOneItem 1 cb f).1 = some dst) : dst = rootOf rlp (indexTree 1 cb) := by
  rw [encodeOneItem] at h
  cases hval : getCb 1 cb 0 with
  | none =>
    rw [hval] at h
    exact nomatch h
  | some v =>
    rw [hval] at h
    obtain ⟨rfl, hlong⟩ := getCb_eq_some hval
    have hkey : Rlp.encode (.bytes [0x20, 0x80]) = singleKey := by decide +kernel
    have hcompact : encodeCompact [8, 0, terminator] = [0x20, 0x80] := by decide +kernel
    have hnode := marshal_leafNode ⟨hlong, hcb 0⟩ hkey (by decide)
    have hne : (.ext [8, 0, terminator] (.leaf (cb 0)) : Tree) ≠ .nil := nofun
    rw [← Option.some.inj h, indexTree_one, rootOf_eq hrlp hne, treeValue, hcompact]
    simp only [hidle, hnode]
    rfl

theorem row_nil_or_separate (hpos : 0 < num) (hleaf : Leaf (cb 0))
    (hgroups : ∀ g ∈ List.range' 0 ((num + 15) / 16), Separate rlp (row num cb (Fin.ofNat 17 g))) (hi : Nibble) :
    row num cb hi = .nil ∨ Separate rlp (row num cb hi) := by
  have hval : Fin.ofNat 17 hi.val = hi := Fin.ext (Nat.mod_eq_of_lt hi.isLt)
  by_cases hgroup : hi.val < (num + 15) / 16
  · exact .inr (hval ▸ hgroups hi.val (List.mem_range'_1.mpr ⟨Nat.zero_le _, by omega⟩))
  · obtain hlow | heq | hhigh := Nat.lt_trichotomy hi.val 8
    · exact .inl (hval ▸ row_empty hlow (by omega))
    · rw [show hi = 8 from Fin.ext heq, row_eight hpos]
      exact .inr ⟨_, treeRef_leaf hrlp _ hleaf⟩
    · exact .inl (row_high hhigh)

theorem hash_eq (hcb : Slices cb) (hpos : 0 < num) (hnum : num ≤ 128) (hidle : f.dst = [])
    (h : (f.hash num cb).1 = some dst) : dst = rootOf rlp (indexTree num cb) := by
  rw [FastHasher.hash] at h
  by_cases hone : num = 1
  · subst hone
    exact encodeOneItem_eq hrlp hcb hidle h
  · rw [if_neg hone] at h
    dsimp only at h
    rw [Nat.min_eq_left hnum, hidle] at h
    cases hloop : (List.range' 0 ((num + 15) / 16) 16).foldlM (appendGroup num cb num) [] with
    | none =>
      rw [hloop] at h
      exact nomatch h
    | some groups =>
      rw [hloop] at h
      cases hval : getCb num cb 0 with
      | none =>
        rw [hval] at h
        exact nomatch h
      | some v =>
        rw [hval] at h
        obtain ⟨rfl, hlong⟩ := getCb_eq_some hval
        have hleaf : Leaf (cb 0) := ⟨hlong, hcb 0⟩
        obtain ⟨hgroups, rfl⟩ := appendGroups_eq hrlp hcb (by omega) hnum hloop
        have hzero := hgroups 0 (List.mem_range'_1.mpr ⟨le_rfl, by omega⟩)
        have hrows := (rows_eq rlp cb (by omega) hnum).symm
        rw [edgeBytes_leaf hrlp _ hleaf, ← List.append_assoc _ rlpHashPrefix] at hrows
        have hnode := marshal_branch (row_nil_or_separate hrlp hpos hleaf hgroups) hrows
        rw [indexTree_eq_branch hpos hzero.ne_nil, rootOf_eq hrlp (t := .branch _) nofun, nodeHash, ← hnode,
          ← Option.some.inj h, encodeSingle_eq _ hleaf]
        rfl

end

theorem hash_zero (hvalue : cb 0 = []) : (f.hash 0 cb).1 = none := by
  have hget : getCb 0 cb 0 = none := by
    rw [getCb, hvalue]
    rfl
  simp only [FastHasher.hash, hget]
  rfl

theorem fast_root_eq_slow_root (hrlp : rlp.Standard) (values : List { b : Bytes // b.length < Rlp.maxLength })
    (hcount : values.length ≤ 128) (pooled : Option Idle) {dst : Bytes}
    (hfast : ((acquireFastHasher pooled).hash values.length (valueAt values)).1 = some dst) :
    (∃ pooled', calculateRoot rlp pooled values.length (valueAt values) = .ok (FixedBytes.ofBytes 32 dst, pooled')) ∧
      deriveSlow rlp values.length (valueAt values) = .ok dst := by
  have hpos : 0 < values.length := by
    cases values with
    | nil => exact nomatch (hash_zero rfl).symm.trans hfast
    | cons v values => exact Nat.succ_pos _
  constructor
  · rw [calculateRoot, if_neg (by omega), if_pos hcount]
    dsimp only
    rw [hfast]
    exact ⟨_, rfl⟩
  · rw [deriveSlow_eq _ hrlp hcount,
      ← hash_eq hrlp (slices_valueAt values) hpos hcount (acquireFastHasher_dst pooled) hfast]

end Roots

section Sample

theorem standard_sampleRlp : sampleRlp.Standard := by
  refine ⟨fun _ => rfl, fun vs => ?_⟩
  change (Rlp.encodeAll vs).length ≤ (Rlp.encode (.list vs)).length
  rw [Rlp.encode, List.length_append]
  omega

def sampleValues : List { b : Bytes // b.length < Rlp.maxLength } :=
  List.replicate 18 ⟨List.replicate 32 7, by decide⟩

local instance listKeccak : Keccak := rootKeccak

theorem fast_root_eq_slow_root_sampleValues :
    ∃ dst pooled', calculateRoot sampleRlp none 18 (valueAt sampleValues) = .ok (FixedBytes.ofBytes 32 dst, pooled') ∧
      deriveSlow sampleRlp 18 (valueAt sampleValues) = .ok dst := by
  have hsome : ((acquireFastHasher none).hash 18 (valueAt sampleValues)).1.isSome = true := by
    decide +kernel
  obtain ⟨dst, hfast⟩ := Option.isSome_iff_exists.mp hsome
  obtain ⟨⟨pooled', hroot⟩, hslow⟩ := fast_root_eq_slow_root standard_sampleRlp sampleValues (by decide) none hfast
  exact ⟨dst, pooled', hroot, hslow⟩

end Sample

end Nxchain
