import Nxchain.Itrie
import Nxchain.Lib.Except
import Nxchain.Lib.RadixTree
import Nxchain.Proof.Overlay

namespace Nxchain

namespace Itrie

abbrev Tree := RadixTree Nibble Bytes

structure View where
  rlp : Fastrlp
  storage : Storage
  short : Tree → Bytes → Prop
  full : Nat → Tree → Bytes → Prop
  reference : Tree → Bytes → Prop
  short_nil : ∀ t, short t []
  full_nil : ∀ epoch t, full epoch t []

def View.any (rlp : Fastrlp) (storage : Storage) : View where
  rlp := rlp
  storage := storage
  short _ _ := True
  full _ _ _ := True
  reference _ _ := True
  short_nil _ := trivial
  full_nil _ _ := trivial

inductive Refines (v : View) : Node → Tree → Prop where
  | nil : Refines v .nil .nil
  | value (buf : Bytes) : Refines v (.value false buf) (.leaf buf)
  | short {child : Node} {t : Tree} {hash : Bytes} (key : List Nibble) :
      v.short (.ext key t) hash → Refines v child t → Refines v (.short hash key child) (.ext key t)
  | full {edges : Nibble → Node} {children : Nibble → Tree} {hash : Bytes} {epoch : Nat} :
      v.full epoch (.branch children) hash → (∀ k, Refines v (edges k) (children k)) →
        Refines v (.full hash epoch edges) (.branch children)
  | reference {buf : Bytes} {node : Node} {t : Tree} :
      v.reference t buf → getNode v.rlp v.storage buf = .ok (some node) → Refines v node t →
        Refines v (.value true buf) t

variable {rlp : Fastrlp} {storage : Storage} {v : View} {node : Node} {t : Tree} {n fuel : Nat}
  {children : Nibble → Tree} {edges : Nibble → Node} {m : Hash → Option Bytes} {k : List Nibble}
  {buf hash : Bytes}

theorem decodeShort_eq_ok {key value : Rlp.Value} {child : Except (Fault String) Node}
    (h : decodeShort key value child = .ok node) :
    ∃ path child', node = .short [] path child' ∧
      (child = .ok child' ∨ ∃ b, child' = .value false b) := by
  cases key with
  | list vs => exact nomatch h
  | bytes compact =>
    obtain ⟨path, _, h⟩ := Except.bind_eq_ok_iff.mp h
    split_ifs at h
    · cases value with
      | list vs => exact nomatch h
      | bytes b => exact ⟨path, _, (Except.ok.inj h).symm, .inr ⟨b, rfl⟩⟩
    · obtain ⟨child', hchild, h⟩ := Except.bind_eq_ok_iff.mp h
      exact ⟨path, child', (Except.ok.inj h).symm, .inl hchild⟩

theorem decodeFull_eq_ok {vs : List Rlp.Value} {nodes : List (Except (Fault String) Node)}
    (h : decodeFull vs nodes = .ok node) :
    ∃ edges, node = .full [] 0 edges ∧
      ∀ k, edges k = .nil ∨ (∃ b, edges k = .value false b) ∨ .ok (edges k) ∈ nodes := by
  obtain ⟨children, hchildren, h⟩ := Except.bind_eq_ok_iff.mp h
  have hmem : ∀ child ∈ children, child = .nil ∨ .ok child ∈ nodes := by
    refine Except.forall_mem_of_mapM hchildren ?_
    rintro ⟨v, r⟩ hmem child hok
    dsimp only at hok
    split at hok
    · exact .inl (Except.ok.inj hok).symm
    · exact .inr (hok ▸ (List.of_mem_zip (List.mem_of_mem_take hmem)).2)
  split at h
  next b hb =>
      refine ⟨_, (Except.ok.inj h).symm, fun k => ?_⟩
      by_cases hk : k = terminator
      · split_ifs
        · exact .inl rfl
        · exact .inr (.inl ⟨b, rfl⟩)
      · rw [if_neg hk, List.getD_eq_getElem?_getD]
        rcases hchild : children[k.val]? with _ | child
        · exact .inl rfl
        · exact (hmem child (List.mem_of_getElem? hchild)).imp_right .inr
  next => exact nomatch h

section

variable (h : getNode rlp storage buf = .ok (some node))

include h

theorem getNode_eq_decode : ∃ vs, decodeNode (.list vs) = .ok node := by
  unfold getNode at h
  split at h
  · exact nomatch h
  · split at h
    · exact nomatch h
    · exact nomatch h
    · obtain ⟨node', hnode, heq⟩ := Except.map_eq_ok_iff.mp h
      obtain rfl := Option.some.inj heq
      exact ⟨_, hnode⟩

theorem getNode_eq_some : (∃ path child, node = .short [] path child) ∨ ∃ edges, node = .full [] 0 edges := by
  obtain ⟨vs, hnode⟩ := getNode_eq_decode h
  unfold decodeNode at hnode
  split at hnode
  · obtain ⟨path, child, hshort, _⟩ := decodeShort_eq_ok hnode
    exact .inl ⟨path, child, hshort⟩
  · split_ifs at hnode
    obtain ⟨edges, hfull, _⟩ := decodeFull_eq_ok hnode
    exact .inr ⟨edges, hfull⟩

theorem isReference_of_getNode : node.isReference = false := by
  rcases getNode_eq_some h with ⟨_, _, rfl⟩ | ⟨_, rfl⟩ <;> rfl

end

theorem panicOnError_of_ok {α : Type} {r : Except (Fault String) α} {a : α} (h : r = .ok a) :
    panicOnError r = .ok a := by
  rw [h]
  rfl

namespace Refines

theorem nil_iff : Refines v node .nil ↔ node = .nil := by
  constructor
  · intro h
    cases h with
    | nil => rfl
    | reference _ hget hrefines =>
      rcases getNode_eq_some hget with ⟨_, _, rfl⟩ | ⟨_, rfl⟩ <;> cases hrefines
  · rintro rfl
    exact .nil

theorem newShort {child : Node} (h : Refines v child t) (key : List Nibble) :
    Refines v (.short [] key child) (.ext key t) :=
  .short key (v.short_nil _) h

theorem newFull (h : ∀ k, Refines v (edges k) (children k)) (epoch : Nat) :
    Refines v (.full [] epoch edges) (.branch children) :=
  .full (v.full_nil epoch _) h

variable (h : Refines v node t)

include h

theorem isNil_iff : node.isNil = true ↔ t = .nil := by
  constructor
  · intro hnil
    cases node with
    | nil =>
      cases h
      rfl
    | value | short | full => exact nomatch hnil
  · rintro rfl
    rw [nil_iff.mp h]
    rfl

theorem mono {v' : View} (hrlp : v'.rlp = v.rlp) (hstorage : v'.storage = v.storage)
    (hshort : ∀ t hash, v.short t hash → v'.short t hash)
    (hfull : ∀ epoch t hash, v.full epoch t hash → v'.full epoch t hash)
    (hreference : ∀ t buf, v.reference t buf → v'.reference t buf) : Refines v' node t := by
  induction h with
  | nil => exact .nil
  | value buf => exact .value buf
  | short key hmemo _ ih => exact .short key (hshort _ _ hmemo) ih
  | full hmemo _ ih => exact .full (hfull _ _ _ hmemo) ih
  | reference href hget _ ih =>
    rw [← hrlp, ← hstorage] at hget
    exact .reference (hreference _ _ href) hget ih

theorem any : Refines (.any v.rlp v.storage) node t :=
  h.mono rfl rfl (fun _ _ _ => trivial) (fun _ _ _ _ => trivial) fun _ _ _ => trivial

end Refines

theorem prefixLen_spec (k₁ k₂ : List Nibble) :
    ∃ p s₁ s₂, k₁ = p ++ s₁ ∧ k₂ = p ++ s₂ ∧ prefixLen k₁ k₂ = p.length ∧
      ∀ a b r₁ r₂, s₁ = a :: r₁ → s₂ = b :: r₂ → a ≠ b := by
  fun_induction prefixLen k₁ k₂ with
  | case1 k₁ a k₂ ih =>
    obtain ⟨p, s₁, s₂, rfl, rfl, hlength, hne⟩ := ih
    exact ⟨a :: p, s₁, s₂, rfl, rfl, by rw [hlength]; rfl, hne⟩
  | case2 a k₁ b k₂ hab =>
    refine ⟨[], a :: k₁, b :: k₂, rfl, rfl, rfl, ?_⟩
    rintro _ _ _ _ ⟨rfl, rfl⟩ ⟨rfl, rfl⟩
    exact hab
  | case3 k₁ k₂ hnot =>
    refine ⟨[], k₁, k₂, rfl, rfl, rfl, ?_⟩
    intro a b r₁ r₂ h₁ h₂
    exact (hnot a r₁ b r₂ h₁ h₂).elim

theorem not_prefix_of_differ {s r : List Nibble} (hne : ∀ a b s' r', s = a :: s' → r = b :: r' → a ≠ b)
    (hr : r ≠ []) (hs : s ≠ []) (p : List Nibble) : ¬ p ++ r <+: p ++ s := by
  obtain ⟨a, s, rfl⟩ := List.exists_cons_of_ne_nil hs
  obtain ⟨b, r, rfl⟩ := List.exists_cons_of_ne_nil hr
  rw [List.prefix_append_right_inj, List.cons_prefix_cons]
  exact fun h => hne a b s r rfl rfl h.1.symm

def Terminated (k : List Nibble) : Prop :=
  ∀ p a s, k = p ++ a :: s → (a = terminator ↔ s = [])

theorem Terminated.of_append {p s : List Nibble} (h : Terminated (p ++ s)) : Terminated s := by
  rintro p' a s' rfl
  exact h (p ++ p') a s' (List.append_assoc _ _ _).symm

structure Proper (n : Nat) (t : Tree) : Prop where
  canonical : t.Canonical n
  terminated : ∀ k, k.length = n → t.get k ≠ none → Terminated k

namespace Proper

theorem child {key : List Nibble} {m : Nat} (h : Proper (key.length + m) (.ext key t)) : Proper m t := by
  obtain ⟨_, _, _, m', hm, hcanonical⟩ := h.canonical
  obtain rfl : m = m' := Nat.add_left_cancel hm
  refine ⟨hcanonical, fun k hk hget => ?_⟩
  refine (h.terminated (key ++ k) ?_ ?_).of_append
  · rw [List.length_append, hk]
  · rwa [RadixTree.get_ext_append]

section

variable (h : Proper (n + 1) (.branch children))

include h

theorem edge (k : Nibble) : Proper n (children k) := by
  obtain ⟨_, m, hm, hcanonical⟩ := h.canonical
  obtain rfl : n = m := Nat.succ.inj hm
  refine ⟨hcanonical k, fun s hs hget => ?_⟩
  exact (h.terminated (k :: s) (by rw [List.length_cons, hs]) hget).of_append (p := [k])

theorem branch_pos : 0 < n := by
  by_contra hn
  obtain rfl : n = 0 := by omega
  obtain ⟨⟨a, b, hab, ha, hb⟩, _⟩ := h.canonical
  have hlast : ∀ c, children c ≠ .nil → c = terminator := by
    intro c hc
    obtain ⟨s, hs, hget⟩ := (h.edge c).canonical.exists_get hc
    exact (h.terminated (c :: s) (by rw [List.length_cons, hs]) hget [] _ _ rfl).mpr
      (List.length_eq_zero_iff.mp hs)
  exact hab ((hlast a ha).trans (hlast b hb).symm)

theorem edge_terminator : children terminator = .nil := by
  by_contra hne
  obtain ⟨s, hs, hget⟩ := (h.edge terminator).canonical.exists_get hne
  have hnil : s = [] := (h.terminated (terminator :: s) (by rw [List.length_cons, hs]) hget [] _ _ rfl).mp rfl
  have hpos := h.branch_pos
  rw [← hs, hnil] at hpos
  exact Nat.lt_irrefl 0 hpos

end

theorem key {key : List Nibble} {m : Nat} (h : Proper (key.length + m) (.ext key t)) :
    terminator ∉ key.dropLast := by
  intro hmem
  obtain ⟨p, s, hdrop⟩ := List.append_of_mem hmem
  have hkey : key = p ++ terminator :: (s ++ [key.getLast h.canonical.1]) := by
    conv_lhs => rw [← List.dropLast_append_getLast h.canonical.1, hdrop]
    simp
  obtain ⟨k, hk, hget⟩ := h.child.canonical.exists_get h.canonical.2.1
  have hterminated := h.terminated (key ++ k) (by rw [List.length_append, hk]) (by rwa [RadixTree.get_ext_append])
  have hsplit : key ++ k = p ++ terminator :: (s ++ [key.getLast h.canonical.1] ++ k) := by
    conv_lhs => rw [hkey]
    simp
  have hnil := (hterminated _ _ _ hsplit).mp rfl
  simp at hnil

end Proper

def fuelFor (node : Node) (k : List Nibble) : Nat := 4 * k.length + 2 + node.isReference.toNat

theorem exists_fuel (h : fuelFor node k ≤ fuel) : ∃ rest, fuel = rest + 1 := by
  unfold fuelFor at h
  exact ⟨fuel - 1, by omega⟩

theorem fuelFor_drop {child : Node} {p : List Nibble} (hp : p ≠ []) (h : fuelFor node (p ++ k) ≤ fuel + 2) :
    fuelFor child k ≤ fuel := by
  have hpos := List.length_pos_iff.mpr hp
  have hbound := Bool.toNat_le child.isReference
  unfold fuelFor at h ⊢
  rw [List.length_append] at h
  omega

theorem fuelFor_loaded (hnode : node.isReference = false) (h : fuelFor (.value true buf) k ≤ fuel + 1) :
    fuelFor node k ≤ fuel := by
  unfold fuelFor at h ⊢
  rw [hnode]
  exact Nat.le_of_succ_le_succ h

theorem Refines.update (hedges : ∀ k, Refines v (edges k) (children k)) (k : Nibble) (h : Refines v node t)
    (k' : Nibble) : Refines v (Function.update edges k node k') (Function.update children k t k') := by
  by_cases hk : k' = k
  · subst hk
    rwa [Function.update_self, Function.update_self]
  · rw [Function.update_of_ne hk, Function.update_of_ne hk]
    exact hedges k'

theorem Refines.update_self {epoch : Nat} (hmemo : v.full epoch (.branch children) hash)
    (hedges : ∀ k, Refines v (edges k) (children k)) {k : Nibble} (h : Refines v node (children k)) :
    Refines v (.full hash epoch (Function.update edges k node)) (.branch children) := by
  refine .full hmemo fun k' => ?_
  have hupdate := Refines.update hedges k h k'
  rwa [Function.update_eq_self] at hupdate

theorem Refines.lookup (h : Refines v node t) (hproper : Proper n t) {key : List Nibble} (hkey : key.length = n)
    (hfuel : fuelFor node key ≤ fuel) :
    ∃ r, Itrie.lookup v.rlp v.storage fuel node key = .ok r ∧ r.value = t.get key ∧
      Refines v r.node t ∧ Refines v (r.loaded.getD r.node) t := by
  induction h generalizing n key fuel with
  | nil =>
    obtain ⟨fuel, rfl⟩ := exists_fuel hfuel
    exact ⟨_, rfl, rfl, .nil, .nil⟩
  | value buf =>
    obtain ⟨fuel, rfl⟩ := exists_fuel hfuel
    refine ⟨_, rfl, ?_, .value buf, .value buf⟩
    rw [RadixTree.get]
  | @short child t hash nkey hmemo hchild ih =>
    obtain ⟨fuel, rfl⟩ := exists_fuel hfuel
    by_cases hbegins : nkey <+: key
    · obtain ⟨rest, rfl⟩ := hbegins
      obtain ⟨hnkey, _, _, m, rfl, _⟩ := hproper.canonical
      have hrest : rest.length = m := by
        rw [List.length_append] at hkey
        omega
      have hfuel' : fuelFor child rest ≤ fuel := fuelFor_drop hnkey (hfuel.trans (Nat.le_succ _))
      obtain ⟨r, hr, hvalue, _, hloaded⟩ := ih hproper.child hrest hfuel'
      refine ⟨⟨.short hash nkey (r.loaded.getD r.node), none, r.value⟩, ?_, ?_,
        .short nkey hmemo hloaded, .short nkey hmemo hloaded⟩
      · simp only [Itrie.lookup, List.prefix_append, if_true, List.drop_left, hr]
        rfl
      · rw [hvalue, RadixTree.get_ext_append]
    · refine ⟨⟨.short hash nkey child, none, none⟩, ?_, ?_, .short nkey hmemo hchild, .short nkey hmemo hchild⟩
      · simp only [Itrie.lookup, hbegins, if_false]
      · rw [RadixTree.get_ext_of_not hbegins]
  | @full edges children hash epoch hmemo hedges ih =>
    obtain ⟨_, m, rfl, _⟩ := hproper.canonical
    obtain ⟨fuel, rfl⟩ := exists_fuel hfuel
    obtain ⟨k, key, rfl⟩ := List.exists_cons_of_length_eq_add_one hkey
    have hfuel' : fuelFor (edges k) key ≤ fuel :=
      fuelFor_drop (List.cons_ne_nil k []) (hfuel.trans (Nat.le_succ _))
    obtain ⟨r, hr, hvalue, _, hloaded⟩ := ih k (hproper.edge k) (Nat.succ.inj hkey) hfuel'
    have hterminator : ¬ (r.loaded.isSome ∧ k = terminator) := by
      rintro ⟨hsome, rfl⟩
      -- there is no value that could have been loaded
      have hnil : edges terminator = .nil := Refines.nil_iff.mp (hproper.edge_terminator ▸ hedges terminator)
      obtain ⟨fuel, rfl⟩ := exists_fuel hfuel'
      rw [hnil] at hr
      obtain rfl := Except.ok.inj hr
      cases hsome
    have hwritten := Refines.update_self hmemo hedges hloaded
    refine ⟨⟨_, none, r.value⟩, ?_, hvalue, hwritten, hwritten⟩
    simp only [Itrie.lookup, hr, bind, Except.bind, if_neg hterminator]
    rfl
  | @reference buf node t href hget hrefines ih =>
    obtain ⟨fuel, rfl⟩ := exists_fuel hfuel
    have hfuel' := fuelFor_loaded (isReference_of_getNode hget) hfuel
    obtain ⟨r, hr, hvalue, hnode, _⟩ := ih hproper hkey hfuel'
    refine ⟨⟨.value true buf, some r.node, r.value⟩, ?_, hvalue, .reference href hget hrefines, hnode⟩
    simp only [Itrie.lookup, panicOnError_of_ok hget, bind, Except.bind, hr]
    rfl

theorem Refines.under (h : Refines v node t) (ht : t.Compact) (key : List Nibble) :
    Refines v (if key = [] then node else .short [] key node) (RadixTree.extend key t) := by
  split_ifs with hkey
  · rwa [hkey]
  · rw [ht.extend hkey]
    exact h.newShort key

theorem insert_nil (v : View) (epoch : Nat) (hfuel : 2 ≤ fuel) (search : List Nibble) (value : Bytes) :
    ∃ node, Itrie.insert v.rlp v.storage epoch fuel .nil search value = .ok node ∧
      node.isReference = false ∧
      Refines v node (RadixTree.extend search (.leaf value)) := by
  obtain ⟨fuel, rfl⟩ : ∃ rest, fuel = rest + 2 := ⟨fuel - 2, by omega⟩
  cases search with
  | nil => exact ⟨_, rfl, rfl, .value value⟩
  | cons k search => exact ⟨_, rfl, rfl, (Refines.value value).newShort (k :: search)⟩

theorem insert_splitShort {child : Node} (h : Refines v child t) (ht : t.Compact) (epoch : Nat) (hfuel : 3 ≤ fuel)
    (p r s : List Nibble) {a b : Nibble} (hab : a ≠ b) (value : Bytes) :
    ∃ node, Itrie.insert v.rlp v.storage epoch fuel (splitShort epoch (p ++ b :: r) child p.length)
        (a :: s) value = .ok node ∧
      node.isReference = false ∧
      Refines v node
        (.branch (Function.update (Function.update (fun _ => .nil) b (RadixTree.extend r t)) a
          (RadixTree.extend s (.leaf value)))) := by
  obtain ⟨fuel, rfl⟩ : ∃ rest, fuel = rest + 1 := ⟨fuel - 1, by omega⟩
  obtain ⟨new, hinsert, _, hnew⟩ := insert_nil v epoch (Nat.le_of_succ_le_succ hfuel) s value
  have hedges := Refines.update (fun _ => .nil) b (h.under ht r)
  refine ⟨.full [] epoch (Function.update (Function.update (fun _ => .nil) b _) a new), ?_, rfl,
    .newFull (Refines.update hedges a hnew) epoch⟩
  simp only [splitShort, List.drop_left, Itrie.insert, Function.update_of_ne hab, hinsert, writtenHash, if_true]
  rfl

def View.Writes (v : View) (epoch : Nat) : Prop :=
  ∀ nodeEpoch t t' hash, v.full nodeEpoch t hash →
    v.full epoch t' (writtenHash epoch hash nodeEpoch)

theorem Refines.insert {epoch : Nat} (hwrites : v.Writes epoch) (h : Refines v node t) (ht : t.Canonical n)
    {search : List Nibble} (hsearch : search.length = n) (value : Bytes) (hfuel : fuelFor node search ≤ fuel) :
    ∃ node', Itrie.insert v.rlp v.storage epoch fuel node search value = .ok node' ∧
      node'.isReference = false ∧ Refines v node' (t.put search (some value)) := by
  induction h generalizing n search fuel with
  | nil =>
    have htwo : 2 ≤ fuel := by
      unfold fuelFor at hfuel
      omega
    rw [RadixTree.put_nil_some]
    exact insert_nil v epoch htwo search value
  | value buf =>
    obtain rfl : n = 0 := ht
    obtain rfl := List.length_eq_zero_iff.mp hsearch
    obtain ⟨fuel, rfl⟩ := exists_fuel hfuel
    exact ⟨_, rfl, rfl, .value value⟩
  | @short child t hash key hmemo hchild ih =>
    obtain ⟨fuel, rfl⟩ := exists_fuel hfuel
    obtain ⟨p, s, r, rfl, rfl, hlength, hne⟩ := prefixLen_spec search key
    obtain ⟨hkey, hnil, hnot, m, rfl, hm⟩ := ht
    have hshort := RadixTree.Compact.extend ⟨hnil, hnot⟩ hkey
    cases r with
    | nil =>
      -- the key is the beginning of the path
      rw [List.append_nil] at hkey hfuel hsearch hlength hshort ⊢
      have hs : s.length = m := by
        rw [List.length_append] at hsearch
        omega
      have hfuel' : fuelFor child s ≤ fuel := fuelFor_drop hkey (hfuel.trans (Nat.le_succ _))
      obtain ⟨node', hinsert, _, hrefines⟩ := ih hm hs hfuel'
      refine ⟨.short [] p node', ?_, rfl, ?_⟩
      · simp only [Itrie.insert, hlength, if_true, List.drop_left, hinsert]
        rfl
      · rw [← hshort, hm.put_extend, (hm.compact_put ⟨hnil, hnot⟩ hs value).extend hkey]
        exact hrefines.newShort p
    | cons b r =>
      obtain ⟨a, s, rfl⟩ : ∃ a s', s = a :: s' := by
        apply List.exists_cons_of_length_pos
        simp only [List.length_append, List.length_cons] at hsearch
        omega
      have hab : a ≠ b := hne a b s r rfl rfl
      have hthree : 3 ≤ fuel := by
        unfold fuelFor at hfuel
        simp only [List.length_append, List.length_cons] at hfuel
        omega
      obtain ⟨node', hinsert, hnode', hrefines⟩ :=
        insert_splitShort hchild ⟨hnil, hnot⟩ epoch hthree p r s hab value
      have hplen : p.length ≠ (p ++ b :: r).length := by
        rw [List.length_append, List.length_cons]
        omega
      refine ⟨if p = [] then node' else .short [] p node', ?_, ?_, ?_⟩
      · simp only [Itrie.insert, hlength, if_neg hplen, List.drop_left, List.take_left, hinsert,
          List.length_eq_zero_iff]
        rfl
      · split_ifs
        · exact hnode'
        · rfl
      · rw [← hshort, hm.put_split hnil p r s hab value]
        exact hrefines.under (RadixTree.compact_branch _) p
  | @full edges children hash nodeEpoch hmemo hedges ih =>
    obtain ⟨m, rfl, hm⟩ := ht.2
    obtain ⟨fuel, rfl⟩ := exists_fuel hfuel
    obtain ⟨k, search, rfl⟩ := List.exists_cons_of_length_eq_add_one hsearch
    have hfuel' : fuelFor (edges k) search ≤ fuel :=
      fuelFor_drop (List.cons_ne_nil k []) (hfuel.trans (Nat.le_succ _))
    obtain ⟨child, hinsert, _, hrefines⟩ := ih k (hm k) (Nat.succ.inj hsearch) hfuel'
    refine ⟨.full (writtenHash epoch hash nodeEpoch) epoch (Function.update edges k child), ?_, rfl, ?_⟩
    · simp only [Itrie.insert, hinsert]
      rfl
    · rw [RadixTree.put_branch ht (Nat.succ.inj hsearch)]
      exact .full (hwrites _ _ _ _ hmemo) (Refines.update hedges k hrefines)
  | @reference buf node t href hget hrefines ih =>
    obtain ⟨fuel, rfl⟩ := exists_fuel hfuel
    have hfuel' := fuelFor_loaded (isReference_of_getNode hget) hfuel
    obtain ⟨node', hinsert, hnot, hrefines'⟩ := ih ht hsearch hfuel'
    refine ⟨node', ?_, hnot, hrefines'⟩
    simp only [Itrie.insert, panicOnError_of_ok hget, bind, Except.bind, hinsert]

theorem mergeShort_refines (h : Refines v node t) (hnot : node.isReference = false) {key : List Nibble}
    (hkey : key ≠ []) :
    Refines v (mergeShort key node) (RadixTree.extend key t) ∧
      (mergeShort key node).isReference = false := by
  cases h with
  | nil =>
    rw [RadixTree.extend_nil]
    exact ⟨.nil, rfl⟩
  | value buf =>
    rw [(RadixTree.compact_leaf buf).extend hkey]
    exact ⟨(Refines.value buf).newShort key, rfl⟩
  | short key' _ hchild =>
    rw [RadixTree.extend_ext]
    exact ⟨hchild.newShort (key ++ key'), rfl⟩
  | full hmemo hedges =>
    rw [(RadixTree.compact_branch _).extend hkey]
    exact ⟨(Refines.full hmemo hedges).newShort key, rfl⟩
  | reference => exact nomatch hnot

theorem lastChild_refines (h : Refines v node t) (hne : t ≠ .nil) (indx : Fin 16) :
    ∃ node', lastChild v.rlp v.storage indx node = .ok (some node') ∧ node'.isReference = false ∧
      Refines v node' (RadixTree.extend [indx.castSucc] t) := by
  obtain ⟨nc, hload, hnot, hnc⟩ : ∃ nc,
      lastChild v.rlp v.storage indx node = .ok (some (mergeShort [indx.castSucc] nc)) ∧
        nc.isReference = false ∧ Refines v nc t := by
    cases h with
    | nil => exact absurd rfl hne
    | value buf => exact ⟨_, rfl, rfl, .value buf⟩
    | short key hmemo hchild => exact ⟨_, rfl, rfl, .short key hmemo hchild⟩
    | full hmemo hedges => exact ⟨_, rfl, rfl, .full hmemo hedges⟩
    | reference _ hget hrefines =>
      refine ⟨_, ?_, isReference_of_getNode hget, hrefines⟩
      simp only [lastChild, panicOnError_of_ok hget]
      rcases getNode_eq_some hget with ⟨_, _, rfl⟩ | ⟨_, rfl⟩ <;> rfl
  obtain ⟨hrefines, hreference⟩ := mergeShort_refines hnc hnot (List.cons_ne_nil indx.castSucc [])
  exact ⟨_, hload, hreference, hrefines⟩

theorem mem_remaining (h : ∀ k, Refines v (edges k) (children k)) {i : Fin 16} :
    i ∈ remaining edges ↔ children i.castSucc ≠ .nil := by
  rw [remaining, List.mem_filter, ne_eq, ← (h i.castSucc).isNil_iff]
  simp [List.mem_finRange]

theorem castSucc_of_ne_terminator {k : Nibble} (hk : k ≠ terminator) : ∃ i : Fin 16, k = i.castSucc := by
  refine ⟨⟨k.val, ?_⟩, rfl⟩
  have : k.val ≠ 16 := fun h => hk (Fin.ext h)
  omega

theorem collapseFull_refines (h : ∀ k, Refines v (edges k) (children k)) (hvalue : children terminator = .nil) :
    ∃ node, collapseFull v.rlp v.storage edges = .ok (some node) ∧ node.isReference = false ∧
      Refines v node (RadixTree.collapse children) := by
  have hnil : (edges terminator).isNil = true := (h terminator).isNil_iff.mpr hvalue
  have hchild : ∀ k, children k ≠ .nil → ∃ i ∈ remaining edges, k = i.castSucc := by
    intro k hk
    have hterminator : k ≠ terminator := by
      rintro rfl
      exact hk hvalue
    obtain ⟨i, rfl⟩ := castSucc_of_ne_terminator hterminator
    exact ⟨i, (mem_remaining h).mpr hk, rfl⟩
  unfold collapseFull
  cases hremaining : remaining edges with
  | nil =>
    rw [hremaining] at hchild
    have hempty : ∀ k, children k = .nil := by
      intro k
      by_contra hk
      obtain ⟨i, hi, _⟩ := hchild k hk
      exact nomatch hi
    refine ⟨.nil, ?_, rfl, ?_⟩
    · simp only [hnil, if_true]
    · rw [RadixTree.collapse_of_one (a := terminator) fun k _ => hempty k, hvalue,
        RadixTree.extend_nil]
      exact .nil
  | cons i rest =>
    have hi : children i.castSucc ≠ .nil := (mem_remaining h).mp (by simp [hremaining])
    cases rest with
    | nil =>
      have hone : ∀ k, k ≠ i.castSucc → children k = .nil := by
        intro k hne
        by_contra hk
        obtain ⟨j, hj, rfl⟩ := hchild k hk
        rw [hremaining, List.mem_singleton] at hj
        exact hne (congrArg Fin.castSucc hj)
      obtain ⟨node, hlast, hnot, hrefines⟩ := lastChild_refines (h i.castSucc) hi i
      refine ⟨node, ?_, hnot, ?_⟩
      · simp only [hnil, if_true, hlast]
      · rwa [RadixTree.collapse_of_one hone]
    | cons j rest =>
      have hj : children j.castSucc ≠ .nil := (mem_remaining h).mp (by simp [hremaining])
      have hij : i ≠ j := by
        have hnodup : (remaining edges).Nodup := (List.nodup_finRange 16).filter _
        rw [hremaining] at hnodup
        simp only [List.nodup_cons, List.mem_cons, not_or] at hnodup
        exact hnodup.1.1
      refine ⟨.full [] 0 edges, rfl, rfl, ?_⟩
      rw [RadixTree.collapse_of_two
        ⟨i.castSucc, j.castSucc, fun heq => hij (Fin.castSucc_injective 16 heq), hi, hj⟩]
      exact .newFull h 0

structure Deletes (v : View) (t : Tree) (search : List Nibble)
    (r : DeleteResult) : Prop where
  node : Refines v r.node t
  found : r.result.isSome = true ↔ t.get search ≠ none
  result : ∀ node', r.result = some node' →
    node'.isReference = false ∧ Refines v node' (t.put search none)

section Short

variable {child : Node} {p r s : List Nibble} {m : Nat}

theorem deletes_short_end (hchild : Refines v child t)
    (ht : RadixTree.Canonical ((p ++ r).length + m) (.ext (p ++ r) t)) (hsearch : (p ++ r).length + m ≤ p.length) :
    Deletes v (.ext (p ++ r) t) p ⟨.short [] (p ++ r) child, some .nil⟩ := by
  rw [List.length_append] at hsearch
  obtain rfl : r = [] := List.length_eq_zero_iff.mp (by omega)
  rw [List.append_nil] at ht ⊢
  obtain ⟨hkey, hnil, hnot, m, hm, hcanonical⟩ := ht
  obtain rfl : m = 0 := by omega
  obtain rfl | ⟨v, rfl⟩ := hcanonical.of_zero
  · exact absurd rfl hnil
  have hvalue := RadixTree.get_ext_append p [] (.leaf v : Tree)
  have hput := hcanonical.put_extend p [] none
  rw [List.append_nil] at hvalue hput
  refine ⟨hchild.newShort p, ?_, ?_⟩
  · exact iff_of_true rfl (by rw [hvalue]; exact nofun)
  · rintro _ ⟨rfl⟩
    rw [← (RadixTree.compact_leaf v).extend hkey, hput, RadixTree.put, RadixTree.extend_nil]
    exact ⟨rfl, .nil⟩

theorem deletes_short_child (ht : RadixTree.Canonical ((p ++ r).length + m) (.ext (p ++ r) t))
    (hsearch : (p ++ r).length + m ≤ (p ++ s).length) (hp : p ≠ []) (hbegins : r ≠ [] → ¬ p ++ r <+: p ++ s)
    {d : DeleteResult} (h : Deletes v t s d) :
    Deletes v (.ext (p ++ r) t) (p ++ s)
      ⟨.short [] (p ++ r) d.node, d.result.map (mergeShort (p ++ r))⟩ := by
  obtain ⟨hkey, hnil, hnot, m', hm', hm⟩ := ht
  -- if the key goes on, the path is too long for the child
  have hlong : r ≠ [] → t.get s = none := by
    intro hr
    have := List.length_pos_iff.mpr hr
    simp only [List.length_append] at hsearch
    exact hm.get_of_length_ne (by omega)
  refine ⟨h.node.newShort _, ?_, ?_⟩
  · rw [Option.isSome_map, h.found]
    by_cases hr : r = []
    · rw [hr, List.append_nil, RadixTree.get_ext_append]
    · rw [hlong hr, RadixTree.get_ext_of_not (hbegins hr)]
  · intro node' hmap
    obtain ⟨new, hnew, rfl⟩ := Option.map_eq_some_iff.mp hmap
    obtain ⟨hreference, hrefines⟩ := h.result new hnew
    obtain rfl : r = [] := by
      by_contra hr
      exact h.found.mp (by rw [hnew]; rfl) (hlong hr)
    rw [List.append_nil] at hkey ⊢
    obtain ⟨hmerged, hnotref⟩ := mergeShort_refines hrefines hreference hp
    rw [← RadixTree.Compact.extend ⟨hnil, hnot⟩ hkey, hm.put_extend]
    exact ⟨hnotref, hmerged⟩

end Short

theorem Refines.delete (h : Refines v node t) (hproper : Proper n t) {search : List Nibble}
    (hsearch : n ≤ search.length) (hfuel : fuelFor node search ≤ fuel) :
    ∃ r, Itrie.delete v.rlp v.storage fuel node search = .ok r ∧ Deletes v t search r := by
  induction h generalizing n search fuel with
  | nil =>
    obtain ⟨fuel, rfl⟩ := exists_fuel hfuel
    exact ⟨_, rfl, .nil, by simp [RadixTree.get], by rintro _ ⟨⟩⟩
  | value buf =>
    obtain ⟨fuel, rfl⟩ := exists_fuel hfuel
    refine ⟨_, rfl, .value buf, ?_, ?_⟩
    · by_cases hnil : search = [] <;> simp [RadixTree.get, hnil]
    · intro node' hresult
      by_cases hnil : search = []
      · subst hnil
        obtain rfl := Option.some.inj hresult
        exact ⟨rfl, .nil⟩
      · simp [hnil] at hresult
  | @short child t hash key hmemo hchild ih =>
    obtain ⟨fuel, rfl⟩ := exists_fuel hfuel
    obtain ⟨hkey, _, _, m, rfl, _⟩ := hproper.canonical
    obtain ⟨p, s, r, rfl, rfl, hlength, hne⟩ := prefixLen_spec search key
    by_cases hs : s = []
    · subst hs
      rw [List.append_nil] at hlength hsearch ⊢
      refine ⟨_, ?_, deletes_short_end hchild hproper.canonical hsearch⟩
      simp only [Itrie.delete, hlength, if_true]
      rfl
    have hplen : p.length ≠ (p ++ s).length := by
      have := List.length_pos_iff.mpr hs
      rw [List.length_append]
      omega
    have hbegins := fun hr : r ≠ [] => not_prefix_of_differ hne hr hs p
    by_cases hp : p = []
    · have hr : r ≠ [] := by rwa [hp] at hkey
      refine ⟨⟨.short [] _ child, none⟩, ?_, hchild.newShort _, ?_, by rintro _ ⟨⟩⟩
      · simp only [Itrie.delete, hlength, if_neg hplen, List.length_eq_zero_iff, if_pos hp]
        rfl
      · rw [RadixTree.get_ext_of_not (hbegins hr)]
        exact iff_of_false Bool.false_ne_true (not_not.mpr rfl)
    have hfuel' : fuelFor child s ≤ fuel := fuelFor_drop hp (hfuel.trans (Nat.le_succ _))
    have hchildSearch : m ≤ s.length := by
      simp only [List.length_append] at hsearch
      omega
    obtain ⟨d, hd, hdeletes⟩ := ih hproper.child hchildSearch hfuel'
    refine ⟨_, ?_, deletes_short_child hproper.canonical hsearch hp hbegins hdeletes⟩
    simp only [Itrie.delete, hlength, if_neg hplen, List.length_eq_zero_iff, if_neg hp, List.drop_left, hd]
    rfl
  | @full edges children hash epoch hmemo hedges ih =>
    obtain ⟨_, m, rfl, _⟩ := hproper.canonical
    obtain ⟨fuel, rfl⟩ := exists_fuel hfuel
    obtain ⟨k, search, rfl⟩ := List.exists_cons_of_length_pos (Nat.lt_of_lt_of_le (Nat.succ_pos m) hsearch)
    have hfuel' : fuelFor (edges k) search ≤ fuel :=
      fuelFor_drop (List.cons_ne_nil k []) (hfuel.trans (Nat.le_succ _))
    obtain ⟨r, hr, hnode, hfound, hresult⟩ := ih k (hproper.edge k) (Nat.le_of_succ_le_succ hsearch) hfuel'
    have hleft := Refines.update_self hmemo hedges hnode
    cases hcase : r.result with
    | none =>
      rw [hcase] at hfound
      refine ⟨⟨_, none⟩, ?_, hleft, hfound, by rintro _ ⟨⟩⟩
      simp only [Itrie.delete, hr, bind, Except.bind, hcase]
      rfl
    | some newChild =>
      obtain ⟨_, hnew⟩ := hresult newChild hcase
      have hget : (children k).get search ≠ none := hfound.mp (by rw [hcase]; rfl)
      have hk : k ≠ terminator := by
        rintro rfl
        rw [hproper.edge_terminator] at hget
        exact hget rfl
      have hvalue : Function.update children k ((children k).put search none) terminator = .nil := by
        rw [Function.update_of_ne hk.symm]
        exact hproper.edge_terminator
      obtain ⟨node', hcollapse, hnot, hrefines⟩ := collapseFull_refines (Refines.update hedges k hnew) hvalue
      refine ⟨⟨_, some node'⟩, ?_, hleft, iff_of_true rfl hget, ?_⟩
      · simp only [Itrie.delete, hr, bind, Except.bind, hcase, hcollapse]
        rfl
      · rintro _ ⟨rfl⟩
        exact ⟨hnot, hrefines⟩
  | @reference buf node t href hget hrefines ih =>
    obtain ⟨fuel, rfl⟩ := exists_fuel hfuel
    have hfuel' := fuelFor_loaded (isReference_of_getNode hget) hfuel
    obtain ⟨r, hr, _, hfound, hresult⟩ := ih hproper hsearch hfuel'
    refine ⟨⟨.value true buf, r.result⟩, ?_, .reference href hget hrefines, hfound, hresult⟩
    simp only [Itrie.delete, panicOnError_of_ok hget, bind, Except.bind, hr]
    rfl

def path (key : Hash) : List Nibble := bytesToHexNibbles key.toBytes

theorem length_flatMap_nibblesOf (b : Bytes) : (b.flatMap nibblesOf).length = 2 * b.length := by
  induction b with
  | nil => rfl
  | cons x b ih =>
    rw [List.flatMap_cons, List.length_append, List.length_cons]
    simp only [nibblesOf, List.length_cons, List.length_nil]
    omega

@[simp]
theorem length_path (key : Hash) : (path key).length = 65 := by
  rw [path, bytesToHexNibbles, List.length_append, length_flatMap_nibblesOf, key.length_toBytes]
  rfl

theorem nibblesOf_injective : Function.Injective nibblesOf := by
  intro x y h
  simp only [nibblesOf, List.cons.injEq, Fin.ext_iff, Fin.val_ofNat] at h
  have hx := x.toNat_lt
  have hy := y.toNat_lt
  apply UInt8.toNat_inj.mp
  omega

theorem path_injective : Function.Injective path := by
  intro key key' h
  have hnibbles := List.append_cancel_right h
  apply FixedBytes.ext
  revert hnibbles
  generalize key.toBytes = b, key'.toBytes = b'
  intro hnibbles
  induction b generalizing b' with
  | nil =>
    cases b' with
    | nil => rfl
    | cons y b' => exact nomatch hnibbles
  | cons x b ih =>
    cases b' with
    | nil => exact nomatch hnibbles
    | cons y b' =>
      obtain ⟨hhead, htail⟩ := List.append_inj hnibbles rfl
      rw [nibblesOf_injective hhead, ih b' htail]

theorem terminator_notMem_nibbles (b : Bytes) : terminator ∉ b.flatMap nibblesOf := by
  intro h
  obtain ⟨x, _, hmem⟩ := List.mem_flatMap.mp h
  have hx := x.toNat_lt
  simp only [nibblesOf, List.mem_cons, List.not_mem_nil, or_false, terminator, Fin.ext_iff, Fin.val_ofNat] at hmem
  omega

theorem terminated_append_terminator (h : terminator ∉ k) : Terminated (k ++ [terminator]) := by
  intro p a s heq
  constructor
  · rintro rfl
    obtain rfl | ⟨s, b, rfl⟩ := List.eq_nil_or_concat s
    · rfl
    · have happend : k ++ [terminator] = (p ++ terminator :: s) ++ [b] := by
        rw [heq]
        simp
      have hk := List.append_inj_left' happend rfl
      exact absurd (by simp [hk]) h
  · rintro rfl
    exact (List.cons.inj (List.append_inj_right' heq rfl)).1.symm

theorem terminated_path (key : Hash) : Terminated (path key) :=
  terminated_append_terminator (terminator_notMem_nibbles key.toBytes)

inductive Op where
  | insert (key : Hash) (value : Bytes)
  | delete (key : Hash)

namespace Op

def run (rlp : Fastrlp) (fuel : Nat) (t : Txn) : Op → Except (Fault String) Txn
  | insert key value => t.insert rlp fuel key.toBytes value
  | delete key => t.delete rlp fuel key.toBytes

def write (m : Hash → Option Bytes) : Op → Hash → Option Bytes
  | insert key value => Function.update m key (some value)
  | delete key => Function.update m key none

end Op

def content (ops : List Op) : Hash → Option Bytes := ops.foldl Op.write fun _ => none

def pathFuel : Nat := 4 * 65 + 3

inductive Replaced (rlp : Fastrlp) (storage : Storage) : Node → Node → Prop where
  | same (node : Node) : Replaced rlp storage node node
  | short {child child' : Node} (hash hash' : Bytes) (key : List Nibble) :
      Replaced rlp storage child' child →
        Replaced rlp storage (.short hash' key child') (.short hash key child)
  | full {edges edges' : Nibble → Node} (hash hash' : Bytes) (epoch epoch' : Nat) :
      (∀ k, Replaced rlp storage (edges' k) (edges k)) →
        Replaced rlp storage (.full hash' epoch' edges') (.full hash epoch edges)
  | reference {buf : Bytes} {node node' : Node} :
      getNode rlp storage buf = .ok (some node') → Replaced rlp storage node' node →
        Replaced rlp storage (.value true buf) node

inductive Built (rlp : Fastrlp) (storage : Storage) : List Op → Node → Prop where
  | empty : Built rlp storage [] .nil
  | run {ops : List Op} {t t' : Txn} {op : Op} {fuel : Nat} :
      Built rlp storage ops t.root → t.storage = storage → pathFuel ≤ fuel →
        op.run rlp fuel t = .ok t' → Built rlp storage (ops ++ [op]) t'.root
  | replaced {ops : List Op} {node node' : Node} :
      Built rlp storage ops node → Replaced rlp storage node' node → Built rlp storage ops node'

theorem Replaced.refines {node' : Node} (h : Replaced rlp storage node' node)
    (hrefines : Refines (.any rlp storage) node t) : Refines (.any rlp storage) node' t := by
  induction h generalizing t with
  | same => exact hrefines
  | short hash hash' key _ ih =>
    cases hrefines with
    | short _ _ hchild => exact .short key trivial (ih hchild)
  | full hash hash' epoch epoch' _ ih =>
    cases hrefines with
    | full _ hedges => exact .full trivial fun k => ih k (hedges k)
  | reference hget _ ih => exact .reference trivial hget (ih hrefines)

def Holds (v : View) (node : Node) (m : Hash → Option Bytes) : Prop :=
  ∃ t, Refines v node t ∧ Proper 65 t ∧ ∀ key, t.get (path key) = m key

theorem Proper.put (h : Proper n t) (hk : k.length = n) (hterminated : Terminated k) (o : Option Bytes) :
    Proper n (t.put k o) := by
  refine ⟨h.canonical.put hk o, fun k' hk' hget => ?_⟩
  rw [RadixTree.get_put h.canonical hk o hk'] at hget
  split_ifs at hget with heq
  · exact heq ▸ hterminated
  · exact h.terminated k' hk' hget

theorem get_put_path (h : Proper 65 t) (hm : ∀ key, t.get (path key) = m key) (key : Hash) (o : Option Bytes)
    (key' : Hash) : (t.put (path key) o).get (path key') = Function.update m key o key' := by
  rw [RadixTree.get_put h.canonical (length_path key) o (length_path key'), Function.update_apply]
  simp only [path_injective.eq_iff, hm]

theorem fuelFor_path (node : Node) (key : Hash) : fuelFor node (path key) ≤ pathFuel := by
  have := Bool.toNat_le node.isReference
  rw [fuelFor, length_path, pathFuel]
  omega

theorem Holds.insert {t : Txn} (hwrites : v.Writes t.epoch) (hstorage : t.storage = v.storage)
    (h : Holds v t.root m) (key : Hash) (value : Bytes) (hfuel : pathFuel ≤ fuel) :
    ∃ root, t.insert v.rlp fuel key.toBytes value = .ok { t with root := root } ∧
      Holds v root (Function.update m key (some value)) := by
  obtain ⟨tree, hrefines, hproper, hm⟩ := h
  obtain ⟨root, hinsert, _, hroot⟩ := hrefines.insert hwrites hproper.canonical
    (length_path key) value ((fuelFor_path t.root key).trans hfuel)
  have hnil : root.isNil = false := by
    rw [← Bool.not_eq_true, hroot.isNil_iff]
    exact RadixTree.put_some_ne_nil hproper.canonical (length_path key) value
  refine ⟨root, ?_, _, hroot, hproper.put (length_path key) (terminated_path key) _, get_put_path hproper hm key _⟩
  change (Itrie.insert v.rlp t.storage t.epoch fuel t.root (path key) value >>= _) = _
  rw [hstorage, hinsert]
  simp [bind, Except.bind, hnil, pure, Except.pure]

theorem Holds.delete {t : Txn} (hstorage : t.storage = v.storage) (h : Holds v t.root m) (key : Hash)
    (hfuel : pathFuel ≤ fuel) :
    ∃ root, t.delete v.rlp fuel key.toBytes = .ok { t with root := root } ∧
      Holds v root (Function.update m key none) := by
  obtain ⟨tree, hrefines, hproper, hm⟩ := h
  obtain ⟨r, hdelete, hnode, hfound, hresult⟩ := hrefines.delete hproper (length_path key).ge
    ((fuelFor_path t.root key).trans hfuel)
  refine ⟨r.result.getD r.node, ?_, ?_⟩
  · change (Itrie.delete v.rlp t.storage fuel t.root (path key) >>= _) = _
    rw [hstorage, hdelete]
    rfl
  · cases hcase : r.result with
    | none =>
      have hnone : m key = none := by
        rw [← hm, ← not_ne_iff, ← hfound, hcase]
        exact nofun
      refine ⟨tree, hnode, hproper, fun key' => ?_⟩
      rw [← hnone, Function.update_eq_self, hm]
    | some root =>
      exact ⟨_, (hresult root hcase).2, hproper.put (length_path key) (terminated_path key) _,
        get_put_path hproper hm key _⟩

theorem Holds.lookup {t : Txn} (hstorage : t.storage = v.storage) (h : Holds v t.root m) (key : Hash)
    (hfuel : pathFuel ≤ fuel) :
    ∃ root, t.lookup v.rlp fuel key.toBytes = .ok (m key, { t with root := root }) ∧
      Holds v root m := by
  obtain ⟨tree, hrefines, hproper, hm⟩ := h
  obtain ⟨r, hlookup, hvalue, hroot, _⟩ :=
    hrefines.lookup hproper (length_path key) ((fuelFor_path t.root key).trans hfuel)
  refine ⟨r.node, ?_, tree, hroot, hproper, hm⟩
  rw [← hm, ← hvalue]
  change (Itrie.lookup v.rlp t.storage fuel t.root (path key) >>= _) = _
  rw [hstorage, hlookup]
  rfl

theorem Holds.run {t : Txn} (hwrites : v.Writes t.epoch) (hstorage : t.storage = v.storage) (h : Holds v t.root m)
    (op : Op) (hfuel : pathFuel ≤ fuel) :
    ∃ root, op.run v.rlp fuel t = .ok { t with root := root } ∧ Holds v root (op.write m) := by
  cases op with
  | insert key value => exact h.insert hwrites hstorage key value hfuel
  | delete key => exact h.delete hstorage key hfuel

theorem Holds.runAll {t : Txn} (hwrites : v.Writes t.epoch) (hstorage : t.storage = v.storage)
    (h : Holds v t.root m) (hfuel : pathFuel ≤ fuel) (ops : List Op) :
    ∃ root, ops.foldlM (Op.run v.rlp fuel) t = .ok { t with root := root } ∧
      Holds v root (ops.foldl Op.write m) := by
  induction ops generalizing t m with
  | nil => exact ⟨t.root, rfl, h⟩
  | cons op ops ih =>
    obtain ⟨root, hop, hholds⟩ := h.run hwrites hstorage op hfuel
    obtain ⟨root', hops, hholds'⟩ := ih (t := { t with root := root }) hwrites hstorage hholds
    refine ⟨root', ?_, hholds'⟩
    rw [List.foldlM_cons, hop]
    exact hops

theorem Txn.lookup_of_refines {t : Txn} {tree : Tree} (h : Refines v t.root tree) (hproper : Proper 65 tree)
    (hstorage : t.storage = v.storage) (hfuel : pathFuel ≤ fuel) (key : Hash) :
    ∃ t', t.lookup v.rlp fuel key.toBytes = .ok (tree.get (path key), t') := by
  obtain ⟨root, hlookup, _⟩ := Holds.lookup hstorage ⟨tree, h, hproper, fun _ => rfl⟩ key hfuel
  exact ⟨_, hlookup⟩

theorem writes_any (rlp : Fastrlp) (storage : Storage) (epoch : Nat) :
    (View.any rlp storage).Writes epoch := fun _ _ _ _ _ => trivial

theorem holds_nil (v : View) : Holds v .nil (content []) :=
  ⟨.nil, .nil, ⟨trivial, fun _ _ h => absurd rfl h⟩, fun _ => rfl⟩

theorem Built.holds {ops : List Op} (h : Built rlp storage ops node) :
    Holds (.any rlp storage) node (content ops) := by
  induction h with
  | empty => exact holds_nil _
  | @run ops t t' op fuel _ hstorage hfuel hrun ih =>
    obtain ⟨root, hrun', hholds⟩ := ih.run (writes_any rlp storage t.epoch) hstorage op hfuel
    obtain rfl := Except.ok.inj (hrun.symm.trans hrun')
    rwa [content, List.foldl_append]
  | replaced _ hreplaced ih =>
    obtain ⟨t, hrefines, hrest⟩ := ih
    exact ⟨t, hreplaced.refines hrefines, hrest⟩

theorem trie_is_finite_map {built : List Op} {t : Txn} (hbuilt : Built rlp t.storage built t.root) {fuel : Nat}
    (hfuel : pathFuel ≤ fuel) (ops : List Op) :
    ∃ t', ops.foldlM (Op.run rlp fuel) t = .ok t' ∧
      ∀ key : Hash, ∃ t'', t'.lookup rlp fuel key.toBytes = .ok (content (built ++ ops) key, t'') := by
  obtain ⟨root, hops, tree, hrefines, hproper, hm⟩ :=
    hbuilt.holds.runAll (writes_any rlp t.storage t.epoch) rfl hfuel ops
  refine ⟨_, hops, fun key => ?_⟩
  rw [content, List.foldl_append, ← content, ← hm]
  exact Txn.lookup_of_refines (t := { t with root := root }) hrefines hproper rfl hfuel key

def sampleRlp : Fastrlp :=
  { Rlp.standard with
    len := fun
      | .bytes b => b.length
      | .list vs => (Rlp.encode (.list vs)).length
    len_bytes := fun _ => rfl }

def leafStorage : Storage := fun key =>
  if key = [1] then
    some (Rlp.encode (.list [.bytes (encodeCompact (path zeroHash)), .bytes [7]]))
  else none

def leafTxn : Txn where
  root := .value true [1]
  epoch := 1
  storage := leafStorage
  batch := none

set_option maxRecDepth 4000 in
theorem built_leafTxn : Built sampleRlp leafStorage [.insert zeroHash [7]] leafTxn.root := by
  have hrun : Op.run sampleRlp pathFuel ((newTrie leafStorage).txn) (.insert zeroHash [7]) =
      .ok { (newTrie leafStorage).txn with root := .short [] (path zeroHash) (.value false [7]) } := rfl
  have hbuilt : Built sampleRlp leafStorage ([] ++ [.insert zeroHash [7]]) _ := .run .empty rfl le_rfl hrun
  exact .replaced hbuilt (.reference rfl (.same _))

theorem trie_is_finite_map_leafTxn :
    ∃ t', [Op.insert (word 1) [8], .delete zeroHash].foldlM (Op.run sampleRlp pathFuel) leafTxn
        = .ok t' ∧
      ∀ key : Hash, ∃ t'', t'.lookup sampleRlp pathFuel key.toBytes =
        .ok (content ([.insert zeroHash [7]] ++ [.insert (word 1) [8], .delete zeroHash]) key, t'') :=
  trie_is_finite_map built_leafTxn le_rfl _

end Itrie

end Nxchain
