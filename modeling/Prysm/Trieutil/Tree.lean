import Prysm.Trieutil.Proof

/-!
# The tree a trie computes, and the balanced tree of its comments

The comment of `generateEmptyNodes` describes "a balanced trie" in which "empty nodes serve as
padding along the way". In a balanced tree of height `H` over `N` leaves, leaf `k` is the
`k`-th leaf for `k < N` and the empty leaf `E_0` past them, and every inner node hashes its
two children; a subtree holding no leaf then has root `E_h = parentHash(E_{h-1}, E_{h-1})` at
height `h`. That tree is `Prysm.Trieutil.balancedNode`.

What the code computes is `Prysm.Trieutil.trieNode`: the same tree, except that a subtree
holding no leaf is the single node `E_0` at **every** height, since every entry of
`generateEmptyNodes` is `parentHash(zero, zero)`. Each level of a generated trie lists the
nodes of that height which hold a leaf, and its padding node is the next one
(`Prysm.Trieutil.getElem?_level`, `Prysm.Trieutil.getElem?_pad_level`), so the root is node
`0` of the top height (`Prysm.Trieutil.root_eq_trieNode`), whatever the number of items.

The two trees differ as soon as a level above the leaves is odd: one item over three levels
already has `E_0` where the balanced tree has `E_1` (`Prysm.Trieutil.root_one_item`).

`MerkleProof(i)` lists, bottom up, the node of the trie's tree next to each ancestor of leaf `i`
(`Prysm.Trieutil.merkleProof_eq_trieNode`): the padded levels hold exactly those nodes. Where
the items nearly fill the trie, that is the Merkle branch of the balanced tree
(`Prysm.Trieutil.merkleProof_eq_balancedNode`).
-/

namespace Prysm.Trieutil

variable (hash : Bytes → Bytes32)

/-- The root `E_h` of an all-empty subtree of height `h` of a balanced tree whose empty leaf is
`parentHash(zero, zero)`. -/
def emptyRoot : Nat → Bytes32
  | 0 => emptyNode hash
  | h + 1 => parentHash hash (emptyRoot h) (emptyRoot h)

/-- Node `j` at height `h` of the balanced tree over `leaves`: leaf `k` is `leaves[k]`, or the
empty leaf past them, and every inner node hashes its two children. -/
def balancedNode (leaves : List Bytes32) : Nat → Nat → Bytes32
  | 0, k => leaves.getD k (emptyNode hash)
  | h + 1, j => parentHash hash (balancedNode leaves h (2 * j)) (balancedNode leaves h (2 * j + 1))

/-- Node `j` at height `h` of the tree a trie computes over `leaves`: as in the balanced tree,
except that a subtree holding no leaf is the padding node `parentHash(zero, zero)` at every
height. -/
def trieNode (leaves : List Bytes32) : Nat → Nat → Bytes32
  | 0, k => leaves.getD k (emptyNode hash)
  | h + 1, j =>
    if leaves.length ≤ j * 2 ^ (h + 1) then emptyNode hash
    else parentHash hash (trieNode leaves h (2 * j)) (trieNode leaves h (2 * j + 1))

variable {hash} {leaves : List Bytes32}

/-! ### The two trees -/

/-- The children of node `j` at height `h + 1` start at leaf `2j · 2^h = j · 2^(h+1)`. -/
theorem two_mul_mul_two_pow (j h : Nat) : 2 * j * 2 ^ h = j * 2 ^ (h + 1) := by
  rw [Nat.pow_succ, Nat.mul_comm 2 j, Nat.mul_assoc, Nat.mul_comm 2]

theorem two_mul_add_one_mul_two_pow (j h : Nat) :
    (2 * j + 1) * 2 ^ h = j * 2 ^ (h + 1) + 2 ^ h := by
  rw [Nat.add_mul, two_mul_mul_two_pow, Nat.one_mul]

/-- A subtree of the trie holding no leaf is the padding node. -/
theorem trieNode_of_le : ∀ {h j : Nat}, leaves.length ≤ j * 2 ^ h →
    trieNode hash leaves h j = emptyNode hash
  | 0, j, hj => by
    simp [trieNode, List.getD_eq_getElem?_getD, List.getElem?_eq_none (by simpa using hj)]
  | h + 1, j, hj => if_pos hj

/-- A leaf of the trie's tree is the hash of its item. -/
theorem trieNode_zero_of_lt {items : List Bytes} {k : Nat} (hk : k < items.length) :
    trieNode hash (items.map hash) 0 k = hash items[k] := by
  simp [trieNode, List.getD_eq_getElem?_getD, hk]

theorem trieNode_succ_of_lt {h j : Nat} (hj : j * 2 ^ (h + 1) < leaves.length) :
    trieNode hash leaves (h + 1) j =
      parentHash hash (trieNode hash leaves h (2 * j)) (trieNode hash leaves h (2 * j + 1)) :=
  if_neg (by omega)

/-- **A node reads only the leaves below it**: those past its subtree can be cut. -/
theorem trieNode_take {k : Nat} : ∀ (h j : Nat), (j + 1) * 2 ^ h ≤ k →
    trieNode hash (leaves.take k) h j = trieNode hash leaves h j
  | 0, j, hj => by
    simp only [trieNode, List.getD_eq_getElem?_getD, List.getElem?_take_of_lt (by omega : j < k)]
  | h + 1, j, hj => by
    have hpos : 0 < 2 ^ h := Nat.two_pow_pos h
    have hpow : 2 ^ (h + 1) = 2 ^ h * 2 := Nat.pow_succ 2 h
    rw [Nat.add_one_mul] at hj
    by_cases hlen : leaves.length ≤ j * 2 ^ (h + 1)
    · rw [trieNode_of_le hlen, trieNode_of_le (by rw [List.length_take]; omega)]
    · rw [trieNode_succ_of_lt (by rw [List.length_take]; omega), trieNode_succ_of_lt (by omega),
        trieNode_take h (2 * j) (by rw [Nat.add_one_mul, two_mul_mul_two_pow]; omega),
        trieNode_take h (2 * j + 1) (by rw [Nat.add_one_mul, two_mul_add_one_mul_two_pow]; omega)]

/-- A subtree of the balanced tree holding no leaf is the empty root of its height. -/
theorem balancedNode_of_le : ∀ {h j : Nat}, leaves.length ≤ j * 2 ^ h →
    balancedNode hash leaves h j = emptyRoot hash h
  | 0, j, hj => by
    simp [balancedNode, emptyRoot, List.getD_eq_getElem?_getD,
      List.getElem?_eq_none (by simpa using hj)]
  | h + 1, j, hj => by
    have hl : leaves.length ≤ 2 * j * 2 ^ h := by rw [two_mul_mul_two_pow]; exact hj
    have hr : leaves.length ≤ (2 * j + 1) * 2 ^ h := by
      rw [two_mul_add_one_mul_two_pow]; exact le_trans hj (Nat.le_add_right _ _)
    rw [balancedNode, balancedNode_of_le hl, balancedNode_of_le hr, emptyRoot]

/-! ### The levels of a trie are the trie's tree -/

/-- Node `j` of level `h` holds a leaf exactly when it is within the level. -/
theorem lt_length_level_iff {e : Bytes32} (hne : leaves ≠ []) {h j : Nat} :
    j < (level hash e leaves h).length ↔ j * 2 ^ h < leaves.length := by
  have hpos := List.length_pos.mpr hne
  rw [length_level hne, Nat.lt_succ_iff, Nat.le_div_iff_mul_le (Nat.two_pow_pos h)]
  omega

/-- If a level lists the nodes of its height that hold a leaf, its padded version lists the
padding node next. -/
theorem getElem?_pad_of_level (hne : leaves ≠ []) {h : Nat}
    (hlevel : ∀ j, j * 2 ^ h < leaves.length →
      (level hash (emptyNode hash) leaves h)[j]? = some (trieNode hash leaves h j))
    {j : Nat} (hj : j < (pad (emptyNode hash) (level hash (emptyNode hash) leaves h)).length) :
    (pad (emptyNode hash) (level hash (emptyNode hash) leaves h))[j]? =
      some (trieNode hash leaves h j) := by
  by_cases hin : j < (level hash (emptyNode hash) leaves h).length
  · rw [getElem?_pad_of_lt hin, hlevel j ((lt_length_level_iff hne).mp hin)]
  · -- the one node past an odd level is its padding node
    have hodd : (level hash (emptyNode hash) leaves h).length % 2 = 1 := by
      rw [length_pad] at hj
      omega
    have hjeq : j = (level hash (emptyNode hash) leaves h).length := by
      rw [length_pad] at hj
      omega
    subst hjeq
    rw [getElem?_pad_length hodd, trieNode_of_le]
    exact Nat.le_of_not_lt fun hlt => hin ((lt_length_level_iff hne).mpr hlt)

/-- **Each level lists the nodes of its height that hold a leaf.** -/
theorem getElem?_level (hne : leaves ≠ []) : ∀ (h j : Nat), j * 2 ^ h < leaves.length →
    (level hash (emptyNode hash) leaves h)[j]? = some (trieNode hash leaves h j)
  | 0, j, hj => by
    simp [trieNode, List.getD_eq_getElem?_getD, List.getElem?_eq_getElem (by simpa using hj)]
  | h + 1, j, hj => by
    have hlen :
        2 * j + 1 < (pad (emptyNode hash) (level hash (emptyNode hash) leaves h)).length := by
      have : j < (level hash (emptyNode hash) leaves (h + 1)).length :=
        (lt_length_level_iff hne).mpr hj
      rw [level_succ, length_hashPairs] at this
      omega
    rw [level_succ, getElem?_hashPairs (getElem?_pad_of_level hne (getElem?_level hne h) (by omega))
      (getElem?_pad_of_level hne (getElem?_level hne h) hlen), trieNode_succ_of_lt hj]

/-- The padded level `h` lists the nodes of its height that hold a leaf, then one padding
node if they are odd in number. -/
theorem getElem?_pad_level (hne : leaves ≠ []) {h j : Nat}
    (hj : j < (pad (emptyNode hash) (level hash (emptyNode hash) leaves h)).length) :
    (pad (emptyNode hash) (level hash (emptyNode hash) leaves h))[j]? =
      some (trieNode hash leaves h j) :=
  getElem?_pad_of_level hne (getElem?_level hne h) hj

/-! ### The root -/

theorem root_trie_eq_trieNode {items : List Bytes} (hne : items ≠ []) (n : Nat) :
    (trie hash items n).root = some (trieNode hash (items.map hash) n 0) := by
  rw [root_trie, getElem?_level (by simpa using hne) n 0 (by simpa using List.length_pos.mpr hne)]

/-- **The root of a generated trie** is node `0` of the top height of the tree in which every
subtree holding no item is the single node `parentHash(zero, zero)`; items past the capacity
`2 ^ (depth - 1)` do not reach it: cut to the capacity, they give the same node. -/
theorem root_eq_trieNode (items : List Bytes) (depth : Int) (hne : items ≠ []) (hd : 0 ≤ depth) :
    ∃ m, generateTrieFromItems hash items depth = some (.ok m) ∧
      m.root = some (trieNode hash (items.map hash) (depth - 1).toNat 0) ∧
      m.root = some (trieNode hash ((items.take (2 ^ (depth - 1).toNat)).map hash)
        (depth - 1).toNat 0) := by
  refine ⟨_, generateTrieFromItems_eq hne hd, root_trie_eq_trieNode hne _, ?_⟩
  rw [root_trie_eq_trieNode hne, List.map_take,
    trieNode_take _ 0 (by rw [Nat.zero_add, Nat.one_mul])]

theorem root_eq_trieNode_three_items : ∃ m,
    generateTrieFromItems sampleHash [[1], [2], [3]] 3 = some (.ok m) ∧
      m.root =
        some (trieNode sampleHash ([[1], [2], [3]].map sampleHash) ((3 : Int) - 1).toNat 0) ∧
      m.root = some (trieNode sampleHash
        (([[1], [2], [3]].take (2 ^ ((3 : Int) - 1).toNat)).map sampleHash)
        ((3 : Int) - 1).toNat 0) :=
  @root_eq_trieNode sampleHash [[1], [2], [3]] 3 (by decide) (by decide)

/-- What the trie and the balanced tree over the one item `a`, at depth `3`, hand to `Hash`:
the item, the padding leaf `0^64`, and the children of the item's parent, of `E_1` and of the
two roots. -/
def oneItemInputs (hash : Bytes → Bytes32) (a : Bytes) : List Bytes :=
  [a, Bytes32.zero.toBytes ++ Bytes32.zero.toBytes,
    (hash a).toBytes ++ (emptyRoot hash 0).toBytes,
    (emptyRoot hash 0).toBytes ++ (emptyRoot hash 0).toBytes,
    (parentHash hash (hash a) (emptyRoot hash 0)).toBytes ++ (emptyRoot hash 0).toBytes,
    (parentHash hash (hash a) (emptyRoot hash 0)).toBytes ++ (emptyRoot hash 1).toBytes]

/-- **One item over three levels**: the trie's root has the padding node `E_0` as its right
child, where the balanced tree has the empty root `E_1`; so the two roots differ for every hash
collision-free on what the two trees hash that does not hash `0^64` to the zero value. -/
theorem root_one_item (hash : Bytes → Bytes32) (a : Bytes) (he : emptyNode hash ≠ Bytes32.zero)
    (hcf : ∀ x ∈ oneItemInputs hash a, ∀ y ∈ oneItemInputs hash a, hash x = hash y → x = y) :
    ∃ m, generateTrieFromItems hash [a] 3 = some (.ok m) ∧
      m.root = some (parentHash hash (parentHash hash (hash a) (emptyRoot hash 0))
        (emptyRoot hash 0)) ∧
      balancedNode hash [hash a] 2 0 =
        parentHash hash (parentHash hash (hash a) (emptyRoot hash 0)) (emptyRoot hash 1) ∧
      m.root ≠ some (balancedNode hash [hash a] 2 0) := by
  have hroot : (trie hash [a] ((3 : Int) - 1).toNat).root =
      some (parentHash hash (parentHash hash (hash a) (emptyRoot hash 0)) (emptyRoot hash 0)) := by
    rw [root_trie_eq_trieNode (List.cons_ne_nil a [])]
    simp [trieNode, emptyRoot]
  -- `E_0 ≠ E_1`, since `E_0` is not the zero value; so the right children of the roots differ
  have hE : emptyRoot hash 0 ≠ emptyRoot hash 1 := fun h =>
    he (Bytes32.append_inj (hcf _ (by simp [oneItemInputs]) _ (by simp [oneItemInputs]) h)).1.symm
  have hright : parentHash hash (parentHash hash (hash a) (emptyRoot hash 0)) (emptyRoot hash 0) ≠
      parentHash hash (parentHash hash (hash a) (emptyRoot hash 0)) (emptyRoot hash 1) := fun h =>
    hE (Bytes32.append_inj (hcf _ (by simp [oneItemInputs]) _ (by simp [oneItemInputs]) h)).2
  refine ⟨_, generateTrieFromItems_eq (List.cons_ne_nil a []) (by decide), hroot, rfl, ?_⟩
  rw [hroot]
  exact fun h => hright (Option.some.inj h)

set_option maxRecDepth 1024 in
/-- The item `[1]` under `Prysm.sampleHash`. -/
theorem root_one_item_sample : ∃ m, generateTrieFromItems sampleHash [[1]] 3 = some (.ok m) ∧
      m.root = some (parentHash sampleHash (parentHash sampleHash (sampleHash [1])
        (emptyRoot sampleHash 0)) (emptyRoot sampleHash 0)) ∧
      balancedNode sampleHash [sampleHash [1]] 2 0 = parentHash sampleHash
        (parentHash sampleHash (sampleHash [1]) (emptyRoot sampleHash 0)) (emptyRoot sampleHash 1) ∧
      m.root ≠ some (balancedNode sampleHash [sampleHash [1]] 2 0) :=
  root_one_item sampleHash [1] (by decide) (by decide)

/-- Where no level above the leaves is odd, the two trees are the same. -/
theorem trieNode_eq_balancedNode {n : Nat} (hfull : 2 ^ n ≤ leaves.length + 1) :
    ∀ h j, (j + 1) * 2 ^ h ≤ 2 ^ n → trieNode hash leaves h j = balancedNode hash leaves h j
  | 0, _, _ => rfl
  | h + 1, j, hj => by
    have htwo : 2 ≤ 2 ^ (h + 1) := Nat.le_self_pow (Nat.succ_ne_zero h) 2
    rw [Nat.add_one_mul] at hj
    rw [trieNode_succ_of_lt (by omega), balancedNode,
      trieNode_eq_balancedNode hfull h (2 * j)
        (by rw [Nat.add_one_mul, two_mul_mul_two_pow]; omega),
      trieNode_eq_balancedNode hfull h (2 * j + 1)
        (by rw [Nat.add_one_mul, two_mul_add_one_mul_two_pow]; omega)]

/-- **The balanced root, where the items nearly fill the trie**: with at least
`2 ^ (depth - 1) - 1` items, `Root()` is the root of the balanced tree. -/
theorem root_eq_balancedNode (items : List Bytes) (depth : Int) (hd : 0 ≤ depth)
    (hfull : 2 ^ (depth - 1).toNat ≤ items.length + 1) (hne : items ≠ []) :
    ∃ m, generateTrieFromItems hash items depth = some (.ok m) ∧
      m.root = some (balancedNode hash (items.map hash) (depth - 1).toNat 0) := by
  refine ⟨_, generateTrieFromItems_eq hne hd, ?_⟩
  rw [root_trie_eq_trieNode hne, trieNode_eq_balancedNode (by simpa using hfull) _ 0 (by simp)]

theorem root_eq_balancedNode_three_items : ∃ m,
    generateTrieFromItems sampleHash [[1], [2], [3]] 3 = some (.ok m) ∧
      m.root =
        some (balancedNode sampleHash ([[1], [2], [3]].map sampleHash) ((3 : Int) - 1).toNat 0) :=
  @root_eq_balancedNode sampleHash [[1], [2], [3]] 3 (by decide) (by decide) (by decide)

/-! ### The proof -/

/-- The proof of node `idx` of height `j` lists, bottom up, the neighbour of each of its ancestors
in the trie's tree. -/
theorem siblings_eq_trieNode (hne : leaves ≠ []) :
    ∀ (n j idx : Nat), idx * 2 ^ j < leaves.length → siblings hash (emptyNode hash) leaves j idx n =
      (List.range n).map fun h => trieNode hash leaves (j + h) ((idx / 2 ^ h) ^^^ 1)
  | 0, _, _, _ => rfl
  | n + 1, j, idx, hidx => by
    have hlt : idx < (pad (emptyNode hash) (level hash (emptyNode hash) leaves j)).length := by
      have : idx < (level hash (emptyNode hash) leaves j).length :=
        (lt_length_level_iff hne).mpr hidx
      rw [length_pad]
      omega
    have hhalf : idx / 2 * 2 ^ (j + 1) < leaves.length := by
      calc idx / 2 * 2 ^ (j + 1) = idx / 2 * 2 * 2 ^ j := by rw [Nat.pow_succ', Nat.mul_assoc]
        _ ≤ idx * 2 ^ j := Nat.mul_le_mul_right _ (Nat.div_mul_le_self idx 2)
        _ < leaves.length := hidx
    rw [siblings, List.getD_eq_getElem?_getD,
      getElem?_pad_level hne (xor_one_lt hlt length_pad_mod_two), Option.getD_some,
      siblings_eq_trieNode hne n (j + 1) (idx / 2) hhalf, List.range_succ_eq_map, List.map_cons,
      List.map_map]
    congr 1
    · simp
    · refine List.map_congr_left fun h _ => ?_
      simp only [Function.comp, Nat.div_div_eq_div_mul, ← Nat.pow_succ', Nat.add_assoc,
        Nat.add_comm 1 h]

/-- The proof of a stored item, on the trie of `n` rounds. -/
theorem merkleProof_trie_eq_trieNode {items : List Bytes} {n i : Nat} (hi : i < items.length)
    (hleaf : hash items[i] ≠ Bytes32.zero) :
    (trie hash items n).merkleProof i = some (.ok ((List.range n).map fun h =>
      trieNode hash (items.map hash) h ((i / 2 ^ h) ^^^ 1))) := by
  have hne : items.map hash ≠ [] := List.ne_nil_of_length_pos (by simp; omega)
  rw [merkleProof_trie_of_lt hi hleaf, siblings_eq_trieNode hne _ 0 i (by simpa using hi)]
  simp

/-- **What `MerkleProof` hands out**: on a trie of any depth `≥ 0` holding its items, the proof of
an item whose leaf is not the zero value lists, bottom up, the neighbour of each ancestor of its
leaf in the tree the trie computes. -/
theorem merkleProof_eq_trieNode (items : List Bytes) (depth : Int) (i : Nat) (hd : 0 ≤ depth)
    (hi : i < items.length) (hleaf : hash items[i] ≠ Bytes32.zero) :
    ∃ m, generateTrieFromItems hash items depth = some (.ok m) ∧
      m.merkleProof i = some (.ok ((List.range (depth - 1).toNat).map fun h =>
        trieNode hash (items.map hash) h ((i / 2 ^ h) ^^^ 1))) :=
  ⟨_, generateTrieFromItems_eq (List.ne_nil_of_length_pos (by omega)) hd,
    merkleProof_trie_eq_trieNode hi hleaf⟩

theorem merkleProof_eq_trieNode_third_of_three : ∃ m,
    generateTrieFromItems sampleHash [[1], [2], [3]] 3 = some (.ok m) ∧
      m.merkleProof (2 : Nat) = some (.ok ((List.range ((3 : Int) - 1).toNat).map fun h =>
        trieNode sampleHash ([[1], [2], [3]].map sampleHash) h ((2 / 2 ^ h) ^^^ 1))) :=
  @merkleProof_eq_trieNode sampleHash [[1], [2], [3]] 3 2 (by decide) (by decide) (by decide)

/-- **The balanced branch, where the items nearly fill the trie**: with between
`2 ^ (depth - 1) - 1` and `2 ^ (depth - 1)` items, the proof of an item whose leaf is not the
zero value is the Merkle branch of its leaf in the balanced tree. -/
theorem merkleProof_eq_balancedNode (items : List Bytes) (depth : Int) (i : Nat) (hd : 0 ≤ depth)
    (hfull : 2 ^ (depth - 1).toNat ≤ items.length + 1)
    (hcap : items.length ≤ 2 ^ (depth - 1).toNat) (hi : i < items.length)
    (hleaf : hash items[i] ≠ Bytes32.zero) :
    ∃ m, generateTrieFromItems hash items depth = some (.ok m) ∧
      m.merkleProof i = some (.ok ((List.range (depth - 1).toNat).map fun h =>
        balancedNode hash (items.map hash) h ((i / 2 ^ h) ^^^ 1))) := by
  refine ⟨_, generateTrieFromItems_eq (List.ne_nil_of_length_pos (by omega)) hd, ?_⟩
  rw [merkleProof_trie_eq_trieNode hi hleaf]
  refine congrArg (some ∘ Except.ok) (List.map_congr_left fun h hh => ?_)
  -- the neighbour of an ancestor is a node of the tree below the root
  have hh : h < (depth - 1).toNat := List.mem_range.1 hh
  have hpow : 2 ^ (depth - 1).toNat = 2 ^ ((depth - 1).toNat - h) * 2 ^ h := by
    rw [← Nat.pow_add, Nat.sub_add_cancel hh.le]
  have hanc : i / 2 ^ h < 2 ^ ((depth - 1).toNat - h) :=
    (Nat.div_lt_iff_lt_mul (Nat.two_pow_pos h)).2 (by omega)
  have hsib := xor_one_lt hanc (Nat.two_pow_mod_two_eq_zero.2 (Nat.sub_pos_of_lt hh))
  rw [trieNode_eq_balancedNode (by rwa [List.length_map]) h _
    (by rw [hpow]; exact Nat.mul_le_mul_right _ hsib)]

theorem merkleProof_eq_balancedNode_third_of_three : ∃ m,
    generateTrieFromItems sampleHash [[1], [2], [3]] 3 = some (.ok m) ∧
      m.merkleProof (2 : Nat) = some (.ok ((List.range ((3 : Int) - 1).toNat).map fun h =>
        balancedNode sampleHash ([[1], [2], [3]].map sampleHash) h ((2 / 2 ^ h) ^^^ 1))) :=
  @merkleProof_eq_balancedNode sampleHash [[1], [2], [3]] 3 2 (by decide) (by decide) (by decide)
    (by decide) (by decide)

end Prysm.Trieutil
