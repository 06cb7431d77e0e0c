import Prysm.Trieutil.Layers

/-!
# Proofs of membership: what `MerkleProof` reads and why `VerifyMerkleProof` accepts it

On a generated trie `MerkleProof(i)` either refuses the index, exactly when the guard of the
source says so, or returns `Prysm.Trieutil.siblings`: for each level below the top, the node
next to the ancestor of leaf `i` in that level, padded
(`Prysm.Trieutil.merkleProof_trie`). No read of the second loop is ever out of range: the
ancestor of an index of the stored leaf layer stays inside every padded level, and so does
its neighbour, since a padded level has even length.

`VerifyMerkleProof` folds a leaf with such a list. One step of the fold is one level of the
trie (`Prysm.Trieutil.climb_step`): the node and its sibling, in the order the parity of the
index says, hash to their parent. The whole fold climbs to the ancestor at the top
(`Prysm.Trieutil.climb_siblings`), which is the root when the items fit under it; that is
**completeness** (`Prysm.Trieutil.merkleProof_complete`). The climb may as well start at the
padding node of a level (`Prysm.Trieutil.climb_siblings_pad`), which `MerkleProof` also answers.

Go's `int` indices enter through three casts: `BranchIndices` halves a natural index as the
natural numbers do, `%` of a natural index is its parity, and `^ 1` on it is the `Nat`
exclusive or, which moves to the other node of the same pair (`Prysm.Trieutil.xor_one_eq`).
-/

namespace Prysm.Trieutil

/-! ### Indices as natural numbers -/

/-- `k ^ 1` is the other node of the pair `k` belongs to. -/
theorem xor_one_eq (k : Nat) : k ^^^ 1 = if k % 2 = 0 then k + 1 else k - 1 := by
  have hdiv : (k ^^^ 1) / 2 = k / 2 := by rw [Nat.xor_div_two]; simp
  have hmod : (k ^^^ 1) % 2 = 1 ↔ k % 2 = 0 := by rw [Nat.xor_mod_two_eq_one]; omega
  split <;> omega

/-- The neighbour of an index of an even layer is in that layer. -/
theorem xor_one_lt {k len : Nat} (hk : k < len) (heven : len % 2 = 0) : k ^^^ 1 < len := by
  rw [xor_one_eq]
  split <;> omega

theorem halvings_natCast_succ (idx n : Nat) :
    halvings (idx : Int) (n + 1) = (idx : Int) :: halvings ((idx / 2 : Nat) : Int) n := rfl

theorem tmod_two_natCast_eq_zero (idx : Nat) : (idx : Int).tmod 2 = 0 ↔ idx % 2 = 0 := by
  show ((idx % 2 : Nat) : Int) = 0 ↔ _
  omega

theorem xor_one_natCast (k : Nat) : Int.xor (k : Int) 1 = ((k ^^^ 1 : Nat) : Int) := rfl

theorem dropLast_halvings :
    ∀ (idx : Int) (n : Nat), (halvings idx (n + 1)).dropLast = halvings idx n
  | _, 0 => rfl
  | idx, n + 1 => by
    show (idx :: halvings (idx.tdiv 2) (n + 1)).dropLast = _
    rw [List.dropLast_cons_of_ne_nil (by simp [halvings]), dropLast_halvings]
    rfl

@[simp] theorem climb_cons (node sib : Bytes32) (idx : Int) (idxs : List Int)
    (sibs : List Bytes32) (hash : Bytes → Bytes32) :
    climb hash node (idx :: idxs) (sib :: sibs) =
      climb hash (if idx.tmod 2 = 0 then parentHash hash node sib else parentHash hash sib node)
        idxs sibs := rfl

/-! ### The honest proof -/

variable (hash : Bytes → Bytes32)

/-- The leaf layer as a trie of `n` rounds stores it: padded when a round hashed it. -/
def storedLeaves (e : Bytes32) (n : Nat) (leaves : List Bytes32) : List Bytes32 :=
  if n = 0 then leaves else pad e leaves

/-- The proof of node `idx` of level `j`, over `n` levels: in each, the neighbour of the
ancestor in the padded level. -/
def siblings (e : Bytes32) (leaves : List Bytes32) : Nat → Nat → Nat → List Bytes32
  | _, _, 0 => []
  | j, idx, n + 1 =>
    (pad e (level hash e leaves j)).getD (idx ^^^ 1) Bytes32.zero ::
      siblings e leaves (j + 1) (idx / 2) n

theorem length_siblings (e : Bytes32) (leaves : List Bytes32) :
    ∀ j idx n, (siblings hash e leaves j idx n).length = n
  | _, _, 0 => rfl
  | j, idx, n + 1 => by simp [siblings, length_siblings e leaves (j + 1) (idx / 2) n]

variable {hash} {e : Bytes32}

theorem getElem?_stack_zero (n : Nat) (layer : List Bytes32) :
    (stack hash e n layer)[0]? = some (storedLeaves e n layer) := by
  cases n <;> simp [stack, storedLeaves]

theorem length_storedLeaves_le (n : Nat) (layer : List Bytes32) :
    (storedLeaves e n layer).length ≤ (pad e layer).length := by
  unfold storedLeaves
  split
  · rw [length_pad]; omega
  · exact le_rfl

/-- **One level of the climb**: a node of a padded level and its neighbour there, hashed in the
order the parity of the index says, are the parent in the level above. -/
theorem climb_step {layer : List Bytes32} {idx : Nat} {node : Bytes32}
    (hnode : (pad e layer)[idx]? = some node) :
    (hashPairs hash (pad e layer))[idx / 2]? = some
      (if idx % 2 = 0 then parentHash hash node ((pad e layer).getD (idx ^^^ 1) Bytes32.zero)
       else parentHash hash ((pad e layer).getD (idx ^^^ 1) Bytes32.zero) node) := by
  have hsib_lt : idx ^^^ 1 < (pad e layer).length :=
    xor_one_lt (List.getElem?_eq_some_iff.mp hnode).1 length_pad_mod_two
  obtain ⟨sib, hsib⟩ : ∃ sib, (pad e layer)[idx ^^^ 1]? = some sib :=
    ⟨_, List.getElem?_eq_getElem hsib_lt⟩
  simp only [List.getD_eq_getElem?_getD, hsib, Option.getD_some]
  rw [xor_one_eq] at hsib
  split
  · -- an even node is the left child
    rw [if_pos ‹_›] at hsib
    exact getElem?_hashPairs (by rwa [Nat.mul_div_cancel' (Nat.dvd_of_mod_eq_zero ‹_›)])
      (by rwa [Nat.mul_div_cancel' (Nat.dvd_of_mod_eq_zero ‹_›)])
  · -- an odd node is the right child
    rw [if_neg ‹_›] at hsib
    exact getElem?_hashPairs (by rwa [show 2 * (idx / 2) = idx - 1 by omega])
      (by rwa [show 2 * (idx / 2) + 1 = idx by omega])

/-- **The honest climb from a padded level**: folding node `idx` of level `j` padded, the
padding node included, with its proof over `n + 1` levels gives its ancestor `n + 1` levels up. -/
theorem climb_siblings_pad (leaves : List Bytes32) :
    ∀ n j (idx : Nat) node, (pad e (level hash e leaves j))[idx]? = some node →
      (level hash e leaves (j + (n + 1)))[idx / 2 ^ (n + 1)]? =
        some (climb hash node (halvings idx (n + 1)) (siblings hash e leaves j idx (n + 1)))
  | 0, j, idx, node, h => by
    simpa [halvings, siblings, climb, tmod_two_natCast_eq_zero] using climb_step h
  | n + 1, j, idx, node, h => by
    have ih := climb_siblings_pad leaves n (j + 1) (idx / 2) _
      (getElem?_pad_of_eq_some (climb_step h))
    rw [show j + (n + 1 + 1) = j + 1 + (n + 1) by omega, Nat.pow_succ', ← Nat.div_div_eq_div_mul,
      halvings_natCast_succ, siblings, climb_cons, ih]
    simp only [tmod_two_natCast_eq_zero]

/-- **The honest climb**: folding node `idx` of level `j` with its proof over `n` levels gives
its ancestor `n` levels up. -/
theorem climb_siblings (leaves : List Bytes32) :
    ∀ n j (idx : Nat) node, (level hash e leaves j)[idx]? = some node →
      (level hash e leaves (j + n))[idx / 2 ^ n]? =
        some (climb hash node (halvings idx n) (siblings hash e leaves j idx n))
  | 0, j, idx, node, h => by simpa using h
  | n + 1, j, idx, node, h => climb_siblings_pad leaves n j idx node (getElem?_pad_of_eq_some h)

/-! ### What `MerkleProof` returns -/

variable {items : List Bytes} {n : Nat}

theorem length_trie_branches : (trie hash items n).branches.length = n + 1 := by
  simp [trie, length_stack]

/-- The trie stores level `t` at position `n - t`, root first. -/
theorem getElem?_trie_branches {t : Nat} (ht : t ≤ n) :
    (trie hash items n).branches[n - t]? =
      (stack hash (emptyNode hash) n (items.map hash))[t]? := by
  rw [trie, List.getElem?_reverse (by rw [length_stack]; omega), length_stack]
  congr 1
  omega

/-- The second loop of `MerkleProof` reads, level by level, the honest proof: no read is out
of range while the index stays inside the padded level it starts from. -/
theorem readProof_trie : ∀ (k j idx : Nat), j + k = n →
    idx < (pad (emptyNode hash) (level hash (emptyNode hash) (items.map hash) j)).length →
      readProof (trie hash items n).branches j ((halvings idx k).map (Int.xor · 1)) =
        some (siblings hash (emptyNode hash) (items.map hash) j idx k)
  | 0, _, _, _, _ => rfl
  | k + 1, j, idx, hjk, hidx => by
    have hlayer : goIndex (trie hash items n).branches
        ((trie hash items n).branches.length - 1 - j) =
          some (pad (emptyNode hash) (level hash (emptyNode hash) (items.map hash) j)) := by
      rw [length_trie_branches, show ((n + 1 : Nat) : Int) - 1 - j = ((n - j : Nat) : Int) by omega,
        goIndex_natCast, getElem?_trie_branches (by omega), getElem?_stack_of_lt _ (by omega)]
    have hsib := List.getElem?_eq_getElem (xor_one_lt hidx length_pad_mod_two)
    have hnext : idx / 2 < (pad (emptyNode hash)
        (level hash (emptyNode hash) (items.map hash) (j + 1))).length := by
      have : (pad (emptyNode hash) (level hash (emptyNode hash) (items.map hash) j)).length % 2
        = 0 := length_pad_mod_two
      rw [length_pad, level_succ, length_hashPairs]
      omega
    rw [halvings_natCast_succ, List.map_cons, readProof, hlayer]
    simp only [Option.bind_eq_bind, Option.some_bind, xor_one_natCast, goIndex_natCast, hsib,
      readProof_trie k (j + 1) (idx / 2) (by omega) hnext]
    simp [siblings, hsib]

/-- **`MerkleProof` on a generated trie**: the guard of the source on the stored leaf layer,
and past it the honest proof. -/
theorem merkleProof_trie (idx : Int) :
    (trie hash items n).merkleProof idx =
      if idx < 0 ∨ (storedLeaves (emptyNode hash) n (items.map hash)).length ≤ idx ∨
          goIndex (storedLeaves (emptyNode hash) n (items.map hash)) idx = some Bytes32.zero then
        some (.error "merkle index out of range in trie")
      else some (.ok (siblings hash (emptyNode hash) (items.map hash) 0 idx.toNat n)) := by
  have hlast : goIndex (trie hash items n).branches ((trie hash items n).branches.length - 1) =
      some (storedLeaves (emptyNode hash) n (items.map hash)) := by
    rw [length_trie_branches, show ((n + 1 : Nat) : Int) - 1 = ((n - 0 : Nat) : Int) by omega,
      goIndex_natCast, getElem?_trie_branches (Nat.zero_le n), getElem?_stack_zero]
  rw [MerkleTrie.merkleProof, hlast]
  simp only [Option.bind_eq_bind, Option.some_bind]
  split
  · rfl
  · rename_i hguard
    obtain ⟨k, rfl⟩ : ∃ k : Nat, idx = k := ⟨idx.toNat, by omega⟩
    have hlt : k < (storedLeaves (emptyNode hash) n (items.map hash)).length := by
      by_contra h
      exact hguard (Or.inr (Or.inl (by omega)))
    have hk : k < (pad (emptyNode hash) (items.map hash)).length :=
      lt_of_lt_of_le hlt (length_storedLeaves_le n (items.map hash))
    have hbi : branchIndices (k : Int) ((trie hash items n).branches.length : Int) =
        some (halvings k (n + 1)) := by
      rw [length_trie_branches, branchIndices, if_neg (by omega)]
      rfl
    rw [hbi]
    simp only [Option.some_bind, Option.pure_def, dropLast_halvings,
      readProof_trie n 0 k (Nat.zero_add n) hk]
    rfl

/-- The root of a generated trie is the first node of its top level. -/
theorem root_trie :
    (trie hash items n).root = (level hash (emptyNode hash) (items.map hash) n)[0]? := by
  rw [MerkleTrie.root, goIndex_zero, ← Nat.sub_self n, getElem?_trie_branches le_rfl,
    getElem?_stack_top]
  simp

/-- `VerifyMerkleProof` compares the root with the leaf climbed along a nonempty proof. -/
theorem verifyMerkleProof_eq (m : MerkleTrie) (item : Bytes) (idx : Int) {proof : List Bytes32}
    (hp : proof ≠ []) :
    m.verifyMerkleProof hash item idx proof =
      m.root.map (· == climb hash (hash item) (halvings idx proof.length) proof) := by
  have hlen : ¬ (proof.length : Int) ≤ 0 := by
    have := List.length_pos.mpr hp
    omega
  simp only [MerkleTrie.verifyMerkleProof, branchIndices, if_neg hlen, Option.bind_eq_bind,
    Option.some_bind, Int.toNat_ofNat]
  cases m.root <;> rfl

/-- On a generated trie `VerifyMerkleProof` accepts an item whose climb along a nonempty proof
reaches the top level. -/
theorem verifyMerkleProof_trie_of_climb {item : Bytes} {idx : Int} {proof : List Bytes32} {k : Nat}
    (hk : 0 < k) (hlen : proof.length = k)
    (h : (level hash (emptyNode hash) (items.map hash) n)[0]? =
      some (climb hash (hash item) (halvings idx k) proof)) :
    (trie hash items n).verifyMerkleProof hash item idx proof = some true := by
  subst hlen
  rw [verifyMerkleProof_eq _ _ _ (List.ne_nil_of_length_pos hk), root_trie, h]
  simp

/-- The stored leaf layer holds the leaves first. -/
theorem getElem?_storedLeaves_of_lt {leaves : List Bytes32} {i : Nat} (hi : i < leaves.length) :
    (storedLeaves e n leaves)[i]? = leaves[i]? := by
  unfold storedLeaves
  split
  · rfl
  · exact getElem?_pad_of_lt hi

theorem length_le_storedLeaves (leaves : List Bytes32) :
    leaves.length ≤ (storedLeaves e n leaves).length := by
  unfold storedLeaves
  split
  · exact le_rfl
  · rw [length_pad]; omega

/-- An index of an item whose leaf is not the zero value passes the guard of `MerkleProof`. -/
theorem merkleProof_trie_of_lt {i : Nat} (hi : i < items.length)
    (hleaf : hash items[i] ≠ Bytes32.zero) :
    (trie hash items n).merkleProof i =
      some (.ok (siblings hash (emptyNode hash) (items.map hash) 0 i n)) := by
  have hstored : goIndex (storedLeaves (emptyNode hash) n (items.map hash)) i =
      some (hash items[i]) := by
    rw [goIndex_natCast, getElem?_storedLeaves_of_lt (by simpa using hi)]
    simp [hi]
  have hlen : (items.map hash).length ≤ (storedLeaves (emptyNode hash) n (items.map hash)).length :=
    length_le_storedLeaves _
  rw [merkleProof_trie, if_neg]
  · rfl
  · rintro (h | h | h)
    · omega
    · simp only [List.length_map] at hlen
      omega
    · rw [hstored] at h
      exact hleaf (Option.some.inj h)

/-- The index just past an odd number of items passes the guard of `MerkleProof` after a
hashing round, when the padding leaf `parentHash(zero, zero)` is not the zero value. -/
theorem merkleProof_trie_padding (hodd : items.length % 2 = 1) (hn : n ≠ 0)
    (he : emptyNode hash ≠ Bytes32.zero) :
    (trie hash items n).merkleProof items.length =
      some (.ok (siblings hash (emptyNode hash) (items.map hash) 0 items.length n)) := by
  have hpad : goIndex (storedLeaves (emptyNode hash) n (items.map hash)) items.length =
      some (emptyNode hash) := by
    rw [goIndex_natCast, storedLeaves, if_neg hn, ← List.length_map items hash]
    exact getElem?_pad_length (by simpa using hodd)
  rw [merkleProof_trie, if_neg]
  · rfl
  rintro (h | h | h)
  · omega
  · rw [storedLeaves, if_neg hn, length_pad, List.length_map] at h
    omega
  · rw [hpad] at h
    exact he (Option.some.inj h)

/-- **Completeness**: on a trie of at least two levels holding its items, `MerkleProof` gives
every item whose leaf is not the zero value a proof of one entry per level below the root,
and `VerifyMerkleProof` accepts the item at its index with it. -/
theorem merkleProof_complete (items : List Bytes) (depth : Int) (i : Nat) (hd : 2 ≤ depth)
    (hcap : items.length ≤ 2 ^ (depth - 1).toNat) (hi : i < items.length)
    (hleaf : hash items[i] ≠ Bytes32.zero) :
    ∃ m proof, generateTrieFromItems hash items depth = some (.ok m) ∧
      m.merkleProof i = some (.ok proof) ∧ (proof.length : Int) = depth - 1 ∧
      m.verifyMerkleProof hash items[i] i proof = some true := by
  have hne : items ≠ [] := List.ne_nil_of_length_pos (by omega)
  have hleafi : (items.map hash)[i]? = some (hash items[i]) := by simp [hi]
  refine ⟨trie hash items (depth - 1).toNat,
    siblings hash (emptyNode hash) (items.map hash) 0 i (depth - 1).toNat,
    generateTrieFromItems_eq hne (by omega), merkleProof_trie_of_lt hi hleaf, ?_, ?_⟩
  · rw [length_siblings]
    omega
  · have hclimb := @climb_siblings hash (emptyNode hash) _ (depth - 1).toNat 0 i _ hleafi
    rw [Nat.div_eq_of_lt (by omega), Nat.zero_add] at hclimb
    exact verifyMerkleProof_trie_of_climb (by omega) (length_siblings ..) hclimb

/-- Completeness at the second of two items, over two levels. -/
theorem merkleProof_complete_second_of_two : ∃ m proof,
    generateTrieFromItems sampleHash [[1], [2]] 2 = some (.ok m) ∧
      m.merkleProof 1 = some (.ok proof) ∧ (proof.length : Int) = 2 - 1 ∧
      m.verifyMerkleProof sampleHash [2] 1 proof = some true :=
  @merkleProof_complete sampleHash [[1], [2]] 2 1 (by decide) (by decide) (by decide) (by decide)

end Prysm.Trieutil
