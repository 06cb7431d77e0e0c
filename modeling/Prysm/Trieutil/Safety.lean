import Prysm.Trieutil.Proof

/-!
# When the trie code panics, and which indices `MerkleProof` refuses

Three facts about the trie functions on the tries they are meant for, and where each stops.

* **Nothing panics but the verification of an empty proof.** On nonempty items and a depth
  `≥ 0`, `GenerateTrieFromItems` returns a trie, `MerkleProof` returns at every index, and
  `VerifyMerkleProof` returns at every item, index and nonempty proof
  (`Prysm.Trieutil.trie_functions_return`). An empty proof makes `BranchIndices` write
  `indices[0]` of an empty slice, whatever the trie (`Prysm.Trieutil.verifyMerkleProof_nil`).
* **`MerkleProof` answers every item.** An index of an item whose leaf is not the zero value
  gets a proof of one entry per level below the root, at every depth
  (`Prysm.Trieutil.merkleProof_of_lt`), and every index outside the stored leaf layer is
  refused (`Prysm.Trieutil.merkleProof_refuses`).
* **The stored leaf layer is one longer than the items when they are odd in number.** The
  guard compares a leaf with the zero value, while the padding leaf is `parentHash(zero, zero)`;
  so the index just past the items is given a proof whenever that hash is not zero
  (`Prysm.Trieutil.merkleProof_padding_index`).
-/

namespace Prysm.Trieutil

variable {hash : Bytes → Bytes32}

/-- **An empty proof panics**: `BranchIndices(i, 0)` writes the first entry of an empty
slice. -/
theorem verifyMerkleProof_nil (m : MerkleTrie) (item : Bytes) (idx : Int) :
    m.verifyMerkleProof hash item idx [] = none := rfl

theorem root_trie_isSome {items : List Bytes} (hne : items ≠ []) (n : Nat) :
    ((trie hash items n).root).isSome := by
  have hlen : (level hash (emptyNode hash) (items.map hash) n).length =
      ((items.map hash).length - 1) / 2 ^ n + 1 := length_level (by simpa using hne) n
  have hpos : 0 < (level hash (emptyNode hash) (items.map hash) n).length :=
    hlen ▸ Nat.succ_pos _
  rw [root_trie, List.getElem?_eq_getElem hpos]
  rfl

/-- **The trie functions return**: on nonempty items and a depth `≥ 0`, the trie is built, a
proof is looked up at every index, and every nonempty proof is checked, with no panic. -/
theorem trie_functions_return (items : List Bytes) (depth : Int) (hne : items ≠ [])
    (hd : 0 ≤ depth) :
    ∃ m, generateTrieFromItems hash items depth = some (.ok m) ∧
      (∀ i, (m.merkleProof i).isSome) ∧
      ∀ item i proof, proof ≠ [] → (m.verifyMerkleProof hash item i proof).isSome := by
  refine ⟨_, generateTrieFromItems_eq hne hd, fun i => ?_, fun item i proof hp => ?_⟩
  · rw [merkleProof_trie]
    split <;> rfl
  · simpa [verifyMerkleProof_eq _ _ _ hp] using root_trie_isSome hne _

/-- One item over two levels: the trie is built, and every lookup and check returns. -/
theorem trie_functions_return_one_item : ∃ m,
    generateTrieFromItems sampleHash [[1]] 2 = some (.ok m) ∧
      (∀ i, (m.merkleProof i).isSome) ∧
      ∀ item i proof, proof ≠ [] → (m.verifyMerkleProof sampleHash item i proof).isSome :=
  @trie_functions_return sampleHash [[1]] 2 (by decide) (by decide)

/-! ### The guard of `MerkleProof` -/

/-- **Every item whose leaf is not the zero value gets a proof**, at every depth `≥ 0`: one
entry per level below the root. -/
theorem merkleProof_of_lt (items : List Bytes) (depth : Int) (i : Nat) (hd : 0 ≤ depth)
    (hi : i < items.length) (hleaf : hash items[i] ≠ Bytes32.zero) :
    ∃ m proof, generateTrieFromItems hash items depth = some (.ok m) ∧
      m.merkleProof i = some (.ok proof) ∧ proof.length = (depth - 1).toNat :=
  ⟨_, _, generateTrieFromItems_eq (List.ne_nil_of_length_pos (by omega)) hd,
    merkleProof_trie_of_lt hi hleaf, length_siblings _ _ _ _ _ _⟩

theorem merkleProof_of_lt_first : ∃ m proof,
    generateTrieFromItems sampleHash [[7], [8], [9]] 3 = some (.ok m) ∧
      m.merkleProof 0 = some (.ok proof) ∧ proof.length = ((3 : Int) - 1).toNat :=
  @merkleProof_of_lt sampleHash [[7], [8], [9]] 3 0 (by decide) (by decide) (by decide)

/-- **Indices outside the stored leaf layer are refused**: the negative ones, those past the
items, and the one just past the items when no padding leaf was stored there (an even number
of items, or a single level). -/
theorem merkleProof_refuses (items : List Bytes) (depth idx : Int) (hne : items ≠ [])
    (hd : 0 ≤ depth) (hidx : idx < 0 ∨ items.length < idx ∨
      (idx = items.length ∧ (items.length % 2 = 0 ∨ depth ≤ 1))) :
    ∃ m, generateTrieFromItems hash items depth = some (.ok m) ∧
      m.merkleProof idx = some (.error "merkle index out of range in trie") := by
  refine ⟨_, generateTrieFromItems_eq hne hd, ?_⟩
  have hlen : (storedLeaves (emptyNode hash) (depth - 1).toNat (items.map hash)).length =
      if (depth - 1).toNat = 0 then items.length else items.length + items.length % 2 := by
    unfold storedLeaves
    split <;> simp [length_pad]
  rw [merkleProof_trie, if_pos]
  rw [hlen]
  split <;> omega

theorem merkleProof_refuses_past_even : ∃ m,
    generateTrieFromItems sampleHash [[1], [2]] 2 = some (.ok m) ∧
      m.merkleProof 2 = some (.error "merkle index out of range in trie") :=
  @merkleProof_refuses sampleHash [[1], [2]] 2 2 (by decide) (by decide) (by decide)

/-- **The padding leaf passes the guard**: on an odd number of items and at least two levels,
the index just past the items is given a proof whenever `parentHash(zero, zero)` is not the
zero value. -/
theorem merkleProof_padding_index (items : List Bytes) (depth : Int)
    (hodd : items.length % 2 = 1) (hd : 2 ≤ depth) (he : emptyNode hash ≠ Bytes32.zero) :
    ∃ m proof, generateTrieFromItems hash items depth = some (.ok m) ∧
      m.merkleProof items.length = some (.ok proof) := by
  have hne : items ≠ [] := List.ne_nil_of_length_pos (by omega)
  exact ⟨_, _, generateTrieFromItems_eq hne (by omega), merkleProof_trie_padding hodd (by omega) he⟩

/-- One item over two levels: index `1`, past the items, is given a proof. -/
theorem merkleProof_padding_index_one_item : ∃ m proof,
    generateTrieFromItems sampleHash [[1]] 2 = some (.ok m) ∧
      m.merkleProof [[1]].length = some (.ok proof) :=
  @merkleProof_padding_index sampleHash [[1]] 2 (by decide) (by decide) (by decide)

end Prysm.Trieutil
