import Prysm.Trieutil.Soundness

/-!
# What a root says about the items

Two item lists with the same root are not always equal. `GenerateTrieFromItems` never refuses
more items than the `2 ^ (depth - 1)` leaves below the root, and those past them do not reach
it (`Prysm.Trieutil.root_eq_trieNode`); and the padding leaf of an odd leaf layer is the hash
of the 64 zero bytes, so an odd list and the same list followed by the 64 zero bytes build the
same trie (`Prysm.Trieutil.generateTrieFromItems_append_zeros`).

Those are the only ways. Compare the two tries' trees from the root down
(`Prysm.Trieutil.trieNode_agree`): at a node holding an item in either list, the hash being
collision-free between the two tries' inputs makes the children equal, and a node holding an
item cannot equal the padding node of the other tree unless one of its children is the zero
value. So if no input hashes to zero, the two lists agree at every position, up to the 64 zero
bytes at the padding position of the other (`Prysm.Trieutil.Agree`), and that leaves only the
two lists above (`Prysm.Trieutil.root_binds`).
-/

namespace Prysm.Trieutil

/-- Position `p` of two item lists under equal nodes of their tries: the same item, or the
padding position of one holding the 64 zero bytes in the other. -/
def Agree (A B : List Bytes) (p : Nat) : Prop :=
  A[p]? = B[p]? ∨
    (p = A.length ∧ A.length % 2 = 1 ∧
      B[p]? = some (Bytes32.zero.toBytes ++ Bytes32.zero.toBytes)) ∨
    (p = B.length ∧ B.length % 2 = 1 ∧
      A[p]? = some (Bytes32.zero.toBytes ++ Bytes32.zero.toBytes))

/-- Lists that agree everywhere below a common bound are equal, or one is the other, odd in
length, followed by one more item: the one at its padding position. -/
theorem append_of_agree_of_lt {A B : List Bytes} {M : Nat} (hB : B.length ≤ M)
    (hlt : A.length < B.length) (h : ∀ p < M, Agree A B p) :
    A.length % 2 = 1 ∧ B = A ++ [Bytes32.zero.toBytes ++ Bytes32.zero.toBytes] := by
  have hnone : ∀ p, A.length ≤ p → A[p]? = none := fun p hp => List.getElem?_eq_none hp
  have hsome : ∀ p, p < B.length → B[p]? ≠ none := fun p hp => by simp [hp]
  -- the first position past `A` is its padding position
  obtain ⟨hodd, hpad⟩ : A.length % 2 = 1 ∧
      B[A.length]? = some (Bytes32.zero.toBytes ++ Bytes32.zero.toBytes) := by
    rcases h A.length (by omega) with h1 | ⟨-, h2, h3⟩ | ⟨h1, -⟩
    · exact absurd (h1 ▸ hnone _ le_rfl) (hsome _ hlt)
    · exact ⟨h2, h3⟩
    · omega
  -- and `B` ends right there
  have hlen : B.length = A.length + 1 := by
    by_contra hne
    rcases h (A.length + 1) (by omega) with h1 | ⟨h1, -⟩ | ⟨h1, -⟩
    · exact hsome _ (by omega) (h1 ▸ hnone _ (by omega))
    · omega
    · omega
  refine ⟨hodd, List.ext_getElem? fun p => ?_⟩
  rcases Nat.lt_trichotomy p A.length with hp | rfl | hp
  · rw [List.getElem?_append_left hp]
    rcases h p (by omega) with h1 | ⟨h1, -⟩ | ⟨h1, -⟩
    · exact h1.symm
    · omega
    · omega
  · simp [hpad]
  · rw [List.getElem?_eq_none (by omega), List.getElem?_eq_none (by simp; omega)]

theorem eq_or_append_of_agree {A B : List Bytes} {M : Nat} (hA : A.length ≤ M) (hB : B.length ≤ M)
    (h : ∀ p < M, Agree A B p) :
    A = B ∨ (A.length % 2 = 1 ∧ B = A ++ [Bytes32.zero.toBytes ++ Bytes32.zero.toBytes]) ∨
      (B.length % 2 = 1 ∧ A = B ++ [Bytes32.zero.toBytes ++ Bytes32.zero.toBytes]) := by
  rcases Nat.lt_trichotomy A.length B.length with hlt | heq | hlt
  · exact Or.inr (Or.inl (append_of_agree_of_lt hB hlt h))
  · refine Or.inl (List.ext_getElem? fun p => ?_)
    by_cases hp : p < M
    · rcases h p hp with h1 | ⟨rfl, -, h3⟩ | ⟨rfl, -, h3⟩
      · exact h1
      · simp [heq] at h3
      · simp [← heq] at h3
    · rw [List.getElem?_eq_none (by omega), List.getElem?_eq_none (by omega)]
  · refine Or.inr (Or.inr (append_of_agree_of_lt hA hlt fun p hp => ?_))
    rcases h p hp with h1 | h2 | h3
    · exact Or.inl h1.symm
    · exact Or.inr (Or.inr h2)
    · exact Or.inr (Or.inl h3)

variable {hash : Bytes → Bytes32} {n : Nat}

/-- A node of the trie's tree that holds an item is not the zero value, if nothing the trie
hashed is. -/
theorem trieNode_ne_zero {items : List Bytes} (hne : items ≠ [])
    (hnz : ∀ a ∈ trieInputs hash items n, hash a ≠ Bytes32.zero) :
    ∀ {h j : Nat}, h ≤ n → j * 2 ^ h < items.length →
      trieNode hash (items.map hash) h j ≠ Bytes32.zero
  | 0, j, _, hj => by
    rw [trieNode_zero_of_lt (by simpa using hj)]
    exact hnz _ (item_mem_trieInputs _)
  | h + 1, j, hh, hj => by
    rw [trieNode_succ_of_lt (by simpa using hj)]
    exact hnz _ (pair_mem_trieInputs hne (by omega) hj)

/-! ### Two tries with equal nodes -/

section TwoTries

variable {A B : List Bytes}

/-- **Equal nodes of two tries** hold no item in either, or hold items in both and have equal
children. -/
theorem trieNode_succ_eq_cases (hAne : A ≠ []) (hBne : B ≠ [])
    (hcf : ∀ a ∈ trieInputs hash A n, ∀ b ∈ trieInputs hash B n, hash a = hash b → a = b)
    (hnzA : ∀ a ∈ trieInputs hash A n, hash a ≠ Bytes32.zero)
    (hnzB : ∀ b ∈ trieInputs hash B n, hash b ≠ Bytes32.zero) {h j : Nat} (hh : h < n)
    (heq : trieNode hash (A.map hash) (h + 1) j = trieNode hash (B.map hash) (h + 1) j) :
    (A.length ≤ j * 2 ^ (h + 1) ∧ B.length ≤ j * 2 ^ (h + 1)) ∨
      (trieNode hash (A.map hash) h (2 * j) = trieNode hash (B.map hash) h (2 * j) ∧
        trieNode hash (A.map hash) h (2 * j + 1) = trieNode hash (B.map hash) h (2 * j + 1) ∧
        j * 2 ^ (h + 1) < A.length ∧ j * 2 ^ (h + 1) < B.length) := by
  by_cases hA : j * 2 ^ (h + 1) < A.length <;> by_cases hB : j * 2 ^ (h + 1) < B.length
  · -- both hold an item: they hash equal inputs
    rw [trieNode_succ_of_lt (by simpa using hA), trieNode_succ_of_lt (by simpa using hB)] at heq
    have hp := Bytes32.append_inj
      (hcf _ (pair_mem_trieInputs hAne hh hA) _ (pair_mem_trieInputs hBne hh hB) heq)
    exact Or.inr ⟨hp.1, hp.2, hA, hB⟩
  · -- only `A`'s holds an item: equal to the padding node, its left child would be zero
    have hB' : (B.map hash).length ≤ j * 2 ^ (h + 1) := by simpa using hB
    rw [trieNode_succ_of_lt (by simpa using hA), trieNode_of_le hB'] at heq
    have hp := Bytes32.append_inj
      (hcf _ (pair_mem_trieInputs hAne hh hA) _ zeros_mem_trieInputs heq)
    exact absurd hp.1 (trieNode_ne_zero hAne hnzA (by omega) (by rwa [two_mul_mul_two_pow]))
  · have hA' : (A.map hash).length ≤ j * 2 ^ (h + 1) := by simpa using hA
    rw [trieNode_of_le hA', trieNode_succ_of_lt (by simpa using hB)] at heq
    have hp := Bytes32.append_inj
      (hcf _ zeros_mem_trieInputs _ (pair_mem_trieInputs hBne hh hB) heq)
    exact absurd hp.1.symm (trieNode_ne_zero hBne hnzB (by omega) (by rwa [two_mul_mul_two_pow]))
  · exact Or.inl ⟨by omega, by omega⟩

/-- Equal leaves of two tries: the same item where both lists have one, the 64 zero bytes
where only one does. -/
theorem trieNode_zero_eq
    (hcf : ∀ a ∈ trieInputs hash A n, ∀ b ∈ trieInputs hash B n, hash a = hash b → a = b)
    {p : Nat} (heq : trieNode hash (A.map hash) 0 p = trieNode hash (B.map hash) 0 p) :
    A[p]? = B[p]? ∨
      (B.length ≤ p ∧ A[p]? = some (Bytes32.zero.toBytes ++ Bytes32.zero.toBytes)) ∨
      (A.length ≤ p ∧ B[p]? = some (Bytes32.zero.toBytes ++ Bytes32.zero.toBytes)) := by
  by_cases hA : p < A.length <;> by_cases hB : p < B.length
  · rw [trieNode_zero_of_lt hA, trieNode_zero_of_lt hB] at heq
    exact Or.inl (by simp [hA, hB, hcf _ (item_mem_trieInputs hA) _ (item_mem_trieInputs hB) heq])
  · have hB' : (B.map hash).length ≤ p * 2 ^ 0 := by simpa using hB
    rw [trieNode_zero_of_lt hA, trieNode_of_le hB'] at heq
    exact Or.inr (Or.inl ⟨by omega,
      by simp [hA, hcf _ (item_mem_trieInputs hA) _ zeros_mem_trieInputs heq]⟩)
  · have hA' : (A.map hash).length ≤ p * 2 ^ 0 := by simpa using hA
    rw [trieNode_of_le hA', trieNode_zero_of_lt hB] at heq
    exact Or.inr (Or.inr ⟨by omega,
      by simp [hB, (hcf _ zeros_mem_trieInputs _ (item_mem_trieInputs hB) heq).symm]⟩)
  · exact Or.inl (by rw [List.getElem?_eq_none (by omega), List.getElem?_eq_none (by omega)])

/-- **Equal nodes of two tries agree below them**, position by position. -/
theorem trieNode_agree (hAne : A ≠ []) (hBne : B ≠ [])
    (hcf : ∀ a ∈ trieInputs hash A n, ∀ b ∈ trieInputs hash B n, hash a = hash b → a = b)
    (hnzA : ∀ a ∈ trieInputs hash A n, hash a ≠ Bytes32.zero)
    (hnzB : ∀ b ∈ trieInputs hash B n, hash b ≠ Bytes32.zero) :
    ∀ h, h < n → ∀ j, trieNode hash (A.map hash) (h + 1) j = trieNode hash (B.map hash) (h + 1) j →
      ∀ k < 2 ^ (h + 1), Agree A B (j * 2 ^ (h + 1) + k)
  | 0, hh, j, heq, k, hk => by
    rcases trieNode_succ_eq_cases hAne hBne hcf hnzA hnzB hh heq with ⟨hA, hB⟩ | ⟨h0, h1, hA, hB⟩
    · exact Or.inl (by rw [List.getElem?_eq_none (by omega), List.getElem?_eq_none (by omega)])
    · -- the children are the leaves `2j` and `2j + 1`
      simp only [Nat.zero_add, Nat.pow_one] at hA hB hk ⊢
      obtain rfl | rfl : k = 0 ∨ k = 1 := by omega
      · rcases trieNode_zero_eq hcf h0 with h | ⟨h, -⟩ | ⟨h, -⟩
        · exact Or.inl (by simpa [Nat.mul_comm] using h)
        · omega
        · omega
      · rcases trieNode_zero_eq hcf h1 with h | ⟨h, h'⟩ | ⟨h, h'⟩
        · exact Or.inl (by simpa [Nat.mul_comm] using h)
        · exact Or.inr (Or.inr ⟨by omega, by omega, by simpa [Nat.mul_comm] using h'⟩)
        · exact Or.inr (Or.inl ⟨by omega, by omega, by simpa [Nat.mul_comm] using h'⟩)
  | h + 1, hh, j, heq, k, hk => by
    rcases trieNode_succ_eq_cases hAne hBne hcf hnzA hnzB hh heq with ⟨hA, hB⟩ | ⟨h0, h1, -, -⟩
    · exact Or.inl (by rw [List.getElem?_eq_none (by omega), List.getElem?_eq_none (by omega)])
    · have hpow : 2 ^ (h + 1 + 1) = 2 * 2 ^ (h + 1) := Nat.pow_succ'
      by_cases hk' : k < 2 ^ (h + 1)
      · -- under the left child
        have := trieNode_agree hAne hBne hcf hnzA hnzB h (by omega) (2 * j) h0 k hk'
        rwa [two_mul_mul_two_pow] at this
      · -- under the right child
        have := trieNode_agree hAne hBne hcf hnzA hnzB h (by omega) (2 * j + 1) h1
          (k - 2 ^ (h + 1)) (by omega)
        rwa [two_mul_add_one_mul_two_pow, Nat.add_assoc, Nat.add_sub_cancel' (by omega)] at this

end TwoTries

/-! ### What the root binds -/

/-- **An odd list and the same list followed by the 64 zero bytes build the same trie** over
two levels or more: the extra item hashes to the padding node. -/
theorem trie_append_zeros (hash : Bytes → Bytes32) (items : List Bytes)
    (hodd : items.length % 2 = 1) (n : Nat) :
    trie hash (items ++ [Bytes32.zero.toBytes ++ Bytes32.zero.toBytes]) (n + 1) =
      trie hash items (n + 1) := by
  have hodd' : (items.map hash).length % 2 = 1 := by simpa using hodd
  have hpad :
      pad (emptyNode hash) ((items ++ [Bytes32.zero.toBytes ++ Bytes32.zero.toBytes]).map hash) =
      pad (emptyNode hash) (items.map hash) := by
    rw [List.map_append, List.map_singleton]
    show pad (emptyNode hash) (items.map hash ++ [emptyNode hash]) = _
    rw [pad, if_neg (by simp; omega), pad, if_pos hodd']
  simp only [trie, stack, hpad]

/-- **An odd list and the same list followed by the 64 zero bytes give one trie** over two
levels or more, every branch equal. -/
theorem generateTrieFromItems_append_zeros (hash : Bytes → Bytes32) (items : List Bytes)
    (hodd : items.length % 2 = 1) (depth : Int) (hd : 2 ≤ depth) :
    generateTrieFromItems hash (items ++ [Bytes32.zero.toBytes ++ Bytes32.zero.toBytes]) depth =
      generateTrieFromItems hash items depth := by
  obtain ⟨n, hn⟩ : ∃ n, (depth - 1).toNat = n + 1 := ⟨(depth - 1).toNat - 1, by omega⟩
  rw [generateTrieFromItems_eq (by simp) (by omega),
    generateTrieFromItems_eq (List.ne_nil_of_length_pos (by omega)) (by omega), hn,
    trie_append_zeros hash items hodd]

/-- Three items over three levels: the fourth, padding leaf is what the 64 zero bytes hash to. -/
theorem generateTrieFromItems_append_zeros_three_items :
    generateTrieFromItems sampleHash
        [[1], [2], [3], Bytes32.zero.toBytes ++ Bytes32.zero.toBytes] 3 =
      generateTrieFromItems sampleHash [[1], [2], [3]] 3 :=
  generateTrieFromItems_append_zeros sampleHash [[1], [2], [3]] (by decide) 3 (by decide)

/-- **What a root binds.** On two tries of the same depth, at least two levels, each holding
its items, equal roots mean equal item lists, or one list odd in length and the other the same
followed by the 64 zero bytes; provided the hash is collision-free between the two tries'
inputs and none of them hashes to the zero value. -/
theorem root_binds (A B : List Bytes) (depth : Int) (hd : 2 ≤ depth)
    (hA : A.length ≤ 2 ^ (depth - 1).toNat) (hB : B.length ≤ 2 ^ (depth - 1).toNat)
    (hcf : ∀ a ∈ trieInputs hash A (depth - 1).toNat, ∀ b ∈ trieInputs hash B (depth - 1).toNat,
      hash a = hash b → a = b)
    (hnz : ∀ a ∈ trieInputs hash A (depth - 1).toNat ++ trieInputs hash B (depth - 1).toNat,
      hash a ≠ Bytes32.zero)
    (mA mB : MerkleTrie) (hmA : generateTrieFromItems hash A depth = some (.ok mA))
    (hmB : generateTrieFromItems hash B depth = some (.ok mB)) (hroot : mA.root = mB.root) :
    A = B ∨ (A.length % 2 = 1 ∧ B = A ++ [Bytes32.zero.toBytes ++ Bytes32.zero.toBytes]) ∨
      (B.length % 2 = 1 ∧ A = B ++ [Bytes32.zero.toBytes ++ Bytes32.zero.toBytes]) := by
  have hAne : A ≠ [] := by rintro rfl; simp [generateTrieFromItems] at hmA
  have hBne : B ≠ [] := by rintro rfl; simp [generateTrieFromItems] at hmB
  obtain rfl : mA = trie hash A (depth - 1).toNat := by
    rw [generateTrieFromItems_eq hAne (by omega)] at hmA
    exact (Except.ok.inj (Option.some.inj hmA)).symm
  obtain rfl : mB = trie hash B (depth - 1).toNat := by
    rw [generateTrieFromItems_eq hBne (by omega)] at hmB
    exact (Except.ok.inj (Option.some.inj hmB)).symm
  rw [root_trie_eq_trieNode hAne, root_trie_eq_trieNode hBne] at hroot
  obtain ⟨n, hn⟩ : ∃ n, (depth - 1).toNat = n + 1 := ⟨(depth - 1).toNat - 1, by omega⟩
  rw [hn] at hroot hA hB
  have hagree := trieNode_agree hAne hBne hcf (fun a ha => hnz a (List.mem_append_left _ ha))
    (fun b hb => hnz b (List.mem_append_right _ hb)) n (by omega) 0 (Option.some.inj hroot)
  exact eq_or_append_of_agree hA hB fun p hp => by simpa using hagree p hp

set_option maxRecDepth 1024 in
/-- Three items, and the same followed by the 64 zero bytes, over three levels: the hash is
collision-free between the two tries' inputs, and the roots are equal. -/
theorem root_binds_three_items :
    ([[1], [2], [3]] : List Bytes) = [[1], [2], [3], Bytes32.zero.toBytes ++ Bytes32.zero.toBytes] ∨
      (([[1], [2], [3]] : List Bytes).length % 2 = 1 ∧
        ([[1], [2], [3], Bytes32.zero.toBytes ++ Bytes32.zero.toBytes] : List Bytes) =
          [[1], [2], [3]] ++ [Bytes32.zero.toBytes ++ Bytes32.zero.toBytes]) ∨
      (([[1], [2], [3], Bytes32.zero.toBytes ++ Bytes32.zero.toBytes] : List Bytes).length % 2 = 1 ∧
        ([[1], [2], [3]] : List Bytes) =
          [[1], [2], [3], Bytes32.zero.toBytes ++ Bytes32.zero.toBytes] ++
            [Bytes32.zero.toBytes ++ Bytes32.zero.toBytes]) :=
  @root_binds sampleHash [[1], [2], [3]]
    [[1], [2], [3], Bytes32.zero.toBytes ++ Bytes32.zero.toBytes]
    3 (by decide) (by decide) (by decide) (by decide) (by decide) _ _
    (generateTrieFromItems_eq (by decide) (by decide))
    (generateTrieFromItems_eq (by decide) (by decide))
    (by decide)

set_option maxRecDepth 1024 in
/-- **One item, and the same followed by the 64 zero bytes, give one root** over two levels,
with the hash collision-free on every input either trie hashes. -/
theorem root_same_with_zero_item :
    (∀ a ∈ trieInputs sampleHash [[1]] 1 ++
        trieInputs sampleHash [[1], Bytes32.zero.toBytes ++ Bytes32.zero.toBytes] 1,
      ∀ b ∈ trieInputs sampleHash [[1]] 1 ++
        trieInputs sampleHash [[1], Bytes32.zero.toBytes ++ Bytes32.zero.toBytes] 1,
        sampleHash a = sampleHash b → a = b) ∧
    (∃ mA mB, generateTrieFromItems sampleHash [[1]] 2 = some (.ok mA) ∧
      generateTrieFromItems sampleHash [[1], Bytes32.zero.toBytes ++ Bytes32.zero.toBytes] 2 =
        some (.ok mB) ∧ mA.root = mB.root) ∧
    ([[1]] : List Bytes) ≠ [[1], Bytes32.zero.toBytes ++ Bytes32.zero.toBytes] :=
  ⟨by decide, ⟨_, _, generateTrieFromItems_eq (by decide) (by decide),
    generateTrieFromItems_eq (by decide) (by decide), by decide⟩, by decide⟩

end Prysm.Trieutil
