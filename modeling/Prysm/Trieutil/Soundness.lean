import Prysm.Trieutil.Tree

/-!
# What an accepted proof says about the item

`VerifyMerkleProof(x, i, p)` recomputes a root from `x` and `p` alone. It reads nothing of the
index but the parities of its successive halvings, and Go's truncating `/` and `%` make a
negative index read as its absolute value; so only the low `len(p)` bits of `|i|` matter
(`Prysm.Trieutil.verifyMerkleProof_natAbs_mod`). Nor does it compare `len(p)` with the height
of the trie, and the padding leaf of an odd leaf layer is the hash of the 64 zero bytes. An
accepted proof therefore does not mean that `i` is the index of `x`.

What it does mean, when the proof has one entry per level below the root, is proved here by
climbing down the trie from its root (`Prysm.Trieutil.climb_pins`): if the hash is
collision-free between the inputs the trie hashed and those the verification hashed, and no
input of the verification hashes to the zero value, then `x` is the item at
`|i| mod 2 ^ (depth - 1)`, or it is the 64 zero bytes and that index is the padding leaf
(`Prysm.Trieutil.verifyMerkleProof_sound`), however many items the trie was built from. The
inputs are the byte strings each run hands to `hashutil.Hash`: `Prysm.Trieutil.trieInputs` and
`Prysm.Trieutil.verifyInputs`.

Without the length condition the conclusion fails on every trie of three levels or more: the
leaf of an item and the first entry of its proof, as one 64-byte item, are accepted one level
up with the rest of the proof (`Prysm.Trieutil.verifyMerkleProof_leaf_pair`). The second case
of the conclusion happens too: the proof `MerkleProof` gives the padding index makes the 64 zero
bytes verify there (`Prysm.Trieutil.verifyMerkleProof_zeros_at_padding`).
-/

namespace Prysm.Trieutil

variable (hash : Bytes → Bytes32)

/-! ### The inputs each run hashes -/

/-- The bytes of each consecutive pair of a layer: what `hashLayer` hands to `Hash`. -/
def pairInputs : List Bytes32 → List Bytes
  | a :: b :: rest => (a.toBytes ++ b.toBytes) :: pairInputs rest
  | _ => []

/-- What `GenerateTrieFromItems` hands to `Hash` over `n` rounds: the items, the two zero
arrays of `generateEmptyNodes`, and the pairs of each padded level below the top. -/
def trieInputs (items : List Bytes) (n : Nat) : List Bytes :=
  items ++ (Bytes32.zero.toBytes ++ Bytes32.zero.toBytes) :: (List.range n).flatMap fun h =>
    pairInputs (pad (emptyNode hash) (level hash (emptyNode hash) (items.map hash) h))

/-- What the loop of `VerifyMerkleProof` hands to `Hash`: the node and the proof entry, in the
order the index says, at each step. -/
def climbInputs : Bytes32 → List Int → List Bytes32 → List Bytes
  | node, idx :: idxs, sib :: sibs =>
    let input := if idx.tmod 2 = 0 then node.toBytes ++ sib.toBytes else sib.toBytes ++ node.toBytes
    input :: climbInputs (hash input) idxs sibs
  | _, _, _ => []

/-- What `VerifyMerkleProof(item, i, proof)` hands to `Hash`: the item, then the climb. -/
def verifyInputs (item : Bytes) (idx : Int) (proof : List Bytes32) : List Bytes :=
  item :: climbInputs hash (hash item) (halvings idx proof.length) proof

variable {hash}

theorem mem_pairInputs : ∀ {layer : List Bytes32} {j : Nat} {a b : Bytes32},
    layer[2 * j]? = some a → layer[2 * j + 1]? = some b → a.toBytes ++ b.toBytes ∈ pairInputs layer
  | x :: y :: rest, 0, a, b, ha, hb => by simp_all [pairInputs]
  | x :: y :: rest, j + 1, a, b, ha, hb => by
    simp only [pairInputs, List.mem_cons]
    exact Or.inr
      (mem_pairInputs (by simpa [Nat.mul_add] using ha) (by simpa [Nat.mul_add] using hb))
  | [], _, _, _, ha, _ => by simp at ha
  | [_], _, _, _, _, hb => by simp at hb

/-- One step of the climb is the hash of its input. -/
theorem parentHash_ite (c : Prop) [Decidable c] (a b : Bytes32) :
    (if c then parentHash hash a b else parentHash hash b a) =
      hash (if c then a.toBytes ++ b.toBytes else b.toBytes ++ a.toBytes) := by
  split <;> rfl

/-! ### The verifier reads only the parities of the index -/

/-- Which of the indices a climb reads are even: all it reads of them. -/
def evens (idxs : List Int) : List Bool :=
  idxs.map fun i => decide (i.tmod 2 = 0)

theorem tmod_two_eq_zero_iff (a : Int) : a.tmod 2 = 0 ↔ a.natAbs % 2 = 0 := by
  cases a with
  | ofNat m => show ((m % 2 : Nat) : Int) = 0 ↔ m % 2 = 0; omega
  | negSucc m => show -(((m + 1) % 2 : Nat) : Int) = 0 ↔ (m + 1) % 2 = 0; omega

theorem climb_congr : ∀ {idxs idxs' : List Int} (c : Bytes32) (sibs : List Bytes32),
    evens idxs = evens idxs' → climb hash c idxs sibs = climb hash c idxs' sibs
  | [], [], _, _, _ => rfl
  | i :: is, i' :: is', c, [], _ => rfl
  | i :: is, i' :: is', c, s :: ss, h => by
    simp only [evens, List.map_cons, List.cons.injEq, decide_eq_decide] at h
    simp only [climb_cons, h.1]
    exact climb_congr _ ss h.2
  | [], _ :: _, _, _, h => by simp [evens] at h
  | _ :: _, [], _, _, h => by simp [evens] at h

theorem climbInputs_congr : ∀ {idxs idxs' : List Int} (c : Bytes32) (sibs : List Bytes32),
    evens idxs = evens idxs' → climbInputs hash c idxs sibs = climbInputs hash c idxs' sibs
  | [], [], _, _, _ => rfl
  | i :: is, i' :: is', c, [], _ => rfl
  | i :: is, i' :: is', c, s :: ss, h => by
    simp only [evens, List.map_cons, List.cons.injEq, decide_eq_decide] at h
    simp only [climbInputs, h.1]
    rw [climbInputs_congr _ ss h.2]
  | [], _ :: _, _, _, h => by simp [evens] at h
  | _ :: _, [], _, _, h => by simp [evens] at h

/-- **Only the low `n` bits of `|i|` reach the climb**: the halvings of `i` and of
`|i| mod 2 ^ n` have the same parities. -/
theorem evens_halvings : ∀ (i : Int) (n : Nat),
    evens (halvings i n) = evens (halvings ((i.natAbs % 2 ^ n : Nat) : Int) n)
  | _, 0 => rfl
  | i, n + 1 => by
    have hhalf : i.natAbs % 2 ^ (n + 1) / 2 = (i.tdiv 2).natAbs % 2 ^ n := by
      rw [Nat.pow_succ', Nat.mod_mul_right_div_self, Int.natAbs_tdiv]
      rfl
    have hpar : i.natAbs % 2 ^ (n + 1) % 2 = i.natAbs % 2 :=
      Nat.mod_mod_of_dvd _ (Nat.dvd_of_mod_eq_zero (by simp [Nat.pow_succ, Nat.mul_mod_left]))
    rw [halvings, halvings_natCast_succ, hhalf]
    simp only [evens, List.map_cons, List.cons.injEq]
    refine ⟨decide_eq_decide.mpr ?_, evens_halvings (i.tdiv 2) n⟩
    rw [tmod_two_natCast_eq_zero, tmod_two_eq_zero_iff, hpar]

/-- **`VerifyMerkleProof` reads only the low `len(proof)` bits of `|i|`.** -/
theorem verifyMerkleProof_natAbs_mod (m : MerkleTrie) (item : Bytes) (idx : Int)
    (proof : List Bytes32) :
    m.verifyMerkleProof hash item idx proof =
      m.verifyMerkleProof hash item (idx.natAbs % 2 ^ proof.length : Nat) proof := by
  by_cases hp : proof = []
  · subst hp
    rfl
  · rw [verifyMerkleProof_eq _ _ _ hp, verifyMerkleProof_eq _ _ _ hp,
      climb_congr _ _ (evens_halvings idx proof.length)]

/-- **An index, its negation, and the index moved by a multiple of `2 ^ len(proof)` verify
alike**: `VerifyMerkleProof` accepts an item at `-i` and at `i + k * 2 ^ len(proof)` exactly
when it accepts it at `i`. -/
theorem verifyMerkleProof_neg_add_mul (m : MerkleTrie) (item : Bytes) (proof : List Bytes32)
    (i k : Nat) :
    m.verifyMerkleProof hash item (-(i : Int)) proof = m.verifyMerkleProof hash item i proof ∧
      m.verifyMerkleProof hash item (i + k * 2 ^ proof.length : Nat) proof =
        m.verifyMerkleProof hash item i proof := by
  rw [verifyMerkleProof_natAbs_mod m item _ proof, verifyMerkleProof_natAbs_mod m item (i : Int),
    verifyMerkleProof_natAbs_mod m item ((i + k * 2 ^ proof.length : Nat) : Int) proof,
    Int.natAbs_neg, Int.natAbs_ofNat, Int.natAbs_ofNat, Nat.add_mul_mod_self_right]
  exact ⟨rfl, rfl⟩

/-! ### Climbing down the trie -/

section Pin

variable {items : List Bytes} {n : Nat}

theorem item_mem_trieInputs {k : Nat} (hk : k < items.length) :
    items[k] ∈ trieInputs hash items n :=
  List.mem_append_left _ (List.getElem_mem hk)

theorem zeros_mem_trieInputs :
    Bytes32.zero.toBytes ++ Bytes32.zero.toBytes ∈ trieInputs hash items n :=
  List.mem_append_right _ (List.mem_cons_self _ _)

/-- The two children of a node below the top that holds a leaf were hashed together. -/
theorem pair_mem_trieInputs (hne : items ≠ []) {h J : Nat} (hh : h < n)
    (hJ : J * 2 ^ (h + 1) < items.length) :
    (trieNode hash (items.map hash) h (2 * J)).toBytes ++
      (trieNode hash (items.map hash) h (2 * J + 1)).toBytes ∈ trieInputs hash items n := by
  have hne' : items.map hash ≠ [] := by simpa using hne
  have hlen :
      2 * J + 1 <
        (pad (emptyNode hash) (level hash (emptyNode hash) (items.map hash) h)).length := by
    have : J < (level hash (emptyNode hash) (items.map hash) (h + 1)).length :=
      (lt_length_level_iff hne').mpr (by simpa using hJ)
    rw [level_succ, length_hashPairs] at this
    omega
  refine List.mem_append_right _ (List.mem_cons_of_mem _
    (List.mem_flatMap.mpr ⟨h, List.mem_range.mpr hh, ?_⟩))
  exact mem_pairInputs (getElem?_pad_level hne' (by omega)) (getElem?_pad_level hne' hlen)

/-- **Climbing down from a node that holds a leaf.** A climb of `s` steps from height `j` that
ends at a node holding a leaf started at node `idx` of height `j`, and that node holds a leaf
too, unless it is the padding leaf; provided every input of the climb is collision-free with
the trie's inputs and hashes to a nonzero value. -/
theorem climb_pins (hne : items ≠ []) :
    ∀ (s j idx : Nat) (c : Bytes32) (sibs : List Bytes32), sibs.length = s → j + s ≤ n →
      (∀ b ∈ climbInputs hash c (halvings idx s) sibs,
        hash b ≠ Bytes32.zero ∧ ∀ a ∈ trieInputs hash items n, hash a = hash b → a = b) →
      c ≠ Bytes32.zero → (0 < j → c ≠ emptyNode hash) →
      idx / 2 ^ s * 2 ^ (j + s) < items.length →
      climb hash c (halvings idx s) sibs = trieNode hash (items.map hash) (j + s) (idx / 2 ^ s) →
      c = trieNode hash (items.map hash) j idx ∧
        (idx * 2 ^ j < items.length ∨ (j = 0 ∧ idx = items.length ∧ items.length % 2 = 1))
  | 0, j, idx, c, [], _, _, _, _, _, hreal, hclimb => by
    simp only [Nat.pow_zero, Nat.div_one, Nat.mul_one, Nat.add_zero] at hreal hclimb
    exact ⟨hclimb, Or.inl (by simpa using hreal)⟩
  | s + 1, j, idx, c, sib :: sibs, hlen, hjs, hin, hcz, hcE, hreal, hclimb => by
    let input :=
      if (idx : Int).tmod 2 = 0 then c.toBytes ++ sib.toBytes else sib.toBytes ++ c.toBytes
    have hinputs : climbInputs hash c (halvings idx (s + 1)) (sib :: sibs) =
        input :: climbInputs hash (hash input) (halvings (idx / 2 : Nat) s) sibs := rfl
    obtain ⟨hnz, hcf⟩ := hin input (by rw [hinputs]; exact List.mem_cons_self _ _)
    -- the input holds `c`, which is not zero, so the node above is not the padding node
    have hup : hash input ≠ emptyNode hash := fun h => by
      have hzz := hcf _ zeros_mem_trieInputs h.symm
      simp only [input] at hzz
      split at hzz
      · exact hcz (Bytes32.append_inj hzz).1.symm
      · exact hcz (Bytes32.append_inj hzz).2.symm
    have hdiv : idx / 2 / 2 ^ s = idx / 2 ^ (s + 1) := by rw [Nat.div_div_eq_div_mul, Nat.pow_succ']
    have ih := climb_pins hne s (j + 1) (idx / 2) (hash input) sibs (by simpa using hlen) (by omega)
      (fun b hb => hin b (by rw [hinputs]; exact List.mem_cons_of_mem _ hb)) hnz (fun _ => hup)
      (by rwa [hdiv, show j + 1 + s = j + (s + 1) by omega])
      (by rw [hdiv, show j + 1 + s = j + (s + 1) by omega, ← hclimb, halvings_natCast_succ,
        climb_cons, parentHash_ite])
    obtain ⟨hnode, hreal' | ⟨hj0, -⟩⟩ := ih
    swap
    · omega
    -- the node above holds a leaf: it hashes its two children, one of which is `c`
    rw [trieNode_succ_of_lt (by simpa using hreal')] at hnode
    have hpair := hcf _ (pair_mem_trieInputs hne (by omega) hreal') hnode.symm
    have hc : c = trieNode hash (items.map hash) j idx := by
      simp only [input, tmod_two_natCast_eq_zero] at hpair
      split at hpair
      · rw [Nat.mul_div_cancel' (Nat.dvd_of_mod_eq_zero ‹_›)] at hpair
        exact (Bytes32.append_inj hpair).1.symm
      · rw [show 2 * (idx / 2) + 1 = idx by omega] at hpair
        exact (Bytes32.append_inj hpair).2.symm
    refine ⟨hc, ?_⟩
    by_cases hin' : idx * 2 ^ j < items.length
    · exact Or.inl hin'
    · -- a node holding no leaf is the padding node, which only the bottom of the climb may be
      have hE : c = emptyNode hash := hc.trans (trieNode_of_le (by simpa using hin'))
      rcases Nat.eq_zero_or_pos j with rfl | hj
      · simp only [Nat.pow_zero, Nat.mul_one, Nat.zero_add, Nat.pow_one] at hin' hreal'
        exact Or.inr ⟨rfl, by omega, by omega⟩
      · exact absurd hE (hcE hj)

end Pin

/-! ### Soundness of `VerifyMerkleProof` -/

/-- **What an accepted proof proves.** On a trie of at least two levels, however many items it
was built from, if `VerifyMerkleProof(item, i, proof)` accepts a proof of one entry per level
below the root, the hash being collision-free between what the trie hashed and what the
verification hashed, and nothing the verification hashed having the zero value, then `item` is
the item at `|i| mod 2 ^ (depth - 1)`, or that index is the padding leaf of an odd leaf layer
and `item` is the 64 zero bytes. -/
theorem verifyMerkleProof_sound (items : List Bytes) (depth : Int) (item : Bytes) (idx : Int)
    (proof : List Bytes32) (hd : 2 ≤ depth) (hlen : (proof.length : Int) = depth - 1)
    (hcf : ∀ a ∈ trieInputs hash items (depth - 1).toNat, ∀ b ∈ verifyInputs hash item idx proof,
      hash a = hash b → a = b)
    (hnz : ∀ b ∈ verifyInputs hash item idx proof, hash b ≠ Bytes32.zero)
    (m : MerkleTrie) (hm : generateTrieFromItems hash items depth = some (.ok m))
    (hv : m.verifyMerkleProof hash item idx proof = some true) :
    items[idx.natAbs % 2 ^ (depth - 1).toNat]? = some item ∨
      (items.length % 2 = 1 ∧ idx.natAbs % 2 ^ (depth - 1).toNat = items.length ∧
        item = Bytes32.zero.toBytes ++ Bytes32.zero.toBytes) := by
  have hne : items ≠ [] := by
    rintro rfl
    simp [generateTrieFromItems] at hm
  have hn : proof.length = (depth - 1).toNat := by omega
  obtain rfl : m = trie hash items (depth - 1).toNat := by
    rw [generateTrieFromItems_eq hne (by omega)] at hm
    exact (Except.ok.inj (Option.some.inj hm)).symm
  set k := idx.natAbs % 2 ^ (depth - 1).toNat with hk
  have hklt : k < 2 ^ (depth - 1).toNat := Nat.mod_lt _ (Nat.two_pow_pos _)
  have hp : proof ≠ [] := List.ne_nil_of_length_pos (by omega)
  have hevens := evens_halvings idx proof.length
  rw [hn] at hevens
  -- the climb of the accepted proof ends at the root
  have hroot : climb hash (hash item) (halvings k (depth - 1).toNat) proof =
      trieNode hash (items.map hash) (0 + (depth - 1).toNat) (k / 2 ^ (depth - 1).toNat) := by
    rw [verifyMerkleProof_natAbs_mod, verifyMerkleProof_eq _ _ _ hp, root_trie_eq_trieNode hne,
      hn] at hv
    simp only [Option.map_some', Option.some.injEq, beq_iff_eq] at hv
    rw [Nat.zero_add, Nat.div_eq_of_lt hklt]
    exact hv.symm
  have hinputs : ∀ b ∈ climbInputs hash (hash item) (halvings k (depth - 1).toNat) proof,
      hash b ≠ Bytes32.zero ∧
        ∀ a ∈ trieInputs hash items (depth - 1).toNat, hash a = hash b → a = b := by
    intro b hb
    rw [← climbInputs_congr _ _ hevens, ← hn] at hb
    exact ⟨hnz b (List.mem_cons_of_mem _ hb), fun a ha => hcf a ha b (List.mem_cons_of_mem _ hb)⟩
  have hitem : item ∈ verifyInputs hash item idx proof := List.mem_cons_self _ _
  obtain ⟨hleaf, hk' | ⟨-, hkN, hodd⟩⟩ := climb_pins hne (depth - 1).toNat 0 k (hash item) proof hn
    (by omega) hinputs (hnz item hitem) (fun h => absurd h (Nat.lt_irrefl 0))
    (by rw [Nat.div_eq_of_lt hklt]; simpa using List.length_pos.mpr hne) hroot
  · -- an item's leaf: the item itself
    have hkN : k < items.length := by simpa using hk'
    left
    rw [List.getElem?_eq_getElem hkN]
    congr 1
    refine hcf _ (item_mem_trieInputs hkN) _ hitem ?_
    rw [hleaf, trieNode_zero_of_lt hkN]
  · -- the padding leaf: the 64 zero bytes
    refine Or.inr ⟨hodd, hkN, (hcf _ zeros_mem_trieInputs _ hitem ?_).symm⟩
    rw [hleaf, trieNode_of_le (by simp [hkN])]
    rfl

set_option maxRecDepth 1024 in
/-- The honest proof of the first of two items, checked at index `0`. -/
theorem verifyMerkleProof_sound_first_of_two :
    ([[1], [2]] : List Bytes)[(0 : Int).natAbs % 2 ^ ((2 : Int) - 1).toNat]? = some [1] ∨
      (([[1], [2]] : List Bytes).length % 2 = 1 ∧
        (0 : Int).natAbs % 2 ^ ((2 : Int) - 1).toNat = ([[1], [2]] : List Bytes).length ∧
        ([1] : Bytes) = Bytes32.zero.toBytes ++ Bytes32.zero.toBytes) :=
  @verifyMerkleProof_sound sampleHash [[1], [2]] 2 [1] 0 [sampleHash [2]] (by decide) (by decide)
    (by decide) (by decide) _ (generateTrieFromItems_eq (by decide) (by decide)) (by decide)

set_option maxRecDepth 1024 in
/-- **An index past the items verifies**: over two items and two levels, index `2` accepts the
first item with its honest proof, though the hash is collision-free on everything hashed. -/
theorem verifyMerkleProof_accepts_index_past_items :
    (∀ a ∈ trieInputs sampleHash [[1], [2]] 1 ++ verifyInputs sampleHash [1] 2 [sampleHash [2]],
      ∀ b ∈ trieInputs sampleHash [[1], [2]] 1 ++ verifyInputs sampleHash [1] 2 [sampleHash [2]],
        sampleHash a = sampleHash b → a = b) ∧
    (∃ m, generateTrieFromItems sampleHash [[1], [2]] 2 = some (.ok m) ∧
      m.verifyMerkleProof sampleHash [1] 2 [sampleHash [2]] = some true) ∧
    ¬ ((2 : Int) < ([[1], [2]] : List Bytes).length) :=
  ⟨by decide, ⟨_, generateTrieFromItems_eq (by decide) (by decide), by decide⟩, by decide⟩

/-! ### Inputs accepted at an inner node and at the padding leaf -/

/-- **A pair of leaves verifies one level up.** On a trie of at least three levels, split the
proof `MerkleProof` gives item `i` into its first entry `sib` and the rest: the 64 bytes of
the item's leaf and `sib`, in the order the parity of `i` says, are accepted at index `i / 2`
with the rest, a proof one entry shorter than the trie has levels below the root. -/
theorem verifyMerkleProof_leaf_pair (items : List Bytes) (depth : Int) (i : Nat)
    (hd : 3 ≤ depth) (hcap : items.length ≤ 2 ^ (depth - 1).toNat) (hi : i < items.length)
    (hleaf : hash items[i] ≠ Bytes32.zero) :
    ∃ m sib proof, generateTrieFromItems hash items depth = some (.ok m) ∧
      m.merkleProof i = some (.ok (sib :: proof)) ∧ (proof.length : Int) = depth - 2 ∧
      m.verifyMerkleProof hash
        (if i % 2 = 0 then (hash items[i]).toBytes ++ sib.toBytes
         else sib.toBytes ++ (hash items[i]).toBytes) (i / 2 : Nat) proof = some true := by
  have hne : items ≠ [] := List.ne_nil_of_length_pos (by omega)
  obtain ⟨n, hn⟩ : ∃ n, (depth - 1).toNat = n + 1 := ⟨(depth - 1).toNat - 1, by omega⟩
  rw [hn] at hcap
  have hleafi : (pad (emptyNode hash) (items.map hash))[i]? = some (hash items[i]) :=
    getElem?_pad_of_eq_some (by simp [hi])
  -- the pair hashes to the parent of leaf `i`, which climbs to the root
  have hclimb := @climb_siblings hash _ (items.map hash) n 1 (i / 2) _ (climb_step hleafi)
  rw [Nat.div_div_eq_div_mul, ← Nat.pow_succ', Nat.div_eq_of_lt (by omega), Nat.add_comm,
    parentHash_ite] at hclimb
  exact ⟨trie hash items (n + 1), _, siblings hash (emptyNode hash) (items.map hash) 1 (i / 2) n,
    hn ▸ generateTrieFromItems_eq hne (by omega), merkleProof_trie_of_lt hi hleaf,
    by rw [length_siblings]; omega,
    verifyMerkleProof_trie_of_climb (by omega) (length_siblings ..) hclimb⟩

/-- The first of two items over three levels: its leaf and its neighbour's, as one item, are
accepted at index `0` with a proof of one entry. -/
theorem verifyMerkleProof_leaf_pair_first_of_two : ∃ m sib proof,
    generateTrieFromItems sampleHash [[1], [2]] 3 = some (.ok m) ∧
      m.merkleProof (0 : Nat) = some (.ok (sib :: proof)) ∧ (proof.length : Int) = 3 - 2 ∧
      m.verifyMerkleProof sampleHash
        (if 0 % 2 = 0 then (sampleHash [1]).toBytes ++ sib.toBytes
         else sib.toBytes ++ (sampleHash [1]).toBytes) (0 / 2 : Nat) proof = some true :=
  @verifyMerkleProof_leaf_pair sampleHash [[1], [2]] 3 0 (by decide) (by decide) (by decide)
    (by decide)

/-- **The 64 zero bytes verify at the padding index.** On an odd number of items and at least
two levels, when `parentHash(zero, zero)` is not the zero value, `MerkleProof` gives the index
just past the items a proof, and `VerifyMerkleProof` accepts the 64 zero bytes at that index,
where no item is, with it. -/
theorem verifyMerkleProof_zeros_at_padding (items : List Bytes) (depth : Int) (hd : 2 ≤ depth)
    (hcap : items.length ≤ 2 ^ (depth - 1).toNat) (hodd : items.length % 2 = 1)
    (he : emptyNode hash ≠ Bytes32.zero) :
    ∃ m proof, generateTrieFromItems hash items depth = some (.ok m) ∧
      m.merkleProof items.length = some (.ok proof) ∧
      m.verifyMerkleProof hash (Bytes32.zero.toBytes ++ Bytes32.zero.toBytes) items.length proof =
        some true := by
  have hne : items ≠ [] := List.ne_nil_of_length_pos (by omega)
  obtain ⟨n, hn⟩ : ∃ n, (depth - 1).toNat = n + 1 := ⟨(depth - 1).toNat - 1, by omega⟩
  rw [hn] at hcap
  have heven : 2 ^ (n + 1) % 2 = 0 := Nat.mul_mod_left _ _
  have hpad : (pad (emptyNode hash) (items.map hash))[items.length]? = some (emptyNode hash) := by
    rw [← List.length_map items hash]
    exact getElem?_pad_length (by simpa using hodd)
  -- the padding leaf climbs to the root
  have hclimb := @climb_siblings_pad hash _ (items.map hash) n 0 items.length _ hpad
  rw [Nat.div_eq_of_lt (by omega), Nat.zero_add] at hclimb
  exact ⟨_, _, hn ▸ generateTrieFromItems_eq hne (by omega),
    merkleProof_trie_padding hodd (by omega) he,
    verifyMerkleProof_trie_of_climb (by omega) (length_siblings ..) hclimb⟩

/-- One item over two levels: the 64 zero bytes are accepted at index `1`. -/
theorem verifyMerkleProof_zeros_at_padding_one_item : ∃ m proof,
    generateTrieFromItems sampleHash [[1]] 2 = some (.ok m) ∧
      m.merkleProof [[1]].length = some (.ok proof) ∧
      m.verifyMerkleProof sampleHash (Bytes32.zero.toBytes ++ Bytes32.zero.toBytes)
        [[1]].length proof = some true :=
  @verifyMerkleProof_zeros_at_padding sampleHash [[1]] 2 (by decide) (by decide) (by decide)
    (by decide)

end Prysm.Trieutil
