import Prysm.Trieutil.Trie

/-!
# The layers of a generated trie

`GenerateTrieFromItems` never fails on nonempty items and a depth `≥ 0`: every layer it
hashes has been padded to even length first, so `partition` never cuts past the end, and
every padding node it reads exists. This file says what it returns instead, without `Option`:
the layers `Prysm.Trieutil.stack` builds from the leaves by `Prysm.Trieutil.pad` and
`Prysm.Trieutil.hashPairs`, reversed (`Prysm.Trieutil.generateTrieFromItems_eq`).

Layer `h` above the leaves, before it is padded, is `Prysm.Trieutil.level`; the trie stores
it padded below the top and unpadded at the top. Its width is `(N - 1) / 2 ^ h + 1` for `N`
leaves (`Prysm.Trieutil.length_level`), the form of `⌈N / 2 ^ h⌉` that recurses cleanly.
Every proof about a generated trie goes through these functions and never unfolds the
`Option` code again.
-/

namespace Prysm.Trieutil

variable (hash : Bytes → Bytes32)

/-- The padding node `generateEmptyNodes` puts at every level: `parentHash(zero, zero)`. -/
def emptyNode : Bytes32 :=
  parentHash hash Bytes32.zero Bytes32.zero

/-- An odd layer with the padding node `e` appended, as the hashing loop leaves it. -/
def pad (e : Bytes32) (layer : List Bytes32) : List Bytes32 :=
  if layer.length % 2 = 1 then layer ++ [e] else layer

/-- The layer above an even layer: the `parentHash` of each consecutive pair. -/
def hashPairs : List Bytes32 → List Bytes32
  | a :: b :: rest => parentHash hash a b :: hashPairs rest
  | _ => []

/-- The layers the hashing loop stacks up in `n` rounds from `layer`, bottom first: each one
padded, except the last. -/
def stack (e : Bytes32) : Nat → List Bytes32 → List (List Bytes32)
  | 0, layer => [layer]
  | n + 1, layer => pad e layer :: stack e n (hashPairs hash (pad e layer))

/-- The layer `h` levels above `leaves`, before it is padded. -/
def level (e : Bytes32) (leaves : List Bytes32) : Nat → List Bytes32
  | 0 => leaves
  | h + 1 => hashPairs hash (pad e (level e leaves h))

/-- The trie `GenerateTrieFromItems` returns for nonempty items after `n` hashing rounds. -/
def trie (items : List Bytes) (n : Nat) : MerkleTrie :=
  ⟨(stack hash (emptyNode hash) n (items.map hash)).reverse⟩

variable {hash}

/-! ### Padding and pairing -/

section Pairing

variable {e : Bytes32} {layer : List Bytes32}

theorem length_pad : (pad e layer).length = layer.length + layer.length % 2 := by
  unfold pad
  split <;> simp <;> omega

theorem length_pad_mod_two : (pad e layer).length % 2 = 0 := by
  rw [length_pad]
  omega

theorem getElem?_pad_of_lt {j : Nat} (h : j < layer.length) : (pad e layer)[j]? = layer[j]? := by
  unfold pad
  split
  · exact List.getElem?_append_left h
  · rfl

theorem getElem?_pad_of_eq_some {j : Nat} {a : Bytes32} (h : layer[j]? = some a) :
    (pad e layer)[j]? = some a := by
  rw [getElem?_pad_of_lt (List.getElem?_eq_some_iff.mp h).1, h]

/-- The node an odd layer is padded with sits just past its items. -/
theorem getElem?_pad_length (h : layer.length % 2 = 1) : (pad e layer)[layer.length]? = some e := by
  simp [pad, h]

theorem length_hashPairs :
    ∀ layer : List Bytes32, (hashPairs hash layer).length = layer.length / 2
  | a :: b :: rest => by simp [hashPairs, length_hashPairs rest]; omega
  | [] => rfl
  | [_] => by simp [hashPairs]

/-- Node `j` of the layer above is the `parentHash` of nodes `2j` and `2j + 1`. -/
theorem getElem?_hashPairs : ∀ {layer : List Bytes32} {j : Nat} {a b : Bytes32},
    layer[2 * j]? = some a → layer[2 * j + 1]? = some b →
      (hashPairs hash layer)[j]? = some (parentHash hash a b)
  | x :: y :: rest, 0, a, b, ha, hb => by simp_all [hashPairs]
  | x :: y :: rest, j + 1, a, b, ha, hb => by
    simp only [hashPairs, List.getElem?_cons_succ]
    exact getElem?_hashPairs (by simpa [Nat.mul_add] using ha) (by simpa [Nat.mul_add] using hb)
  | [], _, _, _, ha, _ => by simp at ha
  | [_], j, _, _, ha, hb => by simp at hb

/-- On an even layer `partition` does not panic, and `hashLayer` is `hashPairs`. -/
theorem hashLayer_of_even : ∀ {layer : List Bytes32}, layer.length % 2 = 0 →
    hashLayer hash layer = some (hashPairs hash layer)
  | [], _ => rfl
  | [_], h => by simp at h
  | a :: b :: rest, h => by
    have ih := hashLayer_of_even (by simp at h; omega : rest.length % 2 = 0)
    simp only [hashLayer, Option.map_eq_some'] at ih
    obtain ⟨chunks, hc, hrest⟩ := ih
    simp [hashLayer, partition, hc, hashPairs, ← hrest]

end Pairing

/-! ### The stack of layers -/

section Stack

variable {e : Bytes32}

@[simp] theorem level_zero (leaves : List Bytes32) : level hash e leaves 0 = leaves := rfl

theorem level_succ (leaves : List Bytes32) (h : Nat) :
    level hash e leaves (h + 1) = hashPairs hash (pad e (level hash e leaves h)) := rfl

/-- Climbing `h + 1` levels is climbing one, then `h` more. -/
theorem level_succ' (leaves : List Bytes32) :
    ∀ h, level hash e leaves (h + 1) = level hash e (hashPairs hash (pad e leaves)) h
  | 0 => rfl
  | h + 1 => by rw [level_succ, level_succ' leaves h, level_succ]

theorem length_stack : ∀ (n : Nat) (layer : List Bytes32), (stack hash e n layer).length = n + 1
  | 0, _ => rfl
  | n + 1, _ => by simp [stack, length_stack n]

/-- Below the top, the stack holds each level padded. -/
theorem getElem?_stack_of_lt : ∀ {n t : Nat} (layer : List Bytes32), t < n →
    (stack hash e n layer)[t]? = some (pad e (level hash e layer t))
  | n + 1, 0, _, _ => by simp [stack]
  | n + 1, t + 1, layer, h => by
    rw [stack, List.getElem?_cons_succ, getElem?_stack_of_lt _ (by omega), level_succ']

/-- The top of the stack is the last level, unpadded. -/
theorem getElem?_stack_top : ∀ (n : Nat) (layer : List Bytes32),
    (stack hash e n layer)[n]? = some (level hash e layer n)
  | 0, _ => rfl
  | n + 1, layer => by rw [stack, List.getElem?_cons_succ, getElem?_stack_top n, level_succ']

/-- **The width of a level**: `⌈N / 2 ^ h⌉` for `N` leaves, written so that it recurses. -/
theorem length_level {leaves : List Bytes32} (hne : leaves ≠ []) :
    ∀ h, (level hash e leaves h).length = (leaves.length - 1) / 2 ^ h + 1
  | 0 => by
    have := List.length_pos.mpr hne
    simp
    omega
  | h + 1 => by
    rw [level_succ, length_hashPairs, length_pad, length_level hne h, Nat.pow_succ,
      ← Nat.div_div_eq_div_mul]
    omega

end Stack

/-! ### What `GenerateTrieFromItems` returns -/

/-- The hashing loop never panics when every padding node it may read is there: it builds the
stack. -/
theorem growBranches_eq_stack {emptyNodes : List Bytes32} {e : Bytes32} :
    ∀ (i n : Nat) (layer : List Bytes32), (∀ t < n, emptyNodes[i + t]? = some e) →
      growBranches hash emptyNodes i n layer = some (stack hash e n layer)
  | _, 0, _, _ => rfl
  | i, n + 1, layer, he => by
    have hi : emptyNodes[i]? = some e := by simpa using he 0 (by omega)
    have heven : (pad e layer).length % 2 = 0 := length_pad_mod_two
    have hrest := growBranches_eq_stack (i + 1) n (hashPairs hash (pad e layer))
      (fun t ht => by simpa [Nat.add_right_comm, Nat.add_assoc] using he (t + 1) (by omega))
    rw [growBranches]
    by_cases hodd : layer.length % 2 = 1
    · have hp : pad e layer = layer ++ [e] := if_pos hodd
      rw [hp] at heven hrest
      simp [hodd, hi, hashLayer_of_even heven, hrest, stack, hp]
    · have hp : pad e layer = layer := if_neg hodd
      rw [hp] at heven hrest
      simp [hodd, hashLayer_of_even heven, hrest, stack, hp]

/-- **`GenerateTrieFromItems` on nonempty items and a depth `≥ 0`** returns the stack of
`depth - 1` rounds over the hashed items, root layer first. -/
theorem generateTrieFromItems_eq {items : List Bytes} {depth : Int} (hne : items ≠ [])
    (hd : 0 ≤ depth) :
    generateTrieFromItems hash items depth = some (.ok (trie hash items (depth - 1).toNat)) := by
  have hempty : generateEmptyNodes hash depth =
      some (List.replicate depth.toNat (emptyNode hash)) := by
    simp [generateEmptyNodes, emptyNode, Int.not_lt.mpr hd]
  have hgrow : growBranches hash (List.replicate depth.toNat (emptyNode hash)) 0
      (depth - 1).toNat (items.map hash) =
        some (stack hash (emptyNode hash) (depth - 1).toNat (items.map hash)) :=
    growBranches_eq_stack _ _ _ fun t ht => List.getElem?_replicate_of_lt (by omega)
  rw [generateTrieFromItems, if_neg hne, hempty]
  simp only [Option.bind_eq_bind, Option.some_bind, hgrow]
  rfl

end Prysm.Trieutil
