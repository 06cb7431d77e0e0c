import Prysm.Trieutil.Bytes
import Mathlib.Data.Int.Bitwise

/-!
# The Merkle trie of `shared/trieutil`, as the code computes it

`GenerateTrieFromItems` hashes each item into a leaf and then, `depth - 1` times, pads the
current layer to an even length with a node of `generateEmptyNodes` and hashes it pairwise
into the layer above. The layers are stored root first. `MerkleProof(i)` reads, in each layer
below the root, the sibling of the node above leaf `i`; `VerifyMerkleProof` folds a leaf with
such a list of siblings and compares the result with `Root()`.

Each function below is the Go function of the same name, with a panic as `none` and Go's
`(value, error)` pair as an `Except String`. The three loops of the source are the three
structural recursions `Prysm.Trieutil.growBranches` (the hashing loop of
`GenerateTrieFromItems`), `Prysm.Trieutil.halvings` (`BranchIndices`) and
`Prysm.Trieutil.climb` (`VerifyMerkleProof`); `Prysm.Trieutil.readProof` is the second loop
of `MerkleProof`. Go's `int` is `Int`: its `/` and `%` truncate toward zero (`Int.tdiv`,
`Int.tmod`) and its `^` is the two's-complement exclusive or (`Int.xor`).

Everything here is parametric in `hash`, the `hashutil.Hash` the sources do not include.
-/

namespace Prysm.Trieutil

/-- `MerkleTrie`: the layers of a trie, root layer first. -/
structure MerkleTrie where
  /-- The field `branches`. -/
  branches : List (List Bytes32)
  deriving DecidableEq

variable (hash : Bytes → Bytes32)

/-- `parentHash`: the hash of the concatenation of a left and a right node. -/
def parentHash (left right : Bytes32) : Bytes32 :=
  hash (left.toBytes ++ right.toBytes)

/-- `partition`: a layer cut into the chunks `layer[i:i+2]`, each as the pair it holds. On
an odd layer the last slice runs past the length; Go bounds a slice by its capacity, and the
model panics there. Every layer the code partitions has even length
(`Prysm.Trieutil.growBranches_eq_stack`), where the two bounds do not differ. -/
def partition : List Bytes32 → Option (List (Bytes32 × Bytes32))
  | [] => some []
  | [_] => none
  | a :: b :: rest => (partition rest).map ((a, b) :: ·)

/-- `hashLayer`: the layer above, one `parentHash` per chunk. -/
def hashLayer (layer : List Bytes32) : Option (List Bytes32) :=
  (partition layer).map (List.map fun c => parentHash hash c.1 c.2)

/-- `generateEmptyNodes`: `depth` padding nodes, each of them `parentHash(zero, zero)`. The
`make` of a negative length panics. -/
def generateEmptyNodes (depth : Int) : Option (List Bytes32) :=
  if depth < 0 then none
  else some (List.replicate depth.toNat (parentHash hash Bytes32.zero Bytes32.zero))

/-- The hashing loop of `GenerateTrieFromItems`, from iteration `i` with `n` iterations left.
Iteration `i` only touches `branches[i]`, the last layer built, which is `layer` here: it pads
an odd `layer` with `emptyNodes[i]` and appends its `hashLayer`. The result is the list of
layers from `branches[i]` up, bottom first. -/
def growBranches (emptyNodes : List Bytes32) :
    Nat → Nat → List Bytes32 → Option (List (List Bytes32))
  | _, 0, layer => some [layer]
  | i, n + 1, layer => do
    let layer ← if layer.length % 2 = 1 then (goIndex emptyNodes i).map (layer ++ [·])
      else some layer
    let top ← hashLayer hash layer
    let rest ← growBranches emptyNodes (i + 1) n top
    pure (layer :: rest)

/-- `GenerateTrieFromItems`: the layers grown from the hashed items, reversed so that the
root layer comes first. -/
def generateTrieFromItems (items : List Bytes) (depth : Int) : Option (Except String MerkleTrie) :=
  if items = [] then some (.error "no items provided to generate Merkle trie")
  else do
    let emptyNodes ← generateEmptyNodes hash depth
    let branches ← growBranches hash emptyNodes 0 (depth - 1).toNat (items.map hash)
    pure (.ok ⟨branches.reverse⟩)

/-- The loop of `BranchIndices`: `idx` and its successive halvings, `n` values in all. -/
def halvings : Int → Nat → List Int
  | _, 0 => []
  | idx, n + 1 => idx :: halvings (idx.tdiv 2) n

/-- `BranchIndices`: the index of a node and of each of its ancestors, `depth` of them. The
`make` of a negative length panics, and so does the write of `indices[0]` when `depth` is
zero. -/
def branchIndices (merkleIndex depth : Int) : Option (List Int) :=
  if depth ≤ 0 then none else some (halvings merkleIndex depth.toNat)

/-- `Root`: the first node of the first layer. -/
def MerkleTrie.root (m : MerkleTrie) : Option Bytes32 := do
  let top ← goIndex m.branches 0
  goIndex top 0

/-- The loop of `VerifyMerkleProof`: the node is hashed with each proof entry in turn, on the
left when the matching branch index is even and on the right otherwise. -/
def climb : Bytes32 → List Int → List Bytes32 → Bytes32
  | node, idx :: idxs, sib :: sibs =>
    climb (if idx.tmod 2 = 0 then parentHash hash node sib else parentHash hash sib node) idxs sibs
  | node, _, _ => node

/-- `VerifyMerkleProof`: the item folded with the proof is the root. -/
def MerkleTrie.verifyMerkleProof (m : MerkleTrie) (item : Bytes) (merkleIndex : Int)
    (proof : List Bytes32) : Option Bool := do
  let indices ← branchIndices merkleIndex proof.length
  let node := climb hash (hash item) indices proof
  let root ← m.root
  pure (root == node)

/-- The second loop of `MerkleProof`, from `proof[j]` on: entry `j` is read at
`proofIndices[j]` in the layer `m.branches[len(m.branches)-1-j]`. -/
def readProof (branches : List (List Bytes32)) : Nat → List Int → Option (List Bytes32)
  | _, [] => some []
  | j, k :: ks => do
    let layer ← goIndex branches (branches.length - 1 - j)
    let node ← goIndex layer k
    let rest ← readProof branches (j + 1) ks
    pure (node :: rest)

/-- `MerkleProof`: the sibling, found by flipping the last bit of the index, of the node above
the leaf in every layer below the root. -/
def MerkleTrie.merkleProof (m : MerkleTrie) (merkleIndex : Int) :
    Option (Except String (List Bytes32)) := do
  let lastLevel ← goIndex m.branches (m.branches.length - 1)
  if merkleIndex < 0 ∨ lastLevel.length ≤ merkleIndex ∨
      goIndex lastLevel merkleIndex = some Bytes32.zero then
    return .error "merkle index out of range in trie"
  let indices ← branchIndices merkleIndex m.branches.length
  let proofIndices := indices.dropLast.map (Int.xor · 1)
  let proof ← readProof m.branches 0 proofIndices
  return .ok proof

end Prysm.Trieutil
