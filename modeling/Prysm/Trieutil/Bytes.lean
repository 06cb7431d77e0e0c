import Mathlib.Data.List.Basic

/-!
# Byte strings, hash values and Go's checked indexing

The trie of `shared/trieutil` handles two kinds of bytes. The items it is built from,
and everything it hands to `hashutil.Hash`, are byte slices `[]byte`; what `Hash` returns,
and so every node of a trie, is a fixed array `[32]byte`. The first is a list of bytes
(`Prysm.Bytes`); the second is a list of bytes that carries its length
(`Prysm.Bytes32`), so that a node of the wrong size cannot be built.

`hashutil.Hash` itself is not part of the repository's sources: the development takes it
as a parameter, a function `Bytes → Bytes32` about which nothing is assumed unless a
statement says so.

Go checks every index: `s[i]` with `i < 0` or `i ≥ len(s)` panics. A model of a function
that may panic returns an `Option`, `none` standing for the panic, and `Prysm.goIndex` is
the one index operation the models use, with Go's signed `int` as its index.
-/

namespace Prysm

/-- A Go byte slice, `[]byte`. -/
abbrev Bytes := List UInt8

/-- A Go byte array `[32]byte`: a value of `hashutil.Hash`, and a node of a trie. -/
structure Bytes32 where
  /-- The slice `b[:]` of the array. -/
  toBytes : Bytes
  /-- An array has exactly thirty-two bytes. -/
  length_toBytes : toBytes.length = 32
  deriving DecidableEq

namespace Bytes32

/-- The zero value `[32]byte{}`. -/
def zero : Bytes32 :=
  ⟨List.replicate 32 0, List.length_replicate 32 0⟩

/-- Two arrays are equal when their bytes are. -/
theorem ext {a b : Bytes32} (h : a.toBytes = b.toBytes) : a = b := by
  cases a
  cases b
  cases h
  rfl

/-- The bytes of two arrays, concatenated, determine both: the cut is at byte `32`. -/
theorem append_inj {a b c d : Bytes32} (h : a.toBytes ++ b.toBytes = c.toBytes ++ d.toBytes) :
    a = c ∧ b = d := by
  obtain ⟨hac, hbd⟩ := List.append_inj h (by rw [a.length_toBytes, c.length_toBytes])
  exact ⟨ext hac, ext hbd⟩

end Bytes32

/-- Go's index expression `s[i]` with a signed index: `none` where Go panics. -/
def goIndex {α : Type} (s : List α) (i : Int) : Option α :=
  if i < 0 then none else s[i.toNat]?

@[simp] theorem goIndex_natCast {α : Type} (s : List α) (n : Nat) :
    goIndex s (n : Int) = s[n]? := by
  rw [goIndex, if_neg (by omega), Int.toNat_ofNat]

@[simp] theorem goIndex_zero {α : Type} (s : List α) : goIndex s 0 = s[0]? :=
  goIndex_natCast s 0

theorem goIndex_neg {α : Type} (s : List α) {i : Int} (h : i < 0) : goIndex s i = none := by
  simp [goIndex, h]

/-- A stand-in for `hashutil.Hash` at which statements with hypotheses are evaluated: one
more than the length of the input, then the sum of its bytes, then zeros. -/
def sampleHash (bs : Bytes) : Bytes32 :=
  ⟨(bs.length.toUInt8 + 1) :: bs.foldl (· + ·) 0 :: List.replicate 30 0, rfl⟩

end Prysm
