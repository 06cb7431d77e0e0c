import Prysm.Trieutil.Bytes
import Mathlib.Data.List.Nodup
import Mathlib.Algebra.Group.Nat.Basic

/-!
# The messages of the operations service, and the attestation bucket

The operations service of the beacon node keeps the attestations it receives in the beacon
database, each under the `HashProto` hash of the attestation, and removes them by the same key:
`SaveAttestation` puts an attestation under its key, replacing what was stored there, and
`DeleteAttestation` deletes whatever is stored under the key of the attestation it is given.
The database's code is not in the source. This module models the bucket as the service uses it,
a list of attestations no two of which share a key (`Prysm.Operations.AttestationPool`), with
the key function `hashutil.HashProto` as a parameter; the order in which the bucket lists its
attestations is not something any result below depends on.

The messages keep the fields the service reads: an attestation's slot, a block's slot and
body, the attestations of a body. The other fields are read only by `HashProto`, and stand here
as their encoding. A block's `Body` may be nil, and reading it then panics; an attestation here
always has its `Data`, which `removeEpochOldAttestations` and the sort of `PendingAttestations`
dereference without a check. Slots are `uint64` in the source and `UInt64` here: `slot - n`
wraps below zero, and `Prysm.Operations.le_sub_iff_of_lt` says what comparing with it then
means.
-/

namespace Prysm.Operations

/-- `pb.AttestationData`: its slot, and the other fields, which only `HashProto` reads. -/
structure AttestationData where
  slot : UInt64
  fields : Bytes
deriving DecidableEq, Repr

/-- `pb.Attestation`: its data, and the bitfields and signature, which only `HashProto` reads. -/
structure Attestation where
  data : AttestationData
  fields : Bytes
deriving DecidableEq, Repr

/-- `pb.BeaconBlockBody`: the attestations it includes. -/
structure BeaconBlockBody where
  attestations : List Attestation
deriving DecidableEq, Repr

/-- `pb.BeaconBlock`: its slot and its body, `none` where the `Body` pointer is nil. -/
structure BeaconBlock where
  slot : UInt64
  body : Option BeaconBlockBody
deriving DecidableEq, Repr

/-- `pb.VoluntaryExit`, which the service only hashes and stores. -/
structure VoluntaryExit where
  fields : Bytes
deriving DecidableEq, Repr

/-- A stand-in for `HashProto` on attestations, to run the model on small inputs. -/
def sampleHashProto (a : Attestation) : Bytes32 :=
  sampleHash (a.data.slot.toUInt8 :: a.data.fields ++ a.fields)

/-! ### Slots -/

theorem uint64_le_iff (a b : UInt64) : a ≤ b ↔ a.toNat ≤ b.toNat := by
  rw [UInt64.le_def, BitVec.le_def]
  rfl

theorem uint64_toNat_sub (a b : UInt64) : (a - b).toNat = (2 ^ 64 - b.toNat + a.toNat) % 2 ^ 64 :=
  BitVec.toNat_sub _ _

/-- Below `slot - n`, when the subtraction does not wrap. -/
theorem le_sub_iff_of_le {slot n : UInt64} (s : UInt64) (h : n ≤ slot) :
    s ≤ slot - n ↔ s.toNat + n.toNat ≤ slot.toNat := by
  have hn : n.toNat < 2 ^ 64 := n.toNat_lt_size
  have hslot : slot.toNat < 2 ^ 64 := slot.toNat_lt_size
  rw [uint64_le_iff] at h
  rw [uint64_le_iff, uint64_toNat_sub, Nat.mod_eq_sub_mod (by omega), Nat.mod_eq_of_lt (by omega)]
  omega

/-- **Below `slot - n`, when the subtraction wraps**: every `s` up to `slot + 2 ^ 64 - n`. -/
theorem le_sub_iff_of_lt {slot n : UInt64} (s : UInt64) (h : slot < n) :
    s ≤ slot - n ↔ s.toNat + n.toNat ≤ slot.toNat + 2 ^ 64 := by
  have hn : n.toNat < 2 ^ 64 := n.toNat_lt_size
  rw [← UInt64.not_le, uint64_le_iff] at h
  rw [uint64_le_iff, uint64_toNat_sub, Nat.mod_eq_of_lt (by omega)]
  omega

/-! ### The attestation bucket -/

/-- The attestation bucket of the beacon database: the stored attestations, no two under one
key. -/
structure AttestationPool (hashProto : Attestation → Bytes32) where
  attestations : List Attestation
  nodup_keys : (attestations.map hashProto).Nodup

namespace AttestationPool

variable {hashProto : Attestation → Bytes32}

/-- The empty bucket. -/
def empty : AttestationPool hashProto := ⟨[], List.nodup_nil⟩

/-- `BeaconDB.DeleteAttestation`: what is stored under the attestation's key is deleted. -/
def delete (p : AttestationPool hashProto) (a : Attestation) : AttestationPool hashProto :=
  ⟨p.attestations.filter (hashProto · != hashProto a),
    p.nodup_keys.sublist ((List.filter_sublist _).map hashProto)⟩

/-- `BeaconDB.SaveAttestation`: the attestation is stored under its key, in place of what was
stored there. -/
def save (p : AttestationPool hashProto) (a : Attestation) : AttestationPool hashProto :=
  ⟨(p.delete a).attestations ++ [a], by
    rw [List.map_append, List.nodup_append]
    refine ⟨(p.delete a).nodup_keys, List.nodup_singleton _, ?_⟩
    simp [List.disjoint_singleton, delete]⟩

/-- The deletions of a loop over `as`, one per attestation. -/
def deleteAll (p : AttestationPool hashProto) (as : List Attestation) : AttestationPool hashProto :=
  as.foldl delete p

/-- The deletions of a loop over `as`, of those that `old` picks. -/
def deleteIf (old : Attestation → Prop) [DecidablePred old] (p : AttestationPool hashProto)
    (as : List Attestation) : AttestationPool hashProto :=
  as.foldl (fun q a => if old a then q.delete a else q) p

variable {p : AttestationPool hashProto} {a b : Attestation}

@[simp] theorem attestations_empty : (empty : AttestationPool hashProto).attestations = [] := rfl

@[simp] theorem mem_delete :
    b ∈ (p.delete a).attestations ↔ b ∈ p.attestations ∧ hashProto b ≠ hashProto a := by
  simp [delete]

@[simp] theorem mem_save :
    b ∈ (p.save a).attestations ↔
      (b ∈ p.attestations ∧ hashProto b ≠ hashProto a) ∨ b = a := by
  simp [save]

theorem mem_save_of_key_ne (hx : hashProto a ≠ hashProto b) :
    b ∈ (p.save a).attestations ↔ b ∈ p.attestations := by
  rw [mem_save]
  constructor
  · rintro (⟨hb, -⟩ | rfl)
    · exact hb
    · exact absurd rfl hx
  · exact fun hb => Or.inl ⟨hb, hx.symm⟩

/-- **A key names one attestation of the bucket.** -/
theorem eq_of_key_eq (ha : a ∈ p.attestations) (hb : b ∈ p.attestations)
    (h : hashProto a = hashProto b) : a = b :=
  List.inj_on_of_nodup_map p.nodup_keys ha hb h

theorem deleteIf_cons_of_pos (old : Attestation → Prop) [DecidablePred old]
    {as : List Attestation} (h : old a) :
    p.deleteIf old (a :: as) = (p.delete a).deleteIf old as := by
  simp only [deleteIf, List.foldl_cons, if_pos h]

theorem deleteIf_cons_of_neg (old : Attestation → Prop) [DecidablePred old]
    {as : List Attestation} (h : ¬ old a) : p.deleteIf old (a :: as) = p.deleteIf old as := by
  simp only [deleteIf, List.foldl_cons, if_neg h]

@[simp] theorem mem_deleteAll {as : List Attestation} :
    b ∈ (p.deleteAll as).attestations ↔
      b ∈ p.attestations ∧ hashProto b ∉ as.map hashProto := by
  induction as generalizing p with
  | nil => simp [deleteAll]
  | cons a as ih =>
    show b ∈ ((p.delete a).deleteAll as).attestations ↔ _
    rw [ih, mem_delete, List.map_cons, List.mem_cons, not_or, and_assoc]

theorem mem_deleteIf {old : Attestation → Prop} [DecidablePred old] {as : List Attestation} :
    b ∈ (p.deleteIf old as).attestations ↔
      b ∈ p.attestations ∧ ∀ a ∈ as, old a → hashProto b ≠ hashProto a := by
  induction as generalizing p with
  | nil => simp [deleteIf]
  | cons a as ih =>
    by_cases h : old a
    · simp [deleteIf_cons_of_pos old h, ih, h, and_assoc]
    · simp [deleteIf_cons_of_neg old h, ih, h]

/-- **Deleting a bucket's old attestations from it** leaves exactly those that are not old. -/
theorem mem_deleteIf_self {old : Attestation → Prop} [DecidablePred old] :
    b ∈ (p.deleteIf old p.attestations).attestations ↔ b ∈ p.attestations ∧ ¬ old b := by
  rw [mem_deleteIf]
  constructor
  · rintro ⟨hb, h⟩
    exact ⟨hb, fun hold => h b hb hold rfl⟩
  · rintro ⟨hb, hnot⟩
    refine ⟨hb, fun a ha hold heq => hnot ?_⟩
    rwa [eq_of_key_eq hb ha heq]

end AttestationPool

end Prysm.Operations
