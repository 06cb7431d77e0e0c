import Prysm.Operations.Pool
import Mathlib.Data.List.Sort

/-!
# The operations service: saving, removing and handing out attestations

The functions of `beacon-chain/operations/service.go` on the part of the beacon database they
use (`Prysm.Operations.BeaconDB`). Every database call fails while the store is failing, with
the error the store gives (`Prysm.Operations.BeaconDB.fault`); the loops of the service stop at
the first error and return it, as the source does. Here the store fails or not for a whole
function; `Prysm.Operations.Interleaving` runs the handling of a block call by call, where any
one call may fail.

One iteration of `removeOperations` on a processed block (`Prysm.Operations.removeOperations`)
runs `handleProcessedBlock` under `SafelyHandleMessage`, then `removePendingAttestations` on the
block's attestations and `removeEpochOldAttestations` at the block's slot. On a store that does
not fail it deletes exactly the attestations under the key of one of the block's, and those
with `a.Data.Slot ≤ b.Slot - SlotsPerEpoch` in `uint64` arithmetic
(`Prysm.Operations.mem_removeOperations`). From the first epoch on that is "older than one epoch"
(`Prysm.Operations.mem_removeOperations_of_le`); below it the subtraction wraps, and every
attestation up to slot `b.Slot + 2 ^ 64 - SlotsPerEpoch` goes, the recent ones included
(`Prysm.Operations.removeOperations_deletes_recent`).

`PendingAttestations` hands out the stored attestations of lowest slot, at most
`MaxAttestations` of them, in ascending slot order (`Prysm.Operations.pendingAttestations_spec`).
`params.BeaconConfig()` is not in the source: `SlotsPerEpoch` and `MaxAttestations` are
parameters.
-/

namespace Prysm.Operations

/-- `messagehandler.SafelyHandleMessage`: a panic of the handler (`none`) is recovered and
logged. The handlers it runs here panic before they write, so the state is left as it was. -/
def safelyHandleMessage {α σ : Type} (fn : α → σ → Option σ) (msg : α) (s : σ) : σ :=
  (fn msg s).getD s

/-- The part of the beacon database the service uses: the attestation bucket, the exit bucket
(which the service only writes), and the error every call returns while the store fails. A run
of events changes it between events (`Prysm.Operations.Event.storeFault`); a failure of some
calls of one handling and not others is `Prysm.Operations.Call.failedRemoval`. -/
structure BeaconDB (hashProto : Attestation → Bytes32) where
  attestationPool : AttestationPool hashProto
  exits : List VoluntaryExit
  fault : Option String

namespace BeaconDB

variable {hashProto : Attestation → Bytes32}

/-- A call to the store: its error while the store fails, `x` otherwise. -/
def call {α : Type} (db : BeaconDB hashProto) (x : α) : Except String α :=
  match db.fault with
  | some e => .error e
  | none => .ok x

/-- `BeaconDB.Attestations`: every stored attestation. -/
def attestations (db : BeaconDB hashProto) : Except String (List Attestation) :=
  db.call db.attestationPool.attestations

/-- `BeaconDB.DeleteAttestation`. -/
def deleteAttestation (db : BeaconDB hashProto) (a : Attestation) :
    Except String (BeaconDB hashProto) :=
  db.call { db with attestationPool := db.attestationPool.delete a }

/-- `BeaconDB.SaveAttestation`. -/
def saveAttestation (db : BeaconDB hashProto) (a : Attestation) :
    Except String (BeaconDB hashProto) :=
  db.call { db with attestationPool := db.attestationPool.save a }

/-- `BeaconDB.SaveExit`: the exit is stored, once. -/
def saveExit (db : BeaconDB hashProto) (e : VoluntaryExit) : Except String (BeaconDB hashProto) :=
  db.call { db with exits := if e ∈ db.exits then db.exits else db.exits ++ [e] }

@[simp] theorem call_of_fault_none {α : Type} {db : BeaconDB hashProto} (h : db.fault = none)
    (x : α) : db.call x = pure x := by
  simp only [call, h]
  rfl

theorem call_of_fault_some {α : Type} {db : BeaconDB hashProto} {e : String}
    (h : db.fault = some e) (x : α) : db.call x = .error e := by
  simp [call, h]

end BeaconDB

variable {hashProto : Attestation → Bytes32}

/-! ### The two removals -/

/-- `Service.removePendingAttestations`: each attestation is deleted in turn, and the first
error is returned. -/
def removePendingAttestations (db : BeaconDB hashProto) :
    List Attestation → Except String (BeaconDB hashProto)
  | [] => .ok db
  | a :: as => do
    let db ← db.deleteAttestation a
    removePendingAttestations db as

/-- The loop of `Service.removeEpochOldAttestations` over the attestations it read: each
one epoch older than `slot`, `slot - SlotsPerEpoch ≥ a.Data.Slot` in `uint64` arithmetic, is
deleted, and the first error is returned. -/
def removeOldLoop (slotsPerEpoch slot : UInt64) (db : BeaconDB hashProto) :
    List Attestation → Except String (BeaconDB hashProto)
  | [] => .ok db
  | a :: as => do
    let db ← if slot - slotsPerEpoch ≥ a.data.slot then db.deleteAttestation a else pure db
    removeOldLoop slotsPerEpoch slot db as

/-- `Service.removeEpochOldAttestations`: the stored attestations are read once, then the old
ones are deleted. -/
def removeEpochOldAttestations (slotsPerEpoch : UInt64) (db : BeaconDB hashProto) (slot : UInt64) :
    Except String (BeaconDB hashProto) := do
  let attestations ← db.attestations
  removeOldLoop slotsPerEpoch slot db attestations

/-- `Service.handleProcessedBlock`: reading the attestations of a nil body panics; an error of
the removal is logged and dropped. -/
def handleProcessedBlock (block : BeaconBlock) (db : BeaconDB hashProto) :
    Option (BeaconDB hashProto) := do
  let body ← block.body
  match removePendingAttestations db body.attestations with
  | .ok db => some db
  | .error _ => some db

/-- One iteration of the loop of `Service.removeOperations`, on a processed block: `none` when it
panics (the block's body is read again outside `SafelyHandleMessage`), and otherwise the database
and whether the loop goes on, which it does not after an error of either removal. -/
def removeOperations (slotsPerEpoch : UInt64) (db : BeaconDB hashProto) (block : BeaconBlock) :
    Option (BeaconDB hashProto × Bool) := do
  let db := safelyHandleMessage handleProcessedBlock block db
  let body ← block.body
  match removePendingAttestations db body.attestations with
  | .error _ => pure (db, false)
  | .ok db =>
    match removeEpochOldAttestations slotsPerEpoch db block.slot with
    | .error _ => pure (db, false)
    | .ok db => pure (db, true)

/-- `Service.handleAttestations`: the attestation is saved; an error is logged and dropped. -/
def handleAttestations (a : Attestation) (db : BeaconDB hashProto) : BeaconDB hashProto :=
  match db.saveAttestation a with
  | .ok db => db
  | .error _ => db

/-- `Service.handleValidatorExits`: the exit is saved; an error is logged and dropped. -/
def handleValidatorExits (e : VoluntaryExit) (db : BeaconDB hashProto) : BeaconDB hashProto :=
  match db.saveExit e with
  | .ok db => db
  | .error _ => db

/-! ### On a store that does not fail -/

section Healthy

variable {db : BeaconDB hashProto}

theorem removePendingAttestations_of_fault_none (h : db.fault = none) (as : List Attestation) :
    removePendingAttestations db as =
      .ok { db with attestationPool := db.attestationPool.deleteAll as } := by
  induction as generalizing db with
  | nil => rfl
  | cons a as ih =>
    simp only [removePendingAttestations, BeaconDB.deleteAttestation, BeaconDB.call_of_fault_none h,
      pure_bind]
    exact ih h

theorem removeOldLoop_of_fault_none (slotsPerEpoch slot : UInt64) (h : db.fault = none)
    (as : List Attestation) :
    removeOldLoop slotsPerEpoch slot db as =
      .ok { db with
        attestationPool :=
          db.attestationPool.deleteIf (fun a => a.data.slot ≤ slot - slotsPerEpoch) as } := by
  induction as generalizing db with
  | nil => rfl
  | cons a as ih =>
    by_cases hold : a.data.slot ≤ slot - slotsPerEpoch
    · simp only [removeOldLoop, ge_iff_le, hold, if_true, BeaconDB.deleteAttestation,
        BeaconDB.call_of_fault_none h, pure_bind,
        AttestationPool.deleteIf_cons_of_pos (fun a => a.data.slot ≤ slot - slotsPerEpoch) hold]
      exact ih h
    · simp only [removeOldLoop, ge_iff_le, hold, if_false, pure_bind,
        AttestationPool.deleteIf_cons_of_neg (fun a => a.data.slot ≤ slot - slotsPerEpoch) hold]
      exact ih h

theorem handleAttestations_of_fault_none (a : Attestation) (h : db.fault = none) :
    handleAttestations a db = { db with attestationPool := db.attestationPool.save a } := by
  simp only [handleAttestations, BeaconDB.saveAttestation, BeaconDB.call_of_fault_none h]
  rfl

theorem handleValidatorExits_attestationPool (e : VoluntaryExit) (db : BeaconDB hashProto) :
    (handleValidatorExits e db).attestationPool = db.attestationPool ∧
      (handleValidatorExits e db).fault = db.fault := by
  cases hf : db.fault <;> simp [handleValidatorExits, BeaconDB.saveExit, BeaconDB.call, hf]

theorem removeEpochOldAttestations_of_fault_none (slotsPerEpoch slot : UInt64)
    (h : db.fault = none) :
    removeEpochOldAttestations slotsPerEpoch db slot =
      .ok { db with
        attestationPool := db.attestationPool.deleteIf
          (fun a => a.data.slot ≤ slot - slotsPerEpoch) db.attestationPool.attestations } := by
  simp only [removeEpochOldAttestations, BeaconDB.attestations, BeaconDB.call_of_fault_none h,
    pure_bind]
  exact removeOldLoop_of_fault_none slotsPerEpoch slot h _

/-- The iteration of `removeOperations` on a store that does not fail: the block's attestations
are deleted twice, by `handleProcessedBlock` and again, and then the old ones. -/
theorem removeOperations_of_fault_none (slotsPerEpoch : UInt64) {block : BeaconBlock}
    {body : BeaconBlockBody} (h : db.fault = none) (hb : block.body = some body) :
    removeOperations slotsPerEpoch db block = some ({ db with
      attestationPool :=
        ((db.attestationPool.deleteAll body.attestations).deleteAll body.attestations).deleteIf
          (fun a => a.data.slot ≤ block.slot - slotsPerEpoch)
          ((db.attestationPool.deleteAll body.attestations).deleteAll
            body.attestations).attestations },
      true) := by
  have hhandle : safelyHandleMessage handleProcessedBlock block db =
      { db with attestationPool := db.attestationPool.deleteAll body.attestations } := by
    simp only [safelyHandleMessage, handleProcessedBlock, hb,
      removePendingAttestations_of_fault_none h]
    rfl
  simp only [removeOperations, hhandle, hb, removePendingAttestations_of_fault_none,
    removeEpochOldAttestations_of_fault_none, h]
  rfl

/-- **One iteration on a store that does not fail** goes on, and keeps exactly the attestations
under no key of the block's that are not one epoch older than its slot, in `uint64`
arithmetic: `¬ a.Data.Slot ≤ b.Slot - SlotsPerEpoch`. -/
theorem mem_removeOperations (slotsPerEpoch : UInt64) (db : BeaconDB hashProto)
    (block : BeaconBlock) (body : BeaconBlockBody) (h : db.fault = none)
    (hb : block.body = some body) :
    ∃ db', removeOperations slotsPerEpoch db block = some (db', true) ∧ db'.fault = none ∧
      db'.exits = db.exits ∧ ∀ a, a ∈ db'.attestationPool.attestations ↔
        a ∈ db.attestationPool.attestations ∧
          hashProto a ∉ body.attestations.map hashProto ∧
            ¬ a.data.slot ≤ block.slot - slotsPerEpoch := by
  refine ⟨_, removeOperations_of_fault_none slotsPerEpoch h hb, h, rfl, fun a => ?_⟩
  simp only [AttestationPool.mem_deleteIf_self, AttestationPool.mem_deleteAll]
  tauto

/-- **From the first epoch on, one iteration keeps exactly the attestations under no key of the
block's with `a.Data.Slot + SlotsPerEpoch > b.Slot`**, over unbounded integers. -/
theorem mem_removeOperations_of_le (slotsPerEpoch : UInt64) (db : BeaconDB hashProto)
    (block : BeaconBlock) (body : BeaconBlockBody) (h : db.fault = none)
    (hb : block.body = some body) (hslot : slotsPerEpoch ≤ block.slot) :
    ∃ db', removeOperations slotsPerEpoch db block = some (db', true) ∧
      ∀ a, a ∈ db'.attestationPool.attestations ↔
        a ∈ db.attestationPool.attestations ∧
          hashProto a ∉ body.attestations.map hashProto ∧
            block.slot.toNat < a.data.slot.toNat + slotsPerEpoch.toNat := by
  obtain ⟨db', hrun, -, -, hmem⟩ := mem_removeOperations slotsPerEpoch db block body h hb
  refine ⟨db', hrun, fun a => ?_⟩
  rw [hmem, le_sub_iff_of_le _ hslot, Nat.not_le]

theorem mem_removeOperations_of_le_two_slots : ∃ db', removeOperations 64
      (⟨⟨[⟨⟨0, []⟩, []⟩, ⟨⟨90, []⟩, []⟩], by decide⟩, [], none⟩ :
        BeaconDB sampleHashProto)
      ⟨100, some ⟨[]⟩⟩ = some (db', true) ∧
    ∀ a, a ∈ db'.attestationPool.attestations ↔
      a ∈ [(⟨⟨0, []⟩, []⟩ : Attestation), ⟨⟨90, []⟩, []⟩] ∧
        sampleHashProto a ∉ ([] : List Attestation).map sampleHashProto ∧
          (100 : UInt64).toNat < a.data.slot.toNat + (64 : UInt64).toNat :=
  mem_removeOperations_of_le 64
    ⟨⟨[⟨⟨0, []⟩, []⟩, ⟨⟨90, []⟩, []⟩], by decide⟩, [], none⟩ ⟨100, some ⟨[]⟩⟩ ⟨[]⟩ rfl rfl
    (by decide)

/-- **Below the first epoch, one iteration deletes every attestation up to the block's slot**,
though it is less than an epoch old: `b.Slot - SlotsPerEpoch` wraps to
`b.Slot + 2 ^ 64 - SlotsPerEpoch`. -/
theorem removeOperations_deletes_recent (slotsPerEpoch : UInt64) (db : BeaconDB hashProto)
    (block : BeaconBlock) (body : BeaconBlockBody) (h : db.fault = none)
    (hb : block.body = some body) (hslot : block.slot < slotsPerEpoch) (a : Attestation)
    (ha : a.data.slot ≤ block.slot) :
    block.slot.toNat < a.data.slot.toNat + slotsPerEpoch.toNat ∧
      ∃ db', removeOperations slotsPerEpoch db block = some (db', true) ∧
        a ∉ db'.attestationPool.attestations := by
  have hn : slotsPerEpoch.toNat < 2 ^ 64 := slotsPerEpoch.toNat_lt_size
  rw [uint64_le_iff] at ha
  rw [← UInt64.not_le, uint64_le_iff] at hslot
  obtain ⟨db', hrun, -, -, hmem⟩ := mem_removeOperations slotsPerEpoch db block body h hb
  refine ⟨by omega, db', hrun, fun hmem' => ((hmem a).1 hmem').2.2 ?_⟩
  rw [le_sub_iff_of_lt _ (by rw [← UInt64.not_le, uint64_le_iff]; exact hslot)]
  omega

/-- At genesis, with 64 slots an epoch: the attestation of slot `0` goes with the empty block of
slot `0`. -/
theorem removeOperations_deletes_recent_at_genesis :
    (0 : UInt64).toNat < (0 : UInt64).toNat + (64 : UInt64).toNat ∧
      ∃ db', removeOperations 64
          (⟨⟨[⟨⟨0, []⟩, []⟩], by decide⟩, [], none⟩ :
            BeaconDB fun _ => Bytes32.zero)
          ⟨0, some ⟨[]⟩⟩ = some (db', true) ∧
        (⟨⟨0, []⟩, []⟩ : Attestation) ∉ db'.attestationPool.attestations :=
  removeOperations_deletes_recent 64 ⟨⟨[⟨⟨0, []⟩, []⟩], by decide⟩, [], none⟩
    ⟨0, some ⟨[]⟩⟩ ⟨[]⟩ rfl rfl (by decide) ⟨⟨0, []⟩, []⟩ (by decide)

end Healthy

/-! ### On a failing store, and on a nil body -/

/-- **A failing store ends the loop**: the iteration changes nothing and `removeOperations`
returns. -/
theorem removeOperations_of_fault_some (slotsPerEpoch : UInt64) {db : BeaconDB hashProto}
    {block : BeaconBlock} {body : BeaconBlockBody} {e : String} (h : db.fault = some e)
    (hb : block.body = some body) :
    removeOperations slotsPerEpoch db block = some (db, false) := by
  have hremove : ∀ as, removePendingAttestations db as = .ok db ∨
      removePendingAttestations db as = .error e := by
    rintro (_ | ⟨a, as⟩)
    · exact Or.inl rfl
    · right
      simp only [removePendingAttestations, BeaconDB.deleteAttestation,
        BeaconDB.call_of_fault_some h]
      rfl
  have hhandle : safelyHandleMessage handleProcessedBlock block db = db := by
    simp only [safelyHandleMessage, handleProcessedBlock, hb]
    rcases hremove body.attestations with hr | hr <;> simp [hr]
  rcases hremove body.attestations with hr | hr
  · simp [removeOperations, hhandle, hb, hr, removeEpochOldAttestations, BeaconDB.attestations,
      BeaconDB.call_of_fault_some h]
    rfl
  · simp [removeOperations, hhandle, hb, hr]

theorem handleAttestations_of_fault_some (a : Attestation) {db : BeaconDB hashProto} {e : String}
    (h : db.fault = some e) : handleAttestations a db = db := by
  simp only [handleAttestations, BeaconDB.saveAttestation, BeaconDB.call_of_fault_some h]

/-- **A nil body panics the loop**: `SafelyHandleMessage` recovers `handleProcessedBlock`'s
panic, but `removeOperations` reads `block.Body.Attestations` again outside it. -/
theorem removeOperations_of_body_none (slotsPerEpoch : UInt64) (db : BeaconDB hashProto)
    {block : BeaconBlock} (hb : block.body = none) :
    removeOperations slotsPerEpoch db block = none := by
  simp [removeOperations, hb]

/-! ### Handing out attestations -/

/-- The order `PendingAttestations` sorts in. `sort.Slice` with the comparison `<` of slots puts
them in ascending slot order; it is not stable, and the model sorts stably, which is one of the
orders it may return. -/
def SlotLe (a b : Attestation) : Prop := a.data.slot ≤ b.data.slot

instance : DecidableRel SlotLe :=
  fun a b => inferInstanceAs (Decidable (a.data.slot ≤ b.data.slot))

instance : IsTotal Attestation SlotLe := ⟨fun a b => UInt64.le_total a.data.slot b.data.slot⟩

instance : IsTrans Attestation SlotLe := ⟨fun _ _ _ => UInt64.le_trans⟩

/-- `Service.PendingAttestations`: the stored attestations in ascending slot order, the first
`MaxAttestations` of them. -/
def pendingAttestations (maxAttestations : UInt64) (db : BeaconDB hashProto) :
    Except String (List Attestation) :=
  match db.attestations with
  | .error _ => .error "could not retrieve attestations from DB"
  | .ok attestations => .ok ((attestations.insertionSort SlotLe).take maxAttestations.toNat)

/-- **`PendingAttestations` hands out the stored attestations of lowest slot**, each once and in
ascending slot order, as many as are stored up to `MaxAttestations`. -/
theorem pendingAttestations_spec (maxAttestations : UInt64) (db : BeaconDB hashProto)
    (h : db.fault = none) :
    ∃ l, pendingAttestations maxAttestations db = .ok l ∧
      l.length = min maxAttestations.toNat db.attestationPool.attestations.length ∧
      l.Sorted SlotLe ∧ l.Nodup ∧ (∀ a ∈ l, a ∈ db.attestationPool.attestations) ∧
      ∀ a ∈ db.attestationPool.attestations, a ∉ l → ∀ b ∈ l, SlotLe b a := by
  have hperm := List.perm_insertionSort SlotLe db.attestationPool.attestations
  have hsorted := List.sorted_insertionSort SlotLe db.attestationPool.attestations
  rw [← List.take_append_drop maxAttestations.toNat
    (db.attestationPool.attestations.insertionSort SlotLe)] at hperm hsorted
  refine ⟨_, by simp [pendingAttestations, BeaconDB.attestations, BeaconDB.call, h], ?_,
    (List.pairwise_append.1 hsorted).1, ?_, fun a ha => hperm.subset (List.mem_append_left _ ha),
    fun a ha hna b hb => (List.pairwise_append.1 hsorted).2.2 b hb a ?_⟩
  · simp [List.length_insertionSort]
  · exact (hperm.nodup_iff.2 (db.attestationPool.nodup_keys.of_map _)).sublist
      (List.sublist_append_left _ _)
  · exact (List.mem_append.1 (hperm.symm.subset ha)).resolve_left hna

/-- Three attestations and room for two in a block: those of slots `3` and `5` are handed out. -/
theorem pendingAttestations_spec_three : ∃ l, pendingAttestations 2
      (⟨⟨[⟨⟨5, []⟩, []⟩, ⟨⟨9, []⟩, []⟩, ⟨⟨3, []⟩, []⟩], by decide⟩, [], none⟩ :
        BeaconDB sampleHashProto) = .ok l ∧
    l.length = min (2 : UInt64).toNat 3 ∧ l.Sorted SlotLe ∧ l.Nodup ∧
    (∀ a ∈ l, a ∈ [(⟨⟨5, []⟩, []⟩ : Attestation), ⟨⟨9, []⟩, []⟩, ⟨⟨3, []⟩, []⟩]) ∧
    ∀ a ∈ [(⟨⟨5, []⟩, []⟩ : Attestation), ⟨⟨9, []⟩, []⟩, ⟨⟨3, []⟩, []⟩],
      a ∉ l → ∀ b ∈ l, SlotLe b a :=
  pendingAttestations_spec 2
    ⟨⟨[⟨⟨5, []⟩, []⟩, ⟨⟨9, []⟩, []⟩, ⟨⟨3, []⟩, []⟩], by decide⟩, [], none⟩ rfl

/-- A failing store: `PendingAttestations` returns its own error. -/
theorem pendingAttestations_of_fault_some (maxAttestations : UInt64) {db : BeaconDB hashProto}
    {e : String} (h : db.fault = some e) :
    pendingAttestations maxAttestations db = .error "could not retrieve attestations from DB" := by
  simp [pendingAttestations, BeaconDB.attestations, BeaconDB.call, h]

end Prysm.Operations
