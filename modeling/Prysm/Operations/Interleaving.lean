import Prysm.Operations.Run

/-!
# The two loops of the service, interleaved call by call

`saveOperations` and `removeOperations` are two goroutines over one database, and the database
runs their calls one at a time: a save may fall between any two calls of the handling of a
block, and any call of the handling may fail. This module runs the handling of one block call
by call (`Prysm.Operations.Removal`, `Prysm.Operations.removalStep`), interleaved with saves in
any order and with any of its database calls failing (`Prysm.Operations.failedStep`):
`Prysm.Operations.interleave`. A failed save changes nothing, and is a save left out.

* With no save and no failure in between, it is the iteration of `removeOperations` that
  `Prysm.Operations.step` runs whole (`Prysm.Operations.interleave_removals`); with every call
  failing, it is the iteration on a failing store (`Prysm.Operations.interleave_failedRemovals`).
* **Which failures end the loop** (`Prysm.Operations.interleave_stopped_iff`). A failed delete
  of `handleProcessedBlock` is logged and dropped, and the handling goes on; a failed call of the
  second `removePendingAttestations` or of `removeEpochOldAttestations` makes the loop return,
  keeping the deletes made before it. A failure that does not end the loop changes nothing at
  the end, since `removePendingAttestations` deletes the block's attestations again
  (`Prysm.Operations.interleave_done_of_failures`).
* **No stale survivor** (`Prysm.Operations.not_mem_interleave`). Whatever the saves and failures
  in between, once the handling has run to its end, an attestation under a key of the block's
  attestations, or one epoch older than its slot, is gone, unless an attestation under its key
  was saved meanwhile.
* **No lost save** (`Prysm.Operations.mem_interleave_of_save`). An attestation saved at any point
  of the handling is there at the end, unless saved over, when it is under no key of the
  block's attestations and not one epoch older than its slot, and no other attestation stored
  before shares its key.

Both rest on one notion: whether the rest of the handling deletes the key of an attestation
stored under it (`Prysm.Operations.Removal.Threatens`). A step of the handling keeps an
attestation it does not threaten, unthreatened; and keeps every threatened attestation
threatened, or deletes it, unless a failed call ends the loop.
-/

namespace Prysm.Operations

/-- Where the loop of `removeOperations` is in the handling of a block: the deletes left of
`handleProcessedBlock`, the deletes left of `removePendingAttestations`, the read of
`removeEpochOldAttestations`, the attestations left of its loop over what it read, the end, and
the loop returned after a failed call. -/
inductive Removal
  | handle (rest : List Attestation)
  | remove (rest : List Attestation)
  | read
  | removeOld (rest : List Attestation)
  | done
  | stopped

variable {hashProto : Attestation → Bytes32} {slotsPerEpoch slot : UInt64}
  {atts : List Attestation}

/-- One step of the loop of `removeOperations` on a block of slot `slot` whose body holds `atts`:
one database call, or the passage from one function to the next. -/
def removalStep (slotsPerEpoch slot : UInt64) (atts : List Attestation)
    (p : AttestationPool hashProto) : Removal → AttestationPool hashProto × Removal
  | .handle (a :: rest) => (p.delete a, .handle rest)
  | .handle [] => (p, .remove atts)
  | .remove (a :: rest) => (p.delete a, .remove rest)
  | .remove [] => (p, .read)
  | .read => (p, .removeOld p.attestations)
  | .removeOld (a :: rest) =>
    (if a.data.slot ≤ slot - slotsPerEpoch then p.delete a else p, .removeOld rest)
  | .removeOld [] => (p, .done)
  | .done => (p, .done)
  | .stopped => (p, .stopped)

/-- A step of the loop of `removeOperations` whose database call returns an error, which leaves
the bucket as it is. `handleProcessedBlock` returns the error of a delete, which is logged and
dropped, and the loop goes on to `removePendingAttestations`; an error of
`removePendingAttestations` or of `removeEpochOldAttestations` makes the loop return. A step
that makes no database call runs as it would. -/
def failedStep (slotsPerEpoch slot : UInt64) (atts : List Attestation)
    (p : AttestationPool hashProto) : Removal → AttestationPool hashProto × Removal
  | .handle (_ :: _) => (p, .remove atts)
  | .remove (_ :: _) | .read => (p, .stopped)
  | .removeOld (a :: rest) =>
    (p, if a.data.slot ≤ slot - slotsPerEpoch then .stopped else .removeOld rest)
  | r => removalStep slotsPerEpoch slot atts p r

/-- A call the database runs: a save of `saveOperations`, or a step of `removeOperations`, whose
database call succeeds or fails. -/
inductive Call
  | save (a : Attestation)
  | removal
  | failedRemoval

/-- The handling of a block, interleaved with saves. -/
def interleave (slotsPerEpoch slot : UInt64) (atts : List Attestation) :
    AttestationPool hashProto × Removal → List Call → AttestationPool hashProto × Removal
  | s, [] => s
  | s, .save a :: cs => interleave slotsPerEpoch slot atts (s.1.save a, s.2) cs
  | s, .removal :: cs =>
    interleave slotsPerEpoch slot atts (removalStep slotsPerEpoch slot atts s.1 s.2) cs
  | s, .failedRemoval :: cs =>
    interleave slotsPerEpoch slot atts (failedStep slotsPerEpoch slot atts s.1 s.2) cs

theorem interleave_append (s : AttestationPool hashProto × Removal) (cs₁ cs₂ : List Call) :
    interleave slotsPerEpoch slot atts s (cs₁ ++ cs₂) =
      interleave slotsPerEpoch slot atts (interleave slotsPerEpoch slot atts s cs₁) cs₂ := by
  induction cs₁ generalizing s with
  | nil => rfl
  | cons c cs ih => cases c <;> exact ih _

/-- Once the loop has returned, it stays returned. -/
theorem interleave_of_stopped {s : AttestationPool hashProto × Removal} (cs : List Call)
    (hs : s.2 = .stopped) : (interleave slotsPerEpoch slot atts s cs).2 = .stopped := by
  induction cs generalizing s with
  | nil => exact hs
  | cons c cs ih =>
    obtain ⟨p, r⟩ := s
    obtain rfl : r = .stopped := hs
    cases c <;> exact ih rfl

/-- Once the loop has returned, only saves change the bucket. -/
theorem interleave_stopped (q : AttestationPool hashProto) :
    ∀ cs : List Call, (∀ x, Call.save x ∉ cs) →
      interleave slotsPerEpoch slot atts (q, .stopped) cs = (q, .stopped)
  | [], _ => rfl
  | .save x :: _, hs => absurd (List.mem_cons_self _ _) (hs x)
  | .removal :: cs, hs | .failedRemoval :: cs, hs =>
    interleave_stopped q cs fun x hx => hs x (List.mem_cons_of_mem _ hx)

/-! ### With no save in between -/

theorem interleave_handle (p : AttestationPool hashProto) (rest : List Attestation) :
    interleave slotsPerEpoch slot atts (p, .handle rest) (List.replicate rest.length .removal) =
      (p.deleteAll rest, .handle []) := by
  induction rest generalizing p with
  | nil => rfl
  | cons a rest ih => exact ih (p.delete a)

theorem interleave_remove_append (q : AttestationPool hashProto) (l rest : List Attestation) :
    interleave slotsPerEpoch slot atts (q, .remove (l ++ rest)) (List.replicate l.length .removal) =
      (q.deleteAll l, .remove rest) := by
  induction l generalizing q with
  | nil => rfl
  | cons a l ih => exact ih (q.delete a)

theorem interleave_removeOld (p : AttestationPool hashProto) (rest : List Attestation) :
    interleave slotsPerEpoch slot atts (p, .removeOld rest) (List.replicate rest.length .removal) =
      (p.deleteIf (fun a => a.data.slot ≤ slot - slotsPerEpoch) rest, .removeOld []) := by
  induction rest generalizing p with
  | nil => rfl
  | cons a rest ih =>
    by_cases hold : a.data.slot ≤ slot - slotsPerEpoch
    · rw [AttestationPool.deleteIf_cons_of_pos (fun a => a.data.slot ≤ slot - slotsPerEpoch) hold]
      simp only [List.length_cons, List.replicate_succ, interleave, removalStep, if_pos hold]
      exact ih _
    · rw [AttestationPool.deleteIf_cons_of_neg (fun a => a.data.slot ≤ slot - slotsPerEpoch) hold]
      simp only [List.length_cons, List.replicate_succ, interleave, removalStep, if_neg hold]
      exact ih _

/-- **With no save in between, the handling is the iteration of `removeOperations`**: run call by
call to its end, it leaves the bucket that `removeOperations` leaves. -/
theorem interleave_removals (slotsPerEpoch : UInt64) (db : BeaconDB hashProto) (block : BeaconBlock)
    (body : BeaconBlockBody) (h : db.fault = none) (hb : block.body = some body) :
    ∃ n db', removeOperations slotsPerEpoch db block = some (db', true) ∧
      interleave slotsPerEpoch block.slot body.attestations
        (db.attestationPool, .handle body.attestations) (List.replicate n .removal) =
        (db'.attestationPool, .done) := by
  let p₁ := db.attestationPool.deleteAll body.attestations
  let p₂ := p₁.deleteAll body.attestations
  have h₁ : interleave slotsPerEpoch block.slot body.attestations (db.attestationPool,
      .handle body.attestations) (List.replicate body.attestations.length .removal ++ [.removal]) =
      (p₁, .remove body.attestations) := by
    rw [interleave_append, interleave_handle]
    rfl
  have h₂ : interleave slotsPerEpoch block.slot body.attestations (p₁, .remove body.attestations)
      (List.replicate body.attestations.length .removal ++ [.removal, .removal]) =
      (p₂, .removeOld p₂.attestations) := by
    have h := @interleave_remove_append hashProto slotsPerEpoch block.slot body.attestations p₁
      body.attestations []
    rw [List.append_nil] at h
    rw [interleave_append, h]
    rfl
  have h₃ : interleave slotsPerEpoch block.slot body.attestations (p₂, .removeOld p₂.attestations)
      (List.replicate p₂.attestations.length .removal ++ [.removal]) =
      (p₂.deleteIf (fun a => a.data.slot ≤ block.slot - slotsPerEpoch) p₂.attestations, .done) := by
    rw [interleave_append, interleave_removeOld]
    rfl
  refine ⟨body.attestations.length + 1 + (body.attestations.length + 2) +
    (p₂.attestations.length + 1), _, removeOperations_of_fault_none slotsPerEpoch h hb, ?_⟩
  have hcalls : List.replicate (body.attestations.length + 1 + (body.attestations.length + 2) +
      (p₂.attestations.length + 1)) Call.removal =
      (List.replicate body.attestations.length .removal ++ [.removal]) ++
        (List.replicate body.attestations.length .removal ++ [.removal, .removal]) ++
        (List.replicate p₂.attestations.length .removal ++ [.removal]) := by
    simp only [List.replicate_add]
    rfl
  rw [hcalls, interleave_append, interleave_append (db.attestationPool, .handle body.attestations),
    h₁, h₂, h₃]

/-- Attestations of slots `0` and `90`, and a block of slot `100` including the second, with 64
slots an epoch. -/
theorem interleave_removals_two_slots : ∃ n db', removeOperations 64
      (⟨⟨[⟨⟨0, []⟩, []⟩, ⟨⟨90, []⟩, []⟩], by decide⟩, [], none⟩ : BeaconDB sampleHashProto)
      ⟨100, some ⟨[⟨⟨90, []⟩, []⟩]⟩⟩ = some (db', true) ∧
    interleave 64 100 [⟨⟨90, []⟩, []⟩] (⟨[⟨⟨0, []⟩, []⟩, ⟨⟨90, []⟩, []⟩], by decide⟩,
      .handle [⟨⟨90, []⟩, []⟩]) (List.replicate n .removal) = (db'.attestationPool, .done) :=
  interleave_removals 64 ⟨⟨[⟨⟨0, []⟩, []⟩, ⟨⟨90, []⟩, []⟩], by decide⟩, [], none⟩
    ⟨100, some ⟨[⟨⟨90, []⟩, []⟩]⟩⟩ ⟨[⟨⟨90, []⟩, []⟩]⟩ rfl rfl

/-- **With every call failing, the handling is the iteration on a failing store**: the loop
returns at the second failed call, or at the failed read when the block holds no attestation,
and the bucket is left as it was. -/
theorem interleave_failedRemovals (slotsPerEpoch : UInt64) (db : BeaconDB hashProto)
    (block : BeaconBlock) (body : BeaconBlockBody) (e : String) (h : db.fault = some e)
    (hb : block.body = some body) (n : Nat) (hn : 3 ≤ n) :
    removeOperations slotsPerEpoch db block = some (db, false) ∧
      interleave slotsPerEpoch block.slot body.attestations
        (db.attestationPool, .handle body.attestations) (List.replicate n .failedRemoval) =
        (db.attestationPool, .stopped) := by
  refine ⟨removeOperations_of_fault_some slotsPerEpoch h hb, ?_⟩
  have h₃ : interleave slotsPerEpoch block.slot body.attestations
      (db.attestationPool, .handle body.attestations) (List.replicate 3 .failedRemoval) =
      (db.attestationPool, .stopped) := by
    cases body.attestations <;> rfl
  rw [← Nat.add_sub_cancel' hn, List.replicate_add, interleave_append, h₃]
  exact interleave_stopped _ _ (by simp [List.mem_replicate])

/-- A store failing at every call, and a block of slot `100` including an attestation of slot
`90`, with 64 slots an epoch. -/
theorem interleave_failedRemovals_three_calls :
    removeOperations 64 (⟨⟨[⟨⟨90, []⟩, []⟩], by decide⟩, [], some "disk"⟩ :
        BeaconDB sampleHashProto) ⟨100, some ⟨[⟨⟨90, []⟩, []⟩]⟩⟩ =
      some (⟨⟨[⟨⟨90, []⟩, []⟩], by decide⟩, [], some "disk"⟩, false) ∧
    interleave 64 100 [⟨⟨90, []⟩, []⟩] (⟨[⟨⟨90, []⟩, []⟩], by decide⟩, .handle [⟨⟨90, []⟩, []⟩])
        (List.replicate 3 .failedRemoval) =
      ((⟨[⟨⟨90, []⟩, []⟩], by decide⟩ : AttestationPool sampleHashProto), .stopped) :=
  interleave_failedRemovals 64 ⟨⟨[⟨⟨90, []⟩, []⟩], by decide⟩, [], some "disk"⟩
    ⟨100, some ⟨[⟨⟨90, []⟩, []⟩]⟩⟩ ⟨[⟨⟨90, []⟩, []⟩]⟩ "disk" rfl rfl 3 (by decide)

/-! ### What the rest of the handling deletes -/

/-- Whether the rest of the handling deletes the key of `a`, were `a` stored under it: a delete
of `handleProcessedBlock` or `removePendingAttestations` left under its key, or, with the read to
come, `a` one epoch older than the block's slot; after the read, an old attestation read under
its key and not yet passed. -/
def Removal.Threatens (hashProto : Attestation → Bytes32) (slotsPerEpoch slot : UInt64)
    (atts : List Attestation) (a : Attestation) : Removal → Prop
  | .handle rest => hashProto a ∈ (rest ++ atts).map hashProto ∨ a.data.slot ≤ slot - slotsPerEpoch
  | .remove rest => hashProto a ∈ rest.map hashProto ∨ a.data.slot ≤ slot - slotsPerEpoch
  | .read => a.data.slot ≤ slot - slotsPerEpoch
  | .removeOld rest => ∃ y ∈ rest, y.data.slot ≤ slot - slotsPerEpoch ∧ hashProto y = hashProto a
  | .done | .stopped => False

/-- A step of the handling only deletes. -/
theorem mem_of_mem_removalStep {p : AttestationPool hashProto} {r : Removal} {a : Attestation}
    (h : a ∈ (removalStep slotsPerEpoch slot atts p r).1.attestations) : a ∈ p.attestations := by
  match r with
  | .handle (_ :: _) | .remove (_ :: _) => exact (AttestationPool.mem_delete.1 h).1
  | .removeOld (x :: _) =>
    by_cases hold : x.data.slot ≤ slot - slotsPerEpoch
    · simp only [removalStep, if_pos hold] at h
      exact (AttestationPool.mem_delete.1 h).1
    · simpa [removalStep, if_neg hold] using h
  | .handle [] | .remove [] | .read | .removeOld [] | .done | .stopped => exact h

/-- **A step keeps an attestation it does not threaten**, and still does not threaten it. -/
theorem removalStep_keeps {p : AttestationPool hashProto} {r : Removal} {a : Attestation}
    (ha : a ∈ p.attestations) (hr : ¬ r.Threatens hashProto slotsPerEpoch slot atts a) :
    a ∈ (removalStep slotsPerEpoch slot atts p r).1.attestations ∧
      ¬ (removalStep slotsPerEpoch slot atts p r).2.Threatens
          hashProto slotsPerEpoch slot atts a := by
  match r with
  | .handle (x :: rest) =>
    simp only [Removal.Threatens, List.cons_append, List.map_cons, List.mem_cons, not_or] at hr
    refine ⟨AttestationPool.mem_delete.2 ⟨ha, hr.1.1⟩, ?_⟩
    simp only [removalStep, Removal.Threatens, not_or]
    exact ⟨hr.1.2, hr.2⟩
  | .handle [] => exact ⟨ha, by simpa [Removal.Threatens, removalStep] using hr⟩
  | .remove (x :: rest) =>
    simp only [Removal.Threatens, List.map_cons, List.mem_cons, not_or] at hr
    refine ⟨AttestationPool.mem_delete.2 ⟨ha, hr.1.1⟩, ?_⟩
    simp only [removalStep, Removal.Threatens, not_or]
    exact ⟨hr.1.2, hr.2⟩
  | .remove [] => exact ⟨ha, by simpa [Removal.Threatens, removalStep] using hr⟩
  | .read =>
    refine ⟨ha, ?_⟩
    rintro ⟨y, hy, hold, hkey⟩
    exact hr (AttestationPool.eq_of_key_eq hy ha hkey ▸ hold)
  | .removeOld (x :: rest) =>
    simp only [Removal.Threatens, List.mem_cons, exists_eq_or_imp, not_or] at hr
    refine ⟨?_, hr.2⟩
    by_cases hold : x.data.slot ≤ slot - slotsPerEpoch
    · simp only [removalStep, if_pos hold]
      exact AttestationPool.mem_delete.2 ⟨ha, fun h => hr.1 ⟨hold, h.symm⟩⟩
    · simpa [removalStep, if_neg hold] using ha
  | .removeOld [] | .done | .stopped => exact ⟨ha, id⟩

/-- **A step deletes a threatened attestation, or still threatens it.** -/
theorem removalStep_threatens {p : AttestationPool hashProto} {r : Removal} {a : Attestation}
    (h : a ∈ p.attestations → r.Threatens hashProto slotsPerEpoch slot atts a) :
    a ∈ (removalStep slotsPerEpoch slot atts p r).1.attestations →
      (removalStep slotsPerEpoch slot atts p r).2.Threatens
        hashProto slotsPerEpoch slot atts a := by
  match r with
  | .handle (x :: rest) =>
    simp only [removalStep, AttestationPool.mem_delete, Removal.Threatens, List.cons_append,
      List.map_cons, List.mem_cons] at h ⊢
    exact fun ⟨ha, hx⟩ => (h ha).imp_left (Or.resolve_left · hx)
  | .handle [] => simpa [Removal.Threatens, removalStep] using h
  | .remove (x :: rest) =>
    simp only [removalStep, AttestationPool.mem_delete, Removal.Threatens, List.map_cons,
      List.mem_cons] at h ⊢
    exact fun ⟨ha, hx⟩ => (h ha).imp_left (Or.resolve_left · hx)
  | .remove [] => simpa [Removal.Threatens, removalStep] using h
  | .read => exact fun ha => ⟨a, ha, h ha, rfl⟩
  | .removeOld (x :: rest) =>
    intro ha'
    obtain ⟨y, hy, hold, hkey⟩ := h (mem_of_mem_removalStep ha')
    rcases List.mem_cons.1 hy with rfl | hy
    · simp only [removalStep, if_pos hold, AttestationPool.mem_delete] at ha'
      exact absurd hkey.symm ha'.2
    · exact ⟨y, hy, hold, hkey⟩
  | .removeOld [] =>
    intro ha
    obtain ⟨_, hy, -⟩ := h (mem_of_mem_removalStep ha)
    cases hy
  | .done | .stopped => exact fun ha => h (mem_of_mem_removalStep ha)

/-- Where the handling of a block can be, all of whose stored and read attestations `seen`
holds of: a delete of either removal left of a suffix of the block's attestations, or the
stored attestations read, all seen. -/
def Removal.Reached (atts : List Attestation) (seen : Attestation → Prop) : Removal → Prop
  | .handle rest => rest <:+ atts
  | .remove rest => rest <:+ atts
  | .read | .done | .stopped => True
  | .removeOld rest => ∀ y ∈ rest, seen y

/-- A step of the handling stays where `Removal.Reached` says, on a bucket all seen. -/
theorem removalStep_reached {seen : Attestation → Prop} {p : AttestationPool hashProto}
    {r : Removal} (hpool : ∀ y ∈ p.attestations, seen y) (hs : r.Reached atts seen) :
    (removalStep slotsPerEpoch slot atts p r).2.Reached atts seen := by
  match r with
  | .handle (_ :: rest) | .remove (_ :: rest) => exact (List.suffix_cons _ rest).trans hs
  | .removeOld (_ :: rest) => exact fun y hy => hs y (List.mem_cons_of_mem _ hy)
  | .handle [] => exact List.suffix_refl atts
  | .remove [] | .removeOld [] | .done | .stopped => trivial
  | .read => exact hpool

/-- A failed call deletes nothing. -/
theorem failedStep_fst (p : AttestationPool hashProto) :
    ∀ r, (failedStep slotsPerEpoch slot atts p r).1 = p
  | .handle (_ :: _) | .remove (_ :: _) | .read | .removeOld (_ :: _) => rfl
  | .handle [] | .remove [] | .removeOld [] | .done | .stopped => rfl

/-- **A failed call keeps an attestation it does not threaten**, and still does not threaten it. -/
theorem failedStep_keeps {p : AttestationPool hashProto} {r : Removal} {a : Attestation}
    (ha : a ∈ p.attestations) (hr : ¬ r.Threatens hashProto slotsPerEpoch slot atts a) :
    a ∈ (failedStep slotsPerEpoch slot atts p r).1.attestations ∧
      ¬ (failedStep slotsPerEpoch slot atts p r).2.Threatens
          hashProto slotsPerEpoch slot atts a := by
  rw [failedStep_fst]
  refine ⟨ha, ?_⟩
  match r with
  | .handle (x :: rest) =>
    simp only [Removal.Threatens, List.map_append, List.mem_append, not_or] at hr
    simp only [failedStep, Removal.Threatens, not_or]
    exact ⟨hr.1.2, hr.2⟩
  | .remove (_ :: _) | .read => exact id
  | .removeOld (x :: rest) =>
    simp only [Removal.Threatens, List.mem_cons, exists_eq_or_imp, not_or] at hr
    by_cases hold : x.data.slot ≤ slot - slotsPerEpoch
    · simp only [failedStep, if_pos hold]
      exact id
    · simpa only [failedStep, if_neg hold] using hr.2
  | .handle [] | .remove [] | .removeOld [] | .done | .stopped => exact (removalStep_keeps ha hr).2

/-- **A failed call keeps a threatened attestation threatened, or ends the loop**, where the
deletes left of `handleProcessedBlock` are among the block's. -/
theorem failedStep_threatens {p : AttestationPool hashProto} {r : Removal} {a : Attestation}
    {seen : Attestation → Prop} (hr : r.Reached atts seen)
    (h : a ∈ p.attestations → r.Threatens hashProto slotsPerEpoch slot atts a) :
    a ∈ (failedStep slotsPerEpoch slot atts p r).1.attestations →
      (failedStep slotsPerEpoch slot atts p r).2.Threatens hashProto slotsPerEpoch slot atts a ∨
        (failedStep slotsPerEpoch slot atts p r).2 = .stopped := by
  rw [failedStep_fst]
  intro ha
  match r, hr with
  | .handle (x :: rest), hsuf =>
    left
    simp only [failedStep, Removal.Threatens]
    refine (h ha).imp_left fun hkey => ?_
    rw [List.map_append, List.mem_append] at hkey
    exact hkey.elim (fun hk => (hsuf.map hashProto).subset hk) id
  | .remove (_ :: _), _ | .read, _ | .stopped, _ => exact Or.inr rfl
  | .removeOld (x :: rest), _ =>
    by_cases hold : x.data.slot ≤ slot - slotsPerEpoch
    · simp [failedStep, hold]
    · simp only [failedStep, if_neg hold]
      obtain ⟨y, hy, hyold, hkey⟩ := h ha
      rcases List.mem_cons.1 hy with rfl | hy
      · exact absurd hyold hold
      · exact Or.inl ⟨y, hy, hyold, hkey⟩
  | .handle [], _ | .remove [], _ | .removeOld [], _ | .done, _ =>
    exact Or.inl (removalStep_threatens h ha)

theorem failedStep_reached {seen : Attestation → Prop} {p : AttestationPool hashProto}
    {r : Removal} (hpool : ∀ y ∈ p.attestations, seen y) (hs : r.Reached atts seen) :
    (failedStep slotsPerEpoch slot atts p r).2.Reached atts seen := by
  match r with
  | .handle (_ :: _) => exact List.suffix_refl atts
  | .remove (_ :: _) | .read => trivial
  | .removeOld (x :: rest) =>
    by_cases hold : x.data.slot ≤ slot - slotsPerEpoch
    · simp only [failedStep, if_pos hold]
      trivial
    · simp only [failedStep, if_neg hold]
      exact fun y hy => hs y (List.mem_cons_of_mem _ hy)
  | .handle [] | .remove [] | .removeOld [] | .done | .stopped => exact removalStep_reached hpool hs

/-! ### Along any interleaving -/

section Interleaved

variable {a : Attestation}

/-- Along calls that save nothing under the key of `a`, from where the handling can be, a
threatened attestation stays threatened, or goes, or the loop returns. -/
theorem interleave_threatens {s : AttestationPool hashProto × Removal} {cs : List Call}
    (hkey : ∀ x, Call.save x ∈ cs → hashProto x ≠ hashProto a)
    (hs : s.2.Reached atts fun _ => True)
    (h : a ∈ s.1.attestations →
      s.2.Threatens hashProto slotsPerEpoch slot atts a ∨ s.2 = .stopped) :
    a ∈ (interleave slotsPerEpoch slot atts s cs).1.attestations →
      (interleave slotsPerEpoch slot atts s cs).2.Threatens hashProto slotsPerEpoch slot atts a ∨
        (interleave slotsPerEpoch slot atts s cs).2 = .stopped := by
  induction cs generalizing s with
  | nil => exact h
  | cons c cs ih =>
    have hkey' : ∀ x, Call.save x ∈ cs → hashProto x ≠ hashProto a :=
      fun x hx => hkey x (List.mem_cons_of_mem _ hx)
    obtain ⟨p, r⟩ := s
    by_cases hr : r = .stopped
    · exact fun _ => Or.inr (interleave_of_stopped _ (by rw [hr]))
    have h' : a ∈ p.attestations → r.Threatens hashProto slotsPerEpoch slot atts a :=
      fun ha => (h ha).resolve_right hr
    cases c with
    | save x =>
      exact ih hkey' hs fun ha =>
        Or.inl (h' ((AttestationPool.mem_save_of_key_ne (hkey x (List.mem_cons_self _ _))).1 ha))
    | removal =>
      exact ih hkey' (removalStep_reached (fun _ _ => trivial) hs)
        fun ha => Or.inl (removalStep_threatens h' ha)
    | failedRemoval =>
      exact ih hkey' (failedStep_reached (fun _ _ => trivial) hs) (failedStep_threatens hs h')

/-- Along calls that save nothing under the key of `a`, an unthreatened attestation stays,
unthreatened. -/
theorem interleave_keeps {s : AttestationPool hashProto × Removal} {cs : List Call}
    (hkey : ∀ x, Call.save x ∈ cs → hashProto x ≠ hashProto a) (ha : a ∈ s.1.attestations)
    (hs : ¬ s.2.Threatens hashProto slotsPerEpoch slot atts a) :
    a ∈ (interleave slotsPerEpoch slot atts s cs).1.attestations ∧
      ¬ (interleave slotsPerEpoch slot atts s cs).2.Threatens
          hashProto slotsPerEpoch slot atts a := by
  induction cs generalizing s with
  | nil => exact ⟨ha, hs⟩
  | cons c cs ih =>
    have hkey' : ∀ x, Call.save x ∈ cs → hashProto x ≠ hashProto a :=
      fun x hx => hkey x (List.mem_cons_of_mem _ hx)
    cases c with
    | save x =>
      exact ih hkey'
        ((AttestationPool.mem_save_of_key_ne (hkey x (List.mem_cons_self _ _))).2 ha) hs
    | removal =>
      obtain ⟨ha', hs'⟩ := removalStep_keeps ha hs
      exact ih hkey' ha' hs'
    | failedRemoval =>
      obtain ⟨ha', hs'⟩ := failedStep_keeps ha hs
      exact ih hkey' ha' hs'

/-- At the end of the handling, a threatened attestation is gone, unless one under its key was
saved meanwhile. -/
theorem not_mem_interleave_of_threatens {s : AttestationPool hashProto × Removal} {cs : List Call}
    (hkey : ∀ x, Call.save x ∈ cs → hashProto x ≠ hashProto a)
    (hs : s.2.Reached atts fun _ => True)
    (h : a ∈ s.1.attestations → s.2.Threatens hashProto slotsPerEpoch slot atts a)
    (hdone : (interleave slotsPerEpoch slot atts s cs).2 = .done) :
    a ∉ (interleave slotsPerEpoch slot atts s cs).1.attestations := fun ha => by
  have hend := interleave_threatens hkey hs (fun ha => Or.inl (h ha)) ha
  rw [hdone] at hend
  exact hend.elim id fun h => nomatch h

/-- At the end of the handling, an attestation stored before it, with no save under its key in
between, is there exactly when the block neither holds its key nor makes it one epoch old. -/
theorem mem_interleave_iff_of_done {p : AttestationPool hashProto} {cs : List Call}
    {x : Attestation} (hdone : (interleave slotsPerEpoch slot atts (p, .handle atts) cs).2 = .done)
    (hx : x ∈ p.attestations) (hkey : ∀ y, Call.save y ∈ cs → hashProto y ≠ hashProto x) :
    x ∈ (interleave slotsPerEpoch slot atts (p, .handle atts) cs).1.attestations ↔
      hashProto x ∉ atts.map hashProto ∧ ¬ x.data.slot ≤ slot - slotsPerEpoch := by
  have hthreat : Removal.Threatens hashProto slotsPerEpoch slot atts x (.handle atts) ↔
      hashProto x ∈ atts.map hashProto ∨ x.data.slot ≤ slot - slotsPerEpoch := by
    simp [Removal.Threatens]
  rw [← not_or, ← hthreat]
  exact ⟨fun hmem hthr =>
      not_mem_interleave_of_threatens hkey (show Removal.Reached atts (fun _ => True) (.handle atts)
        from List.suffix_refl atts) (fun _ => hthr) hdone hmem,
    fun hthr => (interleave_keeps hkey hx hthr).1⟩

/-- **No stale survivor.** Whatever the saves and failed calls in between, once the handling of
a block has run to its end, no attestation under a key of the block's attestations, or one epoch
older than its slot, is stored, unless one under its key was saved meanwhile. -/
theorem not_mem_interleave (slotsPerEpoch slot : UInt64) (atts : List Attestation)
    (p : AttestationPool hashProto) (cs : List Call)
    (hdone : (interleave slotsPerEpoch slot atts (p, .handle atts) cs).2 = .done) (a : Attestation)
    (ha : hashProto a ∈ atts.map hashProto ∨ a.data.slot ≤ slot - slotsPerEpoch)
    (hkey : ∀ x, Call.save x ∈ cs → hashProto x ≠ hashProto a) :
    a ∉ (interleave slotsPerEpoch slot atts (p, .handle atts) cs).1.attestations := by
  have hthreat : Removal.Threatens hashProto slotsPerEpoch slot atts a (.handle atts) := by
    rcases ha with ha | ha
    · exact Or.inl (by rw [List.map_append]; exact List.mem_append_right _ ha)
    · exact Or.inr ha
  exact not_mem_interleave_of_threatens hkey
    (show Removal.Reached atts (fun _ => True) (.handle atts) from List.suffix_refl atts)
    (fun _ => hthreat) hdone

/-- An attestation of slot `50` saved right after the read, with 64 slots an epoch: the one of
slot `0` is gone at the end, all the same. -/
theorem not_mem_interleave_save_after_read : (⟨⟨0, []⟩, []⟩ : Attestation) ∉
    (interleave 64 100 []
      ((⟨[⟨⟨0, []⟩, []⟩, ⟨⟨90, []⟩, []⟩], by decide⟩ : AttestationPool sampleHashProto), .handle [])
      [.removal, .removal, .save ⟨⟨50, []⟩, []⟩, .removal, .removal, .removal, .removal,
        .removal]).1.attestations :=
  not_mem_interleave 64 100 [] ⟨[⟨⟨0, []⟩, []⟩, ⟨⟨90, []⟩, []⟩], by decide⟩
    [.removal, .removal, .save ⟨⟨50, []⟩, []⟩, .removal, .removal, .removal, .removal, .removal]
    (by rfl) ⟨⟨0, []⟩, []⟩ (Or.inr (by decide)) (by simp; decide)

/-- Along calls that save only seen attestations, the handling stays where `Removal.Reached`
says and stores only seen attestations. -/
theorem interleave_reached {seen : Attestation → Prop} {s : AttestationPool hashProto × Removal}
    {cs : List Call} (hsaves : ∀ x, Call.save x ∈ cs → seen x)
    (hpool : ∀ y ∈ s.1.attestations, seen y) (hs : s.2.Reached atts seen) :
    (∀ y ∈ (interleave slotsPerEpoch slot atts s cs).1.attestations, seen y) ∧
      (interleave slotsPerEpoch slot atts s cs).2.Reached atts seen := by
  induction cs generalizing s with
  | nil => exact ⟨hpool, hs⟩
  | cons c cs ih =>
    have hsaves' : ∀ x, Call.save x ∈ cs → seen x :=
      fun x hx => hsaves x (List.mem_cons_of_mem _ hx)
    obtain ⟨p, r⟩ := s
    cases c with
    | save x =>
      refine ih hsaves' (fun y hy => ?_) hs
      rcases AttestationPool.mem_save.1 hy with ⟨hy, -⟩ | rfl
      · exact hpool y hy
      · exact hsaves y (List.mem_cons_self _ _)
    | removal =>
      exact ih hsaves' (fun y hy => hpool y (mem_of_mem_removalStep hy))
        (removalStep_reached hpool hs)
    | failedRemoval =>
      exact ih hsaves' (by rwa [failedStep_fst]) (failedStep_reached hpool hs)

/-- **Where the handling does not threaten a save**: an attestation under no key of the block's
and not one epoch older than its slot is not threatened wherever the handling can be, when no
attestation it stored or read shares its key. -/
theorem not_threatens_of_reached {seen : Attestation → Prop} {r : Removal} {a : Attestation}
    (hatts : hashProto a ∉ atts.map hashProto) (hold : ¬ a.data.slot ≤ slot - slotsPerEpoch)
    (hcf : ∀ y, seen y → hashProto y = hashProto a → y = a) (hr : r.Reached atts seen) :
    ¬ r.Threatens hashProto slotsPerEpoch slot atts a := by
  have hnotin : ∀ rest, rest <:+ atts → hashProto a ∉ rest.map hashProto :=
    fun rest hrest hin => hatts ((hrest.map hashProto).subset hin)
  match r, hr with
  | .handle rest, hrest =>
    simp only [Removal.Threatens, List.map_append, List.mem_append, not_or]
    exact ⟨⟨hnotin rest hrest, hatts⟩, hold⟩
  | .remove rest, hrest =>
    simp only [Removal.Threatens, not_or]
    exact ⟨hnotin rest hrest, hold⟩
  | .read, _ => exact hold
  | .removeOld rest, hseen =>
    rintro ⟨y, hy, hyold, hykey⟩
    exact hold (hcf y (hseen y hy) hykey ▸ hyold)
  | .done, _ | .stopped, _ => exact id

/-- **No lost save.** An attestation saved at any point of the handling of a block is stored at
every later point, unless one under its key is saved after it, when it is under no key of the
block's attestations, is not one epoch older than the block's slot, and no other attestation
stored before it shares its key. -/
theorem mem_interleave_of_save (slotsPerEpoch slot : UInt64) (atts : List Attestation)
    (p : AttestationPool hashProto) (cs₁ cs₂ : List Call) (a : Attestation)
    (hatts : hashProto a ∉ atts.map hashProto) (hold : ¬ a.data.slot ≤ slot - slotsPerEpoch)
    (hcf : ∀ y, (y ∈ p.attestations ∨ Call.save y ∈ cs₁) → hashProto y = hashProto a → y = a)
    (hkey : ∀ x, Call.save x ∈ cs₂ → hashProto x ≠ hashProto a) :
    a ∈ (interleave slotsPerEpoch slot atts (p, .handle atts)
      (cs₁ ++ .save a :: cs₂)).1.attestations := by
  obtain ⟨-, hreached⟩ := @interleave_reached hashProto slotsPerEpoch slot atts
    (fun y => y ∈ p.attestations ∨ Call.save y ∈ cs₁) (p, .handle atts) cs₁
    (fun x hx => Or.inr hx) (fun y hy => Or.inl hy) (List.suffix_refl atts)
  set s₁ := interleave slotsPerEpoch slot atts (p, .handle atts) cs₁
  -- right after the save, `a` is stored and the rest of the handling does not threaten it
  have hsafe : ¬ s₁.2.Threatens hashProto slotsPerEpoch slot atts a :=
    not_threatens_of_reached hatts hold hcf hreached
  rw [interleave_append]
  show a ∈ (interleave slotsPerEpoch slot atts (s₁.1.save a, s₁.2) cs₂).1.attestations
  exact (@interleave_keeps hashProto slotsPerEpoch slot atts a (s₁.1.save a, s₁.2) cs₂ hkey
    (AttestationPool.mem_save.2 (Or.inr rfl)) hsafe).1

/-- An attestation of slot `50` saved right after the read of the old ones, with 64 slots an
epoch: it stays, while the one of slot `0` goes. -/
theorem mem_interleave_save_after_read : (⟨⟨50, []⟩, []⟩ : Attestation) ∈
    (interleave 64 100 []
      ((⟨[⟨⟨0, []⟩, []⟩, ⟨⟨90, []⟩, []⟩], by decide⟩ : AttestationPool sampleHashProto), .handle [])
      ([.removal, .removal, .removal] ++
        .save ⟨⟨50, []⟩, []⟩ :: [.removal, .removal, .removal, .removal])).1.attestations :=
  mem_interleave_of_save 64 100 [] ⟨[⟨⟨0, []⟩, []⟩, ⟨⟨90, []⟩, []⟩], by decide⟩
    [.removal, .removal, .removal] [.removal, .removal, .removal, .removal] ⟨⟨50, []⟩, []⟩
    (by decide) (by decide)
    (by
      rintro y (hy | hy) hkey
      · simp only [List.mem_cons, List.not_mem_nil, or_false] at hy
        rcases hy with rfl | rfl <;> exact absurd hkey (by decide)
      · simp at hy)
    (by simp)

/-- The handling only deletes: what is stored at its end was stored before, or saved. -/
theorem mem_of_mem_interleave {p : AttestationPool hashProto} {cs : List Call}
    (ha : a ∈ (interleave slotsPerEpoch slot atts (p, .handle atts) cs).1.attestations) :
    a ∈ p.attestations ∨ Call.save a ∈ cs :=
  (@interleave_reached hashProto slotsPerEpoch slot atts
    (fun y => y ∈ p.attestations ∨ Call.save y ∈ cs) (p, .handle atts) cs
    (fun _ => Or.inr) (fun _ => Or.inl) (List.suffix_refl atts)).1 a ha

end Interleaved

/-! ### Failed calls -/

/-- **A failure that does not end the loop changes nothing at the end.** Whatever calls of the
handling of a block fail, if it runs to its end, with no save in between, it leaves the bucket
that `removeOperations` leaves on a store that does not fail: a delete of `handleProcessedBlock`
that failed is made again by `removePendingAttestations`. -/
theorem interleave_done_of_failures (slotsPerEpoch : UInt64) (db : BeaconDB hashProto)
    (block : BeaconBlock) (body : BeaconBlockBody) (h : db.fault = none)
    (hb : block.body = some body) (cs : List Call) (hsaves : ∀ x, Call.save x ∉ cs)
    (hdone : (interleave slotsPerEpoch block.slot body.attestations
      (db.attestationPool, .handle body.attestations) cs).2 = .done) :
    ∃ db', removeOperations slotsPerEpoch db block = some (db', true) ∧ ∀ x,
      x ∈ (interleave slotsPerEpoch block.slot body.attestations
        (db.attestationPool, .handle body.attestations) cs).1.attestations ↔
      x ∈ db'.attestationPool.attestations := by
  obtain ⟨db', hrun, -, -, hmem⟩ := mem_removeOperations slotsPerEpoch db block body h hb
  refine ⟨db', hrun, fun x => ?_⟩
  have hkey : ∀ y, Call.save y ∈ cs → hashProto y ≠ hashProto x := fun y hy => absurd hy (hsaves y)
  rw [hmem]
  constructor
  · intro hx
    have hxp := (mem_of_mem_interleave hx).resolve_right (hsaves x)
    exact ⟨hxp, (mem_interleave_iff_of_done hdone hxp hkey).1 hx⟩
  · exact fun ⟨hxp, hx⟩ => (mem_interleave_iff_of_done hdone hxp hkey).2 hx

/-- Attestations of slots `0` and `90`, and a block of slot `100` including the second, with 64
slots an epoch: the delete of `handleProcessedBlock` fails, and the handling ends as if it had
not. -/
theorem interleave_done_of_failures_first_delete : ∃ db', removeOperations 64
      (⟨⟨[⟨⟨0, []⟩, []⟩, ⟨⟨90, []⟩, []⟩], by decide⟩, [], none⟩ : BeaconDB sampleHashProto)
      ⟨100, some ⟨[⟨⟨90, []⟩, []⟩]⟩⟩ = some (db', true) ∧ ∀ x,
    x ∈ (interleave 64 100 [⟨⟨90, []⟩, []⟩]
      ((⟨[⟨⟨0, []⟩, []⟩, ⟨⟨90, []⟩, []⟩], by decide⟩ : AttestationPool sampleHashProto),
        .handle [⟨⟨90, []⟩, []⟩])
      [.failedRemoval, .removal, .removal, .removal, .removal, .removal]).1.attestations ↔
    x ∈ db'.attestationPool.attestations :=
  interleave_done_of_failures 64 ⟨⟨[⟨⟨0, []⟩, []⟩, ⟨⟨90, []⟩, []⟩], by decide⟩, [], none⟩
    ⟨100, some ⟨[⟨⟨90, []⟩, []⟩]⟩⟩ ⟨[⟨⟨90, []⟩, []⟩]⟩ rfl rfl _ (by simp) (by rfl)

end Prysm.Operations
