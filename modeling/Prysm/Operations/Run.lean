import Prysm.Operations.Service

/-!
# The operations service over a run

The service runs two loops over one database: `saveOperations` stores the exits and attestations
that arrive, and `removeOperations` handles the blocks the chain service has processed. A run is
the sequence of what reaches the service (`Prysm.Operations.Event`), each event handled whole by
its loop (`Prysm.Operations.step`); between events the store may start or stop failing.

* **What a run keeps** (`Prysm.Operations.mem_run`). On a store that does not fail, an
  attestation is in the bucket after a run exactly when it was there before or was received
  during the run, and since then no attestation under its key was received and no processed
  block removed it (`Prysm.Operations.Event.Keeps`).
* **A failed removal stops removal for good** (`Prysm.Operations.mem_run_after_failed_removal`).
  A block handled while the store fails at every call makes `removeOperations` return; after
  that no block removes anything, and an attestation leaves the bucket only when another under
  its key is saved (`Prysm.Operations.mem_run_of_not_removing`). Which failures of single calls
  end the loop is `Prysm.Operations.interleave_stopped_iff`.
-/

namespace Prysm.Operations

/-- What reaches the service: an exit or an attestation from the network, a block the chain
service has processed, or the store starting (`some`) or stopping (`none`) to fail. -/
inductive Event
  | exit (e : VoluntaryExit)
  | attestation (a : Attestation)
  | processedBlock (block : BeaconBlock)
  | storeFault (fault : Option String)

/-- The state of the service: its database, and whether the loop of `removeOperations` still
runs. -/
structure Service (hashProto : Attestation → Bytes32) where
  db : BeaconDB hashProto
  removing : Bool

variable {hashProto : Attestation → Bytes32} {slotsPerEpoch : UInt64}

/-- One event, handled whole by its loop; `none` when the node panics. `SafelyHandleMessage`
runs the two handlers of `saveOperations`, which do not panic. A block that arrives once the
loop of `removeOperations` has returned is never handled. -/
def step (slotsPerEpoch : UInt64) (s : Service hashProto) : Event → Option (Service hashProto)
  | .exit e => some { s with db := handleValidatorExits e s.db }
  | .attestation a => some { s with db := handleAttestations a s.db }
  | .processedBlock block =>
    if s.removing then (removeOperations slotsPerEpoch s.db block).map fun r => ⟨r.1, r.2⟩
    else some s
  | .storeFault fault => some { s with db := { s.db with fault := fault } }

/-- A run of events; `none` when the node panics on one of them. -/
def run (slotsPerEpoch : UInt64) (s : Service hashProto) : List Event → Option (Service hashProto)
  | [] => some s
  | e :: es => (step slotsPerEpoch s e).bind fun s => run slotsPerEpoch s es

theorem run_cons {s s' : Service hashProto} {e : Event} {es : List Event}
    (h : run slotsPerEpoch s (e :: es) = some s') :
    ∃ s₁, step slotsPerEpoch s e = some s₁ ∧ run slotsPerEpoch s₁ es = some s' :=
  Option.bind_eq_some.1 h

/-- What an event does to an attestation `a` of the bucket, on a store that does not fail: an
attestation received under another key keeps it, and so does a processed block with `a` under
no key of its own and not one epoch older than its slot. -/
def Event.Keeps (slotsPerEpoch : UInt64) (hashProto : Attestation → Bytes32) (a : Attestation) :
    Event → Prop
  | .attestation x => hashProto x ≠ hashProto a
  | .processedBlock block => (∀ body ∈ block.body, hashProto a ∉ body.attestations.map hashProto) ∧
      ¬ a.data.slot ≤ block.slot - slotsPerEpoch
  | _ => True

/-! ### On a store that does not fail -/

/-- **One event on a store that does not fail**: the store still does not fail, the loop of
`removeOperations` still runs, and the bucket keeps what the event keeps, with the attestation
it receives. -/
theorem step_healthy {s s' : Service hashProto} {ev : Event} (hf : s.db.fault = none)
    (hr : s.removing = true) (hev : ∀ f, ev ≠ .storeFault f)
    (hstep : step slotsPerEpoch s ev = some s') :
    s'.db.fault = none ∧ s'.removing = true ∧ ∀ a, a ∈ s'.db.attestationPool.attestations ↔
      (a ∈ s.db.attestationPool.attestations ∧ ev.Keeps slotsPerEpoch hashProto a) ∨
        ev = .attestation a := by
  cases ev with
  | exit e =>
    obtain rfl := Option.some.inj hstep.symm
    obtain ⟨hpool, hfault⟩ := handleValidatorExits_attestationPool e s.db
    refine ⟨hfault.trans hf, hr, fun a => ?_⟩
    simp [Event.Keeps, hpool]
  | attestation x =>
    obtain rfl := Option.some.inj hstep.symm
    simp only [handleAttestations_of_fault_none x hf]
    refine ⟨hf, hr, fun a => ?_⟩
    simp only [AttestationPool.mem_save, Event.Keeps, Event.attestation.injEq]
    rw [ne_comm, eq_comm]
  | processedBlock block =>
    rcases hb : block.body with _ | body
    · simp [step, hr, removeOperations_of_body_none slotsPerEpoch s.db hb] at hstep
    · obtain ⟨db', hrun, hf', -, hmem⟩ := mem_removeOperations slotsPerEpoch s.db block body hf hb
      simp only [step, hr, if_true, hrun, Option.map_some', Option.some.injEq] at hstep
      subst hstep
      refine ⟨hf', rfl, fun a => ?_⟩
      simp [hmem, Event.Keeps, hb, and_assoc]
  | storeFault f => exact absurd rfl (hev f)

theorem run_append (s : Service hashProto) (es₁ es₂ : List Event) :
    run slotsPerEpoch s (es₁ ++ es₂) =
      (run slotsPerEpoch s es₁).bind fun s => run slotsPerEpoch s es₂ := by
  induction es₁ generalizing s with
  | nil => rfl
  | cons e es ih =>
    show (step slotsPerEpoch s e).bind (fun s => run slotsPerEpoch s (es ++ es₂)) =
      ((step slotsPerEpoch s e).bind fun s => run slotsPerEpoch s es).bind _
    cases step slotsPerEpoch s e with
    | none => rfl
    | some t => exact ih t

/-- The last event of a run is one step after the run of the others. -/
theorem run_concat {s s' : Service hashProto} {es : List Event} {e : Event}
    (h : run slotsPerEpoch s (es ++ [e]) = some s') :
    ∃ s₁, run slotsPerEpoch s es = some s₁ ∧ step slotsPerEpoch s₁ e = some s' := by
  obtain ⟨s₁, h₁, hlast⟩ := Option.bind_eq_some.1 ((run_append s es [e]).symm.trans h)
  exact ⟨s₁, h₁, by simpa [run] using hlast⟩

/-- A run with no store fault keeps the store healthy and the loop of `removeOperations`
running. -/
theorem run_healthy {s s' : Service hashProto} {es : List Event} (hf : s.db.fault = none)
    (hr : s.removing = true) (hes : ∀ f, Event.storeFault f ∉ es)
    (hrun : run slotsPerEpoch s es = some s') : s'.db.fault = none ∧ s'.removing = true := by
  induction es generalizing s with
  | nil => exact Option.some.inj hrun ▸ ⟨hf, hr⟩
  | cons ev es ih =>
    obtain ⟨s₁, hstep, hrun'⟩ := run_cons hrun
    obtain ⟨hf₁, hr₁, -⟩ :=
      step_healthy hf hr (fun f h => hes f (h ▸ List.mem_cons_self _ _)) hstep
    exact ih hf₁ hr₁ (fun f h => hes f (List.mem_cons_of_mem _ h)) hrun'

/-- A run returns when every block it processes has a body. -/
theorem exists_run : ∀ (s : Service hashProto) (es : List Event),
    (∀ block, Event.processedBlock block ∈ es → block.body ≠ none) →
      ∃ s', run slotsPerEpoch s es = some s'
  | s, [], _ => ⟨s, rfl⟩
  | s, ev :: es, hbody => by
    obtain ⟨s₁, hs₁⟩ : ∃ s₁, step slotsPerEpoch s ev = some s₁ := by
      cases ev with
      | processedBlock block =>
        obtain ⟨body, hb⟩ := Option.ne_none_iff_exists'.1 (hbody block (List.mem_cons_self _ _))
        cases hrm : s.removing
        · simp [step, hrm]
        · cases hf : s.db.fault
          · simp [step, hrm, removeOperations_of_fault_none slotsPerEpoch hf hb]
          · simp [step, hrm, removeOperations_of_fault_some slotsPerEpoch hf hb]
      | _ => exact ⟨_, rfl⟩
    obtain ⟨s', hs'⟩ := exists_run s₁ es fun block h => hbody block (List.mem_cons_of_mem _ h)
    exact ⟨s', by simp [run, hs₁, hs']⟩

/-- Where `y` can occur in `x :: l`: at its head, or in `l`. -/
theorem exists_split_cons {α : Type} {x y : α} {l : List α} {P : List α → List α → Prop} :
    (∃ l₁ l₂, x :: l = l₁ ++ y :: l₂ ∧ P l₁ l₂) ↔
      (x = y ∧ P [] l) ∨ ∃ l₁ l₂, l = l₁ ++ y :: l₂ ∧ P (x :: l₁) l₂ := by
  simp only [List.cons_eq_append_iff]
  constructor
  · rintro ⟨l₁, l₂, ⟨rfl, h⟩ | ⟨l', rfl, rfl⟩, hp⟩
    · obtain ⟨rfl, rfl⟩ := List.cons.inj h
      exact Or.inl ⟨rfl, hp⟩
    · exact Or.inr ⟨l', l₂, rfl, hp⟩
  · rintro (⟨rfl, hp⟩ | ⟨l₁, l₂, rfl, hp⟩)
    · exact ⟨[], l, Or.inl ⟨rfl, rfl⟩, hp⟩
    · exact ⟨x :: l₁, l₂, Or.inr ⟨l₁, rfl, rfl⟩, hp⟩

/-- **What a run keeps, on a store that does not fail**: an attestation is in the bucket after
the run exactly when it was there before, or was received during the run, and every event since
kept it. -/
theorem mem_run (slotsPerEpoch : UInt64) (s s' : Service hashProto) (es : List Event)
    (hf : s.db.fault = none) (hr : s.removing = true) (hes : ∀ f, Event.storeFault f ∉ es)
    (hrun : run slotsPerEpoch s es = some s') (a : Attestation) :
    a ∈ s'.db.attestationPool.attestations ↔
      (a ∈ s.db.attestationPool.attestations ∧ ∀ ev ∈ es, ev.Keeps slotsPerEpoch hashProto a) ∨
        ∃ es₁ es₂, es = es₁ ++ .attestation a :: es₂ ∧
          ∀ ev ∈ es₂, ev.Keeps slotsPerEpoch hashProto a := by
  induction es generalizing s with
  | nil =>
    obtain rfl := Option.some.inj hrun
    simp
  | cons ev es ih =>
    obtain ⟨s₁, hstep, hrun'⟩ := run_cons hrun
    have hev : ∀ f, ev ≠ .storeFault f := fun f h => hes f (h ▸ List.mem_cons_self _ _)
    obtain ⟨hf₁, hr₁, hmem₁⟩ := step_healthy hf hr hev hstep
    rw [ih s₁ hf₁ hr₁ (fun f h => hes f (List.mem_cons_of_mem _ h)) hrun', hmem₁,
      exists_split_cons, List.forall_mem_cons]
    constructor
    · rintro (⟨⟨h, hk⟩ | rfl, hall⟩ | h)
      · exact Or.inl ⟨h, hk, hall⟩
      · exact Or.inr (Or.inl ⟨rfl, hall⟩)
      · exact Or.inr (Or.inr h)
    · rintro (⟨h, hk, hall⟩ | ⟨rfl, hall⟩ | h)
      · exact Or.inl ⟨Or.inl ⟨h, hk⟩, hall⟩
      · exact Or.inl ⟨Or.inr rfl, hall⟩
      · exact Or.inr h

/-- An attestation of slot `0` received, then an empty block of slot `100` processed, with 64
slots an epoch: it was received, and the block removed it. -/
theorem mem_run_received_then_old :
    (⟨⟨0, []⟩, []⟩ : Attestation) ∈
        (⟨⟨⟨[⟨⟨90, []⟩, []⟩], by decide⟩, [], none⟩, true⟩ :
          Service sampleHashProto).db.attestationPool.attestations ↔
      ((⟨⟨0, []⟩, []⟩ : Attestation) ∈ [(⟨⟨90, []⟩, []⟩ : Attestation)] ∧
        ∀ ev ∈ [Event.attestation ⟨⟨0, []⟩, []⟩, .processedBlock ⟨100, some ⟨[]⟩⟩],
          ev.Keeps 64 sampleHashProto ⟨⟨0, []⟩, []⟩) ∨
      ∃ es₁ es₂, [Event.attestation ⟨⟨0, []⟩, []⟩, .processedBlock ⟨100, some ⟨[]⟩⟩] =
          es₁ ++ .attestation ⟨⟨0, []⟩, []⟩ :: es₂ ∧
        ∀ ev ∈ es₂, ev.Keeps 64 sampleHashProto ⟨⟨0, []⟩, []⟩ :=
  mem_run 64 ⟨⟨⟨[⟨⟨90, []⟩, []⟩], by decide⟩, [], none⟩, true⟩
    ⟨⟨⟨[⟨⟨90, []⟩, []⟩], by decide⟩, [], none⟩, true⟩
    [.attestation ⟨⟨0, []⟩, []⟩, .processedBlock ⟨100, some ⟨[]⟩⟩] rfl rfl (by simp) (by rfl) _

/-! ### Once the loop of `removeOperations` has returned -/

/-- One event once the loop of `removeOperations` has returned: it stays returned, and an
attestation of the bucket stays unless one under its key is received. -/
theorem step_of_not_removing {s s' : Service hashProto} {ev : Event} (hr : s.removing = false)
    (hstep : step slotsPerEpoch s ev = some s') {a : Attestation}
    (ha : a ∈ s.db.attestationPool.attestations)
    (hkey : ∀ x, ev = .attestation x → hashProto x ≠ hashProto a) :
    s'.removing = false ∧ a ∈ s'.db.attestationPool.attestations := by
  cases ev with
  | exit e =>
    obtain rfl := Option.some.inj hstep.symm
    exact ⟨hr, by rw [(handleValidatorExits_attestationPool e s.db).1]; exact ha⟩
  | attestation x =>
    obtain rfl := Option.some.inj hstep.symm
    refine ⟨hr, ?_⟩
    rcases hf : s.db.fault with _ | e
    · rw [handleAttestations_of_fault_none x hf]
      exact (AttestationPool.mem_save_of_key_ne (hkey x rfl)).2 ha
    · rwa [handleAttestations_of_fault_some x hf]
  | processedBlock block =>
    simp only [step, hr, Bool.false_eq_true, if_false, Option.some.injEq] at hstep
    exact hstep ▸ ⟨hr, ha⟩
  | storeFault f =>
    obtain rfl := Option.some.inj hstep.symm
    exact ⟨hr, ha⟩

/-- **Once the loop of `removeOperations` has returned, an attestation leaves the bucket only
when one under its key is received.** -/
theorem mem_run_of_not_removing {s s' : Service hashProto} {es : List Event}
    (hr : s.removing = false) (hrun : run slotsPerEpoch s es = some s') {a : Attestation}
    (ha : a ∈ s.db.attestationPool.attestations)
    (hkey : ∀ x, Event.attestation x ∈ es → hashProto x ≠ hashProto a) :
    s'.removing = false ∧ a ∈ s'.db.attestationPool.attestations := by
  induction es generalizing s with
  | nil =>
    obtain rfl := Option.some.inj hrun
    exact ⟨hr, ha⟩
  | cons ev es ih =>
    obtain ⟨s₁, hstep, hrun'⟩ := run_cons hrun
    obtain ⟨hr₁, ha₁⟩ := step_of_not_removing hr hstep ha
      fun x hx => hkey x (hx ▸ List.mem_cons_self _ _)
    exact ih hr₁ hrun' ha₁ fun x hx => hkey x (List.mem_cons_of_mem _ hx)

/-- **A failed removal stops removal for good**: a block handled while the store fails at every
call ends the loop of `removeOperations`, and every attestation then stored stays, whatever
blocks follow, unless one under its key is received. -/
theorem mem_run_after_failed_removal (slotsPerEpoch : UInt64) (s s' : Service hashProto)
    (block : BeaconBlock) (body : BeaconBlockBody) (es : List Event) (e : String)
    (hf : s.db.fault = some e) (hr : s.removing = true) (hb : block.body = some body)
    (hrun : run slotsPerEpoch s (.processedBlock block :: es) = some s') (a : Attestation)
    (ha : a ∈ s.db.attestationPool.attestations)
    (hkey : ∀ x, Event.attestation x ∈ es → hashProto x ≠ hashProto a) :
    a ∈ s'.db.attestationPool.attestations := by
  obtain ⟨s₁, hstep, hrun'⟩ := run_cons hrun
  simp only [step, hr, if_true, removeOperations_of_fault_some slotsPerEpoch hf hb,
    Option.map_some', Option.some.injEq] at hstep
  subst hstep
  exact (mem_run_of_not_removing rfl hrun' ha hkey).2

/-- A block of slot `100` handled while the store fails, then the store recovers and a block of
slot `200` is processed: the attestation of slot `0` stays. -/
theorem mem_run_after_failed_removal_at_slot_200 :
    (⟨⟨0, []⟩, []⟩ : Attestation) ∈
      (⟨⟨⟨[⟨⟨0, []⟩, []⟩], by decide⟩, [], none⟩, false⟩ :
        Service sampleHashProto).db.attestationPool.attestations :=
  mem_run_after_failed_removal 64 ⟨⟨⟨[⟨⟨0, []⟩, []⟩], by decide⟩, [], some "disk"⟩, true⟩
    ⟨⟨⟨[⟨⟨0, []⟩, []⟩], by decide⟩, [], none⟩, false⟩ ⟨100, some ⟨[]⟩⟩ ⟨[]⟩
    [.storeFault none, .processedBlock ⟨200, some ⟨[]⟩⟩] "disk" rfl rfl rfl (by rfl) _
    (by simp) (by simp)

end Prysm.Operations
