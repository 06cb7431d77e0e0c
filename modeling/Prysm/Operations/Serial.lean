import Prysm.Operations.Interleaving

/-!
# The interleaved handling against the serial orders

The two loops of the service take their events in an order nobody fixes, and the loop of
`saveOperations` may even store an attestation between two database calls of the handling of a
processed block. Which orders does the attestation bucket see?

* **Only those of conflicting events** (`Prysm.Operations.run_equiv_independent`). Run whole,
  two saves under different keys, a save and a block that keeps what it saves, two blocks, or an
  exit and any of them may be swapped anywhere in a run (`Prysm.Operations.Event.Independent`):
  the bucket ends the same.
* **One save in between: yes** (`Prysm.Operations.interleave_one_save_serial`). Whenever the save
  falls, the bucket at the end of the handling holds what it holds after the save and then the
  block, or after the block and then the save, run as whole events; provided nothing stored shares
  the saved attestation's key.
* **Two saves in between: not always** (`Prysm.Operations.interleave_two_saves_not_serial`). The
  handling deletes the block's attestations key by key, the second time in
  `removePendingAttestations`. An attestation saved just after the second delete of its key
  stays; one saved after it, just before the second delete of its own key, goes. No order of the
  whole block among the two saves, taken in the order they were made, gives that.

Membership is what is compared: the bucket is keyed by `HashProto`, and the order of the list
that models it is not one the store keeps.
-/

namespace Prysm.Operations

variable {hashProto : Attestation → Bytes32} {slotsPerEpoch slot : UInt64}
  {atts : List Attestation}

/-! ### Both levels, attestation by attestation -/

/-- Two whole events on a store that does not fail: the bucket keeps what both keep, with what
they receive. -/
theorem mem_run_pair {s s' : Service hashProto} {e₁ e₂ : Event} (hf : s.db.fault = none)
    (hr : s.removing = true) (h₁ : ∀ f, e₁ ≠ .storeFault f) (h₂ : ∀ f, e₂ ≠ .storeFault f)
    (hrun : run slotsPerEpoch s [e₁, e₂] = some s') (x : Attestation) :
    x ∈ s'.db.attestationPool.attestations ↔
      (((x ∈ s.db.attestationPool.attestations ∧ e₁.Keeps slotsPerEpoch hashProto x) ∨
        e₁ = .attestation x) ∧ e₂.Keeps slotsPerEpoch hashProto x) ∨ e₂ = .attestation x := by
  obtain ⟨s₁, hs₁, hrun₁⟩ := run_cons hrun
  obtain ⟨s₂, hs₂, hrun₂⟩ := run_cons hrun₁
  obtain rfl := Option.some.inj hrun₂
  obtain ⟨hf₁, hr₁, hmem₁⟩ := step_healthy hf hr h₁ hs₁
  rw [(step_healthy hf₁ hr₁ h₂ hs₂).2.2, hmem₁]

/-! ### Independent events commute -/

/-- Two events whose order the attestation bucket does not see: saves under two keys, or of one
attestation; a save and a block that keeps what it saves; two blocks; an exit and any event but a
change of the store. -/
def Event.Independent (slotsPerEpoch : UInt64) (hashProto : Attestation → Bytes32) :
    Event → Event → Prop
  | .storeFault _, _ | _, .storeFault _ => False
  | .attestation a, .attestation b => hashProto a ≠ hashProto b ∨ a = b
  | .attestation a, e | e, .attestation a => e.Keeps slotsPerEpoch hashProto a
  | _, _ => True

theorem Event.ne_storeFault_of_independent {e₁ e₂ : Event}
    (h : e₁.Independent slotsPerEpoch hashProto e₂) :
    (∀ f, e₁ ≠ .storeFault f) ∧ ∀ f, e₂ ≠ .storeFault f := by
  constructor
  · rintro f rfl
    cases e₂ <;> exact h
  · rintro f rfl
    cases e₁ <;> exact h

/-- A run on two stores that hold the same attestations ends with the same attestations. -/
theorem mem_run_congr {t t' u u' : Service hashProto} {es : List Event}
    (hf : t.db.fault = none) (hr : t.removing = true) (hf' : t'.db.fault = none)
    (hr' : t'.removing = true) (hes : ∀ f, Event.storeFault f ∉ es)
    (hmem : ∀ x, x ∈ t.db.attestationPool.attestations ↔ x ∈ t'.db.attestationPool.attestations)
    (hrun : run slotsPerEpoch t es = some u) (hrun' : run slotsPerEpoch t' es = some u')
    (x : Attestation) :
    x ∈ u.db.attestationPool.attestations ↔ x ∈ u'.db.attestationPool.attestations := by
  induction es generalizing t t' with
  | nil =>
    obtain rfl := Option.some.inj hrun
    obtain rfl := Option.some.inj hrun'
    exact hmem x
  | cons e es ih =>
    obtain ⟨t₁, h₁, hrun₁⟩ := run_cons hrun
    obtain ⟨t₁', h₁', hrun₁'⟩ := run_cons hrun'
    have he : ∀ f, e ≠ .storeFault f := fun f h => hes f (h ▸ List.mem_cons_self _ _)
    obtain ⟨hf₁, hr₁, hm₁⟩ := step_healthy hf hr he h₁
    obtain ⟨hf₁', hr₁', hm₁'⟩ := step_healthy hf' hr' he h₁'
    exact ih hf₁ hr₁ hf₁' hr₁' (fun f h => hes f (List.mem_cons_of_mem _ h))
      (fun y => by rw [hm₁, hm₁', hmem]) hrun₁ hrun₁'

/-- Two independent events, run in either order, leave the same attestations. -/
theorem mem_run_pair_swap {t u u' : Service hashProto} {e₁ e₂ : Event}
    (hf : t.db.fault = none) (hr : t.removing = true)
    (hind : e₁.Independent slotsPerEpoch hashProto e₂)
    (hrun : run slotsPerEpoch t [e₁, e₂] = some u) (hrun' : run slotsPerEpoch t [e₂, e₁] = some u')
    (x : Attestation) :
    x ∈ u.db.attestationPool.attestations ↔ x ∈ u'.db.attestationPool.attestations := by
  obtain ⟨h₁, h₂⟩ := Event.ne_storeFault_of_independent hind
  rw [mem_run_pair hf hr h₁ h₂ hrun, mem_run_pair hf hr h₂ h₁ hrun']
  cases e₁ <;> cases e₂ <;> simp only [Event.Independent] at hind <;>
    simp only [Event.Keeps, Event.attestation.injEq, reduceCtorEq, or_false, and_true] at hind ⊢
  case intro.attestation.attestation =>
    rename_i a b
    rcases hind with hne | rfl
    · by_cases ha : a = x
      · subst ha
        simp [Ne.symm hne]
      · by_cases hb : b = x
        · subst hb
          simp [hne]
        · simp only [ha, hb, or_false]
          exact and_right_comm
    · exact Iff.rfl
  case intro.attestation.processedBlock =>
    rename_i a _
    by_cases ha : a = x
    · subst ha
      simpa using hind
    · simp only [ha, or_false]
      exact and_right_comm
  case intro.processedBlock.attestation =>
    rename_i _ a
    by_cases ha : a = x
    · subst ha
      simpa using hind
    · simp only [ha, or_false]
      exact and_right_comm
  case intro.processedBlock.processedBlock => exact and_right_comm

/-- **Independent events commute.** On a store that does not fail, swapping two adjacent
independent events anywhere in a run, with no change of the store and a body in every block,
leaves the same attestations in the bucket. -/
theorem run_swap_independent (slotsPerEpoch : UInt64) (s : Service hashProto)
    (hf : s.db.fault = none) (hr : s.removing = true) (es₁ es₂ : List Event) (e₁ e₂ : Event)
    (hind : e₁.Independent slotsPerEpoch hashProto e₂)
    (hes : ∀ f, Event.storeFault f ∉ es₁ ++ e₁ :: e₂ :: es₂)
    (hbody : ∀ block, Event.processedBlock block ∈ es₁ ++ e₁ :: e₂ :: es₂ → block.body ≠ none) :
    ∃ s₁ s₂, run slotsPerEpoch s (es₁ ++ e₁ :: e₂ :: es₂) = some s₁ ∧
      run slotsPerEpoch s (es₁ ++ e₂ :: e₁ :: es₂) = some s₂ ∧
      ∀ x, x ∈ s₁.db.attestationPool.attestations ↔ x ∈ s₂.db.attestationPool.attestations := by
  induction es₁ generalizing s with
  | nil =>
    have hpre : ∀ f, Event.storeFault f ∉ [e₁, e₂] := fun f h => hes f (List.mem_append_left es₂ h)
    obtain ⟨t, ht⟩ : ∃ t, run slotsPerEpoch s [e₁, e₂] = some t :=
      exists_run s [e₁, e₂] fun b hb' => hbody b (List.mem_append_left es₂ hb')
    obtain ⟨t', ht'⟩ : ∃ t', run slotsPerEpoch s [e₂, e₁] = some t' :=
      exists_run s [e₂, e₁] fun b hb' =>
        hbody b (List.mem_append_left es₂ ((List.Perm.swap e₁ e₂ []).mem_iff.1 hb'))
    obtain ⟨hft, hrt⟩ := run_healthy hf hr hpre ht
    obtain ⟨hft', hrt'⟩ :=
      run_healthy hf hr (fun f h => hpre f ((List.Perm.swap e₁ e₂ []).mem_iff.1 h)) ht'
    obtain ⟨u, hu⟩ : ∃ u, run slotsPerEpoch t es₂ = some u :=
      exists_run t es₂ fun b hb' => hbody b (List.mem_append_right [e₁, e₂] hb')
    obtain ⟨u', hu'⟩ : ∃ u', run slotsPerEpoch t' es₂ = some u' :=
      exists_run t' es₂ fun b hb' => hbody b (List.mem_append_right [e₁, e₂] hb')
    refine ⟨u, u', ?_, ?_, mem_run_congr hft hrt hft' hrt'
      (fun f h => hes f (List.mem_append_right [e₁, e₂] h)) (mem_run_pair_swap hf hr hind ht ht')
      hu hu'⟩
    · rw [List.nil_append, show e₁ :: e₂ :: es₂ = [e₁, e₂] ++ es₂ from rfl, run_append, ht]
      exact hu
    · rw [List.nil_append, show e₂ :: e₁ :: es₂ = [e₂, e₁] ++ es₂ from rfl, run_append, ht']
      exact hu'
  | cons e es ih =>
    have he : ∀ f, e ≠ .storeFault f := fun f h => hes f (h ▸ List.mem_cons_self _ _)
    obtain ⟨t, ht⟩ : ∃ t, run slotsPerEpoch s [e] = some t :=
      exists_run s [e] fun b hb' => hbody b (List.mem_singleton.1 hb' ▸ List.mem_cons_self _ _)
    have hstep : step slotsPerEpoch s e = some t := by simpa [run] using ht
    obtain ⟨hft, hrt, -⟩ := step_healthy hf hr he hstep
    obtain ⟨s₁, s₂, h₁, h₂, hmem⟩ := ih t hft hrt (fun f h => hes f (List.mem_cons_of_mem _ h))
      fun b hb' => hbody b (List.mem_cons_of_mem _ hb')
    exact ⟨s₁, s₂, by simp [run, hstep, h₁], by simp [run, hstep, h₂], hmem⟩

/-- One run is the other with two adjacent independent events swapped. -/
def SwapsIndependent (slotsPerEpoch : UInt64) (hashProto : Attestation → Bytes32)
    (es es' : List Event) : Prop :=
  ∃ es₁ es₂ e₁ e₂, e₁.Independent slotsPerEpoch hashProto e₂ ∧ es = es₁ ++ e₁ :: e₂ :: es₂ ∧
    es' = es₁ ++ e₂ :: e₁ :: es₂

/-- Swaps keep the events of a run. -/
theorem perm_of_reflTransGen_swaps {es es' : List Event}
    (h : Relation.ReflTransGen (SwapsIndependent slotsPerEpoch hashProto) es es') :
    List.Perm es' es := by
  induction h with
  | refl => exact List.Perm.refl _
  | tail _ hswap ih =>
    obtain ⟨es₁, es₂, e₁, e₂, -, rfl, rfl⟩ := hswap
    exact ((List.Perm.swap e₁ e₂ es₂).append_left es₁).trans ih

/-- **The bucket sees a run only up to independent events.** On a store that does not fail, two
runs of the same events with no change of the store and a body in every block, one reached from
the other by swapping adjacent independent events, both return and leave the same attestations
in the bucket. -/
theorem run_equiv_independent (slotsPerEpoch : UInt64) (s : Service hashProto)
    (hf : s.db.fault = none) (hr : s.removing = true) (es es' : List Event)
    (hswaps : Relation.ReflTransGen (SwapsIndependent slotsPerEpoch hashProto) es es')
    (hes : ∀ f, Event.storeFault f ∉ es)
    (hbody : ∀ block, Event.processedBlock block ∈ es → block.body ≠ none) :
    ∃ s₁ s₂, run slotsPerEpoch s es = some s₁ ∧ run slotsPerEpoch s es' = some s₂ ∧
      ∀ x, x ∈ s₁.db.attestationPool.attestations ↔ x ∈ s₂.db.attestationPool.attestations := by
  induction hswaps with
  | refl =>
    obtain ⟨s₁, h₁⟩ := exists_run s es hbody
    exact ⟨s₁, s₁, h₁, h₁, fun _ => Iff.rfl⟩
  | @tail es₃ es₄ hrel hswap ih =>
    obtain ⟨s₁, s₂, h₁, h₂, hmem⟩ := ih
    have hevents := perm_of_reflTransGen_swaps hrel
    obtain ⟨es₁, es₂, e₁, e₂, hind, rfl, rfl⟩ := hswap
    obtain ⟨t₁, t₂, ht₁, ht₂, hmem'⟩ := run_swap_independent slotsPerEpoch s hf hr es₁ es₂ e₁ e₂
      hind (fun f hf' => hes f (hevents.mem_iff.1 hf')) (fun b hb => hbody b (hevents.mem_iff.1 hb))
    obtain rfl : t₁ = s₂ := Option.some.inj (ht₁.symm.trans h₂)
    exact ⟨s₁, t₂, h₁, ht₂, fun x => (hmem x).trans (hmem' x)⟩

/-- A save of slot `50` and an empty block of slot `100`, with 64 slots an epoch, in either
order. -/
theorem run_equiv_independent_save_block : ∃ s₁ s₂,
    run 64 (⟨⟨⟨[⟨⟨0, []⟩, []⟩], by decide⟩, [], none⟩, true⟩ : Service sampleHashProto)
      [.attestation ⟨⟨50, []⟩, []⟩, .processedBlock ⟨100, some ⟨[]⟩⟩] = some s₁ ∧
    run 64 (⟨⟨⟨[⟨⟨0, []⟩, []⟩], by decide⟩, [], none⟩, true⟩ : Service sampleHashProto)
      [.processedBlock ⟨100, some ⟨[]⟩⟩, .attestation ⟨⟨50, []⟩, []⟩] = some s₂ ∧
    ∀ x, x ∈ s₁.db.attestationPool.attestations ↔ x ∈ s₂.db.attestationPool.attestations :=
  run_equiv_independent 64 ⟨⟨⟨[⟨⟨0, []⟩, []⟩], by decide⟩, [], none⟩, true⟩ rfl rfl _ _
    (Relation.ReflTransGen.single ⟨[], [], .attestation ⟨⟨50, []⟩, []⟩,
      .processedBlock ⟨100, some ⟨[]⟩⟩,
      by simp only [Event.Independent, Event.Keeps]; exact ⟨by simp, by decide⟩, rfl, rfl⟩)
    (by simp) (by simp)

/-! ### One save in between -/

/-- **With one save in between, the handling is serial.** On a store that does not fail, an
attestation saved at any point of the handling of a block, with nothing stored under its key but
itself, leaves the bucket, at the end of the handling, holding exactly what the run of the save
and the block as whole events holds, in one of the two orders. -/
theorem interleave_one_save_serial (slotsPerEpoch : UInt64) (db : BeaconDB hashProto)
    (block : BeaconBlock) (body : BeaconBlockBody) (h : db.fault = none)
    (hb : block.body = some body) (a : Attestation) (n m : Nat)
    (hcf : ∀ y ∈ db.attestationPool.attestations, hashProto y = hashProto a → y = a)
    (hdone : (interleave slotsPerEpoch block.slot body.attestations
      (db.attestationPool, .handle body.attestations)
      (List.replicate n .removal ++ .save a :: List.replicate m .removal)).2 = .done) :
    ∃ es ∈ [[Event.attestation a, .processedBlock block], [.processedBlock block, .attestation a]],
      ∃ s', run slotsPerEpoch ⟨db, true⟩ es = some s' ∧ ∀ x,
        x ∈ (interleave slotsPerEpoch block.slot body.attestations
          (db.attestationPool, .handle body.attestations)
          (List.replicate n .removal ++ .save a :: List.replicate m .removal)).1.attestations ↔
        x ∈ s'.db.attestationPool.attestations := by
  set p := db.attestationPool
  set final := interleave slotsPerEpoch block.slot body.attestations (p, .handle body.attestations)
    (List.replicate n .removal ++ .save a :: List.replicate m .removal)
  have hsaves : ∀ y, Call.save y ∈
      List.replicate n Call.removal ++ .save a :: List.replicate m .removal → y = a := by
    simp [List.mem_replicate]
  -- the bucket at the end holds attestations stored before, and the saved one
  have hfinal : ∀ x ∈ final.1.attestations, x ∈ p.attestations ∨ x = a :=
    fun x hx => (mem_of_mem_interleave hx).imp_right (hsaves x)
  -- those stored before, under another key, go as the whole block makes them go
  have hkept : ∀ x ∈ p.attestations, hashProto x ≠ hashProto a → (x ∈ final.1.attestations ↔
      hashProto x ∉ body.attestations.map hashProto ∧
        ¬ x.data.slot ≤ block.slot - slotsPerEpoch) := fun x hx hne =>
    mem_interleave_iff_of_done hdone hx fun y hy => hsaves y hy ▸ hne.symm
  -- the saved one stays when the whole block would keep it
  have hsaved : hashProto a ∉ body.attestations.map hashProto →
      ¬ a.data.slot ≤ block.slot - slotsPerEpoch → a ∈ final.1.attestations := fun hatts hold => by
    obtain ⟨-, hreached⟩ := @interleave_reached hashProto slotsPerEpoch block.slot
      body.attestations (· ∈ p.attestations) (p, .handle body.attestations)
      (List.replicate n .removal) (by simp [List.mem_replicate]) (fun y hy => hy)
      (List.suffix_refl _)
    set s₁ := interleave slotsPerEpoch block.slot body.attestations (p, .handle body.attestations)
      (List.replicate n .removal)
    show a ∈ (interleave slotsPerEpoch block.slot body.attestations _ _).1.attestations
    rw [interleave_append]
    exact (@interleave_keeps hashProto slotsPerEpoch block.slot body.attestations a
      (s₁.1.save a, s₁.2) _ (by simp [List.mem_replicate])
      (AttestationPool.mem_save.2 (Or.inr rfl))
      (not_threatens_of_reached hatts hold hcf hreached)).1
  have hbody : ∀ es : List Event, es ⊆ [.attestation a, .processedBlock block] →
      ∃ s', run slotsPerEpoch ⟨db, true⟩ es = some s' := fun es hes =>
    exists_run _ es fun b hb' => by
      obtain rfl : b = block := by simpa using hes hb'
      simp [hb]
  have hkeeps : ∀ x, Event.Keeps slotsPerEpoch hashProto x (.processedBlock block) ↔
      hashProto x ∉ body.attestations.map hashProto ∧
        ¬ x.data.slot ≤ block.slot - slotsPerEpoch := by
    simp [Event.Keeps, hb]
  by_cases ha : a ∈ final.1.attestations
  · -- the save after the whole block
    obtain ⟨s', hrun⟩ := hbody [.processedBlock block, .attestation a] (by simp)
    refine ⟨_, List.mem_cons_of_mem _ (List.mem_singleton_self _), s', hrun, fun x => ?_⟩
    rw [mem_run_pair h rfl (by simp) (by simp) hrun, hkeeps]
    simp only [Event.Keeps, Event.attestation.injEq, reduceCtorEq, or_false]
    constructor
    · intro hx
      rcases hfinal x hx with hxp | rfl
      · by_cases hxa : x = a
        · exact Or.inr hxa.symm
        · have hne : hashProto x ≠ hashProto a := fun he => hxa (hcf x hxp he)
          exact Or.inl ⟨⟨hxp, (hkept x hxp hne).1 hx⟩, Ne.symm hne⟩
      · exact Or.inr rfl
    · rintro (⟨⟨hxp, hk⟩, hne⟩ | rfl)
      · exact (hkept x hxp (Ne.symm hne)).2 hk
      · exact ha
  · -- the save before the whole block, which deletes it
    obtain ⟨s', hrun⟩ := hbody [.attestation a, .processedBlock block] (by simp)
    refine ⟨_, List.mem_cons_self _ _, s', hrun, fun x => ?_⟩
    rw [mem_run_pair h rfl (by simp) (by simp) hrun, hkeeps]
    simp only [Event.Keeps, Event.attestation.injEq, reduceCtorEq, or_false]
    constructor
    · intro hx
      rcases hfinal x hx with hxp | rfl
      · have hne : hashProto x ≠ hashProto a := fun he => ha (hcf x hxp he ▸ hx)
        exact ⟨Or.inl ⟨hxp, Ne.symm hne⟩, (hkept x hxp hne).1 hx⟩
      · exact absurd hx ha
    · rintro ⟨⟨hxp, hne⟩ | rfl, hk⟩
      · exact (hkept x hxp (Ne.symm hne)).2 hk
      · exact absurd (hsaved hk.1 hk.2) ha

/-- An attestation of slot `50` saved right after the read of the old ones, with 64 slots an
epoch. -/
theorem interleave_one_save_serial_after_read :
    ∃ es ∈ [[Event.attestation ⟨⟨50, []⟩, []⟩, .processedBlock ⟨100, some ⟨[]⟩⟩],
        [.processedBlock ⟨100, some ⟨[]⟩⟩, .attestation ⟨⟨50, []⟩, []⟩]],
      ∃ s', run 64 ⟨(⟨⟨[⟨⟨0, []⟩, []⟩], by decide⟩, [], none⟩ : BeaconDB sampleHashProto), true⟩
          es = some s' ∧ ∀ x,
        x ∈ (interleave 64 100 []
          ((⟨[⟨⟨0, []⟩, []⟩], by decide⟩ : AttestationPool sampleHashProto), .handle [])
          (List.replicate 3 .removal ++ .save ⟨⟨50, []⟩, []⟩ ::
            List.replicate 2 .removal)).1.attestations ↔
        x ∈ s'.db.attestationPool.attestations :=
  interleave_one_save_serial 64 ⟨⟨[⟨⟨0, []⟩, []⟩], by decide⟩, [], none⟩ ⟨100, some ⟨[]⟩⟩ ⟨[]⟩
    rfl rfl ⟨⟨50, []⟩, []⟩ 3 2 (by decide) (by rfl)

/-! ### Two saves in between -/

/-- From the second round of deletes on, the handling runs to its end. -/
theorem exists_interleave_done (q : AttestationPool hashProto) (rest : List Attestation) :
    ∃ k q', interleave slotsPerEpoch slot atts (q, .remove rest) (List.replicate k .removal) =
      (q', .done) := by
  set q₁ := q.deleteAll rest
  refine ⟨rest.length + 2 + (q₁.attestations.length + 1),
    q₁.deleteIf (fun a => a.data.slot ≤ slot - slotsPerEpoch) q₁.attestations, ?_⟩
  have hremove := @interleave_remove_append hashProto slotsPerEpoch slot atts q rest []
  rw [List.append_nil] at hremove
  rw [List.replicate_add, interleave_append, List.replicate_add rest.length 2, interleave_append,
    hremove, List.replicate_add q₁.attestations.length 1, interleave_append]
  show interleave _ _ _ (interleave _ _ _ (q₁, .removeOld q₁.attestations) _) _ = _
  rw [interleave_removeOld]
  rfl

/-- The calls of the handling of a block whose attestations are `l₁ ++ x₁ :: l₂ ++ x₂ :: l₃`,
with two saves: `handleProcessedBlock` deletes them all, `removePendingAttestations` deletes `l₁`
and `x₁`, `a₁` is saved, `removePendingAttestations` deletes `l₂`, and `a₂` is saved. -/
def savesAcross (atts l₁ l₂ : List Attestation) (a₁ a₂ : Attestation) : List Call :=
  List.replicate (atts.length + 1) .removal ++ List.replicate (l₁.length + 1) .removal ++
    .save a₁ :: (List.replicate l₂.length .removal ++ [.save a₂])

/-- Along `Prysm.Operations.savesAcross`, the handling runs to its end with `a₁` stored and
`a₂` gone, when `x₁` is the last attestation of the block under the key of `a₁`, `x₂` is under
the key of `a₂`, and `a₁` is not one epoch older than the block's slot. -/
theorem interleave_savesAcross (p : AttestationPool hashProto) (l₁ l₂ l₃ : List Attestation)
    (x₁ x₂ a₁ a₂ : Attestation) (hk₂ : hashProto a₂ = hashProto x₂)
    (hlast : hashProto a₁ ∉ (l₂ ++ x₂ :: l₃).map hashProto)
    (hold : ¬ a₁.data.slot ≤ slot - slotsPerEpoch) :
    ∃ m q, interleave slotsPerEpoch slot (l₁ ++ x₁ :: (l₂ ++ x₂ :: l₃))
        (p, .handle (l₁ ++ x₁ :: (l₂ ++ x₂ :: l₃)))
        (savesAcross (l₁ ++ x₁ :: (l₂ ++ x₂ :: l₃)) l₁ l₂ a₁ a₂ ++ List.replicate m .removal) =
      (q, .done) ∧ a₁ ∈ q.attestations ∧ a₂ ∉ q.attestations := by
  set atts := l₁ ++ x₁ :: (l₂ ++ x₂ :: l₃)
  -- `handleProcessedBlock` deletes the block's attestations, and the second round `l₁` and `x₁`
  set q₁ := ((p.deleteAll atts).deleteAll l₁).delete x₁
  have h₁ : interleave slotsPerEpoch slot atts (p, .handle atts)
      (List.replicate (atts.length + 1) .removal ++ List.replicate (l₁.length + 1) .removal) =
      (q₁, .remove (l₂ ++ x₂ :: l₃)) := by
    rw [interleave_append, List.replicate_succ', interleave_append, interleave_handle]
    show interleave _ _ _ (p.deleteAll atts, .remove (l₁ ++ x₁ :: (l₂ ++ x₂ :: l₃))) _ = _
    rw [List.replicate_succ', interleave_append, interleave_remove_append]
    rfl
  -- `a₁` is saved, the second round deletes `l₂`, and `a₂` is saved
  set q₂ := (q₁.save a₁).deleteAll l₂
  obtain ⟨k, q, hk⟩ := @exists_interleave_done hashProto slotsPerEpoch slot atts (q₂.save a₂)
    (x₂ :: l₃)
  have hrun₁ : interleave slotsPerEpoch slot atts (p, .handle atts)
      (savesAcross atts l₁ l₂ a₁ a₂ ++ List.replicate k .removal) =
      interleave slotsPerEpoch slot atts (q₁.save a₁, .remove (l₂ ++ x₂ :: l₃))
        (List.replicate l₂.length .removal ++ .save a₂ :: List.replicate k .removal) := by
    rw [show savesAcross atts l₁ l₂ a₁ a₂ ++ List.replicate k .removal =
        (List.replicate (atts.length + 1) .removal ++ List.replicate (l₁.length + 1) .removal) ++
          .save a₁ :: (List.replicate l₂.length .removal ++ .save a₂ :: List.replicate k .removal)
        by simp [savesAcross], interleave_append, h₁]
    rfl
  have hrun₂ : interleave slotsPerEpoch slot atts (q₁.save a₁, .remove (l₂ ++ x₂ :: l₃))
      (List.replicate l₂.length .removal ++ .save a₂ :: List.replicate k .removal) =
        (q, .done) := by
    rw [interleave_append, interleave_remove_append]
    exact hk
  refine ⟨k, q, hrun₁.trans hrun₂, ?_, fun ha₂ => ?_⟩
  · -- nothing after the save of `a₁` threatens it
    have hkey : ∀ y, Call.save y ∈
        List.replicate l₂.length Call.removal ++ .save a₂ :: List.replicate k .removal →
          hashProto y ≠ hashProto a₁ := by
      simp only [List.mem_append, List.mem_replicate, List.mem_cons, reduceCtorEq, and_false,
        false_or, or_false, Call.save.injEq]
      rintro y rfl hy
      exact hlast (by rw [List.map_append]; simp [← hy, hk₂])
    have hs : ¬ Removal.Threatens hashProto slotsPerEpoch slot atts a₁
        (.remove (l₂ ++ x₂ :: l₃)) := fun h => h.elim hlast hold
    have := (@interleave_keeps hashProto slotsPerEpoch slot atts a₁
      (q₁.save a₁, .remove (l₂ ++ x₂ :: l₃)) _ hkey
      (AttestationPool.mem_save.2 (Or.inr rfl)) hs).1
    rwa [hrun₂] at this
  · -- the second round still deletes the key of `a₂`
    have hsuf : x₂ :: l₃ <:+ l₁ ++ x₁ :: (l₂ ++ x₂ :: l₃) := ⟨l₁ ++ x₁ :: l₂, by simp⟩
    exact @not_mem_interleave_of_threatens hashProto slotsPerEpoch slot atts a₂
      (q₂.save a₂, .remove (x₂ :: l₃)) (List.replicate k .removal) (by simp [List.mem_replicate])
      hsuf (fun _ => by simp [Removal.Threatens, hk₂]) (by rw [hk]) (hk ▸ ha₂)

/-- **With two saves in between, the handling need not be serial.** On a store that does not
fail, take a block whose attestations are `l₁ ++ x₁ :: l₂ ++ x₂ :: l₃`, `x₁` the last under the
key of `a₁` and `x₂` under the key of `a₂`, and `a₁` not one epoch older than its slot. Save `a₁`
just after the second delete of `x₁` and `a₂` after it, before the second delete of `x₂`: the
handling runs to its end with `a₁` stored and `a₂` gone. Run whole, the block before, between or
after the two saves never leaves `a₁` stored without `a₂`. -/
theorem interleave_two_saves_not_serial (slotsPerEpoch : UInt64) (db : BeaconDB hashProto)
    (block : BeaconBlock) (body : BeaconBlockBody) (h : db.fault = none)
    (hb : block.body = some body) (l₁ l₂ l₃ : List Attestation) (x₁ x₂ a₁ a₂ : Attestation)
    (hatts : body.attestations = l₁ ++ x₁ :: (l₂ ++ x₂ :: l₃))
    (hk₁ : hashProto a₁ = hashProto x₁) (hk₂ : hashProto a₂ = hashProto x₂)
    (hlast : hashProto a₁ ∉ (l₂ ++ x₂ :: l₃).map hashProto)
    (hold : ¬ a₁.data.slot ≤ block.slot - slotsPerEpoch) :
    (∃ m q, interleave slotsPerEpoch block.slot body.attestations
        (db.attestationPool, .handle body.attestations)
        (savesAcross body.attestations l₁ l₂ a₁ a₂ ++ List.replicate m .removal) = (q, .done) ∧
      a₁ ∈ q.attestations ∧ a₂ ∉ q.attestations) ∧
    ∀ es ∈ [[Event.processedBlock block, .attestation a₁, .attestation a₂],
        [.attestation a₁, .processedBlock block, .attestation a₂],
        [.attestation a₁, .attestation a₂, .processedBlock block]],
      ∀ s', run slotsPerEpoch ⟨db, true⟩ es = some s' →
        a₁ ∈ s'.db.attestationPool.attestations → a₂ ∈ s'.db.attestationPool.attestations := by
  refine ⟨hatts ▸ interleave_savesAcross db.attestationPool l₁ l₂ l₃ x₁ x₂ a₁ a₂ hk₂ hlast hold,
    fun es hes s' hrun ha₁ => ?_⟩
  -- the whole runs, split at their last event
  have hlastev : ∀ pre : List Event, ∀ e, (∀ f, Event.storeFault f ∉ pre) →
      run slotsPerEpoch ⟨db, true⟩ (pre ++ [e]) = some s' → ∃ s₁,
        (s₁.db.fault = none ∧ s₁.removing = true) ∧ step slotsPerEpoch s₁ e = some s' :=
    fun pre e hpre hrun => by
      obtain ⟨s₁, hrun₁, hstep⟩ := run_concat hrun
      exact ⟨s₁, run_healthy h rfl hpre hrun₁, hstep⟩
  -- after a save of `a₂` last, `a₂` is stored
  have hsaved : ∀ pre : List Event, (∀ f, Event.storeFault f ∉ pre) →
      run slotsPerEpoch ⟨db, true⟩ (pre ++ [.attestation a₂]) = some s' →
        a₂ ∈ s'.db.attestationPool.attestations := fun pre hpre hrun => by
    obtain ⟨s₁, ⟨hf₁, hr₁⟩, hstep⟩ := hlastev pre _ hpre hrun
    exact ((step_healthy hf₁ hr₁ (by simp) hstep).2.2 a₂).2 (Or.inr rfl)
  simp only [List.mem_cons, List.mem_singleton, List.not_mem_nil, or_false] at hes
  rcases hes with rfl | rfl | rfl
  · exact hsaved [.processedBlock block, .attestation a₁] (by simp) hrun
  · exact hsaved [.attestation a₁, .processedBlock block] (by simp) hrun
  · -- the block last deletes `a₁`, under the key of `x₁`
    obtain ⟨s₁, ⟨hf₁, hr₁⟩, hstep⟩ :=
      hlastev [.attestation a₁, .attestation a₂] (.processedBlock block) (by simp) hrun
    have hx₁ : hashProto a₁ ∈ body.attestations.map hashProto := by
      rw [hatts, hk₁]
      exact List.mem_map_of_mem _ (by simp)
    rcases ((step_healthy hf₁ hr₁ (by simp) hstep).2.2 a₁).1 ha₁ with ⟨-, hkeep, -⟩ | hev
    · exact absurd hx₁ (hkeep body hb)
    · cases hev

/-- A block of slot `100` holding attestations of slots `90` and `91`, each saved again in the
second round of deletes, with 64 slots an epoch: the first stays and the second goes. -/
theorem interleave_two_saves_not_serial_two_atts :
    (∃ m q, interleave 64 100 [⟨⟨90, []⟩, []⟩, ⟨⟨91, []⟩, []⟩]
        ((AttestationPool.empty : AttestationPool sampleHashProto),
          .handle [⟨⟨90, []⟩, []⟩, ⟨⟨91, []⟩, []⟩])
        (savesAcross [⟨⟨90, []⟩, []⟩, ⟨⟨91, []⟩, []⟩] [] [] ⟨⟨90, []⟩, []⟩ ⟨⟨91, []⟩, []⟩ ++
          List.replicate m .removal) = (q, .done) ∧
      ⟨⟨90, []⟩, []⟩ ∈ q.attestations ∧ ⟨⟨91, []⟩, []⟩ ∉ q.attestations) ∧
    ∀ es ∈ [[Event.processedBlock ⟨100, some ⟨[⟨⟨90, []⟩, []⟩, ⟨⟨91, []⟩, []⟩]⟩⟩,
          .attestation ⟨⟨90, []⟩, []⟩, .attestation ⟨⟨91, []⟩, []⟩],
        [.attestation ⟨⟨90, []⟩, []⟩,
          .processedBlock ⟨100, some ⟨[⟨⟨90, []⟩, []⟩, ⟨⟨91, []⟩, []⟩]⟩⟩,
          .attestation ⟨⟨91, []⟩, []⟩],
        [.attestation ⟨⟨90, []⟩, []⟩, .attestation ⟨⟨91, []⟩, []⟩,
          .processedBlock ⟨100, some ⟨[⟨⟨90, []⟩, []⟩, ⟨⟨91, []⟩, []⟩]⟩⟩]],
      ∀ s', run 64 ⟨(⟨AttestationPool.empty, [], none⟩ : BeaconDB sampleHashProto), true⟩ es =
          some s' →
        ⟨⟨90, []⟩, []⟩ ∈ s'.db.attestationPool.attestations →
          ⟨⟨91, []⟩, []⟩ ∈ s'.db.attestationPool.attestations :=
  interleave_two_saves_not_serial 64 ⟨AttestationPool.empty, [], none⟩
    ⟨100, some ⟨[⟨⟨90, []⟩, []⟩, ⟨⟨91, []⟩, []⟩]⟩⟩ ⟨[⟨⟨90, []⟩, []⟩, ⟨⟨91, []⟩, []⟩]⟩ rfl rfl
    [] [] [] ⟨⟨90, []⟩, []⟩ ⟨⟨91, []⟩, []⟩ ⟨⟨90, []⟩, []⟩ ⟨⟨91, []⟩, []⟩ rfl rfl rfl (by decide)
    (by decide)

end Prysm.Operations
