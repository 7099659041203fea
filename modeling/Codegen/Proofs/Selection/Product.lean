import Codegen.Proofs.Placement.Found

/-!
# Products with constants

A product with a constant becomes a shift, an address or a sum with a shifted operand where the
constant allows it. Whatever form it takes, and wherever its other factor is, the register of the
result has the product afterwards, and what is needed later is still found.

* `Routine.Expects`: a value that an instruction makes;
* `Destined`: **a register for a result**, `reusableDestination_works`, `loadForWrite_works`;
* `Produced`: what the instruction leaves behind;
* `buildMultiplication_works`: **a product with a constant**.
-/

namespace Codegen

open Machine Generating
open Straight (LockedWithin lockLimit)

/-! ## Destinations -/

/-- An integer that an instruction makes. -/
structure Routine.Expects (r : Routine) (y : ValueId) : Prop where
  integer : ∃ c, r.values.cell? y = some c ∧ c.format.isDecimal = false
  aloof : r.values.Aloof y

/-- Values that are needed later are found, whatever happens to one value. -/
def KeepsLater (y : ValueId) (r : Routine) (s : State) (r' : Routine) (s' : State) : Prop :=
  ∀ v w, v ≠ y → r.values.Aloof v → r.values.Covers v r.position →
    r.values.Covers v (r.position + 1) → r.Finds s v w → r'.Finds s' v w

/-- **A register for a result**: it is the home of the result, and nothing that is needed later was
lost for it. -/
structure Destined (r : Routine) (s : State) (y : ValueId) (d : Register) (r' : Routine)
    (s' : State) : Prop extends Undisturbed r s r' s' where
  home : r'.Houses y (.register d)
  later : KeepsLater y r s r' s'

/-- **A result was made**: it is in a register of its own, and what is needed later is found. -/
structure Produced (r : Routine) (s : State) (y : ValueId) (w : Word) (r' : Routine) (s' : State) :
    Prop where
  result : ∃ d, r'.Houses y (.register d) ∧ s'.registers d = w
  later : KeepsLater y r s r' s'

variable {m : Machine} {r r' r'' : Routine} {s s' s'' : State} {n : Nat}
variable {v x y : ValueId} {q d : Register} {a c w : Word}

theorem Routine.Expects.worked (hy : r.Expects y) (hw : Worked m r s r' s') : r'.Expects y := by
  obtain ⟨c, hc, hformat⟩ := hy.integer
  exact ⟨⟨_, hw.values.cell hc, hformat⟩, hw.values.aloof hy.aloof⟩

theorem Routine.Expects.lt_size (hy : r.Expects y) : y < r.values.size := by
  obtain ⟨c, hc, -⟩ := hy.integer
  exact Arena.cell?_lt hc

theorem KeepsLater.trans (h : KeepsLater y r s r' s') (hw : Worked m r s r' s')
    (h' : KeepsLater y r' s' r'' s'') : KeepsLater y r s r'' s'' := by
  intro v w hv ha hc hl hf
  exact h' v w hv (hw.values.aloof ha) (hw.values.covers.mpr (hw.position ▸ hc))
    (hw.values.covers.mpr (hw.position ▸ hl)) (h v w hv ha hc hl hf)

theorem Spared.keepsLater (h : Spared r s r' s') (y : ValueId) : KeepsLater y r s r' s' :=
  fun v w _ ha hc _ hf => h.found v w ha hc hf

namespace Destined

theorem after (h : Spared r s r' s') (hw : Worked m r s r' s') (h' : Destined r' s' y d r'' s'') :
    Destined r s y d r'' s'' :=
  ⟨h.toUndisturbed.trans hw h'.toUndisturbed, h'.home, (h.keepsLater y).trans hw h'.later⟩

theorem keepsLater_write (h : Destined r s y d r' s') (w : Word) (flags? : Option (Word × Word))
    (ops : List Operation) :
    KeepsLater y r s { r' with operations := ops } { s'.set d w with flags? } := by
  intro v u hv ha hc hl hf
  obtain ⟨p, hp, hword⟩ := h.later v u hv ha hc hl hf
  refine ⟨p, ⟨hp.home, hp.own, hp.made⟩, ?_⟩
  change (s'.set d w).valueAt p = u
  rw [valueAt_set, if_neg, hword]
  rintro rfl
  exact hv (Option.some.inj ((hp.own d rfl).2.symm.trans (h.home.own d rfl).2))

theorem produced (h : Destined r s y d r' s') (flags? : Option (Word × Word))
    (ops : List Operation) :
    Produced r s y w { r' with operations := ops } { s'.set d w with flags? } :=
  ⟨⟨d, ⟨h.home.home, h.home.own, h.home.made⟩, State.set_registers_self ..⟩,
    h.keepsLater_write w flags? ops⟩

end Destined

theorem Produced.after (h : Spared r s r' s') (hw : Worked m r s r' s')
    (h' : Produced r' s' y w r'' s'') : Produced r s y w r'' s'' :=
  ⟨h'.result, (h.keepsLater y).trans hw h'.later⟩

namespace Generating

/-- A result gets the register of a value that is not needed later. -/
theorem takeOver_works (hr : r.Ready) (hn : LockedWithin r.registers n) (hlimit : n < lockLimit)
    (hq : r.Houses x (.register q)) (hx : ¬ r.values.Covers x (r.position + 1))
    (hy : r.Expects y) :
    Works m (takeOver y q) r s fun d r' s' => d = q ∧ s' = s ∧ Destined r s y d r' s' := by
  obtain ⟨hrange, howner⟩ := hq.own q rfl
  unfold takeOver
  refine .bind (works_place hr hrange hy.lt_size) ?_
  rintro - r₁ s hw₁ ⟨hsettled, rfl⟩
  have hwell := hr.coherent.registers
  have hwell₁ := hw₁.ready.coherent.registers
  have hshape := hw₁.shape hr
  have hlocked (z : Register) : r₁.registers.locked.contains z = r.registers.locked.contains z :=
    RegisterFile.locked_congr hwell hwell₁ hshape (fun z _ => hsettled.locks z) z
  have howner₁ : r₁.registers.owner? q = some y := by rw [hsettled.owner q hrange, if_pos rfl]
  have hrange₁ := hshape.inRange.mpr hrange
  have hlater : KeepsLater y r s r₁ s := by
    intro v w hv ha hc hl hf
    obtain ⟨p, hp, hword⟩ := hf
    have hhandle : r₁.values.handleAt v = r.values.handleAt v := by
      rw [hsettled.handles, if_neg]
      rintro (rfl | hreceived)
      · exact hv rfl
      · exact hv (ha y hreceived).symm
    refine ⟨p, ⟨by rw [hhandle, hp.home], fun z hz => ?_, ?_⟩, hword⟩
    · obtain ⟨hin, hown⟩ := hp.own z hz
      have hzq : z ≠ q := by
        rintro rfl
        obtain rfl : v = x := Option.some.inj (hown.symm.trans howner)
        exact hx hl
      exact ⟨hshape.inRange.mpr hin, by rw [hsettled.owner z hin, if_neg hzq, hown]⟩
    · rw [hsettled.temporaries]
      exact hp.made
  refine .bind (lock_works hw₁.ready
    (hn.congr hwell hwell₁ hshape fun z _ => hsettled.locks z) hlimit
    (hwell₁.used_of_owner hrange₁ howner₁)) ?_
  rintro - r₂ s hw₂ ⟨-, -, ho₂, hvalues, rfl, hspared⟩
  have hundisturbed : Undisturbed r s r₁ s :=
    ⟨fun z hz => ⟨(hlocked z).trans hz, rfl⟩, fun _ _ => rfl⟩
  refine .pure hw₂.ready ⟨rfl, rfl, hundisturbed.trans hw₁ hspared.toUndisturbed, ⟨?_, ?_, ?_⟩,
    hlater.trans hw₁ (hspared.keepsLater y)⟩
  · rw [hvalues]
    simp [hsettled.handles, Handle.home?]
  · rintro _ ⟨⟩
    exact ⟨(hw₂.shape hw₁.ready).inRange.mpr hrange₁, by rw [ho₂, howner₁]⟩
  · exact fun k hk => Home.noConfusion hk

/-- **A result gets a register that was not locked.** -/
theorem allocateResult_works (hr : r.Ready) (hm : m.architecture = r.architecture)
    (hn : LockedWithin r.registers n) (hlimit : n < lockLimit) (hy : r.Expects y) :
    Works m (allocateResult y) r s fun d r' s' => d.isMedia = false ∧
      r.registers.locked.contains d = false ∧ s'.registers = s.registers ∧
      Destined r s y d r' s' := by
  obtain ⟨c, hc, hformat⟩ := hy.integer
  unfold allocateResult
  refine .step (formatOf_eq hc) ?_
  rw [bank_of_integer hformat]
  refine .bind (allocate_works hr hm hn hlimit hy.lt_size) ?_
  rintro d r₁ s₁ hw₁ ⟨hgranted, -, hl, hregisters, hspared⟩
  refine .bind (Q := fun _ r₂ s₂ => s₂ = s₁ ∧ Destined r s y d r₂ s₂)
    (.setHandle hw₁.ready (hw₁.values.size ▸ hy.lt_size)
      fun values hvalues hhandles => ⟨rfl, ?_⟩) ?_
  · have hhome : (values.handleAt y).home? = some (.register d) := by simp [hhandles, Handle.home?]
    refine ⟨⟨hspared.locked, hspared.slots⟩, ⟨hhome, ?_, fun k hk => Home.noConfusion hk⟩,
      fun v w hv ha hc' _ hf => ?_⟩
    · rintro _ ⟨⟩
      exact ⟨hgranted.inRange, hgranted.owner⟩
    · obtain ⟨p, hp, hword⟩ := hspared.found v w ha hc' hf
      refine ⟨p, ⟨?_, hp.own, hp.made⟩, hword⟩
      rw [← hp.home]
      refine congrArg Handle.home? ((hhandles v).trans (if_neg ?_))
      rintro (rfl | hreceived)
      · exact hv rfl
      · exact hv (hw₁.values.aloof ha y hreceived).symm
  · rintro - r₂ _ hw₂ ⟨rfl, hdestined⟩
    exact .pure hw₂.ready ⟨hgranted.isMedia, hl, hregisters, hdestined⟩

theorem reusable?_eq (hv : r.Supplies s v w) (f : Format) :
    ∃ found, reusable? v f r = .ok found r ∧ ∀ q, found = some q →
      r.Houses v (.register q) ∧ ¬ r.values.Covers v (r.position + 1) := by
  obtain ⟨c, hc, -⟩ := hv.integer
  obtain ⟨-, hregister⟩ := provides_of_supplies hv
  have hhandle := Arena.handleAt_eq hc
  unfold reusable?
  rw [bind_of_ok (handleOf_eq hc)]
  cases hcase : c.handle with
  | register q =>
    obtain ⟨hhouse, -⟩ := hregister q (hhandle.trans hcase)
    simp only []
    rw [bind_of_ok (Straight.owner?_eq q r), bind_of_ok (isExpiring_eq hc)]
    refine ⟨_, rfl, fun z hz => ?_⟩
    split at hz
    next hcond =>
      obtain rfl := Option.some.inj hz
      refine ⟨hhouse, fun hcovers => ?_⟩
      rw [Arena.covers_iff hc] at hcovers
      simp [hcovers] at hcond
    next => cases hz
  | _ => exact ⟨none, rfl, fun q hq => by cases hq⟩

/-- **A register for a result**: that of its first operand if the operand is not needed later, or
one that was not locked. -/
theorem reusableDestination_works (hr : r.Ready) (hm : m.architecture = r.architecture)
    (hn : LockedWithin r.registers n) (hlimit : n < lockLimit) (hv : r.Supplies s v w)
    (hy : r.Expects y) :
    Works m (reusableDestination v y) r s fun d r' s' => Destined r s y d r' s' := by
  obtain ⟨c, hc, -⟩ := hy.integer
  obtain ⟨found, hfound, hsome⟩ := reusable?_eq hv c.format
  unfold reusableDestination
  refine .step (formatOf_eq hc) (.step hfound ?_)
  cases found with
  | some q =>
    obtain ⟨hhouse, hexpiring⟩ := hsome q rfl
    exact .mono (takeOver_works hr hn hlimit hhouse hexpiring hy) fun _ _ _ _ h => h.2.2
  | none => exact .mono (allocateResult_works hr hm hn hlimit hy) fun _ _ _ _ h => h.2.2.2

/-- **A register for a result that has the word of the first operand in it.** -/
theorem loadForWrite_works (hr : r.Ready) (hm : m.architecture = r.architecture)
    (hn : LockedWithin r.registers n) (hlimit : n < lockLimit) (hv : r.Supplies s v w)
    (hy : r.Expects y) :
    Works m (loadForWrite v y) r s fun d r' s' => s'.registers d = w ∧ Destined r s y d r' s' := by
  obtain ⟨c, hc, hformat⟩ := hy.integer
  obtain ⟨c', hc', hformat'⟩ := hv.integer
  obtain ⟨hprovides, hregister⟩ := provides_of_supplies hv
  have hhandle := Arena.handleAt_eq hc'
  rw [hhandle] at hprovides
  -- a copy in a new register
  have copy : Works m (do
      let source ← sourceAs v c.format
      let d ← allocateResult y
      transferToRegister d source c.format
      return d) r s fun d r' s' => s'.registers d = w ∧ Destined r s y d r' s' := by
    have hsource : sourceAs v c.format r = .ok c'.handle r := by
      unfold sourceAs
      rw [bind_of_ok (formatOf_eq hc'), hformat, hformat']
      exact handleOf_eq hc'
    refine .step hsource (.bind (allocateResult_works hr hm hn hlimit hy) ?_)
    rintro d r₁ s₁ hw₁ ⟨hmedia, hl, hregisters, hdestined⟩
    unfold transferToRegister
    refine .bind (transferInto_works hw₁.ready
      (hprovides.undisturbed hw₁ hregisters hdestined.toUndisturbed) hmedia _) ?_
    rintro - r₂ _ hw₂ ⟨rfl, hvalues, hregisters₂, htemporaries⟩
    have hwritten := hdestined.toUndisturbed.write hl w
    refine .pure hw₂.ready ⟨by simp, ⟨?_, hwritten.slots⟩,
      ⟨?_, ?_, fun k hk => Home.noConfusion hk⟩, fun u b hu ha hc hl hf => ?_⟩
    · rw [hregisters₂]
      exact hwritten.locked
    · rw [hvalues]
      exact hdestined.home.home
    · rw [hregisters₂]
      exact hdestined.home.own
    · obtain ⟨p, hp, hword⟩ := hdestined.keepsLater_write w s₁.flags? [] u b hu ha hc hl hf
      refine ⟨p, ⟨hvalues ▸ hp.home, ?_, ?_⟩, hword⟩
      · rw [hregisters₂]
        exact hp.own
      · rw [htemporaries]
        exact hp.made
  unfold loadForWrite
  refine .step (formatOf_eq hc) (.step (formatOf_eq hc') ?_)
  rw [hformat, hformat']
  simp only [beq_self_eq_true, if_true]
  refine .step (handleOf_eq hc') ?_
  cases hcase : c'.handle with
  | register q =>
    obtain ⟨hhouse, hword⟩ := hregister q (hhandle.trans hcase)
    simp only []
    refine .step (Straight.owner?_eq q r) (.step (isExpiring_eq hc') ?_)
    simp only [(hhouse.own q rfl).2, true_and]
    split
    next hexpiring =>
      have hlater : ¬ r.values.Covers v (r.position + 1) := by
        rw [Arena.covers_iff hc']
        simpa using hexpiring
      refine .mono (takeOver_works hr hn hlimit hhouse hlater hy) ?_
      rintro _ _ _ - ⟨rfl, rfl, hdestined⟩
      exact ⟨hword, hdestined⟩
    next => exact copy
  | _ => exact copy

/-! ## Forms of products -/

theorem isX64_eq (hm : m.architecture = r.architecture) : r.isX64 = m.architecture.isX64 := by
  rw [hm]
  rfl

/-- An operation that overwrites its first operand, which is copied for it. -/
theorem buildOverwriting_works (hr : r.Ready) (hx64 : m.architecture = .x64)
    (hm : m.architecture = r.architecture) (hn : LockedWithin r.registers n)
    (hlimit : n < lockLimit) (hx : r.Supplies s x w) (hy : r.Expects y) {opcode : Opcode}
    {f : Word → Word → Word} (hf : opcode.onWords? = some f) {o : Operand} (ho : Legible r s a o) :
    Works m (buildOverwriting opcode x y o) r s fun _ r' s' => Produced r s y (f w a) r' s' := by
  unfold buildOverwriting emitTwo
  refine .bind (loadForWrite_works hr hm hn hlimit hx hy) ?_
  rintro d r₁ s₁ hw₁ ⟨hword, hdestined⟩
  have ho₁ := ho.undisturbed hw₁ hdestined.toUndisturbed
  refine .emit hw₁.ready (Straight.perform_overwriting hx64 hf ho₁.read) rfl ?_
  rw [hword]
  exact hdestined.produced none _

/-- **An operation on a value in a register**: the value is loaded, a destination is found, and
one operation computes the result. -/
theorem loaded_works (hr : r.Ready) (hm : m.architecture = r.architecture)
    (hn : LockedWithin r.registers 0) (hx : r.Supplies s x w) (hy : r.Expects y)
    {opcode : Opcode} {operands : Register → Register → List Operand}
    (hrun : ∀ (q d : Register) (t : State), t.registers q = w →
      m.perform t ⟨opcode, operands q d⟩ = some (.next, t.set d a)) :
    Works m (do
      let q ← load x
      let d ← reusableDestination x y
      emit opcode (operands q d)) r s fun _ r' s' => Produced r s y a r' s' := by
  refine .bind (load_works hr hm hn (by decide) hx) ?_
  rintro q r₁ s₁ hw₁ ⟨hn₁, hq, hspared⟩
  refine .bind (reusableDestination_works hw₁.ready (hm.trans hw₁.architecture.symm) hn₁ (by decide)
    (hspared.supplies hw₁ hx) (hy.worked hw₁)) ?_
  rintro d r₂ s₂ hw₂ hdestined
  have hq₂ := hq.undisturbed hw₂ hdestined.toUndisturbed
  cases hq₂ with
  | register _ hword =>
    refine .emit hw₂.ready (hrun q d s₂ hword) rfl ?_
    exact ((hdestined.after hspared hw₁).produced s₂.flags? _)

/-- **A product with a power of two.** -/
theorem buildShift_works (hr : r.Ready) (hm : m.architecture = r.architecture)
    (hn : LockedWithin r.registers 0) (hx : r.Supplies s x w) (hy : r.Expects y) {k : Nat}
    (hk : k < 64) :
    Works m (buildShift x k y) r s fun _ r' s' => Produced r s y (w * Word.powerOfTwo k) r' s' := by
  obtain ⟨c, hc, -⟩ := hx.integer
  unfold buildShift
  refine .step (a := r) rfl ?_
  rw [isX64_eq hm]
  cases harch : m.architecture with
  | arm64 =>
    simp only [Architecture.isX64, Bool.not_false, if_true]
    refine loaded_works hr hm hn hx hy fun q d t hword => ?_
    rw [Straight.perform_three harch rfl (.immediate (r := r)) (by simp) (by simp), hword,
      Straight.shiftLeft_eq hk]
  | x64 =>
    simp only [Architecture.isX64, Bool.not_true, Bool.false_eq_true, if_false]
    refine .step (handleOf_eq hc) (.step (isExpiring_eq hc) ?_)
    split
    · refine .bind (load_works hr hm hn (by decide) hx) ?_
      rintro q r₁ s₁ hw₁ ⟨hn₁, hq, hspared⟩
      refine .bind (allocateResult_works hw₁.ready (hm.trans hw₁.architecture.symm) hn₁ (by decide)
        (hy.worked hw₁)) ?_
      rintro d r₂ s₂ hw₂ ⟨-, -, hregisters, hdestined⟩
      have haddress : m.address? s₂ (.scaled q (Word.powerOfTwo k)) =
          some (w * Word.powerOfTwo k) := by
        cases hq with
        | register _ hword =>
          simp only [Machine.address?, MemoryOperand.scaled, Option.elim_some, Option.elim_none,
            hregisters, hword, Option.bind_eq_bind, Option.bind_some, Option.pure_def,
            Option.some.injEq]
          grind
      exact .emit hw₂.ready (Straight.perform_address haddress) rfl
        ((hdestined.after hspared hw₁).produced s₂.flags? _)
    · rw [← Straight.shiftLeft_eq hk]
      exact buildOverwriting_works hr harch hm hn (by decide) hx hy rfl .immediate

/-- On x64 an address with its base as the index. -/
theorem buildAddressProduct_works (hr : r.Ready) (hm : m.architecture = r.architecture)
    (hn : LockedWithin r.registers 0) (hx : r.Supplies s x w) (hy : r.Expects y) (k : Nat) :
    Works m (buildAddressProduct x k y) r s fun _ r' s' =>
      Produced r s y (w + w * Word.powerOfTwo k) r' s' := by
  refine loaded_works hr hm hn hx hy fun q d t hword => Straight.perform_address ?_
  simp only [Machine.address?, MemoryOperand.indexed, Option.elim_some, Machine.baseOf?, hword,
    Option.bind_eq_bind, Option.bind_some, Option.pure_def, Option.some.injEq]
  grind

/-- On arm64 a sum with a shifted operand. -/
theorem buildShiftedSum_works (hr : r.Ready) (harch : m.architecture = .arm64)
    (hm : m.architecture = r.architecture) (hn : LockedWithin r.registers 0)
    (hx : r.Supplies s x w) (hy : r.Expects y) {k : Nat} (hk : k < 64) :
    Works m (buildShiftedSum x k y) r s fun _ r' s' =>
      Produced r s y (w + w * Word.powerOfTwo k) r' s' := by
  refine loaded_works hr hm hn hx hy fun q d t hword => ?_
  rw [Straight.perform_arithmetic rfl, Machine.compute, harch]
  simp only [Machine.computeArm64, if_true, shiftOf?_text k hk, hword, Straight.shiftLeft_eq hk,
    Option.bind_eq_bind, Option.bind_some, Option.pure_def, Option.map_some]

/-- **A product of two values.** -/
theorem buildProduct_works (hr : r.Ready) (hm : m.architecture = r.architecture)
    (hn : LockedWithin r.registers 0) (hx : r.Supplies s x w) (hk : r.Supplies s v a)
    (hy : r.Expects y) :
    Works m (buildProduct x v y) r s fun _ r' s' => Produced r s y (w * a) r' s' := by
  unfold buildProduct
  refine .step (a := r) rfl ?_
  rw [isX64_eq hm]
  cases harch : m.architecture with
  | x64 =>
    simp only [Architecture.isX64, if_true]
    refine .bind (operand_works hr hm hn (by decide) hk .any) ?_
    rintro o r₁ s₁ hw₁ ⟨hn₁, ho, -, hspared⟩
    refine .mono (buildOverwriting_works hw₁.ready harch (hm.trans hw₁.architecture.symm) hn₁
      (by decide) (hspared.supplies hw₁ hx) (hy.worked hw₁) rfl ho) ?_
    intro _ r₂ s₂ _ hproduced
    exact hproduced.after hspared hw₁
  | arm64 =>
    simp only [Architecture.isX64, Bool.false_eq_true, if_false]
    refine .bind (load_works hr hm hn (by decide) hx) ?_
    rintro l r₁ s₁ hw₁ ⟨hn₁, hl, hspared₁⟩
    refine .bind (load_works hw₁.ready (hm.trans hw₁.architecture.symm) hn₁ (by decide)
      (hspared₁.supplies hw₁ hk)) ?_
    rintro q r₂ s₂ hw₂ ⟨hn₂, hq, hspared₂⟩
    have hspared := hspared₁.trans hw₁ hspared₂
    have hw := hw₁.trans hw₂
    refine .bind (reusableDestination_works hw₂.ready (hm.trans hw.architecture.symm) hn₂
      (by decide) (hspared.supplies hw hx) (hy.worked hw)) ?_
    rintro d r₃ s₃ hw₃ hdestined
    have hl₃ := (hl.undisturbed hw₂ hspared₂.toUndisturbed).undisturbed hw₃ hdestined.toUndisturbed
    have hq₃ := hq.undisturbed hw₃ hdestined.toUndisturbed
    cases hl₃ with
    | register _ hlword =>
      cases hq₃ with
      | register hlocked hqword =>
        refine .emit hw₃.ready (Straight.perform_three harch rfl (.register hlocked hqword)
          (by simp) (by simp)) rfl ?_
        rw [hlword]
        exact (hdestined.after hspared hw).produced s₃.flags? _

theorem perform_immediateProduct (harch : m.architecture = .x64) {o : Operand}
    (ho : Legible r s w o) (himmediate : ∀ i, o ≠ .immediate i) (c : Word) :
    m.perform s ⟨.multiply, [.register d, o, .immediate c]⟩ =
      some (.next, { s.set d (w * c) with flags? := none }) := by
  have hread := ho.read (m := m)
  rw [Straight.perform_arithmetic rfl, Machine.compute, harch]
  cases ho with
  | register => simp [Machine.computeX64, hread]
  | immediate => exact absurd rfl (himmediate w)
  | slot => simp [Machine.computeX64, hread]

/-- A product with a constant, which is also the value of the second operand. -/
theorem buildConstantProduct_works (hr : r.Ready) (hm : m.architecture = r.architecture)
    (hn : LockedWithin r.registers 0) (hx : r.Supplies s x w)
    (hplace : ∀ c, r.values.handleAt x ≠ .constant c) (hk : r.Supplies s v a) (hy : r.Expects y) :
    Works m (buildConstantProduct x a v y) r s fun _ r' s' => Produced r s y (w * a) r' s' := by
  unfold buildConstantProduct
  refine .step (a := r) rfl ?_
  rw [isX64_eq hm]
  split
  next hfit =>
    simp only [Bool.and_eq_true] at hfit
    have harch : m.architecture = .x64 := by
      cases ha : m.architecture
      · rfl
      · simp [ha, Architecture.isX64] at hfit
    refine .bind (operand_works hr hm hn (by decide) hx .any) ?_
    rintro o r₁ s₁ hw₁ ⟨hn₁, ho, himmediate, hspared⟩
    refine .bind (reusableDestination_works hw₁.ready (hm.trans hw₁.architecture.symm) hn₁
      (by decide) (hspared.supplies hw₁ hx) (hy.worked hw₁)) ?_
    rintro d r₂ s₂ hw₂ hdestined
    have ho₂ := ho.undisturbed hw₂ hdestined.toUndisturbed
    refine .emit hw₂.ready (perform_immediateProduct harch ho₂
      (fun i hi => hplace _ (himmediate i hi)) a) rfl ?_
    exact (hdestined.after hspared hw₁).produced none _
  next => exact buildProduct_works hr hm hn hx hk hy

/-- **A product with a constant**, which is also the value of the second operand. -/
theorem buildScaled_works (hr : r.Ready) (hm : m.architecture = r.architecture)
    (hn : LockedWithin r.registers 0) (hx : r.Supplies s x w)
    (hplace : ∀ c, r.values.handleAt x ≠ .constant c) (hk : r.Supplies s v a) (hy : r.Expects y) :
    Works m (buildScaled x a v y) r s fun _ r' s' => Produced r s y (w * a) r' s' := by
  unfold buildScaled
  split
  next k hexponent =>
    obtain ⟨hk, hpower⟩ := Straight.exponent?_eq_some hexponent
    rw [hpower]
    exact buildShift_works hr hm hn hx hy hk
  next =>
    refine .step (a := r) rfl ?_
    rw [isX64_eq hm]
    split
    next k hexponent =>
      obtain ⟨hk64, hpower⟩ : k < 64 ∧ a - 1 = Word.powerOfTwo k := by
        split at hexponent
        · exact Straight.exponent?_eq_some hexponent
        · simp at hexponent
      have hsum : w * a = w + w * Word.powerOfTwo k := by
        rw [← hpower]
        grind
      cases harch : m.architecture with
      | arm64 =>
        rw [hsum]
        exact buildShiftedSum_works hr harch hm hn hx hy hk64
      | x64 =>
        simp only [Architecture.isX64, Bool.not_true, Bool.false_eq_true, if_false]
        split
        · rw [hsum]
          exact buildAddressProduct_works hr hm hn hx hy k
        · exact buildConstantProduct_works hr hm hn hx hplace hk hy
    next => exact buildConstantProduct_works hr hm hn hx hplace hk hy

theorem integerOf?_eq {x : Cell} (hv : r.values.cell? v = some x) :
    integerOf? v r = .ok (match x.handle with
      | .constant (.integer w) => some w
      | _ => none) r := by
  unfold integerOf?
  rw [bind_of_ok (handleOf_eq hv)]
  split <;> simp_all <;> rfl

end Generating

/-! ## Products with constants -/

/-- **A product with a constant is next**: nothing is locked, one factor is in a register of its own
or in a slot, and the other one is a constant. -/
structure Routine.Multiplies (r : Routine) (x : ValueId) (p : Home) (k : ValueId) (c : Word)
    (y : ValueId) : Prop where
  ready : r.Ready
  unlocked : ∀ q, r.registers.locked.contains q = false
  factor : r.Reads x
  home : r.Houses x p
  constant : r.Reads k
  value : r.values.handleAt k = .constant (.integer c)
  result : r.Expects y
  apart : x ≠ y

theorem Routine.Ready.lockedWithin (hr : r.Ready)
    (h : ∀ q, r.registers.locked.contains q = false) : LockedWithin r.registers 0 := by
  refine ⟨⟨[], Nat.le_refl _, fun q hq => ?_⟩, fun q hq => ?_⟩
  · rw [h] at hq
    cases hq
  · by_contra hpos
    have := (hr.coherent.registers.locked_iff q).mpr ⟨hq, by omega⟩
    rw [h] at this
    cases this

namespace Generating

/-- **A product with a constant is exact**, whatever the constant is, wherever the other factor is
and whichever of the two comes first. The factor is still found if it is needed later. -/
theorem buildMultiplication_works {p : Home} {k first second : ValueId}
    (h : r.Multiplies x p k c y) (horder : first = x ∧ second = k ∨ first = k ∧ second = x) :
    ∃ r' ops, buildMultiplication first second y r = .ok () r' ∧
      r'.operations = r.operations ++ ops ∧ ∀ m s, m.architecture = r.architecture →
        ∃ t, m.execute ops s = some t ∧ Worked m r s r' t ∧
          Produced r s y (s.valueAt p * c) r' t ∧
          (r.values.Covers x (r.position + 1) → r'.Finds t x (s.valueAt p)) := by
  have hn := h.ready.lockedWithin h.unlocked
  obtain ⟨cy, hcy, hformat⟩ := h.result.integer
  obtain ⟨cx, hcx, -⟩ := h.factor.integer
  obtain ⟨ck, hck, -⟩ := h.constant.integer
  have hhome := h.home.home
  have hvalue := h.value
  rw [Arena.handleAt_eq hcx] at hhome
  rw [Arena.handleAt_eq hck] at hvalue
  have hask : integerOf? x r = .ok none r := by
    rw [integerOf?_eq hcx]
    revert hhome
    cases cx.handle <;> simp [Handle.home?]
  have hask' : integerOf? k r = .ok (some c) r := by
    rw [integerOf?_eq hck, hvalue]
  -- both orders lead to the same form
  have hform : buildMultiplication first second y r = buildScaled x c k y r := by
    unfold buildMultiplication
    rw [bind_of_ok (formatOf_eq hcy), hformat]
    simp only [Bool.false_eq_true, if_false]
    obtain ⟨rfl, rfl⟩ | ⟨rfl, rfl⟩ := horder
    · rw [bind_of_ok hask', bind_of_ok hask]
    · rw [bind_of_ok hask, bind_of_ok hask']
  have hworks (m : Machine) (s : State) (hm : m.architecture = r.architecture) :
      Works m (buildScaled x c k y) r s fun _ r' t => Produced r s y (s.valueAt p * c) r' t :=
    buildScaled_works h.ready hm hn ⟨h.factor, .inr ⟨p, h.home, rfl⟩⟩
      (fun number hnumber => by
        rw [Arena.handleAt_eq hcx] at hnumber
        rw [hnumber] at hhome
        cases hhome)
      ⟨h.constant, .inl h.value⟩ h.result
  have hmachine : ∃ (m : Machine) (_ : State), m.architecture = r.architecture :=
    ⟨⟨r.architecture, fun _ => 0, fun _ => 0⟩, ⟨fun _ => 0, fun _ => 0, fun _ => 0, none⟩, rfl⟩
  obtain ⟨_, r', ops, hbuild, hops, hrun⟩ := Works.uniform hmachine hworks
  refine ⟨r', ops, hform.trans hbuild, hops, fun m s hm => ?_⟩
  obtain ⟨t, ht, hworked, hproduced⟩ := hrun m s hm
  refine ⟨t, ht, hworked, hproduced, fun hlater => ?_⟩
  exact hproduced.later x _ h.apart h.factor.aloof h.factor.needed hlater ⟨p, h.home, rfl⟩

/-- The routine of the crossing moves, with a value for a result. -/
def scaling : Routine :=
  { crossing with
    values := ⟨crossingValues.cells.push ⟨.none, .i64, ⟨[], false, false⟩, ⟨0, 9⟩, none, []⟩⟩ }

theorem scaling_receivers (v : ValueId) : scaling.values.receivers v = [] := by
  match v with
  | 0 | 1 | 2 | 3 | 4 => rfl
  | _ + 5 => rfl

theorem scaling_aloof (v : ValueId) : scaling.values.Aloof v := fun u hu => by
  rw [scaling_receivers] at hu
  cases hu

theorem scaling_multiplies : scaling.Multiplies 0 (.register (.general 0)) 3 5 4 := by
  have hwell := crossing_registers.1
  have hunlocked (q : Register) : crossing.registers.lockCount q = 0 :=
    (crossing_registers.2.2.2 q).trans (RegisterFile.lockCount_reset (f := Target.x64.registerFile))
  refine ⟨⟨⟨hwell, fun q v hq hv => ?_, fun v w hw => ?_⟩, crossing_registers.2.1⟩, fun q => ?_,
    ⟨⟨_, rfl, rfl⟩, scaling_aloof 0, ⟨_, rfl, rfl⟩⟩, ⟨rfl, ?_, fun _ h => Home.noConfusion h⟩,
    ⟨⟨_, rfl, rfl⟩, scaling_aloof 3, ⟨_, rfl, rfl⟩⟩, rfl, ⟨⟨_, rfl, rfl⟩, scaling_aloof 4⟩,
    by decide⟩
  · exact Nat.lt_succ_of_lt (crossing_registers.2.2.1 q v hq hv)
  · rw [scaling_receivers] at hw
    cases hw
  · by_contra hlocked
    have hcount := ((hwell.locked_iff q).mp (Bool.eq_true_of_not_eq_false hlocked)).2
    rw [hunlocked] at hcount
    cases hcount
  · rintro _ ⟨⟩
    exact ⟨crossing_registers.2.1.inRange.mpr (by simp only [RegisterFile.InRange]; decide), rfl⟩

/-- Five times a value that is needed later. -/
theorem scaling_fivefold : ∃ r' t, buildMultiplication 3 0 4 scaling = .ok () r' ∧
    Machine.execute ⟨.x64, fun _ => 0, fun _ => 0⟩ r'.operations crossingState = some t ∧
    (∃ d, r'.Houses 4 (.register d) ∧ t.registers d = 50) ∧ r'.Finds t 0 10 := by
  obtain ⟨r', ops, hbuild, hops, hrun⟩ :=
    buildMultiplication_works scaling_multiplies (.inr ⟨rfl, rfl⟩)
  obtain rfl : r'.operations = ops := hops
  obtain ⟨t, ht, -, hproduced, hlater⟩ := hrun ⟨.x64, fun _ => 0, fun _ => 0⟩ crossingState rfl
  exact ⟨r', t, hbuild, ht, hproduced.result, hlater ⟨_, rfl, rfl⟩⟩

end Generating

end Codegen
