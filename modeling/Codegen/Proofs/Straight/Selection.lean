import Codegen.Proofs.Straight.Operand
import Codegen.Selection.Build

/-!
# Selected arithmetic computes its result

Whatever form the selection gives to a sum, a difference, a product or a copy, the operations leave
the word of the result in its register, and all that is needed later keeps its word.

* `perform_overwriting`, `perform_three`: the two forms of arithmetic;
* `shiftLeft_eq`, `exponent?_eq_some`: products with powers of two;
* `buildAdditive_spec`, `buildMultiplication_spec`, `buildDuplicate_spec`: the instructions.
-/

namespace Codegen.Straight

open Generating

variable {m : Machine} {K : Plan} {n : Nat}
variable {r r' : Routine} {s s' : Machine.State} {u v x : ValueId} {q d l : Register} {w : Word}

/-! ## Forms -/

theorem perform_arithmetic {opcode : Opcode} (h : opcode.onWords?.isSome = true)
    (xs : List Operand) :
    m.perform s ⟨opcode, xs⟩ = (m.compute s opcode xs).map (.next, ·) := by
  cases opcode <;> simp [Opcode.onWords?] at h <;> rfl

/-- Arithmetic on x64 overwrites its first operand. -/
theorem perform_overwriting (hm : m.architecture = .x64) {opcode : Opcode}
    {f : Word → Word → Word} (hf : opcode.onWords? = some f) {y : Operand}
    (hy : m.read s y = some w) :
    m.perform s ⟨opcode, [.register d, y]⟩ =
      some (.next, { s.set d (f (s.registers d) w) with flags? := none }) := by
  rw [perform_arithmetic (by simp [hf])]
  simp [Machine.compute, hm, Machine.computeX64, hf, hy]

/-- Arithmetic on arm64 has a destination of its own. -/
theorem perform_three (hm : m.architecture = .arm64) {opcode : Opcode}
    {f : Word → Word → Word} (hf : opcode.onWords? = some f) {y : Operand}
    (hy : Readable r s w y) (hmem : ∀ o, y ≠ .memory o)
    (himm : opcode = .multiply → ∀ i, y ≠ .immediate i) :
    m.perform s ⟨opcode, [.register d, .register l, y]⟩ =
      some (.next, s.set d (f (s.registers l) w)) := by
  rw [perform_arithmetic (by simp [hf])]
  cases hy with
  | register hq hw => simp [Machine.compute, hm, Machine.computeArm64, hf, hw]
  | immediate =>
    have : opcode ≠ .multiply := fun h => himm h w rfl
    simp [Machine.compute, hm, Machine.computeArm64, hf, this]
  | slot => exact absurd rfl (hmem _)

theorem Sound.isX64 {live : ValueId → Prop} (h : Sound m K live n r s) :
    r.isX64 = m.architecture.isX64 := by
  rw [← h.architecture]
  rfl

/-- An operation that overwrites its first operand, which is copied for it. -/
theorem buildOverwriting_spec (hm : m.architecture = .x64)
    (h : Sound m K (K.Needed r.position) n r s) (hn : n + 1 < lockLimit) (hx : Fresh K r.position x)
    (hv : Usable K (K.Needed r.position) v) {opcode : Opcode} {f : Word → Word → Word}
    (hf : opcode.onWords? = some f) {y : Operand} (hy : Readable r s w y)
    (hword : K.word x = f (K.word v) w) :
    Emits m (buildOverwriting opcode v x y) r s fun _ r' s' => Made m K x r' s' := by
  unfold buildOverwriting emitTwo
  refine .bind (loadForWrite_spec h hn hx hv) ?_
  rintro d r₁ s₁ ⟨hready, hd, hkeep⟩
  have hy₁ := hkeep w y hy
  refine .emit (perform_overwriting hm hf hy₁.read)
    (.arithmetic hready.general.allocatable (by simp [hf]) (by simpa using hy₁.isSimple)) ?_
  rw [hd, ← hword]
  exact hready.made none _

/-! ## Sums -/

theorem isAddressSum_eq (h : Sound m K (K.Needed r.position) n r s)
    (hu : Usable K (K.Needed r.position) u) (hv : Usable K (K.Needed r.position) v) :
    ∃ b, isAddressSum u v r = .ok b r := by
  obtain ⟨c, hc, -, hh⟩ := h.cell hu.1
  obtain ⟨c', hc', -, -⟩ := h.cell hv.1
  obtain ⟨-, hreg, -, -⟩ := h.source hu
  rw [hh] at hreg
  unfold isAddressSum
  rw [bind_of_ok (handleOf_eq hc)]
  cases hcase : c.handle with
  | register q =>
    obtain ⟨b, hb, -⟩ := isExpiring_iff h (hreg q hcase).1
    simp only []
    rw [bind_of_ok hb]
    cases b
    · simp only [Bool.false_eq_true, if_false]
      rw [bind_of_ok (handleOf_eq hc')]
      cases c'.handle with
      | constant number => cases number <;> exact ⟨_, rfl⟩
      | _ => exact ⟨_, rfl⟩
    · exact ⟨false, rfl⟩
  | _ => exact ⟨false, rfl⟩

theorem perform_address {o : MemoryOperand} (h : m.address? s o = some w) :
    m.perform s ⟨.loadAddress, [.register d, .memory o]⟩ = some (.next, s.set d w) := by
  change (m.address? s o).map _ = _
  rw [h]
  rfl

/-- A sum computed as an address. -/
theorem buildAddressSum_spec (h : Sound m K (K.Needed r.position) 0 r s)
    (hx : Fresh K r.position x) (hu : Usable K (K.Needed r.position) u)
    (hv : Usable K (K.Needed r.position) v) (hword : K.word x = K.word u + K.word v) :
    Emits m (buildAddressSum u v x) r s fun _ r' s' => Made m K x r' s' := by
  unfold buildAddressSum
  refine .bind (load_spec h (by decide) hu) ?_
  rintro l r₁ s₁ ⟨h₁, hl₁, hst₁⟩
  refine .bind (operand_spec h₁ (by decide) hv _) ?_
  rintro y r₂ s₂ ⟨h₂, hy₂, hacc, hst₂⟩
  rw [← (hst₁.trans hst₂).position] at h₂ hx
  have hl₂ := hl₁.steady hst₂
  -- either form of the address gives the sum
  have finish (o : MemoryOperand) (ho : ∀ k, o.base? ≠ some (.slot k))
      (haddr : ∀ t : Machine.State, t.registers = s₂.registers →
        m.address? t o = some (K.word x)) :
      Emits m (do emitAddress (← allocateResult x) o) r₂ s₂ fun _ r' s' => Made m K x r' s' := by
    refine .bind (allocateResult_spec h₂ (by decide) hx) ?_
    rintro d r₃ s₃ ⟨hready, -, hregs, -⟩
    exact .emit (perform_address (haddr s₃ hregs)) (.address hready.general.allocatable ho)
      (hready.made s₃.flags? _)
  cases hl₂ with
  | register _ hlw =>
    cases hy₂ with
    | @register q _ hqw =>
      refine .bind (Q := fun o r' t => o = .indexed (.register l) q 1 0 ∧ r' = r₂ ∧ t = s₂)
        (.pure ⟨rfl, rfl, rfl⟩) ?_
      rintro _ _ _ ⟨rfl, rfl, rfl⟩
      refine finish _ (by simp [MemoryOperand.indexed]) fun t ht => ?_
      simp only [Machine.address?, MemoryOperand.indexed, Option.elim_some, Machine.baseOf?, ht,
        hlw, hqw, hword, Option.bind_eq_bind, Option.bind_some, Option.pure_def,
        Option.some.injEq]
      grind
    | immediate =>
      refine .bind (Q := fun o r' t => o = .displaced (.register l) (K.word v) ∧ r' = r₂ ∧ t = s₂)
        (.pure ⟨rfl, rfl, rfl⟩) ?_
      rintro _ _ _ ⟨rfl, rfl, rfl⟩
      refine finish _ (by simp [MemoryOperand.displaced]) fun t ht => ?_
      simp only [Machine.address?, MemoryOperand.displaced, Option.elim_some, Option.elim_none,
        Machine.baseOf?, ht, hlw, hword, Option.bind_eq_bind, Option.bind_some, Option.pure_def,
        Option.some.injEq]
      grind
    | slot => simpa using (hacc.memory _ rfl).1

/-- A sum or a difference. -/
theorem buildAdditive_spec (h : Sound m K (K.Needed r.position) 0 r s)
    (hx : Fresh K r.position x) (hu : Usable K (K.Needed r.position) u)
    (hv : Usable K (K.Needed r.position) v) {opcode : Opcode} {f : Word → Word → Word}
    (hop : opcode = .add ∨ opcode = .subtract) (hf : opcode.onWords? = some f)
    (hword : K.word x = f (K.word u) (K.word v)) :
    Emits m (buildAdditive opcode u v x) r s fun _ r' s' => Made m K x r' s' := by
  obtain ⟨c, hc, hd, -⟩ := h.cell hx.lt_size
  unfold buildAdditive
  refine .step (formatOf_eq hc) ?_
  simp only [hd.format, Format.isDecimal, Bool.false_eq_true, if_false]
  refine .step (a := r) rfl ?_
  rw [h.isX64]
  cases hm : m.architecture with
  | arm64 =>
    simp only [Architecture.isX64, Bool.not_false, if_true]
    refine .bind (load_spec h (by decide) hu) ?_
    rintro l r₁ s₁ ⟨h₁, hl₁, hst₁⟩
    refine .bind (operand_spec h₁ (by decide) hv _) ?_
    rintro y r₂ s₂ ⟨h₂, hy₂, hacc, hst₂⟩
    have hpos := (hst₁.trans hst₂).position
    rw [← hpos] at h₂ hx hu
    refine .bind (reusableDestination_spec h₂ (by decide) hx hu) ?_
    rintro d r₃ s₃ ⟨hready, hst₃⟩
    have hl₃ := (hl₁.steady hst₂).steady hst₃
    have hy₃ := hy₂.steady hst₃
    refine .emit (perform_three hm hf hy₃ (fun o ho => ?_) fun hmul => ?_)
      (.arithmetic hready.general.allocatable (by simp [hf])
        (by simpa using ⟨hl₃.isSimple, hy₃.isSimple⟩)) ?_
    · simpa using (hacc.memory o ho).1
    · rcases hop with rfl | rfl <;> simp at hmul
    · cases hl₃ with
      | register hlock hlw =>
        rw [hlw, ← hword]
        exact hready.made s₃.flags? _
  | x64 =>
    simp only [Architecture.isX64, Bool.not_true, Bool.false_eq_true, if_false]
    obtain ⟨b, hb⟩ := isAddressSum_eq h hu hv
    have overwriting : Emits m (do let source ← operand v .any; buildOverwriting opcode u x source)
        r s fun _ r' s' => Made m K x r' s' := by
      refine .bind (operand_spec h (by decide) hv _) ?_
      rintro y r₁ s₁ ⟨h₁, hy₁, -, hst₁⟩
      rw [← hst₁.position] at h₁ hx hu
      exact buildOverwriting_spec hm h₁ (by decide) hx hu hf hy₁ hword
    refine .step hb ?_
    split
    next hadd =>
      simp only [Bool.and_eq_true, beq_iff_eq] at hadd
      rw [hadd.1] at hf
      obtain rfl := Option.some.inj hf
      exact buildAddressSum_spec h hx hu hv hword
    next => exact overwriting

/-! ## Products with powers of two -/

theorem shiftLeft_eq {k : Nat} (hk : k < 64) (a : Word) :
    a <<< Int64.ofNat k = a * Word.powerOfTwo k := by
  have small : ∀ k < 64, (Int64.ofNat k).toBitVec.smod 64 = BitVec.ofNat 64 k := by decide
  have power : (Word.powerOfTwo k).toBitVec = BitVec.twoPow 64 k := by
    apply BitVec.eq_of_toNat_eq
    simp [Word.powerOfTwo, BitVec.toNat_twoPow, Nat.shiftLeft_eq]
  rw [← Int64.toBitVec_inj, Int64.toBitVec_mul, Int64.toBitVec_shiftLeft, small k hk, power,
    BitVec.mul_twoPow_eq_shiftLeft, BitVec.shiftLeft_eq']
  congr 1
  simp
  omega

theorem exponent?_eq_some {k : Nat} (h : Word.exponent? w = some k) :
    k < 64 ∧ w = Word.powerOfTwo k := by
  unfold Word.exponent? at h
  simp only at h
  split at h
  next hc =>
    obtain rfl := Option.some.inj h
    obtain ⟨hpos, hpow⟩ := hc
    have hlt := w.toInt_lt
    refine ⟨?_, ?_⟩
    · rw [Nat.log2_lt (by omega)]
      omega
    · rw [Word.powerOfTwo, hpow, ← Int64.toInt_inj, Int64.toInt_ofNat_of_lt (by omega)]
      omega
  next => simp at h

/-- A product with a power of two. -/
theorem buildShift_spec (h : Sound m K (K.Needed r.position) 0 r s) (hx : Fresh K r.position x)
    (hv : Usable K (K.Needed r.position) v) {k : Nat} (hk : k < 64)
    (hword : K.word x = K.word v * Word.powerOfTwo k) :
    Emits m (buildShift v k x) r s fun _ r' s' => Made m K x r' s' := by
  obtain ⟨c, hc, -, hh⟩ := h.cell hv.1
  obtain ⟨-, hreg, -, -⟩ := h.source hv
  rw [hh] at hreg
  unfold buildShift
  refine .step (a := r) rfl ?_
  rw [h.isX64]
  cases hm : m.architecture with
  | arm64 =>
    simp only [Architecture.isX64, Bool.not_false, if_true]
    refine .bind (load_spec h (by decide) hv) ?_
    rintro l r₁ s₁ ⟨h₁, hl₁, hst₁⟩
    rw [← hst₁.position] at h₁ hx hv
    refine .bind (reusableDestination_spec h₁ (by decide) hx hv) ?_
    rintro d r₂ s₂ ⟨hready, hst₂⟩
    have hl₂ := hl₁.steady hst₂
    refine .emit (perform_three hm rfl (.immediate (r := r₂)) (by simp) (by simp))
      (.arithmetic hready.general.allocatable rfl (by simpa using ⟨hl₂.isSimple, trivial⟩)) ?_
    cases hl₂ with
    | register _ hlw =>
      rw [hlw, shiftLeft_eq hk, ← hword]
      exact hready.made s₂.flags? _
  | x64 =>
    simp only [Architecture.isX64, Bool.not_true, Bool.false_eq_true, if_false]
    refine .step (handleOf_eq hc) (.step (isExpiring_eq hc) ?_)
    split
    · refine .bind (load_spec h (by decide) hv) ?_
      rintro l r₁ s₁ ⟨h₁, hl₁, hst₁⟩
      rw [← hst₁.position] at h₁ hx
      refine .bind (allocateResult_spec h₁ (by decide) hx) ?_
      rintro d r₂ s₂ ⟨hready, -, hregs, -⟩
      have haddr : m.address? s₂ (.scaled l (Word.powerOfTwo k)) = some (K.word x) := by
        cases hl₁ with
        | register _ hlw =>
          simp only [Machine.address?, MemoryOperand.scaled, Option.elim_some, Option.elim_none,
            hregs, hlw, hword, Option.bind_eq_bind, Option.bind_some, Option.pure_def,
            Option.some.injEq]
          grind
      exact .emit (perform_address haddr)
        (.address hready.general.allocatable (by simp [MemoryOperand.scaled]))
        (hready.made s₂.flags? _)
    · refine buildOverwriting_spec hm h (by decide) hx hv rfl .immediate ?_
      rw [hword, shiftLeft_eq hk]

/-! ## Products with one more than a power of two -/

/-- On x64 an address with its base as the index. -/
theorem buildAddressProduct_spec (h : Sound m K (K.Needed r.position) 0 r s)
    (hx : Fresh K r.position x) (hv : Usable K (K.Needed r.position) v) {k : Nat}
    (hword : K.word x = K.word v + K.word v * Word.powerOfTwo k) :
    Emits m (buildAddressProduct v k x) r s fun _ r' s' => Made m K x r' s' := by
  unfold buildAddressProduct
  refine .bind (load_spec h (by decide) hv) ?_
  rintro l r₁ s₁ ⟨h₁, hl₁, hst₁⟩
  rw [← hst₁.position] at h₁ hx hv
  refine .bind (reusableDestination_spec h₁ (by decide) hx hv) ?_
  rintro d r₂ s₂ ⟨hready, hst₂⟩
  have hl₂ := hl₁.steady hst₂
  have haddr : m.address? s₂ (.indexed (.register l) l (Word.powerOfTwo k) 0) =
      some (K.word x) := by
    cases hl₂ with
    | register _ hlw =>
      simp only [Machine.address?, MemoryOperand.indexed, Option.elim_some, Machine.baseOf?, hlw,
        hword, Option.bind_eq_bind, Option.bind_some, Option.pure_def, Option.some.injEq]
      grind
  exact .emit (perform_address haddr)
    (.address hready.general.allocatable (by simp [MemoryOperand.indexed]))
    (hready.made s₂.flags? _)

/-- On arm64 a sum with a shifted operand. -/
theorem buildShiftedSum_spec (hm : m.architecture = .arm64)
    (h : Sound m K (K.Needed r.position) 0 r s) (hx : Fresh K r.position x)
    (hv : Usable K (K.Needed r.position) v) {k : Nat} (hk : k < 64)
    (hword : K.word x = K.word v + K.word v * Word.powerOfTwo k) :
    Emits m (buildShiftedSum v k x) r s fun _ r' s' => Made m K x r' s' := by
  unfold buildShiftedSum
  refine .bind (load_spec h (by decide) hv) ?_
  rintro l r₁ s₁ ⟨h₁, hl₁, hst₁⟩
  rw [← hst₁.position] at h₁ hx hv
  refine .bind (reusableDestination_spec h₁ (by decide) hx hv) ?_
  rintro d r₂ s₂ ⟨hready, hst₂⟩
  have hl₂ := hl₁.steady hst₂
  have hrun : m.perform s₂ ⟨.add, [.register d, .register l, .register l,
      .modifier s!"lsl #{k}"]⟩ = some (.next, s₂.set d (K.word x)) := by
    cases hl₂ with
    | register _ hlw =>
      rw [perform_arithmetic rfl, Machine.compute, hm]
      simp only [Machine.computeArm64, if_true, shiftOf?_text k hk, hlw, hword, shiftLeft_eq hk,
        Option.bind_eq_bind, Option.bind_some, Option.pure_def, Option.map_some]
  exact .emit hrun (.arithmetic hready.general.allocatable rfl
    (by simpa using ⟨hl₂.isSimple, trivial⟩)) (hready.made s₂.flags? _)

/-! ## Products -/

/-- A product of two values. -/
theorem buildProduct_spec (h : Sound m K (K.Needed r.position) 0 r s)
    (hx : Fresh K r.position x) (hu : Usable K (K.Needed r.position) u)
    (hv : Usable K (K.Needed r.position) v) (hword : K.word x = K.word u * K.word v) :
    Emits m (buildProduct u v x) r s fun _ r' s' => Made m K x r' s' := by
  unfold buildProduct
  refine .step (a := r) rfl ?_
  rw [h.isX64]
  cases hm : m.architecture with
  | x64 =>
    simp only [Architecture.isX64, if_true]
    refine .bind (operand_spec h (by decide) hv _) ?_
    rintro y r₁ s₁ ⟨h₁, hy₁, -, hst₁⟩
    rw [← hst₁.position] at h₁ hx hu
    exact buildOverwriting_spec hm h₁ (by decide) hx hu rfl hy₁ hword
  | arm64 =>
    simp only [Architecture.isX64, Bool.false_eq_true, if_false]
    refine .bind (load_spec h (by decide) hu) ?_
    rintro l r₁ s₁ ⟨h₁, hl₁, hst₁⟩
    refine .bind (load_spec h₁ (by decide) hv) ?_
    rintro q r₂ s₂ ⟨h₂, hq₂, hst₂⟩
    rw [← (hst₁.trans hst₂).position] at h₂ hx hu
    refine .bind (reusableDestination_spec h₂ (by decide) hx hu) ?_
    rintro d r₃ s₃ ⟨hready, hst₃⟩
    have hl₃ := (hl₁.steady hst₂).steady hst₃
    have hq₃ := hq₂.steady hst₃
    refine .emit (perform_three hm rfl hq₃ (by simp) (by simp))
      (.arithmetic hready.general.allocatable rfl (by simpa using ⟨hl₃.isSimple, hq₃.isSimple⟩)) ?_
    cases hl₃ with
    | register _ hlw =>
      rw [hlw, ← hword]
      exact hready.made s₃.flags? _

theorem perform_immediateProduct (hm : m.architecture = .x64) {y : Operand}
    (hy : Readable r s w y) (himm : ∀ i, y ≠ .immediate i) (c : Word) :
    m.perform s ⟨.multiply, [.register d, y, .immediate c]⟩ =
      some (.next, { s.set d (w * c) with flags? := none }) := by
  have hread := hy.read (m := m)
  rw [perform_arithmetic rfl, Machine.compute, hm]
  cases hy with
  | register => simp [Machine.computeX64, hread]
  | immediate => exact absurd rfl (himm w)
  | slot => simp [Machine.computeX64, hread]

/-- A product with a constant, which is also the value of the second operand. -/
theorem buildConstantProduct_spec (h : Sound m K (K.Needed r.position) 0 r s)
    (hx : Fresh K r.position x) (hu : Usable K (K.Needed r.position) u)
    (hk : K.isConstant u = false) (hv : Usable K (K.Needed r.position) v)
    (hword : K.word x = K.word u * K.word v) :
    Emits m (buildConstantProduct u (K.word v) v x) r s fun _ r' s' => Made m K x r' s' := by
  unfold buildConstantProduct
  refine .step (a := r) rfl ?_
  rw [h.isX64]
  split
  next hfit =>
    simp only [Bool.and_eq_true] at hfit
    have hm : m.architecture = .x64 := by
      cases ha : m.architecture
      · rfl
      · simp [ha, Architecture.isX64] at hfit
    refine .bind (operand_spec h (by decide) hu _) ?_
    rintro y r₁ s₁ ⟨h₁, hy₁, hacc, hst₁⟩
    rw [← hst₁.position] at h₁ hx hu
    refine .bind (reusableDestination_spec h₁ (by decide) hx hu) ?_
    rintro d r₂ s₂ ⟨hready, hst₂⟩
    have hy₂ := hy₁.steady hst₂
    have himm (i : Word) : y ≠ .immediate i := fun hy => by simp [hacc.immediate i hy] at hk
    refine .emit (perform_immediateProduct hm hy₂ himm _)
      (.arithmetic hready.general.allocatable rfl (by simpa using ⟨hy₂.isSimple, trivial⟩)) ?_
    rw [← hword]
    exact hready.made none _
  next => exact buildProduct_spec h hx hu hv hword

/-- A product with a constant. -/
theorem buildScaled_spec (h : Sound m K (K.Needed r.position) 0 r s)
    (hx : Fresh K r.position x) (hu : Usable K (K.Needed r.position) u)
    (hk : K.isConstant u = false) (hv : Usable K (K.Needed r.position) v)
    (hword : K.word x = K.word u * K.word v) :
    Emits m (buildScaled u (K.word v) v x) r s fun _ r' s' => Made m K x r' s' := by
  unfold buildScaled
  split
  next k hexp =>
    obtain ⟨hk64, hpow⟩ := exponent?_eq_some hexp
    exact buildShift_spec h hx hu hk64 (by rw [hword, ← hpow])
  next =>
    refine .step (a := r) rfl ?_
    rw [h.isX64]
    split
    next k hexp =>
      obtain ⟨hk64, hpow⟩ : k < 64 ∧ K.word v - 1 = Word.powerOfTwo k := by
        split at hexp
        · exact exponent?_eq_some hexp
        · simp at hexp
      have hsum : K.word x = K.word u + K.word u * Word.powerOfTwo k := by
        rw [hword, ← hpow]
        grind
      cases hm : m.architecture with
      | arm64 => exact buildShiftedSum_spec hm h hx hu hk64 hsum
      | x64 =>
        simp only [Architecture.isX64, Bool.not_true, Bool.false_eq_true, if_false]
        split
        · exact buildAddressProduct_spec h hx hu hsum
        · exact buildConstantProduct_spec h hx hu hk hv hword
    next => exact buildConstantProduct_spec h hx hu hk hv hword

theorem integerOf?_eq (h : Sound m K (K.Needed r.position) n r s)
    (hv : Usable K (K.Needed r.position) v) :
    integerOf? v r = .ok (if K.isConstant v then some (K.word v) else none) r := by
  obtain ⟨c, hc, hd, hh⟩ := h.cell hv.1
  obtain ⟨hsrc, -, -, hconst⟩ := h.source hv
  rw [hh] at hsrc hconst
  unfold integerOf?
  rw [bind_of_ok (handleOf_eq hc)]
  by_cases hk : K.isConstant v = true
  · rw [hd.constant hk, if_pos hk]
    rfl
  · rw [if_neg hk]
    cases hcase : c.handle
    all_goals
      rw [hcase] at hsrc
      cases hsrc
    · exact absurd (hconst _ hcase) hk
    · rfl
    · rfl

/-- **A product**; of two operands at most the second is a literal. -/
theorem buildMultiplication_spec (h : Sound m K (K.Needed r.position) 0 r s)
    (hx : Fresh K r.position x) (hu : Usable K (K.Needed r.position) u)
    (hk : K.isConstant u = false) (hv : Usable K (K.Needed r.position) v)
    (hword : K.word x = K.word u * K.word v) :
    Emits m (buildMultiplication u v x) r s fun _ r' s' => Made m K x r' s' := by
  obtain ⟨c, hc, hd, -⟩ := h.cell hx.lt_size
  unfold buildMultiplication
  refine .step (formatOf_eq hc) ?_
  simp only [hd.format, Format.isDecimal, Bool.false_eq_true, if_false]
  refine .step (integerOf?_eq h hv) (.step (integerOf?_eq h hu) ?_)
  rw [hk]
  by_cases hkv : K.isConstant v = true
  · rw [if_pos hkv]
    exact buildScaled_spec h hx hu hk hv hword
  · rw [if_neg hkv]
    exact buildProduct_spec h hx hu hv hword

/-! ## Copies -/

theorem buildDuplicate_spec (h : Sound m K (K.Needed r.position) 0 r s)
    (hx : Fresh K r.position x) (hv : Usable K (K.Needed r.position) v)
    (hword : K.word x = K.word v) :
    Emits m (buildDuplicate v x) r s fun _ r' s' => Made m K x r' s' := by
  obtain ⟨c, hc, hd, -⟩ := h.cell hx.lt_size
  obtain ⟨c', hc', hd', hh'⟩ := h.cell hv.1
  obtain ⟨hsrc, -, hslot, -⟩ := h.source hv
  rw [hh'] at hsrc hslot
  unfold buildDuplicate transferToRegister
  refine .step (formatOf_eq hc) ?_
  rw [hd.format]
  refine .step (sourceAs_eq hc' hd'.format) (.bind (allocateResult_spec h (by decide) hx) ?_)
  rintro d r₁ s₁ ⟨hready, -, hregs, hst⟩
  refine (transferInto_spec (hsrc.steady hslot hregs hst) (hst.slot hslot) hready.general _).mono ?_
  rintro - _ _ ⟨rfl, ops, rfl⟩
  rw [← hword]
  exact hready.made s₁.flags? ops

end Codegen.Straight
