import Codegen.Proofs.Frame.Around
import Codegen.Proofs.Machine.Basic

/-!
# Running the operations around a body

A machine that computes runs the prologue and the epilogue of a function to their end, from any
state. They write no register that carries arguments or results.

* `Machine.WritesOnly`: operations that run to their end and leave the other registers alone;
* `Frame.prologue_writesOnly`, `Frame.restoring_writesOnly`: **into the frame and out of it**.
-/

namespace Codegen

namespace Machine

variable {m : Machine} {s : State} {R R' : Register → Prop} {xs ys : List Operation}
variable {o : Operation} {q r : Register} {a : Architecture} {rs : List Register}

/-- **The operations run to their end** from any state, and write no register but some. -/
def WritesOnly (m : Machine) (R : Register → Prop) (ops : List Operation) : Prop :=
  ∀ s, ∃ t, m.execute ops s = some t ∧ ∀ q, ¬ R q → t.registers q = s.registers q

theorem WritesOnly.mono (h : m.WritesOnly R xs) (hR : ∀ q, R q → R' q) : m.WritesOnly R' xs :=
  fun s => by
    obtain ⟨t, ht, hq⟩ := h s
    exact ⟨t, ht, fun q hn => hq q (mt (hR q) hn)⟩

theorem WritesOnly.append (h : m.WritesOnly R xs) (h' : m.WritesOnly R ys) :
    m.WritesOnly R (xs ++ ys) := fun s => by
  obtain ⟨t, ht, hq⟩ := h s
  obtain ⟨u, hu, hq'⟩ := h' t
  exact ⟨u, by rw [execute_append ht, hu], fun q hn => (hq' q hn).trans (hq q hn)⟩

theorem WritesOnly.of_forall (h : ∀ o ∈ xs, m.WritesOnly R [o]) : m.WritesOnly R xs := by
  induction xs with
  | nil => exact fun s => ⟨s, rfl, fun _ _ => rfl⟩
  | cons o xs ih =>
    rw [List.forall_mem_cons] at h
    exact (show m.WritesOnly R ([o] ++ xs) from h.1.append (ih h.2))

theorem WritesOnly.single (h : ∀ s, ∃ t, m.perform s o = some (.next, t) ∧
    ∀ q, ¬ R q → t.registers q = s.registers q) : m.WritesOnly R [o] := fun s => by
  obtain ⟨t, ht, hq⟩ := h s
  exact ⟨t, execute_singleton ht, hq⟩

/-! ## The stack -/

theorem pushWords_registers (m : Machine) (s : State) (bytes : Nat) (ws : List Word)
    (hq : q ≠ m.architecture.target.stackPointer) :
    (m.pushWords s bytes ws).registers q = s.registers q := by
  have stores (ws : List (Word × Nat)) (low : Word) (s : State) :
      (ws.foldl (fun s x => s.store (.word (low + Int64.ofNat (8 * x.2))) x.1) s).registers =
        s.registers := by
    induction ws generalizing s with
    | nil => rfl
    | cons w ws ih => rw [List.foldl_cons, ih, State.store_registers]
  rw [pushWords, stores, State.set_registers_of_ne hq]

theorem popWords_registers (m : Machine) (s : State) (bytes : Nat)
    (hq : q ≠ m.architecture.target.stackPointer) (hrs : q ∉ rs) :
    (m.popWords s bytes rs).registers q = s.registers q := by
  have loads (rs : List (Register × Nat)) (f : Nat → Word) (t : State)
      (hrs : ∀ x ∈ rs, x.1 ≠ q) :
      (rs.foldl (fun t x => t.set x.1 (f x.2)) t).registers q = t.registers q := by
    induction rs generalizing t with
    | nil => rfl
    | cons x rs ih =>
      rw [List.forall_mem_cons] at hrs
      rw [List.foldl_cons, ih _ hrs.2, State.set_registers_of_ne hrs.1.symm]
  rw [popWords, loads _ fun i => s.memory (s.registers m.architecture.target.stackPointer +
    Int64.ofNat (8 * i)), State.set_registers_of_ne hq]
  rintro x hx rfl
  exact hrs (List.fst_mem_of_mem_zipIdx hx)

theorem mapM_register? (rs : List Register) :
    rs.mapM (Operand.register? ∘ Operand.register) = some rs := by
  induction rs with
  | nil => rfl
  | cons r rs ih =>
    rw [List.mapM_cons, ih]
    rfl

variable (hm : m.architecture = a)
include hm

theorem save_writesOnly (h : a.IsChunk rs) :
    m.WritesOnly (· = a.target.stackPointer) [Frame.onRegisters a.saving rs] := by
  subst hm
  obtain ⟨hne, hlen⟩ := h
  refine .single fun s => ?_
  cases ha : m.architecture with
  | x64 =>
    rw [ha, Architecture.chunkBytes] at hlen
    obtain ⟨r, rfl⟩ := List.length_eq_one_iff.mp
      (show rs.length = 1 by have := List.length_pos_iff.mpr hne; omega)
    refine ⟨m.pushWords s 8 [s.registers r], ?_, fun q hq => pushWords_registers m s _ _ ?_⟩
    · simp [perform, Frame.onRegisters, Architecture.saving, stack, ha, Architecture.isX64, read]
    · rwa [ha]
  | arm64 =>
    refine ⟨m.pushWords s 16 (rs.map s.registers), ?_, fun q hq => pushWords_registers m s _ _ ?_⟩
    · simp [perform, Frame.onRegisters, Architecture.saving, stack, ha, Architecture.isX64,
        mapM_register?]
    · rwa [ha]

theorem restore_writesOnly (h : a.IsChunk rs) :
    m.WritesOnly (fun q => q = a.target.stackPointer ∨ q ∈ rs)
      [Frame.onRegisters a.restoring rs] := by
  subst hm
  obtain ⟨hne, hlen⟩ := h
  refine .single fun s => ?_
  cases ha : m.architecture with
  | x64 =>
    rw [ha, Architecture.chunkBytes] at hlen
    obtain ⟨r, rfl⟩ := List.length_eq_one_iff.mp
      (show rs.length = 1 by have := List.length_pos_iff.mpr hne; omega)
    refine ⟨m.popWords s 8 [r], ?_, fun q hq => ?_⟩
    · simp [perform, Frame.onRegisters, Architecture.restoring, stack, ha, Architecture.isX64]
    · rw [not_or] at hq
      exact popWords_registers m s _ (by rw [ha]; exact hq.1) hq.2
  | arm64 =>
    refine ⟨m.popWords s 16 rs, ?_, fun q hq => ?_⟩
    · simp [perform, Frame.onRegisters, Architecture.restoring, stack, ha, Architecture.isX64,
        mapM_register?]
    · rw [not_or] at hq
      exact popWords_registers m s _ (by rw [ha]; exact hq.1) hq.2

omit hm in
theorem move_writesOnly (m : Machine) (q r : Register) :
    m.WritesOnly (· = q) [Frame.onRegisters .move [q, r]] :=
  .single fun s => ⟨s.set q (s.registers r), rfl, fun _ hp => State.set_registers_of_ne hp⟩

omit hm in
theorem sum_writesOnly (ha : m.architecture = .arm64) {c : Opcode} (hc : c = .add ∨ c = .subtract)
    (d l : Register) {x : Operand} (hx : ∃ w, x = .immediate w ∨ ∃ r, x = .register r) :
    m.WritesOnly (· = d) [⟨c, [.register d, .register l, x]⟩] := by
  refine .single fun s => ?_
  obtain ⟨w, rfl | ⟨r, rfl⟩⟩ := hx <;> rcases hc with rfl | rfl
  all_goals
    simp only [perform, compute, ha]
    exact ⟨_, rfl, fun q hq => State.set_registers_of_ne hq⟩

omit hm in
theorem sumInto_writesOnly (ha : m.architecture = .x64) {c : Opcode}
    (hc : c = .add ∨ c = .subtract) (d : Register) (w : Word) :
    m.WritesOnly (· = d) [⟨c, [.register d, .immediate w]⟩] := by
  refine .single fun s => ?_
  rcases hc with rfl | rfl
  all_goals
    simp only [perform, compute, ha]
    exact ⟨_, rfl, fun q hq => State.set_registers_of_ne hq⟩

theorem adjustStack_writesOnly {c : Opcode} (hc : c = .add ∨ c = .subtract) (bytes : Nat) :
    m.WritesOnly (fun q => q = a.target.stackPointer ∨ a.target.scratch? = some q)
      (Frame.adjustStack a c bytes) := by
  unfold Frame.adjustStack
  dsimp only
  split
  · exact fun s => ⟨s, rfl, fun _ _ => rfl⟩
  · cases a with
    | x64 => exact (sumInto_writesOnly hm hc _ _).mono fun _ => .inl
    | arm64 =>
      dsimp only [Architecture.target, Target.arm64]
      split
      · exact (sum_writesOnly hm hc _ _ ⟨_, .inl rfl⟩).mono fun _ => .inl
      · have hmove : m.WritesOnly (· = .general 16)
            [⟨.move, [.register (.general 16), .immediate (.ofNat bytes)]⟩] :=
          .single fun s => ⟨s.set _ (.ofNat bytes), rfl, fun _ => State.set_registers_of_ne⟩
        exact (hmove.mono fun q hq => .inr (by rw [hq])).append
          ((sum_writesOnly hm hc _ _ ⟨0, .inr ⟨_, rfl⟩⟩).mono fun _ => .inl)

end Machine

namespace Frame

variable {f : Frame} {config : Config} {m : Machine} (hm : m.architecture = config.architecture)
include hm

/-- **Into the frame**, from any state. -/
theorem prologue_writesOnly (f : Frame) :
    m.WritesOnly (fun q => q = config.architecture.target.stackPointer ∨
      q = config.architecture.target.framePointer ∨
      config.architecture.target.scratch? = some q) (f.prologue config) := by
  have hsave {rs : List Register} (h : rs ∈ leading config ∨ rs ∈ f.chunks config.architecture) := by
    have hstacked : rs ∈ f.stacked config :=
      List.mem_append.mpr (h.symm.imp_left List.mem_reverse.mpr)
    exact Machine.save_writesOnly hm (isChunk_of_mem_stacked hstacked)
  rw [prologue_eq]
  refine .append (.append (.of_forall fun o ho => ?_) (.of_forall fun o ho => ?_)) ?_
  · obtain ⟨rs, hrs, ho⟩ := List.mem_flatMap.mp ho
    rcases List.mem_pair.mp ho with rfl | rfl
    · exact (hsave (.inl hrs)).mono fun _ => .inl
    · exact (Machine.move_writesOnly m _ _).mono fun _ h => .inr (.inl h)
  · obtain ⟨rs, hrs, rfl⟩ := List.mem_map.mp ho
    exact (hsave (.inr hrs)).mono fun _ => .inl
  · exact (Machine.adjustStack_writesOnly hm (.inr rfl) f.size).mono fun _ h =>
      h.imp_right .inr

/-- **Out of the frame**, up to the return. -/
theorem restoring_writesOnly (hf : f.IsSound config) :
    m.WritesOnly (fun q => q = config.architecture.target.stackPointer ∨
      q ∈ config.architecture.calleeSaved ∨ config.architecture.target.scratch? = some q)
      (adjustStack config.architecture .add f.size ++
        (f.stacked config).map (onRegisters config.architecture.restoring)) := by
  refine .append ?_ (.of_forall fun o ho => ?_)
  · exact (Machine.adjustStack_writesOnly hm (.inl rfl) f.size).mono fun _ h => h.imp_right .inr
  · obtain ⟨rs, hrs, rfl⟩ := List.mem_map.mp ho
    refine (Machine.restore_writesOnly hm (isChunk_of_mem_stacked hrs)).mono fun q h => ?_
    exact h.imp_right fun hq =>
      .inl (calleeSaved_of_mem_stacked hf (List.mem_flatten.mpr ⟨rs, hrs, hq⟩))

end Frame

end Codegen
