import Codegen.Proofs.Straight.Build

/-!
# Returns of straight-line code

A returned word goes to the register of results. If the instruction right before computed it for
the return alone, then its last operation writes that register at once.

* `retarget_spec`: **an operation that writes another register**;
* `redirect_spec`: the last operation of the instruction before;
* `buildReturn_spec`: **the word is in the register of results at the end**.
-/

namespace Codegen

theorem Machine.exists_of_execute_append {m : Machine} {s t : Machine.State}
    {xs ys : List Operation} (h : m.execute (xs ++ ys) s = some t) :
    ∃ u, m.execute xs s = some u ∧ m.execute ys u = some t := by
  induction xs generalizing s with
  | nil => exact ⟨s, rfl, h⟩
  | cons o xs ih =>
    rw [List.cons_append, execute] at h
    split at h
    next hp =>
      obtain ⟨u, hu, hy⟩ := ih h
      exact ⟨u, by rw [execute_cons hp, hu], hy⟩
    next => cases h

theorem Machine.perform_of_execute_singleton {m : Machine} {s t : Machine.State} {o : Operation}
    (h : m.execute [o] s = some t) : m.perform s o = some (.next, t) := by
  rw [execute] at h
  split at h
  next hp =>
    cases h
    exact hp
  next => cases h

namespace Straight

open Generating

variable {m : Machine} {K : Plan} {n p : Nat} {r r' : Routine} {s s' s₀ : Machine.State}
variable {v : ValueId} {old new : Register} {o o' : Operation} {w : Word}

/-! ## Other destinations -/

theorem computeArm64_destination {opcode : Opcode} {xs : List Operand}
    (h : Machine.computeArm64 s opcode (.register old :: xs) = some s') :
    ∃ t, Machine.computeArm64 s opcode (.register new :: xs) = some t ∧
      t.registers new = s'.registers old := by
  unfold Machine.computeArm64 at h
  split at h
  next d l q heq =>
    cases heq
    obtain ⟨f, hf, h⟩ := Option.bind_eq_some_iff.mp h
    cases h
    exact ⟨s.set new (f (s.registers l) (s.registers q)), by simp [Machine.computeArm64, hf], by simp⟩
  next d l w heq =>
    cases heq
    split at h
    next => cases h
    next hmul =>
      obtain ⟨f, hf, h⟩ := Option.bind_eq_some_iff.mp h
      cases h
      exact ⟨s.set new (f (s.registers l) w), by simp [Machine.computeArm64, hmul, hf], by simp⟩
  next d l q text heq =>
    cases heq
    split at h
    next hadd =>
      obtain ⟨k, hk, h⟩ := Option.bind_eq_some_iff.mp h
      cases h
      exact ⟨s.set new (s.registers l + (s.registers q <<< Int64.ofNat k)),
        by simp [Machine.computeArm64, hadd, hk], by simp⟩
    next => cases h
  next => cases h

section Retarget

variable {opcode : Opcode} {d : Register} {xs : List Operand}

/-- On arm64 arithmetic can write any register. -/
theorem retarget_arm64 (hm : m.architecture = .arm64) (hop : opcode.onWords?.isSome = true)
    (hx : m.perform s ⟨opcode, .register d :: xs⟩ = some (.next, s'))
    (ho : Operation.retarget? false old new ⟨opcode, .register d :: xs⟩ = some o') :
    o' = ⟨opcode, .register new :: xs⟩ ∧
      ∃ t, m.perform s o' = some (.next, t) ∧ t.registers new = s'.registers old := by
  obtain ⟨rfl, rfl⟩ : d = old ∧ o' = ⟨opcode, .register new :: xs⟩ := by
    by_cases hd : d = old
    · cases opcode <;> simp_all [Operation.retarget?, Opcode.onWords?]
    · simp [Operation.retarget?, hd] at ho
  rw [perform_arithmetic hop, Machine.compute, hm, Option.map_eq_some_iff] at hx
  obtain ⟨u, hu, huw⟩ := hx
  cases huw
  obtain ⟨t, ht, hword⟩ : ∃ t, Machine.computeArm64 s opcode (.register new :: xs) = some t ∧
      t.registers new = s'.registers d := computeArm64_destination hu
  refine ⟨rfl, t, ?_, hword⟩
  rw [perform_arithmetic hop, Machine.compute, hm]
  simp only [ht, Option.map_some]

/-- A small shift on x64 is an address computation. -/
theorem retarget_shift (hm : m.architecture = .x64) {x : Operand}
    (hx : m.perform s ⟨.shiftLeft, [.register d, x]⟩ = some (.next, s'))
    (ho : Operation.retarget? true old new ⟨.shiftLeft, [.register d, x]⟩ = some o') :
    ∃ k, o' = ⟨.loadAddress, [.register new, .memory (.scaled old (Word.powerOfTwo k))]⟩ ∧
      ∃ t, m.perform s o' = some (.next, t) ∧ t.registers new = s'.registers old := by
  have hd : d = old := by
    by_contra hd
    simp [Operation.retarget?, hd] at ho
  subst hd
  cases x with
  | immediate w =>
    simp only [Operation.retarget?, ne_eq, not_true_eq_false, if_false, Bool.not_true,
      Bool.false_eq_true] at ho
    split at ho
    next hw =>
      obtain ⟨k, hk⟩ : ∃ k : Nat, w.toInt = k := ⟨w.toInt.toNat, by omega⟩
      have hword : w = Int64.ofNat k := by
        rw [← Int64.ofInt_toInt w, hk]
        rfl
      have hlt : k < 64 := by
        have := hw.2
        have : largestAddressShift = 3 := rfl
        omega
      cases ho
      rw [perform_overwriting hm rfl (w := w) rfl] at hx
      cases hx
      refine ⟨k, by rw [hk]; rfl, _, perform_address (w := s.registers d * Word.powerOfTwo k) ?_, ?_⟩
      · simp [Machine.address?, MemoryOperand.scaled, hk]
      · simp [hword, shiftLeft_eq hlt]
    next => cases ho
  | _ => simp [Operation.retarget?] at ho

/-- A product with an immediate on x64 can write any register. -/
theorem retarget_product (hm : m.architecture = .x64) {x : Operand} {w : Word}
    (hx : m.perform s ⟨.multiply, [.register d, x, .immediate w]⟩ = some (.next, s'))
    (ho : Operation.retarget? true old new ⟨.multiply, [.register d, x, .immediate w]⟩ = some o') :
    o' = ⟨.multiply, [.register new, x, .immediate w]⟩ ∧
      ∃ t, m.perform s o' = some (.next, t) ∧ t.registers new = s'.registers old := by
  obtain ⟨rfl, rfl⟩ : d = old ∧ o' = ⟨.multiply, [.register new, x, .immediate w]⟩ := by
    by_cases hd : d = old
    · simp_all [Operation.retarget?]
    · simp [Operation.retarget?, hd] at ho
  have written (q : Register) (u : Word) (hu : m.read s x = some u)
      (hx : ∀ i, x ≠ .immediate i) :
      m.perform s ⟨.multiply, [.register q, x, .immediate w]⟩ =
        some (.next, { s.set q (u * w) with flags? := none }) := by
    rw [perform_arithmetic rfl, Machine.compute, hm]
    cases x with
    | register y =>
      obtain rfl : s.registers y = u := Option.some.inj hu
      rfl
    | memory y =>
      simp only [Machine.computeX64, hu]
      rfl
    | immediate i => exact absurd rfl (hx i)
    | _ => cases hu
  have himm (i : Word) : x ≠ .immediate i := by
    rintro rfl
    rw [perform_arithmetic rfl, Machine.compute, hm] at hx
    cases hx
  cases hu : m.read s x with
  | some u =>
    rw [written d u hu himm] at hx
    cases hx
    exact ⟨rfl, _, written new u hu himm, by simp⟩
  | none =>
    rw [perform_arithmetic rfl, Machine.compute, hm] at hx
    cases x <;> simp_all [Machine.computeX64, Machine.read]

/-- The arithmetic on x64 that can write another register. -/
theorem retarget_x64 (hm : m.architecture = .x64) (hop : opcode.onWords?.isSome = true)
    (hx : m.perform s ⟨opcode, .register d :: xs⟩ = some (.next, s'))
    (ho : Operation.retarget? true old new ⟨opcode, .register d :: xs⟩ = some o') :
    (opcode = .multiply ∧ ∃ x w, xs = [x, .immediate w]) ∨ opcode = .shiftLeft ∧ ∃ x, xs = [x] := by
  have hcompute : (m.computeX64 s opcode (.register d :: xs)).isSome = true := by
    rw [perform_arithmetic hop, Machine.compute, hm] at hx
    obtain ⟨u, hu, -⟩ := Option.map_eq_some_iff.mp hx
    exact Option.isSome_of_eq_some hu
  unfold Machine.computeX64 at hcompute
  split at hcompute
  next heq =>
    cases heq
    cases opcode with
    | shiftLeft => exact .inr ⟨rfl, _, rfl⟩
    | _ => simp [Operation.retarget?, Opcode.onWords?] at ho hop
  next heq =>
    cases heq
    split at hcompute
    next => exact .inl ⟨rfl, _, _, rfl⟩
    next => exact .inl ⟨rfl, _, _, rfl⟩
    next => cases hcompute
  next => cases hcompute

end Retarget

/-- **An operation that writes another register** computes the same word there. -/
theorem retarget_spec (hp : o.IsPlain m.architecture n)
    (hx : m.perform s o = some (.next, s'))
    (ho : o.retarget? m.architecture.isX64 old new = some o')
    (hnew : m.architecture.target.allocatable.contains new = true) :
    ∃ t, m.perform s o' = some (.next, t) ∧ t.registers new = s'.registers old ∧
      o'.IsPlain m.architecture n := by
  cases hp with
  | @move d x hd hsimple =>
    obtain ⟨rfl, rfl⟩ : d = old ∧ o' = ⟨.move, [.register new, x]⟩ := by
      by_cases hd : d = old
      · simp_all [Operation.retarget?]
      · simp [Operation.retarget?, hd] at ho
    obtain ⟨u, hu, huw⟩ := Option.map_eq_some_iff.mp hx
    cases huw
    obtain ⟨w, hw, rfl⟩ := Option.map_eq_some_iff.mp (show (m.read s x).map (s.set d) = some _ from hu)
    refine ⟨s.set new w, ?_, by simp, .move hnew hsimple⟩
    change ((m.read s x).map (s.set new)).map _ = _
    rw [hw]
    rfl
  | spill => cases ho
  | @address d x hd hbase =>
    obtain ⟨rfl, rfl⟩ : d = old ∧ o' = ⟨.loadAddress, [.register new, .memory x]⟩ := by
      by_cases hd : d = old
      · simp_all [Operation.retarget?]
      · simp [Operation.retarget?, hd] at ho
    obtain ⟨w, hw, huw⟩ := Option.map_eq_some_iff.mp
      (show (m.address? s x).map (fun a => (Machine.Control.next, s.set d a)) = some _ from hx)
    cases huw
    exact ⟨s.set new w, perform_address hw, by simp, .address hnew hbase⟩
  | @arithmetic opcode d xs hd hop hsimple =>
    cases hm : m.architecture with
    | arm64 =>
      rw [hm] at ho
      obtain ⟨rfl, t, ht, hword⟩ := retarget_arm64 hm hop hx ho
      exact ⟨t, ht, hword, .arithmetic (hm ▸ hnew) hop hsimple⟩
    | x64 =>
      have hx64 : m.architecture.isX64 = true := by
        rw [hm]
        rfl
      rw [hx64] at ho
      rcases retarget_x64 hm hop hx ho with ⟨rfl, x, w, rfl⟩ | ⟨rfl, x, rfl⟩
      · obtain ⟨rfl, t, ht, hword⟩ := retarget_product hm hx ho
        exact ⟨t, ht, hword, .arithmetic (hm ▸ hnew) hop hsimple⟩
      · obtain ⟨k, rfl, t, ht, hword⟩ := retarget_shift hm hx ho
        exact ⟨t, ht, hword, .address (hm ▸ hnew) (by simp [MemoryOperand.scaled])⟩

/-! ## Redirection -/

/-- The operations of the instructions before a position take the machine from one state to the
other; the rest of the instructions follows. -/
def Ran (m : Machine) (p : Nat) (rest : List Instruction) (s₀ : Machine.State) (r : Routine)
    (s : Machine.State) : Prop :=
  ∃ done, done.length = p ∧ r.instructions.toList = done ++ rest ∧
    m.execute (done.flatMap (·.operations)) s₀ = some s ∧
    (∀ o ∈ done.flatMap (·.operations), o.IsPlain m.architecture r.temporaries) ∧
    Spills (done.flatMap (·.operations)) 0 r.temporaries

/-- The last operation before a position, when it is exchanged for one that writes another
register. -/
theorem Ran.retarget {rest : List Instruction} {i : Instruction}
    (h : Ran m (p + 1) rest s₀ r s) (hi : r.instructions[p]? = some i)
    (hbind : i.operations.getLast?.bind (Operation.retarget? m.architecture.isX64 old new) = some o')
    (hnew : m.architecture.target.allocatable.contains new = true) {q : Routine}
    (hr : q.instructions = r.instructions.setIfInBounds p
      { i with operations := i.operations.dropLast ++ [o'] })
    (ht : q.temporaries = r.temporaries) :
    ∃ s', Ran m (p + 1) rest s₀ q s' ∧ s'.registers new = s.registers old := by
  obtain ⟨done, hlen, his, hexec, hplain, hspills⟩ := h
  obtain ⟨o, hlast, ho⟩ := Option.bind_eq_some_iff.mp hbind
  obtain ⟨init, j, hdone⟩ := (List.eq_nil_or_concat done).resolve_left (by
    rintro rfl
    cases hlen)
  rw [List.concat_eq_append] at hdone
  subst hdone
  obtain rfl : init.length = p := by simpa using hlen
  obtain rfl : j = i := by
    rw [← Array.getElem?_toList, his] at hi
    simpa using hi
  have hops : j.operations = j.operations.dropLast ++ [o] :=
    (List.dropLast_append_getLast? o hlast).symm
  rw [List.flatMap_append, List.flatMap_singleton, hops, ← List.append_assoc] at hexec hplain hspills
  obtain ⟨u, hu, hx⟩ := Machine.exists_of_execute_append hexec
  obtain ⟨t, hperform, hword, hplain'⟩ := retarget_spec (hplain o (by simp))
    (Machine.perform_of_execute_singleton hx) ho hnew
  refine ⟨t, ⟨init ++ [{ j with operations := j.operations.dropLast ++ [o'] }], by simp, ?_, ?_, ?_,
    ?_⟩, hword⟩
  · rw [hr, Array.toList_setIfInBounds, his]
    simp
  · rw [List.flatMap_append, List.flatMap_singleton, ← List.append_assoc,
      Machine.execute_append hu, Machine.execute_singleton hperform]
  · rw [List.flatMap_append, List.flatMap_singleton, ← List.append_assoc, ht]
    intro y hy
    rcases List.mem_append.mp hy with hy | hy
    · exact hplain y (List.mem_append_left _ hy)
    · obtain rfl := List.mem_singleton.mp hy
      exact hplain'
  · rw [List.flatMap_append, List.flatMap_singleton, ← List.append_assoc, ht]
    intro k hk hn
    obtain ⟨d, hd⟩ := hspills k hk hn
    refine ⟨d, List.mem_append_left _ ((List.mem_append.mp hd).resolve_right fun hd => ?_)⟩
    -- an operation that spills has no other destination
    rw [← List.mem_singleton.mp hd] at ho
    cases ho

/-- The word is in another register, and nothing was emitted. -/
def Moved (m : Machine) (rest : List Instruction) (s₀ : Machine.State) (r : Routine) (new : Register)
    (w : Word) (r' : Routine) : Prop :=
  ∃ s', Ran m r.position rest s₀ r' s' ∧ s'.registers new = w ∧ r'.operations = r.operations ∧
    r'.config = r.config ∧ r'.temporaries = r.temporaries

/-- The result of the instruction before gets another register. -/
theorem moveResult_spec {rest : List Instruction} {i : Instruction} {c : Cell}
    (h : Sound m K (K.Needed r.position) 0 r s) (hran : Ran m r.position rest s₀ r s)
    (hc : r.values.cell? v = some c) (he : c.edges = []) (hrange : r.registers.InRange old)
    (hown : r.registers.owner? old = some v) (hword : s.registers old = w)
    (hnew : IsGeneral m.architecture new) (hp : p + 1 = r.position)
    (hi : r.instructions[p]? = some i)
    (hbind : i.operations.getLast?.bind (Operation.retarget? m.architecture.isX64 old new) =
      some o') :
    Runs (do
      modify fun r => { r with
        instructions := r.instructions.setIfInBounds p
          { i with operations := i.operations.dropLast ++ [o'] } }
      changeRegisters (·.release old)
      changeRegisters (·.assign new v)
      setHandle v (.register new)
      if v ≠ v then setHandle v (.register new)
      return true) r fun b r' => b = true ∧ Moved m rest s₀ r new w r' := by
  obtain ⟨g, hg, hgw, hgs, -, -⟩ := RegisterFile.release_unlocked_spec h.file
    (h.file.used_of_owner hrange hown) (h.unlocked old)
  obtain ⟨g', hg', -⟩ := RegisterFile.assign_spec hgw
    (hgs.inRange.mpr (h.inRange_of_general hnew)) v
  rw [← hp] at hran
  obtain ⟨s', hran', hword'⟩ := hran.retarget hi hbind hnew.allocatable
    (q := { r with
      instructions := r.instructions.setIfInBounds p
        { i with operations := i.operations.dropLast ++ [o'] }
      registers := g'
      values := r.values.withHandle v (.register new) }) rfl rfl
  refine .step (g := modify _) (a := ()) rfl (.step (changeRegisters_eq g hg)
    (.step (changeRegisters_eq g' hg') (.step (setHandle_eq (by exact hc) he _) ?_)))
  rw [if_neg (by simp)]
  exact .pure ⟨rfl, s', hp ▸ hran', hword'.trans hword, rfl, rfl, rfl⟩

/-- **A value that the instruction before made for this one alone** is made in another register. -/
theorem redirect_spec {rest : List Instruction} (h : Sound m K (K.Needed r.position) 0 r s)
    (hran : Ran m r.position rest s₀ r s) (hv : Usable K (K.Needed r.position) v)
    (hnew : IsGeneral m.architecture new) :
    Runs (redirect v new v) r fun b r' =>
      (b = false ∧ r' = r) ∨ b = true ∧ Moved m rest s₀ r new (K.word v) r' := by
  obtain ⟨c, hc, hd, hh⟩ := h.cell hv.1
  obtain ⟨hsrc, hreg, -, -⟩ := h.source hv
  rw [hh] at hsrc hreg
  have refused : Runs (pure false) r fun b r' =>
      (b = false ∧ r' = r) ∨ b = true ∧ Moved m rest s₀ r new (K.word v) r' :=
    .pure (.inl ⟨rfl, rfl⟩)
  unfold redirect
  refine .step (cellOf_eq hc) ?_
  split
  next producer hproducer =>
    refine .step (g := get) (a := r) rfl ?_
    split
    next => exact refused
    next hposition =>
      refine .step (isExpiring_eq hc) ?_
      split
      next => exact refused
      next =>
        refine .step (handleOf_eq hc) ?_
        split
        next old hold =>
          refine .step (owner?_eq old r) ?_
          split
          next => exact refused
          next =>
            refine .step (g := get) (a := r) rfl ?_
            split
            next i hi =>
              split
              next => exact refused
              next =>
                refine .step (g := get) (a := r) rfl ?_
                split
                next o ho =>
                  have hreg' : c.handle = .register old := by
                    cases hcase : c.handle <;> simp_all [Handle.register?]
                  obtain ⟨-, hrange, hown⟩ := hreg old hreg'
                  rw [hreg'] at hsrc
                  cases hsrc with | register hword =>
                  rw [show r.isX64 = m.architecture.isX64 from congrArg _ h.architecture] at ho
                  exact (moveResult_spec h hran hc hd.edges hrange hown hword hnew
                    (by simpa using hposition) hi ho).mono fun _ _ hm => .inr hm
                next => exact refused
            next => exact refused
        next => exact refused
  next => exact refused

/-! ## Returns -/

/-- The operations of the present instruction took the machine to a state with the word in the
register of results. -/
structure Delivered (m : Machine) (rest : List Instruction) (s₀ : Machine.State) (r : Routine)
    (w : Word) (r' : Routine) : Prop where
  config : r'.config = r.config
  temporaries : r'.temporaries = r.temporaries
  ran : ∃ t s', Ran m r.position rest s₀ r' t ∧ m.execute r'.operations t = some s' ∧
    (∀ o ∈ r'.operations, o.IsPlain m.architecture r.temporaries) ∧
    s'.registers m.architecture.target.returnRegister = w

/-- A value is copied to the register of results. -/
theorem deliver_spec {rest : List Instruction} (h : Sound m K (K.Needed r.position) 0 r s)
    (hran : Ran m r.position rest s₀ r s) (ho : r.operations = [])
    (hv : Usable K (K.Needed r.position) v) :
    Runs (do transferToRegister m.architecture.target.returnRegister (← handleOf v) .i64) r
      fun _ r' => Delivered m rest s₀ r (K.word v) r' := by
  obtain ⟨c, hc, -, hh⟩ := h.cell hv.1
  obtain ⟨hsrc, -, hslot, -⟩ := h.source hv
  rw [hh] at hsrc hslot
  refine .step (handleOf_eq hc) ?_
  unfold transferToRegister
  obtain ⟨_, r', s', hrun, hemit, rfl, ops, rfl⟩ :=
    transferInto_spec hsrc hslot (returnRegister_general m.architecture) load
  obtain ⟨ops', hops, hexec, hplain, -⟩ := hemit.operations
  obtain rfl : ops = ops' := by simpa [ho] using hops
  exact .of_eq hrun ⟨rfl, rfl, s, _, hran, hexec, hplain, by simp⟩

/-- **The word is in the register of results at the return.** -/
theorem buildReturn_spec {rest : List Instruction} (h : Sound m K (K.Needed r.position) 0 r s)
    (hran : Ran m r.position rest s₀ r s) (ho : r.operations = [])
    (hv : Usable K (K.Needed r.position) v) :
    Runs (buildReturn (some v)) r fun _ r' => ∃ r₁, Delivered m rest s₀ r (K.word v) r₁ ∧
      r' = { r₁ with operations := r₁.operations ++ [⟨.ret, []⟩] } := by
  obtain ⟨c, hc, hd, -⟩ := h.cell hv.1
  have hresult : r.target.resultRegister .i64 = m.architecture.target.returnRegister := by
    rw [Routine.target, Routine.architecture, h.architecture]
    rfl
  -- a value that was not redirected is copied
  have deliver (b : Bool) (r' : Routine) (hb : (b = false ∧ r' = r) ∨
      b = true ∧ Moved m rest s₀ r m.architecture.target.returnRegister (K.word v) r') :
      Runs (do
        if !b then transferToRegister m.architecture.target.returnRegister (← handleOf v) .i64) r'
        fun _ r' => Delivered m rest s₀ r (K.word v) r' := by
    rcases hb with ⟨rfl, rfl⟩ | ⟨rfl, s', hran', hword, hops, hconfig, htemp⟩
    · exact deliver_spec h hran ho hv
    · refine .pure ⟨hconfig, htemp, s', s', hran', ?_, ?_, hword⟩
      · rw [hops, ho]
        rfl
      · simp [hops, ho]
  unfold buildReturn
  refine .bind (Q := fun _ r' => Delivered m rest s₀ r (K.word v) r') ?_ fun _ r₁ h₁ => ?_
  · rw [Option.forM]
    refine .step (formatOf_eq hc) (.step (g := get) (a := r) rfl ?_)
    rw [hd.format, hresult]
    refine .step (g := isUsed _) (a := r.registers.used.contains _) rfl ?_
    split
    · exact .bind (.pure (.inl ⟨rfl, rfl⟩)) deliver
    · exact .bind (redirect_spec h hran hv (returnRegister_general _)) deliver
  · exact .of_eq (a := ()) rfl ⟨r₁, h₁, rfl⟩

/-! ## The last instruction -/

/-- **A function was built**: without jumps its operations take the machine to a state with the word
in the register of results, and return. -/
structure Built (m : Machine) (c : Config) (w : Word) (s₀ : Machine.State) (r : Routine) :
    Prop where
  config : r.config = c
  body : ∃ ops s, r.body = ops ++ [⟨.ret, []⟩] ∧ m.execute ops s₀ = some s ∧
    (∀ o ∈ ops, o.IsPlain m.architecture r.temporaries) ∧ Spills ops 0 r.temporaries ∧
    s.registers m.architecture.target.returnRegister = w

/-- The last instruction returns a word. -/
theorem buildAt_return {c : Config} {is : List Instruction} {i : Instruction}
    (h : Reached m K c is p s₀ r s) (hi : is[p]? = some i) (hlast : is.length = p + 1)
    (hk : i.kind = .ret (some v)) (hv : Usable K (K.Needed p) v) :
    Runs (buildAt p i) r fun _ r' =>
      r.temporaries ≤ r'.temporaries ∧ Built m c (K.word v) s₀ r' := by
  have hdrop : is.drop p = [i] := by
    obtain ⟨hp, rfl⟩ := List.getElem?_eq_some_iff.mp hi
    rw [List.drop_eq_getElem_cons hp, List.drop_eq_nil_of_le (Nat.le_of_eq hlast)]
  have hran := h.instructions
  rw [hdrop] at hran
  unfold buildAt
  refine .step (a := ()) rfl (.bind (releaseExpired_spec h.sound) ?_)
  rintro - _ ⟨g, rfl, hg, -⟩
  rw [hk]
  refine .bind (buildReturn_spec hg hran h.operations hv) ?_
  rintro - _ ⟨r₁, hd, rfl⟩
  obtain ⟨t, s', ⟨done, hlen, his, hexec, hplain, hspills⟩, hexec', hplain', hword⟩ := hd.ran
  have htemp : r₁.temporaries = r.temporaries := hd.temporaries
  refine .of_eq rfl ⟨Nat.le_of_eq htemp.symm, hd.config.trans h.config,
    done.flatMap (·.operations) ++ r₁.operations, s', ?_, ?_, ?_, hspills.append (.self _ _), hword⟩
  · subst hlen
    simp only [Routine.body, toList_modify his]
    simp
  · rw [Machine.execute_append hexec, hexec']
  · change ∀ o ∈ _, Operation.IsPlain m.architecture r₁.temporaries o
    rw [htemp]
    rw [htemp] at hplain
    intro o ho
    exact (List.mem_append.mp ho).elim (hplain o) (hplain' o)

end Straight

end Codegen
