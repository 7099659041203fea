import Codegen.Proofs.Frame.Machine

/-!
# Saving and restoring registers

Code without choice has one outcome. Pushing chunks of registers puts their words on the stack, and
as long as nothing writes there, popping the chunks in the opposite order brings the words back.

* `ByteMachine.Outcome`: **the one state that code ends in**;
* `ByteMachine.Saved`: registers whose words are on the stack, chunk by chunk;
* `Outcome.saving`, `Outcome.restoring`: **lists of chunks that are pushed and popped**.
-/

namespace Codegen.ByteMachine

/-! ## Outcomes -/

section Outcome

variable {k : ByteMachine} {program xs ys : List Operation} {s t u : State} {o : Operation}

variable (k program) in
/-- **The one state that code ends in**: it runs to its end, and a run that has not ended is at one
of its operations. -/
structure Outcome (xs : List Operation) (s t : State) : Prop where
  runs : ∀ rest, k.Reaches program (xs ++ rest, s) (rest, t)
  passes : ∀ {rest c}, k.Reaches program (xs ++ rest, s) c →
    k.Reaches program (rest, t) c ∨ ∃ o ∈ xs, c.1.head? = some o

namespace Outcome

theorem nil : Outcome k program [] s s := ⟨fun _ => .refl, fun h => .inl h⟩

theorem append (h₁ : Outcome k program xs s t) (h₂ : Outcome k program ys t u) :
    Outcome k program (xs ++ ys) s u where
  runs rest := by
    rw [List.append_assoc]
    exact (h₁.runs _).trans (h₂.runs _)
  passes h := by
    rw [List.append_assoc] at h
    rcases h₁.passes h with h | ⟨o, ho, hc⟩
    · rcases h₂.passes h with h | ⟨o, ho, hc⟩
      · exact .inl h
      · exact .inr ⟨o, List.mem_append_right _ ho, hc⟩
    · exact .inr ⟨o, List.mem_append_left _ ho, hc⟩

theorem single (ho : ¬ IsJump o.opcode) (h : k.Performs o s t) (only : ∀ u, k.Performs o s u → u = t) :
    Outcome k program [o] s t where
  runs rest := .single (.next h)
  passes {rest c} hc := by
    rcases hc.cases_head with rfl | ⟨c, hstep, hc⟩
    · exact .inr ⟨o, List.mem_singleton_self o, rfl⟩
    · cases hstep with
      | next h => exact .inl (only _ h ▸ hc)
      | jump hj _ => exact absurd hj ho

end Outcome

theorem register_injective {rs qs : List Register}
    (h : rs.map Operand.register = qs.map .register) : rs = qs :=
  List.map_inj_right (fun _ _ h => Operand.register.inj h) |>.mp h

theorem Outcome.push {r : Register} :
    Outcome k program [⟨.push, [.register r]⟩] s (s.pushed k.stackPointer 8 [s.registers r]) := by
  refine .single (by simp [IsJump]) (.push rfl) fun u h => ?_
  cases h with
  | free hc => simp [IsFree] at hc
  | push hx =>
    obtain rfl := Option.some.inj hx
    rfl

theorem Outcome.pop {r : Register} :
    Outcome k program [⟨.pop, [.register r]⟩] s (s.popped k.stackPointer 8 [r]) := by
  refine .single (by simp [IsJump]) (.pop .register) fun u h => ?_
  cases h with
  | free hc => simp [IsFree] at hc
  | pop hx =>
    cases hx
    rfl

theorem Outcome.savePair {rs : List Register} (hr : rs.length = 1 ∨ rs.length = 2) :
    Outcome k program [⟨.savePair, rs.map .register⟩] s
      (s.pushed k.stackPointer 16 (rs.map s.registers)) := by
  refine .single (by simp [IsJump]) (.savePair rfl hr) fun u h => ?_
  generalize hxs : rs.map Operand.register = xs at h
  cases h with
  | sumInto hc | sum hc => cases hc
  | free hc => simp [IsFree] at hc
  | savePair hx _ => rw [register_injective (hxs.trans hx)]

theorem Outcome.restorePair {rs : List Register} (hr : rs.length = 1 ∨ rs.length = 2) :
    Outcome k program [⟨.restorePair, rs.map .register⟩] s (s.popped k.stackPointer 16 rs) := by
  refine .single (by simp [IsJump]) (.restorePair rfl hr) fun u h => ?_
  generalize hxs : rs.map Operand.register = xs at h
  cases h with
  | sumInto hc | sum hc => cases hc
  | free hc => simp [IsFree] at hc
  | restorePair hx _ => rw [register_injective (hxs.trans hx)]

theorem Outcome.move {r : Register} {x : Operand} {w : BitVec 64} (hx : k.valueOf? s x = some w) :
    Outcome k program [⟨.move, [.register r, x]⟩] s (s.set r w) := by
  refine .single (by simp [IsJump]) (.move hx .register) fun u h => ?_
  cases h with
  | sumInto hc => cases hc
  | free hc => simp [IsFree] at hc
  | move hv hw =>
    cases hw
    rw [Option.some.inj (hx.symm.trans hv)]

theorem opcode_of_sum? {c : Opcode} {f : BitVec 64 → BitVec 64 → BitVec 64}
    (hc : sum? c = some f) : c = .add ∨ c = .subtract := by
  cases c <;> simp_all [sum?]

section Sums

variable {c : Opcode} {f : BitVec 64 → BitVec 64 → BitVec 64} {r : Register} {x : Operand}
  {w : BitVec 64} (hc : sum? c = some f) (hr : r.isMedia = false)
  (hx : k.valueOf? s x = some w)
include hc hr hx

theorem Outcome.sumInto :
    Outcome k program [⟨c, [.register r, x]⟩] s (s.set r (f (s.registers r) w)) := by
  refine .single ?_ (.sumInto hc hr rfl hx .register) fun u h => ?_
  · rcases opcode_of_sum? hc with rfl | rfl <;> simp [IsJump]
  · cases h with
    | free hf hw =>
      rcases opcode_of_sum? hc with rfl | rfl <;> simp [IsFree, hr, Operand.isMedia] at hf
    | sumInto hc' _ hv hx' hw =>
      cases hw
      obtain rfl := Option.some.inj (hc.symm.trans hc')
      obtain rfl := Option.some.inj hv
      rw [Option.some.inj (hx.symm.trans hx')]
    | _ => cases hc

theorem Outcome.sum :
    Outcome k program [⟨c, [.register r, .register r, x]⟩] s
      (s.set r (f (s.registers r) w)) := by
  refine .single ?_ (.sum hc hr rfl hx .register) fun u h => ?_
  · rcases opcode_of_sum? hc with rfl | rfl <;> simp [IsJump]
  · cases h with
    | free hf hw =>
      rcases opcode_of_sum? hc with rfl | rfl <;> simp [IsFree, hr, Operand.isMedia] at hf
    | sum hc' _ hv hx' hw =>
      cases hw
      obtain rfl := Option.some.inj (hc.symm.trans hc')
      obtain rfl := Option.some.inj hv
      rw [Option.some.inj (hx.symm.trans hx')]
    | _ => cases hc

end Sums

end Outcome

/-! ## Words on the stack -/

section Words

variable {s t : State} {a b : BitVec 64} {m n : Nat}

theorem Within.mono (h : Within a m b) (hmn : m ≤ n) : Within a n b := Nat.lt_of_lt_of_le h hmn

theorem Within.of_add {j : Nat} (h : Within (a + .ofNat 64 j) m b) (hmn : j + m ≤ n) :
    Within a n b := by
  unfold Within at *
  bv_omega

theorem Within.not_first {j : Nat} (h : Within (a + .ofNat 64 j) m b) (hm : j + m ≤ 0x10000000000000000) :
    ¬ Within a j b := by
  unfold Within at *
  bv_omega

theorem Within.head {w : BitVec 64} {ws : List (BitVec 64)} (h : Within a 8 b) :
    Within a (8 * (w :: ws).length) b :=
  h.mono (by rw [List.length_cons]; omega)

theorem Within.tail {w : BitVec 64} {ws : List (BitVec 64)}
    (h : Within (a + 8) (8 * ws.length) b) : Within a (8 * (w :: ws).length) b :=
  Within.of_add (j := 8) h (by rw [List.length_cons]; omega)

/-- Words one behind another in memory. -/
def Holds (s : State) (a : BitVec 64) : List (BitVec 64) → Prop
  | [] => True
  | w :: ws => s.load a = w ∧ Holds s (a + 8) ws

/-- **Registers whose words are on the stack**, in chunks of so many bytes from an address up. -/
def Saved (value : Register → BitVec 64) (bytes : Nat) (s : State) (a : BitVec 64) :
    List (List Register) → Prop
  | [] => True
  | rs :: rest => Holds s a (rs.map value) ∧ Saved value bytes s (a + .ofNat 64 bytes) rest

theorem Holds.congr {ws : List (BitVec 64)} (h : Holds s a ws)
    (hm : ∀ b, Within a (8 * ws.length) b → t.memory b = s.memory b) : Holds t a ws := by
  induction ws generalizing a with
  | nil => trivial
  | cons w ws ih =>
    exact ⟨(State.load_congr fun b hb => hm b hb.head).trans h.1, ih h.2 fun b hb => hm b hb.tail⟩

variable {value : Register → BitVec 64} {bytes : Nat} {rs : List Register}
  {cs : List (List Register)}

theorem Saved.congr (h : Saved value bytes s a cs) (hc : ∀ rs ∈ cs, 8 * rs.length ≤ bytes)
    (hm : ∀ b, Within a (bytes * cs.length) b → t.memory b = s.memory b) :
    Saved value bytes t a cs := by
  induction cs generalizing a with
  | nil => trivial
  | cons rs cs ih =>
    rw [List.forall_mem_cons] at hc
    refine ⟨h.1.congr fun b hb => hm b (hb.mono ?_), ih h.2 hc.2 fun b hb => hm b ?_⟩
    · rw [List.length_map, List.length_cons, Nat.mul_add]
      omega
    · exact hb.of_add (by rw [List.length_cons, Nat.mul_add]; omega)

/-! ## Pushing -/

@[simp]
theorem storeAll_registers (s : State) (a : BitVec 64) (ws : List (BitVec 64)) :
    (s.storeAll a ws).registers = s.registers := by
  induction ws generalizing s a with
  | nil => rfl
  | cons w ws ih => exact ih ..

theorem storeAll_memory {ws : List (BitVec 64)} (h : ¬ Within a (8 * ws.length) b) :
    (s.storeAll a ws).memory b = s.memory b := by
  induction ws generalizing s a with
  | nil => rfl
  | cons w ws ih =>
    rw [State.storeAll, ih fun hb => h hb.tail, State.store_memory_of_not_within fun hb => h hb.head]

theorem holds_storeAll (s : State) (a : BitVec 64) {ws : List (BitVec 64)}
    (h : 8 * ws.length ≤ 0x10000000000000000) : Holds (s.storeAll a ws) a ws := by
  induction ws generalizing s a with
  | nil => trivial
  | cons w ws ih =>
    rw [List.length_cons] at h
    refine ⟨(State.load_congr fun b hb => ?_).trans (s.load_store_self a w), ih _ _ (by omega)⟩
    exact storeAll_memory fun hw => Within.not_first hw (by omega) hb

variable {sp r : Register}

@[simp]
theorem pushed_stackPointer {ws : List (BitVec 64)} :
    (s.pushed sp bytes ws).registers sp = s.registers sp - .ofNat 64 bytes := by
  simp [State.pushed]

theorem pushed_registers {ws : List (BitVec 64)} (h : r ≠ sp) :
    (s.pushed sp bytes ws).registers r = s.registers r := by
  simp [State.pushed, State.set_registers_of_ne h]

theorem pushed_memory {ws : List (BitVec 64)} (h : 8 * ws.length ≤ bytes)
    (hb : ¬ Within (s.registers sp - .ofNat 64 bytes) bytes b) :
    (s.pushed sp bytes ws).memory b = s.memory b := by
  rw [State.pushed, storeAll_memory fun hw => hb (hw.mono h), State.set_memory]

/-- Pushing a chunk of registers saves them above what is saved already. -/
theorem Saved.pushed (h : Saved value bytes s (s.registers sp) cs)
    (hc : ∀ qs ∈ rs :: cs, 8 * qs.length ≤ bytes) (hn : bytes * (cs.length + 1) ≤ 0x10000000000000000)
    (hr : ∀ r ∈ rs, s.registers r = value r) :
    Saved value bytes (s.pushed sp bytes (rs.map s.registers))
      ((s.pushed sp bytes (rs.map s.registers)).registers sp) (rs :: cs) := by
  rw [List.forall_mem_cons] at hc
  have hw : rs.map s.registers = rs.map value := List.map_congr_left hr
  rw [Nat.mul_add] at hn
  rw [pushed_stackPointer, hw]
  refine ⟨holds_storeAll _ _ (by rw [List.length_map]; omega), ?_⟩
  rw [BitVec.sub_add_cancel]
  refine h.congr hc.2 fun b hb => pushed_memory (by simpa using hc.1) fun hb' => ?_
  rw [← BitVec.sub_add_cancel (s.registers sp) (.ofNat 64 bytes)] at hb
  exact hb.not_first (by omega) hb'

/-! ## Popping -/

@[simp]
theorem loadAll_memory (s source : State) (a : BitVec 64) (rs : List Register) :
    (s.loadAll source a rs).memory = s.memory := by
  induction rs generalizing s a with
  | nil => rfl
  | cons r rs ih => exact ih ..

theorem loadAll_registers_of_not_mem (h : r ∉ rs) :
    (s.loadAll t a rs).registers r = s.registers r := by
  induction rs generalizing s a with
  | nil => rfl
  | cons q rs ih =>
    rw [List.mem_cons, not_or] at h
    rw [State.loadAll, ih h.2, State.set_registers_of_ne h.1]

theorem loadAll_registers_of_mem (hw : Holds t a (rs.map value)) (h : r ∈ rs) :
    (s.loadAll t a rs).registers r = value r := by
  induction rs generalizing s a with
  | nil => cases h
  | cons q rs ih =>
    by_cases hr : r ∈ rs
    · exact ih hw.2 hr
    · obtain rfl := (List.mem_cons.mp h).resolve_right hr
      rw [State.loadAll, loadAll_registers_of_not_mem hr, State.set_registers_self]
      exact hw.1

@[simp]
theorem popped_memory : (s.popped sp bytes rs).memory = s.memory := by
  simp [State.popped]

theorem popped_stackPointer (h : sp ∉ rs) :
    (s.popped sp bytes rs).registers sp = s.registers sp + .ofNat 64 bytes := by
  simp [State.popped, loadAll_registers_of_not_mem h]

theorem popped_registers_of_not_mem (h : r ∉ rs) (hr : r ≠ sp) :
    (s.popped sp bytes rs).registers r = s.registers r := by
  rw [State.popped, loadAll_registers_of_not_mem h, State.set_registers_of_ne hr]

end Words

end Codegen.ByteMachine
