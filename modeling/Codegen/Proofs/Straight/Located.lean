import Codegen.Proofs.Frame.Discipline
import Codegen.Proofs.Frame.Layout
import Codegen.Proofs.Machine.Around
import Codegen.Proofs.Straight.Selection

/-!
# Straight-line code in its frame

Inside the frame of a function each slot is a word of memory. So the operations of straight-line
code compute the same there as on a machine with slots, as long as the slots do not overlap.

* `Straight.Located`: **the slots of one state are in the memory of another one**;
* `Located.perform`, `Located.execute`: operations inside the frame;
* `Straight.slot_of_plain`, `apart_of_layout`: the slots of a frame;
* `Straight.complete_eq`: **a whole function with a straight-line body**.
-/

namespace Codegen.Straight

open Machine

variable {m : Machine} {f : Frame} {config : Config} {sp d : Register} {n : Nat} {w : Word}
variable {s s' t : State} {o : Operation} {x : Operand} {k : SlotKey} {opcode : Opcode}
variable {xs : List Operand} {offset : Nat}

/-! ## Operands -/

/-- An operand inside the frame. -/
def located (f : Frame) (sp : Register) : Operand → Operand
  | .memory ⟨some (.slot k), index?, scale, displacement⟩ =>
    .memory ⟨some (.register sp), index?, scale,
      displacement + Int64.ofNat ((f.offsets.lookup k).getD 0)⟩
  | x => x

@[simp] theorem located_register (f : Frame) (sp r : Register) :
    located f sp (.register r) = .register r := rfl

@[simp] theorem located_immediate (f : Frame) (sp : Register) (w : Word) :
    located f sp (.immediate w) = .immediate w := rfl

@[simp] theorem located_modifier (f : Frame) (sp : Register) (text : String) :
    located f sp (.modifier text) = .modifier text := rfl

theorem located_slot (sp : Register) (hk : f.offsets.lookup k = some offset) :
    located f sp (.memory (.displaced (.slot k) 0)) =
      .memory (.displaced (.register sp) (Int64.ofNat offset)) := by
  simp [located, MemoryOperand.displaced, hk]

/-- The slots of the frame have words of memory for themselves. -/
structure Apart (f : Frame) : Prop where
  lt : ∀ {k offset}, f.offsets.lookup k = some offset → offset < 0x100000000
  ne : ∀ {k j offset place}, f.offsets.lookup k = some offset → f.offsets.lookup j = some place →
    k ≠ j → offset ≠ place

/-- **The slots of one state are in the memory of another one**, which has the same registers. -/
structure Located (f : Frame) (sp : Register) (s s' : State) : Prop where
  registers : s'.registers = s.registers
  slots : ∀ {k offset}, f.offsets.lookup k = some offset →
    s'.memory (s.registers sp + Int64.ofNat offset) = s.slots k

theorem exists_located (f : Frame) (sp : Register) (s' : State) :
    ∃ s, Located f sp s s' ∧ s.registers = s'.registers := by
  refine ⟨{ s' with slots := fun k => s'.memory (s'.registers sp +
    Int64.ofNat ((f.offsets.lookup k).getD 0)) }, ⟨rfl, fun h => ?_⟩, rfl⟩
  dsimp only
  rw [h, Option.getD_some]

namespace Located

variable (h : Located f sp s s')
include h

theorem set (hd : d ≠ sp) (w : Word) : Located f sp (s.set d w) (s'.set d w) where
  registers := by
    change Function.update s'.registers d w = Function.update s.registers d w
    rw [h.registers]
  slots hk := by
    rw [State.set_registers_of_ne hd.symm]
    exact h.slots hk

theorem store (hf : Apart f) (hk : f.offsets.lookup k = some offset) (w : Word) :
    Located f sp (s.store (.slot k) w)
      (s'.store (.word (s.registers sp + Int64.ofNat offset)) w) where
  registers := h.registers
  slots {j place} hj := by
    change Function.update s'.memory _ w (s.registers sp + _) = Function.update s.slots k w j
    by_cases hjk : j = k
    · subst hjk
      cases hk.symm.trans hj
      rw [Function.update_self, Function.update_self]
    · rw [Function.update_of_ne hjk, Function.update_of_ne, h.slots hj]
      -- the words of two slots are different ones
      intro he
      have := congrArg Int64.toInt ((Int64.add_right_inj _).mp he)
      have hoffset := hf.lt hk
      have hplace := hf.lt hj
      rw [Int64.toInt_ofNat_of_lt (by omega), Int64.toInt_ofNat_of_lt (by omega)] at this
      exact hf.ne hj hk hjk (by omega)

theorem location?_slot (m : Machine) (offset : Nat) :
    m.location? s' (.displaced (.register sp) (Int64.ofNat offset)) =
      some (.word (s.registers sp + Int64.ofNat offset)) := by
  simp [location?, Machine.slotOf?, address?, baseOf?, MemoryOperand.displaced, h.registers]

theorem read (hx : x.IsSimple n)
    (hplaced : ∀ k, Frame.slotOf? x = some k → ∃ offset, f.offsets.lookup k = some offset) :
    m.read s' (located f sp x) = m.read s x := by
  cases x with
  | memory o =>
    obtain ⟨k, -, rfl⟩ := hx
    obtain ⟨offset, hk⟩ := hplaced _ rfl
    rw [located_slot sp hk, Machine.read, h.location?_slot m offset]
    exact congrArg some (h.slots hk)
  | register r => exact congrArg some (congrFun h.registers r)
  | immediate w => rfl
  | label l => rfl
  | modifier l => rfl

theorem reads (hx : ∀ x ∈ xs, x.IsSimple n)
    (hplaced : ∀ x ∈ xs, ∀ k, Frame.slotOf? x = some k →
      ∃ offset, f.offsets.lookup k = some offset) :
    ∀ x ∈ xs, m.read s' (located f sp x) = m.read s x :=
  fun x hmem => h.read (hx x hmem) (hplaced x hmem)

end Located

/-! ## Operations -/

theorem exists_located_memory (f : Frame) (sp : Register) (o : MemoryOperand) :
    ∃ o', located f sp (.memory o) = .memory o' := by
  unfold located
  split
  · exact ⟨_, rfl⟩
  · exact ⟨o, rfl⟩

namespace Located

variable (h : Located f sp s s')
include h

theorem flags (a b : Option (Word × Word)) :
    Located f sp { s with flags? := a } { s' with flags? := b } := ⟨h.registers, h.slots⟩

theorem computeX64 (hd : d ≠ sp) (hr : ∀ x ∈ xs, m.read s' (located f sp x) = m.read s x)
    (ht : m.computeX64 s opcode (.register d :: xs) = some t) :
    ∃ t', m.computeX64 s' opcode (.register d :: xs.map (located f sp)) = some t' ∧
      Located f sp t t' := by
  unfold Machine.computeX64 at ht
  split at ht
  next d x he =>
    cases he
    have hx := hr x List.mem_cons_self
    obtain ⟨g, hg, ht⟩ := Option.bind_eq_some_iff.mp ht
    obtain ⟨w, hw, ht⟩ := Option.bind_eq_some_iff.mp ht
    cases ht
    refine ⟨_, ?_, (h.set hd (g (s.registers d) w)).flags none none⟩
    simp [Machine.computeX64, hg, hx, hw, h.registers]
  next d x w he =>
    cases he
    have hx := hr x List.mem_cons_self
    split at ht
    next r =>
      obtain ⟨v, hv, ht⟩ := Option.bind_eq_some_iff.mp ht
      cases ht
      rw [located_register] at hx
      refine ⟨_, ?_, (h.set hd (v * w)).flags none none⟩
      simp [Machine.computeX64, hx, hv]
    next o =>
      obtain ⟨v, hv, ht⟩ := Option.bind_eq_some_iff.mp ht
      cases ht
      obtain ⟨o', ho'⟩ := exists_located_memory f sp o
      rw [ho'] at hx
      refine ⟨_, ?_, (h.set hd (v * w)).flags none none⟩
      simp [Machine.computeX64, ho', hx, hv]
    next => cases ht
  next => cases ht

theorem computeArm64 (hd : d ≠ sp)
    (ht : Machine.computeArm64 s opcode (.register d :: xs) = some t) :
    ∃ t', Machine.computeArm64 s' opcode (.register d :: xs.map (located f sp)) = some t' ∧
      Located f sp t t' := by
  unfold Machine.computeArm64 at ht
  split at ht
  next d l q he =>
    cases he
    obtain ⟨g, hg, ht⟩ := Option.bind_eq_some_iff.mp ht
    cases ht
    refine ⟨_, ?_, h.set hd (g (s.registers l) (s.registers q))⟩
    simp [Machine.computeArm64, hg, h.registers]
  next d l w he =>
    cases he
    split at ht
    next => cases ht
    next hmul =>
      obtain ⟨g, hg, ht⟩ := Option.bind_eq_some_iff.mp ht
      cases ht
      refine ⟨_, ?_, h.set hd (g (s.registers l) w)⟩
      simp [Machine.computeArm64, hmul, hg, h.registers]
  next d l q text he =>
    cases he
    split at ht
    next hadd =>
      obtain ⟨k, hk, ht⟩ := Option.bind_eq_some_iff.mp ht
      cases ht
      refine ⟨_, ?_, h.set hd (s.registers l + (s.registers q <<< Int64.ofNat k))⟩
      simp [Machine.computeArm64, hadd, hk, h.registers]
    next => cases ht
  next => cases ht

theorem compute (hd : d ≠ sp) (hr : ∀ x ∈ xs, m.read s' (located f sp x) = m.read s x)
    (ht : m.compute s opcode (.register d :: xs) = some t) :
    ∃ t', m.compute s' opcode (.register d :: xs.map (located f sp)) = some t' ∧
      Located f sp t t' := by
  unfold Machine.compute at ht ⊢
  split at ht
  next => exact h.computeX64 hd hr ht
  next => exact h.computeArm64 hd ht

theorem address? (m : Machine) (o : MemoryOperand) : m.address? s' o = m.address? s o := by
  have hbase : m.baseOf? s' = m.baseOf? s := by
    funext b
    unfold baseOf?
    rw [h.registers]
  rw [Machine.address?, Machine.address?, hbase, h.registers]

end Located

/-- An operation inside the frame. -/
def inside (f : Frame) (sp : Register) (o : Operation) : Operation :=
  ⟨o.opcode, o.operands.map (located f sp)⟩

theorem ne_stackPointer {a : Architecture} (hd : a.target.allocatable.contains d = true) :
    d ≠ a.target.stackPointer := by
  rintro rfl
  exact Architecture.stackPointer_not_usable (.inl hd)

/-- All slots that the operation mentions have places. -/
def HasPlaces (f : Frame) (o : Operation) : Prop :=
  ∀ x ∈ o.operands, ∀ k, Frame.slotOf? x = some k → ∃ offset, f.offsets.lookup k = some offset

/-- **A plain operation inside the frame** does the same. -/
theorem Located.perform {op : Operation} {c : Control}
    (h : Located f m.architecture.target.stackPointer s s') (hf : Apart f)
    (ho : op.IsPlain m.architecture n) (hp : HasPlaces f op) (ht : m.perform s op = some (c, t)) :
    ∃ t', m.perform s' (inside f m.architecture.target.stackPointer op) = some (c, t') ∧
      Located f m.architecture.target.stackPointer t t' := by
  cases ho with
  | move hd hx =>
    rename_i d x
    have hread := h.read (m := m) hx (hp x (by simp))
    obtain ⟨u, hu, hc⟩ := Option.map_eq_some_iff.mp ht
    obtain ⟨w, hw, rfl⟩ := Option.map_eq_some_iff.mp hu
    cases hc
    refine ⟨_, ?_, h.set (ne_stackPointer hd) w⟩
    simp [inside, Machine.perform, transfer, hread, hw]
  | spill hk r =>
    rename_i k
    cases ht
    obtain ⟨offset, hoffset⟩ := hp _ List.mem_cons_self (.temporary k) rfl
    refine ⟨_, ?_, h.store hf hoffset (s.registers r)⟩
    simp [inside, Operation.spill, located_slot _ hoffset, Machine.perform, transfer,
      h.location?_slot m offset, h.registers]
  | address hd ho =>
    rename_i d o
    obtain ⟨a, ha, hc⟩ := Option.map_eq_some_iff.mp ht
    cases hc
    have hself : located f m.architecture.target.stackPointer (.memory o) = .memory o := by
      unfold located
      split
      next he =>
        cases he
        exact absurd rfl (ho _)
      next => rfl
    refine ⟨_, ?_, h.set (ne_stackPointer hd) a⟩
    simp [inside, hself, Machine.perform, h.address?, ha]
  | arithmetic hd hop hx =>
    rename_i opcode d xs
    have hreads := h.reads (m := m) hx fun x hmem => hp x (List.mem_cons_of_mem _ hmem)
    rw [perform_arithmetic hop] at ht
    obtain ⟨u, hu, hc⟩ := Option.map_eq_some_iff.mp ht
    cases hc
    obtain ⟨t', ht', hlocated⟩ := h.compute (ne_stackPointer hd) hreads hu
    refine ⟨t', ?_, hlocated⟩
    rw [inside, List.map_cons, located_register, perform_arithmetic hop, ht']
    rfl

/-- **Plain operations inside the frame**, one after the other. -/
theorem Located.execute {ops : List Operation}
    (h : Located f m.architecture.target.stackPointer s s') (hf : Apart f)
    (ho : ∀ op ∈ ops, op.IsPlain m.architecture n) (hp : ∀ op ∈ ops, HasPlaces f op)
    (ht : m.execute ops s = some t) :
    ∃ t', m.execute (ops.map (inside f m.architecture.target.stackPointer)) s' = some t' ∧
      Located f m.architecture.target.stackPointer t t' := by
  induction ops generalizing s s' with
  | nil =>
    cases ht
    exact ⟨s', rfl, h⟩
  | cons op ops ih =>
    rw [List.forall_mem_cons] at ho hp
    rw [Machine.execute] at ht
    split at ht
    next hperform =>
      obtain ⟨u', hu', hu⟩ := h.perform hf ho.1 hp.1 hperform
      obtain ⟨t', ht', ht⟩ := ih hu ho.2 hp.2 ht
      exact ⟨t', by rw [List.map_cons, execute_cons hu', ht'], ht⟩
    next => cases ht

/-! ## Functions -/

theorem slot_of_plain {a : Architecture} {op : Operation} (ho : op.IsPlain a n)
    (hx : x ∈ op.operands) (hk : Frame.slotOf? x = some k) :
    ∃ i < n, k = .temporary i ∧ x = .memory (.displaced (.slot k) 0) := by
  have simple {x : Operand} (hx : x.IsSimple n) (hk : Frame.slotOf? x = some k) :
      ∃ i < n, k = .temporary i ∧ x = .memory (.displaced (.slot k) 0) := by
    cases x with
    | memory o =>
      obtain ⟨i, hi, rfl⟩ := hx
      cases hk
      exact ⟨i, hi, rfl, rfl⟩
    | _ => cases hk
  cases ho with
  | move hd hsource =>
    rcases List.mem_pair.mp hx with rfl | rfl
    · cases hk
    · exact simple hsource hk
  | spill hi r =>
    rcases List.mem_pair.mp hx with rfl | rfl
    · cases hk
      exact ⟨_, hi, rfl, rfl⟩
    · cases hk
  | address hd ho =>
    rename_i d o
    rcases List.mem_pair.mp hx with rfl | rfl
    · cases hk
    · unfold Frame.slotOf? at hk
      split at hk
      next he =>
        cases he
        exact absurd rfl (ho _)
      next => cases hk
  | arithmetic hd hop hsource =>
    rcases List.mem_cons.mp hx with rfl | hx
    · cases hk
    · exact simple (hsource x hx) hk

theorem mapM_eq_ok {α β : Type} {k : α → Except Fault β} {b : α → β} {xs : List α}
    (h : ∀ x ∈ xs, k x = .ok (b x)) : xs.mapM k = .ok (xs.map b) := by
  induction xs with
  | nil => rfl
  | cons x xs ih =>
    rw [List.forall_mem_cons] at h
    rw [List.mapM_cons, h.1, ih h.2]
    rfl

theorem locate_eq {a : Architecture} {op : Operation} (ho : op.IsPlain a n) (hf : Apart f)
    (hp : HasPlaces f op) (hx : x ∈ op.operands) : f.locate sp x = .ok (located f sp x) := by
  cases hk : Frame.slotOf? x with
  | some k =>
    obtain ⟨-, -, -, rfl⟩ := slot_of_plain ho hx hk
    obtain ⟨offset, hoffset⟩ := hp _ hx k rfl
    have hlt := hf.lt hoffset
    have hsum : Word.add? 0 (Int64.ofNat offset) = some (Int64.ofNat offset) := by
      rw [Word.add?, Word.ofInt?_eq_some_iff]
      simp
    simp only [Frame.locate, Frame.locateMemory, MemoryOperand.displaced, hoffset, hsum]
    rw [show (⟨some (.slot k), none, 1, 0⟩ : MemoryOperand) = .displaced (.slot k) 0 from rfl,
      located_slot sp hoffset]
    rfl
  | none =>
    cases x with
    | memory o =>
      obtain ⟨base?, index?, scale, displacement⟩ := o
      cases base? with
      | some b =>
        cases b with
        | slot k => cases hk
        | _ => rfl
      | none => rfl
    | _ => rfl

section Laid

variable {instructions : List Instruction} {body : List Operation}
variable (h : Frame.layout config instructions body = .ok f)
include h

theorem apart_of_layout : Apart f where
  lt {k offset} hk := by
    have hwithin := Frame.slot_within_size h (Frame.mem_of_lookup hk)
    have hroom := Frame.word_le_slotRoom instructions k
    have hsize := (Frame.isSound_of_layout h).size
    omega
  ne {k j offset place} hk hj hne := by
    have hroom := Frame.word_le_slotRoom instructions k
    have hroom' := Frame.word_le_slotRoom instructions j
    have := Frame.apart_of_layout h hk hj hne
    omega

theorem hasPlaces_of_layout {op : Operation} (hop : op ∈ body) : HasPlaces f op :=
  fun _ hx _ hk => Frame.exists_offset h hop hx hk

end Laid

/-- **A function with a plain body.** -/
theorem complete_eq {ops : List Operation} (hf : Apart f)
    (ho : ∀ op ∈ ops, op.IsPlain config.architecture n) (hp : ∀ op ∈ ops, HasPlaces f op) :
    f.complete config (ops ++ [⟨.ret, []⟩]) = .ok (f.prologue config ++
      ops.map (inside f config.architecture.target.stackPointer) ++ f.epilogue config) := by
  have hplain (op : Operation) (hmem : op ∈ ops) : f.enclose config op =
      .ok [inside f config.architecture.target.stackPointer op] := by
    have hret : op.opcode ≠ .ret := by
      cases ho op hmem with
      | arithmetic _ hop _ =>
        rintro rfl
        cases hop
      | _ => simp [Operation.spill]
    rw [Frame.enclose, if_neg hret, mapM_eq_ok fun x => locate_eq (ho op hmem) hf (hp op hmem)]
    rfl
  have hbody : (ops ++ [(⟨.ret, []⟩ : Operation)]).mapM (f.enclose config) = .ok
      (ops.map (fun op => [inside f config.architecture.target.stackPointer op]) ++
        [f.epilogue config]) := by
    rw [List.mapM_append, mapM_eq_ok hplain]
    rfl
  rw [Frame.complete, hbody]
  change Except.ok (_ ++ (_ ++ [_]).flatten) = _
  rw [List.flatten_append, List.flatten_singleton, ← List.append_assoc, ← List.flatMap_def,
    ← List.map_eq_flatMap]

end Codegen.Straight
