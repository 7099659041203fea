import Mathlib
import Codegen.Proofs.Frame.Enclosed
import Codegen.Proofs.Frame.Layout
import Codegen.Proofs.Lowering.Preserved
import Codegen.Proofs.Stream.Ending

/-!
# Room for slots

A body whose slots have room in a frame of 32 bits is laid out, and its frame has a place of its own
for each slot. Inside the frame each slot is read and written at its place. Lowering names each
stack array after a counter and the build keeps the names, so no two arrays of a function share one,
and each of them gets the bytes that its instruction asks for.

* `Frame.roomOf`, `Frame.HasRoom`: **bodies whose slots have room**;
* `Frame.Filled`: slots that lie one behind another, without gaps;
* `Frame.Accommodates`: **a frame with a place for each slot**;
* `Frame.Relocated`, `Frame.Framed`: an operand and an operation, and what they are in the frame;
* `Frame.exists_accommodating`: **a body whose slots have room is laid out soundly**;
* `Routine.ArraysApart`, `Lowered.le_slotRoom`: names of stack arrays, and **the room of each**.
-/

namespace Codegen.Frame

variable {config : Config} {instructions : List Instruction} {body : List Operation} {f : Frame}
variable {slots slots' : Slots} {keys rest : List SlotKey} {k j : SlotKey} {offset bytes : Nat}
variable {sp : Register} {x y : Operand} {o : Operation}

/-! ## Room -/

/-- The slots that operations mention, as often as they do. -/
def mentioned (body : List Operation) : List SlotKey :=
  (body.flatMap (·.operands)).filterMap slotOf?

/-- The bytes of the slots, of each once. -/
def roomOf (instructions : List Instruction) (keys : List SlotKey) : Nat :=
  ∑ k ∈ keys.toFinset, slotRoom instructions k

/-- The bytes ahead of the slots that count for the alignment of the frame: on x64 these are the
return address and the saved registers. -/
def aheadBytes (config : Config) (saved : List Register) : Nat :=
  match config.architecture with
  | .x64 => 8 * (1 + saved.length + if config.debug then 1 else 0)
  | .arm64 => 0

/-- **The slots have room**: with what is ahead of them they take, aligned, less than 4 GiB. -/
def HasRoom (config : Config) (instructions : List Instruction) (body : List Operation) : Prop :=
  (aheadBytes config (savedOf config.architecture.target body) +
    roomOf instructions (mentioned body) + 15) / 16 * 16 < 0x100000000

instance : Decidable (HasRoom config instructions body) := inferInstanceAs (Decidable (_ < _))

theorem eight_dvd_slotRoom (instructions : List Instruction) (k : SlotKey) :
    8 ∣ slotRoom instructions k := Nat.dvd_mul_left ..

theorem eight_dvd_roomOf (instructions : List Instruction) (keys : List SlotKey) :
    8 ∣ roomOf instructions keys :=
  Finset.dvd_sum fun k _ => eight_dvd_slotRoom instructions k

theorem roomOf_mono (h : keys ⊆ rest) : roomOf instructions keys ≤ roomOf instructions rest :=
  Finset.sum_le_sum_of_subset fun _ hk => List.mem_toFinset.mpr (h (List.mem_toFinset.mp hk))

theorem roomOf_append_of_mem (h : k ∈ keys) :
    roomOf instructions (keys ++ [k]) = roomOf instructions keys := by
  simp [roomOf, h]

theorem roomOf_append_of_not_mem (h : k ∉ keys) :
    roomOf instructions (keys ++ [k]) = roomOf instructions keys + slotRoom instructions k := by
  simp [roomOf, List.toFinset_append, Finset.union_singleton, h, Nat.add_comm]

/-! ## Slots without gaps -/

/-- **The slots lie one behind another**, whole words each, without gaps. -/
structure Filled (instructions : List Instruction) (keys : List SlotKey) (slots : Slots) :
    Prop where
  placed : Placed instructions keys slots
  aligned : ∀ k offset, (k, offset) ∈ slots.1 → 8 ∣ offset
  size : slots.2 = roomOf instructions keys

theorem filled_nil : Filled instructions [] ([], 0) := ⟨placed_nil, by simp, rfl⟩

theorem Filled.addSlot (h : Filled instructions keys slots)
    (hadd : addSlot instructions slots k = .ok slots') :
    Filled instructions (keys ++ [k]) slots' := by
  refine ⟨h.placed.addSlot hadd, ?_, ?_⟩ <;> rcases addSlot_cases hadd with ⟨hk, rfl⟩ | ⟨hk, rfl⟩
  · exact h.aligned
  · intro j offset hj
    rcases List.mem_append.mp hj with hj | hj
    · exact h.aligned j offset hj
    · obtain ⟨-, rfl⟩ := Prod.mk.inj (List.mem_singleton.mp hj)
      exact h.size ▸ eight_dvd_roomOf instructions keys
  · rw [roomOf_append_of_mem ((h.placed.mem_iff k).mp hk), h.size]
  · rw [roomOf_append_of_not_mem fun hmem => hk ((h.placed.mem_iff k).mpr hmem), ← h.size]

theorem Filled.exists_addSlot (h : Filled instructions keys slots)
    (hroom : roomOf instructions (keys ++ [k]) < 0x100000000) :
    ∃ slots', Frame.addSlot instructions slots k = .ok slots' := by
  obtain ⟨offsets, size⟩ := slots
  simp only [Frame.addSlot]
  split
  next => exact ⟨_, rfl⟩
  next hnone =>
    have hk : k ∉ keys := fun hmem =>
      lookup_eq_none.mp (Option.not_isSome_iff_eq_none.mp hnone) ((h.placed.mem_iff k).mpr hmem)
    rw [roomOf_append_of_not_mem hk, ← h.size] at hroom
    have hbytes : align (max (slotBytes instructions k) 1) 8 = .ok (slotRoom instructions k) :=
      checked_of_lt (Nat.lt_of_le_of_lt (Nat.le_add_left ..) hroom)
    exact ⟨_, Arena.bind_eq_ok.mpr ⟨_, hbytes, Arena.bind_eq_ok.mpr
      ⟨_, checked_of_lt hroom, rfl⟩⟩⟩

theorem Filled.exists_foldlM (h : Filled instructions keys slots)
    (hroom : roomOf instructions (keys ++ rest) < 0x100000000) :
    ∃ slots', rest.foldlM (Frame.addSlot instructions) slots = .ok slots' ∧
      Filled instructions (keys ++ rest) slots' := by
  induction rest generalizing keys slots with
  | nil => exact ⟨slots, rfl, by rwa [List.append_nil]⟩
  | cons k rest ih =>
    rw [List.append_cons] at hroom ⊢
    obtain ⟨next, hnext⟩ := h.exists_addSlot
      (Nat.lt_of_le_of_lt (roomOf_mono (List.subset_append_left ..)) hroom)
    obtain ⟨slots', hslots, hfilled⟩ := ih (h.addSlot hnext) hroom
    exact ⟨slots', by rw [List.foldlM_cons]; exact Arena.bind_eq_ok.mpr ⟨next, hnext, hslots⟩,
      hfilled⟩

theorem Filled.foldlM (h : Filled instructions keys slots)
    (hrun : rest.foldlM (Frame.addSlot instructions) slots = .ok slots') :
    Filled instructions (keys ++ rest) slots' := by
  induction rest generalizing keys slots with
  | nil =>
    cases hrun
    rwa [List.append_nil]
  | cons k rest ih =>
    rw [List.foldlM_cons, Arena.bind_eq_ok] at hrun
    obtain ⟨_, hk, hrun⟩ := hrun
    rw [List.append_cons]
    exact ih (h.addSlot hk) hrun

theorem sizeOf_eq {saved : List Register}
    (h : (aheadBytes config saved + bytes + 15) / 16 * 16 < 0x100000000) :
    sizeOf config saved bytes =
      .ok ((aheadBytes config saved + bytes + 15) / 16 * 16 - aheadBytes config saved) := by
  unfold sizeOf aheadBytes at *
  cases ha : config.architecture with
  | x64 =>
    simp only [ha] at h
    exact Arena.bind_eq_ok.mpr ⟨_, checked_of_lt (by omega),
      Arena.bind_eq_ok.mpr ⟨_, checked_of_lt h, rfl⟩⟩
  | arm64 =>
    simp only [ha, Nat.zero_add] at h ⊢
    exact checked_of_lt h

/-! ## Places for all slots -/

/-- Calls find the stack pointer at a multiple of 16. On x64 the return address and the saved
registers are part of what is aligned. -/
def IsAligned (f : Frame) (config : Config) : Prop :=
  match config.architecture with
  | .x64 => 16 ∣ 8 + f.savedBytes config + f.size
  | .arm64 => 16 ∣ f.size

/-- **The frame has a place for each slot** that a body mentions. -/
structure Accommodates (f : Frame) (config : Config) (instructions : List Instruction)
    (body : List Operation) : Prop where
  /-- Each slot has exactly one place. -/
  place : ∀ k ∈ mentioned body, ∃! offset, (k, offset) ∈ f.offsets
  aligned : ∀ k offset, (k, offset) ∈ f.offsets → 8 ∣ offset
  within : ∀ k offset, (k, offset) ∈ f.offsets → offset + slotRoom instructions k ≤ f.size
  apart : ∀ k offset j place, (k, offset) ∈ f.offsets → (j, place) ∈ f.offsets → k ≠ j →
    offset + slotRoom instructions k ≤ place ∨ place + slotRoom instructions j ≤ offset
  /-- A stack array has the bytes that were asked for, last if several share its name. -/
  array : ∀ before i after identity bytes, instructions = before ++ i :: after →
    i.kind = .allocateStack identity bytes →
    (∀ j ∈ after, ∀ more, j.kind ≠ .allocateStack identity more) →
    bytes ≤ slotRoom instructions (.inline identity)
  stack : f.IsAligned config

theorem existsUnique_of_nodup {offsets : List (SlotKey × Nat)} (h : (offsets.map (·.1)).Nodup)
    (hk : k ∈ offsets.map (·.1)) : ∃! offset, (k, offset) ∈ offsets := by
  obtain ⟨⟨k, offset⟩, hmem, rfl⟩ := List.mem_map.mp hk
  refine ⟨offset, hmem, fun place hplace => ?_⟩
  exact (Prod.mk.inj (List.inj_on_of_nodup_map h hplace hmem rfl)).2

/-- The bytes of a stack array are those of the last instruction with its name. -/
theorem arrayBytes?_eq {before after : List Instruction} {i : Instruction} {identity : String}
    (hi : i.kind = .allocateStack identity bytes)
    (hafter : ∀ j ∈ after, ∀ more, j.kind ≠ .allocateStack identity more) :
    arrayBytes? (before ++ i :: after) identity = some bytes := by
  unfold arrayBytes?
  rw [List.reverse_append, List.reverse_cons, List.append_assoc, List.findSome?_append,
    List.findSome?_eq_none_iff.mpr, Option.none_or, List.singleton_append, List.findSome?_cons, hi]
  · simp
  · intro j hj
    have hne := hafter j (List.mem_reverse.mp hj)
    split
    next name more hkind =>
      refine if_neg fun he => hne more ?_
      rw [hkind, he]
    next => rfl

theorem le_slotRoom_array {before after : List Instruction} {i : Instruction} {identity : String}
    (hi : i.kind = .allocateStack identity bytes)
    (hafter : ∀ j ∈ after, ∀ more, j.kind ≠ .allocateStack identity more) :
    bytes ≤ slotRoom (before ++ i :: after) (.inline identity) := by
  rw [slotRoom, slotBytes, arrayBytes?_eq hi hafter, Option.getD_some]
  omega

theorem aheadBytes_x64 (h : config.architecture = .x64) :
    aheadBytes config f.saved = 8 + f.savedBytes config := by
  obtain ⟨a, debug, _⟩ := config
  obtain rfl : a = .x64 := h
  cases debug <;> simp [aheadBytes, savedBytes, stacked, chunks, leading, Architecture.chunkBytes]
  all_goals omega

theorem isAligned_of_size
    (h : f.size = (aheadBytes config f.saved + bytes + 15) / 16 * 16 - aheadBytes config f.saved) :
    f.IsAligned config := by
  unfold IsAligned
  split
  next ha =>
    rw [aheadBytes_x64 ha] at h
    omega
  next ha =>
    simp only [aheadBytes, ha] at h
    omega

theorem exists_layout_of_room (h : HasRoom config instructions body) :
    ∃ f, layout config instructions body = .ok f ∧ f.Accommodates config instructions body := by
  have hroom : roomOf instructions (mentioned body) < 0x100000000 := by
    unfold HasRoom at h
    omega
  obtain ⟨⟨offsets, bytes⟩, hslots, hfilled⟩ := filled_nil.exists_foldlM hroom
  obtain rfl : bytes = roomOf instructions (mentioned body) := hfilled.size
  have hsize := sizeOf_eq h
  refine ⟨_, Arena.bind_eq_ok.mpr ⟨_, hslots, Arena.bind_eq_ok.mpr ⟨_, hsize, rfl⟩⟩, ?_⟩
  have hle := (le_sizeOf hsize).1
  exact {
    place := fun k hk => existsUnique_of_nodup hfilled.placed.nodup
      ((hfilled.placed.mem_iff k).mpr hk)
    aligned := hfilled.aligned
    within := fun k offset hk => Nat.le_trans (hfilled.placed.within k offset hk) hle
    apart := fun k offset j place hk hj hne => hfilled.placed.apart hk hj hne
    array := fun before i after identity bytes he hi hafter => he ▸ le_slotRoom_array hi hafter
    stack := isAligned_of_size rfl }

theorem lt_of_sizeOf {saved : List Register} {size : Nat}
    (h : sizeOf config saved bytes = .ok size) :
    (aheadBytes config saved + bytes + 15) / 16 * 16 < 0x100000000 := by
  unfold sizeOf at h
  unfold aheadBytes
  cases ha : config.architecture with
  | x64 =>
    simp only [ha, Arena.bind_eq_ok, Arena.pure_eq_ok] at h
    obtain ⟨sum, hsum, aligned, haligned, -⟩ := h
    obtain ⟨-, rfl⟩ := checked_eq_ok.mp hsum
    exact (checked_eq_ok.mp haligned).1
  | arm64 =>
    simp only [ha] at h
    rw [Nat.zero_add]
    exact (checked_eq_ok.mp h).1

/-- **Only bodies whose slots have room are laid out.** -/
theorem hasRoom_of_layout (h : layout config instructions body = .ok f) :
    HasRoom config instructions body := by
  obtain ⟨bytes, hslots, hsize, hsaved⟩ := layout_eq_ok h
  have hbytes : bytes = roomOf instructions (mentioned body) := (filled_nil.foldlM hslots).size
  rw [hbytes, hsaved] at hsize
  exact lt_of_sizeOf hsize

theorem layout_crashes (h : ¬HasRoom config instructions body) :
    ∃ c, layout config instructions body = .error (.crash c) := by
  cases hl : layout config instructions body with
  | ok f => exact absurd (hasRoom_of_layout hl) h
  | error e =>
    cases e with
    | report e => exact absurd hl (layout_silent _ _ _ e)
    | crash c => exact ⟨c, rfl⟩

/-! ## Operands inside the frame -/

/-- **An operand, and what it is inside the frame.** A slot is read at the stack pointer plus its
place and the displacement; its index stays. All other operands stay. -/
inductive Relocated (f : Frame) (sp : Register) : Operand → Operand → Prop
  | slot {k : SlotKey} {offset : Nat} {index? : Option Register} {scale displacement w : Word}
      (hk : (k, offset) ∈ f.offsets) (hw : w.toInt = displacement.toInt + offset) :
      Relocated f sp (.memory ⟨some (.slot k), index?, scale, displacement⟩)
        (.memory ⟨some (.register sp), index?, scale, w⟩)
  | same {x : Operand} (hx : slotOf? x = none) : Relocated f sp x x

/-- An operation of the body, and what it is inside the frame: a return is the epilogue, all others
keep their codes. -/
inductive Framed (f : Frame) (config : Config) : Operation → List Operation → Prop
  | ret {o : Operation} (ho : o.opcode = .ret) : Framed f config o (f.epilogue config)
  | operands {o : Operation} {xs : List Operand} (ho : o.opcode ≠ .ret)
      (hxs : List.Forall₂ (f.Relocated config.architecture.target.stackPointer) o.operands xs) :
      Framed f config o [⟨o.opcode, xs⟩]

/-- The address of a slot has a displacement of 64 bits. -/
def InRange (f : Frame) : Operand → Prop
  | .memory ⟨some (.slot k), _, _, displacement⟩ =>
    ∀ offset, (k, offset) ∈ f.offsets → displacement.toInt + offset < 0x8000000000000000
  | _ => True

theorem slotOf?_eq_some :
    slotOf? x = some k ↔ ∃ index? scale displacement,
      x = .memory ⟨some (.slot k), index?, scale, displacement⟩ := by
  unfold slotOf?
  split <;> simp_all

theorem Accommodates.exists_lookup (h : f.Accommodates config instructions body)
    (hk : k ∈ mentioned body) : ∃ offset, f.offsets.lookup k = some offset := by
  obtain ⟨offset, hoffset, -⟩ := h.place k hk
  rw [← Option.isSome_iff_exists, Option.isSome_iff_ne_none]
  exact fun hnone => lookup_eq_none.mp hnone (List.mem_map_of_mem hoffset)

theorem mem_mentioned (ho : o ∈ body) (hx : x ∈ o.operands) (hk : slotOf? x = some k) :
    k ∈ mentioned body :=
  List.mem_filterMap.mpr ⟨x, List.mem_flatMap.mpr ⟨o, ho, hx⟩, hk⟩

/-- The sum of a displacement and a place is a word, unless it is too large. -/
theorem exists_add? {d : Word} (h : d.toInt + offset < 0x8000000000000000)
    (hoffset : offset < 0x100000000) :
    ∃ w, Word.add? d (.ofNat offset) = some w ∧ w.toInt = d.toInt + offset := by
  have hlow := d.le_toInt
  have hto : (Int64.ofNat offset).toInt = offset := Int64.toInt_ofNat_of_lt (by omega)
  have hw : (Int64.ofInt (d.toInt + offset)).toInt = d.toInt + offset :=
    Int64.toInt_ofInt_of_le (by omega) (by omega)
  exact ⟨_, Word.ofInt?_eq_some_iff.mpr (by rw [hto, hw]), hw⟩

theorem locate_of_not_slot (hx : slotOf? x = none) : f.locate sp x = .ok x := by
  cases x with
  | memory m =>
    obtain ⟨base?, index?, scale, displacement⟩ := m
    rcases base? with _ | _ | k | _
    case some.slot => cases hx
    all_goals rfl
  | _ => rfl

theorem exists_locate (hk : ∀ k, slotOf? x = some k → ∃ offset, f.offsets.lookup k = some offset)
    (hs : ∀ k offset, (k, offset) ∈ f.offsets → offset < 0x100000000) (hr : f.InRange x) :
    ∃ y, f.locate sp x = .ok y ∧ f.Relocated sp x y := by
  cases hx : slotOf? x with
  | none => exact ⟨x, locate_of_not_slot hx, .same hx⟩
  | some k =>
    obtain ⟨index?, scale, displacement, rfl⟩ := slotOf?_eq_some.mp hx
    obtain ⟨offset, hlookup⟩ := hk k hx
    have hmem := mem_of_lookup hlookup
    obtain ⟨w, hadd, hw⟩ := exists_add? (hr offset hmem) (hs k offset hmem)
    refine ⟨_, ?_, .slot hmem hw⟩
    simp only [locate, locateMemory, hlookup, hadd]
    rfl

/-- A slot that has a place may be out of reach, but nothing is reported. -/
theorem locate_silent (hk : ∀ k, slotOf? x = some k → ∃ offset, f.offsets.lookup k = some offset) :
    Silent (f.locate sp x) := by
  cases hx : slotOf? x with
  | none => exact locate_of_not_slot hx ▸ .ok x
  | some k =>
    obtain ⟨index?, scale, displacement, rfl⟩ := slotOf?_eq_some.mp hx
    obtain ⟨offset, hlookup⟩ := hk k hx
    simp only [locate, locateMemory, hlookup]
    refine .bind (.bind ?_ fun _ => .ok _) fun _ => .ok _
    cases Word.add? displacement (.ofNat offset) with
    | some w => exact .ok w
    | none => exact fun _ h => by cases h

/-! ## The body inside the frame -/

theorem exists_mapM {α β : Type} {g : α → Except Fault β} {R : α → β → Prop} {xs : List α}
    (h : ∀ x ∈ xs, ∃ y, g x = .ok y ∧ R x y) : ∃ ys, xs.mapM g = .ok ys ∧ List.Forall₂ R xs ys := by
  induction xs with
  | nil => exact ⟨[], rfl, .nil⟩
  | cons x xs ih =>
    obtain ⟨⟨y, hy, hR⟩, h⟩ := List.forall_mem_cons.mp h
    obtain ⟨ys, hys, hRs⟩ := ih h
    refine ⟨y :: ys, ?_, .cons hR hRs⟩
    rw [List.mapM_cons, hy, hys]
    rfl

theorem Silent.mapM {α β : Type} {g : α → Except Fault β} {xs : List α}
    (h : ∀ x ∈ xs, Silent (g x)) : Silent (xs.mapM g) := by
  induction xs with
  | nil => exact .ok []
  | cons x xs ih =>
    rw [List.forall_mem_cons] at h
    rw [List.mapM_cons]
    exact h.1.bind fun _ => (ih h.2).bind fun _ => .ok _

section Accommodating

variable (h : f.Accommodates config instructions body)
include h

/-- **No slot of the body is without a place**: what is reported by none of its operations is not
reported by the function. -/
theorem Accommodates.complete_silent : Silent (f.complete config body) := by
  refine .bind (.mapM fun o ho => ?_) fun _ => .ok _
  unfold enclose
  split
  next => exact .ok _
  next =>
    exact .bind (.mapM fun x hx => locate_silent fun k hk =>
      h.exists_lookup (mem_mentioned ho hx hk)) fun _ => .ok _

/-- **The body inside the frame**: each slot is where its place is. -/
theorem Accommodates.exists_complete (hsize : f.size < 0x100000000)
    (hr : ∀ o ∈ body, o.opcode ≠ .ret → ∀ x ∈ o.operands, f.InRange x) :
    ∃ oss, List.Forall₂ (f.Framed config) body oss ∧
      f.complete config body = .ok (f.prologue config ++ oss.flatten) := by
  have hs (k : SlotKey) (offset : Nat) (hk : (k, offset) ∈ f.offsets) : offset < 0x100000000 :=
    Nat.lt_of_le_of_lt (Nat.le_trans (Nat.le_add_right ..) (h.within k offset hk)) hsize
  have hframed (o : Operation) (ho : o ∈ body) :
      ∃ os, f.enclose config o = .ok os ∧ f.Framed config o os := by
    by_cases hret : o.opcode = .ret
    · exact ⟨_, (enclose_ret hret).mpr rfl, .ret hret⟩
    · obtain ⟨xs, hxs, hR⟩ := exists_mapM fun x hx => exists_locate
        (fun k hk => h.exists_lookup (mem_mentioned ho hx hk)) hs (hr o ho hret x hx)
      refine ⟨_, ?_, .operands hret hR⟩
      rw [enclose, if_neg hret, hxs]
      rfl
  obtain ⟨oss, hoss, hR⟩ := exists_mapM hframed
  refine ⟨oss, hR, ?_⟩
  rw [complete, hoss]
  rfl

end Accommodating

/-- **A body whose slots have room is laid out soundly.** Its frame has a place for each slot, the
function reports no slot without a place, and unless an address is out of range, each slot is read
and written where its place is. -/
theorem exists_accommodating (h : HasRoom config instructions body) :
    ∃ f, layout config instructions body = .ok f ∧ f.Accommodates config instructions body ∧
      (∀ k, f.complete config body ≠ .error (.inconsistent (.slotWithoutOffset k))) ∧
      ((∀ o ∈ body, o.opcode ≠ .ret → ∀ x ∈ o.operands, f.InRange x) →
        ∃ oss, List.Forall₂ (f.Framed config) body oss ∧
          f.complete config body = .ok (f.prologue config ++ oss.flatten)) := by
  obtain ⟨f, hf, hplaces⟩ := exists_layout_of_room h
  exact ⟨f, hf, hplaces, fun k => hplaces.complete_silent _,
    hplaces.exists_complete (isSound_of_layout hf).size⟩

/-! ## An array beside a word -/

/-- A stack array of 20 bytes. -/
def twentyBytes : List Instruction := [⟨.allocateStack "_S0" 20, 0, [], []⟩]

/-- A body that writes the last word of a stack array and a register that callees keep. -/
def arrayed : List Operation :=
  [⟨.move, [.memory (.displaced (.slot (.temporary 0)) 0), .register (.general 7)]⟩,
    ⟨.move, [.register (.general 3), .memory (.displaced (.slot (.temporary 0)) 0)]⟩,
    ⟨.move, [.memory (.displaced (.slot (.inline "_S0")) 16), .register (.general 3)]⟩,
    ⟨.ret, []⟩]

/-- Its frame: the word, 24 bytes for the array, and the saved register below the return address. -/
def arrayedFrame : Frame := ⟨[(.temporary 0, 0), (.inline "_S0", 8)], 32, [.general 3]⟩

theorem arrayed_accommodated :
    HasRoom (.ofArchitecture .x64) twentyBytes arrayed ∧
      layout (.ofArchitecture .x64) twentyBytes arrayed = .ok arrayedFrame ∧
      arrayedFrame.Accommodates (.ofArchitecture .x64) twentyBytes arrayed ∧
      ∃ oss, List.Forall₂ (arrayedFrame.Framed (.ofArchitecture .x64)) arrayed oss ∧
        arrayedFrame.complete (.ofArchitecture .x64) arrayed =
          .ok (arrayedFrame.prologue (.ofArchitecture .x64) ++ oss.flatten) := by
  have hroom : HasRoom (.ofArchitecture .x64) twentyBytes arrayed := by decide +kernel
  have hl : layout (.ofArchitecture .x64) twentyBytes arrayed = .ok arrayedFrame := by cbv
  obtain ⟨f, hf, hplaces, -, hcomplete⟩ := exists_accommodating hroom
  obtain rfl := Except.ok.inj (hl.symm.trans hf)
  refine ⟨hroom, hl, hplaces, hcomplete ?_⟩
  simp [arrayed, arrayedFrame, InRange, MemoryOperand.displaced]

/-! ## Slots without room -/

/-- A stack array of almost 4 GiB. -/
def vast : List Instruction := [⟨.allocateStack "_S0" 4294967280, 0, [], []⟩]

/-- A body that writes a stack array at a displacement, after another slot. -/
def writing (displacement : Word) : List Operation :=
  [⟨.move, [.memory (.displaced (.slot (.temporary 0)) 0), .register (.general 7)]⟩,
    ⟨.move, [.memory (.displaced (.slot (.inline "_S0")) displacement), .register (.general 7)]⟩]

/-- Less than 4 GiB of slots are not enough: their frame is larger once it is aligned, and an
address may be out of range although the slots have places. -/
theorem not_located_of_roomOf :
    (roomOf vast (mentioned (writing 0)) < 0x100000000 ∧
      layout (.ofArchitecture .arm64) vast (writing 0) = .error (.crash .productTooLarge)) ∧
    (roomOf twentyBytes (mentioned (writing 0x7ffffffffffffff8)) < 0x100000000 ∧
      ∃ f, layout (.ofArchitecture .x64) twentyBytes (writing 0x7ffffffffffffff8) = .ok f ∧
        f.complete (.ofArchitecture .x64) (writing 0x7ffffffffffffff8) =
          .error (.crash .sumTooLarge)) := by
  refine ⟨⟨by decide +kernel, by cbv⟩, by decide +kernel, ?_⟩
  exact ⟨⟨[(.temporary 0, 0), (.inline "_S0", 8)], 40, []⟩, by cbv, by cbv⟩

end Codegen.Frame

namespace Codegen

variable {r r' : Routine} {k : InstructionKind} {x : ValueId} {i : Instruction}
variable {identity : String} {bytes m n : Nat}

/-! ## Names of stack arrays -/

/-- The names of the stack arrays, in order. -/
def Routine.arrays (r : Routine) : List String := r.kinds.filterMap (·.array?)

/-- **Each stack array has a name of its own**, made from a number that was counted. -/
structure Routine.ArraysApart (r : Routine) : Prop where
  nodup : r.arrays.Nodup
  counted : ∀ name ∈ r.arrays, ∃ n < r.identities, name = r.symbol ++ s!"_S{n}"

theorem arrayName_inj {symbol : String} :
    symbol ++ s!"_S{m}" = symbol ++ s!"_S{n}" ↔ m = n := by
  change symbol ++ ("_S" ++ Nat.repr m) = symbol ++ ("_S" ++ Nat.repr n) ↔ m = n
  rw [String.append_right_inj, String.append_right_inj, Nat.repr_inj]

theorem Routine.arrays_push (r : Routine) (i : Instruction) :
    { r with instructions := r.instructions.push i }.arrays = r.arrays ++ i.kind.array?.toList := by
  simp only [arrays, kinds, Array.toList_push, List.map_append, List.filterMap_append]
  cases h : i.kind.array? <;> simp [h]

namespace Routine.ArraysApart

theorem pushArray (h : r.ArraysApart)
    (hi : i.kind.array? = some (r.symbol ++ s!"_S{r.identities}")) :
    { r with
      instructions := r.instructions.push i
      identities := r.identities + 1 }.ArraysApart := by
  have harrays : { r with
      instructions := r.instructions.push i
      identities := r.identities + 1 }.arrays = r.arrays ++ [r.symbol ++ s!"_S{r.identities}"] :=
    (r.arrays_push i).trans (by rw [hi, Option.toList_some])
  constructor
  · rw [harrays, List.nodup_append]
    refine ⟨h.nodup, List.nodup_singleton _, ?_⟩
    rintro _ hname _ hlast rfl
    obtain ⟨n, hn, hname⟩ := h.counted _ hname
    rw [List.mem_singleton.mp hlast, arrayName_inj] at hname
    omega
  · rw [harrays]
    intro name hname
    rcases List.mem_append.mp hname with hname | hname
    · obtain ⟨n, hn, rfl⟩ := h.counted name hname
      exact ⟨n, Nat.lt_succ_of_lt hn, rfl⟩
    · exact ⟨r.identities, Nat.lt_succ_self _, List.mem_singleton.mp hname⟩

theorem lowering : LoweringInvariant ArraysApart where
  create h _ := ⟨h.nodup, h.counted⟩
  setMetadata h _ := ⟨h.nodup, h.counted⟩
  setInstruction h _ := ⟨h.nodup, h.counted⟩
  useAt h _ := ⟨h.nodup, h.counted⟩
  join h _ := ⟨h.nodup, h.counted⟩
  push {r} k x hk h := by
    have harrays := (r.arrays_push ⟨k, x, k.parameters, []⟩).trans
      (by rw [hk, Option.toList_none, List.append_nil])
    exact ⟨harrays ▸ h.nodup, harrays ▸ h.counted⟩
  array bytes := by
    intro r x r' h happend
    obtain ⟨name, r₁, hname, happend⟩ := Generating.takes_bind.mp happend
    obtain ⟨rfl, rfl⟩ := Generating.takes_newIdentity.mp hname
    obtain ⟨values, rfl, -⟩ := (Generating.append_appended happend).routine
    obtain ⟨hnodup, hcounted⟩ := h.pushArray
      (i := ⟨.allocateStack (r.symbol ++ s!"_S{r.identities}") bytes, x, [], []⟩) rfl
    exact ⟨⟨hnodup, hcounted⟩, trivial⟩
  context _ _ _ _ _ h := ⟨h.nodup, h.counted⟩

end Routine.ArraysApart

/-! ## Functions -/

theorem Lowered.arraysApart (w : Lowered) : w.routine.ArraysApart := by
  have hstart : w.start.ArraysApart := by
    have h := w.started
    rw [Routine.start, Arena.bind_eq_ok] at h
    obtain ⟨symbol, -, h⟩ := h
    have hempty := Arena.pure_eq_ok.mp h
    rw [← hempty]
    exact ⟨List.nodup_nil, by simp [Routine.arrays, Routine.kinds]⟩
  exact (Routine.ArraysApart.lowering.lowerFunction_preserves _ _ _ hstart w.lowers).1

theorem Lowered.arrays_nodup (w : Lowered) (h : Generating.build w.routine = .ok () r') :
    r'.arrays.Nodup := by
  have hopen := w.stream_open
  have hbuilt := build_attains (Closed.of_open hopen) hopen.unbuilt
  rw [Generating.Attains, h] at hbuilt
  have hkinds : r'.kinds = w.routine.kinds := hbuilt.kinds
  rw [Routine.arrays, hkinds]
  exact w.arraysApart.nodup

/-- **Each stack array of a function has the bytes that its instruction asks for.** -/
theorem Lowered.le_slotRoom (w : Lowered) (h : Generating.build w.routine = .ok () r')
    (hi : i ∈ r'.instructions.toList) (hk : i.kind = .allocateStack identity bytes) :
    bytes ≤ Frame.slotRoom r'.instructions.toList (.inline identity) := by
  obtain ⟨before, after, he⟩ := List.append_of_mem hi
  rw [he]
  refine Frame.le_slotRoom_array hk fun j hj more hj' => ?_
  have hnodup := w.arrays_nodup h
  rw [Routine.arrays, Routine.kinds, he, List.map_append, List.map_cons, List.filterMap_append,
    List.filterMap_cons_some (by rw [hk]; rfl)] at hnodup
  have hlater : identity ∈ (after.map (·.kind)).filterMap (·.array?) :=
    List.mem_filterMap.mpr ⟨j.kind, List.mem_map_of_mem hj, by rw [hj']; rfl⟩
  exact (List.nodup_cons.mp (List.nodup_append.mp hnodup).2.1).1 hlater

end Codegen
