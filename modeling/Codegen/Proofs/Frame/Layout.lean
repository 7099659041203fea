import Mathlib.Data.List.Nodup
import Codegen.Proofs.Frame.Around
import Codegen.Proofs.Value.Arena

/-!
# The layout of frames

The slots of a frame lie apart from each other below the saved registers, and every preserved
register that an operation mentions is saved. Each slot that an operation mentions gets a place of
its own, behind those that have one. A layout that fails has crashed, since the frame is too large;
a frame for words alone is laid out as long as there are not too many of them.

* `Frame.slotRoom`: the bytes that a slot takes;
* `Frame.slot_within_size`: **slots are in the frame**;
* `Frame.mem_saved_iff`: **what is saved**;
* `Frame.isSound_of_layout`: a frame that was laid out can be entered;
* `Frame.Placed`: **slots that have places of their own**;
* `Frame.exists_offset`, `Frame.apart_of_layout`: the places of the slots of a body;
* `Frame.layout_silent`: a layout that fails reports nothing.
-/

namespace Codegen.Frame

variable {config : Config} {instructions : List Instruction} {body : List Operation} {f : Frame}

/-! ## Sizes -/

theorem checked_eq_ok {c : Crash} {size n : Nat} :
    checked c size = .ok n ↔ size < 0x100000000 ∧ size = n := by
  unfold checked
  split
  next h => simp [h]
  next h => simpa using fun hlt => absurd hlt h

theorem checked_of_lt {c : Crash} {size : Nat} (h : size < 0x100000000) :
    checked c size = .ok size := if_pos h

theorem le_of_align {size alignment n : Nat} (ha : 0 < alignment)
    (h : align size alignment = .ok n) :
    size ≤ n ∧ n < 0x100000000 ∧ n = (size + alignment - 1) / alignment * alignment := by
  obtain ⟨hlt, rfl⟩ := checked_eq_ok.mp h
  have hmod := Nat.div_add_mod (size + alignment - 1) alignment
  have hlast := Nat.mod_lt (size + alignment - 1) ha
  rw [Nat.mul_comm] at hmod
  exact ⟨by omega, hlt, rfl⟩

theorem le_sizeOf {saved : List Register} {bytes size : Nat}
    (h : sizeOf config saved bytes = .ok size) : bytes ≤ size ∧ size < 0x100000000 := by
  unfold sizeOf at h
  split at h
  next =>
    simp only [Arena.bind_eq_ok, Arena.pure_eq_ok] at h
    obtain ⟨sum, hsum, aligned, haligned, rfl⟩ := h
    obtain ⟨-, rfl⟩ := checked_eq_ok.mp hsum
    obtain ⟨hle, hlt, -⟩ := le_of_align (by decide) haligned
    omega
  next =>
    obtain ⟨hle, hlt, -⟩ := le_of_align (by decide) h
    exact ⟨hle, hlt⟩

/-! ## Slots -/

/-- The bytes that a slot takes: whole words, and at least one. -/
def slotRoom (instructions : List Instruction) (k : SlotKey) : Nat :=
  (max (slotBytes instructions k) 1 + 8 - 1) / 8 * 8

theorem word_le_slotRoom (instructions : List Instruction) (k : SlotKey) :
    8 ≤ slotRoom instructions k := by
  unfold slotRoom
  omega

/-- Slots that lie below a size. -/
def SlotsWithin (instructions : List Instruction) (slots : Slots) : Prop :=
  ∀ k offset, (k, offset) ∈ slots.1 → offset + slotRoom instructions k ≤ slots.2

theorem SlotsWithin.addSlot {slots slots' : Slots} {k : SlotKey}
    (hs : SlotsWithin instructions slots) (h : addSlot instructions slots k = .ok slots') :
    SlotsWithin instructions slots' := by
  obtain ⟨offsets, size⟩ := slots
  simp only [Frame.addSlot] at h
  split at h
  next =>
    cases h
    exact hs
  next =>
    simp only [Arena.bind_eq_ok, Arena.pure_eq_ok] at h
    obtain ⟨bytes, hbytes, total, htotal, rfl⟩ := h
    obtain ⟨-, rfl⟩ := checked_eq_ok.mp htotal
    obtain ⟨-, -, rfl⟩ := le_of_align (by decide) hbytes
    intro q offset hq
    rcases List.mem_append.mp hq with hq | hq
    · exact Nat.le_trans (hs q offset hq) (Nat.le_add_right _ _)
    · obtain ⟨rfl, rfl⟩ := Prod.mk.inj (List.mem_singleton.mp hq)
      exact Nat.le_refl _

theorem slotsWithin_slotsOf {slots : Slots} (h : slotsOf instructions body = .ok slots) :
    SlotsWithin instructions slots := by
  have run {keys : List SlotKey} {slots slots' : Slots} (hs : SlotsWithin instructions slots)
      (h : keys.foldlM (addSlot instructions) slots = .ok slots') :
      SlotsWithin instructions slots' := by
    induction keys generalizing slots with
    | nil =>
      cases h
      exact hs
    | cons k keys ih =>
      rw [List.foldlM_cons, Arena.bind_eq_ok] at h
      obtain ⟨_, hk, h⟩ := h
      exact ih (hs.addSlot hk) h
  exact run (by simp [SlotsWithin]) h

/-! ## Saved registers -/

theorem nodup_eraseDups : ∀ rs : List Register, rs.eraseDups.Nodup
  | [] => List.nodup_nil
  | r :: rs => by
    rw [List.eraseDups_cons, List.nodup_cons]
    exact ⟨by simp [List.mem_eraseDups], nodup_eraseDups _⟩
termination_by rs => rs.length
decreasing_by exact Nat.lt_succ_of_le (List.length_filter_le _ _)

theorem mem_savedOf {a : Architecture} {r : Register} :
    r ∈ savedOf a.target body ↔ (∃ o ∈ body, r ∈ o.registers) ∧ a.spared.contains r = true := by
  rw [savedOf, List.mem_mergeSort, List.mem_eraseDups, List.mem_filter, List.mem_flatMap]
  rfl

theorem length_savedOf_le (a : Architecture) (body : List Operation) :
    (savedOf a.target body).length ≤ 63 := by
  have hnodup : (savedOf a.target body).Nodup :=
    (List.mergeSort_perm ..).nodup_iff.mpr (nodup_eraseDups _)
  have hsubset : savedOf a.target body ⊆ a.calleeSaved := fun r h =>
    (Architecture.calleeSaved_of_spared (mem_savedOf.mp h).2).1
  refine Nat.le_trans (List.subperm_of_subset hnodup hsubset).length_le ?_
  cases a <;> decide

/-! ## Frames -/

section Laid

variable (h : layout config instructions body = .ok f)
include h

theorem layout_eq_ok :
    ∃ bytes, slotsOf instructions body = .ok (f.offsets, bytes) ∧
      sizeOf config f.saved bytes = .ok f.size ∧
      f.saved = savedOf config.architecture.target body := by
  simp only [layout, Arena.bind_eq_ok, Arena.pure_eq_ok] at h
  obtain ⟨⟨offsets, bytes⟩, hslots, size, hsize, rfl⟩ := h
  exact ⟨bytes, hslots, hsize, rfl⟩

/-- **Slots are in the frame**, with all their bytes. -/
theorem slot_within_size {k : SlotKey} {offset : Nat} (hk : (k, offset) ∈ f.offsets) :
    offset + slotRoom instructions k ≤ f.size := by
  obtain ⟨bytes, hslots, hsize, -⟩ := layout_eq_ok h
  exact Nat.le_trans (slotsWithin_slotsOf hslots k offset hk) (le_sizeOf hsize).1

/-- **The saved registers** are the preserved ones that the body mentions. -/
theorem mem_saved_iff {r : Register} :
    r ∈ f.saved ↔ (∃ o ∈ body, r ∈ o.registers) ∧ config.architecture.spared.contains r = true := by
  obtain ⟨-, -, -, hsaved⟩ := layout_eq_ok h
  rw [hsaved, mem_savedOf]

theorem isSound_of_layout : f.IsSound config := by
  obtain ⟨bytes, -, hsize, hsaved⟩ := layout_eq_ok h
  exact ⟨fun r hr => ((mem_saved_iff h).mp hr).2, hsaved ▸ length_savedOf_le .., (le_sizeOf hsize).2⟩

end Laid

/-! ## Places -/

variable {slots slots' : Slots} {keys rest : List SlotKey} {k j : SlotKey} {offset place : Nat}

/-- **The slots have places of their own**, one behind another. -/
structure Placed (instructions : List Instruction) (keys : List SlotKey) (slots : Slots) :
    Prop where
  within : SlotsWithin instructions slots
  apart : ∀ {k j offset place}, (k, offset) ∈ slots.1 → (j, place) ∈ slots.1 → k ≠ j →
    offset + slotRoom instructions k ≤ place ∨ place + slotRoom instructions j ≤ offset
  mem_iff : ∀ k, k ∈ slots.1.map (·.1) ↔ k ∈ keys
  nodup : (slots.1.map (·.1)).Nodup

theorem lookup_eq_none {l : List (SlotKey × Nat)} : l.lookup k = none ↔ k ∉ l.map (·.1) := by
  rw [List.lookup_eq_none_iff, List.mem_map]
  constructor
  · rintro h ⟨x, hx, rfl⟩
    simpa using h x hx
  · exact fun h x hx => bne_iff_ne.mpr fun he => h ⟨x, hx, he.symm⟩

theorem mem_of_lookup (hk : f.offsets.lookup k = some offset) : (k, offset) ∈ f.offsets := by
  obtain ⟨before, after, he, -⟩ := List.lookup_eq_some_iff.mp hk
  rw [he]
  exact List.mem_append_right _ List.mem_cons_self

/-- A slot gets a place behind the others, unless it has one. -/
theorem addSlot_cases (h : addSlot instructions slots k = .ok slots') :
    k ∈ slots.1.map (·.1) ∧ slots' = slots ∨ k ∉ slots.1.map (·.1) ∧
      slots' = (slots.1 ++ [(k, slots.2)], slots.2 + slotRoom instructions k) := by
  obtain ⟨offsets, size⟩ := slots
  simp only [addSlot] at h
  split at h
  next hsome =>
    cases h
    refine .inl ⟨Decidable.of_not_not fun hk => ?_, rfl⟩
    rw [lookup_eq_none.mpr hk] at hsome
    cases hsome
  next hnone =>
    simp only [Arena.bind_eq_ok, Arena.pure_eq_ok] at h
    obtain ⟨bytes, hbytes, total, htotal, rfl⟩ := h
    obtain ⟨-, rfl⟩ := checked_eq_ok.mp htotal
    obtain ⟨-, -, rfl⟩ := le_of_align (by decide) hbytes
    exact .inr ⟨lookup_eq_none.mp (Option.not_isSome_iff_eq_none.mp hnone), rfl⟩

theorem Placed.addSlot (h : Placed instructions keys slots)
    (hadd : addSlot instructions slots k = .ok slots') :
    Placed instructions (keys ++ [k]) slots' := by
  have hwithin := h.within.addSlot hadd
  rcases addSlot_cases hadd with ⟨hk, rfl⟩ | ⟨hk, rfl⟩
  · refine ⟨h.within, h.apart, fun j => ?_, h.nodup⟩
    rw [h.mem_iff, List.mem_append, List.mem_singleton, or_iff_left_of_imp]
    rintro rfl
    exact (h.mem_iff _).mp hk
  · refine ⟨hwithin, fun {i j offset place} hi hj hne => ?_, fun j => ?_, ?_⟩
    · rw [List.mem_append, List.mem_singleton] at hi hj
      rcases hi with hi | hi <;> rcases hj with hj | hj
      · exact h.apart hi hj hne
      · cases hj
        exact .inl (h.within i offset hi)
      · cases hi
        exact .inr (h.within j place hj)
      · cases hi
        cases hj
        exact absurd rfl hne
    · simp [h.mem_iff]
    · rw [List.map_append, List.nodup_append]
      refine ⟨h.nodup, List.nodup_singleton _, ?_⟩
      rintro i hi j hj rfl
      obtain rfl := List.mem_singleton.mp hj
      exact hk hi

theorem Placed.foldlM (h : Placed instructions keys slots)
    (hrun : rest.foldlM (Frame.addSlot instructions) slots = .ok slots') :
    Placed instructions (keys ++ rest) slots' := by
  induction rest generalizing keys slots with
  | nil =>
    cases hrun
    rwa [List.append_nil]
  | cons k rest ih =>
    rw [List.foldlM_cons, Arena.bind_eq_ok] at hrun
    obtain ⟨_, hk, hrun⟩ := hrun
    rw [List.append_cons]
    exact ih (h.addSlot hk) hrun

theorem placed_nil : Placed instructions [] ([], 0) where
  within := by simp [SlotsWithin]
  apart hi := by cases hi
  mem_iff := by simp
  nodup := List.nodup_nil

section Laid

variable (h : layout config instructions body = .ok f)
include h

theorem placed_of_layout :
    ∃ bytes, Placed instructions ((body.flatMap (·.operands)).filterMap slotOf?)
      (f.offsets, bytes) := by
  obtain ⟨bytes, hslots, -⟩ := layout_eq_ok h
  exact ⟨bytes, placed_nil.foldlM hslots⟩

theorem exists_offset {o : Operation} {x : Operand} (ho : o ∈ body) (hx : x ∈ o.operands)
    (hk : slotOf? x = some k) : ∃ offset, f.offsets.lookup k = some offset := by
  obtain ⟨bytes, hplaced⟩ := placed_of_layout h
  have hmem := (hplaced.mem_iff k).mpr
    (List.mem_filterMap.mpr ⟨x, List.mem_flatMap.mpr ⟨o, ho, hx⟩, hk⟩)
  rw [← Option.isSome_iff_exists, Option.isSome_iff_ne_none]
  exact fun hnone => lookup_eq_none.mp hnone hmem

/-- **Slots do not overlap.** -/
theorem apart_of_layout (hk : f.offsets.lookup k = some offset)
    (hj : f.offsets.lookup j = some place) (hne : k ≠ j) :
    offset + slotRoom instructions k ≤ place ∨ place + slotRoom instructions j ≤ offset := by
  obtain ⟨bytes, hplaced⟩ := placed_of_layout h
  exact hplaced.apart (mem_of_lookup hk) (mem_of_lookup hj) hne

end Laid

/-! ## Frames that are too large -/

/-- The computation may crash, but it reports nothing. -/
def Silent {α : Type} (x : Except Fault α) : Prop := ∀ e, x ≠ .error (.report e)

theorem Silent.ok {α : Type} (a : α) : Silent (.ok a) := fun _ h => by cases h

theorem Silent.bind {α β : Type} {x : Except Fault α} {g : α → Except Fault β} (hx : Silent x)
    (hg : ∀ a, Silent (g a)) : Silent (x >>= g) := by
  cases x with
  | ok a => exact hg a
  | error e =>
    intro e' he
    cases he
    exact hx e' rfl

theorem checked_silent (c : Crash) (size : Nat) : Silent (checked c size) := by
  unfold checked
  split
  · exact .ok _
  · exact fun _ h => by cases h

theorem foldlM_silent (keys : List SlotKey) (slots : Slots) :
    Silent (keys.foldlM (addSlot instructions) slots) := by
  induction keys generalizing slots with
  | nil => exact .ok _
  | cons k keys ih =>
    rw [List.foldlM_cons]
    refine .bind ?_ ih
    obtain ⟨offsets, size⟩ := slots
    simp only [addSlot]
    split
    · exact .ok _
    · exact .bind (checked_silent _ _) fun _ => .bind (checked_silent _ _) fun _ => .ok _

/-- **A layout that fails has crashed.** -/
theorem layout_silent (config : Config) (instructions : List Instruction)
    (body : List Operation) : Silent (layout config instructions body) := by
  refine .bind (foldlM_silent _ _) fun slots => .bind ?_ fun _ => .ok _
  unfold sizeOf
  split
  · exact .bind (checked_silent _ _) fun _ => .bind (checked_silent _ _) fun _ => .ok _
  · exact checked_silent _ _

end Codegen.Frame
