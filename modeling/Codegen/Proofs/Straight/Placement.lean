import Mathlib.Data.List.Nodup
import Mathlib.Data.List.Perm.Subperm
import Codegen.Proofs.Register.File
import Codegen.Proofs.Straight.Emission
import Codegen.Placement.Operand

/-!
# Values of straight-line code stay findable

While straight-line integer code is built, each value that is still needed is either in a register
that it owns or in a spill slot of its own, and the machine has the word of the value there. The
register file always has a register to give away, since an instruction locks few of them.

* `Plan`: what is known of the values before the build; `Plan.Needed`, `Plan.Later`: the values
  that the present instruction, or a later one, still needs;
* `Sound`: **the invariant of the build**;
* `spill_spec`, `allocate_spec`: registers are found, and nothing that is needed is lost.
-/

namespace Codegen.Straight

open Generating

/-! ## The plan -/

/-- What is known of the values of a function before it is built: the word that each of them stands
for, which of them are literals, and when they are needed. -/
structure Plan where
  size : Nat
  word : ValueId → Word
  isConstant : ValueId → Bool
  lifetime : ValueId → Lifetime

namespace Plan

variable (K : Plan)

/-- The cell has what the plan says of the value. -/
structure Describes (v : ValueId) (c : Cell) : Prop where
  format : c.format = .i64
  edges : c.edges = []
  lifetime : c.lifetime = K.lifetime v
  constant : K.isConstant v = true → c.handle = .constant (.integer (K.word v))

/-- The value was made before the instruction at a position, and is needed there or later. -/
structure Needed (p : Nat) (v : ValueId) : Prop where
  lt_size : v < K.size
  not_constant : K.isConstant v = false
  start_nonneg : 0 ≤ (K.lifetime v).start
  start_lt : (K.lifetime v).start < p
  le_stop : p ≤ (K.lifetime v).stop

/-- The value was made before the instruction at a position, and is needed after it. -/
def Later (p : Nat) (v : ValueId) : Prop := K.Needed p v ∧ p + 1 ≤ (K.lifetime v).stop

variable {K}

theorem Needed.covers {p : Nat} {v : ValueId} (h : K.Needed p v) :
    (K.lifetime v).covers p = true := by
  have h1 := h.start_nonneg
  have h2 := h.start_lt
  have h3 := h.le_stop
  simp only [Lifetime.covers, Lifetime.isActive, Bool.and_eq_true, decide_eq_true_iff,
    bne_iff_ne, ne_eq]
  omega

end Plan

/-! ## Registers -/

/-- The registers that integers may live in. -/
structure IsGeneral (a : Architecture) (q : Register) : Prop where
  bank : q.bank = 0
  id_lt : q.id < 32
  allocatable : a.target.allocatable.contains q = true

/-- At most so many registers are locked, each at most so often. -/
def LockedWithin (f : RegisterFile) (n : Nat) : Prop :=
  (∃ L : List Register, L.length ≤ n ∧ ∀ q, f.locked.contains q = true → q ∈ L) ∧
    ∀ q, f.InRange q → f.lockCount q ≤ n

/-- The number of registers that an instruction may lock at once. -/
def lockLimit : Nat := 14

theorem generals (a : Architecture) :
    ∃ ids : List Nat, ids.Nodup ∧ ids.length = lockLimit ∧ ∀ i ∈ ids, IsGeneral a ⟨0, i⟩ := by
  cases a with
  | x64 =>
    refine ⟨Target.span 0 3 ++ Target.span 6 15, by decide, rfl, fun i hi => ⟨rfl, ?_, ?_⟩⟩
    · revert i
      decide
    · revert i
      decide +kernel
  | arm64 =>
    refine ⟨Target.span 0 13, by decide, rfl, fun i hi => ⟨rfl, ?_, ?_⟩⟩
    · revert i
      decide
    · revert i
      decide +kernel

theorem parameters_general (a : Architecture) :
    a.target.parameters.Nodup ∧ ∀ q ∈ a.target.parameters, IsGeneral a q := by
  have h (a : Architecture) : a.target.parameters.Nodup ∧ ∀ q ∈ a.target.parameters,
      q.bank = 0 ∧ q.id < 32 ∧ a.target.allocatable.contains q = true := by
    cases a <;> decide +kernel
  exact ⟨(h a).1, fun q hq => ⟨((h a).2 q hq).1, ((h a).2 q hq).2.1, ((h a).2 q hq).2.2⟩⟩

theorem returnRegister_general (a : Architecture) : IsGeneral a a.target.returnRegister := by
  cases a <;> exact ⟨rfl, by decide, by decide +kernel⟩

theorem LockedWithin.mono {f g : RegisterFile} {n k : Nat} (h : LockedWithin f n) (hk : n ≤ k)
    (hl : ∀ q, g.locked.contains q = true → f.locked.contains q = true)
    (hc : ∀ q, g.InRange q → f.InRange q ∧ g.lockCount q ≤ f.lockCount q) : LockedWithin g k := by
  obtain ⟨⟨L, hL, hmem⟩, hcount⟩ := h
  refine ⟨⟨L, by omega, fun q hq => hmem q (hl q hq)⟩, fun q hq => ?_⟩
  have := hcount q (hc q hq).1
  have := (hc q hq).2
  omega

theorem LockedWithin.congr {f g : RegisterFile} {n : Nat} (h : LockedWithin f n) (hf : f.WellFormed)
    (hg : g.WellFormed) (hs : RegisterFile.SameShape f g)
    (hc : ∀ q, f.InRange q → g.lockCount q = f.lockCount q) : LockedWithin g n :=
  h.mono (Nat.le_refl n) (fun q hq => by rwa [RegisterFile.locked_congr hf hg hs hc] at hq)
    fun q hq => ⟨hs.inRange.mp hq, Nat.le_of_eq (hc q (hs.inRange.mp hq))⟩

/-- A full bank of general registers has one to evict, since few are locked. -/
theorem LockedWithin.exists_evictable {a : Architecture} {f : RegisterFile} {n : Nat}
    (h : LockedWithin f n) (hs : RegisterFile.SameShape a.target.registerFile f) (hn : n < lockLimit)
    (hfull : ∀ volatile i, ¬ f.IsFree volatile .empty ⟨0, i⟩) :
    ∃ i < f.width, f.isEvictable .empty ⟨0, i⟩ = true := by
  obtain ⟨ids, hnodup, hlen, hgen⟩ := generals a
  obtain ⟨L, hL, hmem⟩ := h.1
  obtain ⟨i, hi, hfree⟩ : ∃ i ∈ ids, Register.mk 0 i ∉ L := by
    by_contra hall
    push Not at hall
    have hsub : ids.map (Register.mk 0) ⊆ L := by
      intro q hq
      obtain ⟨i, hi, rfl⟩ := List.mem_map.mp hq
      exact hall i hi
    have := (List.subperm_of_subset
      (hnodup.map fun _ _ hab => (Register.mk.inj hab).2) hsub).length_le
    rw [List.length_map] at this
    omega
  have hg := hgen i hi
  have hwidth : i < f.width := by
    rw [hs.width]
    exact hg.id_lt
  have halloc : f.allocatable.contains ⟨0, i⟩ = true := by
    rw [hs.allocatable]
    exact hg.allocatable
  have hused : f.used.contains ⟨0, i⟩ = true := by
    by_contra hu
    exact hfull _ i ⟨hwidth, halloc, rfl, by simpa using hu, by simp⟩
  have hlocked : f.locked.contains ⟨0, i⟩ = false := by
    by_contra hl
    exact hfree (hmem _ (by simpa using hl))
  exact ⟨i, hwidth, by simp [RegisterFile.isEvictable, halloc, hused, hlocked]⟩

/-- One more lock. -/
theorem LockedWithin.lock {f : RegisterFile} {n : Nat} {q : Register} (h : LockedWithin f n)
    (hf : f.WellFormed) (hn : n < lockLimit) (hu : f.used.contains q = true) :
    ∃ g, f.lock q = .ok g ∧ g.WellFormed ∧ RegisterFile.SameShape f g ∧ g.owner? = f.owner? ∧
      LockedWithin g (n + 1) ∧
      ∀ x, g.locked.contains x = true ↔ f.locked.contains x = true ∨ x = q := by
  have hrange := hf.inRange_of_used hu
  have hcount : f.lockCount q < 255 := by
    have := h.2 q hrange
    have : lockLimit = 14 := rfl
    omega
  obtain ⟨g, hg, hgw, hgs, hgo, -, hgc⟩ := RegisterFile.lock_spec hf hu hcount
  have hlocked (x : Register) :
      g.locked.contains x = true ↔ f.locked.contains x = true ∨ x = q := by
    rw [hgw.locked_iff, hf.locked_iff, hgs.inRange]
    constructor
    · rintro ⟨hx, hpos⟩
      rw [hgc x hx] at hpos
      by_cases hxq : x = q
      · exact .inr hxq
      · rw [if_neg hxq] at hpos
        exact .inl ⟨hx, hpos⟩
    · rintro (⟨hx, hpos⟩ | rfl)
      · exact ⟨hx, by rw [hgc x hx]; omega⟩
      · exact ⟨hrange, by rw [hgc x hrange, if_pos rfl]; omega⟩
  refine ⟨g, hg, hgw, hgs, hgo, ⟨?_, fun x hx => ?_⟩, hlocked⟩
  · obtain ⟨L, hL, hmem⟩ := h.1
    refine ⟨q :: L, by simpa using hL, fun x hx => ?_⟩
    rcases (hlocked x).mp hx with hx | rfl
    · exact List.mem_cons_of_mem _ (hmem x hx)
    · exact List.mem_cons_self
  · have hx' := hgs.inRange.mp hx
    have := h.2 x hx'
    rw [hgc x hx']
    split <;> omega

/-! ## The invariant -/

variable {m : Machine} {K : Plan} {live live' : ValueId → Prop} {n : Nat}
variable {r r' : Routine} {s s' : Machine.State} {v w : ValueId} {q : Register}

/-- The value has a home, and the machine has the word there. -/
def Holds (r : Routine) (s : Machine.State) (v : ValueId) (w : Word) : Prop :=
  (∃ q, r.values.handleAt v = .register q ∧ r.registers.InRange q ∧
    r.registers.owner? q = some v ∧ s.registers q = w) ∨
  ∃ k z, r.values.handleAt v = .temporarySlot k z ∧ k < r.temporaries ∧
    s.slots (.temporary k) = w

/-- **The invariant of the build**: the routine agrees with the plan, its register file is well
formed with few registers locked, and every live value is at home. The number bounds what the
present instruction locked. -/
structure Sound (m : Machine) (K : Plan) (live : ValueId → Prop) (n : Nat) (r : Routine)
    (s : Machine.State) : Prop where
  architecture : r.config.architecture = m.architecture
  file : r.registers.WellFormed
  shape : RegisterFile.SameShape m.architecture.target.registerFile r.registers
  owners : ∀ q v, r.registers.InRange q → r.registers.owner? q = some v →
    v < K.size ∧ IsGeneral m.architecture q
  size : r.values.size = K.size
  cells : ∀ v c, r.values.cell? v = some c → K.Describes v c
  needed : ∀ v, live v → K.Needed r.position v
  homes : ∀ v, live v → Holds r s v (K.word v)
  locks : LockedWithin r.registers n

/-- Locked registers and slots keep their words. -/
structure Steady (r : Routine) (s : Machine.State) (r' : Routine) (s' : Machine.State) :
    Prop where
  position : r'.position = r.position
  locked : ∀ q, r.registers.locked.contains q = true →
    r'.registers.locked.contains q = true ∧ s'.registers q = s.registers q
  temporaries : r.temporaries ≤ r'.temporaries
  slots : ∀ k < r.temporaries, s'.slots (.temporary k) = s.slots (.temporary k)

theorem Steady.refl : Steady r s r s := ⟨rfl, fun _ h => ⟨h, rfl⟩, Nat.le_refl _, fun _ _ => rfl⟩

theorem Steady.trans {r'' : Routine} {s'' : Machine.State} (h : Steady r s r' s')
    (h' : Steady r' s' r'' s'') : Steady r s r'' s'' where
  position := h'.position.trans h.position
  locked q hq := by
    obtain ⟨h1, h2⟩ := h.locked q hq
    obtain ⟨h3, h4⟩ := h'.locked q h1
    exact ⟨h3, h4.trans h2⟩
  temporaries := Nat.le_trans h.temporaries h'.temporaries
  slots k hk := (h'.slots k (Nat.lt_of_lt_of_le hk h.temporaries)).trans (h.slots k hk)

namespace Sound

theorem cell (h : Sound m K live n r s) (hv : v < K.size) :
    ∃ c, r.values.cell? v = some c ∧ K.Describes v c ∧ r.values.handleAt v = c.handle := by
  have hv' : v < r.values.size := by rwa [h.size]
  have hc : r.values.cell? v = some r.values.cells[v] := Array.getElem?_eq_getElem hv'
  exact ⟨_, hc, h.cells _ _ hc, Arena.handleAt_eq hc⟩

theorem weaken (h : Sound m K live n r s) (hl : ∀ v, live' v → live v) :
    Sound m K live' n r s :=
  { h with needed := fun v hv => h.needed v (hl v hv), homes := fun v hv => h.homes v (hl v hv) }

theorem relax {k : Nat} (h : Sound m K live n r s) (hk : n ≤ k) : Sound m K live k r s :=
  { h with locks := h.locks.mono hk (fun _ => id) fun _ hq => ⟨hq, Nat.le_refl _⟩ }

theorem inRange_iff (h : Sound m K live n r s) :
    r.registers.InRange q ↔ m.architecture.target.registerFile.InRange q := h.shape.inRange

theorem inRange_of_general (h : Sound m K live n r s) (hq : IsGeneral m.architecture q) :
    r.registers.InRange q := by
  rw [h.inRange_iff]
  refine ⟨hq.id_lt, ?_⟩
  have h1 := hq.bank
  have h2 := hq.id_lt
  change q.bank * 32 + q.id < 64
  omega

/-- A change of the register file that keeps the homes of the live values. -/
theorem withRegisters {g : RegisterFile} {n' : Nat} (h : Sound m K live n r s)
    (hg : g.WellFormed) (hs : RegisterFile.SameShape r.registers g)
    (ho : ∀ q v, r.registers.InRange q → g.owner? q = some v →
      v < K.size ∧ IsGeneral m.architecture q)
    (hh : ∀ q v, live v → r.values.handleAt v = .register q → r.registers.InRange q →
      r.registers.owner? q = some v → g.owner? q = some v)
    (hn : LockedWithin g n') : Sound m K live n' { r with registers := g } s where
  architecture := h.architecture
  file := hg
  shape := h.shape.trans hs
  owners q v hq hv := ho q v (hs.inRange.mp hq) hv
  size := h.size
  cells := h.cells
  needed := h.needed
  homes v hv := by
    rcases h.homes v hv with ⟨q, h1, h2, h3, h4⟩ | ⟨k, z, hk⟩
    · exact .inl ⟨q, h1, hs.inRange.mpr h2, hh q v hv h1 h2 h3, h4⟩
    · exact .inr ⟨k, z, hk⟩
  locks := hn

theorem withHandle (h : Sound m K live n r s) (hv : v < K.size) (hk : K.isConstant v = false)
    (new : Handle) (hl : ∀ w, live' w → w ≠ v → live w)
    (hv' : live' v → K.Needed r.position v ∧
      Holds { r with values := r.values.withHandle v new } s v (K.word v)) :
    Sound m K live' n { r with values := r.values.withHandle v new } s where
  architecture := h.architecture
  file := h.file
  shape := h.shape
  owners := h.owners
  size := by
    rw [← h.size]
    simp [Arena.size, Arena.withHandle]
  cells w c hc := by
    change (r.values.withHandle v new).cell? w = some c at hc
    rw [Arena.cell?_withHandle] at hc
    obtain ⟨c', hc', rfl⟩ := Option.map_eq_some_iff.mp hc
    have hd := h.cells w c' hc'
    by_cases hw : w = v
    · subst hw
      rw [if_pos rfl]
      exact ⟨hd.format, hd.edges, hd.lifetime, fun ht => by simp [hk] at ht⟩
    · rwa [if_neg hw]
  needed w hw := by
    by_cases hwv : w = v
    · subst hwv
      exact (hv' hw).1
    · exact h.needed w (hl w hw hwv)
  homes w hw := by
    by_cases hwv : w = v
    · subst hwv
      exact (hv' hw).2
    · have := h.homes w (hl w hw hwv)
      have hsame : (r.values.withHandle v new).handleAt w = r.values.handleAt w := by
        rw [Arena.handleAt_withHandle (by rwa [h.size]), if_neg hwv]
      unfold Holds at this ⊢
      simp only [hsame]
      exact this
  locks := h.locks

/-- The machine may go on, as long as the words of the live values stay where they are. -/
theorem withState (h : Sound m K live n r s)
    (hr : ∀ q v, live v → r.registers.InRange q → r.registers.owner? q = some v →
      r.values.handleAt v = .register q → s'.registers q = s.registers q)
    (hs : ∀ k < r.temporaries, s'.slots (.temporary k) = s.slots (.temporary k)) :
    Sound m K live n r s' :=
  { h with
    homes := fun v hv => by
      rcases h.homes v hv with ⟨q, h1, h2, h3, h4⟩ | ⟨k, z, h1, h2, h3⟩
      · exact .inl ⟨q, h1, h2, h3, (hr q v hv h2 h3 h1).trans h4⟩
      · exact .inr ⟨k, z, h1, h2, (hs k h2).trans h3⟩ }

theorem congr {r' : Routine} (h : Sound m K live n r s) (h1 : r'.config = r.config)
    (h2 : r'.registers = r.registers) (h3 : r'.values = r.values) (h4 : r'.position = r.position)
    (h5 : r'.temporaries = r.temporaries) : Sound m K live n r' s where
  architecture := by rw [h1]; exact h.architecture
  file := by rw [h2]; exact h.file
  shape := by rw [h2]; exact h.shape
  owners := by rw [h2]; exact h.owners
  size := by rw [h3]; exact h.size
  cells := by rw [h3]; exact h.cells
  needed := by rw [h4]; exact h.needed
  homes v hv := by
    rcases h.homes v hv with hq | ⟨k, z, hk1, hk2, hk3⟩
    · refine .inl ?_
      rw [h2, h3]
      exact hq
    · exact .inr ⟨k, z, by rw [h3]; exact hk1, by rwa [h5], hk3⟩
  locks := by rw [h2]; exact h.locks

theorem slot (h : Sound m K live n r s) (ops : List Operation) (spills : Nat) :
    Sound m K live (n + 1)
      { r with temporaries := r.temporaries + 1, operations := ops, spills := spills } s :=
  { h.relax (Nat.le_succ n) with
    homes := fun v hv => by
      rcases h.homes v hv with hq | ⟨k, z, h1, h2, h3⟩
      · exact .inl hq
      · exact .inr ⟨k, z, h1, Nat.lt_succ_of_lt h2, h3⟩ }

end Sound

/-! ## Spilling -/

theorem owner?_eq (q : Register) (r : Routine) :
    Generating.owner? q r = .ok (r.registers.owner? q) r := rfl

theorem Sound.stored (h : Sound m K live n r s) (hq : r.registers.InRange q)
    (hv : r.registers.owner? q = some v) (hh : r.values.handleAt v = .register q)
    (ops : List Operation) (spills : Nat) :
    Sound m K live (n + 1)
      { r with
        temporaries := r.temporaries + 1, operations := ops, spills := spills,
        values := r.values.withHandle v (.temporarySlot r.temporaries .qword) }
      (s.store (.slot (.temporary r.temporaries)) (s.registers q)) := by
  obtain ⟨hvK, -⟩ := h.owners q v hq hv
  obtain ⟨c, hc, hd, hhandle⟩ := h.cell hvK
  have hk : K.isConstant v = false := by
    by_contra hk
    rw [hhandle, hd.constant (by simpa using hk)] at hh
    simp at hh
  have h1 : Sound m K live n r (s.store (.slot (.temporary r.temporaries)) (s.registers q)) :=
    h.withState (fun _ _ _ _ _ _ => by simp) fun k hk =>
      Machine.State.store_slots_of_ne (by simp only [ne_eq, SlotKey.temporary.injEq]; omega)
  have h2 := h1.slot ops spills
  refine h2.withHandle hvK hk _ (fun w hw _ => hw) fun hlive => ⟨h2.needed v hlive, .inr ?_⟩
  refine ⟨r.temporaries, .qword, ?_, Nat.lt_succ_self _, ?_⟩
  · rw [Arena.handleAt_withHandle (by rwa [h2.size]), if_pos rfl]
  · rw [Machine.State.store_slots_self]
    rcases h.homes v hlive with ⟨x, hx, -, -, hw⟩ | ⟨k, z, hx, -⟩
    · rw [hh] at hx
      cases hx
      exact hw
    · simp [hh] at hx

/-- Freeing a register that is not locked takes nothing from the live values, unless one is at home
there. -/
theorem Sound.released (h : Sound m K live n r s) (hq : r.registers.used.contains q = true)
    (hl : r.registers.locked.contains q = false)
    (hh : ∀ v, live v → r.registers.owner? q = some v → r.values.handleAt v ≠ .register q) :
    ∃ g, r.registers.release q = .ok g ∧ Sound m K live n { r with registers := g } s ∧
      g.used.contains q = false ∧
      (∀ x, r.registers.InRange x → g.owner? x = if x = q then none else r.registers.owner? x) ∧
      ∀ x, g.locked.contains x = r.registers.locked.contains x := by
  have hrange := h.file.inRange_of_used hq
  obtain ⟨g, hg, hgw, hgs, hgo, hgc⟩ := RegisterFile.release_unlocked_spec h.file hq hl
  refine ⟨g, hg, ?_, hgw.unused_of_owner (by rw [hgo q hrange, if_pos rfl]), hgo,
    RegisterFile.locked_congr h.file hgw hgs hgc⟩
  refine h.withRegisters hgw hgs (fun x w hx hw => ?_) (fun x w hw hwx hx hxo => ?_)
    (h.locks.congr h.file hgw hgs hgc)
  · rw [hgo x hx] at hw
    by_cases hxq : x = q
    · simp [hxq] at hw
    · rw [if_neg hxq] at hw
      exact h.owners x w hx hw
  · rw [hgo x hx, if_neg, hxo]
    rintro rfl
    exact hh w hw hxo hwx

/-- A register that is used but not locked is freed, and the value in it is kept if it is live. -/
theorem spill_spec (h : Sound m K live n r s) (hq : r.registers.used.contains q = true)
    (hl : r.registers.locked.contains q = false) :
    Emits m (spill q) r s fun _ r' s' => Sound m K live (n + 1) r' s' ∧
      r'.registers.used.contains q = false ∧ s'.registers = s.registers ∧
      (∀ x, r'.registers.locked.contains x = r.registers.locked.contains x) ∧
      Steady r s r' s' := by
  obtain ⟨hrange, v, hv⟩ := (h.file.used_iff q).mp hq
  obtain ⟨hvK, -⟩ := h.owners q v hrange hv
  obtain ⟨c, hc, hd, hhandle⟩ := h.cell hvK
  unfold spill
  refine .step (owner?_eq q r) ?_
  rw [hv]
  refine .step (handleOf_eq hc) (.step rfl (.step (isValid_eq hc _) ?_))
  by_cases hstore : c.handle.register? = some q ∧ c.lifetime.covers r.position = true
  · have hreg : c.handle = .register q := by
      cases hh : c.handle <;> simp [hh, Handle.register?] at hstore
      rw [hstore.1]
    have hstored := h.stored hrange hv (hhandle.trans hreg)
      (r.operations ++ [.spill r.temporaries q]) (r.spills + 1)
    obtain ⟨g, hg, hsound, hunused, -, hlocked⟩ := hstored.released hq hl fun w _ hw => by
      -- the value has moved to the slot
      obtain rfl : w = v := by simpa [hv] using hw.symm
      simp [Arena.handleAt_withHandle (show w < r.values.size by rwa [h.size])]
    simp only [hstore, and_self, if_true]
    refine .spillThen ?_
    refine .change (setHandle_eq (by exact hc) hd.edges _) rfl rfl rfl rfl rfl ?_
    refine .change (a := ()) rfl rfl rfl rfl rfl rfl ?_
    refine .silent (changeRegisters_eq g (by exact hg)) rfl rfl rfl rfl rfl
      ⟨hsound, hunused, rfl, hlocked, ?_⟩
    refine ⟨rfl, fun x hx => ⟨(hlocked x).trans hx, rfl⟩, Nat.le_succ _, fun k hk => ?_⟩
    exact Machine.State.store_slots_of_ne (by simp only [ne_eq, SlotKey.temporary.injEq]; omega)
  · obtain ⟨g, hg, hsound, hunused, -, hlocked⟩ := h.released hq hl fun w hw hwo hwq => by
      -- a live value in the freed register would have been stored
      obtain rfl : w = v := by simpa [hv] using hwo.symm
      refine hstore ⟨?_, ?_⟩
      · rw [← hhandle, hwq]
        rfl
      · rw [hd.lifetime]
        exact (h.needed w hw).covers
    simp only [hstore, if_false]
    refine .silent (changeRegisters_eq g hg) rfl rfl rfl rfl rfl
      ⟨hsound.relax (Nat.le_succ n), hunused, rfl, hlocked, ?_⟩
    exact ⟨rfl, fun x hx => ⟨(hlocked x).trans hx, rfl⟩, Nat.le_refl _, fun _ _ => rfl⟩

/-! ## Allocation -/

/-- A register that was handed out to a value. -/
structure Granted (m : Machine) (v : ValueId) (q : Register) (r : Routine) : Prop where
  general : IsGeneral m.architecture q
  inRange : r.registers.InRange q
  owner : r.registers.owner? q = some v
  locked : r.registers.locked.contains q = true

theorem Sound.assigned (h : Sound m K live n r s) (hq : IsGeneral m.architecture q)
    (hu : r.registers.used.contains q = false) (hv : v < K.size) :
    ∃ g, r.registers.assign q v = .ok g ∧ Sound m K live n { r with registers := g } s ∧
      (∀ x, r.registers.InRange x → g.owner? x = if x = q then some v else r.registers.owner? x) ∧
      ∀ x, g.locked.contains x = r.registers.locked.contains x := by
  have hrange := h.inRange_of_general hq
  obtain ⟨g, hg, hgw, hgs, hgo, hgc⟩ := RegisterFile.assign_spec h.file hrange v
  refine ⟨g, hg, ?_, hgo, RegisterFile.locked_congr h.file hgw hgs fun x _ => hgc x⟩
  refine h.withRegisters hgw hgs (fun x w hx hw => ?_) (fun x w hw hwx hx hxo => ?_)
    (h.locks.congr h.file hgw hgs fun x _ => hgc x)
  · rw [hgo x hx] at hw
    by_cases hxq : x = q
    · rw [if_pos hxq] at hw
      obtain rfl := Option.some.inj hw
      rw [hxq]
      exact ⟨hv, hq⟩
    · rw [if_neg hxq] at hw
      exact h.owners x w hx hw
  · rw [hgo x hx, if_neg, hxo]
    rintro rfl
    simp [h.file.used_of_owner hx hxo] at hu

theorem Sound.lock_eq (h : Sound m K live n r s) (hn : n < lockLimit)
    (hu : r.registers.used.contains q = true) :
    ∃ g, Generating.lock q r = .ok () { r with registers := g } ∧
      Sound m K live (n + 1) { r with registers := g } s ∧ g.owner? = r.registers.owner? ∧
      g.locked.contains q = true ∧
      ∀ x, r.registers.locked.contains x = true → g.locked.contains x = true := by
  obtain ⟨g, hg, hgw, hgs, hgo, hlocks, hlocked⟩ := h.locks.lock h.file hn hu
  refine ⟨g, changeRegisters_eq g hg, ?_, hgo, (hlocked q).mpr (.inr rfl),
    fun x hx => (hlocked x).mpr (.inl hx)⟩
  exact h.withRegisters hgw hgs (fun x w hx hw => h.owners x w hx (by rwa [hgo] at hw))
    (fun x w _ _ _ hxo => by rwa [hgo]) hlocks

/-- **A register for a value**: it was not locked before, it is now, and no live value lost its
word. -/
theorem allocate_spec (h : Sound m K live n r s) (hn : n + 1 < lockLimit) (hv : v < K.size) :
    Emits m (allocate 0 v) r s fun q r' s' => Sound m K live (n + 2) r' s' ∧ Granted m v q r' ∧
      r.registers.locked.contains q = false ∧ s'.registers = s.registers ∧ Steady r s r' s' := by
  -- the register that is given away is free by then
  have finish {q : Register} {r₁ : Routine} {s₁ : Machine.State} (h₁ : Sound m K live (n + 1) r₁ s₁)
      (hq : IsGeneral m.architecture q) (hu : r₁.registers.used.contains q = false)
      (hl : r.registers.locked.contains q = false) (hs : s₁.registers = s.registers)
      (hst : Steady r s r₁ s₁) :
      Emits m (do changeRegisters (·.assign q v); Generating.lock q; return q) r₁ s₁
        fun q r' s' => Sound m K live (n + 2) r' s' ∧ Granted m v q r' ∧
          r.registers.locked.contains q = false ∧ s'.registers = s.registers ∧
          Steady r s r' s' := by
    obtain ⟨g, hg, hsound, howners, hlocked⟩ := h₁.assigned hq hu hv
    have hrange : g.InRange q := hsound.inRange_of_general hq
    have howner : g.owner? q = some v := by
      rw [howners q (h₁.inRange_of_general hq), if_pos rfl]
    obtain ⟨g', hg', hsound', howner', hlocked', hmono⟩ :=
      hsound.lock_eq hn (hsound.file.used_of_owner hrange howner)
    refine .change (changeRegisters_eq g hg) rfl rfl rfl rfl rfl
      (.change hg' rfl rfl rfl rfl rfl
        (.pure ⟨hsound', ⟨hq, hsound'.inRange_of_general hq, ?_, hlocked'⟩, hl, hs, ?_⟩))
    · rw [← howner, howner']
    · refine hst.trans ⟨rfl, fun x hx => ⟨hmono x ?_, rfl⟩, Nat.le_refl _, fun _ _ => rfl⟩
      rwa [hlocked]
  obtain ⟨found, hfound, hsome, hnone⟩ :=
    RegisterFile.free?_spec (f := r.registers) h.file.width_le (b := 0) (by omega) .empty
  unfold allocate
  refine .step (a := found) (ask_eq (by rw [hfound]; rfl)) ?_
  cases found with
  | some q =>
    obtain ⟨hbank, ⟨hid, halloc, -, hu, -⟩, -⟩ := hsome q rfl
    have hq : IsGeneral m.architecture q :=
      ⟨hbank, by rwa [h.shape.width] at hid, by rwa [h.shape.allocatable] at halloc⟩
    refine finish (h.relax (Nat.le_succ n)) hq hu ?_ rfl .refl
    by_contra hl
    simp [h.file.used_of_locked q (by simpa using hl)] at hu
  | none =>
    obtain ⟨i, hi, hev⟩ := h.locks.exists_evictable h.shape (Nat.lt_of_succ_lt hn) (hnone rfl)
    obtain ⟨q, g, hg, hbank, hid, hqev, hgw, hgs, hgo, hgu, hgc⟩ :=
      RegisterFile.evictable?_spec h.file (by omega) hi hev
    simp only [RegisterFile.isEvictable, Bool.and_eq_true, Bool.not_eq_true'] at hqev
    obtain ⟨⟨⟨halloc, hu⟩, hl⟩, -⟩ := hqev
    have hq : IsGeneral m.architecture q :=
      ⟨hbank, by rwa [h.shape.width] at hid, by rwa [h.shape.allocatable] at halloc⟩
    have hlocked := RegisterFile.locked_congr h.file hgw hgs fun x _ => by rw [hgc]
    have h₁ : Sound m K live n { r with registers := g } s :=
      h.withRegisters hgw hgs (fun x w hx hw => h.owners x w hx (by rwa [hgo] at hw))
        (fun x w _ _ _ hxo => by rwa [hgo]) (h.locks.congr h.file hgw hgs fun x _ => by rw [hgc])
    have hvictim : victim 0 r = .ok q { r with registers := g } := by
      rw [victim, hg]
    refine .change hvictim rfl rfl rfl rfl rfl ?_
    refine .bind (spill_spec h₁ (by rwa [hgu]) (by rwa [hlocked])) ?_
    rintro - r₂ s₂ ⟨h₂, hu₂, hs₂, hl₂, hst₂⟩
    have hst₁ : Steady r s { r with registers := g } s :=
      ⟨rfl, fun x hx => ⟨(hlocked x).trans hx, rfl⟩, Nat.le_refl _, fun _ _ => rfl⟩
    exact finish h₂ hq hu₂ hl hs₂ (hst₁.trans hst₂)

end Codegen.Straight
