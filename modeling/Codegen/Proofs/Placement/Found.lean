import Codegen.Proofs.Placement.Working
import Codegen.Proofs.Straight.Selection

/-!
# Values that stay findable

While registers are found for an instruction, other values may lose theirs. A value that is needed
is stored then, so that it is found in its slot. What an instruction reads becomes a locked
register, a constant or a slot, and keeps its word until the instruction is complete.

* `Arena.Aloof`: no change of another value travels to it;
* `Routine.Finds`, `Routine.Supplies`: **a value with a home that has its word**, and what an
  instruction may read;
* `Spared`: what finding registers leaves as it is;
* `allocate_works`, `load_works`, `operand_works`: registers and operands;
* `Legible`: operands that keep their word.
-/

namespace Codegen

open Machine Generating
open Straight (LockedWithin lockLimit IsGeneral)

/-- No change of another value travels to the value. -/
def Arena.Aloof (a : Arena) (v : ValueId) : Prop := ∀ u, v ∈ a.receivers u → u = v

/-- **The value has a home, and its word is there.** -/
def Routine.Finds (r : Routine) (s : State) (v : ValueId) (w : Word) : Prop :=
  ∃ p, r.Houses v p ∧ s.valueAt p = w

/-- An integer that an instruction reads. -/
structure Routine.Reads (r : Routine) (v : ValueId) : Prop where
  integer : ∃ c, r.values.cell? v = some c ∧ c.format.isDecimal = false
  aloof : r.values.Aloof v
  needed : r.values.Covers v r.position

/-- **What an instruction may read**: an integer that is a constant or at home. -/
structure Routine.Supplies (r : Routine) (s : State) (v : ValueId) (w : Word) : Prop extends
    Routine.Reads r v where
  word : r.values.handleAt v = .constant (.integer w) ∨ r.Finds s v w

/-- Locked registers and slots keep their words. -/
structure Undisturbed (r : Routine) (s : State) (r' : Routine) (s' : State) : Prop where
  locked : ∀ q, r.registers.locked.contains q = true →
    r'.registers.locked.contains q = true ∧ s'.registers q = s.registers q
  slots : ∀ k, (∀ j, k = .temporary j → j < r.temporaries) → s'.slots k = s.slots k

/-- **What finding registers leaves as it is**: values that are needed are found, and those that are
in no register stay where they are. -/
structure Spared (r : Routine) (s : State) (r' : Routine) (s' : State) : Prop extends
    Undisturbed r s r' s' where
  handle : ∀ v, r.values.Aloof v → (∀ q, r.values.handleAt v ≠ .register q) →
    r'.values.handleAt v = r.values.handleAt v
  found : ∀ v w, r.values.Aloof v → r.values.Covers v r.position → r.Finds s v w → r'.Finds s' v w

variable {m : Machine} {r r' r'' : Routine} {s s' s'' : State} {n : Nat}
variable {u v x y : ValueId} {q d : Register} {w : Word}

theorem Arena.Rehomed.aloof {a b : Arena} (h : a.Rehomed b) (hv : a.Aloof v) : b.Aloof v :=
  fun u hu => hv u (by rwa [h.receivers] at hu)

theorem Undisturbed.trans (h : Undisturbed r s r' s') (hw : Worked m r s r' s')
    (h' : Undisturbed r' s' r'' s'') : Undisturbed r s r'' s'' where
  locked q hq := by
    obtain ⟨h₁, h₂⟩ := h.locked q hq
    obtain ⟨h₃, h₄⟩ := h'.locked q h₁
    exact ⟨h₃, h₄.trans h₂⟩
  slots k hk := (h'.slots k fun j hj => Nat.lt_of_lt_of_le (hk j hj) hw.temporaries).trans
    (h.slots k hk)

theorem Undisturbed.write (h : Undisturbed r s r' s') (hd : r.registers.locked.contains d = false)
    (w : Word) : Undisturbed r s r' (s'.set d w) where
  locked q hq := by
    obtain ⟨h₁, h₂⟩ := h.locked q hq
    have hqd : q ≠ d := by
      rintro rfl
      exact Bool.noConfusion (hq.symm.trans hd)
    exact ⟨h₁, (State.set_registers_of_ne hqd).trans h₂⟩
  slots := h.slots

namespace Spared

theorem refl (r : Routine) (s : State) : Spared r s r s :=
  ⟨⟨fun _ h => ⟨h, rfl⟩, fun _ _ => rfl⟩, fun _ _ _ => rfl, fun _ _ _ _ => id⟩

theorem trans (h : Spared r s r' s') (hw : Worked m r s r' s') (h' : Spared r' s' r'' s'') :
    Spared r s r'' s'' where
  toUndisturbed := h.toUndisturbed.trans hw h'.toUndisturbed
  handle v hv hq := by
    have hsame := h.handle v hv hq
    rw [← hsame, h'.handle v (hw.values.aloof hv)]
    intro q hq'
    exact hq q (hsame ▸ hq')
  found v w hv hc hf := h'.found v w (hw.values.aloof hv)
    (hw.values.covers.mpr (hw.position ▸ hc)) (h.found v w hv hc hf)

/-- What an instruction may read stays so. -/
theorem supplies (h : Spared r s r' s') (hw : Worked m r s r' s') (hv : r.Supplies s v w) :
    r'.Supplies s' v w where
  integer := by
    obtain ⟨c, hc, hformat⟩ := hv.integer
    exact ⟨_, hw.values.cell hc, hformat⟩
  aloof := hw.values.aloof hv.aloof
  needed := hw.values.covers.mpr (hw.position ▸ hv.needed)
  word := by
    rcases hv.word with hconstant | hfound
    · refine .inl ?_
      rw [h.handle v hv.aloof (by simp [hconstant]), hconstant]
    · exact .inr (h.found v w hv.aloof hv.needed hfound)

theorem write (h : Spared r s r' s') (hd : r.registers.locked.contains d = false)
    (hhome : ∀ u, ¬ r'.Houses u (.register d)) (w : Word) :
    Spared r s r' (s'.set d w) where
  toUndisturbed := h.toUndisturbed.write hd w
  handle := h.handle
  found v a hv hc hf := by
    obtain ⟨p, hp, hword⟩ := h.found v a hv hc hf
    refine ⟨p, hp, ?_⟩
    rw [valueAt_set, if_neg, hword]
    rintro rfl
    exact hhome v hp

theorem congr {t : Routine} (h : Spared r s r' s') (hv : t.values = r'.values)
    (hg : t.registers = r'.registers) (ht : t.temporaries = r'.temporaries) :
    Spared r s t s' := by
  refine ⟨⟨?_, h.slots⟩, ?_, fun v w ha hc hf => ?_⟩
  · rw [hg]
    exact h.locked
  · rw [hv]
    exact h.handle
  · obtain ⟨p, hp, hword⟩ := h.found v w ha hc hf
    refine ⟨p, ⟨?_, ?_, ?_⟩, hword⟩
    · rw [hv]
      exact hp.home
    · rw [hg]
      exact hp.own
    · rw [ht]
      exact hp.made

end Spared

namespace Generating

/-! ## Registers that are freed -/

theorem Freed.lockCount (h : Freed r r' q) (hr : r.Ready)
    (hl : r.registers.locked.contains q = false) (hx : r.registers.InRange d) :
    r'.registers.lockCount d = r.registers.lockCount d := by
  rw [h.locks d hx]
  split
  next hd =>
    subst hd
    by_contra hne
    have hpos : 0 < r.registers.lockCount d := by omega
    rw [(hr.coherent.registers.locked_iff d).mpr ⟨hx, hpos⟩] at hl
    cases hl
  next => rfl

/-- **A register that is not locked is freed**, and nothing that is needed is lost. -/
theorem spill_works (hr : r.Ready) (hu : r.registers.used.contains q = true)
    (hl : r.registers.locked.contains q = false) :
    Works m (spill q) r s fun _ r' s' => Freed r r' q ∧ s'.registers = s.registers ∧
      Spared r s r' s' := by
  obtain ⟨hq, o, ho⟩ := (hr.coherent.registers.used_iff q).mp hu
  refine .mono (works_spill hr hq ho) ?_
  rintro _ r' s' hw ⟨hfreed, hcase⟩
  have hlocked (x : Register) :
      r'.registers.locked.contains x = r.registers.locked.contains x :=
    RegisterFile.locked_congr hr.coherent.registers hw.ready.coherent.registers (hw.shape hr)
      (fun x hx => hfreed.lockCount hr hl hx) x
  have howned {x : Register} {u : ValueId} (hxq : x ≠ q) (hx : r.registers.InRange x)
      (hu : r.registers.owner? x = some u) :
      r'.registers.InRange x ∧ r'.registers.owner? x = some u :=
    ⟨(hw.shape hr).inRange.mpr hx, by rw [hfreed.owner x hx, if_neg hxq, hu]⟩
  refine ⟨hfreed, ?_⟩
  rcases hcase with ⟨hlives, hstored⟩ | ⟨hnot, hvalues, htemporaries, rfl⟩
  · obtain ⟨hhandles, htemporaries, rfl⟩ := hstored
    have hother {u : ValueId} (hu : r.values.Aloof u) (huo : u ≠ o) :
        r'.values.handleAt u = r.values.handleAt u := by
      rw [hhandles, if_neg]
      rintro (rfl | hreceived)
      · exact huo rfl
      · exact huo (hu o hreceived).symm
    refine ⟨rfl, ⟨fun x hx => ⟨(hlocked x).trans hx, rfl⟩, fun k hk => ?_⟩, fun u hu hne => ?_,
      fun u a hu hc hf => ?_⟩
    · refine State.store_slots_of_ne ?_
      rintro rfl
      exact Nat.lt_irrefl _ (hk _ rfl)
    · refine hother hu ?_
      rintro rfl
      exact hne q hlives.1
    · obtain ⟨p, hp, hword⟩ := hf
      by_cases huo : u = o
      · -- the value is the one that was stored
        subst huo
        have hhome := hp.home
        rw [hlives.1] at hhome
        obtain rfl := Option.some.inj hhome
        refine ⟨.slot (.temporary r.temporaries), ⟨by simp [hhandles, Handle.home?],
          fun _ h => Home.noConfusion h, ?_⟩, ?_⟩
        · rintro k ⟨⟩
          rw [htemporaries]
          exact Nat.lt_succ_self _
        · rw [valueAt_store_slot, if_pos rfl]
          exact hword
      · refine ⟨p, ⟨by rw [hother hu huo, hp.home], ?_, fun k hk => ?_⟩, ?_⟩
        · rintro x rfl
          have hxq : x ≠ q := by
            rintro rfl
            exact huo (Option.some.inj ((hp.own x rfl).2.symm.trans ho))
          exact howned hxq (hp.own x rfl).1 (hp.own x rfl).2
        · rw [htemporaries]
          exact Nat.lt_succ_of_lt (hp.made k hk)
        · rw [valueAt_store_slot, if_neg, hword]
          rintro rfl
          exact Nat.lt_irrefl _ (hp.made _ rfl)
  · refine ⟨rfl, ⟨fun x hx => ⟨(hlocked x).trans hx, rfl⟩, fun _ _ => rfl⟩,
      fun u _ _ => by rw [hvalues], fun u a hu hc hf => ?_⟩
    obtain ⟨p, hp, hword⟩ := hf
    refine ⟨p, ⟨by rw [hvalues, hp.home], ?_, ?_⟩, hword⟩
    · rintro x rfl
      have hxq : x ≠ q := by
        rintro rfl
        obtain rfl : u = o := Option.some.inj ((hp.own x rfl).2.symm.trans ho)
        exact hnot ⟨Handle.home?_eq_register.mp hp.home, hc⟩
      exact howned hxq (hp.own x rfl).1 (hp.own x rfl).2
    · rw [htemporaries]
      exact hp.made

/-! ## Registers that are given away -/

/-- A locked register that belongs to a value. -/
structure Granted (m : Machine) (v : ValueId) (q : Register) (r : Routine) : Prop where
  general : IsGeneral m.architecture q
  inRange : r.registers.InRange q
  owner : r.registers.owner? q = some v
  locked : r.registers.locked.contains q = true

/-- A register in use is locked once more. -/
theorem lock_works (hr : r.Ready) (hn : LockedWithin r.registers n) (hlimit : n < lockLimit)
    (hu : r.registers.used.contains q = true) :
    Works m (lock q) r s fun _ r' s' => LockedWithin r'.registers (n + 1) ∧
      r'.registers.locked.contains q = true ∧ r'.registers.owner? = r.registers.owner? ∧
      r'.values = r.values ∧ s' = s ∧ Spared r s r' s' := by
  obtain ⟨g, hg, hwell, hshape, howner, hlocks, hlocked⟩ :=
    hn.lock hr.coherent.registers hlimit hu
  refine .registers hr hg hwell hshape (fun x u hx hxu => ?_) ⟨hlocks, (hlocked q).mpr (.inr rfl),
    howner, rfl, rfl, ⟨fun x hx => ⟨(hlocked x).mpr (.inl hx), rfl⟩, fun _ _ => rfl⟩,
    fun _ _ _ => rfl, fun u a _ _ hf => ?_⟩
  · rw [howner] at hxu
    exact hr.coherent.owned x u hx hxu
  · obtain ⟨p, hp, hword⟩ := hf
    refine ⟨p, ⟨hp.home, fun x hx => ?_, hp.made⟩, hword⟩
    exact ⟨hshape.inRange.mpr (hp.own x hx).1, by rw [howner, (hp.own x hx).2]⟩

/-- A register that nothing owns is given to a value. -/
theorem assign_works (hr : r.Ready) (hn : LockedWithin r.registers n)
    (hq : r.registers.InRange q) (ho : r.registers.owner? q = none) (hv : v < r.values.size) :
    Works m (changeRegisters (·.assign q v)) r s fun _ r' s' =>
      LockedWithin r'.registers n ∧ r'.registers.owner? q = some v ∧ s' = s ∧
        Spared r s r' s' := by
  have hwell := hr.coherent.registers
  obtain ⟨g, hg, hgwell, hshape, howner, hlocks⟩ := RegisterFile.assign_spec hwell hq v
  have hlocked (x : Register) : g.locked.contains x = r.registers.locked.contains x :=
    RegisterFile.locked_congr hwell hgwell hshape (fun x _ => hlocks x) x
  refine .registers hr hg hgwell hshape (fun x u hx hu => ?_)
    ⟨hn.congr hwell hgwell hshape fun x _ => hlocks x, by rw [howner q hq, if_pos rfl], rfl,
      ⟨fun x hx => ⟨(hlocked x).trans hx, rfl⟩, fun _ _ => rfl⟩, fun _ _ _ => rfl,
      fun u a _ _ hf => ?_⟩
  · rw [howner x hx] at hu
    split at hu
    next => exact Option.some.inj hu ▸ hv
    next => exact hr.coherent.owned x u hx hu
  · obtain ⟨p, hp, hword⟩ := hf
    refine ⟨p, ⟨hp.home, fun x hx => ?_, hp.made⟩, hword⟩
    obtain ⟨hin, hown⟩ := hp.own x hx
    have hxq : x ≠ q := by
      rintro rfl
      rw [hown] at ho
      cases ho
    exact ⟨hshape.inRange.mpr hin, by rw [howner x hin, if_neg hxq, hown]⟩

/-- **A register for a value**: it was not locked before, it is now, and nothing that is needed is
lost. -/
theorem allocate_works (hr : r.Ready) (hm : m.architecture = r.architecture)
    (hn : LockedWithin r.registers n) (hlimit : n < lockLimit) (hv : v < r.values.size) :
    Works m (allocate 0 v) r s fun d r' s' => Granted m v d r' ∧
      LockedWithin r'.registers (n + 1) ∧ r.registers.locked.contains d = false ∧
      s'.registers = s.registers ∧ Spared r s r' s' := by
  have hwell := hr.coherent.registers
  have general {q : Register} (hbank : q.bank = 0) (hid : q.id < r.registers.width)
      (hallocatable : r.registers.allocatable.contains q = true) : IsGeneral m.architecture q := by
    rw [hm]
    exact ⟨hbank, by rwa [hr.shape.width] at hid, by rwa [hr.shape.allocatable] at hallocatable⟩
  -- the register that is given away is free by then
  have finish {q : Register} {r₁ : Routine} {s₁ : State} (hw₁ : Worked m r s r₁ s₁)
      (hn₁ : LockedWithin r₁.registers n) (hq : IsGeneral m.architecture q)
      (ho : r₁.registers.owner? q = none) (hl : r.registers.locked.contains q = false)
      (hs : s₁.registers = s.registers) (hspared : Spared r s r₁ s₁) :
      Works m (do changeRegisters (·.assign q v); Generating.lock q; return q) r₁ s₁
        fun d r' s' => Granted m v d r' ∧ LockedWithin r'.registers (n + 1) ∧
          r.registers.locked.contains d = false ∧ s'.registers = s.registers ∧
          Spared r s r' s' := by
    have hrange : r₁.registers.InRange q :=
      hw₁.ready.inRange.mpr ⟨hq.id_lt, by rw [hq.bank]; decide⟩
    refine .bind (assign_works hw₁.ready hn₁ hrange ho (hw₁.values.size ▸ hv)) ?_
    rintro - r₂ _ hw₂ ⟨hn₂, ho₂, rfl, hspared₂⟩
    have hrange₂ := (hw₂.shape hw₁.ready).inRange.mpr hrange
    refine .bind (lock_works hw₂.ready hn₂ hlimit
      (hw₂.ready.coherent.registers.used_of_owner hrange₂ ho₂)) ?_
    rintro - r₃ _ hw₃ ⟨hn₃, hl₃, ho₃, -, rfl, hspared₃⟩
    refine .pure hw₃.ready ⟨⟨hq, (hw₃.shape hw₂.ready).inRange.mpr hrange₂, by rw [ho₃, ho₂], hl₃⟩,
      hn₃, hl, hs, ?_⟩
    exact (hspared.trans hw₁ hspared₂).trans (hw₁.trans hw₂) hspared₃
  obtain ⟨found, hfound, hsome, hnone⟩ :=
    RegisterFile.free?_spec hwell.width_le (b := 0) (by omega) .empty
  unfold allocate
  refine .step (a := found) (ask_eq (by rw [hfound]; rfl)) ?_
  cases found with
  | some q =>
    obtain ⟨hbank, ⟨hid, hallocatable, -, hu, -⟩, -⟩ := hsome q rfl
    have hq := general hbank hid hallocatable
    have hrange : r.registers.InRange q := hr.inRange.mpr ⟨hq.id_lt, by rw [hq.bank]; decide⟩
    refine finish (.refl hr) hn hq (hwell.owner?_eq_none hrange hu) ?_ rfl (.refl r s)
    by_contra hl
    rw [hwell.used_of_locked q (by simpa using hl)] at hu
    cases hu
  | none =>
    obtain ⟨i, hi, hev⟩ := hn.exists_evictable hr.shape hlimit (hnone rfl)
    obtain ⟨q, g, hg, hbank, hid, hqev, hgwell, hshape, hgo, hgu, hgc⟩ :=
      RegisterFile.evictable?_spec hwell (by omega) hi hev
    simp only [RegisterFile.isEvictable, Bool.and_eq_true, Bool.not_eq_true'] at hqev
    obtain ⟨⟨⟨hallocatable, hu⟩, hl⟩, -⟩ := hqev
    have hlocked (x : Register) : g.locked.contains x = r.registers.locked.contains x :=
      RegisterFile.locked_congr hwell hgwell hshape (fun x _ => by rw [hgc]) x
    have hvictim : victim 0 r = .ok q { r with registers := g } := by
      rw [victim, hg]
    have hready := hr.of_registers hgwell hshape fun x u hx hxu =>
      hr.coherent.owned x u hx (by rwa [hgo] at hxu)
    have hw₁ : Worked m r s { r with registers := g } s :=
      ⟨rfl, rfl, Nat.le_refl _, .refl _, hready, rfl, [], by simp, rfl⟩
    have hspared₁ : Spared r s { r with registers := g } s := by
      refine ⟨⟨fun x hx => ⟨(hlocked x).trans hx, rfl⟩, fun _ _ => rfl⟩, fun _ _ _ => rfl,
        fun u a _ _ hf => ?_⟩
      obtain ⟨p, hp, hword⟩ := hf
      refine ⟨p, ⟨hp.home, fun x hx => ?_, hp.made⟩, hword⟩
      exact ⟨hshape.inRange.mpr (hp.own x hx).1, by rw [hgo, (hp.own x hx).2]⟩
    refine .bind (.of_runs (.of_eq hvictim ⟨hw₁, rfl, rfl, rfl⟩))
      (Q := fun q₁ r₁ s₁ => q₁ = q ∧ r₁ = { r with registers := g } ∧ s₁ = s) ?_
    rintro q _ _ - ⟨rfl, rfl, rfl⟩
    refine .bind (spill_works hready (hgu ▸ hu) ((hlocked q).trans hl)) ?_
    rintro - r₂ s₂ hw₂ ⟨hfreed, hs₂, hspared₂⟩
    have hrange : g.InRange q := hgwell.inRange_of_used (hgu ▸ hu)
    have hn₁ : LockedWithin g n := hn.congr hwell hgwell hshape fun x _ => by rw [hgc]
    have hn₂ : LockedWithin r₂.registers n := hn₁.congr hgwell hw₂.ready.coherent.registers
      (hw₂.shape hready) fun x hx => hfreed.lockCount hready ((hlocked q).trans hl) hx
    refine .bind (.pure hw₂.ready ⟨rfl, rfl, rfl⟩)
      (Q := fun q₁ r₁ s₁ => q₁ = q ∧ r₁ = r₂ ∧ s₁ = s₂) ?_
    rintro q r₂ s₂ - ⟨rfl, rfl, rfl⟩
    exact finish (hw₁.trans hw₂) hn₂ (general hbank hid hallocatable)
      (by rw [hfreed.owner q hrange, if_pos rfl]) hl hs₂ (hspared₁.trans hw₁ hspared₂)

end Generating

/-! ## Operands -/

/-- **An operand that keeps its word** as long as locked registers and slots are left alone. -/
inductive Legible (r : Routine) (s : State) (w : Word) : Operand → Prop
  | register {q : Register} (hq : r.registers.locked.contains q = true) (hw : s.registers q = w) :
      Legible r s w (.register q)
  | immediate : Legible r s w (.immediate w)
  | slot {k : SlotKey} (hk : ∀ j, k = .temporary j → j < r.temporaries)
      (hi : ∀ identity, k ≠ .inline identity) (hw : s.slots k = w) :
      Legible r s w (.memory (.displaced (.slot k) 0))

namespace Legible

variable {o : Operand}

theorem undisturbed (h : Legible r s w o) (hw : Worked m r s r' s') (hs : Undisturbed r s r' s') :
    Legible r' s' w o := by
  cases h with
  | register hq hword =>
    obtain ⟨hlocked, hsame⟩ := hs.locked _ hq
    exact .register hlocked (hsame.trans hword)
  | immediate => exact .immediate
  | slot hk hi hword =>
    exact .slot (fun j hj => Nat.lt_of_lt_of_le (hk j hj) hw.temporaries) hi
      ((hs.slots _ hk).trans hword)

theorem read (h : Legible r s w o) : m.read s o = some w := by
  cases h with
  | register _ hword => exact congrArg some hword
  | immediate => rfl
  | slot _ hi hword => rw [read_slot hi, hword]

end Legible

/-- The place holds the word: a constant, a register or a slot that exists. -/
inductive Provides (r : Routine) (s : State) (w : Word) : Handle → Prop
  | constant : Provides r s w (.constant (.integer w))
  | home {h : Handle} {p : Home} (hp : h.home? = some p)
      (hk : ∀ j, p = .slot (.temporary j) → j < r.temporaries) (hw : s.valueAt p = w) :
      Provides r s w h

theorem Provides.undisturbed {h : Handle} (hp : Provides r s w h) (hw : Worked m r s r' s')
    (hregisters : s'.registers = s.registers) (hs : Undisturbed r s r' s') :
    Provides r' s' w h := by
  cases hp with
  | constant => exact .constant
  | @home _ p hp hk hword =>
    refine .home hp (fun j hj => Nat.lt_of_lt_of_le (hk j hj) hw.temporaries) ?_
    rw [← hword]
    cases p with
    | register q => exact congrFun hregisters q
    | slot k => exact hs.slots k fun j hj => hk j (congrArg Home.slot hj)

namespace Generating

theorem provides_of_supplies (hv : r.Supplies s v w) :
    Provides r s w (r.values.handleAt v) ∧ ∀ q, r.values.handleAt v = .register q →
      r.Houses v (.register q) ∧ s.registers q = w := by
  rcases hv.word with hconstant | ⟨p, hp, hword⟩
  · rw [hconstant]
    exact ⟨.constant, fun q hq => Handle.noConfusion hq⟩
  · refine ⟨.home hp.home hp.made hword, fun q hq => ?_⟩
    have hhome := hp.home
    rw [hq] at hhome
    obtain rfl := Option.some.inj hhome
    exact ⟨hp, hword⟩

/-- A place is copied to a register. -/
theorem transferInto_works {h : Handle} {f : Format} (hr : r.Ready) (hp : Provides r s w h)
    (hq : q.isMedia = false) (load : Loading) :
    Works m (transferInto load q h f) r s fun _ r' s' => s' = s.set q w ∧ r'.values = r.values ∧
      r'.registers = r.registers ∧ r'.temporaries = r.temporaries := by
  have moved {o : Operand} (ho : m.read s o = some w) :
      Works m (emit .move [.register q, o]) r s fun _ r' s' => s' = s.set q w ∧
        r'.values = r.values ∧ r'.registers = r.registers ∧ r'.temporaries = r.temporaries :=
    .emit hr (perform_moveInto ho) rfl ⟨rfl, rfl, rfl, rfl⟩
  cases hp with
  | constant =>
    simp only [transferInto, transferConstant, hq, Bool.false_eq_true, if_false]
    exact moved rfl
  | home hp _ hword =>
    cases h with
    | register y =>
      obtain rfl := Option.some.inj hp
      by_cases hyq : y = q
      · subst hyq
        simp only [transferInto, ne_eq, not_true_eq_false, if_false]
        exact .pure hr ⟨(Straight.set_eq_self hword).symm, rfl, rfl, rfl⟩
      · simp only [transferInto, ne_eq, hyq, not_false_eq_true, if_true]
        exact moved (congrArg some hword)
    | variableSlot y =>
      obtain rfl := Option.some.inj hp
      exact .step (r := r) rfl (moved ((read_slot (by simp)).trans (congrArg some hword)))
    | temporarySlot k size =>
      obtain rfl := Option.some.inj hp
      exact .step (r := r) rfl (moved ((read_slot (by simp)).trans (congrArg some hword)))
    | _ => cases hp

theorem Granted.isMedia (h : Granted m v q r) : q.isMedia = false := by
  simp [Register.isMedia, h.general.bank, Register.mediaBank]

theorem bank_of_integer {f : Format} (hf : f.isDecimal = false) : f.bank = 0 := by
  simp [Format.bank, hf, Register.generalBank]

/-- **A value in a locked register.** -/
theorem load_works (hr : r.Ready) (hm : m.architecture = r.architecture)
    (hn : LockedWithin r.registers n) (hlimit : n < lockLimit) (hv : r.Supplies s v w) :
    Works m (load v) r s fun q r' s' => LockedWithin r'.registers (n + 1) ∧
      Legible r' s' w (.register q) ∧ Spared r s r' s' := by
  obtain ⟨c, hc, hformat⟩ := hv.integer
  obtain ⟨hprovides, hregister⟩ := provides_of_supplies hv
  have hhandle := Arena.handleAt_eq hc
  rw [hhandle] at hprovides
  unfold load
  refine .step (a := r) rfl ?_
  unfold loadWithin loadStep
  refine .step (handleOf_eq hc) ?_
  -- a value that is in no register is copied to a new one
  have copy (hne : ∀ q, c.handle ≠ .register q) :
      Works m (do
        let f ← formatOf v
        let q ← allocate f.bank v
        transferInto (loadWithin r.values.size) q c.handle f
        return q) r s fun q r' s' => LockedWithin r'.registers (n + 1) ∧
          Legible r' s' w (.register q) ∧ Spared r s r' s' := by
    refine .step (formatOf_eq hc) ?_
    rw [bank_of_integer hformat]
    refine .bind (allocate_works hr hm hn hlimit (Arena.cell?_lt hc)) ?_
    rintro d r₁ s₁ hw₁ ⟨hgranted, hn₁, hl, hregisters, hspared⟩
    refine .bind (transferInto_works hw₁.ready
      (hprovides.undisturbed hw₁ hregisters hspared.toUndisturbed) hgranted.isMedia _) ?_
    rintro - r₂ _ hw₂ ⟨rfl, hvalues, hregisters₂, htemporaries⟩
    refine .pure hw₂.ready ⟨hregisters₂ ▸ hn₁, .register (hregisters₂ ▸ hgranted.locked) (by simp),
      (hspared.write hl (fun u hu => ?_) w).congr hvalues hregisters₂ htemporaries⟩
    obtain rfl : u = v := Option.some.inj ((hu.own d rfl).2.symm.trans hgranted.owner)
    have hsame := hspared.handle u hv.aloof (by rw [hhandle]; exact hne)
    have hhome := Handle.home?_eq_register.mp hu.home
    rw [hsame, hhandle] at hhome
    exact hne d hhome
  cases hcase : c.handle with
  | register q =>
    obtain ⟨hhouse, hword⟩ := hregister q (hhandle.trans hcase)
    have hused := hr.coherent.registers.used_of_owner (hhouse.own q rfl).1 (hhouse.own q rfl).2
    unfold lockUsed
    refine .bind (.step (a := true) (by rw [← hused]; rfl) (lock_works hr hn hlimit hused)) ?_
    rintro - r₁ _ hw₁ ⟨hn₁, hl, -, -, rfl, hspared⟩
    exact .pure hw₁.ready ⟨hn₁, .register hl hword, hspared⟩
  | _ =>
    rw [hcase] at copy
    exact copy (by simp)

/-- **A value in a form that is accepted**: memory on x64 only, and an immediate for a constant
only. -/
theorem operand_works (hr : r.Ready) (hm : m.architecture = r.architecture)
    (hn : LockedWithin r.registers n) (hlimit : n < lockLimit) (hv : r.Supplies s v w)
    (access : Access) :
    Works m (operand v access) r s fun o r' s' => LockedWithin r'.registers (n + 1) ∧
      Legible r' s' w o ∧ (∀ i, o = .immediate i → r.values.handleAt v = .constant (.integer w)) ∧
      Spared r s r' s' := by
  obtain ⟨c, hc, hformat⟩ := hv.integer
  obtain ⟨hprovides, hregister⟩ := provides_of_supplies hv
  have hhandle := Arena.handleAt_eq hc
  rw [hhandle] at hprovides ⊢
  have hrelax : LockedWithin r.registers (n + 1) :=
    hn.mono (Nat.le_succ n) (fun _ => id) fun _ hq => ⟨hq, Nat.le_refl _⟩
  have loaded : Works m (do return Operand.register (← load v)) r s fun o r' s' =>
      LockedWithin r'.registers (n + 1) ∧ Legible r' s' w o ∧
        (∀ i, o = .immediate i → c.handle = .constant (.integer w)) ∧ Spared r s r' s' := by
    refine .bind (load_works hr hm hn hlimit hv) ?_
    rintro q r₁ s₁ hw₁ ⟨hn₁, hq, hspared⟩
    exact .pure hw₁.ready ⟨hn₁, hq, fun i hi => Operand.noConfusion hi, hspared⟩
  -- on x64 a slot is an operand by itself
  have slot {k : SlotKey} (hk : c.handle.home? = some (.slot k)) :
      Works m (do return Operand.memory (← memoryOperand c.handle)) r s fun o r' s' =>
        LockedWithin r'.registers (n + 1) ∧ Legible r' s' w o ∧
          (∀ i, o = .immediate i → c.handle = .constant (.integer w)) ∧ Spared r s r' s' := by
    refine .step (memoryOperand_slot hk) (.pure hr
      ⟨hrelax, ?_, fun i hi => Operand.noConfusion hi, .refl r s⟩)
    generalize c.handle = h at hk hprovides
    cases hprovides with
    | constant => cases hk
    | home hp hmade hword =>
      obtain rfl := Option.some.inj (hp.symm.trans hk)
      exact .slot (fun j hj => hmade j (congrArg Home.slot hj)) (not_inline_of_home? hk) hword
  unfold operand
  refine .step (handleOf_eq hc) (.step (formatOf_eq hc) (.step (a := r) rfl ?_))
  cases hcase : c.handle with
  | register q =>
    obtain ⟨hhouse, hword⟩ := hregister q (hhandle.trans hcase)
    have hused := hr.coherent.registers.used_of_owner (hhouse.own q rfl).1 (hhouse.own q rfl).2
    unfold lockUsed
    refine .bind (.step (a := true) (by rw [← hused]; rfl) (lock_works hr hn hlimit hused)) ?_
    rintro - r₁ _ hw₁ ⟨hn₁, hl, -, -, rfl, hspared⟩
    exact .pure hw₁.ready ⟨hn₁, .register hl hword, fun i hi => Operand.noConfusion hi, hspared⟩
  | constant number =>
    rw [hcase] at hprovides loaded
    cases hprovides with
    | constant =>
      simp only []
      split
      · exact .pure hr ⟨hrelax, .immediate, fun _ _ => trivial, .refl r s⟩
      · simpa using loaded
    | home hp => cases hp
  | variableSlot y =>
    rw [hcase] at slot loaded
    simp only []
    split
    · exact slot rfl
    · exact loaded
  | temporarySlot k size =>
    rw [hcase] at slot loaded
    simp only []
    split
    · exact slot rfl
    · exact loaded
  | _ =>
    rw [hcase] at hprovides
    cases hprovides with
    | home hp => cases hp

end Generating

end Codegen
