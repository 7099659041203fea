import Codegen.Proofs.Register.Set
import Codegen.Register.File

/-!
# The register file keeps its books

A register file is *well formed* when its sets and its tables say the same: a register is used
exactly when it has an owner, and locked exactly when its lock count is positive. Each operation
keeps this, and is described by what it does to the owners and the lock counts.

* `RegisterFile.InRange`, `RegisterFile.WellFormed`: the registers and the invariant;
* `assign_spec`, `release_spec`, `lock_spec`, `unlock_spec`, `unlockAll_spec`: ownership and locks;
* `reset_wellFormed`, `wellFormed_ofShape`: files with nothing in them;
* `free?_spec`, `evictable?_spec`: what a search finds, and when it finds something;
* `mem_occupants`, `mem_occupants_release`, `nodup_occupants`: the list of owned registers.
-/

namespace Codegen.RegisterFile

/-! ## The invariant -/

/-- The file has a place for the register. -/
def InRange (f : RegisterFile) (r : Register) : Prop := r.id < f.width ∧ f.index r < f.size

/-- How often a register is locked. -/
def lockCount (f : RegisterFile) (r : Register) : Nat := f.locks.getD (f.index r) 0

/-- The sets and the tables of the file agree. -/
structure WellFormed (f : RegisterFile) : Prop where
  width_le : f.width ≤ 64
  size_le : f.size ≤ 4 * f.width
  owners_size : f.owners.size = f.size
  locks_size : f.locks.size = f.size
  used_iff : ∀ r, f.used.contains r = true ↔ f.InRange r ∧ ∃ v, f.owner? r = some v
  locked_iff : ∀ r, f.locked.contains r = true ↔ f.InRange r ∧ 0 < f.lockCount r
  used_of_locked : ∀ r, f.locked.contains r = true → f.used.contains r = true
  clock_lt : 0 < f.width → ∀ b < 4, f.clocks.getD b 0 < f.width

/-- Two files of the same shape. -/
structure SameShape (f g : RegisterFile) : Prop where
  width : g.width = f.width
  size : g.size = f.size
  allocatable : g.allocatable = f.allocatable
  volatile : g.volatile = f.volatile

variable {f g h : RegisterFile} {r q : Register} {v w : ValueId}

theorem SameShape.refl (f : RegisterFile) : SameShape f f := ⟨rfl, rfl, rfl, rfl⟩

theorem SameShape.trans (hg : SameShape f g) (hh : SameShape g h) : SameShape f h :=
  ⟨hh.width.trans hg.width, hh.size.trans hg.size, hh.allocatable.trans hg.allocatable,
    hh.volatile.trans hg.volatile⟩

theorem SameShape.index (hg : SameShape f g) (r : Register) : g.index r = f.index r := by
  rw [RegisterFile.index, RegisterFile.index, hg.width]

theorem SameShape.inRange (hg : SameShape f g) : g.InRange r ↔ f.InRange r := by
  rw [InRange, InRange, hg.index, hg.width, hg.size]

/-! ## Places -/

theorem InRange.bank_lt (hf : f.WellFormed) (hr : f.InRange r) : r.bank < 4 := by
  by_contra hb
  have h1 : 4 * f.width ≤ r.bank * f.width := Nat.mul_le_mul_right _ (by omega)
  have h2 := hr.2
  have h3 := hf.size_le
  unfold RegisterFile.index at h2
  omega

theorem InRange.isStorable (hf : f.WellFormed) (hr : f.InRange r) : r.isStorable = true :=
  RegisterSet.isStorable_iff.mpr ⟨hr.bank_lt hf, Nat.lt_of_lt_of_le hr.1 hf.width_le⟩

theorem registerAt_index (hr : f.InRange r) : f.registerAt (f.index r) = r := by
  have hw : 0 < f.width := by have := hr.1; omega
  obtain ⟨b, i⟩ := r
  have hi : i < f.width := hr.1
  simp only [registerAt, RegisterFile.index, Register.mk.injEq]
  rw [Nat.mul_comm, Nat.mul_add_div hw, Nat.mul_add_mod, Nat.mod_eq_of_lt hi,
    Nat.div_eq_of_lt hi]
  simp

theorem index_registerAt (i : Nat) : f.index (f.registerAt i) = i := by
  simp only [registerAt, RegisterFile.index]
  exact Nat.div_add_mod' i f.width

theorem inRange_registerAt (hf : f.WellFormed) {i : Nat} (hi : i < f.size) :
    f.InRange (f.registerAt i) := by
  have hw : 0 < f.width := by have := hf.size_le; omega
  exact ⟨Nat.mod_lt _ hw, by rwa [index_registerAt]⟩

theorem index_inj (hr : f.InRange r) (hq : f.InRange q) : f.index q = f.index r ↔ q = r := by
  constructor
  · intro h
    rw [← registerAt_index hq, h, registerAt_index hr]
  · rintro rfl
    rfl

theorem owner?_eq (hr : f.InRange r) : f.owner? r = f.owners.getD (f.index r) none :=
  if_pos hr.2

theorem getD_setIfInBounds {α : Type} {xs : Array α} {i : Nat} (hi : i < xs.size) (j : Nat)
    (a d : α) : (xs.setIfInBounds i a).getD j d = if j = i then a else xs.getD j d := by
  rw [Array.getD_eq_getD_getElem?, Array.getD_eq_getD_getElem?, Array.getElem?_setIfInBounds]
  by_cases h : j = i
  · subst h
    simp [hi]
  · simp [h, Ne.symm h]

theorem owner_set (hf : f.WellFormed) (hr : f.InRange r) (hq : f.InRange q) (o : Option ValueId) :
    (f.owners.setIfInBounds (f.index r) o).getD (f.index q) none =
      if q = r then o else f.owner? q := by
  rw [getD_setIfInBounds (by rw [hf.owners_size]; exact hr.2), owner?_eq hq]
  simp only [index_inj hr hq]

theorem lockCount_set (hf : f.WellFormed) (hr : f.InRange r) (hq : f.InRange q) (n : Nat) :
    (f.locks.setIfInBounds (f.index r) n).getD (f.index q) 0 =
      if q = r then n else f.lockCount q := by
  rw [getD_setIfInBounds (by rw [hf.locks_size]; exact hr.2)]
  simp only [index_inj hr hq]
  rfl

/-! ## Owners and locks -/

theorem WellFormed.inRange_of_used (hf : f.WellFormed) (hr : f.used.contains r = true) :
    f.InRange r := ((hf.used_iff r).mp hr).1

theorem WellFormed.used_of_owner (hf : f.WellFormed) (hr : f.InRange r)
    (hv : f.owner? r = some v) : f.used.contains r = true := (hf.used_iff r).mpr ⟨hr, v, hv⟩

theorem WellFormed.owner?_eq_none (hf : f.WellFormed) (hr : f.InRange r)
    (hu : f.used.contains r = false) : f.owner? r = none := by
  cases hv : f.owner? r with
  | none => rfl
  | some v => simp [hf.used_of_owner hr hv] at hu

theorem assign_spec (hf : f.WellFormed) (hr : f.InRange r) (v : ValueId) :
    ∃ g, f.assign r v = .ok g ∧ g.WellFormed ∧ SameShape f g ∧
      (∀ q, f.InRange q → g.owner? q = if q = r then some v else f.owner? q) ∧
      (∀ q, g.lockCount q = f.lockCount q) := by
  refine ⟨_, if_neg (Nat.not_le.mpr hr.2), ?_, ⟨rfl, rfl, rfl, rfl⟩,
    fun q hq => (if_pos hq.2).trans (owner_set hf hr hq _), fun _ => rfl⟩
  refine ⟨hf.width_le, hf.size_le, by simpa using hf.owners_size, hf.locks_size, fun q => ?_,
    hf.locked_iff, fun q hq => ?_, hf.clock_lt⟩
  · change (f.used.insert r).contains q = true ↔ f.InRange q ∧ ∃ w, (if f.index q < f.size
      then (f.owners.setIfInBounds (f.index r) (some v)).getD (f.index q) none
      else none) = some w
    rw [RegisterSet.contains_insert, hr.isStorable hf]
    constructor
    · intro h
      by_cases hqr : q = r
      · subst hqr
        exact ⟨hr, v, by rw [if_pos hr.2, owner_set hf hr hr, if_pos rfl]⟩
      · obtain ⟨hq, w, hw⟩ := (hf.used_iff q).mp (by simpa [hqr] using h)
        exact ⟨hq, w, by rw [if_pos hq.2, owner_set hf hr hq, if_neg hqr, hw]⟩
    · rintro ⟨hq, w, hw⟩
      rw [if_pos hq.2, owner_set hf hr hq] at hw
      by_cases hqr : q = r
      · simp [hqr]
      · rw [if_neg hqr] at hw
        simp [hf.used_of_owner hq hw]
  · change (f.used.insert r).contains q = true
    rw [RegisterSet.contains_insert, hf.used_of_locked q hq, Bool.true_or]

/-- What taking a register from its owner does. -/
theorem release_spec (hf : f.WellFormed) (hr : f.used.contains r = true) :
    ∃ g, f.release r = .ok g ∧ g.WellFormed ∧ SameShape f g ∧
      (∀ q, f.InRange q → g.owner? q = if q = r then none else f.owner? q) ∧
      (∀ q, f.InRange q → g.lockCount q = if q = r then 0 else f.lockCount q) := by
  have hrange := hf.inRange_of_used hr
  refine ⟨_, (if_neg (Nat.not_le.mpr hrange.2)).trans (if_neg (by simp [hr])), ?_,
    ⟨rfl, rfl, rfl, rfl⟩, fun q hq => (if_pos hq.2).trans (owner_set hf hrange hq _),
    fun q hq => lockCount_set hf hrange hq _⟩
  refine ⟨hf.width_le, hf.size_le, by simpa using hf.owners_size, by simpa using hf.locks_size,
    fun q => ?_, fun q => ?_, fun q hq => ?_, hf.clock_lt⟩
  · change (f.used.erase r).contains q = true ↔ f.InRange q ∧ ∃ w, (if f.index q < f.size
      then (f.owners.setIfInBounds (f.index r) none).getD (f.index q) none else none) = some w
    rw [RegisterSet.contains_erase, Bool.and_eq_true, hf.used_iff, decide_eq_true_iff]
    constructor
    · rintro ⟨⟨hq, w, hw⟩, hqr⟩
      exact ⟨hq, w, by rw [if_pos hq.2, owner_set hf hrange hq, if_neg hqr, hw]⟩
    · rintro ⟨hq, w, hw⟩
      rw [if_pos hq.2, owner_set hf hrange hq] at hw
      by_cases hqr : q = r
      · simp [hqr] at hw
      · exact ⟨⟨hq, w, by rwa [if_neg hqr] at hw⟩, hqr⟩
  · change (f.locked.erase r).contains q = true ↔ f.InRange q ∧
      0 < (f.locks.setIfInBounds (f.index r) 0).getD (f.index q) 0
    rw [RegisterSet.contains_erase, Bool.and_eq_true, hf.locked_iff, decide_eq_true_iff]
    constructor
    · rintro ⟨⟨hq, h⟩, hqr⟩
      exact ⟨hq, by rwa [lockCount_set hf hrange hq, if_neg hqr]⟩
    · rintro ⟨hq, h⟩
      rw [lockCount_set hf hrange hq] at h
      by_cases hqr : q = r
      · simp [hqr] at h
      · exact ⟨⟨hq, by rwa [if_neg hqr] at h⟩, hqr⟩
  · change (f.locked.erase r).contains q = true at hq
    change (f.used.erase r).contains q = true
    rw [RegisterSet.contains_erase, Bool.and_eq_true] at hq ⊢
    exact ⟨hf.used_of_locked q hq.1, hq.2⟩

/-- What locking a register does. -/
theorem lock_spec (hf : f.WellFormed) (hr : f.used.contains r = true)
    (hc : f.lockCount r < 255) :
    ∃ g, f.lock r = .ok g ∧ g.WellFormed ∧ SameShape f g ∧ g.owner? = f.owner? ∧
      g.used = f.used ∧
      (∀ q, f.InRange q → g.lockCount q = f.lockCount q + if q = r then 1 else 0) := by
  have hrange := hf.inRange_of_used hr
  have count (q : Register) (hq : f.InRange q) :
      (f.locks.setIfInBounds (f.index r) (f.lockCount r + 1)).getD (f.index q) 0 =
        f.lockCount q + if q = r then 1 else 0 := by
    rw [lockCount_set hf hrange hq]
    by_cases hqr : q = r <;> simp [hqr]
  refine ⟨_, (if_neg (Nat.not_le.mpr hrange.2)).trans ((if_neg (by simp [hr])).trans
    (if_neg (Nat.not_le.mpr hc))), ?_, ⟨rfl, rfl, rfl, rfl⟩, rfl, rfl, count⟩
  refine ⟨hf.width_le, hf.size_le, hf.owners_size, by simpa using hf.locks_size, hf.used_iff,
    fun q => ?_, fun q hq => ?_, hf.clock_lt⟩
  · change (f.locked.insert r).contains q = true ↔ f.InRange q ∧
      0 < (f.locks.setIfInBounds (f.index r) (f.lockCount r + 1)).getD (f.index q) 0
    rw [RegisterSet.contains_insert, hrange.isStorable hf]
    by_cases hqr : q = r
    · subst hqr
      simp only [decide_true, Bool.and_true, Bool.or_true, true_iff]
      exact ⟨hrange, by rw [count q hrange]; simp⟩
    · simp only [hqr, decide_false, Bool.false_and, Bool.or_false, hf.locked_iff]
      refine and_congr_right fun hq => ?_
      rw [count q hq, if_neg hqr, Nat.add_zero]
  · change (f.locked.insert r).contains q = true at hq
    rw [RegisterSet.contains_insert, Bool.or_eq_true] at hq
    rcases hq with hq | hq
    · exact hf.used_of_locked q hq
    · rw [Bool.and_eq_true, decide_eq_true_iff] at hq
      rwa [hq.1]

/-- What taking back one lock does. -/
theorem unlock_spec (hf : f.WellFormed) (hr : f.InRange r) {n : Nat} (hc : f.lockCount r = n + 1) :
    ∃ g, f.unlock r = .ok g ∧ g.WellFormed ∧ SameShape f g ∧ g.owner? = f.owner? ∧
      g.used = f.used ∧
      (∀ q, f.InRange q → g.lockCount q = if q = r then n else f.lockCount q) := by
  have count (q : Register) (hq : f.InRange q) :
      (f.locks.setIfInBounds (f.index r) n).getD (f.index q) 0 =
        if q = r then n else f.lockCount q := lockCount_set hf hr hq n
  have hunlock : f.unlock r = .ok { f with
      locks := f.locks.setIfInBounds (f.index r) n
      locked := if n = 0 then f.locked.erase r else f.locked } := by
    unfold lockCount at hc
    rw [unlock, if_neg (Nat.not_le.mpr hr.2), hc]
  have hlocked (q : Register) : (if n = 0 then f.locked.erase r else f.locked).contains q = true →
      f.locked.contains q = true := by
    split
    · rw [RegisterSet.contains_erase, Bool.and_eq_true]
      exact And.left
    · exact id
  refine ⟨_, hunlock, ?_, ⟨rfl, rfl, rfl, rfl⟩, rfl, rfl, count⟩
  refine ⟨hf.width_le, hf.size_le, hf.owners_size, by simpa using hf.locks_size, hf.used_iff,
    fun q => ?_, fun q hq => hf.used_of_locked q (hlocked q hq), hf.clock_lt⟩
  change (if n = 0 then f.locked.erase r else f.locked).contains q = true ↔
    f.InRange q ∧ 0 < (f.locks.setIfInBounds (f.index r) n).getD (f.index q) 0
  by_cases hqr : q = r
  · subst hqr
    rw [count q hr, if_pos rfl]
    split
    next hn => simp [hn]
    next hn =>
      have hpos : 0 < n := Nat.pos_of_ne_zero hn
      have hl : f.locked.contains q = true := (hf.locked_iff q).mpr ⟨hr, by omega⟩
      simp [hl, hr, hpos]
  · have hsame : (if n = 0 then f.locked.erase r else f.locked).contains q =
        f.locked.contains q := by
      split
      · rw [RegisterSet.contains_erase_of_ne hqr]
      · rfl
    rw [hsame, hf.locked_iff]
    exact and_congr_right fun hq => by rw [count q hq, if_neg hqr]

theorem WellFormed.unused_of_owner (hf : f.WellFormed)
    (hv : f.owner? r = none) : f.used.contains r = false := by
  rw [Bool.eq_false_iff, ne_eq, hf.used_iff]
  rintro ⟨-, w, hw⟩
  simp [hv] at hw

theorem locked_congr (hf : f.WellFormed) (hg : g.WellFormed) (hs : SameShape f g)
    (hc : ∀ q, f.InRange q → g.lockCount q = f.lockCount q) (q : Register) :
    g.locked.contains q = f.locked.contains q := by
  rw [Bool.eq_iff_iff, hg.locked_iff, hf.locked_iff, hs.inRange]
  exact and_congr_right fun hq => by rw [hc q hq]

/-- A register that is not locked has no locks to lose. -/
theorem release_unlocked_spec (hf : f.WellFormed) (hr : f.used.contains r = true)
    (hl : f.locked.contains r = false) :
    ∃ g, f.release r = .ok g ∧ g.WellFormed ∧ SameShape f g ∧
      (∀ q, f.InRange q → g.owner? q = if q = r then none else f.owner? q) ∧
      (∀ q, f.InRange q → g.lockCount q = f.lockCount q) := by
  obtain ⟨g, hg, hgw, hgs, ho, hc⟩ := release_spec hf hr
  refine ⟨g, hg, hgw, hgs, ho, fun q hq => ?_⟩
  rw [hc q hq]
  by_cases hqr : q = r
  · have : ¬ 0 < f.lockCount r := fun hpos => by
      simp [(hf.locked_iff r).mpr ⟨hf.inRange_of_used hr, hpos⟩] at hl
    rw [if_pos hqr, hqr]
    omega
  · rw [if_neg hqr]

theorem lockCount_unlockAll : f.unlockAll.lockCount q = 0 := by
  simp only [lockCount, unlockAll, Array.getD_eq_getD_getElem?, Array.getElem?_replicate]
  split <;> rfl

theorem unlockAll_spec (hf : f.WellFormed) :
    f.unlockAll.WellFormed ∧ SameShape f f.unlockAll ∧ f.unlockAll.owner? = f.owner? ∧
      ∀ q, f.unlockAll.lockCount q = 0 := by
  refine ⟨⟨hf.width_le, hf.size_le, hf.owners_size, by simp [unlockAll], hf.used_iff, fun q => ?_,
    fun q hq => ?_, hf.clock_lt⟩, ⟨rfl, rfl, rfl, rfl⟩, rfl, fun _ => lockCount_unlockAll⟩
  · rw [lockCount_unlockAll]
    simp [unlockAll]
  · simp [unlockAll] at hq

/-- What a snapshot brings back: its owners. The locks are gone. -/
theorem restore_spec (hf : f.WellFormed) {o : Occupancy} (hsize : o.owners.size = f.size)
    (hused : ∀ r, o.used.contains r = true ↔
      f.InRange r ∧ ∃ v, o.owners.getD (f.index r) none = some v) :
    (f.restore o).WellFormed ∧ SameShape f (f.restore o) ∧
      (∀ q, f.InRange q → (f.restore o).owner? q = o.owners.getD (f.index q) none) ∧
      ∀ q, (f.restore o).lockCount q = 0 := by
  have owner (q : Register) (hq : f.InRange q) :
      (f.restore o).owner? q = o.owners.getD (f.index q) none := if_pos hq.2
  have count (q : Register) : (f.restore o).lockCount q = 0 := lockCount_unlockAll
  refine ⟨⟨hf.width_le, hf.size_le, hsize, by simp [restore, unlockAll], fun q => ?_, fun q => ?_,
    fun q hq => ?_, hf.clock_lt⟩, ⟨rfl, rfl, rfl, rfl⟩, owner, count⟩
  · refine (hused q).trans (and_congr_right fun hq => ?_)
    rw [owner q hq]
  · rw [count]
    simp [restore, unlockAll]
  · simp [restore, unlockAll] at hq

/-! ## Refusals -/

theorem release_unused (hr : f.InRange r) (hu : f.used.contains r = false) :
    f.release r = .error .notAllocated :=
  (if_neg (Nat.not_le.mpr hr.2)).trans (if_pos (by simp [hu]))

theorem lock_unused (hr : f.InRange r) (hu : f.used.contains r = false) :
    f.lock r = .error .notAllocated :=
  (if_neg (Nat.not_le.mpr hr.2)).trans (if_pos (by simp [hu]))

theorem unlock_unlocked (hr : f.InRange r) (hc : f.lockCount r = 0) :
    f.unlock r = .error .lockUnderflow := by
  unfold lockCount at hc
  rw [unlock, if_neg (Nat.not_le.mpr hr.2), hc]

/-! ## Written registers -/

theorem clobbered_assign (h : f.assign r v = .ok g) : g.clobbered = f.clobbered.insert r := by
  unfold assign at h
  split at h <;> cases h
  rfl

theorem clobbered_release (h : f.release r = .ok g) : g.clobbered = f.clobbered := by
  unfold release at h
  split at h
  · cases h
  · split at h <;> cases h
    rfl

theorem clobbered_lock (h : f.lock r = .ok g) : g.clobbered = f.clobbered := by
  unfold lock at h
  split at h
  · cases h
  · split at h
    · cases h
    · dsimp only at h
      split at h <;> cases h
      rfl

theorem clobbered_unlock (h : f.unlock r = .ok g) : g.clobbered = f.clobbered := by
  unfold unlock at h
  split at h
  · cases h
  · split at h <;> cases h
    rfl

/-! ## Empty files -/

theorem owner?_reset : f.reset.owner? q = none := by
  simp [owner?, reset, Array.getD]

theorem lockCount_reset : f.reset.lockCount q = 0 := by
  simp [lockCount, reset, Array.getD]

theorem reset_wellFormed (hw : f.width ≤ 64) (hs : f.size ≤ 4 * f.width) : f.reset.WellFormed where
  width_le := hw
  size_le := hs
  owners_size := Array.size_replicate
  locks_size := Array.size_replicate
  used_iff q := by
    rw [owner?_reset]
    simp [reset]
  locked_iff q := by
    rw [lockCount_reset]
    simp [reset]
  used_of_locked q hq := by simp [reset] at hq
  clock_lt hpos b hb := by simpa [reset, Vector.getD, hb] using hpos

section

variable {width banks : Nat} {allocatable volatile : RegisterSet}

theorem owner?_ofShape : (ofShape width banks allocatable volatile).owner? q = none :=
  owner?_reset (f := ofShape width banks allocatable volatile)

theorem wellFormed_ofShape (hw : width ≤ 64) (hb : banks ≤ 4) :
    (ofShape width banks allocatable volatile).WellFormed :=
  reset_wellFormed (f := ofShape width banks allocatable volatile) hw
    (Nat.mul_comm 4 width ▸ Nat.mul_le_mul_left width hb)

end

/-! ## Free registers -/

/-- The free registers of a class: allocatable, unused, not excluded. -/
def IsFree (f : RegisterFile) (volatile : Bool) (ex : RegisterSet) (r : Register) : Prop :=
  r.id < f.width ∧ f.allocatable.contains r = true ∧ f.volatile.contains r = volatile ∧
    f.used.contains r = false ∧ ex.contains r = false

theorem freeOfClass?_spec (hw : f.width ≤ 64) {b : Nat} (hb : b < 4) (volatile : Bool)
    (ex : RegisterSet) :
    ∃ found, f.freeOfClass? b volatile ex = some found ∧
      (∀ r, found = some r → r.bank = b ∧ f.IsFree volatile ex r ∧
        ∀ i < r.id, ¬ f.IsFree volatile ex ⟨b, i⟩) ∧
      (found = none → ∀ i, ¬ f.IsFree volatile ex ⟨b, i⟩) := by
  obtain ⟨whole, hwhole⟩ : ∃ w, RegisterSet.firstOfBank? b f.width = some w :=
    ⟨_, if_pos hb⟩
  have free_iff (i : Nat) : f.IsFree volatile ex ⟨b, i⟩ ↔
      (if volatile then (f.allocatable.inter whole).inter f.volatile
        else (f.allocatable.inter whole).diff f.volatile).contains ⟨b, i⟩ = true ∧
      (f.used.union ex).contains ⟨b, i⟩ = false := by
    have storable (hi : i < f.width) : (Register.mk b i).isStorable = true :=
      RegisterSet.isStorable_iff.mpr ⟨hb, Nat.lt_of_lt_of_le hi hw⟩
    unfold IsFree
    cases volatile
    all_goals
      simp only [Bool.false_eq_true, if_false, if_true, RegisterSet.contains_inter,
        RegisterSet.contains_diff, RegisterSet.contains_union,
        RegisterSet.contains_firstOfBank hwhole, Bool.and_eq_true, Bool.or_eq_false_iff,
        decide_eq_true_iff, Bool.not_eq_true']
      constructor
      · rintro ⟨hi, ha, hv, hu, he⟩
        exact ⟨⟨⟨ha, ⟨storable hi, trivial⟩, hi⟩, hv⟩, hu, he⟩
      · rintro ⟨⟨⟨ha, -, hi⟩, hv⟩, hu, he⟩
        exact ⟨hi, ha, hv, hu, he⟩
  refine ⟨_, by rw [freeOfClass?, hwhole]; rfl, fun r hr => ?_, fun hnone i hi => ?_⟩
  · obtain ⟨i, hi, rfl⟩ := Option.map_eq_some_iff.mp hr
    obtain ⟨hmem, hleast⟩ := RegisterSet.first?_eq_some_iff.mp hi
    refine ⟨rfl, (free_iff i).mpr hmem, fun j hj hfree => ?_⟩
    obtain ⟨h1, h2⟩ := (free_iff j).mp hfree
    simp [hleast j hj h1] at h2
  · have h := RegisterSet.first?_eq_none_iff.mp (Option.map_eq_none_iff.mp hnone) i
    obtain ⟨h1, h2⟩ := (free_iff i).mp hi
    simp [h h1] at h2

/-- **A search finds the lowest free register of a class**, a volatile one if there is one, or there
is none. -/
theorem free?_spec (hw : f.width ≤ 64) {b : Nat} (hb : b < 4) (ex : RegisterSet) :
    ∃ found, f.free? b ex = some found ∧
      (∀ r, found = some r → r.bank = b ∧ f.IsFree (f.volatile.contains r) ex r ∧
        (∀ i < r.id, ¬ f.IsFree (f.volatile.contains r) ex ⟨b, i⟩) ∧
        (f.volatile.contains r = false → ∀ i, ¬ f.IsFree true ex ⟨b, i⟩)) ∧
      (found = none → ∀ volatile i, ¬ f.IsFree volatile ex ⟨b, i⟩) := by
  obtain ⟨first, hfirst, hsome, hnone⟩ := freeOfClass?_spec (f := f) hw hb true ex
  obtain ⟨second, hsecond, hsome', hnone'⟩ := freeOfClass?_spec (f := f) hw hb false ex
  cases first with
  | some r =>
    refine ⟨some r, by rw [free?, hfirst], fun q hq => ?_, fun h => by simp at h⟩
    obtain rfl := Option.some.inj hq
    obtain ⟨hbank, hfree, hleast⟩ := hsome r rfl
    rw [hfree.2.2.1]
    exact ⟨hbank, hfree, hleast, fun h => by cases h⟩
  | none =>
    refine ⟨second, by rw [free?, hfirst]; exact hsecond, fun q hq => ?_, fun h volatile i => ?_⟩
    · obtain ⟨hbank, hfree, hleast⟩ := hsome' q hq
      rw [hfree.2.2.1]
      exact ⟨hbank, hfree, hleast, fun _ => hnone rfl⟩
    · cases volatile
      · exact hnone' h i
      · exact hnone rfl i

/-! ## Eviction -/

theorem sweep_clock_lt (hw : 0 < f.width) (b : Nat) (ex : RegisterSet) :
    ∀ n clock, clock < f.width → (f.sweep b ex n clock).2 < f.width
  | 0, _, h => h
  | n + 1, clock, _ => by
    rw [sweep]
    split
    · exact Nat.mod_lt _ hw
    · exact sweep_clock_lt hw b ex n _ (Nat.mod_lt _ hw)

theorem sweep_eq_some {b : Nat} {ex : RegisterSet} :
    ∀ {n clock}, clock < f.width → (f.sweep b ex n clock).1 = some r →
      r.bank = b ∧ r.id < f.width ∧ f.isEvictable ex r = true
  | 0, _, _, h => by simp [sweep] at h
  | n + 1, clock, hc, h => by
    rw [sweep] at h
    split at h
    next hev =>
      obtain rfl := Option.some.inj h
      exact ⟨rfl, hc, hev⟩
    next => exact sweep_eq_some (Nat.mod_lt _ (by omega)) h

theorem sweep_eq_none {b : Nat} {ex : RegisterSet} :
    ∀ {n clock}, (f.sweep b ex n clock).1 = none → clock < f.width →
      ∀ i < n, f.isEvictable ex ⟨b, (clock + i) % f.width⟩ = false
  | 0, _, _, _, i, hi => by omega
  | n + 1, clock, h, hc, i, hi => by
    rw [sweep] at h
    split at h
    · simp at h
    next hev =>
      cases i with
      | zero => simpa [Nat.mod_eq_of_lt hc] using hev
      | succ i =>
        have := sweep_eq_none h (Nat.mod_lt _ (by omega)) i (by omega)
        rwa [Nat.mod_add_mod, Nat.add_assoc, Nat.add_comm 1 i] at this

theorem exists_clock_step {c i n : Nat} (hi : i < n) : ∃ k < n, (c + k) % n = i := by
  have hn : 0 < n := by omega
  refine ⟨(i + (n - c % n)) % n, Nat.mod_lt _ hn, ?_⟩
  have hc : c % n < n := Nat.mod_lt _ hn
  rw [Nat.add_mod_mod, ← Nat.mod_add_mod]
  have : c % n + (i + (n - c % n)) = i + n := by omega
  rw [this, Nat.add_mod_right, Nat.mod_eq_of_lt hi]

theorem evictable?_eq {b : Nat} (hb : b < 4) (ex : RegisterSet) :
    f.evictable? b ex = ((f.sweep b ex f.width (f.clocks.getD b 0)).1,
      { f with
        clocks := f.clocks.setIfInBounds b (f.sweep b ex f.width (f.clocks.getD b 0)).2 }) :=
  if_pos hb

theorem clobbered_evictable? (b : Nat) (ex : RegisterSet) :
    (f.evictable? b ex).2.clobbered = f.clobbered := by
  unfold evictable?
  split <;> rfl

/-- The clock moves, and nothing else. -/
theorem evictable?_keeps (hf : f.WellFormed) (b : Nat) (ex : RegisterSet) :
    (f.evictable? b ex).2.WellFormed ∧ SameShape f (f.evictable? b ex).2 ∧
      (f.evictable? b ex).2.owner? = f.owner? ∧ (f.evictable? b ex).2.used = f.used ∧
      (f.evictable? b ex).2.lockCount = f.lockCount := by
  by_cases hb : b < 4
  · rw [evictable?_eq hb]
    refine ⟨?_, ⟨rfl, rfl, rfl, rfl⟩, rfl, rfl, rfl⟩
    refine ⟨hf.width_le, hf.size_le, hf.owners_size, hf.locks_size, hf.used_iff, hf.locked_iff,
      hf.used_of_locked, fun hw c hc4 => ?_⟩
    change 0 < f.width at hw
    have hclock := sweep_clock_lt hw b ex f.width _ (hf.clock_lt hw b hb)
    by_cases hcb : c = b
    · subst hcb
      simpa [Vector.getD, Array.getD, hc4] using hclock
    · have := hf.clock_lt hw c hc4
      simpa [Vector.getD, Array.getD, hc4, Array.getElem_setIfInBounds, Ne.symm hcb] using this
  · rw [show f.evictable? b ex = (none, f) from if_neg hb]
    exact ⟨hf, .refl f, rfl, rfl, rfl⟩

/-- **If a register of the bank may be evicted, the clock finds one that may.** -/
theorem evictable?_spec (hf : f.WellFormed) {b i : Nat} (hb : b < 4) (hi : i < f.width)
    {ex : RegisterSet} (hev : f.isEvictable ex ⟨b, i⟩ = true) :
    ∃ r g, f.evictable? b ex = (some r, g) ∧ r.bank = b ∧ r.id < f.width ∧
      f.isEvictable ex r = true ∧ g.WellFormed ∧ SameShape f g ∧ g.owner? = f.owner? ∧
      g.used = f.used ∧ g.lockCount = f.lockCount := by
  have hw : 0 < f.width := by omega
  have hc := hf.clock_lt hw b hb
  obtain ⟨hg, hs, ho, hu, hl⟩ := evictable?_keeps hf b ex
  cases hsweep : (f.sweep b ex f.width (f.clocks.getD b 0)).1 with
  | none =>
    obtain ⟨k, hk, hik⟩ := exists_clock_step (c := f.clocks.getD b 0) hi
    have := sweep_eq_none hsweep hc k hk
    rw [hik, hev] at this
    simp at this
  | some r =>
    obtain ⟨hbank, hid, hrev⟩ := sweep_eq_some hc hsweep
    have hfirst : (f.evictable? b ex).1 = some r := by rw [evictable?_eq hb, hsweep]
    exact ⟨r, _, Prod.ext hfirst rfl, hbank, hid, hrev, hg, hs, ho, hu, hl⟩

/-! ## Occupants -/

theorem mem_occupants_iff :
    (r, v) ∈ f.occupants ↔ ∃ i, f.owners[i]? = some (some v) ∧ f.registerAt i = r := by
  simp only [occupants, List.mem_filterMap, Prod.exists, Option.map_eq_some_iff, Prod.mk.injEq,
    List.mem_zipIdx_iff_getElem?, Array.getElem?_toList]
  constructor
  · rintro ⟨o, i, ho, w, rfl, hr, rfl⟩
    exact ⟨i, ho, hr⟩
  · rintro ⟨i, ho, hr⟩
    exact ⟨some v, i, ho, v, rfl, hr, rfl⟩

theorem mem_occupants (hf : f.WellFormed) :
    (r, v) ∈ f.occupants ↔ f.InRange r ∧ f.owner? r = some v := by
  rw [mem_occupants_iff]
  constructor
  · rintro ⟨i, ho, rfl⟩
    have hi : i < f.size := hf.owners_size ▸ (Array.getElem?_eq_some_iff.mp ho).1
    have hr := inRange_registerAt hf hi
    exact ⟨hr, by rw [owner?_eq hr, index_registerAt, Array.getD_eq_getD_getElem?, ho]; rfl⟩
  · rintro ⟨hr, hv⟩
    have hi : f.index r < f.owners.size := hf.owners_size ▸ hr.2
    rw [owner?_eq hr, Array.getD_eq_getD_getElem?, Array.getElem?_eq_getElem hi] at hv
    exact ⟨f.index r, (Array.getElem?_eq_getElem hi).trans (congrArg some hv), registerAt_index hr⟩

theorem mem_occupants_release (h : f.release q = .ok g) (hq : f.registerAt (f.index q) = q)
    (hr : r ≠ q) (hm : (r, v) ∈ f.occupants) : (r, v) ∈ g.occupants ∧ g.width = f.width := by
  unfold release at h
  split at h
  · cases h
  · split at h
    · cases h
    · cases h
      obtain ⟨i, hi, rfl⟩ := mem_occupants_iff.mp hm
      have hne : f.index q ≠ i := fun hi => hr (hi ▸ hq)
      exact ⟨mem_occupants_iff.mpr ⟨i, by rw [Array.getElem?_setIfInBounds_ne hne, hi], rfl⟩, rfl⟩

theorem nodup_occupants : (f.occupants.map Prod.fst).Nodup := by
  have places : f.owners.toList.zipIdx.Pairwise fun a b => a.2 ≠ b.2 := by
    rw [← List.pairwise_map, List.zipIdx_map_snd]
    exact List.nodup_range'
  rw [List.Nodup, List.pairwise_map, occupants, List.pairwise_filterMap]
  refine places.imp ?_
  rintro ⟨o, i⟩ ⟨o', j⟩ hij ⟨r, v⟩ hr ⟨q, w⟩ hq hrq
  simp only [Option.map_eq_some_iff, Prod.mk.injEq] at hr hq hrq
  obtain ⟨-, -, hr, -⟩ := hr
  obtain ⟨-, -, hq, -⟩ := hq
  refine hij ?_
  change i = j
  rw [← index_registerAt (f := f) i, hr, hrq, ← hq, index_registerAt]

end Codegen.RegisterFile
