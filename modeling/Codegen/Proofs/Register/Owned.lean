import Codegen.Proofs.Register.Ledger

/-!
# Files that values of a kind own

Registers are given to values, taken from them and searched in many orders. As long as only values
of a kind get registers, only such values own them, also when the owners of an earlier moment come
back.

* `RegisterFile.OwnedBy`: **a register file of a shape that values of a kind own**;
* `OwnedBy.assign`, `release`, `lock`, `evict`, `restore`, ...: the requests that are served;
* `OwnedBy.inRange_of_evictable?`: what a search for an eviction finds.
-/

namespace Codegen.RegisterFile

variable {f g g' : RegisterFile} {P : ValueId → Prop} {q : Register} {v : ValueId} {b : Nat}
variable {ex : RegisterSet}

/-- **A register file that values of a kind own.** It has the shape of the first file. -/
structure OwnedBy (f : RegisterFile) (P : ValueId → Prop) (g : RegisterFile) : Prop where
  wellFormed : g.WellFormed
  shape : SameShape f g
  owners : ∀ q v, f.InRange q → g.owner? q = some v → P v

/-! ## Requests that are served -/

theorem used_of_release (h : f.release q = .ok g) : f.used.contains q = true := by
  unfold release at h
  split at h
  next => cases h
  next =>
    split at h
    next => cases h
    next hused => simpa using hused

theorem used_of_lock (h : f.lock q = .ok g) :
    f.used.contains q = true ∧ f.lockCount q < 255 := by
  unfold lock at h
  split at h
  next => cases h
  next =>
    split at h
    next => cases h
    next hused =>
      dsimp only at h
      split at h
      next => cases h
      next hroom => exact ⟨by simpa using hused, Nat.not_le.mp hroom⟩

namespace OwnedBy

theorem empty (hf : f.WellFormed) (hnone : ∀ q, f.owner? q = none) : OwnedBy f P f where
  wellFormed := hf
  shape := .refl f
  owners q v _ hv := by
    rw [hnone] at hv
    cases hv

theorem inRange (h : OwnedBy f P g) : g.InRange q ↔ f.InRange q := h.shape.inRange

/-- The same owners in a file that was changed otherwise. -/
theorem congr (h : OwnedBy f P g) (hw : g'.WellFormed) (hs : SameShape g g')
    (ho : g'.owner? = g.owner?) : OwnedBy f P g' :=
  ⟨hw, h.shape.trans hs, fun q v hq hv => h.owners q v hq (ho ▸ hv)⟩

theorem assign (h : OwnedBy f P g) (hq : f.InRange q) (hv : P v) (hg : g.assign q v = .ok g') :
    OwnedBy f P g' := by
  obtain ⟨_, hg', hw, hs, ho, -⟩ := assign_spec h.wellFormed (h.inRange.mpr hq) v
  obtain rfl := Except.ok.inj (hg.symm.trans hg')
  refine ⟨hw, h.shape.trans hs, fun x w hx hw => ?_⟩
  rw [ho x (h.inRange.mpr hx)] at hw
  split at hw
  · exact Option.some.inj hw ▸ hv
  · exact h.owners x w hx hw

theorem release (h : OwnedBy f P g) (hg : g.release q = .ok g') : OwnedBy f P g' := by
  obtain ⟨_, hg', hw, hs, ho, -⟩ := release_spec h.wellFormed (used_of_release hg)
  obtain rfl := Except.ok.inj (hg.symm.trans hg')
  refine ⟨hw, h.shape.trans hs, fun x w hx hw => ?_⟩
  rw [ho x (h.inRange.mpr hx)] at hw
  split at hw
  · cases hw
  · exact h.owners x w hx hw

theorem lock (h : OwnedBy f P g) (hg : g.lock q = .ok g') : OwnedBy f P g' := by
  obtain ⟨hused, hroom⟩ := used_of_lock hg
  obtain ⟨_, hg', hw, hs, ho, -⟩ := lock_spec h.wellFormed hused hroom
  obtain rfl := Except.ok.inj (hg.symm.trans hg')
  exact h.congr hw hs ho

theorem unlockAll (h : OwnedBy f P g) : OwnedBy f P g.unlockAll := by
  obtain ⟨hw, hs, ho, -⟩ := unlockAll_spec h.wellFormed
  exact h.congr hw hs ho

theorem evict (h : OwnedBy f P g) (b : Nat) (ex : RegisterSet) :
    OwnedBy f P (g.evictable? b ex).2 := by
  obtain ⟨hw, hs, ho, -⟩ := evictable?_keeps h.wellFormed b ex
  exact h.congr hw hs ho

theorem restore (h : OwnedBy f P g) (h' : OwnedBy f P g') :
    OwnedBy f P (g.restore g'.occupancy) := by
  obtain ⟨hw, hs, ho, -⟩ := ((h'.wellFormed.pictures h'.shape).congr h.shape).restore h.wellFormed
  refine ⟨hw, h.shape.trans hs, fun x w hx hw => h'.owners x w hx ?_⟩
  rw [← hw, ho x (h.inRange.mpr hx)]

theorem of_mem_occupants (h : OwnedBy f P g) (hm : (q, v) ∈ g.occupants) : P v := by
  obtain ⟨hq, hv⟩ := (mem_occupants h.wellFormed).mp hm
  exact h.owners q v (h.inRange.mp hq) hv

theorem inRange_of_evictable? (h : OwnedBy f P g) (hq : (g.evictable? b ex).1 = some q) :
    f.InRange q := by
  by_cases hb : b < 4
  · rw [evictable?_eq hb] at hq
    have hev : g.isEvictable ex q = true := by
      rcases Nat.eq_zero_or_pos g.width with hw | hw
      · rw [hw, sweep] at hq
        cases hq
      · exact (sweep_eq_some (h.wellFormed.clock_lt hw b hb) hq).2.2
    simp only [isEvictable, Bool.and_eq_true] at hev
    exact h.inRange.mp (h.wellFormed.inRange_of_used hev.1.1.2)
  · rw [show g.evictable? b ex = (none, g) from if_neg hb] at hq
    cases hq

end OwnedBy

end Codegen.RegisterFile
