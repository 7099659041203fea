import Codegen.Proofs.Value.Arena

/-!
# Properties of all handles

The handles in an arena come from the outside: from the creation of values, from those who set
them, and from snapshots. Marking values as needed changes no handle, and a join passes handles
from one cell to others.

* `Arena.AllHandles`: **a property of all handles of an arena**;
* `AllHandles.create`, `setHandle`, `join`, ...: the changes of an arena.
-/

namespace Codegen.Arena

variable {P : Handle → Prop} {a b : Arena} {v w : ValueId} {c : Cell} {f : Cell → Cell}

/-- **All handles of an arena have a property.** -/
def AllHandles (P : Handle → Prop) (a : Arena) : Prop := ∀ v c, a.cell? v = some c → P c.handle

namespace AllHandles

theorem empty : AllHandles P Arena.empty := by
  intro v c h
  simp [cell?, Arena.empty] at h

theorem mem_handles (ha : a.AllHandles P) : ∀ h ∈ a.handles, P h := by
  intro h hh
  obtain ⟨c, hc, rfl⟩ := Array.mem_map.mp hh
  obtain ⟨i, hi⟩ := Array.mem_iff_getElem?.mp hc
  exact ha i c hi

theorem create {h : Handle} {k : Format} (ha : a.AllHandles P) (hh : P h) :
    (a.create h k).2.AllHandles P := by
  intro v c hc
  simp only [Arena.create, cell?, Array.getElem?_push] at hc
  split at hc
  · obtain rfl := Option.some.inj hc
    exact hh
  · exact ha v c hc

theorem update (ha : a.AllHandles P) (h : a.update v f = .ok b)
    (hf : ∀ c, P c.handle → P (f c).handle) : b.AllHandles P := by
  obtain ⟨-, rfl⟩ := update_eq_ok.mp h
  intro w c hc
  rw [cell?_modify, Option.map_eq_some_iff] at hc
  obtain ⟨c', hc', rfl⟩ := hc
  split
  · exact hf c' (ha w c' hc')
  · exact ha w c' hc'

theorem updateAll {vs : List ValueId} (ha : a.AllHandles P) (h : a.updateAll vs f = .ok b)
    (hf : ∀ c, P c.handle → P (f c).handle) : b.AllHandles P :=
  foldlM_keeps (AllHandles P) (fun _ _ _ _ ha h => ha.update h hf) ha h

theorem setHandle {h : Handle} {force : Bool} (ha : a.AllHandles P) (hh : P h)
    (hb : a.setHandle v h force = .ok b) : b.AllHandles P :=
  ha.updateAll hb fun _ _ => hh

theorem setMetadata {m : Metadata} {force : Bool} (ha : a.AllHandles P)
    (hb : a.setMetadata v m force = .ok b) : b.AllHandles P :=
  ha.updateAll hb fun _ => id

theorem setInstruction {i : Nat} (ha : a.AllHandles P) (hb : a.setInstruction v i = .ok b) :
    b.AllHandles P :=
  ha.update hb fun _ => id

theorem useAt {p : Int} (ha : a.AllHandles P) (h : a.useAt v p = .ok b) : b.AllHandles P :=
  useAll_keeps (fun _ _ _ _ ha h => ha.update h fun _ => id) ha h

theorem connectAll {vs ws : List ValueId} {send receive : Bool} (ha : a.AllHandles P)
    (h : a.connectAll vs ws send receive = .ok b) : b.AllHandles P := by
  refine foldlM_keeps (AllHandles P) (fun a b v _ ha h => ?_) ha h
  refine foldlM_keeps (AllHandles P) (fun a b w _ ha h => ?_) ha h
  split at h
  · obtain rfl : a = b := by simpa using h
    exact ha
  · obtain ⟨c, hc, h⟩ := bind_eq_ok.mp h
    exact (ha.update hc fun _ => id).update h fun _ => id

theorem join {mode : JoinMode} (ha : a.AllHandles P) (h : a.join v w mode = .ok b) :
    b.AllHandles P := by
  simp only [Arena.join, bind_eq_ok, cell_eq_ok] at h
  obtain ⟨-, -, -, -, a₁, h₁, c₁, hc₁, a₂, h₂, a₃, h₃, c₂, -, h₄⟩ := h
  have ha₁ := ha.connectAll h₁
  exact ((ha₁.setHandle (ha₁ w c₁ hc₁) h₂).setMetadata h₃).updateAll h₄ fun _ => id

theorem restoreHandles {handles : Array Handle} {keep : ValueId → Bool} (ha : a.AllHandles P)
    (hs : ∀ h ∈ handles, P h) : (a.restoreHandles handles keep).AllHandles P := by
  intro v c hc
  simp only [cell?, Arena.restoreHandles, Array.getElem?_mapIdx, Option.map_eq_some_iff] at hc
  obtain ⟨c', hc', rfl⟩ := hc
  have hv := ha v c' hc'
  split
  next h hh =>
    split
    · exact hv
    · exact hs h (Array.mem_of_getElem? hh)
  next => exact hv

end AllHandles

end Codegen.Arena
