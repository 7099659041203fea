import Codegen.Proofs.Lifetime.Covered
import Codegen.Proofs.Register.File
import Codegen.Proofs.Selection.Placing

/-!
# A value that is read keeps its register

The build moves values to registers and slots, which refer to no other value, and back to places
that they had before. So while the instructions are built, an address reaches at most what it
reached when the instruction was appended, and the lifetimes that covered its uses still do. The
registers of such values are not released ahead of the instruction.

* `Routine.Rests`: **what the build keeps of lifetimes and references**;
* `rests_placing`: the changes of values in a build;
* `releaseExpired_keeps`: the register of a value that is needed stays;
* `Routine.UsesCovered`, `Awaits`, `HoldsUses`: **what the lifetimes are good for**;
* `Routine.lifetimes_cover_uses`: **lifetimes cover every use**.
-/

namespace Codegen

/-! ## Lifetimes and references in a build -/

/-- **Lifetimes cover at least what they did, and no place refers to other values than it did**, now
and in all snapshots. -/
structure Routine.Rests (a : Arena) (r : Routine) : Prop where
  grows : a.Grows r.values
  refers : ∀ {v w}, r.values.Refers v w → a.Refers v w
  snapshots : ∀ s ∈ r.snapshots, ∀ {v h}, s.2.handles[v]? = some h → ∀ w ∈ h.inner, a.Refers v w

namespace Generating

variable {a : Arena} {r r' : Routine} {u : Unit}

/-- The changes of values in a build keep it, whatever values and registers there are. -/
theorem rests_placing (a : Arena) :
    Placing (fun _ => True) (fun _ => True) (Routine.Rests a) where
  congr hr _ hv _ hs _ := ⟨hv ▸ hr.grows, fun h => hr.refers (hv ▸ h), hs ▸ hr.snapshots⟩
  handle := handleOf_preserves.mono fun _ _ => ⟨fun _ _ => trivial, fun _ _ => trivial⟩
  occupants _ _ _ := trivial
  entries _ _ _ _ _ := ⟨fun _ _ => trivial, fun _ _ => trivial⟩
  arguments _ _ _ _ _ _ := trivial
  result _ _ := trivial
  free := Ensures.ask.preserves.mono fun _ _ _ _ => trivial
  preserved := Ensures.ask.preserves.mono fun _ _ _ _ => trivial
  evict r q r' hr h := by
    unfold Takes victim at h
    split at h
    · cases h
      exact ⟨⟨hr.grows, hr.refers, hr.snapshots⟩, trivial⟩
    · cases h
  assign _ _ := .changeRegisters fun _ _ hr _ => ⟨hr.grows, hr.refers, hr.snapshots⟩
  release := .changeRegisters fun _ _ hr _ => ⟨hr.grows, hr.refers, hr.snapshots⟩
  protect := .changeRegisters fun _ _ hr _ => ⟨hr.grows, hr.refers, hr.snapshots⟩
  unlockAll hr := ⟨hr.grows, hr.refers, hr.snapshots⟩
  rehome {v h} hh _ := .changeValues fun r values hr hv => by
    refine ⟨hr.grows.trans (Arena.setHandle_grows hr.grows.isSet hv).1, fun {u w} hw => ?_,
      hr.snapshots⟩
    rcases Arena.handleAt_setHandle hv u with hu | hu
    · simp [Arena.Refers, hu, hh] at hw
    · exact hr.refers (by rwa [Arena.Refers, ← hu])
  createBriefly {h f} hh _ := by
    refine .seq (.modifyGet fun r hr => ?_) fun v => .seq Ensures.get.preserves fun _ =>
      .seq (.changeValues fun r values hr hv => ?_) fun _ => .pure trivial
    · obtain ⟨hg, -⟩ := Arena.create_grows hr.grows.isSet h f
      refine ⟨hr.grows.trans hg, fun {v w} hw => ?_, hr.snapshots⟩
      simp only [Arena.Refers, Arena.handleAt_create] at hw
      split at hw
      · simp [hh] at hw
      · exact hr.refers hw
    · have hm := Arena.useAll_marked hr.grows.isSet (Int.natCast_nonneg _) hv
      exact ⟨hr.grows.trans hm.grows, fun {v w} hw => hr.refers (by
        rwa [Arena.Refers, ← hm.handles]), hr.snapshots⟩
  saveSnapshot := .modify fun r hr => by
    refine ⟨hr.grows, hr.refers, List.forall_mem_cons.mpr ⟨fun {v h} hh w hw => ?_, hr.snapshots⟩⟩
    rw [Arena.getElem?_handles, Option.map_eq_some_iff] at hh
    obtain ⟨c, hc, rfl⟩ := hh
    exact hr.refers (by rwa [Arena.Refers, Arena.handleAt_eq hc])
  restoreSnapshot {p} := by
    refine .bind .get fun q hq => .bind .required fun s hs => .modify fun r hr => ?_
    have hs : (p, s) ∈ q.snapshots := by
      obtain ⟨before, after, h, -⟩ := List.lookup_eq_some_iff.mp hs
      simp [h]
    refine ⟨hr.grows.trans (Arena.restoreHandles_grows hr.grows.isSet _ _), fun {v w} hw => ?_,
      hr.snapshots⟩
    rcases Arena.handleAt_restoreHandles s.handles v with hv | hv
    · exact hr.refers (by rwa [Arena.Refers, ← hv])
    · exact hq.snapshots _ hs hv w hw
  recordEntry := by
    refine .seq (Ensures.mapM (R := fun _ => True) fun _ _ => ?_).preserves fun _ => ?_
    · exact .last handleOf_preserves fun _ => id
    · exact .modify fun _ hr => ⟨hr.grows, hr.refers, hr.snapshots⟩

/-! ## Registers that are released -/

variable {q : Register} {v : ValueId}

/-- **The register of a value that is needed is not released.** -/
theorem releaseExpired_keeps (h : Takes releaseExpired r u r')
    (hm : (q, v) ∈ r.registers.occupants) (hq : (r.values.handleAt v).register? = some q)
    (hv : r.values.Covers v r.position) :
    r'.values = r.values ∧ (q, v) ∈ r'.registers.occupants := by
  obtain ⟨s₀, s₁, hget, h⟩ := takes_bind.mp h
  obtain ⟨hs₀, hs₁⟩ := takes_get.mp hget
  rw [hs₀, hs₁] at h
  have hloop := takes_forM (fun _ s => s.values = r.values ∧ s.position = r.position ∧
      s.registers.width = r.registers.width ∧ (q, v) ∈ s.registers.occupants) h
    ⟨rfl, rfl, rfl, hm⟩ ?_
  · exact ⟨hloop.1, hloop.2.2.2⟩
  rintro ⟨x, w⟩ rest s _ s' hxw hstep ⟨hvalues, hposition, hwidth, hmem⟩
  simp only [takes_bind, takes_handleOf, takes_get] at hstep
  obtain ⟨_, s₁, ⟨⟨c, hc, rfl⟩, hs₁⟩, s₂, s₃, ⟨hs₂, hs₃⟩, valid, s₄, hvalid, hstep⟩ := hstep
  obtain ⟨hvalid, hs₄⟩ := takes_ask.mp hvalid
  rw [hs₃, hs₂, hs₁] at hvalid
  rw [hs₄, hs₃, hs₁] at hstep
  split at hstep
  next hfreed =>
    have hxq : q ≠ x := by
      rintro rfl
      -- a register has one occupant, and this one is neither gone nor expired
      have hw : w = v := by
        have := List.inj_on_of_nodup_map RegisterFile.nodup_occupants hxw hm rfl
        exact congrArg Prod.snd this
      subst hw
      obtain ⟨c', hc', hcovers⟩ := hv
      rw [hvalues] at hc hvalid
      obtain rfl := Option.some.inj (hc'.symm.trans hc)
      rw [Arena.isValid, Arena.cell_eq_ok.mpr hc, hposition] at hvalid
      have hvalid : c'.lifetime.covers r.position = valid := Except.ok.inj hvalid
      rw [Arena.handleAt_eq hc] at hq
      simp [hq, ← hvalid, hcovers] at hfreed
    have hx : s.registers.registerAt (s.registers.index x) = x := by
      obtain ⟨i, -, rfl⟩ := RegisterFile.mem_occupants_iff.mp hxw
      have hsame : s.registers.registerAt i = r.registers.registerAt i := by
        rw [RegisterFile.registerAt, RegisterFile.registerAt, hwidth]
      rw [← hsame, RegisterFile.index_registerAt]
    obtain ⟨g, hg, rfl⟩ := takes_changeRegisters.mp hstep
    obtain ⟨hmem, hg⟩ := RegisterFile.mem_occupants_release hg hx hxq hmem
    exact ⟨hvalues, hposition, hg.trans hwidth, hmem⟩
  next =>
    obtain ⟨-, rfl⟩ := takes_pure.mp hstep
    exact ⟨hvalues, hposition, hwidth, hmem⟩

end Generating

/-! ## Every function -/

open Generating

namespace Routine

variable {r r₀ r₁ r₂ r' : Routine} {p : Nat} {i : Instruction} {cs : List Change}

/-- **Each instruction lies in the lifetimes of its result, of its parameters, and of all that their
addresses are computed from.** -/
def UsesCovered (r : Routine) : Prop :=
  ∀ (p : Nat) (i : Instruction), r.instructions[p]? = some i →
    i.parameters = i.kind.parameters ∧ r.values.Covers i.result p ∧
      ∀ q ∈ i.parameters, ∀ v, r.values.Reaches q.value v → r.values.Covers v p

/-- The second routine is what the build makes of the first one until it comes to the instruction at
a position. -/
def Awaits (r : Routine) (p : Nat) (r₁ : Routine) : Prop :=
  ∃ r', Takes ((r.instructions.toList.zipIdx.take p).forM fun (i, position) => buildAt position i)
    { r with built := true } () r' ∧ r₁ = { r' with position := p }

/-- **Ahead of an instruction, no register is released that holds one of its parameters or a value
that their addresses are computed from.** -/
def HoldsUses (r : Routine) : Prop :=
  ∀ (p : Nat) (i : Instruction), r.instructions[p]? = some i → ∀ r₁, r.Awaits p r₁ →
    ∀ r₂, Takes releaseExpired r₁ () r₂ → ∀ q ∈ i.kind.parameters, ∀ v,
      r₁.values.Reaches q.value v → ∀ x, (r₁.values.handleAt v).register? = some x →
        (x, v) ∈ r₁.registers.occupants →
          r₂.values = r₁.values ∧ (x, v) ∈ r₂.registers.occupants

theorem exists_awaits (h : Takes build r () r') (hi : r.instructions[p]? = some i) :
    ∃ r₁ r₂, r.Awaits p r₁ ∧ Takes releaseExpired r₁ () r₂ := by
  obtain ⟨s, s', hget, h⟩ := takes_bind.mp h
  obtain ⟨hs, hs'⟩ := takes_get.mp hget
  rw [hs, hs'] at h
  split at h
  · obtain ⟨_, _, hrefuse, -⟩ := takes_bind.mp h
    exact absurd hrefuse not_takes_refuse
  obtain ⟨_, r₁, hset, h⟩ := takes_bind.mp h
  obtain rfl : { r with built := true } = r₁ := by cases hset; rfl
  rw [← List.take_append_drop p r.instructions.toList.zipIdx, List.forM_eq_forM,
    List.forM_append] at h
  obtain ⟨_, r₂, hbefore, h⟩ := takes_bind.mp h
  have hdrop : r.instructions.toList.zipIdx.drop p =
      (i, p) :: r.instructions.toList.zipIdx.drop (p + 1) := by
    refine List.drop_eq_getElem?_toList_append.trans ?_
    simp [hi]
  rw [hdrop, List.forM_cons] at h
  obtain ⟨_, r₃, hat, -⟩ := takes_bind.mp h
  obtain ⟨_, r₄, hposition, hat⟩ := takes_bind.mp hat
  obtain rfl := takes_modify.mp hposition
  obtain ⟨_, r₅, hrelease, -⟩ := takes_bind.mp hat
  exact ⟨_, r₅, ⟨r₂, hbefore, rfl⟩, hrelease⟩

namespace Covered

theorem usesCovered (hr : r.Covered) : r.UsesCovered := fun _ _ hi =>
  ⟨hr.parameters _ (Array.mem_of_getElem? hi), hr.result hi, fun q hq _ => hr.reached hi q hq⟩

/-- **The build keeps what uses rely on.** -/
theorem rests (hr : r.Covered) (h : r.Awaits p r₁) :
    r₁.Rests r.values ∧ r₁.position = p := by
  obtain ⟨r', h, rfl⟩ := h
  have hplacing := rests_placing r.values
  have hstart : Rests r.values { r with built := true } :=
    ⟨.refl hr.isSet, id, by simp [hr.snapshots]⟩
  obtain ⟨hbuilt, -⟩ := (Ensures.forM fun _ _ =>
    hplacing.buildAt_preserves ⟨fun _ _ => trivial, fun _ => trivial⟩) _ _ _ hstart h
  exact ⟨hplacing.congr hbuilt rfl rfl rfl rfl rfl, rfl⟩

theorem holdsUses (hr : r.Covered) : r.HoldsUses := by
  intro p i hi r₁ h₁ r₂ h₂ q hq v hv x hx hm
  obtain ⟨hrests, hposition⟩ := hr.rests h₁
  have hcovers := hr.reached hi q (hr.parameters _ (Array.mem_of_getElem? hi) ▸ hq)
    (hv.mono fun _ _ => hrests.refers)
  exact releaseExpired_keeps h₂ hm hx (hposition ▸ hrests.grows.covers v p hcovers)

end Covered

theorem covered_of_start {tree : Tree} {symbols : SymbolTable} {function : FunctionId}
    {config : Config} (h : start tree symbols function config = .ok r₀) :
    r₀.Covered ∧ r₀.values.size = 0 ∧ r₀.kinds = [] := by
  simp only [start, Arena.bind_eq_ok, Arena.pure_eq_ok] at h
  obtain ⟨symbol, -, rfl⟩ := h
  exact ⟨⟨rfl, .empty, Arena.isSet_empty, by simp, by simp, by simp, by simp⟩, rfl, rfl⟩

/-- Along a sequence of changes lifetimes only grow. -/
theorem Covered.exists_between (hr : r₀.Covered) (hc : Fitting r₀.values.size cs)
    (h : Takes (cs.forM perform) r₀ () r) {before now after : List Change}
    (hcs : cs = before ++ now ++ after) :
    ∃ r₁ r₂, Takes (before.forM perform) r₀ () r₁ ∧ Takes (now.forM perform) r₁ () r₂ ∧
      Takes (after.forM perform) r₂ () r ∧ r₁.values.Grows r₂.values := by
  subst hcs
  obtain ⟨hc, hafter⟩ := fitting_append.mp hc
  obtain ⟨hbefore, hnow⟩ := fitting_append.mp hc
  obtain ⟨r₁, h₁, hr₁, -, hn₁, -⟩ := hr.exists_performs hbefore
  obtain ⟨r₂, h₂, -, hg₂, -, -⟩ := hr₁.exists_performs (hn₁ ▸ hnow)
  rw [List.forM_eq_forM, List.forM_append, List.forM_append] at h
  obtain ⟨_, s₂, hs, h⟩ := takes_bind.mp h
  obtain ⟨_, s₁, hs₁, hs₂⟩ := takes_bind.mp hs
  obtain rfl : s₁ = r₁ := by
    cases (hs₁ : _ = _).symm.trans h₁
    rfl
  obtain rfl : s₂ = r₂ := by
    cases (hs₂ : _ = _).symm.trans h₂
    rfl
  exact ⟨s₁, s₂, h₁, h₂, h, hg₂⟩

/-- **Lifetimes cover every use.** Whatever instructions are appended to a function, as long as they
use values that are there: each use comes to an end, lifetimes only grow, and in the end each
instruction lies in the lifetimes of all that it uses, directly or through addresses. So the build
releases no register of a value that the next instruction reads. -/
theorem lifetimes_cover_uses {tree : Tree} {symbols : SymbolTable} {function : FunctionId}
    {config : Config} (h₀ : start tree symbols function config = .ok r₀) (hc : Fitting 0 cs) :
    ∃ r, Takes (cs.forM perform) r₀ () r ∧ r.kinds = cs.filterMap Change.kind? ∧
      r.UsesCovered ∧ r.HoldsUses ∧
      ∀ before now after, cs = before ++ now ++ after → ∃ r₁ r₂,
        Takes (before.forM perform) r₀ () r₁ ∧ Takes (now.forM perform) r₁ () r₂ ∧
          Takes (after.forM perform) r₂ () r ∧ r₁.values.Grows r₂.values := by
  obtain ⟨hr₀, hsize, hkinds⟩ := covered_of_start h₀
  rw [← hsize] at hc
  obtain ⟨r, h, hr, -, -, hk⟩ := hr₀.exists_performs hc
  refine ⟨r, h, by rw [hk, hkinds, List.nil_append], hr.usesCovered, hr.holdsUses, ?_⟩
  intro before now after hcs
  exact hr₀.exists_between hc h hcs

/-- A word of an array is loaded, another one is stored, and both are compared. -/
def indexing : List Change :=
  [.parameter 0 .i64, .parameter 1 .i64, .constant (.integer 8) .i64,
    .append (.bindParameters [0, 1]) .i64,
    .append (.addition 1 2) .i64,
    .append (.getMemoryAddress 0 4 8) .i64,
    .append (.getVariable 2 5) .i64, .bind 2 6,
    .append (.getObjectPointer 6 16) .i64,
    .slot 3 .i64,
    .append (.move 7 8) .i64,
    .append (.compare 9 6) .i64]

/-- Symbols with one function. -/
def oneFunction : SymbolTable := { SymbolTable.start with functions := #[default] }

theorem indexing_refers :
    ((start .empty oneFunction 0 ⟨.x64, false, false⟩).toOption.any fun r₀ =>
      match indexing.forM perform r₀ with
      | .ok () r => decide (6 ∈ (r.values.handleAt 9).inner ∧ 4 ∈ (r.values.handleAt 6).inner)
      | .error .. => false) = true := by
  decide +kernel

/-- The last comparison reads through two addresses, of which a read and a store passed on one each,
and the sum that the index is lives until then. -/
theorem lifetimes_cover_uses_indexing : ∃ r₀ r,
    start .empty oneFunction 0 ⟨.x64, false, false⟩ = .ok r₀ ∧ Fitting 0 indexing ∧
      Takes (indexing.forM perform) r₀ () r ∧ r.UsesCovered ∧ r.HoldsUses ∧
      r.values.Reaches 9 4 ∧ r.values.Covers 4 6 := by
  obtain ⟨r₀, h₀, hrefers⟩ := (Option.any_eq_true _ _).mp indexing_refers
  have h₀ := Arena.ok_of_toOption h₀
  have hfits : Fitting 0 indexing := by decide
  obtain ⟨r, h, hkinds, hcovered, hheld, -⟩ := lifetimes_cover_uses h₀ hfits
  rw [show indexing.forM perform r₀ = .ok () r from h, decide_eq_true_iff] at hrefers
  have hreaches : r.values.Reaches 9 4 := .head hrefers.1 (.single hrefers.2)
  have hlast : r.kinds[6]? = some (.compare 9 6) := by rw [hkinds]; rfl
  obtain ⟨i, hi, hkind⟩ := Option.map_eq_some_iff.mp (List.getElem?_map.symm.trans hlast)
  obtain ⟨hparameters, -, huses⟩ := hcovered 6 i (by rwa [Array.getElem?_toList] at hi)
  refine ⟨r₀, r, h₀, hfits, h, hcovered, hheld, hreaches, huses ⟨9, .read⟩ ?_ 4 hreaches⟩
  rw [hparameters, hkind]
  exact List.mem_cons_self

end Routine

end Codegen
