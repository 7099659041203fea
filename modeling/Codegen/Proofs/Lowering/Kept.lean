import Codegen.Proofs.Lowering.Parts

/-!
# What single steps leave as it is

Only conditions change the tree, and only a loop that begins its rounds changes the table of loops.
All other steps of a lowering leave both as they are.

* `Generating.Kept`: **neither the tree, the symbols nor the loops differ**;
* `Generating.Kept.append`, `bind`, `prepared`, ...: the steps.
-/

namespace Codegen.Generating

variable {r r' r'' : Routine} {u : Unit} {v : VariableId} {x y z : ValueId}
variable {actives : List Binding}

/-- **Neither the tree, the symbols nor the loops differ.** -/
structure Kept (r r' : Routine) : Prop where
  tree : r'.tree = r.tree
  symbols : r'.symbols = r.symbols
  loops : r'.loops = r.loops

namespace Kept

theorem refl (r : Routine) : Kept r r := ⟨rfl, rfl, rfl⟩

theorem trans (h : Kept r r') (h' : Kept r' r'') : Kept r r'' :=
  ⟨h'.tree.trans h.tree, h'.symbols.trans h.symbols, h'.loops.trans h.loops⟩

theorem of_revalued (h : Revalued r r') : Kept r r' := by
  obtain ⟨values, rfl, -⟩ := h
  exact ⟨rfl, rfl, rfl⟩

theorem of_appended {k : InstructionKind} (h : Appended k r x r') : Kept r r' := by
  obtain ⟨values, rfl, -⟩ := h.routine
  exact ⟨rfl, rfl, rfl⟩

theorem append {k : InstructionKind} {f : Format} (h : Takes (append k f) r x r') :
    Kept r r' := of_appended (append_appended h)

theorem marker {k : InstructionKind} {i : Nat} (h : Takes (appendMarker k) r i r') :
    Kept r r' := by
  obtain ⟨-, x, hx⟩ := appendMarker_appended h
  exact of_appended hx

theorem label {l : Label} (h : Takes (appendLabel l) r u r') : Kept r r' := by
  obtain ⟨x, hx⟩ := appendLabel_appended h
  exact of_appended hx

theorem jump {l : Label} {test : Option JumpTest} (h : Takes (appendJump l test) r u r') :
    Kept r r' := by
  obtain ⟨x, hx⟩ := appendJump_appended h
  exact of_appended hx

theorem create {k : Handle} {f : Format} (h : Takes (create k f) r x r') : Kept r r' := by
  obtain ⟨-, rfl⟩ := takes_create.mp h
  exact ⟨rfl, rfl, rfl⟩

theorem bind (h : Takes (bind v x) r u r') : Kept r r' := by
  obtain ⟨r₁, hr, rfl⟩ := bind_revalued h
  exact ⟨(of_revalued hr).tree, (of_revalued hr).symbols, (of_revalued hr).loops⟩

theorem prepared (h : Prepared actives r r') : Kept r r' := by
  induction h with
  | refl => exact .refl r
  | cache _ _ ha ih => exact ih.trans (append ha)
  | keep _ _ ha ih => exact ih.trans (append ha)
  | copy _ _ ha hb ih => exact (ih.trans (append ha)).trans (bind hb)
  | fresh _ hc hb _ ih => exact (ih.trans (create hc)).trans (bind hb)

theorem valueOf (h : Takes (valueOf v) r x r') : Kept r r' := by
  rcases valueOf_cases h with ⟨-, rfl⟩ | h
  · exact .refl r'
  · obtain ⟨r₁, k, h₁, h₂⟩ := takes_bindToSlot h
    exact (create h₁).trans (bind h₂)

theorem combined {o : Operator} (h : Combined o x y r z r') : Kept r r' := by
  cases h with
  | first _ hr => exact hr ▸ .refl r'
  | constant h => exact create h
  | instruction _ h => exact append h

theorem operated {o : Operator} (h : Operated o x y r z r') : Kept r r' :=
  h.elim combined fun h => combined h.2

theorem copied (h : Copied x r y r') : Kept r r' := by
  rcases h with ⟨-, rfl⟩ | ⟨f, h⟩
  · exact .refl r'
  · exact append h

theorem closeSymmetry {symmetry : Nat} (h : Takes (closeSymmetry symmetry actives) r u r') :
    Kept r r' := by
  obtain ⟨i, r₁, h₁, h₂⟩ := closeSymmetry_parts h
  exact takes_forM (fun _ r' => Kept r r') h₂ (marker h₁) fun _ _ _ _ _ _ h ih =>
    ih.trans (bind h)

end Kept

end Codegen.Generating
