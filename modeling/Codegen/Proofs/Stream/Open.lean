import Codegen.Proofs.Steps
import Mathlib.Data.List.Perm.Subperm

/-!
# Streams of instructions under construction

While a construct is lowered, the stream of instructions is not closed yet: it jumps to labels that
will follow, and regions are open. `Open` says what holds of it in the meantime, given what is
still to come.

* `Routine.defined`, `Routine.targets`: the labels that are defined and jumped to;
* `scopes`: the regions of a stream, bracket by bracket;
* `Surroundings`: what is still to come, and what is known of the stream;
* `Open`: **the invariant of a stream under construction**;
* `Open.append`, `Open.label`, `Open.jump`, ...: what each step of a lowering does to it.
-/

namespace Codegen

namespace InstructionKind

/-- The label that an instruction defines. -/
def label? : InstructionKind → Option Label
  | label l => some l
  | _ => none

/-- The label that an instruction jumps to. -/
def target? : InstructionKind → Option Label
  | jump l _ => some l
  | _ => none

/-- Does the instruction neither define labels nor refer to labels and other instructions? -/
def isPlain : InstructionKind → Bool
  | label _ | jump .. | evacuate | restoreState _ | enterScope _ | mergeScope .. |
    symmetryEnd .. => false
  | _ => true

end InstructionKind

/-! ## Streams -/

/-- The open regions behind an instruction at a position. -/
def scopesBehind (position : Nat) (open? : List Nat) : InstructionKind → Option (List Nat)
  | .enterScope _ => some (position :: open?)
  | .mergeScope enter _ =>
    match open? with
    | top :: rest => if top = enter then some rest else none
    | [] => none
  | _ => some open?

/-- The open regions behind a stream, if each one that is left is the innermost one. -/
def scopes (position : Nat) (open? : List Nat) : List InstructionKind → Option (List Nat)
  | [] => some open?
  | k :: rest => (scopesBehind position open? k).bind fun s => scopes (position + 1) s rest

theorem scopes_append (position : Nat) (open? : List Nat) (ks : List InstructionKind)
    (k : InstructionKind) :
    scopes position open? (ks ++ [k]) =
      (scopes position open? ks).bind fun s => scopesBehind (position + ks.length) s k := by
  induction ks generalizing position open? with
  | nil => simp [scopes]
  | cons k' ks ih =>
    simp only [List.cons_append, scopes, ih, List.length_cons, Option.bind_assoc]
    simp only [show position + 1 + ks.length = position + (ks.length + 1) by omega]

namespace Routine

/-- The labels that are defined. -/
def defined (r : Routine) : List Label := r.kinds.filterMap (·.label?)

/-- The labels that are jumped to. -/
def targets (r : Routine) : List Label := r.kinds.filterMap (·.target?)

end Routine

theorem getElem?_snoc {α : Type} {xs : List α} {x y : α} {i : Nat} :
    (xs ++ [x])[i]? = some y ↔ xs[i]? = some y ∨ i = xs.length ∧ x = y := by
  rw [List.getElem?_append]
  split
  next hi => simp [Nat.ne_of_lt hi]
  next hi =>
    rw [List.getElem?_eq_none (Nat.le_of_not_lt hi), List.getElem?_singleton]
    have : i - xs.length = 0 ↔ i = xs.length := by omega
    simp [this]

theorem Routine.defined_of_kinds {r r' : Routine} {k : InstructionKind}
    (h : r'.kinds = r.kinds ++ [k]) : r'.defined = r.defined ++ k.label?.toList := by
  rw [defined, h, List.filterMap_append, ← defined]
  cases hk : k.label? <;> simp [hk]

/-! ## The invariant -/

/-- What is known of a stream under construction, and what is still to come. -/
structure Surroundings where
  /-- The stream begins with these instructions. -/
  base : List InstructionKind
  /-- Labels that may be jumped to before they are defined. -/
  pending : List Label
  /-- Labels that were made and are not defined yet. -/
  reserved : List Label
  /-- The regions that the stream is in. -/
  scopes : List Nat
  regions : List Region

/-- The stream is closed but for what is still to come, which may be the call that its last
instruction makes place for. -/
structure OpenWith (calling : Bool) (c : Surroundings) (r : Routine) : Prop where
  base : c.base <+: r.kinds
  distinct : (r.defined ++ c.reserved).Nodup
  made : ∀ l ∈ r.defined ++ c.reserved, l < r.labels
  targets : ∀ l ∈ r.targets, l ∈ r.defined ∨ l ∈ c.pending
  saves : ∀ i s : Nat, r.kinds[i]? = some (.restoreState s) → s < i ∧ r.kinds[s]? = some .saveState
  rounds : ∀ (i s : Nat) ps, r.kinds[i]? = some (.symmetryEnd s ps) →
    s < i ∧ ∃ n bs, r.kinds[s]? = some (.symmetryStart n bs)
  calls : ∀ i : Nat, r.kinds[i]? = some .evacuate →
    (∃ symbol xs, r.kinds[i + 1]? = some (.call symbol xs)) ∨
      i + 1 = r.kinds.length ∧ calling = true
  scopes : Codegen.scopes 0 [] r.kinds = some c.scopes
  regions : r.regions = c.regions
  unbuilt : r.operations = []
  loops : ∀ b ∈ r.loops, r.kinds[b.2.symmetry]? = some (.symmetryStart b.1 b.2.actives) ∧
    (b.2.start ∈ r.defined ∨ b.2.start ∈ c.pending) ∧
    (b.2.exit ∈ r.defined ∨ b.2.exit ∈ c.pending)

/-- **The stream is closed but for what is still to come.** -/
abbrev Open : Surroundings → Routine → Prop := OpenWith false

namespace Open

open Generating

variable {c c' : Surroundings} {r r' r'' : Routine} {k : InstructionKind} {x : ValueId} {l : Label}

/-! ## What is known -/

theorem weaken (h : Open c r) (hb : c'.base <+: c.base)
    (hp : ∀ l ∈ c.pending, l ∈ r.defined ∨ l ∈ c'.pending) (hr : c'.reserved.Subperm c.reserved)
    (hs : c'.scopes = c.scopes) (hrs : c'.regions = c.regions) : Open c' r where
  base := hb.trans h.base
  distinct := by
    obtain ⟨ls, hperm, hsub⟩ := (List.subperm_append_left r.defined).mpr hr
    exact hperm.nodup_iff.mp (h.distinct.sublist hsub)
  made l hl := h.made l <| by
    rcases List.mem_append.mp hl with hl | hl
    · exact List.mem_append_left _ hl
    · exact List.mem_append_right _ (hr.subset hl)
  targets l hl := (h.targets l hl).elim .inl (hp l)
  saves := h.saves
  rounds := h.rounds
  calls := h.calls
  scopes := hs ▸ h.scopes
  regions := hrs ▸ h.regions
  unbuilt := h.unbuilt
  loops b hb := by
    obtain ⟨h1, h2, h3⟩ := h.loops b hb
    exact ⟨h1, h2.elim .inl (hp _), h3.elim .inl (hp _)⟩

theorem rebase (h : Open c r) : Open { c with base := r.kinds } r :=
  { h with base := List.prefix_rfl }

theorem known (h : Open c r) {i : Nat} (hk : c.base[i]? = some k) : r.kinds[i]? = some k := by
  obtain ⟨rest, hrest⟩ := h.base
  obtain ⟨hi, -⟩ := List.getElem?_eq_some_iff.mp hk
  rw [← hrest, List.getElem?_append_left hi, hk]

theorem defined_of_base (h : Open c r) (hl : l ∈ c.base.filterMap (·.label?)) : l ∈ r.defined :=
  (h.base.filterMap _).subset hl

theorem congr (h : Open c r) (hk : r'.kinds = r.kinds) (hl : r'.labels = r.labels)
    (hr : r'.regions = r.regions) (hs : r'.loops = r.loops) (ho : r'.operations = r.operations) :
    Open c r' := by
  have hd : r'.defined = r.defined := by rw [Routine.defined, hk, Routine.defined]
  have ht : r'.targets = r.targets := by rw [Routine.targets, hk, Routine.targets]
  constructor
  · exact hk ▸ h.base
  · exact hd ▸ h.distinct
  · rw [hd, hl]
    exact h.made
  · rw [hd, ht]
    exact h.targets
  · exact hk ▸ h.saves
  · exact hk ▸ h.rounds
  · exact hk ▸ h.calls
  · exact hk ▸ h.scopes
  · exact hr ▸ h.regions
  · exact ho ▸ h.unbuilt
  · rw [hs, hk, hd]
    exact h.loops

/-! ## Steps without instructions -/

theorem revalued (h : Open c r) (hr : Revalued r r') : Open c r' := by
  obtain ⟨values, rfl, -⟩ := hr
  exact h.congr rfl rfl rfl rfl rfl

theorem bind {u : Unit} {v : VariableId} (h : Open c r)
    (hb : Takes (Generating.bind v x) r u r') : Open c r' := by
  obtain ⟨r₁, hr, rfl⟩ := bind_revalued hb
  exact (h.revalued hr).congr rfl rfl rfl rfl rfl

theorem create {k : Handle} {f : Format} (h : Open c r)
    (hc : Takes (Generating.create k f) r x r') : Open c r' := by
  obtain ⟨rfl, rfl⟩ := takes_create.mp hc
  exact h.congr rfl rfl rfl rfl rfl

theorem newLabel (h : Open c r) :
    Open { c with reserved := r.labels :: c.reserved } { r with labels := r.labels + 1 } := by
  have hd : ({ r with labels := r.labels + 1 } : Routine).defined = r.defined := rfl
  refine { h with distinct := ?_, made := ?_ }
  · rw [hd, List.perm_middle.nodup_iff, List.nodup_cons]
    exact ⟨fun hm => Nat.lt_irrefl _ (h.made _ hm), h.distinct⟩
  · intro l hl
    rw [hd, List.perm_middle.mem_iff, List.mem_cons] at hl
    rcases hl with rfl | hl
    · exact Nat.lt_succ_self _
    · exact Nat.lt_succ_of_lt (h.made l hl)

theorem withRegions (h : Open c r) (regions : List Region) :
    Open { c with regions } { r with regions } :=
  { h with regions := rfl }

theorem register {b : NodeId × LoopRecord} (h : Open c r)
    (hk : r.kinds[b.2.symmetry]? = some (.symmetryStart b.1 b.2.actives))
    (hs : b.2.start ∈ r.defined ∨ b.2.start ∈ c.pending)
    (he : b.2.exit ∈ r.defined ∨ b.2.exit ∈ c.pending) :
    Open c { r with loops := b :: r.loops } := by
  refine { h with loops := ?_ }
  simp only [List.mem_cons, forall_eq_or_imp]
  exact ⟨⟨hk, hs, he⟩, h.loops⟩

/-! ## Instructions -/

/-- **What an instruction asks of the stream before it**, and what is still to come behind it. -/
structure Admits (calling : Bool) (c : Surroundings) (r : Routine) (k : InstructionKind)
    (calling' : Bool) (c' : Surroundings) : Prop where
  base : c'.base <+: c.base
  reserved : (k.label?.toList ++ c'.reserved).Perm c.reserved
  pending : ∀ l ∈ c.pending, k.label? = some l ∨ l ∈ c'.pending
  target : ∀ l, k.target? = some l → l ∈ r.defined ∨ l ∈ c'.pending
  save : ∀ s, k = .restoreState s → r.kinds[s]? = some .saveState
  round : ∀ s ps, k = .symmetryEnd s ps → ∃ n bs, r.kinds[s]? = some (.symmetryStart n bs)
  call : calling = true → ∃ symbol xs, k = .call symbol xs
  evacuate : k = .evacuate → calling' = true
  scopes : scopesBehind r.kinds.length c.scopes k = some c'.scopes
  regions : c'.regions = c.regions

theorem append {calling calling' : Bool} (h : OpenWith calling c r) (ha : Appended k r x r')
    (hk : Admits calling c r k calling' c') : OpenWith calling' c' r' := by
  have hkinds := ha.kinds
  obtain ⟨values, rfl, -⟩ := ha.routine
  have hd := Routine.defined_of_kinds hkinds
  have hold {i : Nat} {k'} (hi : r.kinds[i]? = some k') : (r.kinds ++ [k])[i]? = some k' :=
    getElem?_snoc.mpr (.inl hi)
  have hlabel {l : Label} (hl : l ∈ r.defined ∨ l ∈ c.pending) :
      l ∈ r.defined ++ k.label?.toList ∨ l ∈ c'.pending := by
    rcases hl with hl | hl
    · exact .inl (List.mem_append_left _ hl)
    · exact (hk.pending l hl).imp_left fun hl => List.mem_append_right _ (by simp [hl])
  constructor
  · exact hk.base.trans (h.base.trans (hkinds ▸ List.prefix_append _ _))
  · rw [hd, List.append_assoc, (hk.reserved.append_left _).nodup_iff]
    exact h.distinct
  · intro l hl
    rw [hd, List.append_assoc, (hk.reserved.append_left _).mem_iff] at hl
    exact h.made l hl
  · intro l hl
    rw [hd]
    rw [Routine.targets, hkinds, List.filterMap_append, List.mem_append] at hl
    rcases hl with hl | hl
    · exact hlabel (h.targets l hl)
    · exact (hk.target l (by simpa using hl)).imp_left (List.mem_append_left _)
  · intro i s hs
    rw [hkinds] at hs ⊢
    rcases getElem?_snoc.mp hs with hs | ⟨rfl, rfl⟩
    · exact ⟨(h.saves i s hs).1, hold (h.saves i s hs).2⟩
    · have hsave := hk.save s rfl
      exact ⟨(List.getElem?_eq_some_iff.mp hsave).1, hold hsave⟩
  · intro i s ps hs
    rw [hkinds] at hs ⊢
    rcases getElem?_snoc.mp hs with hs | ⟨rfl, rfl⟩
    · obtain ⟨hlt, n, bs, hround⟩ := h.rounds i s ps hs
      exact ⟨hlt, n, bs, hold hround⟩
    · obtain ⟨n, bs, hround⟩ := hk.round s ps rfl
      exact ⟨(List.getElem?_eq_some_iff.mp hround).1, n, bs, hold hround⟩
  · intro i hi
    rw [hkinds] at hi ⊢
    rcases getElem?_snoc.mp hi with hi | ⟨rfl, rfl⟩
    · rcases h.calls i hi with ⟨symbol, xs, hcall⟩ | ⟨hlen, hc⟩
      · exact .inl ⟨symbol, xs, hold hcall⟩
      · obtain ⟨symbol, xs, rfl⟩ := hk.call hc
        exact .inl ⟨symbol, xs, getElem?_snoc.mpr (.inr ⟨hlen, rfl⟩)⟩
    · exact .inr ⟨by simp, hk.evacuate rfl⟩
  · rw [hkinds, scopes_append, h.scopes, Nat.zero_add]
    exact hk.scopes
  · exact h.regions.trans hk.regions.symm
  · exact h.unbuilt
  · intro b hb
    obtain ⟨h1, h2, h3⟩ := h.loops b hb
    rw [hkinds, hd]
    exact ⟨hold h1, hlabel h2, hlabel h3⟩

theorem plain (h : Open c r) (hk : k.isPlain = true) (ha : Appended k r x r') : Open c r' := by
  refine append h ha ⟨List.prefix_rfl, ?_, fun l => .inr, ?_, ?_, ?_, by simp, ?_, ?_, rfl⟩
  all_goals cases k <;> simp_all [InstructionKind.isPlain, InstructionKind.label?,
    InstructionKind.target?, scopesBehind]

theorem label (h : Open { c with reserved := l :: c.reserved, pending := l :: c.pending } r)
    (ha : Appended (.label l) r x r') : Open c r' := by
  refine append h ha ⟨List.prefix_rfl, .refl _, fun m hm => ?_, ?_, ?_, ?_, by simp, ?_, rfl, rfl⟩
  · rcases List.mem_cons.mp hm with rfl | hm
    · exact .inl rfl
    · exact .inr hm
  all_goals simp [InstructionKind.target?]

theorem jump {test : Option JumpTest} (h : Open c r) (hl : l ∈ r.defined ∨ l ∈ c.pending)
    (ha : Appended (.jump l test) r x r') : Open c r' := by
  refine append h ha ⟨List.prefix_rfl, .refl _, fun _ => .inr, ?_, ?_, ?_, by simp, ?_, rfl, rfl⟩
  · intro m hm
    exact Option.some.inj hm ▸ hl
  all_goals simp

theorem restore {save : Nat} (h : Open c r) (hs : c.base[save]? = some .saveState)
    (ha : Appended (.restoreState save) r x r') : Open c r' := by
  refine append h ha ⟨List.prefix_rfl, .refl _, fun _ => .inr, ?_, ?_, ?_, by simp, ?_, rfl, rfl⟩
  · simp [InstructionKind.target?]
  · intro s hs'
    cases hs'
    exact h.known hs
  all_goals simp

theorem enter {actives : List Binding} (h : Open c r) (ha : Appended (.enterScope actives) r x r') :
    Open { c with scopes := r.kinds.length :: c.scopes } r' := by
  refine append h ha ⟨List.prefix_rfl, .refl _, fun _ => .inr, ?_, ?_, ?_, by simp, ?_, rfl, rfl⟩
  all_goals simp [InstructionKind.target?]

theorem merge {enter : Nat} {pairs : List MergePair}
    (h : Open { c with scopes := enter :: c.scopes } r)
    (ha : Appended (.mergeScope enter pairs) r x r') : Open c r' := by
  refine append h ha ⟨List.prefix_rfl, .refl _, fun _ => .inr, ?_, ?_, ?_, by simp, ?_, ?_, rfl⟩
  all_goals simp [InstructionKind.target?, scopesBehind]

theorem endRound {start : Nat} {pairs : List MergePair} (h : Open c r)
    (hs : ∃ n bs, r.kinds[start]? = some (.symmetryStart n bs))
    (ha : Appended (.symmetryEnd start pairs) r x r') : Open c r' := by
  refine append h ha ⟨List.prefix_rfl, .refl _, fun _ => .inr, ?_, ?_, ?_, by simp, ?_, rfl, rfl⟩
  · simp [InstructionKind.target?]
  · simp
  · intro s ps hs'
    cases hs'
    exact hs
  · simp

theorem call {symbol : String} {xs : List ValueId} {y : ValueId} (h : Open c r)
    (he : Appended .evacuate r x r') (hc : Appended (.call symbol xs) r' y r'') : Open c r'' := by
  have h₁ : OpenWith true c r' := append h he
    ⟨List.prefix_rfl, .refl _, fun _ => .inr, by simp [InstructionKind.target?], by simp, by simp,
      by simp, by simp, rfl, rfl⟩
  exact append h₁ hc ⟨List.prefix_rfl, .refl _, fun _ => .inr, by simp [InstructionKind.target?],
    by simp, by simp, by simp, by simp, rfl, rfl⟩

end Open

end Codegen
