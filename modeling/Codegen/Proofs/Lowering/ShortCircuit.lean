import Codegen.Proofs.Instruction.Simplified
import Codegen.Proofs.Tree.Read
import Codegen.Proofs.Tree.Siblings
import Codegen.Tree.Construct

/-!
# Conditions that stop as soon as their outcome is known

The steps of a condition lead to the one label if it holds and to the other one if not, and they
compare what an evaluation from left to right compares. A label between two operands is new, so
where its steps stand does not matter; a comparison with zero is put into the tree, so the operands
behind it have to be found unchanged.

* `Condition.holds`, `Condition.asked`: the outcome of a condition, and **what is compared for it**;
* `Shape.Asks`: the condition that a node with all below it stands for;
* `Step.Decides`: steps that lead to the label of the outcome, **whatever stands around them**;
* `Generating.lowersAnywhere`: the steps of a condition before they are simplified;
* `Generating.exists_simplifiedSteps`: **each condition has steps, and they decide it**.
-/

namespace Codegen

open Generating
open Shape (node ids subs mem_subs_of_parts mem_subs_of_mem ids_sublist ids_part mem_ids
  ids_parts id_mem_ids)

/-! ## Conditions -/

/-- A condition, by the nodes whose values it is about. -/
inductive Condition
  | both (first second : Condition)
  | either (first second : Condition)
  /-- The test of two values. -/
  | compares (left right : NodeId) (test : JumpTest)
  /-- The value is not zero. -/
  | nonzero (n : NodeId)

namespace Condition

variable (val : NodeId → Word)

/-- Does the condition hold of the values? -/
def holds : Condition → Bool
  | both c d => c.holds && d.holds
  | either c d => c.holds || d.holds
  | compares l r t => t.decides (val l, val r)
  | nonzero n => val n != 0

/-- **What is compared, from left to right, until the outcome is known.** A value that is compared
with zero stands alone. -/
def asked : Condition → List (NodeId × Option NodeId)
  | both c d => c.asked ++ if c.holds val then d.asked else []
  | either c d => c.asked ++ if c.holds val then [] else d.asked
  | compares l r _ => [(l, some r)]
  | nonzero n => [(n, none)]

end Condition

/-- **The condition that a node with all below it stands for**, for values of integer formats.
Words are compared as natural numbers if both formats have no sign. -/
inductive Shape.Asks (formatOf : NodeId → Except Fault Format) : Shape → Condition → Prop
  | both {i : NodeId} {a b : Shape} {c d : Condition} (ha : Asks formatOf a c)
      (hb : Asks formatOf b d) : Asks formatOf (node i (.operator .and) [a, b]) (.both c d)
  | either {i : NodeId} {a b : Shape} {c d : Condition} (ha : Asks formatOf a c)
      (hb : Asks formatOf b d) : Asks formatOf (node i (.operator .or) [a, b]) (.either c d)
  | compares {i : NodeId} {o : Operator} {a b : Shape} {c : Comparison} {f g : Format}
      (ho : Comparison.ofOperator? o = some c) (ha : formatOf a.id = .ok f)
      (hb : formatOf b.id = .ok g) (hf : f.isDecimal = false) (hg : g.isDecimal = false) :
      Asks formatOf (node i (.operator o) [a, b])
        (.compares a.id b.id ⟨c, !(f.isUnsigned && g.isUnsigned)⟩)
  | inside {i : NodeId} {a : Shape} {c : Condition} (ha : Asks formatOf a c) :
      Asks formatOf (node i .parenthesis [a]) c
  | nonzero {i : NodeId} {k : NodeKind} {cs : List Shape} {f : Format} (hk : k.isTruth = true)
      (hi : formatOf i = .ok f) (hf : f.isDecimal = false) :
      Asks formatOf (node i k cs) (.nonzero i)

theorem Shape.Asks.values_congr {F : NodeId → Except Fault Format} {q : Shape} {c : Condition}
    {val val' : NodeId → Word} (h : q.Asks F c) (hv : ∀ i ∈ ids [q], val i = val' i) :
    c.holds val = c.holds val' ∧ c.asked val = c.asked val' := by
  induction h with
  | both _ _ ha hb | either _ _ ha hb =>
    obtain ⟨ha, ha'⟩ := ha fun i hi => hv i (ids_part (by simp) hi)
    obtain ⟨hb, hb'⟩ := hb fun i hi => hv i (ids_part (by simp) hi)
    simp only [Condition.holds, Condition.asked, ha, ha', hb, hb', and_self]
  | @compares i o a b =>
    simp [Condition.holds, Condition.asked, hv a.id (by simp), hv b.id (by simp)]
  | inside _ ha => exact ha fun i hi => hv i (ids_part (by simp) hi)
  | @nonzero i => simp [Condition.holds, Condition.asked, hv i (by simp)]

/-! ## Trees with new comparisons -/

namespace Tree

/-- The values of nodes: a literal has its own, whatever those of the others are. -/
def values (t : Tree) (val : NodeId → Word) (n : NodeId) : Word :=
  match t.kind n with
  | .number (.integer w) _ => w
  | _ => val n

variable {t t' t'' : Tree} {f f' f'' : NodeId → List NodeId} {q a b : Shape} {z : NodeId}

/-- A literal zero that is new in a tree. -/
def NewZero (t t' : Tree) (z : NodeId) : Prop :=
  t.size ≤ z ∧ z < t'.size ∧ ∃ format, t'.kind z = .number (.integer 0) format

/-- **The tree changes below a condition only**, or right above it. -/
structure Amended (q : Shape) (t t' : Tree) (f f' : NodeId → List NodeId) : Prop where
  linked : Linked t' f'
  size : t.size ≤ t'.size
  kind : ∀ i < t.size, t'.kind i = t.kind i
  lists : ∀ i < t.size, i ∉ ids [q] → q.id ∉ f i → f' i = f i

namespace Amended

theorem newZero_right (h : Amended q t t' f f') (hz : NewZero t' t'' z) : NewZero t t'' z :=
  ⟨Nat.le_trans h.size hz.1, hz.2⟩

theorem newZero_left (h : Amended q t' t'' f' f'') (hz : NewZero t t' z) : NewZero t t'' z :=
  ⟨hz.1, Nat.lt_of_lt_of_le hz.2.1 h.size, by rw [h.kind z hz.2.1]; exact hz.2.2⟩

theorem outside (h : Amended a t t' f f') (hl : Linked t f) (ha : a ∈ q.parts)
    (hq : a.id ∈ f q.id) {i : NodeId} (hi : i < t.size) (hiq : i ∉ ids [q]) : f' i = f i := by
  refine h.lists i hi (fun hia => hiq (ids_part ha hia)) fun hai => hiq ?_
  rw [hl.parent_unique hai hq]
  simp

theorem displays (h : Amended a t t' f f') (hl : Linked t f) (hb : Displays t f [b])
    (hm : b.id < t.size) (hd : (ids [a]).Disjoint (ids [b])) : Displays t' f' [b] := by
  refine hb.congr (fun i hi => h.kind i (hb.made hl hm hi)) fun i hi =>
    h.lists i (hb.made hl hm hi) (fun hia => hd hia hi) fun hai => ?_
  obtain ⟨s, hs, rfl⟩ := mem_ids.mp hi
  rw [(hb s hs).2] at hai
  obtain ⟨c, hc, he⟩ := List.mem_map.mp hai
  exact hd (by simp) (he ▸ ids_parts hs (id_mem_ids (mem_subs_of_mem hc)))

/-- Formats are read as before in what is displayed as before. -/
theorem formatOf_eq (h : Amended a t t' f f') (hl : Linked t f) (hb : Displays t f [b])
    (hb' : Displays t' f' [b]) (hn : (ids [b]).Nodup) (hm : b.id < t.size)
    (symbols : SymbolTable) {u : Shape} (hu : u ∈ subs [b]) :
    t'.formatOf symbols u.id = t.formatOf symbols u.id := by
  have hmade := hb.made hl hm (id_mem_ids hu)
  exact ((hb.sub hu).formatOf_eq hl (hb'.sub hu) h.linked (hn.sublist (ids_sublist hu)) hmade
    (Nat.lt_of_lt_of_le hmade h.size) symbols).symm

theorem trans (h₁ : Amended a t t' f f') (h₂ : Amended b t' t'' f' f'') (hl : Linked t f)
    (ha : a ∈ q.parts) (hb : b ∈ q.parts) (hqa : a.id ∈ f q.id) (hqb : b.id ∈ f q.id) :
    Amended q t t'' f f'' where
  linked := h₂.linked
  size := Nat.le_trans h₁.size h₂.size
  kind i hi := (h₂.kind i (Nat.lt_of_lt_of_le hi h₁.size)).trans (h₁.kind i hi)
  lists i hi hiq _ := by
    have h := h₁.outside hl ha hqa hi hiq
    refine (h₂.lists i (Nat.lt_of_lt_of_le hi h₁.size) (fun hib => hiq (ids_part hb hib))
      fun hbi => hiq ?_).trans h
    rw [h] at hbi
    rw [hl.parent_unique hbi hqb]
    simp

theorem up (h : Amended a t t' f f') (hl : Linked t f) (ha : a ∈ q.parts) (hqa : a.id ∈ f q.id) :
    Amended q t t' f f' :=
  ⟨h.linked, h.size, h.kind, fun _ hi hiq _ => h.outside hl ha hqa hi hiq⟩

end Amended

theorem list_unchanged {i e : NodeId} (hi : i < t.size) (he : e ∉ f i) :
    (if i = t.size + 1 then [e, t.size]
      else (f i).map fun m => if m = e then t.size + 1 else m) = f i := by
  rw [if_neg (Nat.ne_of_lt (Nat.lt_succ_of_lt hi))]
  refine (List.map_congr_left fun m hm => if_neg ?_).trans (List.map_id _)
  rintro rfl
  exact he hm

theorem Linked.amended_comparedWithZero (hl : Linked t f) (hm : q.id < t.size) (zero : NodeKind) :
    Amended q t (t.comparedWithZero q.id zero) f fun p =>
      if p = t.size + 1 then [q.id, t.size]
      else (f p).map fun m => if m = q.id then t.size + 1 else m where
  linked := Standing.linked_comparedWithZero hl hm zero
  size := by rw [Standing.size_comparedWithZero]; exact Nat.le_add_right _ 2
  kind i hi := by
    rw [Standing.kind_comparedWithZero, if_neg (Nat.ne_of_lt hi),
      if_neg (Nat.ne_of_lt (Nat.lt_succ_of_lt hi))]
  lists _ hi _ hq := list_unchanged hi hq

theorem Displays.not_mem_parent {p : NodeId} (hd : Displays t f [q]) (hp : q.id ∈ f p) :
    p ∉ ids [q] := by
  intro hmem
  obtain ⟨s, hs, rfl⟩ := mem_ids.mp hmem
  rw [(hd s hs).2] at hp
  obtain ⟨c, hc, he⟩ := List.mem_map.mp hp
  have hbelow : c ∈ subs q.parts := by
    obtain ⟨_, hs', rfl | hs⟩ := Shape.mem_subs.mp hs
    · exact mem_subs_of_mem (List.mem_singleton.mp hs' ▸ hc)
    · exact Shape.subs_trans (List.mem_singleton.mp hs' ▸ hs) (mem_subs_of_mem hc)
  have he : c.id = q.id := he
  exact hd.not_below (he ▸ id_mem_ids hbelow)

/-- The operand is displayed below its comparison with zero. -/
theorem Linked.displays_comparedWithZero (hl : Linked t f) (hd : Displays t f [q])
    (hm : q.id < t.size) (zero : NodeKind) :
    Displays (t.comparedWithZero q.id zero) (fun p =>
      if p = t.size + 1 then [q.id, t.size]
      else (f p).map fun m => if m = q.id then t.size + 1 else m) [q] :=
  hd.congr (fun j hj => (hl.amended_comparedWithZero hm zero).kind j (hd.made hl hm hj)) fun _ hj =>
    list_unchanged (hd.made hl hm hj) fun hq => hd.not_mem_parent hq hj

theorem formatOf_number {symbols : SymbolTable} {n : NodeId} {w : Number} {g : Format}
    (h : t.kind n = .number w g) : t.formatOf symbols n = .ok g := by
  rw [Tree.formatOf, h]
  rfl

end Tree

/-! ## Steps that decide a condition -/

namespace Step

variable {val : NodeId → Word} {zero zero' : NodeId → Prop} {whole rest rest' steps : List Step}
variable {first second : List Step}
variable {cs cs' : List (NodeId × NodeId)} {l l' success failure : Label} {p : Word × Word}
variable {c d : Condition} {a b : NodeId} {t : JumpTest}

/-- The label that a run reaches: falling off the end is reaching the label that follows. -/
def Exit.reached? (next? : Option Label) : Exit → Option Label
  | left l => some l
  | fell => next?

/-- Each node has one value, wherever it is compared. -/
def outcomes (val : NodeId → Word) : Outcomes := fun _ a b => (val a, val b)

/-- **The run from a place makes these comparisons and jumps to the label.** -/
def Leads (val : NodeId → Word) (whole : List Step) (p : Word × Word) (rest : List Step)
    (cs : List (NodeId × NodeId)) (l : Label) : Prop :=
  ∃ p' n, ∀ k, run (outcomes val) whole (k + n) p rest =
    (run (outcomes val) whole k p' [jump l none]).map (cs ++ ·) id

theorem leads_compare : Leads val whole p
    ([compare a b, jump success (some t), jump failure none] ++ rest) [(a, b)]
    (if t.decides (val a, val b) then success else failure) := by
  cases ht : t.decides (val a, val b) with
  | true => exact ⟨(val a, val b), 1, fun k => congrArg (Prod.map ((a, b) :: ·) id)
      (run_taken (t := some t) ht rfl)⟩
  | false => exact ⟨(val a, val b), 2, fun k => congrArg (Prod.map ((a, b) :: ·) id)
      ((run_pass (t := some t) ht).trans (run_taken rfl rfl))⟩

theorem Leads.trans (h : Leads val whole p rest cs l) (hl : behind l whole = some rest')
    (h' : ∀ p, Leads val whole p rest' cs' l') : Leads val whole p rest (cs ++ cs') l' := by
  obtain ⟨p', n, h⟩ := h
  obtain ⟨p'', n', h'⟩ := h' p'
  refine ⟨p'', n' + 1 + n, fun k => ?_⟩
  rw [← Nat.add_assoc, h, ← Nat.add_assoc, run_land rfl hl, h']
  simp [Prod.map]

/-- The comparison that a step makes is the one that is asked for. -/
def Answers (zero : NodeId → Prop) (made : NodeId × NodeId) (asked : NodeId × Option NodeId) :
    Prop :=
  made.1 = asked.1 ∧ asked.2.elim (zero made.2) (made.2 = ·)

/-- **Steps that decide a condition**, wherever they stand among steps with labels of their own:
what is asked is compared, and the run leads to the label of the outcome. -/
def Decides (val : NodeId → Word) (zero : NodeId → Prop) (steps : List Step) (c : Condition)
    (success failure : Label) : Prop :=
  ∃ cs, List.Forall₂ (Answers zero) cs (c.asked val) ∧ ∀ {whole rest : List Step}
    {p : Word × Word}, (labels whole).Nodup → steps ++ rest <:+ whole →
      Leads val whole p (steps ++ rest) cs (if c.holds val then success else failure)

theorem Decides.mono (h : Decides val zero steps c success failure)
    (hz : ∀ z, zero z → zero' z) : Decides val zero' steps c success failure := by
  obtain ⟨cs, hcs, h⟩ := h
  refine ⟨cs, hcs.imp fun x y hxy => ⟨hxy.1, ?_⟩, h⟩
  have hy := hxy.2
  cases hn : y.2 with
  | none => exact hz _ (by simpa [hn] using hy)
  | some m => simpa [hn] using hy

variable {m : Label}

theorem behind_middle (hn : (labels whole).Nodup)
    (hs : first ++ label m :: second ++ rest <:+ whole) :
    behind m whole = some (second ++ rest) := by
  have hs : label m :: (second ++ rest) <:+ whole :=
    (List.suffix_append first _).trans (by simpa using hs)
  rw [behind_of_suffix hn hs (by simp), behind_cons_self]

theorem Decides.both (hc : Decides val zero first c m failure)
    (hd : Decides val zero second d success failure) :
    Decides val zero (first ++ label m :: second) (.both c d) success failure := by
  obtain ⟨cs, hcs, hc⟩ := hc
  obtain ⟨ds, hds, hd⟩ := hd
  cases h : c.holds val with
  | false =>
    refine ⟨cs, by simpa [Condition.asked, h] using hcs, fun hn hs => ?_⟩
    simpa [Condition.holds, h] using hc hn (by simpa using hs)
  | true =>
    refine ⟨cs ++ ds, by simpa [Condition.asked, h] using List.rel_append hcs hds,
      fun {whole rest p} hn hs => ?_⟩
    have hfirst := @hc whole (label m :: second ++ rest) p hn (by simpa using hs)
    have hsecond {p} := @hd whole rest p hn
      ((List.suffix_append (first ++ [label m]) _).trans (by simpa using hs))
    simpa [Condition.holds, h] using
      (by simpa [h] using hfirst : Leads _ _ _ _ _ m).trans (behind_middle hn hs) fun _ => hsecond

theorem Decides.either (hc : Decides val zero first c success m)
    (hd : Decides val zero second d success failure) :
    Decides val zero (first ++ label m :: second) (.either c d) success failure := by
  obtain ⟨cs, hcs, hc⟩ := hc
  obtain ⟨ds, hds, hd⟩ := hd
  cases h : c.holds val with
  | true =>
    refine ⟨cs, by simpa [Condition.asked, h] using hcs, fun hn hs => ?_⟩
    simpa [Condition.holds, h] using hc hn (by simpa using hs)
  | false =>
    refine ⟨cs ++ ds, by simpa [Condition.asked, h] using List.rel_append hcs hds,
      fun {whole rest p} hn hs => ?_⟩
    have hfirst := @hc whole (label m :: second ++ rest) p hn (by simpa using hs)
    have hsecond {p} := @hd whole rest p hn
      ((List.suffix_append (first ++ [label m]) _).trans (by simpa using hs))
    simpa [Condition.holds, h] using
      (by simpa [h] using hfirst : Leads _ _ _ _ _ m).trans (behind_middle hn hs) fun _ => hsecond

theorem decides_compares :
    Decides val zero [compare a b, jump success (some t), jump failure none] (.compares a b t)
      success failure :=
  ⟨[(a, b)], .cons ⟨rfl, rfl⟩ .nil, fun _ _ => leads_compare⟩

theorem decides_nonzero {z : NodeId} (hz : zero z) (hv : val z = 0) (signed : Bool) :
    Decides val zero [compare a z, jump success (some ⟨.notEqual, signed⟩), jump failure none]
      (.nonzero a) success failure := by
  refine ⟨[(a, z)], .cons ⟨rfl, hz⟩ .nil, fun _ _ => ?_⟩
  have h : (Condition.nonzero a).holds val =
      JumpTest.decides ⟨.notEqual, signed⟩ (val a, val z) := by
    cases signed <;> simp [Condition.holds, JumpTest.decides, Comparison.holds,
      Comparison.holdsUnsigned, hv]
  exact h ▸ leads_compare

/-! ## Labels -/

/-- Steps whose labels are their own, from one number on up to another one. -/
structure Own (steps : List Step) (l m : Nat) : Prop where
  le : l ≤ m
  nodup : (labels steps).Nodup
  range : ∀ k : Nat, k ∈ labels steps → l ≤ k ∧ k < m

theorem Own.none {l : Nat} (hs : labels steps = []) : Own steps l l :=
  ⟨Nat.le_refl l, by simp [hs], by simp [hs]⟩

theorem Own.middle {l m k : Nat} (hf : Own first (l + 1) m) (hs : Own second m k) :
    Own (first ++ label l :: second) l k := by
  have hlm := hf.le
  have hmk := hs.le
  refine ⟨by omega, ?_, ?_⟩
  · rw [labels_append, labels_cons_label, List.nodup_middle, List.nodup_cons, List.mem_append,
      not_or, List.nodup_append]
    refine ⟨⟨fun h => ?_, fun h => ?_⟩, hf.nodup, hs.nodup, ?_⟩
    · have := hf.range l h
      omega
    · have := hs.range l h
      omega
    · rintro i hi j hj rfl
      have := hf.range i hi
      have := hs.range i hj
      omega
  · intro i hi
    rw [labels_append, labels_cons_label, List.mem_append, List.mem_cons] at hi
    rcases hi with hi | rfl | hi
    · have := hf.range i hi
      omega
    · omega
    · have := hs.range i hi
      omega

end Step

/-! ## Lowering -/

namespace Generating

variable {F : NodeId → Except Fault Format} {f f' f'' : NodeId → List NodeId} {q a b : Shape}
variable {c d : Condition} {fuel : Nat} {r r' r₂ : Routine} {success failure l m : Label}
variable {left right n : NodeId} {o : Operator} {first second steps : List Step}

/-! ### Parts of the function -/

theorem takes_logical (hk : r.tree.kind n = .operator o) (ho : o.isLogical = true)
    (h1 : r.tree.first? n = some left) (h2 : r.tree.last? n = some right) (hne : left ≠ right)
    (hl : Takes (conditionStepsWithin fuel left (if o = .and then r.labels else success)
      (if o = .and then failure else r.labels)) { r with labels := r.labels + 1 } first r₂)
    (hr : Takes (conditionStepsWithin fuel right success failure) r₂ second r') :
    Takes (conditionStepsWithin (fuel + 1) n success failure) r
      (first ++ .label r.labels :: second) r' := by
  rw [conditionStepsWithin]
  refine takes_bind.mpr ⟨r, r, takes_get.mpr ⟨rfl, rfl⟩, ?_⟩
  simp only [hk, ho, if_true]
  refine takes_bind.mpr ⟨(left, right), r, takes_operandsOf.mpr ⟨h1, h2, hne, rfl⟩, ?_⟩
  refine takes_bind.mpr ⟨_, _, takes_newLabel.mpr ⟨rfl, rfl⟩, ?_⟩
  have hpair : Takes (do
      let second ← conditionStepsWithin fuel right success failure
      return first ++ .label r.labels :: second) r₂ (first ++ .label r.labels :: second) r' :=
    takes_bind.mpr ⟨second, r', hr, takes_pure.mpr ⟨rfl, rfl⟩⟩
  split at hl
  next ho =>
    rw [if_pos ho]
    exact takes_bind.mpr ⟨first, r₂, hl, hpair⟩
  next ho =>
    rw [if_neg ho]
    exact takes_bind.mpr ⟨first, r₂, hl, hpair⟩

theorem comparesSigned_takes {g k : Format} (hl : r.tree.formatOf r.symbols left = .ok g)
    (hr : r.tree.formatOf r.symbols right = .ok k) (hg : g.isDecimal = false)
    (hk : k.isDecimal = false) :
    Takes (comparesSigned left right) r (!(g.isUnsigned && k.isUnsigned)) r := by
  refine takes_bind.mpr ⟨g, r, takes_ask.mpr ⟨hl, rfl⟩, takes_bind.mpr ⟨k, r, takes_ask.mpr
    ⟨hr, rfl⟩, takes_pure.mpr ⟨?_, rfl⟩⟩⟩
  rw [hg, hk, Bool.false_or, Bool.false_or]

theorem takes_comparisonSteps {g k : Format} {comparison : Comparison}
    (ho : Comparison.ofOperator? o = some comparison)
    (h1 : r.tree.first? n = some left) (h2 : r.tree.last? n = some right) (hne : left ≠ right)
    (hl : r.tree.formatOf r.symbols left = .ok g) (hr : r.tree.formatOf r.symbols right = .ok k)
    (hg : g.isDecimal = false) (hk : k.isDecimal = false) :
    Takes (comparisonSteps n o success failure) r [.compare left right,
      .jump success (some ⟨comparison, !(g.isUnsigned && k.isUnsigned)⟩), .jump failure none] r :=
  takes_bind.mpr ⟨_, r, takes_operandsOf.mpr ⟨h1, h2, hne, rfl⟩, takes_bind.mpr ⟨comparison, r,
    takes_required.mpr ⟨ho, rfl⟩, takes_bind.mpr ⟨_, r, comparesSigned_takes hl hr hg hk,
      takes_pure.mpr ⟨rfl, rfl⟩⟩⟩⟩

theorem takes_compareWithZero {g : Format} (hn : r.tree.formatOf r.symbols n = .ok g) :
    Takes (compareWithZero n) r (r.tree.size + 1)
      { r with tree := r.tree.comparedWithZero n (zeroOf g) } :=
  takes_bind.mpr ⟨g, r, takes_ask.mpr ⟨hn, rfl⟩, takes_modifyGet.mpr
    ⟨by simp [Tree.create, Tree.createAt, Tree.size], rfl⟩⟩

theorem takes_truth (hk : (r.tree.kind n).isTruth = true)
    (hz : Takes (compareWithZero n) r m r₂)
    (hc : Takes (comparisonSteps m .notEquals success failure) r₂ steps r') :
    Takes (conditionStepsWithin (fuel + 1) n success failure) r steps r' := by
  have hz : Takes (do comparisonSteps (← compareWithZero n) .notEquals success failure) r steps r' :=
    takes_bind.mpr ⟨m, r₂, hz, hc⟩
  rw [conditionStepsWithin]
  refine takes_bind.mpr ⟨r, r, takes_get.mpr ⟨rfl, rfl⟩, ?_⟩
  simp only [NodeKind.isTruth, Bool.and_eq_true, Bool.not_eq_true'] at hk
  split
  next o ho =>
    rw [ho] at hk
    have hlogical : ¬ o.isLogical = true := Bool.eq_false_iff.mp hk.1
    have hcomparison : ¬ o.isComparison = true := Bool.eq_false_iff.mp hk.2
    rw [if_neg hlogical, if_neg hcomparison]
    exact hz
  next hp =>
    rw [hp] at hk
    cases hk.1
  next => exact hz

/-! ### Conditions with all below them -/

/-- What the lowering of a condition does: it takes steps that decide the condition, with labels
that were not there before, and it changes the tree below the condition only. -/
structure Lowers (fuel : Nat) (q : Shape) (c : Condition) (success failure : Label) (r : Routine)
    (f : NodeId → List NodeId) (steps : List Step) (t' : Tree) (labels' : Nat)
    (f' : NodeId → List NodeId) : Prop where
  takes : Takes (conditionStepsWithin fuel q.id success failure) r steps
    { r with tree := t', labels := labels' }
  amended : Tree.Amended q r.tree t' f f'
  own : Step.Own steps r.labels labels'
  decides : ∀ val, (∀ z, r.tree.NewZero t' z → val z = 0) →
    Step.Decides val (r.tree.NewZero t') steps c success failure

/-- A condition is lowered in all routines whose trees display it. -/
def LowersAnywhere (F : NodeId → Except Fault Format) (q : Shape) (c : Condition) : Prop :=
  ∀ fuel r f success failure, r.tree.Linked f → r.tree.Displays f [q] → q.id < r.tree.size →
    (∀ u ∈ subs [q], r.tree.formatOf r.symbols u.id = F u.id) → (ids [q]).length ≤ fuel →
      ∃ steps t' labels' f', Lowers fuel q c success failure r f steps t' labels' f'

/-- A logical operator: the second operand is found unchanged behind the first one. -/
theorem LowersAnywhere.logical {i : NodeId} {e : Condition} (ha : LowersAnywhere F a c)
    (hb : LowersAnywhere F b d) (ho : o.isLogical = true)
    (hdec : ∀ {val zero first second m success failure},
      Step.Decides val zero first c (if o = .and then m else success)
        (if o = .and then failure else m) → Step.Decides val zero second d success failure →
        Step.Decides val zero (first ++ .label m :: second) e success failure) :
    LowersAnywhere F (node i (.operator o) [a, b]) e := by
  intro fuel r f success failure hl hd hm hF hfuel
  have hn := hd.nodup hl
  have hself : node i (.operator o) [a, b] ∈ subs [node i (.operator o) [a, b]] :=
    mem_subs_of_mem List.mem_cons_self
  obtain ⟨hk, hc⟩ := hd _ hself
  have hina : a ∈ (node i (.operator o) [a, b]).parts := List.mem_cons_self
  have hinb : b ∈ (node i (.operator o) [a, b]).parts := List.mem_cons_of_mem _ List.mem_cons_self
  have hia := hd.mem hself hina
  have hib := hd.mem hself hinb
  have hne : a.id ≠ b.id := by
    have := hl.distinct i
    rw [show f i = [a.id, b.id] from hc] at this
    simpa using this
  have hdb := hd.part hinb
  have hmb := (hl.inside hib).2
  have hsub {u s : Shape} (hs : s ∈ (node i (.operator o) [a, b]).parts) (hu : u ∈ subs [s]) :
      u ∈ subs [node i (.operator o) [a, b]] :=
    mem_subs_of_parts List.mem_cons_self (Shape.mem_subs.mpr ⟨s, hs, by simpa using hu⟩)
  cases fuel with
  | zero => simp at hfuel
  | succ fuel =>
    have hlena := Tree.length_ids_parts_lt hina
    have hlenb := Tree.length_ids_parts_lt hinb
    obtain ⟨first, t₁, n₁, f₁, h₁⟩ := ha fuel { r with labels := r.labels + 1 } f
      (if o = .and then r.labels else success) (if o = .and then failure else r.labels) hl
      (hd.part hina) (hl.inside hia).2 (fun u hu => hF u (hsub hina hu)) (by omega)
    have hdb' := h₁.amended.displays hl hdb hmb (hd.apart hl hina hinb hne)
    obtain ⟨second, t₂, n₂, f₂, h₂⟩ := hb fuel { r with tree := t₁, labels := n₁ } f₁ success
      failure h₁.amended.linked hdb' (Nat.lt_of_lt_of_le hmb h₁.amended.size)
      (fun u hu => (h₁.amended.formatOf_eq hl hdb hdb' (hdb.nodup hl) hmb r.symbols hu).trans
        (hF u (hsub hinb hu))) (by omega)
    refine ⟨first ++ .label r.labels :: second, t₂, n₂, f₂,
      takes_logical hk ho (by rw [hl.first, hc]; rfl) (by rw [hl.last, hc]; rfl) hne h₁.takes
        h₂.takes,
      h₁.amended.trans h₂.amended hl hina hinb hia hib, h₁.own.middle h₂.own, fun val hv => ?_⟩
    have hleft (z : NodeId) (hz : r.tree.NewZero t₁ z) : r.tree.NewZero t₂ z :=
      h₂.amended.newZero_left hz
    have hright (z : NodeId) (hz : t₁.NewZero t₂ z) : r.tree.NewZero t₂ z :=
      h₁.amended.newZero_right hz
    exact hdec ((h₁.decides val fun z hz => hv z (hleft z hz)).mono hleft)
      ((h₂.decides val fun z hz => hv z (hright z hz)).mono hright)

theorem LowersAnywhere.inside {i : NodeId} (ha : LowersAnywhere F a c) :
    LowersAnywhere F (node i .parenthesis [a]) c := by
  intro fuel r f success failure hl hd hm hF hfuel
  have hself : node i .parenthesis [a] ∈ subs [node i .parenthesis [a]] :=
    mem_subs_of_mem List.mem_cons_self
  obtain ⟨hk, hc⟩ := hd _ hself
  have hina : a ∈ (node i .parenthesis [a]).parts := List.mem_cons_self
  have hia := hd.mem hself hina
  cases fuel with
  | zero => simp at hfuel
  | succ fuel =>
    have hlen := Tree.length_ids_parts_lt hina
    obtain ⟨steps, t', n', f', h⟩ := ha fuel r f success failure hl (hd.part hina)
      (hl.inside hia).2 (fun u hu => hF u <| mem_subs_of_parts List.mem_cons_self
        (Shape.mem_subs.mpr ⟨a, hina, by simpa using hu⟩)) (by omega)
    refine ⟨steps, t', n', f', ?_, h.amended.up hl hina hia, h.own, h.decides⟩
    rw [conditionStepsWithin]
    refine takes_bind.mpr ⟨r, r, takes_get.mpr ⟨rfl, rfl⟩, ?_⟩
    have hk : r.tree.kind i = .parenthesis := hk
    have hlast : r.tree.last? i = some a.id := by rw [hl.last, show f i = [a.id] from hc]; rfl
    simp only [Shape.id_node, hk]
    exact takes_bind.mpr ⟨r, r, takes_get.mpr ⟨rfl, rfl⟩,
      takes_bind.mpr ⟨a.id, r, takes_required.mpr ⟨hlast, rfl⟩, h.takes⟩⟩

theorem LowersAnywhere.compares {i : NodeId} {k : Comparison} {g h : Format}
    (ho : Comparison.ofOperator? o = some k) (ha : F a.id = .ok g) (hb : F b.id = .ok h)
    (hg : g.isDecimal = false) (hh : h.isDecimal = false) :
    LowersAnywhere F (node i (.operator o) [a, b])
      (.compares a.id b.id ⟨k, !(g.isUnsigned && h.isUnsigned)⟩) := by
  intro fuel r f success failure hl hd hm hF hfuel
  obtain ⟨hk, hc⟩ := hd _ (mem_subs_of_mem List.mem_cons_self)
  have hk : r.tree.kind i = .operator o := hk
  have hc : f i = [a.id, b.id] := hc
  have hne : a.id ≠ b.id := by simpa [hc] using hl.distinct i
  cases fuel with
  | zero => simp at hfuel
  | succ fuel =>
    refine ⟨_, r.tree, r.labels, f, ?_,
      ⟨hl, Nat.le_refl _, fun _ _ => rfl, fun _ _ _ _ => rfl⟩, .none rfl,
      fun val _ => Step.decides_compares⟩
    have hclass : o.isLogical = false ∧ o.isComparison = true := by
      cases o <;> first | exact ⟨rfl, rfl⟩ | cases ho
    rw [conditionStepsWithin]
    refine takes_bind.mpr ⟨r, r, takes_get.mpr ⟨rfl, rfl⟩, ?_⟩
    simp only [Shape.id_node, hk, hclass, if_true, Bool.false_eq_true, if_false]
    exact takes_comparisonSteps ho (by rw [hl.first, hc]; rfl) (by rw [hl.last, hc]; rfl) hne
      ((hF a (by simp)).trans ha) ((hF b (by simp)).trans hb) hg hh

theorem formatOf_comparedWithZero (hl : r.tree.Linked f) (hd : r.tree.Displays f [q])
    (hm : q.id < r.tree.size) (zero : NodeKind) :
    (r.tree.comparedWithZero q.id zero).formatOf r.symbols q.id =
      r.tree.formatOf r.symbols q.id :=
  (hl.amended_comparedWithZero hm zero).formatOf_eq hl hd (hl.displays_comparedWithZero hd hm zero)
    (hd.nodup hl) hm r.symbols (mem_subs_of_mem List.mem_cons_self)

theorem LowersAnywhere.nonzero {i : NodeId} {k : NodeKind} {cs : List Shape} {g : Format}
    (hk : k.isTruth = true) (hi : F i = .ok g) (hg : g.isDecimal = false) :
    LowersAnywhere F (node i k cs) (.nonzero i) := by
  intro fuel r f success failure hl hd hm hF hfuel
  have hself : node i k cs ∈ subs [node i k cs] := mem_subs_of_mem List.mem_cons_self
  have hformat : r.tree.formatOf r.symbols i = .ok g := (hF _ hself).trans hi
  have htakes := takes_compareWithZero hformat
  have h := hl.amended_comparedWithZero hm (zeroOf g)
  have hi' := (formatOf_comparedWithZero hl hd hm (zeroOf g)).trans hformat
  have hkind : (r.tree.comparedWithZero i (zeroOf g)).kind r.tree.size =
      .number (.integer 0) g := by
    rw [Standing.kind_comparedWithZero, if_pos rfl, zeroOf, if_neg (Bool.eq_false_iff.mp hg)]
  have hsize := Standing.size_comparedWithZero (t := r.tree) i (zeroOf g)
  rw [Shape.id_node] at h hi'
  -- from here on, it counts what the new tree is like and not how it was made
  generalize r.tree.comparedWithZero i (zeroOf g) = t' at htakes h hi' hkind hsize
  have hz : r.tree.NewZero t' r.tree.size :=
    ⟨Nat.le_refl _, hsize ▸ Nat.lt_add_of_pos_right (by simp), g, hkind⟩
  have hfirst : t'.first? (r.tree.size + 1) = some i := by
    rw [h.linked.first, if_pos rfl]
    rfl
  have hlast : t'.last? (r.tree.size + 1) = some r.tree.size := by
    rw [h.linked.last, if_pos rfl]
    rfl
  have hk : (r.tree.kind i).isTruth = true := (hd _ hself).1 ▸ hk
  cases fuel with
  | zero => simp at hfuel
  | succ fuel =>
    have hcompare : Takes (comparisonSteps (r.tree.size + 1) .notEquals success failure)
        { r with tree := t' } [.compare i r.tree.size,
          .jump success (some ⟨.notEqual, !(g.isUnsigned && g.isUnsigned)⟩), .jump failure none]
        { r with tree := t' } :=
      takes_comparisonSteps rfl hfirst hlast (Nat.ne_of_lt hm) hi' (Tree.formatOf_number hkind) hg hg
    exact ⟨_, t', r.labels, _, takes_truth hk htakes hcompare, h, .none rfl, fun val hv =>
      Step.decides_nonzero hz (hv _ hz) _⟩

/-- **The steps of each condition decide it.** -/
theorem lowersAnywhere (h : q.Asks F c) : LowersAnywhere F q c := by
  induction h with
  | both _ _ ha hb => exact ha.logical hb rfl fun hc hd => hc.both hd
  | either _ _ ha hb => exact ha.logical hb rfl fun hc hd => hc.either hd
  | compares ho ha hb hf hg => exact .compares ho ha hb hf hg
  | inside _ ha => exact ha.inside
  | nonzero hk hi hf => exact .nonzero hk hi hf

/-- The steps of a condition with the label that follows them, before they are simplified. -/
theorem Lowers.ends {f' : NodeId → List NodeId} {t' : Tree} {labels' : Nat} {next? : Option Label}
    (h : Lowers fuel q c success failure r f steps t' labels' f') (hs : success < r.labels)
    (hf : failure < r.labels) (hn : ∀ l ∈ next?, l < r.labels) {val : NodeId → Word}
    (hv : ∀ z, r.tree.NewZero t' z → val z = 0) (p : Word × Word) :
    (Step.labels (steps ++ (next?.map .label).toList)).Nodup ∧
      ∃ cs e, Step.Ends (Step.outcomes val) p (steps ++ (next?.map .label).toList) cs e ∧
        e.reached? next? = some (if c.holds val then success else failure) ∧
        List.Forall₂ (Step.Answers (r.tree.NewZero t')) cs (c.asked val) := by
  have hfresh {l : Nat} (hl : l < r.labels) : l ∉ Step.labels steps := fun hm =>
    absurd (h.own.range l hm).1 (Nat.not_le.mpr hl)
  have hnodup : (Step.labels (steps ++ (next?.map .label).toList)).Nodup := by
    cases next? with
    | none => simpa using h.own.nodup
    | some l =>
      have hl : l ∉ Step.labels steps := hfresh (hn l rfl)
      simpa [List.nodup_append, h.own.nodup] using fun k hk => fun (hkl : k = l) => hl (hkl ▸ hk)
  refine ⟨hnodup, ?_⟩
  obtain ⟨cs, hcs, hleads⟩ := h.decides val hv
  obtain ⟨p', n, hrun⟩ := hleads (p := p) hnodup List.suffix_rfl
  have hl : (if c.holds val then success else failure) ∉ Step.labels steps := by
    split
    · exact hfresh hs
    · exact hfresh hf
  generalize (if c.holds val then success else failure) = l at hrun hl ⊢
  have hbehind : Step.behind l (steps ++ (next?.map .label).toList) = _ := Step.behind_append hl
  by_cases hnext : next? = some l
  · -- the label follows the steps, and nothing follows the label
    subst hnext
    refine ⟨cs, .fell, ⟨2 + n, ?_⟩, rfl, hcs⟩
    rw [hrun, Step.run_land rfl (hbehind.trans Step.behind_cons_self), Step.run_nil]
    simp [Prod.map]
  · refine ⟨cs, .left l, ⟨1 + n, ?_⟩, rfl, hcs⟩
    have hnone : Step.behind l (next?.map .label).toList = none := by
      refine Step.behind_eq_none fun hm => hnext ?_
      cases next? with
      | none => simp at hm
      | some k => simpa [eq_comm] using hm
    rw [hrun, Step.run_leave rfl (hbehind.trans hnone)]
    simp [Prod.map]

/-- **Each condition has steps, and they stop as soon as its outcome is known.** Whatever the values
of the expressions are, and whatever was compared before, the run of the simplified steps reaches
the label of the outcome, and it compares what an evaluation from left to right compares. -/
theorem exists_simplifiedSteps {next? : Option Label} (hl : r.tree.Linked r.tree.children)
    (hq : r.tree.Displays r.tree.children [q]) (hm : q.id < r.tree.size)
    (hc : q.Asks (r.tree.formatOf r.symbols) c) (hs : success < r.labels)
    (hf : failure < r.labels) (hn : ∀ l ∈ next?, l < r.labels) :
    ∃ steps r', Takes (simplifiedSteps q.id success failure next?) r steps r' ∧
      ∀ (val : NodeId → Word) (p : Word × Word), ∃ cs e,
        Step.Ends (Step.outcomes (r'.tree.values val)) p steps cs e ∧
          e.reached? next? =
            some (if c.holds (r.tree.values val) then success else failure) ∧
          List.Forall₂ (Step.Answers (r.tree.NewZero r'.tree)) cs
            (c.asked (r.tree.values val)) := by
  obtain ⟨steps, t', labels', f', h⟩ := lowersAnywhere hc (r.tree.size + 1) r r.tree.children success
    failure hl hq hm (fun _ _ => rfl)
    (Nat.le_succ_of_le (Tree.length_ids_le (hq.nodup hl) fun i hi => hq.made hl hm hi))
  refine ⟨_, _, takes_bind.mpr ⟨steps, _, takes_bind.mpr ⟨r, r, takes_get.mpr ⟨rfl, rfl⟩, h.takes⟩,
    takes_pure.mpr ⟨rfl, rfl⟩⟩, fun val p => ?_⟩
  have hz (z : NodeId) (hz : r.tree.NewZero t' z) : t'.values val z = 0 := by
    obtain ⟨-, -, g, hk⟩ := hz
    rw [Tree.values, hk]
  obtain ⟨hnodup, cs, e, he, hr, hcs⟩ := h.ends hs hf hn hz p
  have hval (i : NodeId) (hi : i ∈ ids [q]) : t'.values val i = r.tree.values val i := by
    rw [Tree.values, h.amended.kind i (hq.made hl hm hi), Tree.values]
  obtain ⟨hholds, hasked⟩ := hc.values_congr hval
  exact ⟨cs, e, (Step.alike_simplify hnodup).ends.mpr he, hholds ▸ hr, hasked ▸ hcs⟩

/-- A routine before the condition "x < y and (z)" of three words without signs. -/
def guarded : Routine :=
  { (default : Routine) with
    tree := (StateT.run (do
      let less ← Construct.operator .less (← Construct.create (.reference 0) none)
        (← Construct.create (.reference 1) none)
      let inside ← Construct.node .parenthesis [← Construct.create (.reference 2) none]
      Construct.operator .and less inside : Construct NodeId) .empty).run.2
    symbols := { SymbolTable.start with
      vars := .replicate 3 { (default : VariableInfo) with type? := some (Primitive.ofFormat .u64) } }
    labels := 2 }

/-- The shape of the condition. -/
def guardedCondition : Shape :=
  .node 5 (.operator .and) [
    .node 2 (.operator .less) [.node 0 (.reference 0) [], .node 1 (.reference 1) []],
    .node 4 .parenthesis [.node 3 (.reference 2) []]]

/-- The last value is zero, so the condition does not hold, though its first operand does as the
words have no signs. -/
theorem exists_simplifiedSteps_guarded : ∃ steps r' cs e,
    Takes (simplifiedSteps guardedCondition.id 0 1 (some 0)) guarded steps r' ∧
      Step.Ends (Step.outcomes (r'.tree.values fun n => if n = 1 then -1 else 0)) (0, 0) steps cs e ∧
      e.reached? (some 0) = some 1 ∧
      List.Forall₂ (Step.Answers (guarded.tree.NewZero r'.tree)) cs [(0, some 1), (3, none)] := by
  have hq : guarded.tree.Displays guarded.tree.children [guardedCondition] := by
    unfold Tree.Displays
    decide
  have hc : guardedCondition.Asks (guarded.tree.formatOf guarded.symbols)
      (.both (.compares 0 1 ⟨.less, false⟩) (.nonzero 3)) :=
    .both (.compares (f := .u64) (g := .u64) rfl rfl rfl rfl rfl) (.inside (.nonzero rfl rfl rfl))
  obtain ⟨steps, r', h, hrun⟩ := exists_simplifiedSteps (Tree.forest_of_isForest (by decide)).linked
    hq (by decide) hc (show 0 < guarded.labels by decide) (show 1 < guarded.labels by decide)
    (show ∀ l ∈ some 0, l < guarded.labels by decide)
  obtain ⟨cs, e, he, hr, hcs⟩ := hrun (fun n => if n = 1 then -1 else 0) (0, 0)
  exact ⟨steps, r', cs, e, h, he, hr, hcs⟩

end Generating

end Codegen
