import Codegen.Proofs.Control.Structured
import Codegen.Proofs.Tree.Read
import Codegen.Proofs.Tree.Siblings
import Codegen.Tree.Construct
import Codegen.Usage

/-!
# What runs after what

An execution of a body is told by the moments at which the execution of a node begins and ends. A
node that ended can be followed by what comes after it or after a node around it, and by all of a
loop around it. That is where the analysis of later uses looks for a variable.

* `Moment`, `Task`: moments, and what is executed;
* `Executes`: **the executions of statements, branches, loops and values**, also unfinished ones;
* `Tree.Follows`: where a node is that begins after the end of another one;
* `Executes.ordered`: **in all executions, what begins after the end of a node follows it**;
* `Tree.isMemberName_of_begun`: **a variable that is not used later is not executed later**.
-/

namespace Codegen

open Shape (node ids subs followers mem_subs mem_subs_of_mem mem_ids id_mem_ids ids_append)

/-! ## Executions -/

/-- The execution of a node begins or ends. -/
inductive Moment
  | begun (n : NodeId)
  | ended (n : NodeId)
deriving DecidableEq

/-- The node of a moment. -/
def Moment.node : Moment → NodeId
  | begun n | ended n => n

/-- What is executed. -/
inductive Task
  /-- A node that is no branch. -/
  | one (s : Shape)
  /-- Nodes in order, with the chains of branches among them. -/
  | list (ss : List Shape)
  /-- A chain of branches: the first one whose condition holds. -/
  | chain (bs : List Shape)
  /-- The rounds of a loop. -/
  | rounds (s : Shape)

/-- The nodes that a task is about. -/
def Task.shapes : Task → List Shape
  | one s | rounds s => [s]
  | list ss | chain ss => ss

namespace Shape

/-- What is executed first of a node and those that follow it. A branch that continues no chain is
passed. -/
def leading (s : Shape) (ss : List Shape) : Task :=
  if s.kind.isAlternative then .chain []
  else if s.kind.isBranch then .chain (s :: followers s.kind ss) else .one s

/-- What is executed then. -/
def remaining (s : Shape) (ss : List Shape) : List Shape :=
  ss.drop (followers s.kind ss).length

/-- The statements of a scope are all executed; a value may be known without the rest of its
operands. -/
def Executed (s : Shape) (cs : List Shape) : Prop :=
  match s.kind with
  | .scope _ | .parenthesis => cs = s.parts
  | _ => cs.Sublist s.parts

/-- What a branch executes before its body. -/
def tested (s : Shape) : List Shape := s.scope?.toList

/-- What a loop executes before its first round. -/
def entry (s : Shape) : List Shape :=
  match s.kind with
  | .loop _ false => s.parts.head?.toList ++ s.tested
  | _ => []

/-- What a loop executes in a round. The condition is tested before the next one. -/
def lap (s : Shape) : List Shape :=
  match s.kind with
  | .loop _ false => s.bodyOn.head?.toList ++ (s.parts.drop 2).head?.toList ++ s.tested
  | _ => s.bodyOn.head?.toList

end Shape

/-- How a node leaves what is around it, once its operands are executed. -/
def NodeKind.leave? : NodeKind → Option Leave
  | .control c => some (.control c)
  | .ret => some .ret
  | _ => none

/-- The moments of a node around those of its operands. It does not end if the execution goes no
further. -/
def Moment.around (n : NodeId) (σ : List Moment) : Option Leave → List Moment
  | some .cut => begun n :: σ
  | _ => begun n :: (σ ++ [ended n])

open Moment (around)

/-- **The executions of a task**: the moments in their order, and how the task is left before its
end. Each execution is looked at up to some moment, so those without end are told by their
beginnings. -/
inductive Executes : Task → List Moment → Option Leave → Prop
  | cut {k : Task} : Executes k [] (some .cut)
  | nil : Executes (.list []) [] none
  | next {s : Shape} {ss : List Shape} {σ τ : List Moment} {e : Option Leave}
      (h : Executes (s.leading ss) σ none) (h' : Executes (.list (s.remaining ss)) τ e) :
      Executes (.list (s :: ss)) (σ ++ τ) e
  | leave {s : Shape} {ss : List Shape} {σ : List Moment} {l : Leave}
      (h : Executes (s.leading ss) σ (some l)) : Executes (.list (s :: ss)) σ (some l)
  /-- A value or a statement executes what is right below it. -/
  | inside {s : Shape} {cs : List Shape} {σ : List Moment} {e : Option Leave}
      (hk : s.kind.isLoop = false) (hc : s.Executed cs) (h : Executes (.list cs) σ e) :
      Executes (.one s) (around s.id σ e) (e.or s.kind.leave?)
  | noBranch : Executes (.chain []) [] none
  /-- The condition of a branch holds, or there is none. -/
  | taken {b : Shape} {bs : List Shape} {σ : List Moment} {e : Option Leave}
      (hk : b.kind.isBranch = true) (h : Executes (.list (b.tested ++ b.bodyOn.head?.toList)) σ e) :
      Executes (.chain (b :: bs)) (around b.id σ e) e
  | passed {b : Shape} {bs : List Shape} {σ τ : List Moment} {e : Option Leave}
      (hk : b.kind.isConditional = true) (h : Executes (.list b.tested) σ none)
      (h' : Executes (.chain bs) τ e) :
      Executes (.chain (b :: bs)) (around b.id σ none ++ τ) e
  | loop {s : Shape} {σ τ : List Moment} {e : Option Leave} (hk : s.kind.isLoop = true)
      (h : Executes (.list s.entry) σ none) (h' : Executes (.rounds s) τ e) :
      Executes (.one s) (around s.id (σ ++ τ) e) e
  /-- The condition of a loop does not hold before the first round. -/
  | never {s : Shape} {c : ContextId} {σ : List Moment} {e : Option Leave}
      (hk : s.kind = .loop c false) (h : Executes (.list s.entry) σ e) :
      Executes (.one s) (around s.id σ e) e
  | again {s : Shape} {σ τ : List Moment} {e e' : Option Leave} (h : Executes (.list s.lap) σ e)
      (he : e = none ∨ e = some (.control .next)) (h' : Executes (.rounds s) τ e') :
      Executes (.rounds s) (σ ++ τ) e'
  /-- The condition of a loop does not hold after a round. -/
  | done {s : Shape} {c : ContextId} {σ : List Moment} (hk : s.kind = .loop c false)
      (h : Executes (.list s.lap) σ none) : Executes (.rounds s) σ none
  | stop {s : Shape} {σ : List Moment} (h : Executes (.list s.lap) σ (some (.control .stop))) :
      Executes (.rounds s) σ none
  | out {s : Shape} {σ : List Moment} {l : Leave} (h : Executes (.list s.lap) σ (some l))
      (hl : ∀ c, l ≠ .control c) : Executes (.rounds s) σ (some l)

/-! ## Where moments are -/

namespace Shape

variable {s : Shape} {cs ss : List Shape}

theorem ids_mono (h : cs ⊆ ss) : ids cs ⊆ ids ss := fun i hi => by
  obtain ⟨u, hu, rfl⟩ := mem_ids.mp hi
  obtain ⟨c, hc, hu⟩ := mem_subs.mp hu
  exact id_mem_ids (mem_subs.mpr ⟨c, h hc, hu⟩)

theorem followers_prefix (k : NodeKind) (ss : List Shape) : followers k ss <+: ss := by
  induction ss generalizing k with
  | nil => exact List.prefix_rfl
  | cons b bs ih =>
    rw [followers]
    split
    · exact (List.prefix_cons_inj b).mpr (ih b.kind)
    · exact List.nil_prefix

theorem followers_append_remaining (s : Shape) (ss : List Shape) :
    followers s.kind ss ++ s.remaining ss = ss := by
  obtain ⟨rest, hrest⟩ := followers_prefix s.kind ss
  have hdrop : s.remaining ss = rest := by
    unfold remaining
    generalize followers s.kind ss = fs at hrest ⊢
    rw [← hrest, List.drop_left]
  rw [hdrop, hrest]

theorem leading_sublist (s : Shape) (ss : List Shape) :
    (s.leading ss).shapes.Sublist (s :: followers s.kind ss) := by
  unfold leading
  split
  · exact List.nil_sublist _
  · split
    · exact .refl _
    · exact List.singleton_sublist.mpr List.mem_cons_self

theorem leading_subset (s : Shape) (ss : List Shape) : (s.leading ss).shapes ⊆ s :: ss :=
  ((s.leading_sublist ss).trans ((followers_sublist _ _).cons_cons s)).subset

theorem remaining_subset (s : Shape) (ss : List Shape) : s.remaining ss ⊆ s :: ss :=
  fun _ hc => .tail s (List.mem_of_mem_drop hc)

theorem Executed.sublist (h : s.Executed cs) : cs.Sublist s.parts := by
  unfold Executed at h
  split at h
  · exact h ▸ .refl _
  · exact h ▸ .refl _
  · exact h

theorem tested_subset (s : Shape) : s.tested ⊆ s.parts := fun _ hc =>
  mem_parts (scope_place (Option.mem_toList.mp hc))

theorem body_subset (s : Shape) : s.bodyOn.head?.toList ⊆ s.parts := fun c hc => by
  obtain ⟨before, hparts⟩ := parts_bodyOn s
  rw [hparts]
  exact List.mem_append_right _ (List.mem_of_mem_head? (Option.mem_toList.mp hc))

theorem entry_subset (s : Shape) : s.entry ⊆ s.parts := by
  unfold entry
  split
  · refine List.append_subset.mpr ⟨fun c hc => ?_, s.tested_subset⟩
    exact List.mem_of_mem_head? (Option.mem_toList.mp hc)
  · exact List.nil_subset _

theorem lap_subset (s : Shape) : s.lap ⊆ s.parts := by
  unfold lap
  split
  · refine List.append_subset.mpr ⟨List.append_subset.mpr ⟨s.body_subset, fun c hc => ?_⟩,
      s.tested_subset⟩
    exact List.mem_of_mem_drop (List.mem_of_mem_head? (Option.mem_toList.mp hc))
  · exact s.body_subset

theorem tested_append_body (hk : s.kind.isBranch = true) :
    (s.tested ++ s.bodyOn.head?.toList).Sublist s.parts := by
  rcases s with ⟨i, k, _ | ⟨a, _ | ⟨b, cs⟩⟩⟩
  all_goals
    cases k <;> simp_all [tested, scope?, bodyOn, kind, parts, NodeKind.isBranch]

theorem tested_sublist (s : Shape) : s.tested.Sublist s.parts := by
  have hsubset := s.tested_subset
  unfold tested at hsubset ⊢
  cases hs : s.scope? with
  | none => exact List.nil_sublist _
  | some c => exact List.singleton_sublist.mpr (hsubset (by simp [hs]))

end Shape

theorem Moment.mem_around {n : NodeId} {σ : List Moment} {e : Option Leave} {x : Moment}
    (hx : x ∈ around n σ e) : x.node = n ∨ x ∈ σ := by
  unfold around at hx
  split at hx
  · rcases List.mem_cons.mp hx with rfl | hx
    · exact .inl rfl
    · exact .inr hx
  · rcases List.mem_cons.mp hx with rfl | hx
    · exact .inl rfl
    · rcases List.mem_append.mp hx with hx | hx
      · exact .inr hx
      · exact .inl (List.mem_singleton.mp hx ▸ rfl)

open Shape in
/-- **What is executed is part of the task.** -/
theorem Executes.mem {k : Task} {τ : List Moment} {e : Option Leave} (h : Executes k τ e) :
    ∀ x ∈ τ, x.node ∈ ids k.shapes := by
  have inner {s : Shape} {cs : List Shape} (hcs : cs ⊆ s.parts) : ids cs ⊆ ids [s] :=
    fun _ hi => ids_parts (mem_subs_of_mem List.mem_cons_self) (ids_mono hcs hi)
  have self {s : Shape} : s.id ∈ ids [s] := id_mem_ids (mem_subs_of_mem List.mem_cons_self)
  have below {s : Shape} {cs : List Shape} {σ : List Moment} {e : Option Leave} {x : Moment}
      (hcs : cs ⊆ s.parts) (hσ : ∀ y ∈ σ, y.node ∈ ids cs) (hx : x ∈ around s.id σ e) :
      x.node ∈ ids [s] :=
    (Moment.mem_around hx).elim (fun hx => hx ▸ self) fun hx => inner hcs (hσ x hx)
  have head {b : Shape} {bs : List Shape} : ids [b] ⊆ ids (b :: bs) := ids_mono (by simp)
  induction h with
  | cut | nil | noBranch => exact fun x hx => nomatch hx
  | @next s ss _ _ _ _ _ ih ih' =>
    exact List.forall_mem_append.mpr ⟨fun x hx => ids_mono (s.leading_subset ss) (ih x hx),
      fun x hx => ids_mono (s.remaining_subset ss) (ih' x hx)⟩
  | @leave s ss _ _ _ ih => exact fun x hx => ids_mono (s.leading_subset ss) (ih x hx)
  | inside _ hc _ ih => exact fun x hx => below hc.sublist.subset ih hx
  | @taken b _ _ _ _ _ ih =>
    have hparts := List.append_subset.mpr ⟨b.tested_subset, b.body_subset⟩
    exact fun x hx => head (below hparts ih hx)
  | @passed b bs _ _ _ _ _ _ ih ih' =>
    exact List.forall_mem_append.mpr ⟨fun x hx => head (below b.tested_subset ih hx),
      fun x hx => ids_mono (List.subset_cons_self b bs) (ih' x hx)⟩
  | @loop s _ _ _ _ _ _ ih ih' =>
    have hin := List.forall_mem_append.mpr ⟨fun x hx => inner s.entry_subset (ih x hx), ih'⟩
    exact fun x hx => (Moment.mem_around hx).elim (fun hx => hx ▸ self) (hin x)
  | @never s _ _ _ _ _ ih => exact fun x hx => below s.entry_subset ih hx
  | @again s _ _ _ _ _ _ _ ih ih' =>
    exact List.forall_mem_append.mpr ⟨fun x hx => inner s.lap_subset (ih x hx), ih'⟩
  | @done s _ _ _ _ ih | @stop s _ _ ih | @out s _ _ _ _ ih =>
    exact fun x hx => inner s.lap_subset (ih x hx)

/-! ## What follows a node -/

namespace Tree

variable {t : Tree} {W s p a b : Shape} {pl : Place} {path : List Shape} {n m : NodeId}

/-- **The second node is after the first one or a node around it, or in a loop around it.** -/
def Follows (t : Tree) (n m : NodeId) : Prop :=
  ∃ a ∈ n :: t.ancestors n,
    (∃ s ∈ t.siblings (t.size + 1) (t.next? a), m ∈ t.subtree s) ∨
      ∃ p, t.parent? a = some p ∧ (t.kind p).isLoop = true ∧ m ∈ t.subtree p

/-- A variable that is not used later is in none of the nodes that follow, other than as the name of
a member. -/
theorem Follows.isMemberName {v : VariableId} (h : t.Follows n m)
    (hn : t.isUsedLater n v = false) (hm : t.kind m = .reference v) :
    t.isMemberName m = true := by
  obtain ⟨a, ha, hfollows⟩ := h
  rw [isUsedLater, List.any_eq_false] at hn
  have hnone := hn a ha
  simp only [readsAround, Bool.or_eq_true, not_or, List.any_eq_true, not_exists, not_and] at hnone
  obtain ⟨hsiblings, hloop⟩ := hnone
  have hreads {s : NodeId} (hs : m ∈ t.subtree s) (hr : ¬ t.reads s v = true) :
      t.isMemberName m = true := by
    rw [reads, List.any_eq_true] at hr
    by_contra hname
    exact hr ⟨m, hs, by simp [hm, hname]⟩
  rcases hfollows with ⟨s, hs, hms⟩ | ⟨p, hp, hk, hms⟩
  · exact hreads hms (hsiblings s hs)
  · rw [hp] at hloop
    exact hreads hms (by simpa [hk] using hloop)

theorem Shows.ancestors_eq (h : t.Shows W) (hs : W.In pl path s) :
    t.ancestors s.id = path.map (·.id) := by
  obtain ⟨f, hf, hW⟩ := h.links
  obtain ⟨f', seat, hstands⟩ := Standing.of_shows h
  have hlineage {fuel : Nat} (hfuel : path.length ≤ fuel) :
      t.lineage fuel (t.parent? s.id) = path.map (·.id) := by
    clear hstands
    induction hs generalizing fuel with
    | root => cases fuel <;> simp [h.root, lineage]
    | @part pl pl' path p c hp hc ih =>
      have hparent : t.parent? c.id = some p.id := by
        rw [hf.parent, (hW _ _ _ hp).2]
        exact List.mem_map_of_mem (Shape.mem_parts hc)
      cases fuel with
      | zero => simp at hfuel
      | succ fuel => rw [hparent, lineage, ih (by simpa using hfuel), List.map_cons]
  exact hlineage (Nat.le_succ_of_le (Nat.le_of_lt (hstands.path_length hs)))

theorem Shows.subtree_eq (h : t.Shows W) (hs : W.In pl path s) : t.subtree s.id = ids [s] := by
  obtain ⟨f, hf, hd⟩ := h.displays
  have hparts : Displays t f s.parts := hd.parts hs.sub
  have hlength : (ids [s]).length ≤ t.size :=
    Nat.le_trans (Shape.ids_sublist hs.sub).length_le
      (length_ids_le h.nodup fun i hi => hd.made hf.linked h.made hi)
  rw [Shape.ids_cons, Shape.ids_nil, List.append_nil, List.length_cons] at hlength
  rw [subtree, descendants, hf.children, (hd s hs.sub).2,
    preorder_eq hf.linked hparts (by omega), Shape.ids_cons, Shape.ids_nil, List.append_nil]

theorem Shows.mem_line (h : t.Shows W) (hs : W.In pl path s) (hn : n ∈ ids [s]) :
    s.id ∈ n :: t.ancestors n := by
  obtain ⟨u, hu, rfl⟩ := mem_ids.mp hn
  obtain ⟨pl', path', hin, hmem⟩ : ∃ pl' path', W.In pl' path' u ∧ s ∈ u :: path' := by
    refine Shape.subs_induction (P := fun u => ∃ pl' path', W.In pl' path' u ∧ s ∈ u :: path')
      ⟨pl, path, hs, List.mem_cons_self⟩ (fun v _ ⟨pl', path', hin, hmem⟩ c hc => ?_) hu
    obtain ⟨pl'', hc⟩ := Shape.exists_place pl' hc
    exact ⟨pl'', v :: path', .part hin hc, .tail c hmem⟩
  rw [h.ancestors_eq hin, ← List.map_cons]
  exact List.mem_map_of_mem hmem

theorem Shows.follows_of_sibling (h : t.Shows W) (hp : W.In pl path p) {as bs : List Shape}
    (hparts : p.parts = as ++ a :: bs) (hb : b ∈ bs) (hn : n ∈ ids [a]) (hm : m ∈ ids [b]) :
    t.Follows n m := by
  obtain ⟨f, hf, hW⟩ := h.links
  obtain ⟨pla, ha⟩ := Shape.exists_place pl (s := p) (c := a) (by simp [hparts])
  obtain ⟨plb, hb'⟩ := Shape.exists_place pl (s := p) (c := b) (by simp [hparts, hb])
  have hlist : f p.id = as.map (·.id) ++ a.id :: bs.map (·.id) := by
    rw [(hW _ _ _ hp).2, hparts, List.map_append, List.map_cons]
  have hlength := hf.length_le p.id
  rw [hlist, List.length_append, List.length_cons] at hlength
  refine ⟨a.id, h.mem_line (.part hp ha) hn, .inl ⟨b.id, ?_, ?_⟩⟩
  · rw [(hf.siblings hlist).2,
      hf.linked.siblings_eq (hlist.trans (List.append_cons _ _ _)) (by omega)]
    exact List.mem_map_of_mem hb
  · exact h.subtree_eq (.part hp hb') ▸ hm

theorem Shows.follows_of_loop (h : t.Shows W) (hp : W.In pl path p) (hk : p.kind.isLoop = true)
    (ha : a ∈ p.parts) (hn : n ∈ ids [a]) (hm : m ∈ ids [p]) : t.Follows n m := by
  obtain ⟨f, hf, hW⟩ := h.links
  obtain ⟨pla, ha'⟩ := Shape.exists_place pl ha
  refine ⟨a.id, h.mem_line (.part hp ha') hn, .inr ⟨p.id, ?_, (hW _ _ _ hp).1 ▸ hk,
    h.subtree_eq hp ▸ hm⟩⟩
  rw [hf.parent, (hW _ _ _ hp).2]
  exact List.mem_map_of_mem ha

/-- **Nodes of a body of which the later ones follow the earlier ones.** -/
structure Successive (t : Tree) (W : Shape) (ss : List Shape) : Prop where
  inside : ∀ s ∈ ss, ∃ pl path, W.In pl path s
  follows : ss.Pairwise fun a b => ∀ n ∈ ids [a], ∀ m ∈ ids [b], t.Follows n m

namespace Successive

variable {as bs ss : List Shape}

theorem sublist (h : t.Successive W ss) (hs : as.Sublist ss) : t.Successive W as :=
  ⟨fun s hm => h.inside s (hs.subset hm), h.follows.sublist hs⟩

theorem cross (h : t.Successive W (as ++ bs)) (hn : n ∈ ids as) (hm : m ∈ ids bs) :
    t.Follows n m := by
  have single {ss : List Shape} {i : NodeId} (hi : i ∈ ids ss) : ∃ s ∈ ss, i ∈ ids [s] := by
    obtain ⟨u, hu, rfl⟩ := mem_ids.mp hi
    obtain ⟨s, hs, hu⟩ := mem_subs.mp hu
    exact ⟨s, hs, id_mem_ids (mem_subs.mpr ⟨s, List.mem_singleton_self s, hu⟩)⟩
  obtain ⟨a, ha, hn⟩ := single hn
  obtain ⟨b, hb, hm⟩ := single hm
  exact (List.pairwise_append.mp h.follows).2.2 a ha b hb n hn m hm

theorem parts (h : t.Shows W) (hp : W.In pl path p) : t.Successive W p.parts where
  inside s hs := by
    obtain ⟨pl', hs⟩ := Shape.exists_place pl hs
    exact ⟨pl', p :: path, .part hp hs⟩
  follows := by
    have hrest {ss before : List Shape} (hparts : p.parts = before ++ ss) :
        ss.Pairwise fun a b => ∀ n ∈ ids [a], ∀ m ∈ ids [b], t.Follows n m := by
      induction ss generalizing before with
      | nil => exact .nil
      | cons a bs ih =>
        exact .cons (fun b hb n hn m hm => h.follows_of_sibling hp hparts hb hn hm)
          (ih (hparts.trans (List.append_cons _ _ _)))
    exact hrest (List.nil_append _).symm

/-- What a loop executes, in whatever order. -/
theorem loop (h : t.Shows W) (hp : W.In pl path p) (hk : p.kind.isLoop = true)
    (hss : ss ⊆ p.parts) : t.Successive W ss where
  inside s hs := (parts h hp).inside s (hss hs)
  follows := List.pairwise_of_forall_mem_list fun _ ha b hb _ hn _ hm =>
    h.follows_of_loop hp hk (hss ha) hn
      (Shape.ids_parts (mem_subs_of_mem List.mem_cons_self)
        (Shape.ids_mono (by simpa using hss hb) hm))

end Successive

end Tree

/-! ## The order of moments -/

/-- What begins after the end of a node follows the node. -/
def Moment.Precedes (t : Tree) : Moment → Moment → Prop
  | ended n, begun m => t.Follows n m
  | _, _ => True

/-- The tasks of an execution of a body. -/
def Task.Fits (t : Tree) (W : Shape) : Task → Prop
  | one s => ∃ pl path, W.In pl path s
  | list ss | chain ss => t.Successive W ss
  | rounds s => s.kind.isLoop = true ∧ ∃ pl path, W.In pl path s

section Order

variable {t : Tree} {W s : Shape} {k : Task} {σ τ : List Moment} {e : Option Leave} {n : NodeId}

theorem Moment.precedes_of_follows {x y : Moment} (h : t.Follows x.node y.node) :
    x.Precedes t y := by
  cases x <;> cases y <;> first | exact h | trivial

theorem Moment.ordered_around (h : σ.Pairwise (Precedes t)) :
    (around n σ e).Pairwise (Precedes t) := by
  have hbegun {τ : List Moment} (h : τ.Pairwise (Precedes t)) :
      (begun n :: τ).Pairwise (Precedes t) := .cons (fun _ _ => trivial) h
  unfold around
  split
  · exact hbegun h
  · refine hbegun (List.pairwise_append.mpr ⟨h, List.pairwise_singleton _ _, fun x _ y hy => ?_⟩)
    rw [List.mem_singleton.mp hy]
    cases x <;> trivial

theorem Task.fits_leading {ss : List Shape} (h : t.Successive W (s :: ss)) :
    (s.leading ss).Fits t W := by
  unfold Shape.leading
  split
  · exact h.sublist (List.nil_sublist _)
  · split
    · exact h.sublist ((Shape.followers_sublist _ _).cons_cons s)
    · exact h.inside s List.mem_cons_self

/-- **In all executions, what begins after the end of a node follows it.** -/
theorem Executes.ordered (hW : t.Shows W) (h : Executes k τ e) (hk : k.Fits t W) :
    τ.Pairwise (Moment.Precedes t) := by
  -- what a loop executes is followed by all of the loop
  have lap {s : Shape} {cs : List Shape} {σ τ : List Moment} (hl : s.kind.isLoop = true)
      (hin : ∃ pl path, W.In pl path s) (hcs : cs ⊆ s.parts) (hσ : ∀ x ∈ σ, x.node ∈ ids cs)
      (hτ : ∀ y ∈ τ, y.node ∈ ids [s]) : ∀ x ∈ σ, ∀ y ∈ τ, x.Precedes t y := by
    intro x hx y hy
    obtain ⟨pl, path, hin⟩ := hin
    obtain ⟨u, hu, hux⟩ := mem_ids.mp (hσ x hx)
    obtain ⟨a, ha, hu⟩ := mem_subs.mp hu
    exact Moment.precedes_of_follows (hW.follows_of_loop hin hl (hcs ha)
      (hux ▸ id_mem_ids (mem_subs.mpr ⟨a, List.mem_singleton_self a, hu⟩)) (hτ y hy))
  have fits {s : Shape} {cs : List Shape} (hl : s.kind.isLoop = true)
      (hin : ∃ pl path, W.In pl path s) (hcs : cs ⊆ s.parts) : t.Successive W cs := by
    obtain ⟨pl, path, hin⟩ := hin
    exact .loop hW hin hl hcs
  induction h with
  | cut | nil | noBranch => exact .nil
  | @next s ss σ τ e h h' ih ih' =>
    have happend := s.followers_append_remaining ss
    have hall : t.Successive W (s :: followers s.kind ss ++ s.remaining ss) := by
      rw [List.cons_append, happend]
      exact hk
    refine List.pairwise_append.mpr ⟨ih (Task.fits_leading hk),
      ih' (hall.sublist (List.sublist_append_right _ _)), fun x hx y hy => ?_⟩
    exact Moment.precedes_of_follows (hall.cross
      (Shape.ids_mono (s.leading_sublist ss).subset (h.mem x hx)) (h'.mem y hy))
  | leave _ ih => exact ih (Task.fits_leading hk)
  | inside _ hc _ ih =>
    obtain ⟨pl, path, hin⟩ := hk
    exact Moment.ordered_around (ih ((Tree.Successive.parts hW hin).sublist hc.sublist))
  | @taken b bs σ e hb _ ih =>
    obtain ⟨pl, path, hin⟩ := hk.inside b List.mem_cons_self
    exact Moment.ordered_around
      (ih ((Tree.Successive.parts hW hin).sublist (Shape.tested_append_body hb)))
  | @passed b bs σ τ e _ h h' ih ih' =>
    obtain ⟨pl, path, hin⟩ := hk.inside b List.mem_cons_self
    have hσ := ih ((Tree.Successive.parts hW hin).sublist b.tested_sublist)
    refine List.pairwise_append.mpr ⟨Moment.ordered_around hσ,
      ih' (hk.sublist (List.sublist_cons_self b bs)), fun x hx y hy => ?_⟩
    have hx : x.node ∈ ids [b] := by
      refine (Moment.mem_around hx).elim (fun hx => hx ▸ by simp) fun hx => ?_
      exact Shape.ids_parts (mem_subs_of_mem List.mem_cons_self)
        (Shape.ids_mono b.tested_subset (h.mem x hx))
    have hk : t.Successive W ([b] ++ bs) := hk
    exact Moment.precedes_of_follows (hk.cross hx (h'.mem y hy))
  | @loop s σ τ e hl h h' ih ih' =>
    exact Moment.ordered_around (List.pairwise_append.mpr ⟨ih (fits hl hk s.entry_subset),
      ih' ⟨hl, hk⟩, lap hl hk s.entry_subset h.mem h'.mem⟩)
  | @never s c σ e hc _ ih =>
    exact Moment.ordered_around (ih (fits (by rw [hc]; rfl) hk s.entry_subset))
  | @again s σ τ e e' h _ h' ih ih' =>
    exact List.pairwise_append.mpr ⟨ih (fits hk.1 hk.2 s.lap_subset), ih' hk,
      lap hk.1 hk.2 s.lap_subset h.mem h'.mem⟩
  | @done s _ _ _ _ ih | @stop s _ _ ih | @out s _ _ _ _ ih =>
    exact ih (fits hk.1 hk.2 s.lap_subset)

/-- **A variable that is not used later is not executed later.** Once a node of a body has ended, no
execution of the body begins a node of such a variable, other than as the name of a member: not by a
loop around the node that runs again, not after a statement that leaves or restarts a loop, and not
in later branches or statements. -/
theorem Tree.isMemberName_of_begun (hW : t.Shows W) {before after : List Moment} {n m : NodeId}
    {v : VariableId} (h : Executes (.list [W]) (before ++ .ended n :: after) e)
    (hn : t.isUsedLater n v = false) (hm : .begun m ∈ after) (hv : t.kind m = .reference v) :
    t.isMemberName m = true := by
  have hroot : t.Successive W [W] := by
    refine ⟨fun s hs => ?_, List.pairwise_singleton _ _⟩
    obtain rfl := List.mem_singleton.mp hs
    exact ⟨_, _, .root⟩
  have hordered := h.ordered hW hroot
  have hfollows : t.Follows n m :=
    (List.pairwise_cons.mp (List.pairwise_append.mp hordered).2.1).1 _ hm
  exact hfollows.isMemberName hn hv

theorem Shape.leading_eq (ss : List Shape) (hk : s.kind.isBranch = false) :
    s.leading ss = .one s ∧ s.remaining ss = ss := by
  have ha : s.kind.isAlternative = false ∧ s.kind.isConditional = false := by
    cases h : s.kind <;>
      simp_all [NodeKind.isBranch, NodeKind.isAlternative, NodeKind.isConditional]
  constructor
  · simp [leading, hk, ha]
  · cases ss <;> simp [remaining, followers, ha]

theorem Executes.next_one {ss : List Shape} (hk : s.kind.isBranch = false)
    (h : Executes (.one s) σ none) (h' : Executes (.list ss) τ e) :
    Executes (.list (s :: ss)) (σ ++ τ) e := by
  obtain ⟨hl, hr⟩ := Shape.leading_eq ss hk
  exact .next (by rwa [hl]) (by rwa [hr])

theorem Executes.leave_one {ss : List Shape} {l : Leave} (hk : s.kind.isBranch = false)
    (h : Executes (.one s) σ (some l)) : Executes (.list (s :: ss)) σ (some l) :=
  .leave ((Shape.leading_eq ss hk).1 ▸ h)

/-- An access to a member. -/
def memberAccess : Shape :=
  node 3 .link [node 1 (.reference 0) [], node 2 (.reference 1) []]

/-- A loop without end over a value and the access. -/
def accessLoop : Shape :=
  node 5 (.loop 0 true) [node 4 (.scope 0) [node 0 (.number (.integer 1) .i64) [], memberAccess]]

/-- A body with the loop alone. -/
def memberInLoop : Shape := node 6 (.scope 0) [accessLoop]

/-- The tree of that body. -/
def memberInLoopTree : Tree :=
  (StateT.run (do
    let one ← Construct.create (.number (.integer 1) .i64) none
    let object ← Construct.create (.reference 0) none
    let member ← Construct.create (.reference 1) none
    let access ← Construct.node .link [object, member]
    let body ← Construct.node (.scope 0) [one, access]
    Construct.node (.scope 0) [← Construct.node (.loop 0 true) [body]] : Construct NodeId)
    .empty).run.2

theorem executes_memberInLoop : Executes (.list [memberInLoop])
    [.begun 6, .begun 5, .begun 4, .begun 0, .ended 0, .begun 3, .begun 1, .ended 1, .begun 2]
    (some .cut) := by
  have leaf (i : NodeId) (k : NodeKind) (hk : k.isLoop = false) (hl : k.leave? = none)
      (hc : (node i k []).Executed []) :
      Executes (.one (node i k [])) [.begun i, .ended i] none := by
    have h := Executes.inside (s := node i k []) (e := none) hk hc .nil
    rwa [Shape.kind_node, hl] at h
  have member : Executes (.one (node 2 (.reference 1) [])) [.begun 2] (some .cut) :=
    .inside (s := node 2 (.reference 1) []) rfl (.refl _) .cut
  have access : Executes (.one memberAccess) [.begun 3, .begun 1, .ended 1, .begun 2]
      (some .cut) :=
    .inside (s := memberAccess) rfl (.refl _)
      (.next_one rfl (leaf 1 (.reference 0) rfl rfl (.refl _)) (.leave_one rfl member))
  have round : Executes (.list accessLoop.lap)
      [.begun 4, .begun 0, .ended 0, .begun 3, .begun 1, .ended 1, .begun 2] (some .cut) :=
    .leave_one rfl (.inside (s := node 4 (.scope 0) [_, memberAccess]) rfl rfl
      (.next_one rfl (leaf 0 (.number (.integer 1) .i64) rfl rfl (.refl _))
        (.leave_one rfl access)))
  have loop : Executes (.one accessLoop)
      [.begun 5, .begun 4, .begun 0, .ended 0, .begun 3, .begun 1, .ended 1, .begun 2]
      (some .cut) :=
    .loop (s := accessLoop) rfl .nil (.out round fun _ => nofun)
  exact .leave_one rfl (.inside (s := memberInLoop) rfl rfl (.leave_one rfl loop))

theorem isMemberName_of_begun_memberInLoop :
    memberInLoopTree.isUsedLater 0 1 = false ∧ memberInLoopTree.kind 2 = .reference 1 ∧
      memberInLoopTree.isMemberName 2 = true := by
  have hn : memberInLoopTree.isUsedLater 0 1 = false := by decide +kernel
  have hv : memberInLoopTree.kind 2 = .reference 1 := by decide
  have hs : memberInLoopTree.isShown 5 memberInLoop = true := by decide +kernel
  have hrun : Executes (.list [memberInLoop]) ([.begun 6, .begun 5, .begun 4, .begun 0] ++
      .ended 0 :: [.begun 3, .begun 1, .ended 1, .begun 2]) (some .cut) := executes_memberInLoop
  exact ⟨hn, hv, Tree.isMemberName_of_begun (Tree.shows_of_isShown hs) hrun hn (by decide) hv⟩

end Order

end Codegen
