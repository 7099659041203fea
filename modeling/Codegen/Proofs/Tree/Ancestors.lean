import Codegen.Proofs.Tree.Linked
import Codegen.Proofs.Ways

/-!
# The nodes above a node

A tree has no cycles if no node is above itself. Edits keep this as long as no node is put below
itself, and there are never more nodes above one than nodes.

* `Tree.Under`, `Tree.Acyclic`: the links to parents;
* `Linked.mem_ancestors`: **the ancestors of a node are all the nodes above it**;
* `Linked.shallow`: below a node there are no more levels than nodes;
* `Acyclic.remove`, `addChild`, `insertBefore`, `replace`, `splice`: **edits make no cycles**.
-/

namespace Codegen.Tree

open Relation

variable {t t' : Tree} {f f' : NodeId → List NodeId} {a m n p q s : NodeId}

/-- A node is right below another one. -/
def Under (t : Tree) (c p : NodeId) : Prop := t.parent? c = some p

/-- **No node is above itself.** -/
def Acyclic (t : Tree) : Prop := ∀ n, ¬ TransGen t.Under n n

namespace Linked

theorem under (h : Linked t f) : t.Under m p ↔ m ∈ f p := h.parent

theorem under_lt (h : Linked t f) (hm : t.Under m p) : p < t.size := (h.inside (h.under.mp hm)).1

/-! ## Ancestors -/

theorem mem_lineage {fuel : Nat} :
    m ∈ t.lineage fuel (t.parent? n) → TransGen t.Under n m := by
  induction fuel generalizing n with
  | zero => simp [Tree.lineage]
  | succ fuel ih =>
    cases hp : t.parent? n with
    | none => simp [Tree.lineage]
    | some p =>
      rw [Tree.lineage, List.mem_cons]
      rintro (rfl | hm)
      · exact .single hp
      · exact .head hp (ih hm)

theorem mem_lineage_of_above (h : Linked t f) (ha : t.Acyclic) {fuel : Nat}
    (hf : countAbove t.Under t.size n ≤ fuel) (hm : TransGen t.Under n m) :
    m ∈ t.lineage fuel (t.parent? n) := by
  induction fuel generalizing n with
  | zero =>
    obtain ⟨p, hp, -⟩ := TransGen.head'_iff.mp hm
    have := countAbove_lt ha (h.under_lt hp) hp
    omega
  | succ fuel ih =>
    obtain ⟨p, hp, hpm⟩ := TransGen.head'_iff.mp hm
    have hlt := countAbove_lt ha (h.under_lt hp) hp
    have hp' : t.parent? n = some p := hp
    rw [hp', Tree.lineage, List.mem_cons]
    rcases reflTransGen_iff_eq_or_transGen.mp hpm with rfl | hpm
    · exact .inl rfl
    · exact .inr (ih (by omega) hpm)

/-- **The ancestors of a node are all the nodes above it.** -/
theorem mem_ancestors (h : Linked t f) (ha : t.Acyclic) :
    m ∈ t.ancestors n ↔ TransGen t.Under n m :=
  ⟨mem_lineage, h.mem_lineage_of_above ha (countAbove_le.trans (Nat.le_succ _))⟩

end Linked

/-! ## Levels -/

/-- Below a node there are fewer levels than that. -/
def Shallow (t : Tree) : Nat → NodeId → Prop
  | 0, _ => False
  | k + 1, n => ∀ c ∈ t.children n, t.Shallow k c

/-- **Below a node there are no more levels than nodes.** -/
theorem Linked.shallow (h : Linked t f) (ha : t.Acyclic) (n : NodeId) :
    t.Shallow (t.size + 1) n := by
  have acyclic : ∀ c, ¬ TransGen (Function.swap t.Under) c c := fun c hc =>
    ha c (transGen_swap.mp hc)
  have below {k : Nat} :
      ∀ n, countAbove (Function.swap t.Under) t.size n < k → t.Shallow k n := by
    induction k with
    | zero => exact fun n hn => absurd hn (Nat.not_lt_zero _)
    | succ k ih =>
      intro n hn c hc
      rw [h.children] at hc
      have hlt := countAbove_lt acyclic (h.inside hc).2 (h.under.mpr hc)
      exact ih c (by omega)
  exact below n (Nat.lt_succ_of_le countAbove_le)

/-! ## Edits -/

namespace Acyclic

theorem of_lists (h : t.Acyclic) (hl : Linked t f) (hl' : Linked t' f') {M T : NodeId → Prop}
    (hr : ∀ c q, c ∈ f' q → c ∈ f q ∨ M c ∧ T q)
    (ht : ∀ m q, M m → T q → ¬ ReflTransGen t.Under q m) : t'.Acyclic :=
  acyclic_of_attached h (fun c q hc => (hr c q (hl'.under.mp hc)).imp_left hl.under.mpr) ht

theorem not_inside_parent (hl : Linked t f) (ha : ¬ TransGen t.Under a m) (hq : a ∈ f q) :
    ¬ ReflTransGen t.Under q m := fun hqm => ha (.head' (hl.under.mpr hq) hqm)

theorem congr (h : t.Acyclic) (hp : ∀ m, t'.parent? m = t.parent? m) : t'.Acyclic := by
  have hunder : t'.Under = t.Under := funext₂ fun m p => by rw [Under, Under, hp]
  rw [Acyclic, hunder]
  exact h

theorem remove (h : t.Acyclic) (hl : Linked t f) (n : NodeId) : (t.remove n).Acyclic :=
  h.of_lists hl (hl.remove n) (M := fun _ => False) (T := fun _ => True)
    (fun _ _ hc => .inl (List.mem_of_mem_erase hc)) fun _ _ hm => hm.elim

theorem addChild (h : t.Acyclic) (hl : Linked t f) (hp : p < t.size) (hn : n < t.size)
    (hpn : ¬ ReflTransGen t.Under p n) : (t.addChild p n).Acyclic := by
  refine h.of_lists hl (hl.addChild hp hn) (M := (· = n)) (T := (· = p)) (fun c q hc => ?_) ?_
  · exact mem_of_withLast hc
  · rintro _ _ rfl rfl
    exact hpn

theorem insertBefore (h : t.Acyclic) (hl : Linked t f) (hne : a ≠ n) (ha : a < t.size)
    (hn : n < t.size) (han : ¬ TransGen t.Under a n) : (t.insertBefore a n).Acyclic := by
  refine h.of_lists hl (hl.insertBefore hne ha hn) (M := (· = n)) (T := (a ∈ f ·))
    (fun c q hc => ?_) ?_
  · rcases mem_inPlaceOf.mp hc with ⟨hc, -⟩ | ⟨ha, hc⟩
    · exact .inl (List.mem_of_mem_erase hc)
    · rcases List.mem_pair.mp hc with rfl | rfl
      · exact .inr ⟨rfl, List.mem_of_mem_erase ha⟩
      · exact .inl (List.mem_of_mem_erase ha)
  · rintro _ q rfl hq
    exact not_inside_parent hl han hq

theorem replace (h : t.Acyclic) (hl : Linked t f) (hne : a ≠ n) (ha : a < t.size)
    (hn : n < t.size) (han : ¬ TransGen t.Under a n) : (t.replace a n).Acyclic := by
  refine h.of_lists hl (hl.replace hne ha hn) (M := (· = n)) (T := (a ∈ f ·))
    (fun c q hc => ?_) ?_
  · rcases mem_inPlaceOf.mp hc with ⟨hc, -⟩ | ⟨ha, hc⟩
    · exact .inl (List.mem_of_mem_erase hc)
    · exact .inr ⟨List.mem_singleton.mp hc, List.mem_of_mem_erase ha⟩
  · rintro _ q rfl hq
    exact not_inside_parent hl han hq

theorem splice (h : t.Acyclic) (hl : Linked t f) (hn : n < t.size)
    (hs : ∀ c ∈ f s, c ≠ n ∧ ¬ TransGen t.Under n c) : (t.splice n s).Acyclic := by
  refine h.of_lists hl (hl.splice (fun hm => (hs n hm).1 rfl) hn) (M := (· ∈ f s)) (T := (n ∈ f ·))
    (fun c q hc => ?_) fun c q hc hq => not_inside_parent hl (hs c hc).2 hq
  split at hc
  · simp at hc
  · rcases mem_inPlaceOf.mp hc with ⟨hc, -⟩ | ⟨hn, hc⟩
    · exact .inl hc
    · exact .inr ⟨hc, hn⟩

end Acyclic

end Codegen.Tree
