import Mathlib
import Codegen.Proofs.Ways
import Codegen.Symbol.Table

/-!
# Forests of contexts

Contexts are linked twice: each knows its parent, and each knows its children. The links are a
forest if both agree, no child is listed twice, and no context is above itself. A part of a forest
can be taken out, put below another context, or dissolved into another context.

* `Links`, `SymbolTable.links`: the links between contexts;
* `Links.Inside`: a context is another one or somewhere below it;
* `Links.Forest`: **the links are a forest**;
* `Links.detach`, `attach`, `dissolve`: the changes of the links;
* `Forest.detach`, `attach`, `dissolve`: **the links stay a forest**;
* `Links.Ascent`, `Forest.enclosing_ascent`: the way up ends at a context without a parent.
-/

namespace Codegen

/-- The links between contexts. -/
@[ext] structure Links where
  parent? : ContextId → Option ContextId
  children : ContextId → List ContextId

/-- The links of a table. -/
def SymbolTable.links (t : SymbolTable) : Links where
  parent? c := t.contexts[c]?.bind (·.parent?)
  children c := t.contexts[c]?.elim [] (·.children)

namespace Links

variable {l l' : Links} {a b c d p : ContextId} {cs : List ContextId}

/-- A context is right below another one. -/
def Under (l : Links) (c p : ContextId) : Prop := l.parent? c = some p

/-- A context is another one, or somewhere below it. -/
abbrev Inside (l : Links) : ContextId → ContextId → Prop := Relation.ReflTransGen l.Under

/-- A context is somewhere below another one. -/
abbrev Below (l : Links) : ContextId → ContextId → Prop := Relation.TransGen l.Under

/-- **The links are a forest.** -/
structure Forest (l : Links) : Prop where
  /-- A context is a child of its parent, and of no other one. -/
  mem_children : ∀ c p, c ∈ l.children p ↔ l.parent? c = some p
  nodup : ∀ p, (l.children p).Nodup
  /-- No context is below itself. -/
  acyclic : ∀ c, ¬ l.Below c c

/-- A context is taken from its parent. -/
def detach (l : Links) (c : ContextId) : Links where
  parent? d := if d = c then none else l.parent? d
  children p := (l.children p).filter (· != c)

/-- A context becomes the last child of another one. -/
def attach (l : Links) (c p : ContextId) : Links where
  parent? d := if d = c then some p else l.parent? d
  children q := (l.children q).filter (· != c) ++ if q = p then [c] else []

/-- The children of a context become children of another one, and it is taken from its parent. -/
def dissolve (l : Links) (c other : ContextId) : Links where
  parent? d := if d = other then none else if l.parent? d = some other then some c else l.parent? d
  children q :=
    if q = other then []
    else (l.children q ++ if q = c then l.children other else []).filter (· != other)

@[simp] theorem parent?_detach (l : Links) (c d : ContextId) :
    (l.detach c).parent? d = if d = c then none else l.parent? d := rfl

@[simp] theorem children_detach (l : Links) (c p : ContextId) :
    (l.detach c).children p = (l.children p).filter (· != c) := rfl

@[simp] theorem parent?_attach (l : Links) (c p d : ContextId) :
    (l.attach c p).parent? d = if d = c then some p else l.parent? d := rfl

@[simp] theorem children_attach (l : Links) (c p q : ContextId) :
    (l.attach c p).children q =
      (l.children q).filter (· != c) ++ if q = p then [c] else [] := rfl

@[simp] theorem parent?_dissolve (l : Links) (c other d : ContextId) :
    (l.dissolve c other).parent? d =
      if d = other then none else if l.parent? d = some other then some c else l.parent? d := rfl

@[simp] theorem children_dissolve (l : Links) (c other q : ContextId) :
    (l.dissolve c other).children q =
      if q = other then []
      else (l.children q ++ if q = c then l.children other else []).filter (· != other) := rfl

/-! ## Moving a part of a forest -/

namespace Forest

theorem ne_of_under (h : l.Forest) (hc : l.Under c p) : c ≠ p := by
  rintro rfl
  exact h.acyclic c (.single hc)

theorem not_inside_parent (hc : ¬ l.Inside c d) (hp : l.Under c p) : ¬ l.Inside p d :=
  fun h => hc (.head hp h)

/-- **A context is taken from its parent.** -/
theorem detach (h : l.Forest) (c : ContextId) : (l.detach c).Forest where
  mem_children d p := by
    simp only [parent?_detach, children_detach, List.mem_filter, h.mem_children, bne_iff_ne]
    by_cases hd : d = c <;> simp [hd]
  nodup p := (h.nodup p).filter _
  acyclic := by
    refine acyclic_of_moved h.acyclic (S := fun _ => True) (fun _ _ hs => absurd trivial hs) ?_
    intro d p _ hp
    rw [Under, parent?_detach] at hp
    split at hp
    · cases hp
    · exact .inl hp

/-- **A context is put below one that is not inside it.** -/
theorem attach (h : l.Forest) (hp : ¬ l.Inside p c) : (l.attach c p).Forest where
  mem_children d q := by
    simp only [parent?_attach, children_attach, List.mem_append, List.mem_filter, h.mem_children,
      bne_iff_ne]
    by_cases hd : d = c
    · by_cases hq : q = p
      · simp [hd, hq]
      · simp [hd, hq, Ne.symm hq]
    · by_cases hq : q = p <;> simp [hd, hq]
  nodup q := by
    rw [children_attach]
    split
    · refine List.nodup_append.mpr ⟨(h.nodup q).filter _, List.nodup_singleton c, ?_⟩
      rintro d hd _ hc rfl
      obtain rfl := List.mem_singleton.mp hc
      simp at hd
    · simpa using (h.nodup q).filter _
  acyclic := by
    refine acyclic_of_attached h.acyclic (M := (· = c)) (T := (· = p)) (fun d q hq => ?_) ?_
    · rw [Under, parent?_attach] at hq
      split at hq
      next hd => exact .inr ⟨hd, (Option.some.inj hq).symm⟩
      next => exact .inl hq
    · rintro _ _ rfl rfl
      exact hp

theorem mem_children_dissolve (h : l.Forest) (hc : ¬ l.Inside c d) (x q : ContextId) :
    x ∈ (l.dissolve c d).children q ↔ (l.dissolve c d).parent? x = some q := by
  have hcd : c ≠ d := by
    rintro rfl
    exact hc .refl
  rw [children_dissolve, parent?_dissolve]
  by_cases hq : q = d
  · subst hq
    by_cases hx : x = q
    · simp [hx]
    · by_cases hxq : l.parent? x = some q <;> simp [hx, hxq, hcd]
  · rw [if_neg hq]
    simp only [List.mem_filter, List.mem_append, bne_iff_ne, h.mem_children]
    by_cases hx : x = d
    · simp [hx]
    · by_cases hqc : q = c
      · by_cases hxd : l.parent? x = some d <;> simp [hx, hqc, hxd, h.mem_children]
      · by_cases hxd : l.parent? x = some d
        · simp [hx, hqc, hxd, Ne.symm hq, Ne.symm hqc]
        · simp [hx, hqc, hxd]

theorem nodup_children_append (h : l.Forest) (hcd : c ≠ d) :
    (l.children c ++ l.children d).Nodup := by
  refine List.nodup_append.mpr ⟨h.nodup c, h.nodup d, ?_⟩
  rintro e hc _ hd rfl
  have hc := (h.mem_children e c).mp hc
  rw [(h.mem_children e d).mp hd] at hc
  exact hcd (Option.some.inj hc).symm

/-- **A context is dissolved into one that is not inside it.** -/
theorem dissolve (h : l.Forest) (hc : ¬ l.Inside c d) : (l.dissolve c d).Forest where
  mem_children := h.mem_children_dissolve hc
  nodup q := by
    rw [children_dissolve]
    split
    · exact List.nodup_nil
    next hq =>
      refine List.Nodup.filter _ ?_
      split
      · exact h.nodup_children_append hq
      · exact (List.append_nil _).symm ▸ h.nodup q
  acyclic := by
    refine acyclic_of_moved h.acyclic (S := (l.Inside · d)) (fun x q hx hq => ?_)
      fun x q _ hq => ?_
    · have hne : x ≠ d := by
        rintro rfl
        exact hx .refl
      have hnot : l.parent? x ≠ some d := fun hp => hx (.single hp)
      rw [Under, parent?_dissolve, if_neg hne, if_neg hnot] at hq
      exact ⟨hq, not_inside_parent hx hq⟩
    · rw [Under, parent?_dissolve] at hq
      split at hq
      · cases hq
      · split at hq
        · cases hq
          exact .inr hc
        · exact .inl hq

end Forest

/-! ## The way up -/

/-- The way from a context up to one without a parent. -/
inductive Ascent (l : Links) : ContextId → List ContextId → Prop
  | root {c : ContextId} (h : l.parent? c = none) : Ascent l c [c]
  | up {c p : ContextId} {cs : List ContextId} (h : l.Under c p) (hp : Ascent l p cs) :
    Ascent l c (c :: cs)

theorem Ascent.mem_iff (h : l.Ascent c cs) : d ∈ cs ↔ l.Inside c d := by
  induction h with
  | root h =>
    rw [List.mem_singleton]
    refine ⟨fun hd => hd ▸ .refl, fun hd => ?_⟩
    rcases Relation.ReflTransGen.cases_head hd with rfl | ⟨q, hq, -⟩
    · rfl
    · rw [Under, h] at hq
      cases hq
  | @up c p cs h _ ih =>
    rw [List.mem_cons, ih]
    constructor
    · rintro (rfl | hd)
      · exact .refl
      · exact .head h hd
    · intro hd
      rcases Relation.ReflTransGen.cases_head hd with rfl | ⟨q, hq, hd⟩
      · exact .inl rfl
      · rw [Under, h] at hq
        obtain rfl := Option.some.inj hq
        exact .inr hd

end Links

namespace SymbolTable

variable {t : SymbolTable} {c d : ContextId} {fuel : Nat}

theorem links_parent (t : SymbolTable) (c : ContextId) :
    t.links.parent? c = t.contexts[c]?.bind (·.parent?) := rfl

theorem links_children (t : SymbolTable) (c : ContextId) :
    t.links.children c = t.contexts[c]?.elim [] (·.children) := rfl

theorem lineage_some (t : SymbolTable) (fuel : Nat) (c : ContextId) :
    t.lineage (fuel + 1) (some c) = c :: t.lineage fuel (t.links.parent? c) := rfl

@[simp] theorem lineage_none (t : SymbolTable) (fuel : Nat) : t.lineage fuel none = [] := by
  cases fuel <;> rfl

theorem inside_of_mem_lineage (h : d ∈ t.lineage fuel (some c)) : t.links.Inside c d := by
  induction fuel generalizing c with
  | zero => cases h
  | succ fuel ih =>
    rw [lineage_some, List.mem_cons] at h
    rcases h with rfl | h
    · exact .refl
    · cases hp : t.links.parent? c with
      | none => simp [hp] at h
      | some p => exact .head hp (ih (by rwa [hp] at h))

theorem lineage_cases (t : SymbolTable) (fuel : Nat) (c : ContextId) :
    t.links.Ascent c (t.lineage fuel (some c)) ∨ (t.lineage fuel (some c)).length = fuel := by
  induction fuel generalizing c with
  | zero => exact .inr rfl
  | succ fuel ih =>
    rw [lineage_some]
    cases hp : t.links.parent? c with
    | none =>
      rw [lineage_none]
      exact .inl (.root hp)
    | some p => exact (ih p).imp (.up hp) fun h => by rw [List.length_cons, h]

variable (hf : t.links.Forest)
include hf

theorem lt_size_of_under {p : ContextId} (h : t.links.Under c p) : p < t.contexts.size := by
  have hc := (hf.mem_children c p).mpr h
  simp only [links] at hc
  cases hp : t.contexts[p]? with
  | none => simp [hp] at hc
  | some x => exact (Array.getElem?_eq_some_iff.mp hp).1

theorem lt_size_of_inside (hc : c < t.contexts.size) (h : t.links.Inside c d) :
    d < t.contexts.size := by
  rcases Relation.ReflTransGen.cases_tail h with rfl | ⟨b, -, hb⟩
  · exact hc
  · exact lt_size_of_under hf hb

theorem nodup_lineage (fuel : Nat) (c : ContextId) : (t.lineage fuel (some c)).Nodup := by
  induction fuel generalizing c with
  | zero => exact List.nodup_nil
  | succ fuel ih =>
    rw [lineage_some]
    cases hp : t.links.parent? c with
    | none => simp
    | some p =>
      exact List.nodup_cons.mpr
        ⟨fun hc => hf.acyclic c (.head' hp (inside_of_mem_lineage hc)), ih p⟩

/-- **The way up ends.** The contexts around a context of a forest are all of them. -/
theorem enclosing_ascent (hc : c < t.contexts.size) :
    ∃ cs, t.enclosing c = .ok cs ∧ t.links.Ascent c cs := by
  refine ⟨t.lineage (t.contexts.size + 1) (some c), ?_, ?_⟩
  · rw [enclosing, context, Array.getElem?_eq_getElem hc]
    rfl
  · refine (lineage_cases t _ c).resolve_right fun hlen => ?_
    have hsub : t.lineage (t.contexts.size + 1) (some c) ⊆ List.range t.contexts.size :=
      fun d hd => List.mem_range.mpr (lt_size_of_inside hf hc (inside_of_mem_lineage hd))
    have hle := (List.subperm_of_subset (nodup_lineage hf _ c) hsub).length_le
    rw [hlen, List.length_range] at hle
    exact Nat.not_succ_le_self _ hle

omit hf in
theorem lt_size_of_enclosing {cs : List ContextId} (h : t.enclosing c = .ok cs) :
    c < t.contexts.size := by
  by_contra hc
  rw [enclosing, context, Array.getElem?_eq_none (Nat.le_of_not_lt hc)] at h
  cases h

theorem isInside_eq (hc : c < t.contexts.size) {b : Bool} (h : t.isInside c d = .ok b) :
    b = true ↔ t.links.Inside c d := by
  rw [isInside] at h
  split at h
  next heq =>
    cases h
    exact ⟨fun _ => heq ▸ .refl, fun _ => rfl⟩
  next =>
    obtain ⟨cs, hcs, ha⟩ := enclosing_ascent hf hc
    rw [hcs] at h
    cases h
    rw [← ha.mem_iff, List.contains_iff_mem]

end SymbolTable

end Codegen
