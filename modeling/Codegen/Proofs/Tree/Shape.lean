import Codegen.Proofs.Tree.Forest

/-!
# The shape of a function body

The body of a function as a rose tree. Each part has a place: a branch or a loop with a condition
has a scope that ends with the condition, and a condition may be made of conditions.

* `Shape`: a node with the parts below it;
* `Shape.In`: the parts of a shape, with their places and the parts around them;
* `Shape.followers`, `Shape.bodyOn`, ...: the parts of constructs;
* `Tree.Shows`: **a tree shows a shape**.
-/

namespace Codegen

/-- A node, its construct and the parts below it. -/
inductive Shape
  | node (id : NodeId) (kind : NodeKind) (parts : List Shape)

/-- Does a condition of this kind hand the question on to the nodes below it? -/
def NodeKind.isConnective : NodeKind → Bool
  | operator o => o.isLogical
  | parenthesis => true
  | _ => false

/-- Is a condition of this kind a comparison? -/
def NodeKind.isComparison : NodeKind → Bool
  | operator o => o.isComparison
  | _ => false

/-- Is a condition of this kind compared with zero? -/
def NodeKind.isTruth (k : NodeKind) : Bool := !k.isConnective && !k.isComparison

/-- Is the construct a statement? The others have values. -/
def NodeKind.isStatement : NodeKind → Bool
  | scope _ | ifBranch _ | elseIf _ | otherwise _ | loop .. | control _ | ret => true
  | _ => false

/-- What a part is for the node above it. -/
inductive Place
  | plain
  /-- The scope of a condition, which ends with the condition. -/
  | scope
  | condition
deriving DecidableEq

namespace Shape

/-- The number of the node. -/
def id : Shape → NodeId
  | node i _ _ => i

/-- The construct. -/
def kind : Shape → NodeKind
  | node _ k _ => k

/-- The parts right below. -/
def parts : Shape → List Shape
  | node _ _ cs => cs

/-- The parts of a branch or a loop: one of them is the scope of the condition. -/
def placesOf : NodeKind → List Shape → List (Place × Shape)
  | .ifBranch _, c :: rest | .elseIf _, c :: rest => (.scope, c) :: rest.map (.plain, ·)
  | .loop _ false, i :: c :: rest => (.plain, i) :: (.scope, c) :: rest.map (.plain, ·)
  | _, cs => cs.map (.plain, ·)

/-- The parts right below, with their places. -/
def places (s : Shape) : Place → List (Place × Shape)
  | .plain => placesOf s.kind s.parts
  | .scope => s.parts.dropLast.map (.plain, ·) ++ s.parts.getLast?.toList.map (.condition, ·)
  | .condition =>
    if s.kind.isConnective then s.parts.map (.condition, ·) else placesOf s.kind s.parts

theorem map_placesOf (k : NodeKind) (cs : List Shape) : (placesOf k cs).map (·.2) = cs := by
  unfold placesOf
  split <;> simp [Function.comp_def]

theorem map_places (s : Shape) (pl : Place) : (s.places pl).map (·.2) = s.parts := by
  unfold places
  split
  · exact map_placesOf _ _
  · rcases List.eq_nil_or_concat s.parts with h | ⟨as, a, h⟩ <;> simp [h, Function.comp_def]
  · split
    · simp [Function.comp_def]
    · exact map_placesOf _ _

theorem not_condition_of_placesOf {k : NodeKind} {cs : List Shape} {c : Place × Shape}
    (h : c ∈ placesOf k cs) : c.1 ≠ .condition := by
  unfold placesOf at h
  split at h <;> (simp at h; grind)

/-- The parts of a shape, with their places and the parts around them, the innermost first. -/
inductive In (W : Shape) : Place → List Shape → Shape → Prop
  | root : In W .plain [] W
  | part {pl pl' : Place} {path : List Shape} {s c : Shape} (h : In W pl path s)
      (hc : (pl', c) ∈ s.places pl) : In W pl' (s :: path) c

/-- Neither conditions nor the scopes that hold them continue chains of branches. -/
def Tidy (W : Shape) : Prop :=
  ∀ {pl : Place} {path : List Shape} {c : Shape}, In W pl path c → c.kind.isAlternative = true →
    pl = .plain

/-- The parts from one on, among those right below one node. -/
inductive Tail (W : Shape) : List Shape → List Shape → Prop
  | root : Tail W [] [W]
  | part {pl : Place} {path : List Shape} {s : Shape} {before after : List Shape}
      (h : In W pl path s) (hb : s.parts = before ++ after) : Tail W (s :: path) after

theorem places_scope {s c : Shape} {cs : List Shape} (h : s.parts = cs ++ [c]) :
    s.places .scope = cs.map (.plain, ·) ++ [(.condition, c)] := by
  simp [places, h]

/-- Can the part have a value at its place? A condition has one only if it is compared. -/
def Valued (s : Shape) (pl : Place) : Prop :=
  pl = .plain ∨ pl = .condition ∧ s.kind.isConnective = false

theorem mem_parts {s c : Shape} {pl pl' : Place} (h : (pl', c) ∈ s.places pl) :
    c ∈ s.parts := by
  rw [← map_places s pl]
  exact List.mem_map_of_mem h

theorem exists_place {s c : Shape} (pl : Place) (h : c ∈ s.parts) :
    ∃ pl', (pl', c) ∈ s.places pl := by
  rw [← map_places s pl] at h
  obtain ⟨⟨pl', c'⟩, hc, rfl⟩ := List.mem_map.mp h
  exact ⟨pl', hc⟩

/-- The scope that holds a condition. -/
def scope? (s : Shape) : Option Shape :=
  match s.kind with
  | .ifBranch _ | .elseIf _ => s.parts[0]?
  | .loop _ false => s.parts[1]?
  | _ => none

/-- The parts from the body of a branch or a loop on. -/
def bodyOn (s : Shape) : List Shape :=
  match s.kind with
  | .ifBranch _ | .elseIf _ => s.parts.drop 1
  | .otherwise _ | .loop _ true => s.parts
  | .loop _ false => s.parts.drop 3
  | _ => []

/-- The later branches of a chain, among the parts that follow a branch. -/
def followers (k : NodeKind) : List Shape → List Shape
  | [] => []
  | b :: bs => if k.isConditional && b.kind.isAlternative then b :: followers b.kind bs else []

theorem followers_sublist (k : NodeKind) (ss : List Shape) : (followers k ss).Sublist ss := by
  induction ss generalizing k with
  | nil => exact .slnil
  | cons b bs ih =>
    rw [followers]
    split
    · exact (ih _).cons_cons _
    · exact List.nil_sublist _

theorem followers_alternative {k : NodeKind} {ss : List Shape} {b : Shape}
    (hb : b ∈ followers k ss) : b.kind.isAlternative = true := by
  induction ss generalizing k with
  | nil => simp [followers] at hb
  | cons c cs ih =>
    rw [followers] at hb
    split at hb
    next hc =>
      rcases List.mem_cons.mp hb with rfl | hb
      · exact (Bool.and_eq_true_iff.mp hc).2
      · exact ih hb
    · simp at hb

theorem parts_bodyOn (s : Shape) : ∃ before, s.parts = before ++ s.bodyOn := by
  unfold bodyOn
  split
  case h_1 | h_2 => exact ⟨_, (List.take_append_drop 1 _).symm⟩
  case h_3 | h_4 => exact ⟨[], rfl⟩
  case h_5 => exact ⟨_, (List.take_append_drop 3 _).symm⟩
  case h_6 => exact ⟨s.parts, by simp⟩

theorem body_place {s b : Shape} (h : b ∈ s.bodyOn) : (.plain, b) ∈ s.places .plain := by
  rcases s with ⟨i, k, _ | ⟨a, _ | ⟨c, rest⟩⟩⟩
  all_goals
    simp only [bodyOn, kind, parts] at h
    simp only [places, kind, parts, placesOf]
    split at h <;> grind

theorem scope_place {s c : Shape} (h : s.scope? = some c) : (.scope, c) ∈ s.places .plain := by
  rcases s with ⟨i, k, _ | ⟨a, _ | ⟨b, rest⟩⟩⟩
  all_goals
    simp only [scope?, kind, parts] at h
    simp only [places, kind, parts, placesOf]
    split at h <;> simp_all

variable {W : Shape} {path : List Shape}

theorem Valued.places {s : Shape} {pl : Place} (h : s.Valued pl) :
    s.places pl = placesOf s.kind s.parts := by
  rcases h with rfl | ⟨rfl, hk⟩
  · rfl
  · simp [Shape.places, hk]

theorem In.operand {s c : Shape} {pl : Place} (h : In W pl path s) (hv : s.Valued pl)
    (hk : s.scope? = none) (hc : c ∈ s.parts) : In W .plain (s :: path) c := by
  refine .part h ?_
  rw [hv.places]
  rcases s with ⟨i, k, _ | ⟨a, _ | ⟨b, rest⟩⟩⟩
  all_goals
    simp only [scope?, kind, parts] at hk hc
    simp only [kind, parts, placesOf]
    split at hk <;> simp_all

theorem In.dropped {s : Shape} {pl : Place} (h : In W pl path s) (n : Nat) :
    Tail W (s :: path) (s.parts.drop n) :=
  .part h (List.take_append_drop n _).symm

theorem In.initialization {s a : Shape} {c : ContextId} (h : In W .plain path s)
    (hk : s.kind = .loop c false) (ha : s.parts.head? = some a) :
    In W .plain (s :: path) a := by
  refine .part h ?_
  rcases s with ⟨i, k, _ | ⟨x, _ | ⟨y, rest⟩⟩⟩
  all_goals
    simp only [kind] at hk
    subst hk
    simp_all [places, placesOf, kind, parts]

theorem In.action {s a : Shape} {c : ContextId} (h : In W .plain path s)
    (hk : s.kind = .loop c false) (ha : (s.parts.drop 2).head? = some a) :
    In W .plain (s :: path) a := by
  refine .part h ?_
  rcases s with ⟨i, k, _ | ⟨x, _ | ⟨y, rest⟩⟩⟩
  all_goals
    simp only [kind] at hk
    subst hk
    simp_all [places, placesOf, kind, parts]
  exact .inr (List.mem_of_mem_head? ha)

theorem In.tail {s : Shape} {pl : Place} (h : In W pl path s) : ∃ ss, Tail W path (s :: ss) := by
  cases h with
  | root => exact ⟨[], .root⟩
  | part h hc =>
    obtain ⟨before, after, hb⟩ := List.append_of_mem (mem_parts hc)
    exact ⟨after, .part h hb⟩

theorem Tail.tail {s : Shape} {ss : List Shape} (h : Tail W path (s :: ss)) :
    ss = [] ∨ Tail W path ss := by
  cases h with
  | root => exact .inl rfl
  | part h hb => exact .inr (.part h (hb.trans (List.append_cons _ _ _)))

theorem Tail.of_mem {s : Shape} {ss : List Shape} (h : Tail W path ss) (hs : s ∈ ss) :
    ∃ pl, In W pl path s := by
  cases h with
  | root =>
    obtain rfl := List.mem_singleton.mp hs
    exact ⟨_, .root⟩
  | part h hb =>
    obtain ⟨pl', hc⟩ := exists_place _ (hb ▸ List.mem_append_right _ hs)
    exact ⟨pl', .part h hc⟩

theorem Tail.head {s : Shape} {ss : List Shape} (h : Tail W path (s :: ss)) :
    ∃ pl, In W pl path s :=
  h.of_mem List.mem_cons_self

theorem Tail.follower {s b : Shape} {ss : List Shape} (ht : W.Tidy) (h : Tail W path (s :: ss))
    (hb : b ∈ followers s.kind ss) : In W .plain path b := by
  obtain ⟨pl, hin⟩ := h.of_mem (List.mem_cons_of_mem _ ((followers_sublist _ _).subset hb))
  exact ht hin (followers_alternative hb) ▸ hin

/-! ## Expressions and statements -/

/-- **Expressions contain no statements.** Neither do returned values and conditions, and the
statements before a condition are in a scope with it. -/
structure Layered (W : Shape) : Prop where
  operand : ∀ {pl : Place} {path : List Shape} {p c : Shape}, In W pl (p :: path) c →
    p.kind.isStatement = false ∨ p.kind = .ret → c.kind.isStatement = false
  condition : ∀ {path : List Shape} {c : Shape}, In W .condition path c →
    c.kind.isStatement = false
  scope : ∀ {path : List Shape} {c : Shape}, In W .scope path c → ∃ k, c.kind = .scope k

theorem isStatement_of_isAlternative {k : NodeKind} (h : k.isAlternative = true) :
    k.isStatement = true := by
  cases k <;> simp_all [NodeKind.isAlternative, NodeKind.isStatement]

theorem Layered.tidy (h : W.Layered) : W.Tidy := by
  intro pl path c hc ha
  cases pl with
  | plain => rfl
  | scope =>
    obtain ⟨k, hk⟩ := h.scope hc
    simp [hk, NodeKind.isAlternative] at ha
  | condition => simpa [isStatement_of_isAlternative ha] using h.condition hc

end Shape

/-- **The tree shows the shape**: its links are consistent, and the shape is what is at its root. -/
structure Tree.Shows (t : Tree) (W : Shape) : Prop where
  links : ∃ f, Forest t f ∧ ∀ pl path s, W.In pl path s →
    t.kind s.id = s.kind ∧ f s.id = s.parts.map (·.id)
  made : W.id < t.size
  root : t.parent? W.id = none

end Codegen
