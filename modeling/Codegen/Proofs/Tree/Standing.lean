import Codegen.Proofs.Lowering.Parts
import Codegen.Proofs.Tree.Shape
import Codegen.Tree.Branch

/-!
# Trees during the lowering

Lowering changes the tree that it reads: a condition that compares nothing gets a comparison with
zero put above it. So the tree shows the shape of the body but for those comparisons.

* `Standing`: **what a tree shows of a shape while its conditions are lowered**;
* `Standing.comparedWithZero`: a comparison with zero keeps it;
* `Standing.enclosingLoop`, `Standing.branches`, ...: how the tree is read;
* `Standing.formatOf_eq`: types do not change.
-/

namespace Codegen

open Shape

/-- **What a tree shows of a shape while its conditions are lowered.** A node of the shape is below
its parent, or a comparison stands in its place, which compares it with zero. The nodes of the
shape were made before those comparisons. -/
structure Standing (W : Shape) (base : Nat) (t : Tree) (f : NodeId → List NodeId)
    (seat : NodeId → NodeId) : Prop where
  forest : Tree.Forest t f
  older : base ≤ t.size
  made : ∀ {pl path s}, W.In pl path s → s.id < base
  kind : ∀ {pl path s}, W.In pl path s → t.kind s.id = s.kind
  parts : ∀ {pl path s}, W.In pl path s → f s.id = s.parts.map fun c => seat c.id
  seated : ∀ {pl path s}, W.In pl path s → seat s.id = s.id ∨
    pl = .condition ∧ s.kind.isTruth = true ∧ base ≤ seat s.id ∧
      t.kind (seat s.id) = .operator .notEquals ∧ ∃ z, f (seat s.id) = [s.id, z] ∧
        ∃ format, t.kind z = zeroOf format
  root : t.parent? W.id = none

/-- A tree shows a shape but for comparisons with zero. -/
def Stands (W : Shape) (base : Nat) (t : Tree) : Prop := ∃ f seat, Standing W base t f seat

/-- A type depends on the construct and, for a few of them, on the types of the first child and of
the last one. -/
theorem Tree.typeWithin_congr {t t' : Tree} {n : NodeId} {fuel fuel' : Nat} (symbols : SymbolTable)
    (hk : t.kind n = t'.kind n) (hf : t.first? n = t'.first? n) (hl : t.last? n = t'.last? n)
    (h : (∃ o, t.kind n = .operator o) ∨ t.kind n = .parenthesis ∨ t.kind n = .link →
      ∀ c, t.first? n = some c ∨ t.last? n = some c →
        t.typeWithin symbols fuel c = t'.typeWithin symbols fuel' c) :
    t.typeWithin symbols (fuel + 1) n = t'.typeWithin symbols (fuel' + 1) n := by
  simp only [Tree.typeWithin, ← hk, ← hf, ← hl]
  split
  case h_3 o hk =>
    have h := h (.inl ⟨o, hk⟩)
    cases hh : t.first? n <;> cases hl : t.last? n
    all_goals
      simp only
      try rw [h _ (.inl hh)]
      try rw [h _ (.inr hl)]
  case h_4 hk =>
    cases hl : t.last? n with
    | none => rfl
    | some c => exact h (.inr (.inl hk)) c (.inr hl)
  case h_5 hk =>
    cases hl : t.last? n with
    | none => rfl
    | some c => exact h (.inr (.inr hk)) c (.inr hl)
  all_goals rfl

namespace Standing

variable {W s s' c : Shape} {base : Nat} {t : Tree} {f : NodeId → List NodeId}
variable {seat : NodeId → NodeId} {pl pl' : Place} {path path' ss : List Shape}

theorem of_shows (h : t.Shows W) : Stands W t.size t := by
  obtain ⟨f, hf, hW⟩ := h.links
  have made {pl path s} (hs : W.In pl path s) : s.id < t.size := by
    cases hs with
    | root => exact h.made
    | @part _ _ _ p _ hp hc =>
      refine (hf.inside (p := p.id) ?_).2
      rw [(hW _ _ _ hp).2]
      exact List.mem_map_of_mem (mem_parts hc)
  exact ⟨f, fun n => n, hf, Nat.le_refl _, made, fun hs => (hW _ _ _ hs).1,
    fun hs => (hW _ _ _ hs).2, fun _ => .inl rfl, h.root⟩

variable (h : Standing W base t f seat)
include h

/-! ### Places in the tree -/

theorem seat_mem (hs : W.In pl path s) (hc : c ∈ s.parts) : seat c.id ∈ f s.id := by
  rw [h.parts hs]
  exact List.mem_map_of_mem hc

theorem seat_of_ne (hs : W.In pl path s) (hp : pl ≠ .condition) : seat s.id = s.id :=
  (h.seated hs).resolve_right fun hc => hp hc.1

theorem inj {c c' : Place × Shape} (hs : W.In pl path s) (hc : c ∈ s.places pl)
    (hc' : c' ∈ s.places pl) (he : c.2.id = c'.2.id) : c = c' := by
  have hd := h.forest.distinct s.id
  rw [h.parts hs, ← map_places s pl, List.map_map] at hd
  exact List.inj_on_of_nodup_map hd hc hc' (by simp [he])

/-- **A node of the shape is at one place.** -/
theorem unique (hs : W.In pl path s) (hs' : W.In pl' path' s') (he : s.id = s'.id) :
    pl = pl' ∧ path = path' ∧ s = s' := by
  have hroot {q : NodeId} : seat W.id ∉ f q := by
    rw [h.seat_of_ne .root (by simp), ← h.forest.parent, h.root]
    simp
  induction hs generalizing pl' path' s' with
  | root =>
    cases hs' with
    | root => exact ⟨rfl, rfl, rfl⟩
    | part hp' hc' => exact absurd (he ▸ h.seat_mem hp' (mem_parts hc')) hroot
  | part hp hc ih =>
    cases hs' with
    | root => exact absurd (he ▸ h.seat_mem hp (mem_parts hc)) hroot
    | part hp' hc' =>
      have hm := h.seat_mem hp (mem_parts hc)
      have hm' := h.seat_mem hp' (mem_parts hc')
      rw [← he] at hm'
      obtain ⟨rfl, rfl, rfl⟩ := ih hp' (h.forest.parent_unique hm hm')
      cases h.inj hp hc hc' he
      exact ⟨rfl, rfl, rfl⟩

omit h in
theorem path_shorter (hs : W.In pl path s) (hp : s' ∈ path) :
    ∃ pl' path', W.In pl' path' s' ∧ path'.length < path.length := by
  induction hs with
  | root => simp at hp
  | @part _ _ path p _ hp' _ ih =>
    rcases List.mem_cons.mp hp with rfl | hp
    · exact ⟨_, path, hp', by simp⟩
    · obtain ⟨pl', path', hs', hl⟩ := ih hp
      exact ⟨pl', path', hs', by simp; omega⟩

theorem not_mem_path (hs : W.In pl path s) (hp : s' ∈ path) : s.id ≠ s'.id := by
  intro he
  obtain ⟨pl', path', hs', hl⟩ := path_shorter hs hp
  obtain ⟨-, rfl, -⟩ := h.unique hs hs' he
  exact Nat.lt_irrefl _ hl

/-! ### Reading the tree -/

theorem parts_eq (hs : W.In pl path s) (hv : s.Valued pl) : f s.id = s.parts.map (·.id) := by
  rw [h.parts hs]
  refine List.map_congr_left fun c hc => ?_
  obtain ⟨pl', hc⟩ := exists_place pl hc
  refine h.seat_of_ne (.part hs hc) ?_
  rw [hv.places] at hc
  exact not_condition_of_placesOf hc

/-- The nodes in the scope of a condition: the last one is the condition. -/
theorem scope_eq {cs : List Shape} (hs : W.In .scope path s) (hc : s.parts = cs ++ [c]) :
    f s.id = cs.map (·.id) ++ [seat c.id] := by
  have hplaces := places_scope hc
  rw [h.parts hs, hc, List.map_append, List.map_singleton]
  congr 1
  refine List.map_congr_left fun x hx => ?_
  have hx : (Place.plain, x) ∈ s.places .scope := by simp [hplaces, hx]
  exact h.seat_of_ne (.part hs hx) (by simp)

theorem parent_seat (hs : W.In pl path s) (hc : c ∈ s.parts) :
    t.parent? (seat c.id) = some s.id := h.forest.parent.mpr (h.seat_mem hs hc)

theorem find_lineage (hs : W.In pl path s) {fuel : Nat} {l : NodeId}
    (hl : (t.lineage fuel (t.parent? s.id)).find? (fun m => (t.kind m).isLoop) = some l) :
    ∃ p, path.find? (·.kind.isLoop) = some p ∧ p.id = l := by
  induction hs generalizing fuel with
  | root =>
    rw [h.root] at hl
    cases fuel <;> simp [Tree.lineage] at hl
  | @part pl pl' path p c hp hc ih =>
    have above {fuel : Nat}
        (hl : (t.lineage fuel (some p.id)).find? (fun m => (t.kind m).isLoop) = some l) :
        ∃ q, (p :: path).find? (·.kind.isLoop) = some q ∧ q.id = l := by
      cases fuel with
      | zero => simp [Tree.lineage] at hl
      | succ fuel =>
        rw [Tree.lineage, List.find?_cons, h.kind hp] at hl
        rw [List.find?_cons]
        split at hl
        · exact ⟨p, rfl, by simpa using hl⟩
        · exact ih hl
    have hparent := h.parent_seat hp (mem_parts hc)
    rcases h.seated (.part hp hc) with hseat | ⟨-, -, -, hkind, z, hz, -⟩
    · rw [hseat] at hparent
      exact above (hparent ▸ hl)
    · have hc' : t.parent? c.id = some (seat c.id) := h.forest.parent.mpr (by simp [hz])
      rw [hc'] at hl
      cases fuel with
      | zero => simp [Tree.lineage] at hl
      | succ fuel =>
        rw [Tree.lineage, List.find?_cons, hkind, hparent] at hl
        exact above hl

/-- **The loop around a node is the innermost one of its path.** -/
theorem enclosingLoop (hs : W.In pl path s) {l : NodeId} (hl : t.enclosingLoop? s.id = some l) :
    ∃ p, path.find? (·.kind.isLoop) = some p ∧ p.id = l :=
  h.find_lineage hs hl

theorem next (hs : W.Tail path (s :: ss)) :
    t.next? (seat s.id) = ss.head?.map fun c => seat c.id := by
  cases hs with
  | root =>
    rw [h.seat_of_ne .root (by simp), (h.forest.root h.root).2]
    rfl
  | part hp hb =>
    have hf := h.parts hp
    rw [hb, List.map_append, List.map_cons] at hf
    rw [(h.forest.siblings hf).2, List.head?_map]

/-! ### Constructs -/

theorem chain (htidy : W.Tidy) (hs : W.Tail path (s :: ss)) (he : seat s.id = s.id) {fuel : Nat}
    (hf : ss.length < fuel) :
    t.chain fuel (t.successor? s.id) = (followers s.kind ss).map (·.id) := by
  induction ss generalizing s fuel with
  | nil =>
    have hnext := h.next hs
    rw [he] at hnext
    cases fuel <;> simp [Tree.successor?, hnext, Tree.chain, followers]
  | cons b bs ih =>
    obtain ⟨pl, hin⟩ := hs.head
    have hnext := h.next hs
    rw [he, List.head?_cons, Option.map_some] at hnext
    have hb : W.Tail path (b :: bs) := hs.tail.resolve_left (by simp)
    obtain ⟨pl', hinb⟩ := hb.head
    -- a comparison in the place of a branch does not continue the chain, nor does a condition
    have halt : (t.kind (seat b.id)).isAlternative = b.kind.isAlternative := by
      rcases h.seated hinb with hb | ⟨rfl, -, -, hk, -⟩
      · rw [hb, h.kind hinb]
      · have hb : b.kind.isAlternative = false :=
          Bool.eq_false_iff.mpr fun ha => by simpa using htidy hinb ha
        rw [hk, hb]
        rfl
    cases fuel with
    | zero => simp at hf
    | succ fuel =>
      simp only [Tree.successor?, hnext, h.kind hin, Option.filter_some, halt, followers]
      by_cases hc : s.kind.isConditional = true
      · by_cases ha : b.kind.isAlternative = true
        · have hbe : seat b.id = b.id := by
            refine (h.seated hinb).resolve_right fun hc => ?_
            simpa [hc.1] using htidy hinb ha
          simp only [hc, ha, Bool.and_self, if_true, Tree.chain, hbe, List.map_cons]
          rw [ih hb hbe (by simpa using hf)]
        · simp [hc, ha, Tree.chain]
      · simp [hc, Tree.chain]

/-- **The branches of a chain are its first branch and what follows it.** -/
theorem branches (htidy : W.Tidy) (hs : W.Tail path (s :: ss)) (he : seat s.id = s.id) :
    t.branches s.id = (s :: followers s.kind ss).map (·.id) := by
  have hlength : ss.length < t.size + 1 := by
    cases hs with
    | root => simp
    | @part _ _ p before _ hp hb =>
      have := h.forest.length_le p.id
      rw [h.parts hp, hb] at this
      simp only [List.length_map, List.length_append, List.length_cons] at this
      omega
  rw [Tree.branches, Tree.successors, h.chain htidy hs he hlength, List.map_cons]

theorem conditionScope (hs : W.In .plain path s) :
    t.conditionScope? s.id = s.scope?.map (·.id) := by
  have hparts := h.parts_eq hs (.inl rfl)
  unfold Tree.conditionScope? Tree.child? scope?
  rw [h.kind hs, h.forest.children, hparts]
  split <;> simp [*]

theorem body (hs : W.In .plain path s) : t.body? s.id = s.bodyOn.head?.map (·.id) := by
  have hparts := h.parts_eq hs (.inl rfl)
  unfold Tree.body? Tree.child? bodyOn
  rw [h.kind hs, h.forest.children, hparts]
  split <;> simp_all [List.head?_eq_getElem?]

theorem body_some (hs : W.In .plain path s) {body : NodeId} (hb : t.body? s.id = some body) :
    ∃ b bs, s.bodyOn = b :: bs ∧ body = b.id ∧ W.Tail (s :: path) (b :: bs) ∧
      W.In .plain (s :: path) b := by
  rw [h.body hs, Option.map_eq_some_iff] at hb
  obtain ⟨b, hb, rfl⟩ := hb
  obtain ⟨bs, hbs⟩ := List.head?_eq_some_iff.mp hb
  obtain ⟨before, hparts⟩ := parts_bodyOn s
  exact ⟨b, bs, hbs, rfl, .part hs (hbs ▸ hparts), .part hs (body_place (by simp [hbs]))⟩

theorem condition (hs : W.In .plain path s) {test : NodeId} (hc : t.condition? s.id = some test) :
    ∃ c cs q, s.scope? = some c ∧ c.parts = cs ++ [q] ∧ test = seat q.id := by
  rw [Tree.condition?, h.conditionScope hs] at hc
  cases hscope : s.scope? with
  | none => simp [hscope] at hc
  | some c =>
    have hin : W.In .scope (s :: path) c := .part hs (scope_place hscope)
    simp only [hscope, Option.map_some, Option.bind_some, h.forest.last, h.parts hin] at hc
    rcases List.eq_nil_or_concat c.parts with hnil | ⟨cs, q, hcs⟩
    · simp [hnil] at hc
    · rw [List.concat_eq_append] at hcs
      refine ⟨c, cs, q, rfl, hcs, ?_⟩
      simpa [hcs, eq_comm] using hc

theorem conditionInitialization {cs : List Shape} {q : Shape} (hs : W.In .plain path s)
    (hc : s.scope? = some c) (hq : c.parts = cs ++ [q]) :
    t.conditionInitialization s.id = cs.map (·.id) := by
  have hin : W.In .scope (s :: path) c := .part hs (scope_place hc)
  simp [Tree.conditionInitialization, h.conditionScope hs, hc, h.forest.children,
    h.scope_eq hin hq]

theorem loopInitialization (hs : W.In .plain path s) {c : ContextId}
    (hk : s.kind = .loop c false) :
    t.loopInitialization? s.id = s.parts.head?.map (·.id) := by
  simp [Tree.loopInitialization?, Tree.child?, h.kind hs, hk, h.forest.children,
    h.parts_eq hs (.inl rfl), List.head?_eq_getElem?]

theorem loopAction (hs : W.In .plain path s) {c : ContextId} (hk : s.kind = .loop c false) :
    t.loopAction? s.id = (s.parts.drop 2).head?.map (·.id) := by
  simp [Tree.loopAction?, Tree.child?, h.kind hs, hk, h.forest.children,
    h.parts_eq hs (.inl rfl), List.head?_eq_getElem?]

/-! ### Types -/

theorem path_length (hs : W.In pl path s) : path.length < base := by
  have hd : ((s :: path).map (·.id)).Nodup ∧ (s :: path).map (·.id) ⊆ List.range base := by
    induction hs with
    | root => simpa using h.made .root
    | part hp hc ih =>
      rw [List.map_cons, List.nodup_cons, List.cons_subset, List.mem_range]
      refine ⟨⟨?_, ih.1⟩, h.made (.part hp hc), ih.2⟩
      simp only [List.mem_map, not_exists, not_and]
      exact fun q hq he => h.not_mem_path (.part hp hc) hq he.symm
  simpa [Nat.succ_le_iff] using (hd.1.subperm hd.2).length_le

/-- Trees that show the same shape have the same types. -/
theorem typeWithin_eq {t' : Tree} {f' : NodeId → List NodeId} {seat' : NodeId → NodeId}
    (h' : Standing W base t' f' seat') (symbols : SymbolTable) (hs : W.In pl path s)
    (hv : s.Valued pl) {fuel fuel' : Nat} (hf : base ≤ fuel + path.length)
    (hf' : base ≤ fuel' + path.length) :
    t.typeWithin symbols fuel s.id = t'.typeWithin symbols fuel' s.id := by
  have hlength := h.path_length hs
  induction fuel generalizing fuel' pl path s with
  | zero => omega
  | succ fuel ih =>
    cases fuel' with
    | zero => omega
    | succ fuel' =>
      have operand {c : Shape} (hk : s.scope? = none) (hc : c ∈ s.parts) :
          t.typeWithin symbols fuel c.id = t'.typeWithin symbols fuel' c.id := by
        have hin := hs.operand hv hk hc
        exact ih hin (.inl rfl) (by simp; omega) (by simp; omega) (h.path_length hin)
      refine Tree.typeWithin_congr symbols ((h.kind hs).trans (h'.kind hs).symm)
        (by rw [h.forest.first, h'.forest.first, h.parts_eq hs hv, h'.parts_eq hs hv])
        (by rw [h.forest.last, h'.forest.last, h.parts_eq hs hv, h'.parts_eq hs hv])
        fun hk n hn => ?_
      have hscope : s.scope? = none := by
        rw [h.kind hs] at hk
        rcases hk with ⟨o, hk⟩ | hk | hk <;> simp [scope?, hk]
      have hmem : n ∈ s.parts.map (·.id) := by
        rw [← h.parts_eq hs hv]
        rw [h.forest.first, h.forest.last] at hn
        exact hn.elim List.mem_of_mem_head? List.mem_of_getLast?
      obtain ⟨c, hc, rfl⟩ := List.mem_map.mp hmem
      exact operand hscope hc

theorem formatOf_eq {t' : Tree} {f' : NodeId → List NodeId} {seat' : NodeId → NodeId}
    (h' : Standing W base t' f' seat') (symbols : SymbolTable) (hs : W.In pl path s)
    (hv : s.Valued pl) : t.formatOf symbols s.id = t'.formatOf symbols s.id := by
  have hfuel := h.older
  have hfuel' := h'.older
  have htype : t.typeWithin symbols (t.size + 1) s.id =
      t'.typeWithin symbols (t'.size + 1) s.id :=
    h.typeWithin_eq h' symbols hs hv (by omega) (by omega)
  unfold Tree.formatOf Tree.typeOf
  rw [h.kind hs, h'.kind hs, htype]

/-! ### Comparisons with zero -/

omit h in
theorem comparedWithZero_eq (e : NodeId) (zero : NodeKind) :
    t.comparedWithZero e zero =
      ((((t.createAt zero none).2.createAt (.operator .notEquals) none).2.replace e
        (t.size + 1)).addChild (t.size + 1) e).addChild (t.size + 1) t.size := by
  simp only [Tree.comparedWithZero, Tree.create, Tree.addChildren, List.foldl_cons, List.foldl_nil,
    Tree.fst_createAt, Tree.size_createAt]

omit h in
/-- The comparison stands in the place of the node, above the node and the literal. -/
theorem lists_comparedWithZero (h : Tree.Linked t f) {e : NodeId} (he : e < t.size) :
    Tree.withLast (Tree.withLast (fun q => (f q).map fun m => if m = e then t.size + 1 else m)
      (t.size + 1) e) (t.size + 1) t.size =
      fun q => if q = t.size + 1 then [e, t.size]
        else (f q).map fun m => if m = e then t.size + 1 else m := by
  have hce : t.size + 1 ≠ e := Nat.ne_of_gt (Nat.lt_succ_of_lt he)
  have hze : t.size ≠ e := Nat.ne_of_gt he
  have hm (q : NodeId) : e ∉ (f q).map fun m => if m = e then t.size + 1 else m := by
    simp only [List.mem_map, not_exists, not_and]
    intro m _
    split
    · exact hce
    · assumption
  have hz (q : NodeId) : t.size ∉ (f q).map fun m => if m = e then t.size + 1 else m := by
    simp only [List.mem_map, not_exists, not_and]
    intro m hm
    split
    · simp
    · rintro rfl
      exact Nat.lt_irrefl _ (h.inside hm).2
  funext q
  by_cases hq : q = t.size + 1
  · subst hq
    have hnil : f (t.size + 1) = [] := h.eq_nil (Nat.le_succ _)
    simp [Tree.withLast, hnil, hze.symm]
  · rw [if_neg hq, Tree.withLast, Tree.withLast, Function.update_of_ne hq,
      Function.update_of_ne hq, List.erase_of_not_mem (hm q), List.erase_of_not_mem (hz q)]

omit h in
theorem size_replaced (e : NodeId) (zero : NodeKind) :
    (((t.createAt zero none).2.createAt (.operator .notEquals) none).2.replace e
      (t.size + 1)).size = t.size + 2 := by
  rw [((Tree.Relinked.refl _).replace _ _).size]
  simp

omit h in
/-- **The comparison of a node with a literal stands in the place of the node**, which may have no
parent. -/
theorem linked_comparedWithZero (h : Tree.Linked t f) {e : NodeId} (he : e < t.size)
    (zero : NodeKind) :
    Tree.Linked (t.comparedWithZero e zero) fun q =>
      if q = t.size + 1 then [e, t.size]
      else (f q).map fun m => if m = e then t.size + 1 else m := by
  have herase (q : NodeId) : (f q).erase (t.size + 1) = f q :=
    List.erase_of_not_mem fun hm => absurd (h.inside hm).2 (Nat.not_lt.mpr (Nat.le_succ _))
  have h₃ := ((h.createAt zero none).createAt (.operator .notEquals) none).replace
    (a := e) (n := t.size + 1) (Nat.ne_of_lt (Nat.lt_succ_of_lt he))
    (by rw [Tree.size_createAt, Tree.size_createAt]; exact Nat.lt_add_right 2 he) (by simp)
  have hsize := size_replaced (t := t) e zero
  simp only [herase, Tree.inPlaceOf_singleton] at h₃
  rw [comparedWithZero_eq, ← lists_comparedWithZero h he]
  generalize (((t.createAt zero none).2.createAt (.operator .notEquals) none).2.replace e
    (t.size + 1)) = t₃ at h₃ hsize
  have hc : t.size + 1 < t₃.size := hsize ▸ Nat.lt_succ_self _
  have h₄ := h₃.addChild hc (Nat.lt_trans (Nat.lt_succ_of_lt he) hc)
  rw [← ((Tree.Relinked.refl t₃).addChild (t.size + 1) e).size] at hc
  exact h₄.addChild hc (Nat.lt_of_succ_lt hc)

omit h in
theorem forest_comparedWithZero (h : Tree.Forest t f) {p e : NodeId} (he : e ∈ f p)
    (zero : NodeKind) :
    Tree.Forest (t.comparedWithZero e zero) fun q =>
      if q = t.size + 1 then [e, t.size]
      else (f q).map fun m => if m = e then t.size + 1 else m := by
  have hlt : e < t.size := (h.inside he).2
  have h₃ := ((h.createAt zero none).createAt (.operator .notEquals) none).replace he
    (n := t.size + 1) (by simp) fun q hm =>
      absurd (h.inside hm).2 (Nat.not_lt.mpr (Nat.le_succ _))
  have hsize := size_replaced (t := t) e zero
  rw [comparedWithZero_eq, ← lists_comparedWithZero h.linked hlt]
  generalize (((t.createAt zero none).2.createAt (.operator .notEquals) none).2.replace e
    (t.size + 1)) = t₃ at h₃ hsize
  have hc : t.size + 1 < t₃.size := hsize ▸ Nat.lt_succ_self _
  have h₄ := h₃.addChild hc (Nat.lt_trans (Nat.lt_succ_of_lt hlt) hc)
  rw [← ((Tree.Relinked.refl t₃).addChild (t.size + 1) e).size] at hc
  exact h₄.addChild hc (Nat.lt_of_succ_lt hc)

omit h in
/-- The comparison and its literal are new; all other nodes are what they were. -/
theorem kind_comparedWithZero (e : NodeId) (zero : NodeKind) (m : NodeId) :
    (t.comparedWithZero e zero).kind m =
      if m = t.size then zero else if m = t.size + 1 then .operator .notEquals
      else t.kind m := by
  rw [comparedWithZero_eq,
    ((((Tree.Relinked.refl _).replace _ _).addChild _ _).addChild _ _).kind]
  simp only [Tree.kind, Tree.node_createAt, Tree.size_createAt]
  split
  next hm => simp [hm, Node.detached]
  next hm => split <;> rfl

omit h in
theorem size_comparedWithZero (e : NodeId) (zero : NodeKind) :
    (t.comparedWithZero e zero).size = t.size + 2 := by
  rw [comparedWithZero_eq, (((Tree.Relinked.refl _).addChild _ _).addChild _ _).size,
    size_replaced]

/-- **A comparison of a condition with zero keeps what the tree shows.** -/
theorem comparedWithZero (hs : W.In .condition path s) (hk : s.kind.isTruth = true)
    (he : seat s.id = s.id) (format : Format) :
    Standing W base (t.comparedWithZero s.id (zeroOf format))
      (fun q => if q = t.size + 1 then [s.id, t.size]
        else (f q).map fun m => if m = s.id then t.size + 1 else m)
      fun n => if n = s.id then t.size + 1 else seat n := by
  have old {pl path c} (hc : W.In pl path c) : c.id < t.size :=
    Nat.lt_of_lt_of_le (h.made hc) h.older
  have hkind {m : NodeId} (hm : m < t.size) :
      (t.comparedWithZero s.id (zeroOf format)).kind m = t.kind m := by
    rw [kind_comparedWithZero, if_neg (Nat.ne_of_lt hm),
      if_neg (Nat.ne_of_lt (Nat.lt_succ_of_lt hm))]
  obtain ⟨pl, path', p, hp, hsp⟩ : ∃ pl path' p, W.In pl path' p ∧ s.id ∈ f p.id := by
    cases hs with
    | part hp hc => exact ⟨_, _, _, hp, he ▸ h.seat_mem hp (mem_parts hc)⟩
  have hseat {pl path c} (hc : W.In pl path c) : seat c.id = s.id ↔ c.id = s.id := by
    refine ⟨fun heq => ?_, fun heq => heq ▸ he⟩
    rcases h.seated hc with hc | ⟨-, -, hge, -⟩
    · exact hc.symm.trans heq
    · exact absurd (heq ▸ h.made hs) (Nat.not_lt.mpr hge)
  have hforest := forest_comparedWithZero h.forest hsp (zeroOf format)
  refine ⟨hforest, ?_, h.made, fun hc => (hkind (old hc)).trans (h.kind hc), ?_, ?_, ?_⟩
  · rw [size_comparedWithZero]
    exact Nat.le_add_right_of_le h.older
  · intro pl path c hc
    rw [if_neg (Nat.ne_of_lt (Nat.lt_succ_of_lt (old hc))), h.parts hc, List.map_map]
    refine List.map_congr_left fun x hx => ?_
    obtain ⟨pl', hx⟩ := exists_place pl hx
    simp only [Function.comp_apply, hseat (.part hc hx)]
  · intro pl path c hc
    by_cases hcs : c.id = s.id
    · obtain ⟨rfl, -, rfl⟩ := h.unique hc hs hcs
      refine .inr ⟨rfl, hk, ?_, ?_, t.size, ?_, format, ?_⟩
      · rw [if_pos rfl]
        exact Nat.le_succ_of_le h.older
      · simp [kind_comparedWithZero]
      · simp
      · simp [kind_comparedWithZero]
    · rw [if_neg hcs]
      refine (h.seated hc).imp_right fun ⟨hpl, htruth, hge, hx, z, hz, format', hzero⟩ => ?_
      have hin {m : NodeId} (hm : m ∈ f (seat c.id)) := h.forest.inside hm
      have hx' := (hin (m := z) (by simp [hz])).1
      have hzs : z ≠ s.id := by
        rintro rfl
        have := h.forest.parent_unique (q := p.id) (p := seat c.id) (by simp [hz]) hsp
        exact absurd (this ▸ h.made hp) (Nat.not_lt.mpr hge)
      refine ⟨hpl, htruth, hge, (hkind hx').trans hx, z, ?_, format', ?_⟩
      · rw [if_neg (Nat.ne_of_lt (Nat.lt_succ_of_lt hx')), hz]
        simp [hcs, hzs]
      · rw [hkind (hin (m := z) (by simp [hz])).2, hzero]
  · rw [Option.eq_none_iff_forall_ne_some]
    intro q hq
    rw [hforest.parent] at hq
    have hroot : W.id ∉ f q := by
      rw [← h.forest.parent, h.root]
      simp
    have hne : W.id ≠ s.id := fun hc => by simpa using (h.unique .root hs hc).1
    have hold := old .root
    split at hq
    · simp only [List.mem_cons, List.not_mem_nil, or_false] at hq
      exact hq.elim hne (Nat.ne_of_lt hold)
    · obtain ⟨m, hm, hq⟩ := List.mem_map.mp hq
      split at hq
      · exact absurd hq.symm (Nat.ne_of_lt (Nat.lt_succ_of_lt hold))
      · exact hroot (hq ▸ hm)

end Standing

end Codegen
