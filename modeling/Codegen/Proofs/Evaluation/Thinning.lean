import Codegen.Proofs.Evaluation.Verdict

/-!
# Thinning

The passes over operators and branches put nothing below a node that was not below it before, other
than literals. And what is below a node stays there as long as the node stays in the body, unless
one of the two is an operator or a branch that may be exchanged. This does not depend on the parts
that branches have.

* `NodeKind.isExchanged`, `NodeKind.Turns`: which nodes are exchanged, and what branches turn into;
* `Tree.Thinned`: **what the passes leave of a tree**, as seen from a root;
* `Thinned.trans`, `Thinned.openings_le`: one step after another;
* `Sound.thinned_replaceByNumber`, `thinned_replace`: the steps of operators;
* `Tree.Shed`: a tree that some branches were taken out of;
* `Shed.spliced`, `promoted`, `demoted`: the steps of branches behind that.
-/

namespace Codegen

open Relation

namespace NodeKind

/-- May the passes exchange nodes of the construct? -/
def isExchanged : NodeKind → Bool
  | operator o => o.isComparison || o.isLogical
  | k => k.isBranch

/-- What the construct of a node may turn into. -/
inductive Turns : NodeKind → NodeKind → Prop
  | same (k : NodeKind) : Turns k k
  | promoted (c : ContextId) : Turns (elseIf c) (ifBranch c)
  | demoted (c : ContextId) : Turns (elseIf c) (otherwise c)

variable {k k' k'' : NodeKind}

theorem Turns.trans (h : Turns k k') (h' : Turns k' k'') : Turns k k'' := by
  cases h with
  | same => exact h'
  | promoted =>
    cases h'
    exact .promoted _
  | demoted =>
    cases h'
    exact .demoted _

theorem Turns.isExchanged_eq (h : Turns k k') : k'.isExchanged = k.isExchanged := by
  cases h <;> rfl

theorem Turns.eq_of_isExchanged (h : Turns k k') (hk : k.isExchanged = false) : k' = k := by
  cases h with
  | same => rfl
  | promoted | demoted => cases hk

theorem Turns.isNumber (h : Turns k k') (hk : k.isNumber = true) : k'.isNumber = true := by
  cases h with
  | same => exact hk
  | promoted | demoted => cases hk

theorem Turns.isOpen (h : Turns k k') (hk : k'.isOpen = true) : k.isOpen = true := by
  cases h with
  | same => exact hk
  | promoted | demoted => rfl

theorem isExchanged_of_isConditional (h : k.isConditional = true) : k.isExchanged = true := by
  cases k <;> simp_all [isConditional, isExchanged, isBranch]

theorem isExchanged_of_isAlternative (h : k.isAlternative = true) : k.isExchanged = true := by
  cases k <;> simp_all [isAlternative, isExchanged, isBranch]

end NodeKind

namespace Tree

variable {i m n q : NodeId} {s t t' t'' : Tree} {v : Word}

/-! ## What is left of a tree -/

theorem ne_of_isExchanged (hn : (t.kind n).isExchanged = true)
    (hm : (t.kind m).isExchanged = false) : m ≠ n := by
  rintro rfl
  rw [hn] at hm
  cases hm

/-- How many nodes below a root may be simplified. -/
def openings (t : Tree) (i : NodeId) : Nat := (t.findAll i NodeKind.isOpen).length

/-- **What the passes over operators and branches leave of a tree**, as seen from a root. Nothing is
below a node that was not, other than literals. What is below a node stays there, unless one of the
two may be exchanged, or the upper one is taken out. -/
structure Thinned (i : NodeId) (t t' : Tree) : Prop where
  size : t.size ≤ t'.size
  kind : ∀ n < t.size, (t.kind n).Turns (t'.kind n)
  made : ∀ n < t'.size, t.size ≤ n → (t'.kind n).isNumber = true
  under : ∀ {m q}, t'.Under m q → ∃ m₀, TransGen t.Under m₀ q ∧ (m₀ = m ∨ t.size ≤ m)
  firm : ∀ {m q}, t.Under m q → (t.kind m).isExchanged = false →
    (t.kind q).isExchanged = false → ReflTransGen t'.Under q i → t'.Under m q

namespace Thinned

theorem refl (i : NodeId) (t : Tree) : Thinned i t t where
  size := Nat.le_refl _
  kind _ _ := .same _
  made _ hlt hn := absurd hlt (Nat.not_lt.mpr hn)
  under hm := ⟨_, .single hm, .inl rfl⟩
  firm hm _ _ _ := hm

/-- Nodes are only taken out or turned into others. -/
theorem of_under (hsize : t'.size = t.size) (hk : ∀ n, (t.kind n).Turns (t'.kind n))
    (hu : ∀ m q, t'.Under m q → t.Under m q)
    (hf : ∀ m q, t.Under m q → (t.kind m).isExchanged = false →
      (t.kind q).isExchanged = false → t'.Under m q) : Thinned i t t' where
  size := hsize.ge
  kind n _ := hk n
  made _ hlt hn := absurd (hsize ▸ hlt) (Nat.not_lt.mpr hn)
  under hm := ⟨_, .single (hu _ _ hm), .inl rfl⟩
  firm hm h₁ h₂ _ := hf _ _ hm h₁ h₂

theorem below (h : Thinned i t t') (ht : t.Sound) (hm : TransGen t'.Under m q) :
    ∃ m₀, TransGen t.Under m₀ q ∧ (m₀ = m ∨ t.size ≤ m) := by
  induction hm using TransGen.head_induction_on with
  | single hm => exact h.under hm
  | @head m b hmb _ ih =>
    obtain ⟨m₀, hm₀, hm⟩ := h.under hmb
    obtain ⟨b₀, hb₀, hb⟩ := ih
    -- nothing is below a literal
    obtain ⟨c, -, hc⟩ := TransGen.tail'_iff.mp hm₀
    obtain rfl := hb.resolve_right (Nat.not_le.mpr (ht.linked.under_lt hc))
    exact ⟨m₀, hm₀.trans hb₀, hm⟩

theorem below_old (h : Thinned i t t') (ht : t.Sound) (hlt : m < t.size)
    (hm : TransGen t'.Under m q) : TransGen t.Under m q := by
  obtain ⟨m₀, hm₀, rfl | hnew⟩ := h.below ht hm
  · exact hm₀
  · exact absurd hlt (Nat.not_lt.mpr hnew)

theorem trans (h : Thinned i t t') (h' : Thinned i t' t'') (ht : t.Sound) (ht' : t'.Sound) :
    Thinned i t t'' where
  size := Nat.le_trans h.size h'.size
  kind n hn := (h.kind n hn).trans (h'.kind n (Nat.lt_of_lt_of_le hn h.size))
  made n hlt hn := by
    by_cases hn' : n < t'.size
    · exact (h'.kind n hn').isNumber (h.made n hn' hn)
    · exact h'.made n hlt (Nat.le_of_not_lt hn')
  under hm := by
    obtain ⟨m₁, hm₁, hm⟩ := h'.under hm
    obtain ⟨m₀, hm₀, hm₁⟩ := h.below ht hm₁
    refine ⟨m₀, hm₀, ?_⟩
    rcases hm with rfl | hm
    · exact hm₁
    · exact .inr (Nat.le_trans h.size hm)
  firm {m q} hm hkm hkq hq := by
    obtain ⟨hlt, hlt'⟩ := ht.linked.inside (ht.linked.under.mp hm)
    have hq' : ReflTransGen t'.Under q i := by
      rcases reflTransGen_iff_eq_or_transGen.mp hq with rfl | hq
      · exact .refl
      · exact (h'.below_old ht' (Nat.lt_of_lt_of_le hlt h.size) hq).to_reflTransGen
    exact h'.firm (h.firm hm hkm hkq hq') ((h.kind m hlt').isExchanged_eq.trans hkm)
      ((h.kind q hlt).isExchanged_eq.trans hkq) hq

/-- **What is below a node stays there** if neither of the two may be exchanged nor anything in
between. -/
theorem stays (h : Thinned i t t') (hm : TransGen t.Under m n)
    (hn : (t.kind n).isExchanged = false)
    (hfirm : ∀ q, TransGen t.Under q n → ReflTransGen t.Under m q →
      (t.kind q).isExchanged = false) (hi : ReflTransGen t'.Under n i) :
    TransGen t'.Under m n := by
  induction hm using TransGen.head_induction_on with
  | single hm => exact .single (h.firm hm (hfirm _ (.single hm) .refl) hn hi)
  | @head m q hmq hqn ih =>
    have hq := ih fun r hr hqr => hfirm r hr (.head hmq hqr)
    exact .head (h.firm hmq (hfirm m (.head hmq hqn) .refl) (hfirm q hqn (.single hmq))
      (hq.to_reflTransGen.trans hi)) hq

/-! ### What may be simplified -/

theorem mem_findAll (h : Thinned i t t') (ht : t.Sound) (ht' : t'.Sound)
    (hn : n ∈ t'.findAll i NodeKind.isOpen) : n ∈ t.findAll i NodeKind.isOpen := by
  obtain ⟨hbelow, hk⟩ := ht'.mem_findAll.mp hn
  by_cases hlt : n < t.size
  · exact ht.mem_findAll.mpr ⟨h.below_old ht hlt hbelow, (h.kind n hlt).isOpen hk⟩
  · have hnumber := h.made n (ht'.below_lt hbelow) (Nat.le_of_not_lt hlt)
    cases hkind : t'.kind n <;> simp_all [NodeKind.isNumber, NodeKind.isOpen,
      NodeKind.isReducible, NodeKind.isConditional]

theorem openings_le (h : Thinned i t t') (ht : t.Sound) (ht' : t'.Sound) :
    t'.openings i ≤ t.openings i :=
  (((ht'.nodup_descendants i).filter _).subperm fun _ hn => h.mem_findAll ht ht' hn).length_le

/-- **There is less to simplify** if a node may not be simplified any more. -/
theorem openings_lt (h : Thinned i t t') (ht : t.Sound) (ht' : t'.Sound)
    (hn : n ∈ t.findAll i NodeKind.isOpen) (hn' : n ∉ t'.findAll i NodeKind.isOpen) :
    t'.openings i < t.openings i := by
  have hnodup : (n :: t'.findAll i NodeKind.isOpen).Nodup :=
    List.nodup_cons.mpr ⟨hn', (ht'.nodup_descendants i).filter _⟩
  refine (hnodup.subperm fun m hm => ?_).length_le
  rcases List.mem_cons.mp hm with rfl | hm
  · exact hn
  · exact h.mem_findAll ht ht' hm

end Thinned

theorem Sound.not_mem_findAll (h : t.Sound) {p : NodeKind → Bool} (hn : t.parent? n = none) :
    n ∉ t.findAll i p := fun hm => by
  obtain ⟨q, hq, -⟩ := TransGen.head'_iff.mp (h.mem_findAll.mp hm).1
  rw [Under, hn] at hq
  cases hq

/-! ## Operators -/

/-- **A literal in the place of a node.** -/
theorem Sound.thinned_replaceByNumber (h : t.Sound) (hn : n < t.size)
    (hk : (t.kind n).isExchanged = true) :
    Thinned i t (t.replaceByNumber n v) ∧ (t.replaceByNumber n v).parent? n = none := by
  obtain ⟨hsound, hlists⟩ := h.replaceByNumber (v := v) hn
  have hunder {m q : NodeId} : (t.replaceByNumber n v).Under m q ↔
      ∃ c, t.Under c q ∧ (if c = n then t.size else c) = m := by
    simp only [hsound.linked.under, hlists, List.mem_map, h.linked.under]
  refine ⟨⟨?_, fun m hm => ?_, fun m hlt hm => ?_, fun {m q} hm => ?_,
    fun {m q} hm hkm _ _ => ?_⟩, ?_⟩
  · exact size_replaceByNumber ▸ Nat.le_succ _
  · rw [kind_replaceByNumber, if_neg (Nat.ne_of_lt hm)]
    exact .same _
  · rw [size_replaceByNumber] at hlt
    rw [kind_replaceByNumber, if_pos (Nat.le_antisymm (Nat.le_of_lt_succ hlt) hm)]
    rfl
  · obtain ⟨c, hc, rfl⟩ := hunder.mp hm
    split
    · exact ⟨c, .single hc, .inr (Nat.le_refl _)⟩
    · exact ⟨c, .single hc, .inl rfl⟩
  · exact hunder.mpr ⟨m, hm, if_neg (ne_of_isExchanged hk hkm)⟩
  · rw [Option.eq_none_iff_forall_ne_some]
    intro q hq
    obtain ⟨c, -, hc⟩ := hunder.mp hq
    split at hc
    · exact Nat.ne_of_gt hn hc
    · contradiction

/-- **A child in the place of its parent.** -/
theorem Sound.thinned_replace (h : t.Sound) (ho : t.Under m n)
    (hk : (t.kind n).isExchanged = true) : (t.replace n m).Sound ∧
    Thinned i t (t.replace n m) ∧ (t.replace n m).parent? n = none := by
  obtain ⟨hn, hm⟩ := h.linked.inside (h.linked.under.mp ho)
  have hne : n ≠ m := by
    rintro rfl
    exact h.acyclic n (.single ho)
  have hrel := (Relinked.refl t).replace n m
  have hacyclic := h.acyclic.replace h.linked hne hn hm fun hc => h.acyclic m (.head ho hc)
  refine ⟨(h.linked.replace hne hn hm).sound hacyclic,
    ⟨hrel.size.ge, fun c _ => hrel.kind c ▸ .same _, fun c hlt hc => ?_, fun {c q} hc => ?_,
      fun {c q} hc hkc hkq _ => ?_⟩, ?_⟩
  · exact absurd (hrel.size ▸ hlt) (Nat.not_lt.mpr hc)
  · rcases (h.under_replace hne hn hm).mp hc with ⟨-, -, hcq⟩ | ⟨rfl, hnq⟩
    · exact ⟨c, .single hcq, .inl rfl⟩
    · exact ⟨c, .head ho (.single hnq), .inl rfl⟩
  · refine (h.under_replace hne hn hm).mpr (.inl ⟨ne_of_isExchanged hk hkc, ?_, hc⟩)
    rintro rfl
    exact ne_of_isExchanged hk hkq (Option.some.inj (hc.symm.trans ho))
  · rw [Option.eq_none_iff_forall_ne_some]
    intro q hq
    rcases (h.under_replace hne hn hm).mp hq with ⟨hnn, -⟩ | ⟨he, -⟩
    · exact hnn rfl
    · exact hne he

/-! ## Branches -/

/-- **A tree that some nodes were taken out of that may be exchanged.** Nodes that are next to each
other were below the same node. -/
structure Shed (s t : Tree) : Prop where
  sound : t.Sound
  links : Relinked s t
  under : ∀ {m q}, t.Under m q → s.Under m q
  firm : ∀ {m q}, s.Under m q → (s.kind m).isExchanged = false → t.Under m q
  next : ∀ {a b}, t.next? a = some b → s.parent? a = s.parent? b

namespace Shed

theorem refl (h : t.Sound) : Shed t t := ⟨h, .refl t, id, fun hm _ => hm, h.linked.parent_eq⟩

theorem remove (h : Shed s t) (hk : (s.kind n).isExchanged = true) : Shed s (t.remove n) where
  sound := h.sound.remove n
  links := h.links.remove n
  under hm := h.under (h.sound.under_remove.mp hm).2
  firm hm hkm := h.sound.under_remove.mpr ⟨ne_of_isExchanged hk hkm, h.firm hm hkm⟩
  next {a b} hab := by
    rw [(h.sound.linked.unlinked_remove n).next] at hab
    split at hab
    · cases hab
    · split at hab
      next ha => exact (h.next (h.sound.linked.neighbours.mpr ha)).trans (h.next hab)
      next => exact h.next hab

theorem removeAll {ns : List NodeId} (h : Shed s t)
    (hns : ∀ n ∈ ns, (s.kind n).isExchanged = true) : Shed s (ns.foldl Tree.remove t) := by
  induction ns generalizing t with
  | nil => exact h
  | cons n ns ih =>
    rw [List.forall_mem_cons] at hns
    exact ih (h.remove hns.1) hns.2

theorem thinned (h : Shed s t) : Thinned i s t :=
  .of_under h.links.size (fun n => h.links.kind n ▸ .same _) (fun _ _ => h.under)
    fun _ _ hm hkm _ => h.firm hm hkm

theorem below (h : Shed s t) (hm : TransGen t.Under m q) : TransGen s.Under m q :=
  TransGen.mono (fun _ _ hc => h.under hc) m q hm

/-- **The statements of a body in the place of a branch.** The body is that of the branch, or of one
that was next to it and is taken out. -/
theorem spliced {body : NodeId} (h : Shed s t) (hs : s.Sound) (hn : TransGen s.Under n i)
    (hk : (s.kind n).isExchanged = true) (hb : t.Under body m)
    (hm : ∀ q, s.Under n q → s.Under m q) (hout : m = n ∨ t.parent? m = none) :
    (t.splice n body).Sound ∧ Thinned i s (t.splice n body) ∧
      (t.splice n body).parent? n = none := by
  have hlt : n < t.size := h.links.size ▸ hs.below_lt hn
  -- what is above the branch is above the body as well
  obtain ⟨r, hr, hri⟩ := TransGen.head'_iff.mp hn
  have hmi : TransGen s.Under m i := .head' (hm r hr) hri
  have hbody {q : NodeId} (hq : TransGen s.Under n q) : TransGen s.Under body q := by
    obtain ⟨r, hr, hq⟩ := TransGen.head'_iff.mp hq
    exact .head (h.under hb) (.head' (hm r hr) hq)
  have hnot {c : NodeId} (hc : ReflTransGen s.Under c body) : ¬ TransGen s.Under n c := fun hq =>
    hs.acyclic body (TransGen.trans_left (hbody hq) hc)
  have hnb : ¬ t.Under n body := fun hq => hnot .refl (.single (h.under hq))
  have hclear (c : NodeId) (hc : c ∈ t.children body) : c ≠ n ∧ ¬ TransGen t.Under n c := by
    have hc := h.sound.linked.under.mpr hc
    refine ⟨?_, fun hq => hnot (.single (h.under hc)) (h.below hq)⟩
    rintro rfl
    exact hnb hc
  have hunder {c q : NodeId} := h.sound.under_splice (m := c) (i := q) hnb hlt
  -- the body is taken out with the branch that it belongs to
  have hgone : ¬ ReflTransGen (t.splice n body).Under body i := fun hbi => by
    rcases ReflTransGen.cases_head hbi with rfl | ⟨q, hq, hqi⟩
    · exact hs.acyclic _ (.head (h.under hb) hmi)
    obtain rfl : m = q := by
      rcases (hunder.mp hq).2 with ⟨-, hq⟩ | ⟨-, hq⟩
      · exact Option.some.inj (hb.symm.trans hq)
      · exact absurd (.single (h.under hq)) (hs.acyclic body)
    rcases ReflTransGen.cases_head hqi with rfl | ⟨x, hx, -⟩
    · exact hs.acyclic _ hmi
    rcases (hunder.mp hx).2 with ⟨hmn, hx⟩ | ⟨-, hx⟩
    · rw [Under, hout.resolve_left hmn] at hx
      cases hx
    · exact hs.acyclic _ (.head (h.under hb) (.single (h.under hx)))
  have hrel := h.links.splice n body
  refine ⟨(h.sound.linked.splice (fun hc => (hclear n hc).1 rfl) hlt).sound
    (h.sound.acyclic.splice h.sound.linked hlt hclear), ⟨hrel.size.ge, ?_, ?_, ?_, ?_⟩, ?_⟩
  · exact fun c _ => hrel.kind c ▸ .same _
  · exact fun c hlt hc => absurd (hrel.size ▸ hlt) (Nat.not_lt.mpr hc)
  · intro c q hc
    refine ⟨c, ?_, .inl rfl⟩
    rcases (hunder.mp hc).2 with ⟨-, hc⟩ | ⟨hnq, hc⟩
    · exact .single (h.under hc)
    · exact .head (h.under hc) (hbody (.single (h.under hnq)))
  · intro c q hc hkc hkq hq
    refine hunder.mpr ⟨?_, .inl ⟨ne_of_isExchanged hk hkc, h.firm hc hkc⟩⟩
    rintro rfl
    exact hgone hq
  · rw [Option.eq_none_iff_forall_ne_some]
    intro q hq
    rcases (hunder.mp hq).2 with ⟨hnn, -⟩ | ⟨-, hq⟩
    · exact hnn rfl
    · exact hnb hq

/-- **The branch behind one that is taken out begins the chain.** -/
theorem promoted {c : ContextId} (h : Shed s t) (hk : (s.kind n).isExchanged = true)
    (hm : s.kind m = .elseIf c) : ((t.setKind m (.ifBranch c)).remove n).Sound ∧
    Thinned i s ((t.setKind m (.ifBranch c)).remove n) ∧
      ((t.setKind m (.ifBranch c)).remove n).parent? n = none := by
  have hturned := h.sound.setKind m (.ifBranch c)
  have hrel := (Relinked.refl (t.setKind m (.ifBranch c))).remove n
  have hsize : (t.setKind m (.ifBranch c)).size = t.size := by simp [Tree.setKind]
  refine ⟨hturned.remove n, .of_under (hrel.size.trans (hsize.trans h.links.size)) (fun q => ?_)
    (fun q r hq => ?_) (fun q r hq hkq _ => ?_), ?_⟩
  · rw [hrel.kind, kind_setKind, h.links.kind]
    split
    next hq =>
      rw [hq.1, hm]
      exact .promoted c
    next => exact .same _
  · exact h.under (under_setKind.mp (hturned.under_remove.mp hq).2)
  · exact hturned.under_remove.mpr
      ⟨ne_of_isExchanged hk hkq, under_setKind.mpr (h.firm hq hkq)⟩
  · rw [(hturned.linked.unlinked_remove n).parent, if_pos rfl]

/-- **A branch without its condition.** -/
theorem demoted {c : ContextId} {j? : Option NodeId} (h : Shed s t) (hk : s.kind n = .elseIf c)
    (hj : ∀ j, j? = some j → t.Under j n) :
    ((j?.elim t t.remove).setKind n (.otherwise c)).Sound ∧
      Thinned i s ((j?.elim t t.remove).setKind n (.otherwise c)) ∧
      ((j?.elim t t.remove).setKind n (.otherwise c)).kind n = .otherwise c := by
  obtain ⟨hsound, hrel, hunder, hfirm⟩ : (j?.elim t t.remove).Sound ∧
      Relinked s (j?.elim t t.remove) ∧
      (∀ m q, (j?.elim t t.remove).Under m q → s.Under m q) ∧
      ∀ m q, s.Under m q → (s.kind m).isExchanged = false → (s.kind q).isExchanged = false →
        (j?.elim t t.remove).Under m q := by
    cases j? with
    | none => exact ⟨h.sound, h.links, fun _ _ => h.under, fun _ _ hm hkm _ => h.firm hm hkm⟩
    | some j =>
      refine ⟨h.sound.remove j, h.links.remove j,
        fun m q hm => h.under (h.sound.under_remove.mp hm).2, fun m q hm hkm hkq => ?_⟩
      refine h.sound.under_remove.mpr ⟨?_, h.firm hm hkm⟩
      rintro rfl
      have hkn : (s.kind n).isExchanged = true := by rw [hk]; rfl
      exact ne_of_isExchanged hkn hkq (Option.some.inj (hm.symm.trans (h.under (hj m rfl))))
  generalize j?.elim t t.remove = u at hsound hrel hunder hfirm
  have hsize : (u.setKind n (.otherwise c)).size = u.size := by simp [Tree.setKind]
  refine ⟨hsound.setKind n _, .of_under (hsize.trans hrel.size) (fun q => ?_)
    (fun q r hq => hunder q r (under_setKind.mp hq))
    fun q r hq hkq hkr => under_setKind.mpr (hfirm q r hq hkq hkr), ?_⟩
  · rw [kind_setKind, hrel.kind]
    split
    next hq =>
      rw [hq.1, hk]
      exact .demoted c
    next => exact .same _
  · have hlt : n < u.size := by
      by_contra hn
      rw [← hrel.kind, kind, node_of_size_le (Nat.le_of_not_lt hn)] at hk
      cases hk
    rw [kind_setKind, if_pos ⟨rfl, hlt⟩]

end Shed

end Tree

end Codegen
