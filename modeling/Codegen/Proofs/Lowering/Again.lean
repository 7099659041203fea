import Codegen.Proofs.Control.Steps
import Codegen.Proofs.Lowering.ShortCircuit

/-!
# Conditions that are lowered again

A loop lowers its condition twice: before the first round and after each round. The first lowering
completes the condition in the tree, by a comparison with zero in the place of each value that is
asked for alone. A completed condition has nothing to complete, so the second lowering finds the
same comparisons and leaves the tree as it is. Only the labels between operands are new ones.

* `Shape.Completed`: **the condition that the first lowering makes of a condition**;
* `Tree.Exchanged`: a tree has the completed condition in the place of the condition, and nothing
  else in it changed;
* `Shape.Spells`: the steps of a completed condition, with the labels numbered from one on;
* `Generating.completes`: the first lowering completes a condition and takes the steps of that;
* `Generating.spells_takes`: a completed condition is lowered to its steps, in the same tree;
* `Generating.conditionSteps_again`: **the second lowering takes the steps of the first one**, but
  for new labels.
-/

namespace Codegen

open Generating
open Shape (node Rewrites ids subs mem_subs mem_subs_of_parts mem_subs_of_mem subs_sublist ids_part
  mem_ids id_mem_ids ids_nil ids_cons ids_append id_node parts_node)

/-! ## Completed conditions -/

/-- **The second condition is the first one, completed**: a value that is asked for alone is
compared with the zero of its format. Operands between the first and the last one are not asked. -/
inductive Shape.Completed (F : NodeId → Except Fault Format) : Shape → Shape → Prop
  | logical {i : NodeId} {o : Operator} {a a' b b' : Shape} {ms : List Shape}
      (ho : o.isLogical = true) (ha : Completed F a a') (hb : Completed F b b') :
      Completed F (node i (.operator o) (a :: (ms ++ [b])))
        (node i (.operator o) (a' :: (ms ++ [b'])))
  | comparison {i : NodeId} {o : Operator} {cs : List Shape} (ho : o.isComparison = true) :
      Completed F (node i (.operator o) cs) (node i (.operator o) cs)
  | inside {i : NodeId} {a a' : Shape} {ms : List Shape} (ha : Completed F a a') :
      Completed F (node i .parenthesis (ms ++ [a])) (node i .parenthesis (ms ++ [a']))
  | nonzero {e : Shape} {i z : NodeId} {g : Format} (he : e.kind.isTruth = true)
      (hg : F e.id = .ok g) :
      Completed F e (node i (.operator .notEquals) [e, node z (zeroOf g) []])

/-- **The steps of a completed condition**, whose labels are numbered from one on up to another
one. -/
inductive Shape.Spells (F : NodeId → Except Fault Format) :
    Shape → Nat → Nat → Nat → List Step → Nat → Prop
  | logical {i : NodeId} {o : Operator} {a b : Shape} {ms : List Shape}
      {success failure next middle last : Nat} {first second : List Step}
      (ho : o.isLogical = true)
      (ha : Spells F a (if o = .and then next else success) (if o = .and then failure else next)
        (next + 1) first middle)
      (hb : Spells F b success failure middle second last) :
      Spells F (node i (.operator o) (a :: (ms ++ [b]))) success failure next
        (first ++ .label next :: second) last
  | comparison {i : NodeId} {o : Operator} {a b : Shape} {ms : List Shape}
      {success failure next : Nat} {c : Comparison} {g h : Format}
      (ho : Comparison.ofOperator? o = some c) (ha : F a.id = .ok g) (hb : F b.id = .ok h) :
      Spells F (node i (.operator o) (a :: (ms ++ [b]))) success failure next
        [.compare a.id b.id,
          .jump success
            (some ⟨c, !(g.isDecimal || h.isDecimal || (g.isUnsigned && h.isUnsigned))⟩),
          .jump failure none] next
  | inside {i : NodeId} {a : Shape} {ms : List Shape} {success failure next last : Nat}
      {steps : List Step} (ha : Spells F a success failure next steps last) :
      Spells F (node i .parenthesis (ms ++ [a])) success failure next steps last

namespace Shape

variable {F F' : NodeId → Except Fault Format} {q q' a b : Shape} {cs : List Shape}
variable {success failure next last : Nat} {steps : List Step}

theorem exists_ends {left right : NodeId} (h1 : (cs.map (·.id)).head? = some left)
    (h2 : (cs.map (·.id)).getLast? = some right) (hne : left ≠ right) :
    ∃ a ms b, cs = a :: (ms ++ [b]) ∧ a.id = left ∧ b.id = right := by
  cases cs with
  | nil => simp at h1
  | cons a cs =>
    rcases List.eq_nil_or_concat cs with rfl | ⟨ms, b, rfl⟩
    · simp only [List.map_cons, List.map_nil, List.head?_cons, List.getLast?_singleton,
        Option.some.injEq] at h1 h2
      exact absurd (h1.symm.trans h2) hne
    · rw [List.concat_eq_append] at h2 ⊢
      rw [← List.cons_append, List.map_append, List.map_singleton, List.getLast?_concat] at h2
      exact ⟨a, ms, b, rfl, Option.some.inj h1, Option.some.inj h2⟩

theorem subs_part {c : Shape} (hc : c ∈ q.parts) : subs [c] ⊆ subs [q] :=
  (subs_sublist (mem_subs_of_parts List.mem_cons_self (mem_subs_of_mem hc))).subset

/-- Formats count in the condition only. -/
theorem Completed.congr (h : q.Completed F q')
    (hF : ∀ u ∈ subs [q], F u.id = F' u.id) : q.Completed F' q' := by
  induction h with
  | logical ho _ _ iha ihb =>
    exact .logical ho (iha fun u hu => hF u (subs_part (by simp) hu))
      (ihb fun u hu => hF u (subs_part (by simp) hu))
  | comparison ho => exact .comparison ho
  | inside _ ih => exact .inside (ih fun u hu => hF u (subs_part (by simp) hu))
  | nonzero he hg => exact .nonzero he ((hF _ (by simp)).symm.trans hg)

theorem Spells.congr (h : q.Spells F success failure next steps last)
    (hF : ∀ u ∈ subs [q], F u.id = F' u.id) : q.Spells F' success failure next steps last := by
  induction h with
  | logical ho _ _ iha ihb =>
    exact .logical ho (iha fun u hu => hF u (subs_part (by simp) hu))
      (ihb fun u hu => hF u (subs_part (by simp) hu))
  | comparison ho ha hb =>
    have hpart {c : Shape} (hc : c ∈ (node _ _ _).parts) := hF c (subs_part hc (by simp))
    exact .comparison ho ((hpart (by simp)).symm.trans ha) ((hpart (by simp)).symm.trans hb)
  | inside _ ih => exact .inside (ih fun u hu => hF u (subs_part (by simp) hu))

end Shape

/-! ## Labels -/

namespace Step

/-- A label below a bound stays; the others are moved up by a distance. -/
def moved (bound distance l : Nat) : Nat := if l < bound then l else l + distance

/-- A step with other labels. -/
def relabel (ρ : Label → Label) : Step → Step
  | compare a b => compare a b
  | jump l test => jump (ρ l) test
  | label l => label (ρ l)

theorem moved_injective (bound distance : Nat) : Function.Injective (moved bound distance) := by
  intro k l h
  unfold moved at h
  split at h <;> split at h <;> omega

theorem moved_of_lt {bound distance l : Nat} (h : l < bound) : moved bound distance l = l :=
  if_pos h

theorem moved_of_le {bound distance l : Nat} (h : bound ≤ l) :
    moved bound distance l = l + distance := if_neg (Nat.not_lt.mpr h)

end Step

open Step in
/-- **The same steps with labels from another number on.** -/
theorem Shape.Spells.relabel {F : NodeId → Except Fault Format} {q : Shape}
    {success failure next last bound : Nat} {steps : List Step} (distance : Nat)
    (h : q.Spells F success failure next steps last) (hb : bound ≤ next) :
    next ≤ last ∧ q.Spells F (moved bound distance success) (moved bound distance failure)
      (next + distance) (steps.map (Step.relabel (moved bound distance))) (last + distance) := by
  induction h with
  | @logical i o a b ms success failure next middle last first second ho _ _ iha ihb =>
    obtain ⟨hmiddle, iha⟩ := iha (Nat.le_succ_of_le hb)
    obtain ⟨hlast, ihb⟩ := ihb (by omega)
    refine ⟨by omega, ?_⟩
    rw [List.map_append, List.map_cons, Step.relabel, moved_of_le hb]
    refine .logical ho ?_ ihb
    rw [Nat.add_right_comm] at iha
    split at iha
    next hand =>
      rw [moved_of_le hb] at iha
      rwa [if_pos hand, if_pos hand]
    next hand =>
      rw [moved_of_le hb] at iha
      rwa [if_neg hand, if_neg hand]
  | comparison ho ha hc => exact ⟨Nat.le_refl _, .comparison ho ha hc⟩
  | inside _ ih => exact ⟨(ih hb).1, .inside (ih hb).2⟩

/-! ## The tree -/

namespace Tree

variable {t t' t₁ t₂ : Tree} {f f' f₁ f₂ : NodeId → List NodeId} {q q' a a' b b' : Shape}

theorem Displays.operands {i : NodeId} {k : NodeKind} {ms : List Shape}
    (hd : Displays t f [Shape.node i k (a :: (ms ++ [b]))]) (hl : Linked t f) :
    t.first? i = some a.id ∧ t.last? i = some b.id ∧ a.id ≠ b.id := by
  have hc : f i = a.id :: (ms.map (·.id) ++ [b.id]) := by
    simpa using (hd _ (mem_subs_of_mem List.mem_cons_self)).2
  have hdistinct := hl.distinct i
  rw [hc, List.nodup_cons] at hdistinct
  refine ⟨by rw [hl.first, hc]; rfl, ?_, fun he => hdistinct.1 (by simp [he])⟩
  rw [hl.last, hc, ← List.cons_append, List.getLast?_concat]

/-- **The second condition is in the place of the first one, and nothing else in the tree changed.**
What is new is in the second condition. -/
structure Exchanged (q q' : Shape) (t t' : Tree) (f f' : NodeId → List NodeId) : Prop where
  linked : Linked t' f'
  displays : Displays t' f' [q']
  size : t.size ≤ t'.size
  kind : ∀ i < t.size, t'.kind i = t.kind i
  position : ∀ i < t.size, t'.position? i = t.position? i
  lists : ∀ i < t.size, i ∉ ids [q] → f' i = (f i).map fun m => if m = q.id then q'.id else m
  new : ∀ i, i ∈ ids [q'] ↔ i ∈ ids [q] ∨ t.size ≤ i ∧ i < t'.size

namespace Exchanged

theorem refl (hl : Linked t f) (hd : Displays t f [q]) : Exchanged q q t t f f where
  linked := hl
  displays := hd
  size := Nat.le_refl _
  kind _ _ := rfl
  position _ _ := rfl
  lists i _ _ := by
    refine ((List.map_congr_left fun m _ => ?_).trans (List.map_id _)).symm
    split <;> simp_all
  new i := by
    exact ⟨.inl, fun h => h.resolve_right fun hi => Nat.not_lt.mpr hi.1 hi.2⟩

theorem amended (h : Exchanged q q' t t' f f') : Amended q t t' f f' where
  linked := h.linked
  size := h.size
  kind := h.kind
  lists i hi hiq hq := by
    rw [h.lists i hi hiq]
    refine (List.map_congr_left fun m hm => if_neg ?_).trans (List.map_id _)
    rintro rfl
    exact hq hm

theorem made (h : Exchanged q q' t t' f f') (hm : ∀ i ∈ ids [q], i < t.size) {i : NodeId}
    (hi : i ∈ ids [q']) : i < t'.size :=
  ((h.new i).mp hi).elim (fun hi => Nat.lt_of_lt_of_le (hm i hi) h.size) (·.2)

theorem trans (h₁ : Exchanged q a t t₁ f f₁) (h₂ : Exchanged a q' t₁ t₂ f₁ f₂)
    (he : a.id = q.id) : Exchanged q q' t t₂ f f₂ where
  linked := h₂.linked
  displays := h₂.displays
  size := Nat.le_trans h₁.size h₂.size
  kind i hi := (h₂.kind i (Nat.lt_of_lt_of_le hi h₁.size)).trans (h₁.kind i hi)
  position i hi := (h₂.position i (Nat.lt_of_lt_of_le hi h₁.size)).trans (h₁.position i hi)
  lists i hi hiq := by
    have hia : i ∉ ids [a] := fun hia =>
      ((h₁.new i).mp hia).elim hiq fun hge => Nat.not_le.mpr hi hge.1
    rw [h₂.lists i (Nat.lt_of_lt_of_le hi h₁.size) hia, h₁.lists i hi hiq, he, List.map_map]
    refine List.map_congr_left fun m _ => ?_
    by_cases hm : m = q.id <;> simp [hm]
  new i := by
    have hle := h₁.size
    have hle' := h₂.size
    rw [h₂.new, h₁.new, or_assoc]
    refine or_congr_right ⟨?_, fun hi => ?_⟩
    · rintro (hi | hi)
      · exact ⟨hi.1, Nat.lt_of_lt_of_le hi.2 hle'⟩
      · exact ⟨Nat.le_trans hle hi.1, hi.2⟩
    · by_cases hlt : i < t₁.size
      · exact .inl ⟨hi.1, hlt⟩
      · exact .inr ⟨Nat.le_of_not_lt hlt, hi.2⟩

/-- **A part of a condition is exchanged.** -/
theorem part {i : NodeId} {k : NodeKind} (as bs : List Shape) (h : Exchanged a a' t t' f f')
    (hl : Linked t f) (hd : Displays t f [Shape.node i k (as ++ a :: bs)]) (hm : i < t.size) :
    Exchanged (Shape.node i k (as ++ a :: bs)) (Shape.node i k (as ++ a' :: bs)) t t' f f' := by
  have hself := mem_subs_of_mem (List.mem_singleton_self (Shape.node i k (as ++ a :: bs)))
  have ha : a ∈ (Shape.node i k (as ++ a :: bs)).parts := by simp
  have hmem : a.id ∈ f i := hd.mem hself ha
  have hda := hd.part ha
  have hbelow : ids [a] ⊆ ids (as ++ a :: bs) := fun j hj => by
    obtain ⟨u, hu, rfl⟩ := mem_ids.mp hj
    exact id_mem_ids (mem_subs.mpr ⟨a, by simp, by simpa using hu⟩)
  have hnot {j : NodeId} (hj : a.id ∈ f j) : j ∉ ids [a] := by
    rw [hl.parent_unique hj hmem]
    exact fun hi => hd.not_below (hbelow hi)
  have hrewrites : Rewrites [a] [a'] (as ++ a :: bs) (as ++ a' :: bs) := by
    simpa using Rewrites.here (U := [a]) (V := [a']) as bs
  refine ⟨h.linked, ?_, h.size, h.kind, h.position, fun j hj hjq => ?_, fun j => ?_⟩
  · refine hd.rewrites hrewrites.single (hd.nodup hl)
      (fun j hj _ => h.kind j (hd.made hl hm hj)) (fun j hj hja hjf => ?_) (fun j ls rs hj => ?_)
      h.displays
    · exact h.amended.lists j (hd.made hl hm hj) hja (hjf a (List.mem_singleton_self a))
    · have hj' : a.id ∈ f j := by simp [hj]
      have hdis := hl.distinct j
      rw [hj] at hdis
      rw [h.lists j (hl.inside hj').1 (hnot hj'), hj]
      simp only [List.map_singleton, List.append_assoc, List.singleton_append] at hdis ⊢
      rw [← inPlaceOf_singleton, inPlaceOf_split hdis, List.append_assoc, List.singleton_append]
  · rw [h.amended.outside hl ha hmem hj hjq]
    refine ((List.map_congr_left fun m _ => ?_).trans (List.map_id _)).symm
    by_cases hmi : m = i <;> simp [hmi]
  · have hids (c : Shape) : j ∈ ids [Shape.node i k (as ++ c :: bs)] ↔
        j ∈ ids [c] ∨ (j = i ∨ j ∈ ids as ∨ j ∈ ids bs) := by
      simp only [ids_cons, ids_nil, ids_append, id_node, parts_node, List.mem_cons,
        List.mem_append, List.append_nil]
      grind
    rw [hids, hids, h.new, or_right_comm]

/-- **A comparison with zero is exchanged for its operand.** -/
theorem comparedWithZero (hl : Linked t f) (hd : Displays t f [q]) (hm : q.id < t.size)
    (zero : NodeKind) :
    Exchanged q (Shape.node (t.size + 1) (.operator .notEquals) [q, Shape.node t.size zero []]) t
      (t.comparedWithZero q.id zero) f fun p =>
        if p = t.size + 1 then [q.id, t.size]
        else (f p).map fun m => if m = q.id then t.size + 1 else m := by
  have h := hl.amended_comparedWithZero hm zero
  refine ⟨h.linked, ?_, h.size, h.kind, fun i hi => ?_, fun i hi _ => ?_, fun i => ?_⟩
  · have hzero : f t.size = [] := hl.eq_nil (Nat.le_refl _)
    refine Displays.cons.mpr ⟨⟨?_, if_pos rfl⟩, Displays.append (X := [q]).mpr
      ⟨hl.displays_comparedWithZero hd hm zero, ?_⟩, fun _ hs => by simp at hs⟩
    · simp [Standing.kind_comparedWithZero]
    · intro s hs
      obtain rfl : s = Shape.node t.size zero [] := by simpa using hs
      simp [Standing.kind_comparedWithZero, hzero]
  · rw [Standing.comparedWithZero_eq,
      ((((Relinked.refl _).replace _ _).addChild _ _).addChild _ _).position]
    simp only [position?, node_createAt, size_createAt, if_neg (Nat.ne_of_lt hi),
      if_neg (Nat.ne_of_lt (Nat.lt_succ_of_lt hi))]
  · exact if_neg (Nat.ne_of_lt (Nat.lt_succ_of_lt hi))
  · rw [Standing.size_comparedWithZero]
    have hnew (i n : Nat) : n ≤ i ∧ i < n + 2 ↔ i = n + 1 ∨ i = n := by omega
    rw [hnew]
    simp only [ids_cons, ids_nil, id_node, parts_node, List.mem_cons, List.mem_append,
      List.append_nil, List.not_mem_nil, or_false]
    grind

end Exchanged

end Tree

/-! ## The first lowering -/

namespace Generating

variable {F F' : NodeId → Except Fault Format} {f : NodeId → List NodeId} {q q' : Shape}
variable {r r' r₂ : Routine} {success failure : Label} {left right n p : NodeId}
variable {steps : List Step} {signed : Bool}

theorem takes_comparesSigned_iff : Takes (comparesSigned left right) r signed r' ↔
    ∃ g h, r.tree.formatOf r.symbols left = .ok g ∧ r.tree.formatOf r.symbols right = .ok h ∧
      signed = !(g.isDecimal || h.isDecimal || (g.isUnsigned && h.isUnsigned)) ∧ r' = r := by
  simp only [comparesSigned, takes_bind, takes_ask, takes_pure]
  constructor
  · rintro ⟨g, _, ⟨hg, rfl⟩, h, _, ⟨hh, rfl⟩, rfl, rfl⟩
    exact ⟨g, h, hg, hh, rfl, rfl⟩
  · rintro ⟨g, h, hg, hh, rfl, rfl⟩
    exact ⟨g, _, ⟨hg, rfl⟩, h, _, ⟨hh, rfl⟩, rfl, rfl⟩

/-- A comparison has the steps that its operands tell. -/
theorem Compared.spells {o : Operator} {i : NodeId} {cs : List Shape}
    (h : Compared i o success failure r steps) (hl : r.tree.Linked f)
    (hd : r.tree.Displays f [node i (.operator o) cs]) :
    (node i (.operator o) cs).Spells (r.tree.formatOf r.symbols) success failure r.labels steps
      r.labels := by
  obtain ⟨left, right, c, signed, h1, h2, hne, hc, hs, rfl⟩ := h
  obtain ⟨g, k, hg, hk, rfl, -⟩ := takes_comparesSigned_iff.mp hs
  have hcs : f i = cs.map (·.id) := (hd _ (mem_subs_of_mem List.mem_cons_self)).2
  rw [hl.first, hcs] at h1
  rw [hl.last, hcs] at h2
  obtain ⟨a, ms, b, rfl, rfl, rfl⟩ := Shape.exists_ends h1 h2 hne
  exact .comparison hc hg hk

/-- **The first lowering completes the condition**, and takes the steps of the completed one. -/
theorem completes (h : Conditioned n success failure r steps r') (hn : q.id = n)
    (hl : r.tree.Linked f) (hd : r.tree.Displays f [q]) (hm : q.id < r.tree.size) :
    ∃ q' t' f' labels', r' = { r with tree := t', labels := labels' } ∧
      q.Completed (r.tree.formatOf r.symbols) q' ∧ Tree.Exchanged q q' r.tree t' f f' ∧
      q'.Spells (t'.formatOf r.symbols) success failure r.labels steps labels' := by
  induction h generalizing q f with
  | @logical n left right o success failure r r₂ r' first second hk ho h1 h2 hne _ _ iha ihb =>
    subst hn
    obtain ⟨i, k, cs⟩ := q
    obtain ⟨hkind, hcs⟩ := hd _ (mem_subs_of_mem List.mem_cons_self)
    obtain rfl : k = .operator o := hkind.symm.trans hk
    rw [hl.first, hcs] at h1
    rw [hl.last, hcs] at h2
    obtain ⟨a, ms, b, rfl, rfl, rfl⟩ := Shape.exists_ends h1 h2 hne
    have ha : a ∈ (node i (.operator o) (a :: (ms ++ [b]))).parts := List.mem_cons_self
    have hb : b ∈ (node i (.operator o) (a :: (ms ++ [b]))).parts := by simp
    have hself :=
      mem_subs_of_mem (List.mem_singleton_self (node i (.operator o) (a :: (ms ++ [b]))))
    have hma := (hl.inside (hd.mem hself ha)).2
    have hmb := (hl.inside (hd.mem hself hb)).2
    -- the first operand is completed, and the second one is found unchanged
    obtain ⟨a', t₁, f₁, middle, rfl, hca, hea, hsa⟩ := iha (q := a) rfl hl (hd.part ha) hma
    have he₁ := hea.part [] _ hl hd hm
    have hb₁ : b ∈ (node i (.operator o) (a' :: (ms ++ [b]))).parts := by simp
    have hdb₁ := he₁.displays.part hb₁
    obtain ⟨b', t₂, f₂, last, rfl, hcb, heb, hsb⟩ := ihb (q := b) rfl hea.linked hdb₁
      (Nat.lt_of_lt_of_le hmb hea.size)
    have he₂ := heb.part (a' :: ms) [] hea.linked he₁.displays
      (Nat.lt_of_lt_of_le hm hea.size)
    have ha₁ : a' ∈ (node i (.operator o) (a' :: (ms ++ [b]))).parts := List.mem_cons_self
    have ha₂ : a' ∈ (node i (.operator o) (a' :: ms ++ [b'])).parts := List.mem_cons_self
    have hda₁ := he₁.displays.part ha₁
    refine ⟨node i (.operator o) (a' :: (ms ++ [b'])), t₂, f₂, last, rfl,
      .logical ho hca (hcb.congr fun u hu => ?_), he₁.trans he₂ rfl,
      .logical ho (hsa.congr fun u hu => ?_) hsb⟩
    · exact hea.amended.formatOf_eq hl (hd.part hb) hdb₁ ((hd.part hb).nodup hl) hmb r.symbols hu
    · exact (heb.amended.formatOf_eq hea.linked hda₁ (he₂.displays.part ha₂)
        (hda₁.nodup hea.linked) (hea.made (fun j hj => (hd.part ha).made hl hma hj) (by simp))
        r.symbols hu).symm
  | @comparison n o success failure r steps hk _ ho hc =>
    subst hn
    obtain ⟨i, k, cs⟩ := q
    obtain rfl : k = .operator o := (hd _ (mem_subs_of_mem List.mem_cons_self)).1.symm.trans hk
    exact ⟨_, r.tree, f, r.labels, rfl, .comparison ho, .refl hl hd, hc.spells hl hd⟩
  | @nonzero n c success failure r r' steps hk hp hz hc =>
    subst hn
    obtain ⟨g, hg, rfl, rfl⟩ := compareWithZero_parts hz
    have htruth : q.kind.isTruth = true := by
      rw [← (hd q (mem_subs_of_mem List.mem_cons_self)).1]
      cases hkind : r.tree.kind q.id <;>
        simp_all [NodeKind.isTruth, NodeKind.isConnective, NodeKind.isComparison]
    have he := Tree.Exchanged.comparedWithZero hl hd hm (zeroOf g)
    exact ⟨_, _, _, r.labels, rfl, .nonzero htruth hg, he, hc.spells he.linked he.displays⟩
  | @parenthesis n inner success failure r r' steps hk hlast _ ih =>
    subst hn
    obtain ⟨i, k, cs⟩ := q
    obtain ⟨hkind, hcs⟩ := hd _ (mem_subs_of_mem List.mem_cons_self)
    obtain rfl : k = .parenthesis := hkind.symm.trans hk
    obtain ⟨ms, a, rfl⟩ : ∃ ms a, cs = ms ++ [a] := by
      rcases List.eq_nil_or_concat cs with rfl | ⟨ms, a, rfl⟩
      · rw [hl.last, hcs] at hlast
        cases hlast
      · exact ⟨ms, a, List.concat_eq_append⟩
    obtain rfl : a.id = inner := by
      rw [hl.last, hcs] at hlast
      simpa using hlast
    have ha : a ∈ (node i .parenthesis (ms ++ [a])).parts := by simp
    have hself := mem_subs_of_mem (List.mem_singleton_self (node i .parenthesis (ms ++ [a])))
    obtain ⟨a', t', f', last, rfl, hca, hea, hsa⟩ := ih (q := a) rfl hl (hd.part ha)
      (hl.inside (hd.mem hself ha)).2
    exact ⟨_, t', f', last, rfl, .inside hca, hea.part _ [] hl hd hm, .inside hsa⟩

/-! ## The second lowering -/

/-- **A completed condition is lowered to its steps**, and the tree stays as it is. -/
theorem spells_takes {next last : Nat} (fuel : Nat)
    (h : q.Spells F success failure next steps last) (hl : r.tree.Linked f)
    (hd : r.tree.Displays f [q]) (hF : ∀ u ∈ subs [q], F u.id = r.tree.formatOf r.symbols u.id)
    (hr : r.labels = next) (hfuel : (ids [q]).length ≤ fuel) :
    Takes (conditionStepsWithin fuel q.id success failure) r steps { r with labels := last } := by
  induction h generalizing r fuel with
  | @logical i o a b ms success failure next middle last first second ho _ _ iha ihb =>
    subst hr
    have hk : r.tree.kind i = .operator o := (hd _ (mem_subs_of_mem List.mem_cons_self)).1
    obtain ⟨h1, h2, hne⟩ := hd.operands hl
    have ha : a ∈ (node i (.operator o) (a :: (ms ++ [b]))).parts := List.mem_cons_self
    have hb : b ∈ (node i (.operator o) (a :: (ms ++ [b]))).parts := by simp
    have hlena := Tree.length_ids_parts_lt ha
    have hlenb := Tree.length_ids_parts_lt hb
    cases fuel with
    | zero => simp at hfuel
    | succ fuel =>
      exact takes_logical hk ho h1 h2 hne
        (iha (r := { r with labels := r.labels + 1 }) fuel hl (hd.part ha)
          (fun u hu => hF u (Shape.subs_part ha hu)) rfl (by omega))
        (ihb (r := { r with labels := middle }) fuel hl (hd.part hb)
          (fun u hu => hF u (Shape.subs_part hb hu)) rfl (by omega))
  | @comparison i o a b ms success failure next c g k ho ha hb =>
    subst hr
    have hk : r.tree.kind i = .operator o := (hd _ (mem_subs_of_mem List.mem_cons_self)).1
    obtain ⟨h1, h2, hne⟩ := hd.operands hl
    have hpart {c : Shape} (hc : c ∈ a :: (ms ++ [b])) :=
      hF c (Shape.subs_part (q := node i (.operator o) (a :: (ms ++ [b]))) hc (by simp))
    have hsigned := takes_comparesSigned_iff.mpr ⟨g, k, (hpart (by simp)).symm.trans ha,
      (hpart (by simp)).symm.trans hb, rfl, rfl⟩
    cases fuel with
    | zero => simp at hfuel
    | succ fuel =>
      rw [conditionStepsWithin]
      refine takes_bind.mpr ⟨r, r, takes_get.mpr ⟨rfl, rfl⟩, ?_⟩
      simp only [id_node, hk, Shape.isLogical_of_ofOperator? ho,
        Shape.isComparison_of_ofOperator? ho, if_true, Bool.false_eq_true, if_false]
      exact takes_bind.mpr ⟨_, r, takes_operandsOf.mpr ⟨h1, h2, hne, rfl⟩, takes_bind.mpr ⟨c, r,
        takes_required.mpr ⟨ho, rfl⟩, takes_bind.mpr ⟨_, r, hsigned,
          takes_pure.mpr ⟨rfl, rfl⟩⟩⟩⟩
  | @inside i a ms success failure next last steps _ ih =>
    obtain ⟨hk, hc⟩ := hd _ (mem_subs_of_mem List.mem_cons_self)
    have hk : r.tree.kind i = .parenthesis := hk
    have hc : f i = (ms ++ [a]).map (·.id) := hc
    have ha : a ∈ (node i .parenthesis (ms ++ [a])).parts := by simp
    have hlen := Tree.length_ids_parts_lt ha
    cases fuel with
    | zero => simp at hfuel
    | succ fuel =>
      rw [conditionStepsWithin]
      refine takes_bind.mpr ⟨r, r, takes_get.mpr ⟨rfl, rfl⟩, ?_⟩
      have hlast : r.tree.last? i = some a.id := by simp [hl.last, hc]
      simp only [id_node, hk]
      exact takes_bind.mpr ⟨r, r, takes_get.mpr ⟨rfl, rfl⟩, takes_bind.mpr ⟨a.id, r,
        takes_required.mpr ⟨hlast, rfl⟩, ih fuel hl (hd.part ha)
          (fun u hu => hF u (Shape.subs_part ha hu)) hr (by omega)⟩⟩

/-- **A condition can be lowered again.** The first lowering changes the tree only by completing the
condition in its place, which is the end of a scope. Lowering what is at the end of the scope then,
at any later time as long as the tree stays so, takes the same steps but for new labels between
operands, and it changes nothing but the number of labels. -/
theorem conditionSteps_again {scope : NodeId} (hl : r.tree.Linked r.tree.children)
    (hq : r.tree.Displays r.tree.children [q]) (hscope : r.tree.last? scope = some q.id)
    (hs : success < r.labels) (hf : failure < r.labels)
    (h : Takes (conditionSteps q.id success failure) r steps r') :
    ∃ q', q.Completed (r.tree.formatOf r.symbols) q' ∧
      Tree.Exchanged q q' r.tree r'.tree r.tree.children r'.tree.children ∧
      r' = { r with tree := r'.tree, labels := r'.labels } ∧ r.labels ≤ r'.labels ∧
      r'.tree.last? scope = some q'.id ∧
      ∀ r₂ : Routine, r₂.tree = r'.tree → r₂.symbols = r'.symbols → r.labels ≤ r₂.labels →
        ∃ ρ, Function.Injective ρ ∧ (∀ l : Nat, l < r.labels → ρ l = l) ∧
          Takes (conditionSteps q'.id success failure) r₂ (steps.map (Step.relabel ρ))
            { r₂ with labels := r₂.labels + (r'.labels - r.labels) } := by
  have hmem : q.id ∈ r.tree.children scope := List.mem_of_getLast? (hl.last scope ▸ hscope)
  have hm := (hl.inside hmem).2
  have h : Takes (conditionStepsWithin (r.tree.size + 1) q.id success failure) r steps r' := by
    simp only [conditionSteps, takes_bind, takes_get] at h
    obtain ⟨_, _, ⟨rfl, rfl⟩, h⟩ := h
    exact h
  obtain ⟨q', t', f', last, rfl, hc, he, hspells⟩ :=
    completes (conditionStepsWithin_conditioned h) rfl hl hq hm
  obtain rfl : t'.children = f' := funext he.linked.children
  refine ⟨q', hc, he, rfl, (hspells.relabel 0 (Nat.le_refl r.labels)).1, ?_,
    fun r₂ htree hsymbols hle => ?_⟩
  · rw [he.linked.last, he.lists scope (hl.inside hmem).1 (hq.not_mem_parent hmem),
      List.getLast?_map, ← hl.last, hscope, Option.map_some, if_pos rfl]
  · obtain ⟨hlast, hagain⟩ := hspells.relabel (r₂.labels - r.labels) (Nat.le_refl r.labels)
    rw [Step.moved_of_lt hs, Step.moved_of_lt hf] at hagain
    refine ⟨_, Step.moved_injective r.labels (r₂.labels - r.labels), fun l => Step.moved_of_lt,
      takes_bind.mpr ⟨r₂, r₂, takes_get.mpr ⟨rfl, rfl⟩, ?_⟩⟩
    have hcount : r₂.labels + (last - r.labels) = last + (r₂.labels - r.labels) := by omega
    have hlength : (ids [q']).length ≤ t'.size :=
      Tree.length_ids_le (he.displays.nodup he.linked) fun i hi =>
        he.made (fun j hj => hq.made hl hm hj) hi
    have htakes := spells_takes (r := r₂) (f := t'.children) (r₂.tree.size + 1)
      hagain (by rw [htree]; exact he.linked) (by rw [htree]; exact he.displays)
      (fun u _ => by rw [htree, hsymbols]) (by omega)
      (by rw [htree]; exact Nat.le_succ_of_le hlength)
    simp only [hcount]
    exact htakes

/-- The condition "x < y and (z)" at the end of a scope. -/
def guardedInScope : Routine :=
  { guarded with tree := (guarded.tree.create (.scope 0)).2.addChild 6 5 }

/-- The last operand is compared with zero in the tree, so the second lowering finds a comparison,
and only the label between the operands is a new one. -/
theorem conditionSteps_again_guarded : ∃ steps r' q' ρ r₂,
    Takes (conditionSteps guardedCondition.id 0 1) guardedInScope steps r' ∧
      guardedCondition.Completed (guardedInScope.tree.formatOf guardedInScope.symbols) q' ∧
      r'.tree.last? 6 = some q'.id ∧ Function.Injective ρ ∧
      Takes (conditionSteps q'.id 0 1) r' (steps.map (Step.relabel ρ)) r₂ ∧
      r₂.tree = r'.tree := by
  have hq : guardedInScope.tree.Displays guardedInScope.tree.children [guardedCondition] := by
    unfold Tree.Displays
    decide
  have htakes : Takes (conditionSteps guardedCondition.id 0 1) guardedInScope
      [.compare 0 1, .jump 2 (some ⟨.less, false⟩), .jump 1 none, .label 2, .compare 3 7,
        .jump 0 (some ⟨.notEqual, false⟩), .jump 1 none]
      { guardedInScope with
        tree := guardedInScope.tree.comparedWithZero 3 (zeroOf .u64), labels := 3 } := rfl
  have hscope : guardedInScope.tree.last? 6 = some guardedCondition.id := rfl
  obtain ⟨q', hc, -, -, hle, hlast, hagain⟩ := conditionSteps_again
    (Tree.forest_of_isForest (by decide)).linked hq hscope
    (show 0 < guardedInScope.labels by decide) (show 1 < guardedInScope.labels by decide) htakes
  obtain ⟨ρ, hρ, -, htakes₂⟩ := hagain _ rfl rfl hle
  exact ⟨_, _, q', ρ, _, htakes, hc, hlast, hρ, htakes₂, rfl⟩

end Generating

end Codegen
