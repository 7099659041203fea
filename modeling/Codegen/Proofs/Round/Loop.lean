import Codegen.Proofs.Round.Lowering

/-!
# Lowering of loops

What a loop does before its first round cannot leave it, since it is not in the table of loops yet.
So its round is left, ended and restarted only by its body, which comes before the last instruction
that ends the round, and a loop uses no exits of its own.

* `Tree.Numbers`: the nodes of a shape have numbers of their own;
* `Traversed.not_leaves`: **nothing leaves a loop before its first round**;
* `Begun`: the beginning of a round, and what its body does to it;
* `Shape.ForeverOf.traversed`, `Shape.PretestedOf.traversed`: **loops complete their rounds**.
-/

namespace Codegen

open Generating Shape

/-- The nodes of a shape have numbers of their own, by which the tree tells their constructs. -/
structure Tree.Numbers (t : Tree) (W : Shape) : Prop where
  kind : ∀ {pl path s}, W.In pl path s → t.kind s.id = s.kind
  unique : ∀ {pl pl' path path' s s'}, W.In pl path s → W.In pl' path' s' → s.id = s'.id → s = s'

variable {t : Tree} {symbols : SymbolTable} {W s : Shape} {path ss : List Shape} {u : Unit}
variable {sub : PartLowering} {r r' r₁ r₂ r₃ : Routine} {x? : Option ValueId} {P : Prop}
variable {actives : List Binding} {ls : List Label} {start stop : Label} {symmetry : Nat}

/-! ## Before the first round -/

/-- **Nothing leaves a loop before its first round**, since the loop is not in the table yet, or is
there by an earlier lowering, which did not leave it either. -/
theorem Traversed.not_leaves (h : Traversed t W (s :: path) s.LeavesBefore ls r r')
    (ht : Tabled W r) (hin : W.In .plain path s) {c : ContextId} (hk : s.kind = .loop c false) :
    ¬ s.LeavesBefore := by
  intro hleaves
  obtain ⟨record, p, hp, hrec⟩ := h.targets hleaves
  obtain rfl : s = p := by simpa [hk, NodeKind.isLoop] using hp
  obtain ⟨before, after, hl, -⟩ := List.lookup_eq_some_iff.mp hrec
  exact ht.before s.id record (by simp [hl]) hin rfl ⟨c, hk⟩ hleaves

/-! ## The bracket around a round -/

/-- A round begins behind its label. -/
structure Begun (n : NodeId) (start stop : Label) (actives : List Binding) (symmetry : Nat)
    (r r₁ r₂ : Routine) : Prop where
  label : Takes (appendLabel start) r () r₁
  enters : Takes (openSymmetry n start stop actives) r₁ symmetry r₂
  bindings : r.bindings = actives

namespace Begun

variable (h : Begun s.id start stop actives symmetry r r₁ r₂)
include h

theorem symmetry_eq : symmetry = r₁.kinds.length := by
  obtain ⟨q, hq, rfl⟩ := openSymmetry_parts h.enters
  exact (appendMarker_appended hq).1

theorem length_le : r.kinds.length ≤ symmetry := by
  obtain ⟨y, hl⟩ := appendLabel_appended h.label
  exact h.symmetry_eq ▸ hl.le.length_le

theorem appended : ∃ x q, Appended (.symmetryStart s.id actives) r₁ x q ∧
    r₂ = { q with loops := (s.id, ⟨start, stop, symmetry, actives⟩) :: r.loops } := by
  obtain ⟨q, hq, rfl⟩ := openSymmetry_parts h.enters
  obtain ⟨-, x, ha⟩ := appendMarker_appended hq
  refine ⟨x, q, ha, ?_⟩
  rw [ha.loops, (Kept.label h.label).loops]

theorem loops : r₂.loops = (s.id, ⟨start, stop, symmetry, actives⟩) :: r.loops := by
  obtain ⟨x, q, -, rfl⟩ := h.appended
  rfl

theorem bound : r₂.bindings = actives := by
  obtain ⟨x, q, ha, rfl⟩ := h.appended
  obtain ⟨y, hl⟩ := appendLabel_appended h.label
  exact ha.bindings.trans (hl.bindings.trans h.bindings)

theorem run (hr : Covered r) : Run t ⟨[], some symmetry, ls, some symmetry⟩ r r₂ := by
  have hold : (Exits.mk [] (some symmetry) [] (some symmetry)).Old r := ⟨by simp, by simp⟩
  obtain ⟨x, q, ha, rfl⟩ := h.appended
  have h₁ := (Run.refl (t := t) hr).label hold h.label
  have h₂ := (h₁.append hold ha (fun p => known_observed fun v x hb =>
    .of_bound (h.bindings ▸ hb)) (by simp) (by simp) (by simp [h.symmetry_eq])).1
  have h₃ : Run t ⟨[], some symmetry, ls, some symmetry⟩ r _ :=
    h₂.weaken (fun _ h => h) (fun _ => .inr) (by simp) (fun _ h => h)
  exact h₃.congr rfl rfl rfl h₃.bound

theorem lookup (hp : ∀ p ∈ path, s.id ≠ p.id) :
    ∀ p ∈ path, r₂.loops.lookup p.id = r.loops.lookup p.id := by
  intro p hm
  rw [h.loops, List.lookup_cons, beq_eq_false_iff_ne.mpr (hp p hm).symm]

theorem tabled (hn : t.Numbers W) (hin : W.In .plain path s) (ht : Tabled W r)
    (hs : (∃ c, s.kind = .loop c false) → ¬ s.LeavesBefore) : Tabled W r₂ := by
  obtain ⟨x, q, ha, rfl⟩ := h.appended
  obtain ⟨y, hl⟩ := appendLabel_appended h.label
  constructor
  · intro n record hm
    rcases List.mem_cons.mp hm with hm | hm
    · cases hm
      change symmetry < q.kinds.length
      rw [ha.kinds, h.symmetry_eq]
      simp
    · exact Nat.lt_of_lt_of_le (ht.symmetry n record hm) (hl.le.trans ha.le).length_le
  · intro n record hm
    rcases List.mem_cons.mp hm with hm | hm
    · cases hm
      intro pl path' s' hin' he
      obtain rfl := hn.unique hin' hin he
      exact hs
    · exact ht.before n record hm

/-- What is in a loop may only end and restart the round of this loop. -/
theorem body (hk : s.kind.isLoop = true) (h' : Traversed t W (s :: path) P [] r₂ r₃) :
    Run t ⟨actives, some symmetry, [], none⟩ r₂ r₃ := by
  refine h'.run _ ⟨?_, by simp⟩ (List.nil_subset _) fun _ record hrec => ?_
  · rintro _ ⟨⟩
    obtain ⟨x, q, ha, rfl⟩ := h.appended
    change _ < q.kinds.length ∨ _
    simp [ha.kinds, h.symmetry_eq]
  · obtain ⟨p, hp, hrec⟩ := hrec
    obtain rfl : s = p := by simpa [hk] using hp
    obtain rfl : _ = record := by simpa [h.loops] using hrec
    exact ⟨fun _ h => h, rfl⟩

end Begun

/-- **The end of a round**: an instruction that ends it, and variables bound as at its beginning. -/
theorem closed_run (hr : Covered r) (h : Takes (closeSymmetry symmetry actives) r u r') :
    ∃ y q, Appended (.symmetryEnd symmetry (pairsOf r.bindings actives)) r y q ∧
      q.kinds = r'.kinds ∧ Run t ⟨actives, none, [], none⟩ q r' ∧
      ∀ {p}, Run t ⟨actives, some symmetry, [], none⟩ p r →
        (Exits.mk actives (some symmetry) [] none).Old p →
        Run t ⟨actives, some symmetry, [], none⟩ p r' := by
  obtain ⟨i, q, h₁, h₂⟩ := closeSymmetry_parts h
  obtain ⟨-, y, ha⟩ := appendMarker_appended h₁
  have append {p : Routine} (hp : Run t ⟨actives, some symmetry, [], none⟩ p r)
      (ho : (Exits.mk actives (some symmetry) [] none).Old p) :
      Run t ⟨actives, some symmetry, [], none⟩ p q :=
    (hp.append ho ha (fun _ hm => hp.known_pairs (fun _ _ => .of_active) hm) (by simp) (by simp)
      (by simp)).1
  have binds {c : Exits} {p : Routine} (hc : c.actives = actives) (ho : c.Old p)
      (hp : Run t c p q) : Run t c p r' ∧ q.kinds = r'.kinds :=
    takes_forM (fun _ r' => Run t c p r' ∧ q.kinds = r'.kinds) h₂ ⟨hp, rfl⟩
      fun b _ q₁ _ q₂ hb hbind ih => by
        obtain ⟨q₃, ⟨values, rfl, -⟩, rfl⟩ := bind_revalued hbind
        exact ⟨ih.1.bind ho hbind (.of_active (v := b.1) (hc ▸ hb)), ih.2⟩
  have hq : Covered q :=
    (Run.appended (t := t) (c := ⟨actives, some symmetry, [], none⟩) hr ha
      (fun _ hm => (Run.refl (t := t) hr).known_pairs (fun _ _ => .of_active) hm) (by simp)
      (by simp) (by simp)).covered
  obtain ⟨h₃, hk⟩ := binds (c := ⟨actives, none, [], none⟩) rfl ⟨by simp, by simp⟩ (.refl hq)
  exact ⟨y, q, ha, hk, h₃, fun hp ho => (binds rfl ho (append hp ho)).1⟩

/-- **A loop completes its round**: what begins and ends it, and what is done in between and behind
it. -/
theorem Begun.completes {p p' p'' : Routine}
    (h : Begun s.id start stop actives symmetry r r₁ r₂) (hr : Covered r)
    (hlt : start < r.labels)
    (h₁ : Run t ⟨actives, some symmetry, [], none⟩ r₂ p)
    (hclose : Takes (closeSymmetry symmetry actives) p u p')
    (h₂ : Run t ⟨actives, none, [start], none⟩ p' p'')
    (h₃ : Run t ⟨actives, none, [], none⟩ p'' r')
    (halive : ∀ b ∈ actives, ∃ k : Nat, p''.kinds.length ≤ k + 1 ∧ ∃ kind, r'.kinds[k]? = some kind ∧
      ∃ role, ⟨b.2, role⟩ ∈ kind.parameters)
    (hback : (∃ c, t.kind s.id = .loop c false) → ∃ (j : Nat) (test : JumpTest),
      p'.kinds.length ≤ j ∧ p''.kinds[j]? = some (.jump start (some test))) :
    Run t ⟨[], some symmetry, [start], some symmetry⟩ r r' ∧
      ∀ n as, r'.kinds[symmetry]? = some (.symmetryStart n as) →
        Rounded t start r' symmetry n as := by
  obtain ⟨y, hl⟩ := appendLabel_appended h.label
  obtain ⟨y', q, hend, hkq, hclosed, hends⟩ := closed_run (t := t) h₁.covered hclose
  obtain ⟨x, q₀, hstart, hq₀⟩ := h.appended
  obtain rfl := h.symmetry_eq
  have hr₁ : Covered r₁ := ((Run.refl (t := t) (c := .closed) hr).label
    (Exits.closed_old r) h.label).covered
  have hlt₁ : start < r₁.labels := hl.labels ▸ hlt
  have hlabel : 0 < r₁.kinds.length ∧ r₁.kinds[r₁.kinds.length - 1]? = some (.label start) := by
    simp [hl.kinds]
  have hbound : r₁.bindings = actives := hl.bindings.trans h.bindings
  have hlt₂ : start < r₂.labels := by
    have hlabels : r₁.labels = r₂.labels := by rw [hq₀, ← hstart.labels]
    exact hlabels ▸ hlt₁
  -- all of the round and what is behind it, from its first instruction on
  have hthere : r₂.kinds[r₁.kinds.length]? = some (.symmetryStart s.id actives) := by
    subst hq₀
    change q₀.kinds[_]? = _
    simp [hstart.kinds]
  have hold₁ : (Exits.mk actives (some r₁.kinds.length) [] none).Old r₂ :=
    ⟨by simpa using (List.getElem?_eq_some_iff.mp hthere).1, by simp⟩
  have hold : (Exits.mk actives (some r₁.kinds.length) [start] none).Old r₂ :=
    ⟨hold₁.symmetry, by simpa using hlt₂⟩
  have hround : Run t ⟨actives, some r₁.kinds.length, [start], none⟩ r₂ r' := by
    have h₁' : Run t ⟨actives, some r₁.kinds.length, [start], none⟩ r₂ p' :=
      (hends h₁ hold₁).weaken (fun _ h => h) (fun _ => .inr) (by simp) (by simp)
    have h₂' : Run t ⟨actives, some r₁.kinds.length, [start], none⟩ p' p'' :=
      h₂.weaken (fun _ h => h) (by simp) (fun _ => .inr) (by simp)
    have h₃' : Run t ⟨actives, some r₁.kinds.length, [start], none⟩ p'' r' :=
      h₃.weaken (fun _ h => h) (by simp) (by simp) (by simp)
    exact (h₁'.trans hold h₂').trans hold h₃'
  refine ⟨(h.run hr).trans ⟨by simp, by simpa using hlt⟩ (hround.weaken (fun x hx => ?_)
    (fun _ => .inr) (fun _ => .inr) (by simp)), fun n as hk => ?_⟩
  · refine hx.imp_right fun hx => .inl (hx.elim (fun hx => hx) fun hx => ?_)
    rwa [h.bound]
  obtain ⟨rfl, rfl⟩ : s.id = n ∧ actives = as := by simpa [hround.kept hthere] using hk
  refine .of_runs hr₁ hbound hlabel (Nat.le_refl _) hlt₁ hstart (by simp [hq₀]) h₁ rfl hend ?_ h₃
    (fun v x hx => ?_) (hkq ▸ hback)
  · refine Run.trans ?_ ⟨by simp, ?_⟩ h₂
    · exact hclosed.weaken (fun _ h => h) (by simp) (by simp) (by simp)
    · simpa [hend.labels] using Nat.lt_of_lt_of_le hlt₂ h₁.labels
  · obtain ⟨k, hk, kind, hkind, role, hrole⟩ := halive (v, x) hx
    exact ⟨k, hk, h₃.covered.named k kind hkind _ hrole⟩

theorem keepAlive_reads (h : Takes (keepAlive actives) r u r') {b : Binding} (hb : b ∈ actives) :
    ∃ k : Nat, r.kinds.length ≤ k ∧ r'.kinds[k]? = some (.getVariable b.1 b.2) := by
  have hreads := takes_forM (fun rest r' => r.kinds <+: r'.kinds ∧ ∀ b ∈ actives, b ∉ rest →
      ∃ k : Nat, r.kinds.length ≤ k ∧ r'.kinds[k]? = some (.getVariable b.1 b.2)) h
    ⟨List.prefix_rfl, fun _ hb hn => absurd hb hn⟩ fun a rest q _ q' _ hread ⟨hle, ih⟩ => by
      obtain ⟨i, q', hm, -, rfl⟩ := takes_bind.mp hread
      obtain ⟨-, x, ha⟩ := appendMarker_appended hm
      refine ⟨hle.trans ha.le, fun b hb hn => ?_⟩
      by_cases hba : b = a
      · exact ⟨q.kinds.length, hle.length_le, by simp [ha.kinds, hba]⟩
      · obtain ⟨k, hk, hkind⟩ := ih b hb (by simp [hba, hn])
        refine ⟨k, hk, ?_⟩
        rw [ha.kinds, List.getElem?_append_left (List.getElem?_eq_some_iff.mp hkind).1, hkind]
  exact hreads.2 b hb List.not_mem_nil

theorem home_mem {bs : List Binding} {b : Binding} (hb : b ∈ actives) :
    ⟨b.2, .home⟩ ∈ (InstructionKind.symmetryEnd symmetry (pairsOf bs actives)).parameters := by
  simp only [InstructionKind.parameters, InstructionKind.mergeParameters, pairsOf, List.mem_flatMap,
    List.mem_map]
  exact ⟨_, ⟨b, hb, rfl⟩, List.mem_cons_self⟩

theorem Traversed.of_closed (h : Run t .closed r r') (ht : Tabled W r')
    (hl : ∀ p ∈ path, r'.loops.lookup p.id = r.loops.lookup p.id) :
    Traversed t W path False [] r r' :=
  ⟨ht, hl, False.elim, fun c _ _ _ => h.of_closed c⟩

/-! ## Loops -/

namespace Shape

variable (htr : Traverses t W sub) (hn : t.Numbers W)
include htr hn

theorem ForeverOf.traversed {c : ContextId} (hin : W.In .plain path s) (hk : s.kind = .loop c true)
    (hp : ∀ p ∈ path, s.id ≠ p.id) (hr : Covered r) (ht : Tabled W r)
    (h : ForeverOf sub path s r r') : Traversed t W path False [] r r' := by
  obtain ⟨r₁, save, r₂, r₃, r₄, r₅, r₆, j, h₁, h₂, h₃, h₄, h₅, h₆, h₇⟩ := h
  obtain ⟨p₁, symmetry, p₂, b, bs, x?, p₃, g₁, g₂, hb, g₃, g₄⟩ := h₄
  have hloop : s.kind.isLoop = true := by simp [hk, NodeKind.isLoop]
  -- ahead of the round
  have e₀ : Traversed t W path False [] r r := .of_run ht (.refl hr) rfl
  have e₂ := (e₀.prepared ht (by simp) (h₁ []) (by simp)).marker h₂ rfl rfl
  have hr₂ := e₂.covered ht (by simp)
  have e₃ : Traversed t W path False [] r₂ r₃ := by
    have hq : Covered { r₂ with labels := r₂.labels + 2 } := ⟨hr₂.isSet, hr₂.named⟩
    have htq : Tabled W { r₂ with labels := r₂.labels + 2 } :=
      ⟨e₂.tabled.symmetry, e₂.tabled.before⟩
    have e₀ : Traversed t W path False ([] ++ []) { r₂ with labels := r₂.labels + 2 } r₃ :=
      (Traversed.of_run htq (.refl hq) rfl).label h₃
    exact e₀.fresh rfl rfl rfl rfl (Nat.le_add_right _ 2) (by simp)
  have hr₃ := e₃.covered e₂.tabled (by simp)
  -- the round
  generalize hp₀ : ({ r₃ with labels := r₃.labels + 1,
                              regions := ⟨r₃.bindings, none⟩ :: r₃.regions } : Routine) = p₀ at g₁
  have hc₀ : Covered p₀ := hp₀ ▸ ⟨hr₃.isSet, hr₃.named⟩
  have ht₀ : Tabled W p₀ := hp₀ ▸ ⟨e₃.tabled.symmetry, e₃.tabled.before⟩
  have hbegun : Begun s.id r₃.labels (r₂.labels + 1) r₃.bindings symmetry p₀ p₁ p₂ :=
    ⟨g₁, g₂, hp₀ ▸ rfl⟩
  have hfirst : Run t ⟨[], some symmetry, [], some symmetry⟩ p₀ p₂ := hbegun.run hc₀
  have ht₂ := hbegun.tabled hn hin ht₀ (by simp [hk])
  obtain ⟨hinb, htail⟩ := hin.body hb
  have e := htr hinb htail hfirst.covered ht₂ g₃
  have hbody := hbegun.body hloop e
  obtain ⟨y, q, hend, hkq, hclosed, -⟩ := closed_run (t := t) hbody.covered g₄
  have hafter : Run t .closed r₄ r' := by
    have hold := Exits.closed_old r₄
    have h₀ : Run t .closed r₄ { r₄ with regions := r₄.regions.tail } :=
      (Run.refl hclosed.covered).congr rfl rfl rfl fun _ _ => .of_bound
    have h₆ := (h₀.jump hold h₅ (by simp)).marker hold h₆ rfl (by simp [InstructionKind.parameters])
    exact h₆.label hold h₇
  have hend' : r₄.kinds[p₃.kinds.length]? =
      some (.symmetryEnd symmetry (pairsOf p₃.bindings r₃.bindings)) := by
    simp [← hkq, hend.kinds]
  obtain ⟨hround, hrounded⟩ := hbegun.completes (t := t) hc₀
    (hp₀ ▸ Nat.lt_succ_self _) hbody g₄ (.refl hclosed.covered) (hafter.of_closed _)
    (fun b hb => ⟨p₃.kinds.length, by simp [← hkq, hend.kinds], _, hafter.kept hend', .home,
      home_mem hb⟩)
    (by simp [hn.kind hin, hk])
  have hkept : Kept r₄ r' :=
    ((⟨rfl, rfl, rfl⟩ : Kept r₄ { r₄ with regions := r₄.regions.tail }).trans (.jump h₅)).trans
      ((Kept.marker h₆).trans (.label h₇))
  have hloops : r'.loops = p₃.loops := hkept.loops.trans (Kept.closeSymmetry g₄).loops
  have hlen : p₃.kinds.length ≤ r'.kinds.length :=
    Nat.le_of_lt (List.getElem?_eq_some_iff.mp (hafter.kept hend')).1
  refine (e₂.trans e₃).trans (Q := False) (.of_closed ?_ (e.tabled.extend hlen hloops) fun p hm => ?_)
    |>.congr (by simp)
  · have hle : r₃.kinds.length ≤ symmetry := by
      subst hp₀
      exact hbegun.length_le
    subst hp₀
    exact hround.close rfl rfl rfl (Nat.le_succ _) (by simp) hle hrounded
  · subst hp₀
    rw [hloops, e.same p (List.mem_cons_of_mem _ hm), hbegun.lookup hp p hm]

variable (hsub : Evaluates t W sub) (hW : W.Layered)
include hsub hW

/-- One round of a loop with a condition, and what is behind it. -/
theorem RoundOf.completes {c : ContextId} {p p' p'' : Routine} {save j : Nat} (hin : W.In .plain path s)
    (hk : s.kind = .loop c false) (hs : ¬ s.LeavesBefore) (hp : ∀ p ∈ path, s.id ≠ p.id)
    (hr : Covered p) (ht : Tabled W p) (hbound : p.bindings = actives) (hlt : start < p.labels)
    (h : RoundOf t symbols sub path s start stop actives p p')
    (hl : Takes (appendLabel stop) { p' with regions := p'.regions.tail } () p'')
    (hm : Takes (appendMarker (.restoreState save)) p'' j r') :
    ∃ symmetry : Nat, p.kinds.length ≤ symmetry ∧
      Run t ⟨[], some symmetry, [start], some symmetry⟩ p r' ∧
      (∀ n as, r'.kinds[symmetry]? = some (.symmetryStart n as) →
        Rounded t start r' symmetry n as) ∧
      Tabled W r' ∧ ∀ q ∈ path, r'.loops.lookup q.id = p.loops.lookup q.id := by
  obtain ⟨p₁, symmetry, p₂, b, bs, x?, p₃, p₄, p₅, p₆, g₁, g₂, hb, g₃, g₄, g₅, g₆, g₇⟩ := h
  have hloop : s.kind.isLoop = true := by simp [hk, NodeKind.isLoop]
  have hbegun : Begun s.id start stop actives symmetry p p₁ p₂ := ⟨g₁, g₂, hbound⟩
  have hfirst : Run t ⟨[], some symmetry, [], some symmetry⟩ p p₂ := hbegun.run hr
  have ht₂ := hbegun.tabled hn hin ht fun _ => hs
  -- the body and the action
  obtain ⟨hinb, htail⟩ := hin.body hb
  have e₃ := htr hinb htail hfirst.covered ht₂ g₃
  have e₄ := e₃.trans (FirstPart.traversed htr (fun c hc => hin.action hk hc) (hin.dropped 2)
    (e₃.covered ht₂ (by simp)) e₃.tabled g₄)
  have hbody := hbegun.body hloop e₄
  obtain ⟨y, q, hend, hkq, hclosed, -⟩ := closed_run (t := t) hbody.covered g₅
  -- the test behind the end of the round
  have ht₅ : Tabled W p₅ := e₄.tabled.extend (by simp [← hkq, hend.kinds])
    (Kept.closeSymmetry g₅).loops
  have hlt₅ : ∀ l ∈ [start], l < p₅.labels := by
    have hle := Nat.le_trans hfirst.labels hbody.labels
    rw [← hend.labels] at hle
    simpa using Nat.lt_of_lt_of_le hlt (Nat.le_trans hle hclosed.labels)
  obtain ⟨e₆, hback⟩ := TestOf.traversed htr hsub hW (fun _ => .inr (by simp)) (fun _ => .inl rfl)
    hlt₅ hin hclosed.covered ht₅ g₆
  have htest : Run t ⟨[], none, [start], none⟩ p₅ p₆ :=
    e₆.run _ ⟨by simp, hlt₅⟩ (fun _ h => h) fun h => absurd (.inr h) hs
  have hreads : Run t ⟨actives, none, [], none⟩ p₆ p' :=
    .prepared (.refl htest.covered) ⟨by simp, by simp⟩ (keepAlive_prepared (fun _ h => h) g₇)
      fun _ _ => .of_active
  have hafter : Run t .closed p' r' := by
    have h₀ : Run t .closed p' { p' with regions := p'.regions.tail } :=
      (Run.refl hreads.covered).congr rfl rfl rfl fun _ _ => .of_bound
    have hold := Exits.closed_old p'
    exact (h₀.label hold hl).marker hold hm rfl (by simp [InstructionKind.parameters])
  have hlast : Run t ⟨actives, none, [], none⟩ p₆ r' :=
    hreads.trans ⟨by simp, by simp⟩ (hafter.of_closed _)
  have htest' : Run t ⟨actives, none, [start], none⟩ p₅ p₆ :=
    htest.weaken (fun x hx => hx.imp_right fun hx => .inl (hx.resolve_right (by simp))) (by simp)
      (fun _ => .inr) (by simp)
  have hback' : ∃ (j : Nat) (test : JumpTest), p₅.kinds.length ≤ j ∧
      p₆.kinds[j]? = some (.jump start (some test)) := by
    obtain ⟨j, test, l, hj, -, hkind⟩ := hback fun l hl => by simpa [eq_comm] using hl
    exact ⟨j, test, hj, hkind⟩
  obtain ⟨hround, hrounded⟩ := hbegun.completes (t := t) hr hlt hbody g₅ htest' hlast (fun b hb => by
    obtain ⟨k, hk, hkind⟩ := keepAlive_reads g₇ hb
    exact ⟨k, Nat.le_succ_of_le hk, _, hafter.kept hkind, .read,
      by simp [InstructionKind.parameters]⟩) fun _ => hback'
  -- the table of loops
  have hkept : Kept p₆ r' := (Kept.prepared (keepAlive_prepared (fun _ h => h) g₇)).trans
    (((⟨rfl, rfl, rfl⟩ : Kept p' { p' with regions := p'.regions.tail }).trans (.label hl)).trans
      (.marker hm))
  refine ⟨symmetry, hbegun.length_le, hround, hrounded,
    e₆.tabled.extend hlast.kinds.length_le hkept.loops, fun a ha => ?_⟩
  have hsame := e₆.same a (List.mem_cons_of_mem _ ha)
  rw [hkept.loops, hsame, (Kept.closeSymmetry g₅).loops, e₄.same a (List.mem_cons_of_mem _ ha),
    hbegun.lookup hp a ha]

theorem PretestedOf.traversed {c : ContextId} (hin : W.In .plain path s)
    (hk : s.kind = .loop c false) (hp : ∀ p ∈ path, s.id ≠ p.id) (hr : Covered r)
    (ht : Tabled W r) (h : PretestedOf t symbols sub path s r r') :
    Traversed t W path False [] r r' := by
  obtain ⟨r₁, r₂, r₃, save, r₄, r₅, r₆, j, h₁, h₂, h₃, h₄, h₅, h₆, h₇⟩ := h
  generalize hq : ({ r with labels := r.labels + 2 } : Routine) = q at h₁
  have hrq : Covered q := hq ▸ ⟨hr.isSet, hr.named⟩
  have htq : Tabled W q := hq ▸ ⟨ht.symmetry, ht.before⟩
  have hls : ∀ l ∈ [r.labels + 1], l < q.labels := by
    subst hq
    simp
  -- before the first round
  have e₁ := FirstPart.traversed htr (fun a ha => hin.initialization hk ha) (hin.dropped 0) hrq htq h₁
  have e₂ := (e₁.prepared htq (by simp) (h₂ []) (by simp)).mono (List.nil_subset [r.labels + 1])
  have hls₂ : ∀ l ∈ [r.labels + 1], l < r₂.labels := fun l hl =>
    Nat.lt_of_lt_of_le (hls l hl) (e₂.labels_le htq hls)
  obtain ⟨e₃, -⟩ := TestOf.traversed htr hsub hW (fun _ => .inl rfl) (fun _ => .inr (by simp)) hls₂
    hin (e₂.covered htq hls) e₂.tabled h₃
  have e₄ : Traversed t W (s :: path) s.LeavesBefore [r.labels + 1] q r₄ :=
    (e₂.trans e₃).marker h₄ rfl rfl
  have hs := e₄.not_leaves htq hin hk
  have hold₄ : (Exits.mk [] none [r.labels + 1] none).Old q := ⟨by simp, hls⟩
  have hbefore : Run t ⟨[], none, [r.labels + 1], none⟩ q r₄ :=
    e₄.run _ hold₄ (fun _ h => h) fun h => absurd h hs
  -- the round
  generalize hp₀ : ({ r₄ with regions := ⟨r₄.bindings, none⟩ :: r₄.regions } : Routine) = p₀ at h₅
  have hc₀ : Covered p₀ := hp₀ ▸ ⟨hbefore.covered.isSet, hbefore.covered.named⟩
  have ht₀ : Tabled W p₀ := hp₀ ▸ ⟨e₄.tabled.symmetry, e₄.tabled.before⟩
  have hlt : r.labels < p₀.labels := by
    subst hp₀ hq
    exact Nat.lt_of_lt_of_le (Nat.lt_add_of_pos_right (by decide)) hbefore.labels
  obtain ⟨symmetry, hle, hround, hrounded, htab, hsame⟩ := RoundOf.completes htr hn hsub hW hin hk hs
    hp hc₀ ht₀ (hp₀ ▸ rfl) hlt h₅ h₆ h₇
  have hold : (Exits.mk [] (some symmetry) [r.labels, r.labels + 1] (some symmetry)).Old q := by
    subst hq
    exact ⟨by simp, by simp⟩
  have hbefore' : Run t ⟨[], some symmetry, [r.labels, r.labels + 1], some symmetry⟩ q p₀ := by
    subst hp₀
    have h₀ : Run t ⟨[], some symmetry, [r.labels, r.labels + 1], some symmetry⟩ q r₄ :=
      hbefore.weaken (fun _ h => h) (by simp) (by simp) (by simp)
    exact h₀.congr rfl rfl rfl h₀.bound
  have hround' : Run t ⟨[], some symmetry, [r.labels, r.labels + 1], some symmetry⟩ p₀ r' :=
    hround.weaken (fun _ h => h) (fun _ => .inr) (by simp) (fun _ h => h)
  refine .of_closed ?_ htab fun a ha => ?_
  · have hrun := hbefore'.trans hold hround'
    have hlen : q.kinds.length ≤ symmetry := Nat.le_trans hbefore'.kinds.length_le hle
    subst hq
    exact hrun.close rfl rfl rfl (Nat.le_add_right _ 2) (by simp) hlen hrounded
  · rw [hsame a ha]
    have := e₄.same a (List.mem_cons_of_mem _ ha)
    subst hp₀ hq
    exact this

end Shape

end Codegen
