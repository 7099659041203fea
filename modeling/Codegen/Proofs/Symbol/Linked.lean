import Mathlib
import Codegen.Proofs.Symbol.Effect
import Codegen.Proofs.Symbol.Links
import Codegen.Symbol.Table

/-!
# What changes do to the forest of contexts

Changes of the table are changes of the links of its contexts, on which only merging changes what a
context declares.

* `Names.lookup_adopt`, `lookup_adoptAll`: an adopted name means what it meant, if anything;
* `Names.lookup_put`: the last declaration of a name counts;
* `Declarations`, `SymbolTable.declarations`: all that a context declares;
* `Declarations.adoptAll`, `lookup_...`: **what two contexts declare together**;
* `SymbolTable.links_setParent`, `links_mapChildren`: one context of the table changes;
* `Scoping.Relinks`: the links of a table change;
* `Scoping.detach_ends`, `link_ends`, `merge_ends`: **taking out, putting below, and merging**.
-/

namespace Codegen

namespace Names

variable {α : Type} {ns : Names α} {n name : String} {a : α}

theorem lookup_cons (x : String × α) (ns : Names α) (name : String) :
    List.lookup name (x :: ns) = if name = x.1 then some x.2 else ns.lookup name := by
  rw [List.lookup]
  split
  next h => rw [if_pos (beq_iff_eq.mp h)]
  next h => rw [if_neg (beq_eq_false_iff_ne.mp h)]

theorem lookup_snoc (ns : Names α) (n name : String) (a : α) :
    (ns ++ [(n, a)]).lookup name = (ns.lookup name).or (if name = n then some a else none) := by
  rw [List.lookup_append, lookup_cons]
  rfl

theorem lookup_adopt (ns : Names α) (n name : String) (a : α) :
    (ns.adopt n a).lookup name = (ns.lookup name).or (if name = n then some a else none) := by
  rw [adopt]
  split
  next h =>
    split
    next hn =>
      subst hn
      obtain ⟨b, hb⟩ := Option.isSome_iff_exists.mp h
      rw [hb]
      rfl
    next => simp
  next => exact lookup_snoc ns n name a

theorem lookup_replace (ns : Names α) (n name : String) (a : α) :
    List.lookup name (ns.map fun (m, b) => (m, if m == n then a else b)) =
      (ns.lookup name).map fun b => if name = n then a else b := by
  induction ns with
  | nil => rfl
  | cons x ns ih =>
    rw [List.map_cons, lookup_cons, lookup_cons, ih]
    by_cases h : name = x.1 <;> simp [h]

/-- **The last declaration of a name counts.** -/
theorem lookup_put (ns : Names α) (n name : String) (a : α) :
    (ns.put n a).lookup name = if name = n then some a else ns.lookup name := by
  rw [put]
  split
  next h =>
    rw [lookup_replace]
    split
    next hn =>
      obtain ⟨b, hb⟩ := Option.isSome_iff_exists.mp (hn ▸ h)
      rw [hb]
      rfl
    next => simp
  next h =>
    rw [lookup_snoc]
    split
    next hn => rw [hn, Option.not_isSome_iff_eq_none.mp h, Option.none_or]
    next => rw [Option.or_none]

/-- The names of a list are declared one after another, unless they are declared. -/
def adoptAll (ns l : Names α) : Names α := l.foldl (fun ns x => ns.adopt x.1 x.2) ns

/-- **What a name means** of which there are declarations in two lists. -/
theorem lookup_adoptAll (ns l : Names α) (name : String) :
    (ns.adoptAll l).lookup name = (ns.lookup name).or (l.lookup name) := by
  induction l generalizing ns with
  | nil => simp [adoptAll]
  | cons x l ih =>
    change (adoptAll (ns.adopt x.1 x.2) l).lookup name = _
    rw [ih, lookup_adopt, Option.or_assoc, lookup_cons]
    split <;> rfl

end Names

/-! ## All declarations of a context -/

/-- What a context declares. -/
structure Declarations where
  types : Names TypeId
  functions : Names (List FunctionId)
  vars : Names VariableId
  labels : Names LabelId

/-- What a context declares. -/
def Context.declarations (c : Context) : Declarations := ⟨c.types, c.functions, c.vars, c.labels⟩

/-- What a context of a table declares. -/
def SymbolTable.declarations (t : SymbolTable) (c : ContextId) : Declarations :=
  t.contexts[c]?.elim ⟨[], [], [], []⟩ Context.declarations

/-- What two contexts declare together; the declarations of the first one win. -/
def Declarations.adoptAll (d e : Declarations) : Declarations :=
  ⟨d.types.adoptAll e.types, d.functions.adoptAll e.functions, d.vars.adoptAll e.vars,
    d.labels.adoptAll e.labels⟩

theorem Declarations.foldl_adopt (d e : Declarations) :
    e.labels.foldl (fun d x => { d with labels := d.labels.adopt x.1 x.2 })
      (e.vars.foldl (fun d x => { d with vars := d.vars.adopt x.1 x.2 })
        (e.functions.foldl (fun d x => { d with functions := d.functions.adopt x.1 x.2 })
          (e.types.foldl (fun d x => { d with types := d.types.adopt x.1 x.2 }) d))) =
      d.adoptAll e := by
  have types (l : Names TypeId) (d : Declarations) :
      l.foldl (fun d x => { d with types := d.types.adopt x.1 x.2 }) d =
        { d with types := d.types.adoptAll l } :=
    List.foldl_hom (fun ns => ({ d with types := ns } : Declarations)) fun _ _ => rfl
  have functions (l : Names (List FunctionId)) (d : Declarations) :
      l.foldl (fun d x => { d with functions := d.functions.adopt x.1 x.2 }) d =
        { d with functions := d.functions.adoptAll l } :=
    List.foldl_hom (fun ns => ({ d with functions := ns } : Declarations)) fun _ _ => rfl
  have vars (l : Names VariableId) (d : Declarations) :
      l.foldl (fun d x => { d with vars := d.vars.adopt x.1 x.2 }) d =
        { d with vars := d.vars.adoptAll l } :=
    List.foldl_hom (fun ns => ({ d with vars := ns } : Declarations)) fun _ _ => rfl
  have labels (l : Names LabelId) (d : Declarations) :
      l.foldl (fun d x => { d with labels := d.labels.adopt x.1 x.2 }) d =
        { d with labels := d.labels.adoptAll l } :=
    List.foldl_hom (fun ns => ({ d with labels := ns } : Declarations)) fun _ _ => rfl
  rw [types, functions, vars, labels]
  rfl

/-! ## Links -/

namespace Links

variable {l : Links} {c p : ContextId}

/-- A context gets another parent, or none. -/
def setParent (l : Links) (c : ContextId) (q : Option ContextId) : Links :=
  { l with parent? := fun d => if d = c then q else l.parent? d }

/-- The children of a context change. -/
def mapChildren (l : Links) (c : ContextId) (f : List ContextId → List ContextId) : Links :=
  { l with children := fun d => if d = c then f (l.children d) else l.children d }

@[simp] theorem parent?_setParent (l : Links) (c : ContextId) (q : Option ContextId)
    (d : ContextId) : (l.setParent c q).parent? d = if d = c then q else l.parent? d := rfl

@[simp] theorem children_setParent (l : Links) (c : ContextId) (q : Option ContextId) :
    (l.setParent c q).children = l.children := rfl

@[simp] theorem parent?_mapChildren (l : Links) (c : ContextId)
    (f : List ContextId → List ContextId) : (l.mapChildren c f).parent? = l.parent? := rfl

@[simp] theorem children_mapChildren (l : Links) (c : ContextId)
    (f : List ContextId → List ContextId) (d : ContextId) :
    (l.mapChildren c f).children d = if d = c then f (l.children d) else l.children d := rfl

/-- Only one context may have a context as its child, if there is one. -/
def IsChildOf (l : Links) (c : ContextId) (q : Option ContextId) : Prop :=
  ∀ p, c ∈ l.children p → q = some p

theorem Forest.isChildOf (h : l.Forest) (c : ContextId) : l.IsChildOf c (l.parent? c) :=
  fun p hp => (h.mem_children c p).mp hp

theorem filter_children (hc : l.IsChildOf c none) (q : ContextId) :
    (l.children q).filter (· != c) = l.children q := by
  refine List.filter_eq_self.mpr fun d hd => bne_iff_ne.mpr ?_
  rintro rfl
  cases hc q hd

theorem children_filtered (hc : l.IsChildOf c (some p)) (q : ContextId) :
    (l.mapChildren p (·.filter (· != c))).children q = (l.children q).filter (· != c) := by
  rw [children_mapChildren]
  split
  · rfl
  next hq =>
    refine (List.filter_eq_self.mpr fun d hd => bne_iff_ne.mpr ?_).symm
    rintro rfl
    exact hq (Option.some.inj (hc q hd)).symm

/-- A context that is nobody's child gets a parent. -/
theorem attach_eq {l' : Links} (hp : l'.parent? = l.parent?)
    (hc : ∀ d, l'.children d = (l.children d).filter (· != c)) (q : ContextId) :
    (l'.setParent c (some q)).mapChildren q
      (fun cs => if cs.contains c then cs else cs ++ [c]) = l.attach c q := by
  refine Links.ext (funext fun d => ?_) (funext fun d => ?_)
  · rw [parent?_mapChildren, parent?_setParent, hp, parent?_attach]
  · rw [children_mapChildren, children_setParent, children_attach, hc]
    split
    next h => rw [if_neg (by simp)]
    next h => rw [List.append_nil]

end Links

namespace SymbolTable

variable {t : SymbolTable} {c : ContextId} {x : Context}

theorem links_setParent (hx : t.contexts[c]? = some x) (q : Option ContextId) :
    links { t with contexts := t.contexts.modify c ({ · with parent? := q }) } =
      t.links.setParent c q := by
  refine Links.ext (funext fun d => ?_) (funext fun d => ?_)
  all_goals
    simp only [links, Links.setParent, Array.getElem?_modify]
    by_cases hd : d = c
    · simp [hd, hx]
    · simp [hd, Ne.symm hd]

theorem links_mapChildren (hx : t.contexts[c]? = some x) (f : List ContextId → List ContextId) :
    links { t with
      contexts := t.contexts.modify c fun k => { k with children := f k.children } } =
        t.links.mapChildren c f := by
  refine Links.ext (funext fun d => ?_) (funext fun d => ?_)
  all_goals
    simp only [links, Links.mapChildren, Array.getElem?_modify]
    by_cases hd : d = c
    · simp [hd, hx]
    · simp [hd, Ne.symm hd]

theorem links_modify {k : Context → Context} (hp : ∀ x, (k x).parent? = x.parent?)
    (hc : ∀ x, (k x).children = x.children) (c : ContextId) :
    links { t with contexts := t.contexts.modify c k } = t.links := by
  refine Links.ext (funext fun d => ?_) (funext fun d => ?_)
  all_goals
    simp only [links, Array.getElem?_modify]
    split
    · cases t.contexts[d]? <;> simp [hp, hc]
    · rfl

theorem declarations_modify {k : Context → Context}
    (hk : ∀ x, (k x).declarations = x.declarations) (c : ContextId) :
    declarations { t with contexts := t.contexts.modify c k } = t.declarations := by
  funext d
  simp only [declarations, Array.getElem?_modify]
  split
  · cases t.contexts[d]? <;> simp [hk]
  · rfl

theorem declarations_eq (hx : t.contexts[c]? = some x) : t.declarations c = x.declarations := by
  rw [declarations, hx]
  rfl

theorem links_parent_of (hx : t.contexts[c]? = some x) : t.links.parent? c = x.parent? := by
  simp [links, hx]

theorem links_children_of (hx : t.contexts[c]? = some x) : t.links.children c = x.children := by
  simp [links, hx]

end SymbolTable

namespace Scoping

variable {t u w : SymbolTable} {c d p : ContextId} {l l' : Links} {E : SymbolTable → Prop}

/-! ## Changes of links -/

/-- A table has these links, and its contexts declare what those of another table do. -/
structure Relinks (t : SymbolTable) (l : Links) (u : SymbolTable) : Prop where
  links : u.links = l
  declarations : u.declarations = t.declarations

theorem Relinks.trans (h : Relinks t l u) (h' : Relinks u l' w) : Relinks t l' w :=
  ⟨h'.links, h'.declarations.trans h.declarations⟩

theorem getElem?_forget (cs : List ContextId) (xs : Array Context) (d : ContextId) :
    (cs.foldl (fun xs c => xs.modify c ({ · with mangle? := none })) xs)[d]? =
      xs[d]?.map fun x => if d ∈ cs then { x with mangle? := none } else x := by
  induction cs generalizing xs with
  | nil => simp
  | cons c cs ih =>
    rw [List.foldl_cons, ih, Array.getElem?_modify]
    by_cases hd : d = c
    · by_cases hcs : c ∈ cs <;> simp [hd, hcs, Function.comp_def]
    · simp [hd, Ne.symm hd]

theorem forgetMangles_ends : Ends (forgetMangles c) t (fun _ => Relinks t t.links) E := by
  refine .withContext fun _ _ => .modify ⟨?_, ?_⟩
  · refine Links.ext (funext fun d => ?_) (funext fun d => ?_)
    all_goals
      simp only [SymbolTable.links, getElem?_forget]
      cases t.contexts[d]? with
      | none => rfl
      | some x => dsimp only [Option.map_some]; split <;> rfl
  · funext d
    simp only [SymbolTable.declarations, getElem?_forget]
    cases t.contexts[d]? with
    | none => rfl
    | some x => dsimp only [Option.map_some]; split <;> rfl

theorem adoptHints_ends : Ends (adoptHints c) t (fun _ => Relinks t t.links) E :=
  .withContext fun _ _ => .modify ⟨rfl, rfl⟩

theorem setParent_ends (q : Option ContextId) :
    Ends (modifyContext c ({ · with parent? := q })) t
      (fun _ => Relinks t (t.links.setParent c q)) E := by
  refine .modifyContext fun x hx => ⟨SymbolTable.links_setParent hx q, ?_⟩
  refine SymbolTable.declarations_modify ?_ c
  exact fun _ => rfl

theorem mapChildren_ends (f : List ContextId → List ContextId) :
    Ends (modifyContext c fun k => { k with children := f k.children }) t
      (fun _ => Relinks t (t.links.mapChildren c f)) E := by
  refine .modifyContext fun x hx => ⟨SymbolTable.links_mapChildren hx f, ?_⟩
  refine SymbolTable.declarations_modify ?_ c
  exact fun _ => rfl

/-- A context leaves the children of its parent. -/
theorem leave_ends {x : Context} (hx : t.contexts[c]? = some x)
    (hc : t.links.IsChildOf c (t.links.parent? c)) {k : Unit → Scoping Unit}
    {Q : Unit → SymbolTable → Prop}
    (hk : ∀ u, Relinks t ⟨t.links.parent?, (t.links.detach c).children⟩ u → Ends (k ()) u Q E) :
    Ends (match x.parent? with
      | some q => modifyContext q (fun y => { y with children := y.children.filter (· != c) }) >>= k
      | _ => k ()) t Q E := by
  rw [SymbolTable.links_parent_of hx] at hc
  cases hp : x.parent? with
  | none =>
    rw [hp] at hc
    exact hk t ⟨Links.ext rfl (funext fun q => (Links.filter_children hc q).symm), rfl⟩
  | some q =>
    rw [hp] at hc
    refine .bind (mapChildren_ends _) fun _ u hu => hk u ⟨hu.links.trans ?_, hu.declarations⟩
    exact Links.ext rfl (funext (Links.children_filtered hc))

/-- **A context is taken from its parent.** -/
theorem detach_ends (hc : t.links.IsChildOf c (t.links.parent? c)) :
    Ends (detach c) t (fun _ => Relinks t (t.links.detach c)) E := by
  refine .withContext fun x hx => leave_ends hx hc fun u hu => ?_
  refine .bind (setParent_ends none) fun _ w hw => forgetMangles_ends.mono fun _ v hv => ?_
  have h := (hu.trans hw).trans hv
  rw [hw.links, hu.links] at h
  exact h

/-- **A context is put below another one.** -/
theorem link_ends (hc : t.links.IsChildOf c (t.links.parent? c)) :
    Ends (link c p) t (fun _ => Relinks t (t.links.attach c p)) E := by
  refine .withContext fun x hx => leave_ends hx hc fun u hu => ?_
  refine .bind (setParent_ends (some p)) fun _ w hw => ?_
  refine .bind (mapChildren_ends fun cs => if cs.contains c then cs else cs ++ [c]) fun _ v hv => ?_
  have hlinks : w.links.mapChildren p (fun cs => if cs.contains c then cs else cs ++ [c]) =
      t.links.attach c p := by
    rw [hw.links]
    exact Links.attach_eq (by rw [hu.links]) (fun e => by rw [hu.links]; rfl) p
  have h := (hu.trans hw).trans hv
  rw [hlinks] at h
  rw [← h.links]
  exact .bind forgetMangles_ends fun _ s hs => adoptHints_ends.mono fun _ z hz =>
    hs.links ▸ (h.trans hs).trans hz

/-! ## Merging -/

/-- Some children of a context have another parent already. -/
def Moving (l : Links) (c d : ContextId) (l' : Links) : Prop :=
  l'.children = l.children ∧
    ∀ e, l'.parent? e = l.parent? e ∨ l.parent? e = some d ∧ l'.parent? e = some c

/-- A loop each of whose rounds declares something in one context. -/
theorem forIn_declarations {γ : Type} {xs : List γ} {body : γ → PUnit → Scoping (ForInStep PUnit)}
    (step : Declarations → γ → Declarations) {M : SymbolTable → Prop} (hM : M t)
    (hb : ∀ z u, M u → Ends (body z ⟨⟩) u (fun s u' => s = .yield ⟨⟩ ∧ M u' ∧
      u'.declarations c = step (u.declarations c) z) E) :
    Ends (forIn xs ⟨⟩ body) t
      (fun _ u => M u ∧ u.declarations c = xs.foldl step (t.declarations c)) E := by
  refine (Ends.forIn (fun rest u => M u ∧
    rest.foldl step (u.declarations c) = xs.foldl step (t.declarations c)) ⟨hM, rfl⟩ ?_).mono
      fun _ _ h => h
  rintro z rest u - ⟨hu, hd⟩
  refine (hb z u hu).mono ?_
  rintro _ u' ⟨rfl, hu', hd'⟩
  exact ⟨rfl, hu', by rw [hd', ← hd, List.foldl_cons]⟩

/-- A context declares more, on the same links. -/
theorem declare_ends {k : Context → Context} (step : Declarations → Declarations)
    (hp : ∀ x, (k x).parent? = x.parent?) (hc : ∀ x, (k x).children = x.children)
    (hk : ∀ x, (k x).declarations = step x.declarations) :
    Ends (modifyContext c k) t
      (fun _ u => u.links = t.links ∧ u.declarations c = step (t.declarations c)) E := by
  refine .modifyContext fun x hx => ⟨SymbolTable.links_modify hp hc c, ?_⟩
  rw [SymbolTable.declarations_eq hx, ← hk]
  exact SymbolTable.declarations_eq (by rw [Array.getElem?_modify, if_pos rfl, hx]; rfl)

theorem mergeType_ends (name : String) (i : TypeId) (ht : Moving l c d t.links) :
    Ends (do
      modifyContext c fun k => { k with types := k.types.adopt name i }
      let info ← ask (·.typeInfo i)
      let members ← ask (·.context info.context)
      if info.context ≠ globalContext ∧ members.parent? = some d then do
        modifyContext info.context ({ · with parent? := some c })
        pure (ForInStep.yield PUnit.unit)
      else pure (ForInStep.yield PUnit.unit)) t
      (fun s u => s = .yield ⟨⟩ ∧ Moving l c d u.links ∧ u.declarations c =
        { t.declarations c with types := (t.declarations c).types.adopt name i }) E := by
  refine .bind (declare_ends (fun D => { D with types := D.types.adopt name i }) (fun _ => rfl)
    (fun _ => rfl) fun _ => rfl) ?_
  rintro - u ⟨hl, hd⟩
  rw [← hl] at ht
  refine .bind (Q := fun _ w => w = u) (.askType fun _ _ => rfl) ?_
  rintro info u rfl
  refine .withContext fun x hx => ?_
  split
  next hp =>
    refine .bind (setParent_ends (some c)) fun _ v hv => ?_
    refine .pure ⟨rfl, ?_, by rw [hv.declarations, hd]⟩
    have hm : u.links.parent? info.context = some d := (SymbolTable.links_parent_of hx).trans hp.2
    rw [hv.links]
    refine ⟨ht.1, fun e => ?_⟩
    rw [Links.parent?_setParent]
    split
    next he =>
      subst he
      exact .inr ⟨(ht.2 info.context).elim (fun h => h ▸ hm) (·.1), rfl⟩
    next => exact ht.2 e
  next => exact .pure ⟨rfl, ht, hd⟩

/-- The children of a context are moving to another one, and those of the list are still to
follow. -/
structure Following (l : Links) (c d : ContextId) (rest : List ContextId) (l' : Links) : Prop where
  other : ∀ e, l.parent? e ≠ some d → l'.parent? e = l.parent? e
  moved : ∀ e, l.parent? e = some d → e ∉ rest → l'.parent? e = some c
  children : l'.children c ++ rest = l.children c ++ l.children d
  children_other : ∀ q, q ≠ c → l'.children q = l.children q

theorem Moving.following (h : Moving l c d l') (hf : l.Forest) :
    Following l c d (l.children d) l' where
  other e he := (h.2 e).resolve_right fun hd => he hd.1
  moved e he hn := absurd ((hf.mem_children e d).mpr he) hn
  children := by rw [h.1]
  children_other _ _ := by rw [h.1]

/-- One child more follows. -/
theorem Following.step {e : ContextId} {rest : List ContextId} (hf : l.Forest) (hcd : c ≠ d)
    (he : l.parent? e = some d) (h : Following l c d (e :: rest) l') :
    Following l c d rest ((l'.setParent e (some c)).mapChildren c
      fun cs => if cs.contains e then cs else cs ++ [e]) := by
  have hnew : e ∉ l'.children c := fun hm =>
    (List.nodup_append.mp (h.children ▸ hf.nodup_children_append hcd)).2.2 e hm e
      List.mem_cons_self rfl
  refine ⟨fun x hx => ?_, fun x hx hn => ?_, ?_, fun q hq => ?_⟩
  · rw [Links.parent?_mapChildren, Links.parent?_setParent, if_neg (by rintro rfl; exact hx he)]
    exact h.other x hx
  · rw [Links.parent?_mapChildren, Links.parent?_setParent]
    split
    · rfl
    next hne => exact h.moved x hx fun hm => (List.mem_cons.mp hm).elim hne hn
  · rw [Links.children_mapChildren, if_pos rfl, Links.children_setParent,
      if_neg (by simpa using hnew), List.append_assoc]
    exact h.children
  · rw [Links.children_mapChildren, if_neg hq, Links.children_setParent]
    exact h.children_other q hq

/-- **All children have followed**: the context that they left can be taken out. -/
theorem Following.detach_eq (h : Following l c d [] l') :
    (l'.mapChildren d fun _ => []).detach d = l.dissolve c d := by
  refine Links.ext (funext fun e => ?_) (funext fun q => ?_)
  · rw [Links.parent?_detach, Links.parent?_mapChildren, Links.parent?_dissolve]
    by_cases he : l.parent? e = some d
    · rw [h.moved e he List.not_mem_nil, if_pos he]
    · rw [h.other e he, if_neg he]
  · rw [Links.children_detach, Links.children_mapChildren, Links.children_dissolve]
    split
    · rfl
    · split
      next hq => rw [hq, ← h.children, List.append_nil]
      next hq => rw [h.children_other q hq, List.append_nil]

theorem Following.isChildOf (hf : l.Forest) (h : Following l c d [] l') :
    (l'.mapChildren d fun _ => []).IsChildOf d ((l'.mapChildren d fun _ => []).parent? d) := by
  have hd : l.parent? d ≠ some d := fun hp => hf.acyclic d (.single hp)
  intro q hq
  rw [Links.parent?_mapChildren, h.other d hd]
  rw [Links.children_mapChildren] at hq
  split at hq
  · cases hq
  · refine (hf.mem_children d q).mp ?_
    by_cases hqc : q = c
    · subst hqc
      rw [← List.append_nil (l'.children q), h.children] at hq
      exact (List.mem_append.mp hq).resolve_right fun hm => hd ((hf.mem_children d d).mp hm)
    · rwa [h.children_other q hqc] at hq

theorem mergeChildren_ends {D : Declarations} (hf : l.Forest) (hcd : c ≠ d)
    (ht : Moving l c d t.links) (hd : t.declarations c = D) :
    Ends (forIn (l.children d) PUnit.unit fun child _ => do
      modifyContext child ({ · with parent? := some c })
      modifyContext c fun k =>
        { k with
          children := if k.children.contains child then k.children else k.children ++ [child] }
      pure (ForInStep.yield PUnit.unit)) t
      (fun _ u => u.declarations c = D ∧ Following l c d [] u.links) E := by
  refine .forIn (fun rest u => u.declarations c = D ∧ Following l c d rest u.links)
    ⟨hd, ht.following hf⟩ ?_
  rintro child rest u hchild ⟨hu, hfollowing⟩
  refine .bind (setParent_ends (some c)) fun _ w hw => .bind (mapChildren_ends fun cs =>
    if cs.contains child then cs else cs ++ [child]) fun _ v hv => ?_
  have hv := hw.trans hv
  rw [hw.links] at hv
  refine .pure ⟨rfl, by rw [hv.declarations, hu], ?_⟩
  rw [hv.links]
  exact hfollowing.step hf hcd ((hf.mem_children child d).mp hchild)

/-- **A context is merged into another one.** -/
theorem merge_ends (hf : t.links.Forest) (hcd : ¬ t.links.Inside c d) :
    Ends (merge c d) t (fun _ u => u.links = t.links.dissolve c d ∧
      u.declarations c = (t.declarations c).adoptAll (t.declarations d)) E := by
  have hne : c ≠ d := by
    rintro rfl
    exact hcd .refl
  refine .withContext fun x hx => ?_
  have hdx := SymbolTable.declarations_eq hx
  have hchildren := SymbolTable.links_children_of hx
  -- the declarations are moved, kind by kind
  refine .bind (forIn_declarations (c := c) (M := fun u => Moving t.links c d u.links)
    (fun D (z : String × TypeId) => { D with types := D.types.adopt z.1 z.2 })
    ⟨rfl, fun _ => .inl rfl⟩ fun z u hu => mergeType_ends z.1 z.2 hu) ?_
  rintro - u₁ ⟨hu₁, hd₁⟩
  refine .bind (forIn_declarations (c := c) (M := fun u => Moving t.links c d u.links)
    (fun D (z : String × List FunctionId) => { D with functions := D.functions.adopt z.1 z.2 })
    hu₁ fun z u hu => .step rfl (.bind (declare_ends (fun D => { D with
      functions := D.functions.adopt z.1 z.2 }) (fun _ => rfl) (fun _ => rfl) fun _ => rfl)
        fun _ w hw => .pure ⟨rfl, hw.1 ▸ hu, hw.2⟩)) ?_
  rintro - u₂ ⟨hu₂, hd₂⟩
  refine .bind (forIn_declarations (c := c) (M := fun u => Moving t.links c d u.links)
    (fun D (z : String × VariableId) => { D with vars := D.vars.adopt z.1 z.2 }) hu₂
    fun z u hu => .bind (declare_ends (fun D => { D with vars := D.vars.adopt z.1 z.2 })
      (fun _ => rfl) (fun _ => rfl) fun _ => rfl) fun _ w hw => .bind (Q := fun _ v =>
        v.links = w.links ∧ v.declarations = w.declarations) (.modifyVariable ⟨rfl, rfl⟩)
          fun _ v hv => .pure ⟨rfl, hv.1 ▸ hw.1 ▸ hu, hv.2 ▸ hw.2⟩) ?_
  rintro - u₃ ⟨hu₃, hd₃⟩
  refine .bind (forIn_declarations (c := c) (M := fun u => Moving t.links c d u.links)
    (fun D (z : String × LabelId) => { D with labels := D.labels.adopt z.1 z.2 }) hu₃
    fun z u hu => .bind (declare_ends (fun D => { D with labels := D.labels.adopt z.1 z.2 })
      (fun _ => rfl) (fun _ => rfl) fun _ => rfl) fun _ w hw => .pure ⟨rfl, hw.1 ▸ hu, hw.2⟩) ?_
  rintro - u₄ ⟨hu₄, hd₄⟩
  rw [← hchildren]
  refine .bind (mergeChildren_ends hf hne hu₄ hd₄) ?_
  rintro - u₅ ⟨hd₅, hfollowed⟩
  -- what is left is to take the emptied context from its parent
  refine .bind (mapChildren_ends fun _ => []) fun _ u₆ hu₆ => ?_
  refine .bind forgetMangles_ends fun _ u₇ hu₇ => .bind adoptHints_ends fun _ u₈ hu₈ => ?_
  have h₈ := (hu₆.trans hu₇).trans hu₈
  rw [hu₇.links, hu₆.links] at h₈
  refine (detach_ends ?_).mono fun _ u hu => ⟨hu.links.trans ?_, ?_⟩
  · rw [h₈.links]
    exact hfollowed.isChildOf hf
  · rw [h₈.links]
    exact hfollowed.detach_eq
  · rw [hu.declarations, h₈.declarations, hd₅, hd₃, hd₂, hd₁, hdx]
    exact Declarations.foldl_adopt (t.declarations c) x.declarations

end Scoping

end Codegen
