import Codegen.Proofs.Register.Ledger

/-!
# Requests on one register, and the others

A register file keeps sets, which know registers by bank and number, and tables, which know places.
The registers of a file have places of their own, so a request on one of them leaves the others
alone. Places alone decide whether a register is refused: a number that is too high for its bank
names the place of a register of a later bank, as long as the tables go that far.

* `RegisterFile.status`: what a file says of a register;
* `Apart`, `perform_apart`: **what a served request may change**;
* `perform_invalid_iff`: which registers are refused;
* `Sized`, `Sized.run`: tables keep their sizes, whatever registers are named;
* `Sized.owner?_assign_beyond`: a number too high for its bank gives away a register of a later one;
* `requests_apart`: **requests on registers of a file leave the others alone, and registers behind
  the tables are refused**.
-/

namespace Codegen.RegisterFile

/-! ## Status -/

/-- What a file says of a register. -/
structure Status where
  owner? : Option ValueId
  used : Bool
  locked : Bool
  clobbered : Bool
deriving DecidableEq

/-- What the file says of a register. -/
def status (f : RegisterFile) (r : Register) : Status :=
  ⟨f.owner? r, f.used.contains r, f.locked.contains r, f.clobbered.contains r⟩

/-- The register that a request gives away, takes back, locks or unlocks. -/
def Request.register? : Request → Option Register
  | assign r _ | release r | lock r | unlock r => some r
  | unlockAll | clobber _ | evict .. | save | restore _ | reset => none

/-- The second file differs from the first one in what its sets say of a register, and in what its
tables say at the place of that register. -/
structure Apart (r : Register) (f g : RegisterFile) : Prop where
  shape : SameShape f g
  length : g.owners.size = f.owners.size
  used : ∀ p ≠ r, g.used.contains p = f.used.contains p
  locked : ∀ p ≠ r, g.locked.contains p = f.locked.contains p
  clobbered : ∀ p ≠ r, g.clobbered.contains p = f.clobbered.contains p
  owner : ∀ p, f.index p ≠ f.index r → g.owner? p = f.owner? p
  locks : ∀ p, f.index p ≠ f.index r → g.lockCount p = f.lockCount p

variable {f g : RegisterFile} {r p : Register} {v : ValueId} {s t : State} {q : Request}
variable {width banks : Nat} {allocatable volatile : RegisterSet} {qs : List Request}

theorem Apart.refl (r : Register) (f : RegisterFile) : Apart r f f :=
  ⟨.refl f, rfl, fun _ _ => rfl, fun _ _ => rfl, fun _ _ => rfl, fun _ _ => rfl, fun _ _ => rfl⟩

theorem Apart.status_eq (h : Apart r f g) (hp : f.index p ≠ f.index r) :
    g.status p = f.status p := by
  have hne : p ≠ r := fun he => hp (he ▸ rfl)
  rw [status, status, h.owner p hp, h.used p hne, h.locked p hne, h.clobbered p hne]

/-! ## Served requests -/

theorem contains_insert_of_ne {rs : RegisterSet} (h : p ≠ r) :
    (rs.insert r).contains p = rs.contains p := by
  simp [RegisterSet.contains_insert, h]

theorem getD_setIfInBounds_ne {α : Type} (xs : Array α) {i j : Nat} (h : j ≠ i) (a d : α) :
    (xs.setIfInBounds i a).getD j d = xs.getD j d := by
  rw [Array.getD_eq_getD_getElem?, Array.getD_eq_getD_getElem?,
    Array.getElem?_setIfInBounds_ne h.symm]

theorem owner?_set (hp : f.index p ≠ f.index r) (o : Option ValueId) :
    { f with owners := f.owners.setIfInBounds (f.index r) o }.owner? p = f.owner? p := by
  change (if f.index p < f.size then (f.owners.setIfInBounds (f.index r) o).getD (f.index p) none
    else none) = _
  rw [getD_setIfInBounds_ne f.owners hp]
  rfl

theorem assign_apart (h : f.assign r v = .ok g) : Apart r f g := by
  unfold assign at h
  split at h
  · cases h
  · cases h
    exact ⟨⟨rfl, rfl, rfl, rfl⟩, Array.size_setIfInBounds, fun p hp => contains_insert_of_ne hp,
      fun _ _ => rfl, fun p hp => contains_insert_of_ne hp, fun p hp => owner?_set hp _,
      fun _ _ => rfl⟩

theorem release_apart (h : f.release r = .ok g) : Apart r f g := by
  unfold release at h
  split at h
  · cases h
  · split at h
    · cases h
    · cases h
      exact ⟨⟨rfl, rfl, rfl, rfl⟩, Array.size_setIfInBounds,
        fun p hp => RegisterSet.contains_erase_of_ne hp,
        fun p hp => RegisterSet.contains_erase_of_ne hp, fun _ _ => rfl,
        fun p hp => owner?_set hp _, fun p hp => getD_setIfInBounds_ne f.locks hp _ _⟩

theorem lock_apart (h : f.lock r = .ok g) : Apart r f g := by
  unfold lock at h
  split at h
  · cases h
  · split at h
    · cases h
    · dsimp only at h
      split at h
      · cases h
      · cases h
        exact ⟨⟨rfl, rfl, rfl, rfl⟩, rfl, fun _ _ => rfl, fun p hp => contains_insert_of_ne hp,
          fun _ _ => rfl, fun _ _ => rfl, fun p hp => getD_setIfInBounds_ne f.locks hp _ _⟩

theorem unlock_apart (h : f.unlock r = .ok g) : Apart r f g := by
  unfold unlock at h
  split at h
  · cases h
  · split at h
    · cases h
    · cases h
      refine ⟨⟨rfl, rfl, rfl, rfl⟩, rfl, fun _ _ => rfl, fun p hp => ?_, fun _ _ => rfl,
        fun _ _ => rfl, fun p hp => getD_setIfInBounds_ne f.locks hp _ _⟩
      dsimp only
      split
      · exact RegisterSet.contains_erase_of_ne hp
      · rfl

theorem owner?_assign_place (h : f.assign r v = .ok g) (hf : f.owners.size = f.size)
    (hp : f.index p = f.index r) : g.owner? p = some v := by
  unfold assign at h
  split at h
  · cases h
  next hlt =>
    cases h
    rw [Nat.not_le, ← hp] at hlt
    refine (if_pos hlt).trans ?_
    change (f.owners.setIfInBounds (f.index r) (some v)).getD (f.index p) none = _
    rw [← hp, getD_setIfInBounds (hf ▸ hlt), if_pos rfl]

theorem exists_apart {x : Except RegisterError RegisterFile}
    (hx : ∀ g, x = .ok g → Apart r s.file g) (h : x.map s.withFile = .ok t) :
    ∃ g, t = s.withFile g ∧ Apart r s.file g := by
  cases x with
  | error => cases h
  | ok g =>
    cases h
    exact ⟨g, rfl, hx g rfl⟩

/-- **A served request on a register** changes nothing but what is said of that register, and what
is said at its place. -/
theorem perform_apart (hq : q.register? = some r) (h : s.perform q = .ok t) :
    ∃ g, t = s.withFile g ∧ Apart r s.file g := by
  cases q with
  | assign => cases hq; exact exists_apart (fun _ => assign_apart) h
  | release => cases hq; exact exists_apart (fun _ => release_apart) h
  | lock => cases hq; exact exists_apart (fun _ => lock_apart) h
  | unlock => cases hq; exact exists_apart (fun _ => unlock_apart) h
  | _ => cases hq

theorem step_apart (hq : q.register? = some r) : Apart r s.file (s.step q).file := by
  unfold State.step
  cases h : s.perform q with
  | ok t =>
    obtain ⟨g, rfl, hg⟩ := perform_apart hq h
    exact hg
  | error => exact .refl _ _

/-! ## Refused registers -/

/-- **A register is refused as invalid if its place is behind the tables**, and only then. -/
theorem perform_invalid_iff (hq : q.register? = some r) :
    s.perform q = .error .invalid ↔ s.file.size ≤ s.file.index r := by
  have refused {x : Except RegisterError RegisterFile}
      (h : x = .error .invalid ↔ s.file.size ≤ s.file.index r) :
      x.map s.withFile = .error .invalid ↔ s.file.size ≤ s.file.index r := by
    rw [← h]
    cases x <;> simp [Except.map]
  cases q with
  | assign r' v =>
    cases hq
    exact refused (by simp [assign])
  | release r' =>
    cases hq
    refine refused ?_
    unfold release
    split
    · simp_all
    · split <;> simp_all
  | lock r' =>
    cases hq
    refine refused ?_
    unfold lock
    split
    · simp_all
    · split
      · simp_all
      · dsimp only
        split <;> simp_all
  | unlock r' =>
    cases hq
    refine refused ?_
    unfold unlock
    split
    · simp_all
    · split <;> simp_all
  | _ => cases hq

/-! ## Runs -/

/-- The tables, and those of the snapshots, are as long as those of the first file. -/
structure Sized (f : RegisterFile) (s : State) : Prop where
  shape : SameShape f s.file
  owners : s.file.owners.size = f.size
  saved : ∀ o ∈ s.saved, o.owners.size = f.size

namespace Sized

theorem withFile (h : Sized f s) (hs : SameShape s.file g) (ho : g.owners.size = f.size) :
    Sized f (s.withFile g) :=
  ⟨h.shape.trans hs, ho, h.saved⟩

theorem start : Sized (ofShape width banks allocatable volatile)
    ⟨ofShape width banks allocatable volatile, []⟩ where
  shape := .refl _
  owners := Array.size_replicate
  saved _ ho := by cases ho

/-- No request changes the size of a table, whatever register it names. -/
theorem perform (h : Sized f s) (ht : s.perform q = .ok t) : Sized f t := by
  cases hr : q.register? with
  | some r =>
    obtain ⟨g, rfl, hg⟩ := perform_apart hr ht
    exact h.withFile hg.shape (hg.length.trans h.owners)
  | none =>
    cases q with
    | assign | release | lock | unlock => cases hr
    | unlockAll | clobber =>
      cases ht
      exact h.withFile ⟨rfl, rfl, rfl, rfl⟩ h.owners
    | evict b ex =>
      cases ht
      have hkeep : SameShape s.file (s.file.evictable? b ex).2 ∧
          (s.file.evictable? b ex).2.owners = s.file.owners := by
        unfold evictable?
        split
        · exact ⟨⟨rfl, rfl, rfl, rfl⟩, rfl⟩
        · exact ⟨.refl _, rfl⟩
      exact h.withFile hkeep.1 (hkeep.2 ▸ h.owners)
    | save =>
      cases ht
      refine ⟨h.shape, h.owners, fun o ho => ?_⟩
      rcases List.mem_append.mp ho with ho | ho
      · exact h.saved o ho
      · obtain rfl := List.mem_singleton.mp ho
        exact h.owners
    | restore k =>
      rw [State.perform] at ht
      split at ht
      next o ho =>
        cases ht
        exact h.withFile ⟨rfl, rfl, rfl, rfl⟩ (h.saved o (List.mem_of_getElem? ho))
      next =>
        cases ht
        exact h
    | reset =>
      cases ht
      exact h.withFile ⟨rfl, rfl, rfl, rfl⟩ (Array.size_replicate.trans h.shape.size)

theorem step (h : Sized f s) (q : Request) : Sized f (s.step q) := by
  unfold State.step
  cases ht : s.perform q with
  | ok t => exact h.perform ht
  | error => exact h

theorem run (h : Sized f s) (qs : List Request) : Sized f (s.run qs) := by
  induction qs generalizing s with
  | nil => exact h
  | cons q qs ih => exact ih (h.step q)

/-! ## Registers of the file, and others -/

section

variable (h : Sized (ofShape width banks allocatable volatile) s)
include h

theorem index_eq (r : Register) : s.file.index r = r.bank * width + r.id := h.shape.index r

theorem size_eq : s.file.size = width * banks := h.shape.size

theorem inRange_iff : s.file.InRange r ↔ Inside width banks r :=
  h.shape.inRange.trans inRange_ofShape

/-- **A request on a register of the file** leaves the other registers of the file alone. -/
theorem status_step (hq : q.register? = some r) (hr : Inside width banks r)
    (hp : Inside width banks p) (hne : p ≠ r) : (s.step q).file.status p = s.file.status p :=
  (step_apart hq).status_eq fun he =>
    hne ((index_inj (h.inRange_iff.mpr hr) (h.inRange_iff.mpr hp)).mp he)

/-- **A number too high for its bank** gives a register of a later bank away, if there is one at its
place. -/
theorem owner?_assign_beyond (hid : width ≤ r.id)
    (hplace : r.bank * width + r.id < width * banks) (v : ValueId) :
    ∃ p t, Inside width banks p ∧ p ≠ r ∧ s.perform (.assign r v) = .ok t ∧
      t.file.owner? p = some v := by
  have hlt : s.file.index r < s.file.size := by rwa [h.index_eq, h.size_eq]
  have hwidth : 0 < s.file.width := by
    rw [h.shape.width]
    exact Nat.pos_of_ne_zero fun h0 => by simp [ofShape] at h0; simp [h0] at hplace
  have hindex := index_registerAt (f := s.file) (s.file.index r)
  have hrange : s.file.InRange (s.file.registerAt (s.file.index r)) :=
    ⟨Nat.mod_lt _ hwidth, by rwa [hindex]⟩
  have hassign : ∃ g, s.file.assign r v = .ok g := ⟨_, if_neg (Nat.not_le.mpr hlt)⟩
  obtain ⟨g, hg⟩ := hassign
  refine ⟨s.file.registerAt (s.file.index r), s.withFile g, h.inRange_iff.mp hrange, fun he => ?_,
    by rw [State.perform, hg]; rfl,
    owner?_assign_place hg (h.owners.trans h.shape.size.symm) hindex⟩
  have := (h.inRange_iff.mp hrange).2
  rw [he] at this
  omega

/-- Register 20 of the first bank has the place of register 4 of the second one. -/
example : ((ofShape 16 2 .empty .empty).assign ⟨0, 20⟩ 9).toOption.map (·.owner? ⟨1, 4⟩) =
    some (some 9) := by
  decide +kernel

end

end Sized

/-- **Requests on one register leave the others alone.** Behind every run of requests, whatever
registers they name, a request on a register is refused as invalid exactly if the place of the
register is behind the tables, and so for all registers of a bank that the file does not have; what
is refused changes nothing; and a request on a register of the file changes what the file says of
no other one. -/
theorem requests_apart {f : RegisterFile} (hf : ofShape? width banks allocatable volatile = some f)
    (qs : List Request) (hq : q.register? = some r) :
    ((State.run ⟨f, []⟩ qs).perform q = .error .invalid ↔ width * banks ≤ r.bank * width + r.id) ∧
    (banks ≤ r.bank → (State.run ⟨f, []⟩ qs).perform q = .error .invalid) ∧
    (∀ e, (State.run ⟨f, []⟩ qs).perform q = .error e →
      (State.run ⟨f, []⟩ qs).step q = State.run ⟨f, []⟩ qs) ∧
    (Inside width banks r → ∀ p, Inside width banks p → p ≠ r →
      ((State.run ⟨f, []⟩ qs).step q).file.status p = (State.run ⟨f, []⟩ qs).file.status p) := by
  obtain rfl : ofShape width banks allocatable volatile = f := by
    unfold ofShape? at hf
    split at hf
    · exact Option.some.inj hf
    · cases hf
  have h : Sized (ofShape width banks allocatable volatile)
      (State.run ⟨ofShape width banks allocatable volatile, []⟩ qs) := Sized.start.run qs
  have hiff := perform_invalid_iff
    (s := State.run ⟨ofShape width banks allocatable volatile, []⟩ qs) hq
  rw [h.index_eq, h.size_eq] at hiff
  refine ⟨hiff, fun hb => hiff.mpr ?_, fun e he => by rw [State.step, he],
    fun hr p hp hne => h.status_step hq hr hp hne⟩
  calc width * banks ≤ width * r.bank := Nat.mul_le_mul_left width hb
    _ = r.bank * width := Nat.mul_comm ..
    _ ≤ r.bank * width + r.id := Nat.le_add_right ..

/-- Number 20 of the first bank has taken the owner of register 4 of the second bank. A request on
register 3 of the first bank leaves that register alone, and a third bank is refused. -/
theorem requests_apart_overrun :
    (State.run ⟨ofShape 16 2 .empty .empty, []⟩
      [.assign ⟨1, 4⟩ 7, .assign ⟨0, 20⟩ 9]).file.owner? ⟨1, 4⟩ = some 9 ∧
    ((State.run ⟨ofShape 16 2 .empty .empty, []⟩
      [.assign ⟨1, 4⟩ 7, .assign ⟨0, 20⟩ 9]).step (.assign ⟨0, 3⟩ 1)).file.status ⟨1, 4⟩ =
        (State.run ⟨ofShape 16 2 .empty .empty, []⟩
          [.assign ⟨1, 4⟩ 7, .assign ⟨0, 20⟩ 9]).file.status ⟨1, 4⟩ ∧
    (State.run ⟨ofShape 16 2 .empty .empty, []⟩
      [.assign ⟨1, 4⟩ 7, .assign ⟨0, 20⟩ 9]).perform (.lock ⟨2, 0⟩) = .error .invalid := by
  have hf : ofShape? 16 2 .empty .empty = some (ofShape 16 2 .empty .empty) := if_pos (by decide)
  obtain ⟨-, -, -, hstatus⟩ :=
    requests_apart hf [.assign ⟨1, 4⟩ 7, .assign ⟨0, 20⟩ 9] (q := .assign ⟨0, 3⟩ 1) rfl
  obtain ⟨-, hbank, -, -⟩ :=
    requests_apart hf [.assign ⟨1, 4⟩ 7, .assign ⟨0, 20⟩ 9] (q := .lock ⟨2, 0⟩) rfl
  exact ⟨by decide +kernel, hstatus (by decide) ⟨1, 4⟩ (by decide) (by decide), hbank (by decide)⟩

end Codegen.RegisterFile
