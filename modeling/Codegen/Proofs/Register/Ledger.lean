import Codegen.Proofs.Register.File
import Mathlib.Logic.Function.Basic
import Mathlib.Data.List.Forall2

/-!
# The register file and its ledger

A ledger keeps for each register who owns it, how often it is locked and whether it was written; it
has nothing to search and nothing to keep consistent. A register file that serves requests says at
any time what the ledger says, and refuses the requests that the ledger refuses.

* `RegisterFile.Request`, `State.perform`: the requests, and how a register file serves them;
* `Ledger`, `Ledger.perform`: the same requests on a ledger;
* `Request.Fits`, `Ledger.Admits`: requests on registers of the file, one after the other;
* `Agrees`, `Agrees.perform`, `Agrees.run`: **a register file agrees with its ledger**, through one
  request and through all;
* `Books`, `Refusals`, `Searches`, `Restored`: what the sets and tables say, what is refused, what a
  search finds and what a snapshot brings back;
* `RegisterFile.books_kept`: **all of these hold behind every run of requests.**
-/

namespace Codegen.RegisterFile

/-! ## Requests -/

/-- A request to a register file. -/
inductive Request
  | assign (register : Register) (owner : ValueId)
  | release (register : Register)
  | lock (register : Register)
  | unlock (register : Register)
  | unlockAll
  | clobber (register : Register)
  /-- The next register to evict is looked for. -/
  | evict (bank : Nat) (exclude : RegisterSet)
  /-- A snapshot of the owners is taken. -/
  | save
  /-- The owners of an earlier snapshot, by its number, come back. -/
  | restore (number : Nat)
  | reset
deriving DecidableEq

/-- A register file, and the snapshots that were taken of it. -/
structure State where
  file : RegisterFile
  saved : List Occupancy

namespace State

/-- The file puts another one in its place. -/
def withFile (s : State) (f : RegisterFile) : State := { s with file := f }

/-- How a register file serves a request. -/
def perform (s : State) : Request → Except RegisterError State
  | .assign r v => (s.file.assign r v).map s.withFile
  | .release r => (s.file.release r).map s.withFile
  | .lock r => (s.file.lock r).map s.withFile
  | .unlock r => (s.file.unlock r).map s.withFile
  | .unlockAll => .ok (s.withFile s.file.unlockAll)
  | .clobber r => .ok (s.withFile (s.file.clobber r))
  | .evict b ex => .ok (s.withFile (s.file.evictable? b ex).2)
  | .save => .ok { s with saved := s.saved ++ [s.file.occupancy] }
  | .restore k =>
    match s.saved[k]? with
    | some o => .ok (s.withFile (s.file.restore o))
    | none => .ok s
  | .reset => .ok (s.withFile s.file.reset)

/-- The state behind a request; a refused one changes nothing. -/
def step (s : State) (q : Request) : State :=
  match s.perform q with
  | .ok t => t
  | .error _ => s

/-- The state behind requests, one after the other. -/
def run (s : State) (qs : List Request) : State := qs.foldl step s

end State

/-! ## Ledgers -/

/-- Who owns each register, how often it is locked, and whether it was written. -/
structure Ledger where
  owner? : Register → Option ValueId
  locks : Register → Nat
  written : Register → Bool
  /-- The owners at each snapshot. -/
  saved : List (Register → Option ValueId)

namespace Ledger

/-- Nothing is owned, locked or written. -/
def blank : Ledger := ⟨fun _ => none, fun _ => 0, fun _ => false, []⟩

/-- How a ledger serves a request: only owned registers are released and locked, and only locked
ones are unlocked. -/
def perform (l : Ledger) : Request → Except RegisterError Ledger
  | .assign r v => .ok { l with
      owner? := Function.update l.owner? r (some v)
      written := Function.update l.written r true }
  | .release r =>
    if l.owner? r = none then .error .notAllocated
    else .ok { l with
      owner? := Function.update l.owner? r none
      locks := Function.update l.locks r 0 }
  | .lock r =>
    if l.owner? r = none then .error .notAllocated
    else .ok { l with locks := Function.update l.locks r (l.locks r + 1) }
  | .unlock r =>
    if l.locks r = 0 then .error .lockUnderflow
    else .ok { l with locks := Function.update l.locks r (l.locks r - 1) }
  | .unlockAll => .ok { l with locks := fun _ => 0 }
  | .clobber r => .ok { l with written := Function.update l.written r true }
  | .evict _ _ => .ok l
  | .save => .ok { l with saved := l.saved ++ [l.owner?] }
  | .restore k =>
    match l.saved[k]? with
    | some owner? => .ok { l with owner? := owner?, locks := fun _ => 0 }
    | none => .ok l
  | .reset => .ok { blank with saved := l.saved }

/-- The ledger behind a request; a refused one changes nothing. -/
def step (l : Ledger) (q : Request) : Ledger :=
  match l.perform q with
  | .ok m => m
  | .error _ => l

/-- The ledger behind requests, one after the other. -/
def run (l : Ledger) (qs : List Request) : Ledger := qs.foldl step l

end Ledger

/-- The registers of a file of that many banks of that width. -/
def Inside (width banks : Nat) (r : Register) : Prop := r.bank < banks ∧ r.id < width

instance (width banks : Nat) (r : Register) : Decidable (Inside width banks r) :=
  inferInstanceAs (Decidable (_ ∧ _))

/-- The request names registers of the file and snapshots that were taken, and no register gets 256
locks. -/
def Request.Fits (width banks : Nat) (l : Ledger) : Request → Prop
  | assign r _ | release r | unlock r | clobber r => Inside width banks r
  | lock r => Inside width banks r ∧ l.locks r < 255
  | restore k => k < l.saved.length
  | unlockAll | evict .. | save | reset => True

instance (width banks : Nat) (l : Ledger) (q : Request) : Decidable (q.Fits width banks l) :=
  match q with
  | .assign .. | .release _ | .unlock _ | .clobber _ =>
    inferInstanceAs (Decidable (Inside width banks _))
  | .lock _ => inferInstanceAs (Decidable (_ ∧ _))
  | .restore _ => inferInstanceAs (Decidable (_ < _))
  | .unlockAll | .evict .. | .save | .reset => inferInstanceAs (Decidable True)

/-- **Each of the requests fits**, one after the other. -/
def Ledger.Admits (width banks : Nat) : Ledger → List Request → Prop
  | _, [] => True
  | l, q :: qs => q.Fits width banks l ∧ (l.step q).Admits width banks qs

instance Ledger.decidableAdmits (width banks : Nat) :
    (l : Ledger) → (qs : List Request) → Decidable (l.Admits width banks qs)
  | _, [] => inferInstanceAs (Decidable True)
  | l, q :: qs =>
    have := decidableAdmits width banks (l.step q) qs
    inferInstanceAs (Decidable (_ ∧ _))

/-! ## Agreement -/

/-- A snapshot shows the owners. -/
structure Pictures (f : RegisterFile) (o : Occupancy) (owner? : Register → Option ValueId) :
    Prop where
  size : o.owners.size = f.size
  owner : ∀ r, f.InRange r → o.owners.getD (f.index r) none = owner? r
  used_iff : ∀ r, o.used.contains r = true ↔ f.InRange r ∧ ∃ v, owner? r = some v

/-- **A register file agrees with a ledger.** The first file gives the shape. -/
structure Agrees (f : RegisterFile) (s : State) (l : Ledger) : Prop where
  wellFormed : s.file.WellFormed
  shape : SameShape f s.file
  owner : ∀ r, f.InRange r → s.file.owner? r = l.owner? r
  locks : ∀ r, f.InRange r → s.file.lockCount r = l.locks r
  written : ∀ r, f.InRange r → s.file.clobbered.contains r = l.written r
  saved : List.Forall₂ (Pictures f) s.saved l.saved

/-- A file and a ledger give the same answer: either is done and they agree, or both refuse for the
same reason. -/
inductive Answers (f : RegisterFile) : Except RegisterError State → Except RegisterError Ledger →
    Prop
  | done {t : State} {m : Ledger} (h : Agrees f t m) : Answers f (.ok t) (.ok m)
  | refused (e : RegisterError) : Answers f (.error e) (.error e)

variable {f : RegisterFile} {s : State} {l : Ledger} {r q : Register} {width banks : Nat}
  {allocatable volatile : RegisterSet}

theorem Pictures.congr {g : RegisterFile} {o : Occupancy} {owner? : Register → Option ValueId}
    (h : Pictures f o owner?) (hs : SameShape f g) : Pictures g o owner? where
  size := h.size.trans hs.size.symm
  owner r hr := hs.index r ▸ h.owner r (hs.inRange.mp hr)
  used_iff r := by rw [h.used_iff, hs.inRange]

theorem WellFormed.pictures {g : RegisterFile} (hg : g.WellFormed) (hs : SameShape f g) :
    Pictures f g.occupancy g.owner? where
  size := hg.owners_size.trans hs.size
  owner r hr := by
    rw [owner?_eq (hs.inRange.mpr hr), hs.index]
    rfl
  used_iff r := by
    refine (hg.used_iff r).trans ?_
    rw [hs.inRange]

/-- The owners that a snapshot shows come back. -/
theorem Pictures.restore {o : Occupancy} {owner? : Register → Option ValueId}
    (h : Pictures f o owner?) (hf : f.WellFormed) :
    (f.restore o).WellFormed ∧ SameShape f (f.restore o) ∧
      (∀ q, f.InRange q → (f.restore o).owner? q = owner? q) ∧
      ∀ q, (f.restore o).lockCount q = 0 := by
  obtain ⟨hw, hs, ho, hc⟩ := restore_spec hf h.size fun r => by
    rw [h.used_iff]
    exact and_congr_right fun hr => by rw [h.owner r hr]
  exact ⟨hw, hs, fun q hq => (ho q hq).trans (h.owner q hq), hc⟩

namespace Agrees

theorem inRange (h : Agrees f s l) : s.file.InRange r ↔ f.InRange r := h.shape.inRange

theorem used_iff (h : Agrees f s l) (hr : f.InRange r) :
    s.file.used.contains r = true ↔ l.owner? r ≠ none := by
  rw [h.wellFormed.used_iff, h.inRange, h.owner r hr, and_iff_right hr, Option.ne_none_iff_exists']

theorem unused (h : Agrees f s l) (hr : f.InRange r) (ho : l.owner? r = none) :
    s.file.used.contains r = false := by
  rw [Bool.eq_false_iff, ne_eq, h.used_iff hr, not_not, ho]

theorem locked_iff (h : Agrees f s l) (hr : f.InRange r) :
    s.file.locked.contains r = true ↔ 0 < l.locks r := by
  rw [h.wellFormed.locked_iff, h.inRange, h.locks r hr, and_iff_right hr]

theorem pictures (h : Agrees f s l) : Pictures f s.file.occupancy l.owner? where
  size := (h.wellFormed.pictures h.shape).size
  owner r hr := ((h.wellFormed.pictures h.shape).owner r hr).trans (h.owner r hr)
  used_iff r := by
    rw [(h.wellFormed.pictures h.shape).used_iff]
    exact and_congr_right fun hr => by rw [h.owner r hr]

/-- A file in the place of another. -/
theorem withFile (h : Agrees f s l) {g : RegisterFile} {o : Register → Option ValueId}
    {c : Register → Nat} {w : Register → Bool} (hg : g.WellFormed) (hs : SameShape s.file g)
    (ho : ∀ r, f.InRange r → g.owner? r = o r) (hc : ∀ r, f.InRange r → g.lockCount r = c r)
    (hw : ∀ r, f.InRange r → g.clobbered.contains r = w r) :
    Agrees f (s.withFile g) ⟨o, c, w, l.saved⟩ :=
  ⟨hg, h.shape.trans hs, ho, hc, hw, h.saved⟩

/-! ### One request -/

theorem assign (h : Agrees f s l) (hr : f.InRange r) (v : ValueId) :
    Answers f (s.perform (.assign r v)) (l.perform (.assign r v)) := by
  have hr' := h.inRange.mpr hr
  obtain ⟨g, hg, hw, hs, ho, hc⟩ := assign_spec h.wellFormed hr' v
  rw [State.perform, hg]
  refine .done (h.withFile hw hs (fun q hq => ?_) (fun q hq => ?_) fun q hq => ?_)
  · rw [ho q (h.inRange.mpr hq), h.owner q hq, Function.update_apply]
  · rw [hc, h.locks q hq]
  · rw [clobbered_assign hg, RegisterSet.contains_insert, hr'.isStorable h.wellFormed,
      h.written q hq, Function.update_apply]
    by_cases hqr : q = r <;> simp [hqr]

theorem release (h : Agrees f s l) (hr : f.InRange r) :
    Answers f (s.perform (.release r)) (l.perform (.release r)) := by
  by_cases hn : l.owner? r = none
  · rw [State.perform, release_unused (h.inRange.mpr hr) (h.unused hr hn), Ledger.perform,
      if_pos hn]
    exact .refused _
  · obtain ⟨g, hg, hw, hs, ho, hc⟩ := release_spec h.wellFormed ((h.used_iff hr).mpr hn)
    rw [State.perform, hg, Ledger.perform, if_neg hn]
    refine .done (h.withFile hw hs (fun q hq => ?_) (fun q hq => ?_) fun q hq => ?_)
    · rw [ho q (h.inRange.mpr hq), h.owner q hq, Function.update_apply]
    · rw [hc q (h.inRange.mpr hq), h.locks q hq, Function.update_apply]
    · rw [clobbered_release hg, h.written q hq]

theorem lock (h : Agrees f s l) (hr : f.InRange r) (hl : l.locks r < 255) :
    Answers f (s.perform (.lock r)) (l.perform (.lock r)) := by
  by_cases hn : l.owner? r = none
  · rw [State.perform, lock_unused (h.inRange.mpr hr) (h.unused hr hn), Ledger.perform,
      if_pos hn]
    exact .refused _
  · obtain ⟨g, hg, hw, hs, ho, -, hc⟩ := lock_spec h.wellFormed ((h.used_iff hr).mpr hn)
      (by rwa [h.locks r hr])
    rw [State.perform, hg, Ledger.perform, if_neg hn]
    refine .done (h.withFile hw hs (fun q hq => ?_) (fun q hq => ?_) fun q hq => ?_)
    · rw [ho, h.owner q hq]
    · rw [hc q (h.inRange.mpr hq), h.locks q hq, Function.update_apply]
      by_cases hqr : q = r <;> simp [hqr]
    · rw [clobbered_lock hg, h.written q hq]

theorem unlock (h : Agrees f s l) (hr : f.InRange r) :
    Answers f (s.perform (.unlock r)) (l.perform (.unlock r)) := by
  have hr' := h.inRange.mpr hr
  cases hn : l.locks r with
  | zero =>
    rw [State.perform, unlock_unlocked hr' ((h.locks r hr).trans hn), Ledger.perform, if_pos hn]
    exact .refused _
  | succ n =>
    obtain ⟨g, hg, hw, hs, ho, -, hc⟩ := unlock_spec h.wellFormed hr' ((h.locks r hr).trans hn)
    rw [State.perform, hg, Ledger.perform, if_neg (by omega), hn]
    refine .done (h.withFile hw hs (fun q hq => ?_) (fun q hq => ?_) fun q hq => ?_)
    · rw [ho, h.owner q hq]
    · rw [hc q (h.inRange.mpr hq), h.locks q hq, Function.update_apply]
      rfl
    · rw [clobbered_unlock hg, h.written q hq]

theorem unlockAll (h : Agrees f s l) : Answers f (s.perform .unlockAll) (l.perform .unlockAll) := by
  obtain ⟨hw, hs, ho, hc⟩ := unlockAll_spec h.wellFormed
  exact .done (h.withFile hw hs (fun q hq => by rw [ho, h.owner q hq]) (fun q _ => hc q) h.written)

theorem clobber (h : Agrees f s l) (hr : f.InRange r) :
    Answers f (s.perform (.clobber r)) (l.perform (.clobber r)) := by
  have hw := h.wellFormed
  refine .done (h.withFile ⟨hw.width_le, hw.size_le, hw.owners_size, hw.locks_size, hw.used_iff,
    hw.locked_iff, hw.used_of_locked, hw.clock_lt⟩ ⟨rfl, rfl, rfl, rfl⟩ h.owner h.locks
    fun q hq => ?_)
  change (s.file.clobbered.insert r).contains q = _
  rw [RegisterSet.contains_insert, (h.inRange.mpr hr).isStorable hw, h.written q hq,
    Function.update_apply]
  by_cases hqr : q = r <;> simp [hqr]

theorem evict (h : Agrees f s l) (b : Nat) (ex : RegisterSet) :
    Answers f (s.perform (.evict b ex)) (l.perform (.evict b ex)) := by
  obtain ⟨hw, hs, ho, -, hc⟩ := evictable?_keeps h.wellFormed b ex
  refine .done (h.withFile hw hs (fun q hq => ?_) (fun q hq => ?_) fun q hq => ?_)
  · rw [ho, h.owner q hq]
  · rw [hc, h.locks q hq]
  · rw [clobbered_evictable?, h.written q hq]

theorem save (h : Agrees f s l) : Answers f (s.perform .save) (l.perform .save) :=
  .done ⟨h.wellFormed, h.shape, h.owner, h.locks, h.written,
    List.rel_append h.saved (.cons h.pictures .nil)⟩

theorem restore (h : Agrees f s l) {k : Nat} (hk : k < l.saved.length) :
    Answers f (s.perform (.restore k)) (l.perform (.restore k)) := by
  have hk' : k < s.saved.length := h.saved.length_eq ▸ hk
  have hp : Pictures s.file s.saved[k] l.saved[k] := (h.saved.get hk' hk).congr h.shape
  obtain ⟨hw, hs, ho, hc⟩ := hp.restore h.wellFormed
  rw [State.perform, Ledger.perform, List.getElem?_eq_getElem hk, List.getElem?_eq_getElem hk']
  refine .done (h.withFile hw hs (fun q hq => ?_) (fun q _ => hc q) h.written)
  exact ho q (h.inRange.mpr hq)

theorem reset (h : Agrees f s l) : Answers f (s.perform .reset) (l.perform .reset) :=
  .done (h.withFile (reset_wellFormed h.wellFormed.width_le h.wellFormed.size_le)
    ⟨rfl, rfl, rfl, rfl⟩ (fun _ _ => owner?_reset) (fun _ _ => lockCount_reset)
    fun q _ => RegisterSet.contains_empty q)

/-! ### A run -/

/-- **A register file answers as its ledger does.** -/
theorem perform (h : Agrees f s l) (hf : ∀ r, f.InRange r ↔ Inside width banks r) {q : Request}
    (hq : q.Fits width banks l) : Answers f (s.perform q) (l.perform q) := by
  cases q with
  | assign r v => exact h.assign ((hf r).mpr hq) v
  | release r => exact h.release ((hf r).mpr hq)
  | lock r => exact h.lock ((hf r).mpr hq.1) hq.2
  | unlock r => exact h.unlock ((hf r).mpr hq)
  | unlockAll => exact h.unlockAll
  | clobber r => exact h.clobber ((hf r).mpr hq)
  | evict b ex => exact h.evict b ex
  | save => exact h.save
  | restore k => exact h.restore hq
  | reset => exact h.reset

theorem step (h : Agrees f s l) {q : Request} (ha : Answers f (s.perform q) (l.perform q)) :
    Agrees f (s.step q) (l.step q) := by
  unfold State.step Ledger.step
  revert ha
  generalize s.perform q = a, l.perform q = b
  rintro (ht | _)
  · exact ht
  · exact h

/-- **A register file agrees with its ledger behind every run.** -/
theorem run (hf : ∀ r, f.InRange r ↔ Inside width banks r) {qs : List Request} :
    ∀ {s l}, Agrees f s l → l.Admits width banks qs → Agrees f (s.run qs) (l.run qs) := by
  induction qs with
  | nil => exact fun h _ => h
  | cons q qs ih => exact fun h hq => ih (h.step (h.perform hf hq.1)) hq.2

end Agrees

/-! ## Files that were made -/

theorem inRange_ofShape :
    (ofShape width banks allocatable volatile).InRange r ↔ Inside width banks r := by
  have hindex : (ofShape width banks allocatable volatile).index r = r.bank * width + r.id := rfl
  have hsize : (ofShape width banks allocatable volatile).size = width * banks := rfl
  have hwidth : (ofShape width banks allocatable volatile).width = width := rfl
  rw [InRange, Inside, hindex, hsize, hwidth, and_comm, and_congr_left_iff]
  intro hid
  constructor
  · intro h
    by_contra hb
    have : width * banks ≤ width * r.bank := Nat.mul_le_mul_left _ (Nat.not_lt.mp hb)
    rw [Nat.mul_comm r.bank] at h
    omega
  · intro hb
    have : width * (r.bank + 1) ≤ width * banks := Nat.mul_le_mul_left _ hb
    rw [Nat.mul_comm r.bank]
    rw [Nat.mul_add] at this
    omega

theorem Agrees.start (hw : width ≤ 64) (hb : banks ≤ 4) :
    Agrees (ofShape width banks allocatable volatile)
      ⟨ofShape width banks allocatable volatile, []⟩ .blank where
  wellFormed := wellFormed_ofShape hw hb
  shape := .refl _
  owner _ _ := owner?_ofShape
  locks _ _ := lockCount_reset (f := ofShape width banks allocatable volatile)
  written r _ := RegisterSet.contains_empty r
  saved := .nil

theorem Agrees.behind (hw : width ≤ 64) (hb : banks ≤ 4) {qs : List Request}
    (hq : Ledger.blank.Admits width banks qs) :
    Agrees (ofShape width banks allocatable volatile)
      (State.run ⟨ofShape width banks allocatable volatile, []⟩ qs) (Ledger.blank.run qs) :=
  .run (fun _ => inRange_ofShape) (.start hw hb) hq

/-! ## What was saved and written -/

/-- Nothing that was written counts as unwritten. -/
def Grown (f g : RegisterFile) : Prop :=
  ∀ r, f.clobbered.contains r = true → g.clobbered.contains r = true

theorem Grown.of_eq {f g : RegisterFile} (h : g.clobbered = f.clobbered) : Grown f g :=
  fun _ hr => h ▸ hr

theorem Grown.of_insert {f g : RegisterFile} (h : g.clobbered = f.clobbered.insert r) :
    Grown f g := fun q hq => by
  rw [h, RegisterSet.contains_insert, hq, Bool.true_or]

theorem step_of_except {q : Request} {e : Except RegisterError RegisterFile}
    (he : s.perform q = e.map s.withFile) (hg : ∀ g, e = .ok g → Grown s.file g) :
    ∃ g, s.step q = s.withFile g ∧ Grown s.file g := by
  unfold State.step
  rw [he]
  cases e with
  | error => exact ⟨s.file, rfl, .of_eq rfl⟩
  | ok g => exact ⟨g, rfl, hg g rfl⟩

theorem step_restore {k : Nat} {o : Occupancy} (hk : s.saved[k]? = some o) :
    s.step (.restore k) = s.withFile (s.file.restore o) := by
  simp [State.step, State.perform, hk]

/-- Only a save changes the snapshots, and only a reset forgets what was written. -/
theorem step_cases (s : State) (q : Request) :
    q = .save ∨ ∃ g, s.step q = s.withFile g ∧ (q ≠ .reset → Grown s.file g) := by
  have some_file (h : ∃ g, s.step q = s.withFile g ∧ Grown s.file g) :
      q = .save ∨ ∃ g, s.step q = s.withFile g ∧ (q ≠ .reset → Grown s.file g) :=
    .inr (h.imp fun _ hg => ⟨hg.1, fun _ => hg.2⟩)
  cases q with
  | assign r v => exact some_file (step_of_except rfl fun g h => .of_insert (clobbered_assign h))
  | release r => exact some_file (step_of_except rfl fun g h => .of_eq (clobbered_release h))
  | lock r => exact some_file (step_of_except rfl fun g h => .of_eq (clobbered_lock h))
  | unlock r => exact some_file (step_of_except rfl fun g h => .of_eq (clobbered_unlock h))
  | unlockAll => exact some_file ⟨_, rfl, .of_eq rfl⟩
  | clobber r => exact some_file ⟨_, rfl, .of_insert rfl⟩
  | evict b ex => exact some_file ⟨_, rfl, .of_eq (clobbered_evictable? b ex)⟩
  | save => exact .inl rfl
  | restore k =>
    cases hk : s.saved[k]? with
    | none =>
      exact some_file
        ⟨s.file, by simp [State.step, State.perform, hk, State.withFile], .of_eq rfl⟩
    | some o => exact some_file ⟨_, step_restore hk, .of_eq rfl⟩
  | reset => exact .inr ⟨_, rfl, fun h => absurd rfl h⟩

theorem State.run_append (s : State) (qs rs : List Request) :
    s.run (qs ++ rs) = (s.run qs).run rs := List.foldl_append

theorem Ledger.admits_append {qs rs : List Request} :
    l.Admits width banks (qs ++ rs) ↔
      l.Admits width banks qs ∧ (l.run qs).Admits width banks rs := by
  induction qs generalizing l with
  | nil => exact (and_iff_right trivial).symm
  | cons q qs ih => exact (and_congr_right fun _ => ih).trans and_assoc.symm

theorem saved_run (s : State) (qs : List Request) : s.saved <+: (s.run qs).saved := by
  induction qs generalizing s with
  | nil => exact List.prefix_rfl
  | cons q qs ih =>
    refine .trans ?_ (ih _)
    obtain rfl | ⟨g, hg, -⟩ := step_cases s q
    · exact List.prefix_append _ _
    · rw [hg]
      exact List.prefix_rfl

theorem grown_run (s : State) {qs : List Request} (hq : .reset ∉ qs) :
    Grown s.file (s.run qs).file := by
  induction qs generalizing s with
  | nil => exact .of_eq rfl
  | cons q qs ih =>
    rw [List.mem_cons, not_or] at hq
    intro r hr
    refine ih _ hq.2 r ?_
    obtain rfl | ⟨g, hg, hgrown⟩ := step_cases s q
    · exact hr
    · rw [hg]
      exact hgrown (Ne.symm hq.1) r hr

/-! ## The books -/

/-- The sets and tables of a file say what the ledger says. -/
structure Books (width banks : Nat) (f : RegisterFile) (l : Ledger) : Prop where
  owner : ∀ r, Inside width banks r → f.owner? r = l.owner? r
  used_iff : ∀ r, f.used.contains r = true ↔ Inside width banks r ∧ f.owner? r ≠ none
  locks : ∀ r, Inside width banks r → f.lockCount r = l.locks r
  locked_iff : ∀ r, f.locked.contains r = true ↔ Inside width banks r ∧ 0 < l.locks r
  used_of_locked : ∀ r, f.locked.contains r = true → f.used.contains r = true
  written : ∀ r, Inside width banks r → f.clobbered.contains r = l.written r
  occupants : ∀ r v, (r, v) ∈ f.occupants ↔ f.used.contains r = true ∧ f.owner? r = some v
  once : (f.occupants.map Prod.fst).Nodup

theorem Agrees.books (h : Agrees f s l) (hf : ∀ r, f.InRange r ↔ Inside width banks r) :
    Books width banks s.file l where
  owner r hr := h.owner r ((hf r).mpr hr)
  used_iff r := by rw [h.wellFormed.used_iff, h.inRange, hf, Option.ne_none_iff_exists']
  locks r hr := h.locks r ((hf r).mpr hr)
  locked_iff r := by
    rw [h.wellFormed.locked_iff, h.inRange, hf]
    exact and_congr_right fun hr => by rw [h.locks r ((hf r).mpr hr)]
  used_of_locked := h.wellFormed.used_of_locked
  written r hr := h.written r ((hf r).mpr hr)
  occupants r v := by
    rw [mem_occupants h.wellFormed, h.wellFormed.used_iff]
    exact ⟨fun ⟨hr, hv⟩ => ⟨⟨hr, v, hv⟩, hv⟩, fun ⟨⟨hr, _⟩, hv⟩ => ⟨hr, hv⟩⟩
  once := nodup_occupants

/-- The file refuses what the ledger refuses, for the same reason, and what is refused changes
nothing. -/
structure Refusals (width banks : Nat) (s : State) (l : Ledger) : Prop where
  iff : ∀ q : Request, q.Fits width banks l → ∀ e, s.perform q = .error e ↔ l.perform q = .error e
  unchanged : ∀ q e, s.perform q = .error e → s.step q = s

theorem Agrees.refusals (h : Agrees f s l) (hf : ∀ r, f.InRange r ↔ Inside width banks r) :
    Refusals width banks s l where
  iff q hq e := by
    have ha := h.perform hf hq
    revert ha
    generalize s.perform q = a, l.perform q = b
    rintro (_ | _) <;> simp
  unchanged q e he := by rw [State.step, he]

/-! ## Searches -/

/-- The free registers of a class. -/
def Ledger.Free (l : Ledger) (width banks : Nat) (allocatable volatile : RegisterSet)
    (isVolatile : Bool) (ex : RegisterSet) (r : Register) : Prop :=
  Inside width banks r ∧ allocatable.contains r = true ∧ volatile.contains r = isVolatile ∧
    l.owner? r = none ∧ ex.contains r = false

/-- What a search of a bank finds: the lowest register, or nothing if there is none. -/
def Lowest (p : Register → Prop) (b : Nat) : Option Register → Prop
  | some r => r.bank = b ∧ p r ∧ ∀ i < r.id, ¬ p ⟨b, i⟩
  | none => ∀ i, ¬ p ⟨b, i⟩

/-- A search of a class finds its lowest free register; a search of both classes looks for a
volatile one first. -/
structure Searches (width banks : Nat) (allocatable volatile : RegisterSet) (f : RegisterFile)
    (l : Ledger) : Prop where
  ofClass : ∀ b < banks, ∀ c ex, ∃ found, f.freeOfClass? b c ex = some found ∧
    Lowest (l.Free width banks allocatable volatile c ex) b found
  both : ∀ b < banks, ∀ ex, ∃ found, f.free? b ex = some found ∧
    ((∃ i, l.Free width banks allocatable volatile true ex ⟨b, i⟩) →
      Lowest (l.Free width banks allocatable volatile true ex) b found) ∧
    ((∀ i, ¬ l.Free width banks allocatable volatile true ex ⟨b, i⟩) →
      Lowest (l.Free width banks allocatable volatile false ex) b found)

theorem Agrees.isFree_iff (h : Agrees (ofShape width banks allocatable volatile) s l)
    (hr : r.bank < banks) (c : Bool) (ex : RegisterSet) :
    s.file.IsFree c ex r ↔ l.Free width banks allocatable volatile c ex r := by
  have hs : s.file.width = width ∧ s.file.allocatable = allocatable ∧ s.file.volatile = volatile :=
    ⟨h.shape.width, h.shape.allocatable, h.shape.volatile⟩
  rw [IsFree, Ledger.Free, hs.1, hs.2.1, hs.2.2, Inside, and_iff_right hr]
  refine and_congr_right fun hid => and_congr_right fun _ => and_congr_right fun _ =>
    and_congr_left fun _ => ?_
  rw [Bool.eq_false_iff, ne_eq, h.used_iff (inRange_ofShape.mpr ⟨hr, hid⟩), not_not]

theorem Agrees.lowest_iff (h : Agrees (ofShape width banks allocatable volatile) s l) {b : Nat}
    (hb : b < banks) (c : Bool) (ex : RegisterSet) (found : Option Register) :
    Lowest (s.file.IsFree c ex) b found ↔
      Lowest (l.Free width banks allocatable volatile c ex) b found := by
  cases found with
  | none => exact forall_congr' fun i => not_congr (h.isFree_iff hb c ex)
  | some r =>
    refine and_congr_right fun hr => and_congr (h.isFree_iff (hr ▸ hb) c ex) ?_
    exact forall₂_congr fun i _ => not_congr (h.isFree_iff hb c ex)

theorem Agrees.searches (h : Agrees (ofShape width banks allocatable volatile) s l)
    (hb : banks ≤ 4) : Searches width banks allocatable volatile s.file l := by
  have class_spec (b : Nat) (hlt : b < banks) (c : Bool) (ex : RegisterSet) :
      ∃ found, s.file.freeOfClass? b c ex = some found ∧
        Lowest (l.Free width banks allocatable volatile c ex) b found := by
    obtain ⟨found, hfound, hsome, hnone⟩ := freeOfClass?_spec (f := s.file)
      h.wellFormed.width_le (Nat.lt_of_lt_of_le hlt hb) c ex
    refine ⟨found, hfound, (h.lowest_iff hlt c ex found).mp ?_⟩
    cases found with
    | none => exact hnone rfl
    | some r => exact hsome r rfl
  refine ⟨class_spec, fun b hlt ex => ?_⟩
  obtain ⟨first, hfirst, hlow⟩ := class_spec b hlt true ex
  cases first with
  | some r =>
    refine ⟨some r, by rw [free?, hfirst], fun _ => hlow, fun hno => ?_⟩
    obtain ⟨rfl, hfree, -⟩ := hlow
    exact absurd hfree (hno r.id)
  | none =>
    obtain ⟨second, hsecond, hlow'⟩ := class_spec b hlt false ex
    exact ⟨second, by rw [free?, hfirst]; exact hsecond,
      fun hex => hex.elim fun i hi => absurd hi (hlow i), fun _ => hlow'⟩

/-! ## Snapshots -/

/-- A snapshot that is restored brings back the owners of its time, without locks; what was written
stays written. -/
structure Restored (s t u : State) : Prop where
  used : u.file.used = s.file.used
  owner : u.file.owner? = s.file.owner?
  unlocked : ∀ r, u.file.locked.contains r = false
  locks : ∀ r, u.file.lockCount r = 0
  written : u.file.clobbered = t.file.clobbered

theorem Agrees.restored {t : State} {m : Ledger} (hs : Agrees f s l) (ht : Agrees f t m)
    (hst : (s.step .save).saved <+: t.saved) :
    Restored s t (t.step (.restore s.saved.length)) := by
  have hsaved : t.saved[s.saved.length]? = some s.file.occupancy := by
    obtain ⟨rest, hrest⟩ := hst
    change (s.saved ++ [s.file.occupancy]) ++ rest = t.saved at hrest
    rw [← hrest, List.append_assoc, List.getElem?_append_right (Nat.le_refl _)]
    simp
  rw [step_restore hsaved]
  have shape : t.file.index = s.file.index ∧ t.file.size = s.file.size :=
    ⟨funext fun r => (ht.shape.index r).trans (hs.shape.index r).symm,
      ht.shape.size.trans hs.shape.size.symm⟩
  refine ⟨rfl, funext fun r => ?_, RegisterSet.contains_empty, fun _ => lockCount_unlockAll, rfl⟩
  change (if t.file.index r < t.file.size then s.file.owners.getD (t.file.index r) none else none) =
    if s.file.index r < s.file.size then s.file.owners.getD (s.file.index r) none else none
  rw [shape.1, shape.2]

/-! ## Every run -/

/-- **The books of a register file are kept.** Behind every run of requests on a file of any shape
its sets and tables say what the ledger says, the next request is refused as the ledger refuses it,
searches find the lowest free register, every snapshot can be returned to, and what was written
stays written until a reset. -/
theorem books_kept {f : RegisterFile} (hf : ofShape? width banks allocatable volatile = some f)
    {qs : List Request} (hq : Ledger.blank.Admits width banks qs) :
    Books width banks (State.run ⟨f, []⟩ qs).file (Ledger.blank.run qs) ∧
    Refusals width banks (State.run ⟨f, []⟩ qs) (Ledger.blank.run qs) ∧
    Searches width banks allocatable volatile (State.run ⟨f, []⟩ qs).file (Ledger.blank.run qs) ∧
    (∀ before behind, qs = before ++ .save :: behind →
      Restored (State.run ⟨f, []⟩ before) (State.run ⟨f, []⟩ qs)
        ((State.run ⟨f, []⟩ qs).step (.restore (State.run ⟨f, []⟩ before).saved.length))) ∧
    (∀ before behind, qs = before ++ behind → .reset ∉ behind →
      Grown (State.run ⟨f, []⟩ before).file (State.run ⟨f, []⟩ qs).file) := by
  unfold ofShape? at hf
  split at hf
  next hsize =>
    obtain rfl := Option.some.inj hf
    have h : Agrees (ofShape width banks allocatable volatile) _ _ := .behind hsize.1 hsize.2 hq
    refine ⟨h.books fun r => inRange_ofShape, h.refusals fun r => inRange_ofShape,
      h.searches hsize.2, fun before behind heq => ?_, fun before behind heq hreset => ?_⟩
    · subst heq
      refine (Agrees.behind hsize.1 hsize.2 (Ledger.admits_append.mp hq).1).restored h ?_
      rw [State.run_append]
      exact saved_run _ behind
    · subst heq
      rw [State.run_append]
      exact grown_run _ hreset
  next => cases hf

/-- A register is locked twice and saved, loses its locks and its owner, and comes back; a lock and
an unlock are refused on the way. -/
def borrowed : List Request :=
  [.assign ⟨0, 0⟩ 7, .lock ⟨0, 0⟩, .lock ⟨0, 0⟩, .save, .assign ⟨1, 3⟩ 8, .unlock ⟨0, 0⟩,
    .release ⟨0, 0⟩, .lock ⟨0, 0⟩, .unlock ⟨0, 0⟩, .evict 1 .empty, .clobber ⟨0, 2⟩, .restore 0]

theorem books_of_borrowed :
    Ledger.blank.Admits 4 2 borrowed ∧
    (Ledger.blank.run borrowed).owner? ⟨0, 0⟩ = some 7 ∧
    (Ledger.blank.run borrowed).owner? ⟨1, 3⟩ = none ∧
    (Ledger.blank.run borrowed).locks ⟨0, 0⟩ = 0 ∧
    (Ledger.blank.run borrowed).written ⟨1, 3⟩ = true ∧
    Books 4 2 (State.run ⟨ofShape 4 2 (.ofList [⟨0, 0⟩, ⟨1, 3⟩]) (.ofList [⟨1, 3⟩]), []⟩
      borrowed).file (Ledger.blank.run borrowed) := by
  have hq : Ledger.blank.Admits 4 2 borrowed := by decide
  exact ⟨hq, rfl, rfl, rfl, rfl, (books_kept (if_pos (by decide)) hq).1⟩

end Codegen.RegisterFile
