import Mathlib
import Codegen.Proofs.Frame.Discipline

/-!
# Functions keep the calling convention

A run of a function goes through its prologue, through its body inside the frame, and through an
epilogue whenever it returns.

* `Frame.Inside`: **the configurations of a run of the body**;
* `Frame.Inside.step`: a step of the body stays inside, or is at an epilogue;
* `Frame.KeepsConvention`: **what the calling convention asks for**;
* `Frame.keepsConvention`: **every function with a disciplined body keeps the convention**.
-/

namespace Codegen

open ByteMachine

/-! ## Operations that move the stack pointer -/

namespace ByteMachine.Performs

variable {k : ByteMachine} {o : Operation} {s t : State} (h : k.Performs o s t)
include h

theorem of_push (ho : o.opcode = .push) : ∃ w, t = s.pushed k.stackPointer 8 [w] := by
  cases h with
  | push => exact ⟨_, rfl⟩
  | sumInto hc | sum hc => simp_all [sum?]
  | free hc => simp_all [IsFree]
  | _ => cases ho

theorem of_savePair (ho : o.opcode = .savePair) :
    ∃ ws, ws.length ≤ 2 ∧ t = s.pushed k.stackPointer 16 ws := by
  cases h with
  | savePair _ hr => exact ⟨_, by rw [List.length_map]; omega, rfl⟩
  | sumInto hc | sum hc => simp_all [sum?]
  | free hc => simp_all [IsFree]
  | _ => cases ho

theorem of_pop (ho : o.opcode = .pop) :
    ∃ x w, o.operands = [x] ∧ k.Writes (s.popped k.stackPointer 8 []) x w
      (s.popped k.stackPointer 8 []) t := by
  cases h with
  | pop h => exact ⟨_, _, rfl, h⟩
  | sumInto hc | sum hc => simp_all [sum?]
  | free hc => simp_all [IsFree]
  | _ => cases ho

theorem of_restorePair (ho : o.opcode = .restorePair) :
    ∃ rs : List Register, o.operands = rs.map .register ∧ t = s.popped k.stackPointer 16 rs := by
  cases h with
  | restorePair hx => exact ⟨_, hx, rfl⟩
  | sumInto hc | sum hc => simp_all [sum?]
  | free hc => simp_all [IsFree]
  | _ => cases ho

end ByteMachine.Performs

/-- The operation that a run of a function ends at. -/
def Operation.ret : Operation := ⟨.ret, []⟩

namespace Frame

variable {f : Frame} {config : Config} {instructions : List Instruction}
  {body program : List Operation} {constants : String → BitVec 64} {s₀ s t : State}
  {c c' : Configuration}

/-! ## Runs of the body -/

/-- What a push and a save have put on the stack for the operation that takes it back. -/
def Fits (o : Operation) (bytes : Nat) (ws : List (BitVec 64)) : Prop :=
  (o.opcode = .pop ∧ bytes = 8 ∨ o.opcode = .restorePair ∧ bytes = 16) ∧ 8 * ws.length ≤ bytes

/-- **The configurations of a run of the body**: in the frame, with what is left of the body, or
between a push and its pop. -/
inductive Inside (f : Frame) (config : Config) (body : List Operation) (s₀ : State) :
    Configuration → Prop
  | framed {rest os s} (hb : rest ⊆ body) (ho : f.Encloses config rest os) (hp : Paired rest)
    (hs : f.Entered config s₀ s) : Inside f config body s₀ (os, s)
  | pushed {o rest os s bytes ws} (hb : o :: rest ⊆ body) (ho : f.Encloses config (o :: rest) os)
    (hp : Paired rest) (hs : f.Entered config s₀ s) (hw : Fits o bytes ws) :
    Inside f config body s₀ (os, s.pushed config.architecture.target.stackPointer bytes ws)

section Run

variable (hl : layout config instructions body = .ok f)
  (hd : IsDisciplined config.architecture body)
include hl hd

theorem mayWrite_of_mem {o p : Operation} (ho : o ∈ body)
    (hp : ∀ r, .register r ∈ p.operands → .register r ∈ o.operands) (r : Register)
    (hr : .register r ∈ p.operands) : f.MayWrite config r :=
  mayWrite_of_usable hl ho (hp r hr) (hd.usable o ho r (hp r hr))

/-- What is pushed is popped by the next operation, and the function is in its frame again. -/
theorem Inside.pop {o p : Operation} {rest os : List Operation} {bytes : Nat}
    {ws : List (BitVec 64)} (hb : o :: rest ⊆ body) (ho : f.Encloses config rest os)
    (hp : Paired rest) (hs : f.Entered config s₀ s) (hw : Fits o bytes ws)
    (hcode : p.opcode = o.opcode)
    (hregisters : ∀ r, .register r ∈ p.operands → .register r ∈ o.operands)
    (h : (f.machine config instructions constants
      (s₀.registers config.architecture.target.stackPointer)).Performs p
        (s.pushed config.architecture.target.stackPointer bytes ws) t) :
    Inside f config body s₀ (os, t) := by
  have hwrite := mayWrite_of_mem hl hd (hb List.mem_cons_self) hregisters
  refine .framed (fun q hq => hb (List.mem_cons_of_mem _ hq)) ho hp (hs.of_keeps ?_)
  obtain ⟨⟨hpop, rfl⟩ | ⟨hrestore, rfl⟩, hlen⟩ := hw
  · obtain ⟨x, w, hx, hwrites⟩ := h.of_pop (hcode.trans hpop)
    rw [hx] at hwrite
    exact (Keeps.of_popped hl hs (by decide) hlen fun _ hr => by cases hr).trans
      (.of_writes hl (fun r hr => hwrite r (hr ▸ List.mem_singleton_self _)) hwrites)
  · obtain ⟨rs, hrs, rfl⟩ := h.of_restorePair (hcode.trans hrestore)
    rw [hrs] at hwrite
    exact .of_popped hl hs (Nat.le_refl _) hlen fun r hr => hwrite r (List.mem_map_of_mem hr)

/-- An operation of the body that is performed in the frame. -/
theorem Inside.perform {o p : Operation} {rest os : List Operation} (hb : o :: rest ⊆ body)
    (ho : f.Encloses config rest os) (hp : Paired (o :: rest)) (hs : f.Entered config s₀ s)
    (hcode : p.opcode = o.opcode)
    (hregisters : ∀ r, .register r ∈ p.operands → .register r ∈ o.operands)
    (h : (f.machine config instructions constants
      (s₀.registers config.architecture.target.stackPointer)).Performs p s t) :
    Inside f config body s₀ (os, t) := by
  have hrest {rest' : List Operation} (h : rest' ⊆ rest) : rest' ⊆ body := fun q hq =>
    hb (List.mem_cons_of_mem _ (h hq))
  cases hp with
  | pair hm hr =>
    rcases hm with ⟨hpush, hpop⟩ | ⟨hsave, hrestore⟩
    · obtain ⟨w, rfl⟩ := h.of_push (hcode.trans hpush)
      exact .pushed (hrest (List.Subset.refl _)) ho hr hs ⟨.inl ⟨hpop, rfl⟩, by simp⟩
    · obtain ⟨ws, hws, rfl⟩ := h.of_savePair (hcode.trans hsave)
      exact .pushed (hrest (List.Subset.refl _)) ho hr hs ⟨.inr ⟨hrestore, rfl⟩, by omega⟩
  | cons hm hr =>
    have hkeeps := Keeps.of_performs hl (hcode ▸ hm)
      (mayWrite_of_mem hl hd (hb List.mem_cons_self) hregisters) h
    exact .framed (hrest (List.Subset.refl _)) ho hr (hs.of_keeps hkeeps)

variable (hc : f.complete config body = .ok program)
include hc

omit hl hd in
theorem complete_eq_ok : ∃ os, f.Encloses config body os ∧ program = f.prologue config ++ os := by
  simp only [complete, Arena.bind_eq_ok, Arena.pure_eq_ok] at hc
  obtain ⟨oss, hoss, rfl⟩ := hc
  exact ⟨_, ⟨oss, hoss, rfl⟩, rfl⟩

omit hl in
/-- **A jump goes to an operation of the body.** -/
theorem Inside.jump {before after : List Operation} {name : String} (hs : f.Entered config s₀ s)
    (hp : program = before ++ Operation.label name :: after) :
    Inside f config body s₀ (Operation.label name :: after, s) := by
  obtain ⟨os, hos, rfl⟩ := complete_eq_ok hc
  obtain ⟨before', hbody⟩ := append_eq_append_cons hp fun hmem => by
    simpa [Operation.label] using opcode_of_mem_prologue hmem
  obtain ⟨pre, o, post, rfl, ho, hpost⟩ := exists_of_label rfl hos hbody
  exact .framed (List.subset_append_right _ _) hpost
    (hd.paired.of_append (by simp [ho, MovesStack])) hs

variable (constants) in
/-- **A step of the body stays inside**, unless it is the first one of an epilogue. -/
theorem Inside.step (h : Inside f config body s₀ c) :
    (∃ rest, c.1 = f.epilogue config ++ rest ∧ f.Entered config s₀ c.2) ∨
      (∀ o ∈ c.1.head?, o.opcode ≠ .ret) ∧
        ∀ c', (f.machine config instructions constants
          (s₀.registers config.architecture.target.stackPointer)).Step program c c' →
            Inside f config body s₀ c' := by
  cases h with
  | @framed rest os s hb ho hp hs =>
    cases rest with
    | nil =>
      obtain ⟨_, h, rfl⟩ := ho
      cases h
      exact .inr ⟨by simp, fun c' hstep => by cases hstep⟩
    | cons o rest =>
      obtain ⟨first, os, hfirst, hos, rfl⟩ := encloses_cons.mp ho
      by_cases hret : o.opcode = .ret
      · obtain rfl := (enclose_ret hret).mp hfirst
        exact .inl ⟨os, rfl, hs⟩
      · obtain ⟨p, rfl, hcode, hregisters⟩ := exists_of_enclose hret hfirst
        refine .inr ⟨by simpa [hcode] using hret, fun c' hstep => ?_⟩
        cases hstep with
        | next h => exact .perform hl hd hb hos hp hs hcode hregisters h
        | jump _ hprogram => exact .jump hd hc hs hprogram
  | @pushed o rest os s bytes ws hb ho hp hs hw =>
    obtain ⟨first, os, hfirst, hos, rfl⟩ := encloses_cons.mp ho
    have hcode : o.opcode = .pop ∨ o.opcode = .restorePair := hw.1.imp And.left And.left
    obtain ⟨p, rfl, hp', hregisters⟩ :=
      exists_of_enclose (by rcases hcode with h | h <;> simp [h]) hfirst
    refine .inr ⟨by rcases hcode with h | h <;> simp [hp', h], fun c' hstep => ?_⟩
    cases hstep with
    | next h => exact .pop hl hd hb hos hp hs hw hp' hregisters h
    | jump hjump _ =>
      have hnot : ¬ IsJump o.opcode := by rcases hcode with h | h <;> rw [h] <;> simp [IsJump]
      rw [← hp'] at hnot
      exact absurd hjump hnot

end Run

/-! ## Whole runs -/

/-- **What the calling convention asks of a function** that is run from a state. -/
structure KeepsConvention (f : Frame) (config : Config) (k : ByteMachine)
    (program : List Operation) (s₀ : State) : Prop where
  /-- The run comes to the body, in the frame. -/
  enters : ∃ body s, program = f.prologue config ++ body ∧
    k.Reaches program (program, s₀) (body, s) ∧ f.Entered config s₀ s
  /-- A run that comes to an epilogue comes to its end. -/
  leaves : ∀ rest s, k.Reaches program (program, s₀) (f.epilogue config ++ rest, s) →
    ∃ t, k.Reaches program (f.epilogue config ++ rest, s) (Operation.ret :: rest, t)
  /-- At every return the stack pointer and what callees keep are as they were. -/
  restores : ∀ rest t, k.Reaches program (program, s₀) (Operation.ret :: rest, t) →
    t.registers k.stackPointer = s₀.registers k.stackPointer ∧
      ∀ r ∈ config.architecture.calleeSaved, t.registers r = s₀.registers r
  /-- Every return is that of an epilogue, which leaves the results alone. -/
  returns : ∀ rest t, k.Reaches program (program, s₀) (Operation.ret :: rest, t) →
    ∃ s, k.Reaches program (program, s₀) (f.epilogue config ++ rest, s) ∧
      k.Reaches program (f.epilogue config ++ rest, s) (Operation.ret :: rest, t) ∧
      ∀ r ∈ [config.architecture.target.returnRegister, config.architecture.target.mediaReturn],
        t.registers r = s.registers r

section Epilogue

variable {k : ByteMachine} (hk : k.stackPointer = config.architecture.target.stackPointer)

theorem eq_of_reaches_ret {rest : List Operation}
    (h : k.Reaches program (Operation.ret :: rest, s) c) : c = (Operation.ret :: rest, s) := by
  rcases h.cases_head with rfl | ⟨c', hstep, -⟩
  · rfl
  · cases hstep with
    | next h => cases h

/-- The outcome of an epilogue is that of what precedes its return. -/
theorem eq_of_reaches_epilogue {rest rest' : List Operation} {u : State}
    (ho : Outcome k program (adjustStack config.architecture .add f.size ++
      (f.stacked config).map (onRegisters config.architecture.restoring)) s u)
    (h : k.Reaches program (f.epilogue config ++ rest', s) (Operation.ret :: rest, t)) :
    rest' = rest ∧ u = t := by
  rw [epilogue_eq, List.append_assoc] at h
  rcases ho.passes h with h | ⟨o, hmem, hhead⟩
  · obtain ⟨hos, rfl⟩ := Prod.mk.inj (eq_of_reaches_ret h)
    exact ⟨(List.cons.inj hos).2.symm, rfl⟩
  · obtain rfl := Option.some.inj hhead
    simpa [Operation.ret] using opcode_of_mem_restoring hmem

include hk

theorem exists_reaches_ret (program rest : List Operation) (s : State) :
    ∃ t, k.Reaches program (f.epilogue config ++ rest, s) (Operation.ret :: rest, t) := by
  obtain ⟨s₁, h₁, -⟩ := Outcome.adjust k program s (c := .add) rfl (BitVec.add_zero _) hk f.size
  have restores {cs : List (List Register)} (hcs : ∀ rs ∈ cs, config.architecture.IsChunk rs)
      (s : State) : ∃ t, Outcome k program
        (cs.map (onRegisters config.architecture.restoring)) s t := by
    induction cs generalizing s with
    | nil => exact ⟨s, .nil⟩
    | cons rs cs ih =>
      rw [List.forall_mem_cons] at hcs
      obtain ⟨t, ht⟩ := ih hcs.2 _
      exact ⟨t, (Outcome.restore hcs.1).append ht⟩
  obtain ⟨t, h₂⟩ := restores (fun rs h => isChunk_of_mem_stacked (f := f) h) s₁
  rw [epilogue_eq, List.append_assoc]
  exact ⟨t, (h₁.append h₂).runs _⟩

end Epilogue

theorem result_not_kept {a : Architecture} {r : Register}
    (hr : r ∈ [a.target.returnRegister, a.target.mediaReturn]) :
    r ∉ a.calleeSaved ∧ r ≠ a.target.stackPointer ∧ a.target.scratch? ≠ some r := by
  revert r
  cases a <;> decide

section Function

variable (hl : layout config instructions body = .ok f)
  (hd : IsDisciplined config.architecture body) (hc : f.complete config body = .ok program)
include hl hd hc

variable (constants) in
/-- **A run of the body that ends** ends behind an epilogue that began in the frame. -/
theorem Inside.exists_epilogue {rest : List Operation} (hi : Inside f config body s₀ c)
    (h : (f.machine config instructions constants
      (s₀.registers config.architecture.target.stackPointer)).Reaches program c
        (Operation.ret :: rest, t)) :
    ∃ s rest', f.Entered config s₀ s ∧
      (f.machine config instructions constants
        (s₀.registers config.architecture.target.stackPointer)).Reaches program c
          (f.epilogue config ++ rest', s) ∧
      (f.machine config instructions constants
        (s₀.registers config.architecture.target.stackPointer)).Reaches program
          (f.epilogue config ++ rest', s) (Operation.ret :: rest, t) := by
  induction h using Relation.ReflTransGen.head_induction_on with
  | refl =>
    rcases hi.step constants hl hd hc with ⟨rest', hepilogue, hs⟩ | ⟨hne, -⟩
    · exact ⟨t, rest', hs, hepilogue ▸ .refl, hepilogue ▸ .refl⟩
    · exact absurd rfl (hne _ rfl)
  | @head c c' hstep hrest ih =>
    rcases hi.step constants hl hd hc with ⟨rest', hepilogue, hs⟩ | ⟨-, hinside⟩
    · obtain ⟨os, s⟩ := c
      obtain rfl := hepilogue
      exact ⟨s, rest', hs, .refl, .head hstep hrest⟩
    · obtain ⟨s, rest', hs, hto, hfrom⟩ := ih (hinside c' hstep)
      exact ⟨s, rest', hs, .head hstep hto, hfrom⟩

/-- **Every function with a disciplined body keeps the calling convention**, from any state. -/
theorem keepsConvention (constants : String → BitVec 64) (s₀ : State) :
    f.KeepsConvention config
      (f.machine config instructions constants
        (s₀.registers config.architecture.target.stackPointer)) program s₀ := by
  have hsound := isSound_of_layout hl
  obtain ⟨os, hos, rfl⟩ := complete_eq_ok hc
  generalize hk : f.machine config instructions constants
    (s₀.registers config.architecture.target.stackPointer) = k
  have hsp : k.stackPointer = config.architecture.target.stackPointer := hk ▸ rfl
  obtain ⟨s₁, hprologue, hentered⟩ := prologue_outcome hsound hsp (f.prologue config ++ os) s₀
  -- a run that ends is behind the prologue, in the body, and at last in an epilogue
  have ends {rest : List Operation} {t : State}
      (h : k.Reaches (f.prologue config ++ os) (f.prologue config ++ os, s₀)
        (Operation.ret :: rest, t)) :
      ∃ s, f.Entered config s₀ s ∧
        k.Reaches (f.prologue config ++ os) (f.prologue config ++ os, s₀)
          (f.epilogue config ++ rest, s) ∧
        k.Reaches (f.prologue config ++ os) (f.epilogue config ++ rest, s)
          (Operation.ret :: rest, t) := by
    rcases hprologue.passes h with h | ⟨o, hmem, hhead⟩
    · have hinside : Inside f config body s₀ (os, s₁) :=
        .framed (List.Subset.refl _) hos hd.paired hentered
      obtain ⟨s, rest', hs, hto, hfrom⟩ :=
        hinside.exists_epilogue constants hl hd hc (hk ▸ h)
      rw [hk] at hto hfrom
      obtain ⟨u, hu, -⟩ := epilogue_outcome hsound hsp (f.prologue config ++ os) hs
      obtain ⟨rfl, -⟩ := eq_of_reaches_epilogue hu hfrom
      exact ⟨s, hs, (hprologue.runs os).trans hto, hfrom⟩
    · obtain rfl := Option.some.inj hhead
      simpa [Operation.ret] using opcode_of_mem_prologue hmem
  refine ⟨⟨os, s₁, rfl, hprologue.runs os, hentered⟩, fun rest s _ =>
    exists_reaches_ret hsp _ rest s, fun rest t h => ?_, fun rest t h => ?_⟩
  · obtain ⟨s, hs, -, hfrom⟩ := ends h
    obtain ⟨u, hu, hrestored, hkept, -⟩ := epilogue_outcome hsound hsp _ hs
    obtain ⟨-, rfl⟩ := eq_of_reaches_epilogue hu hfrom
    exact ⟨hrestored, hkept⟩
  · obtain ⟨s, hs, hto, hfrom⟩ := ends h
    obtain ⟨u, hu, -, -, hothers⟩ := epilogue_outcome hsound hsp _ hs
    obtain ⟨-, rfl⟩ := eq_of_reaches_epilogue hu hfrom
    refine ⟨s, hto, hfrom, fun r hr => ?_⟩
    obtain ⟨hkept, hne, hscratch⟩ := result_not_kept hr
    exact hothers r hkept (hsp ▸ hne) hscratch

end Function

/-! ## A function that saves a register -/

/-- A body that writes a register that callees keep, and a slot. -/
def spilling : List Operation :=
  [⟨.move, [.register (.general 3), .immediate 7]⟩,
    ⟨.move, [.memory (.displaced (.slot (.temporary 0)) 0), .register (.general 3)]⟩,
    ⟨.push, [.register (.general 3)]⟩, ⟨.pop, [.register (.general 0)]⟩, ⟨.ret, []⟩]

/-- Its frame: one slot, one saved register, and eight bytes that keep the stack aligned. -/
def spillingFrame : Frame := ⟨[(.temporary 0, 0)], 16, [.general 3]⟩

/-- Its operations before the return, inside the frame. -/
def spillingInside : List Operation :=
  [⟨.move, [.register (.general 3), .immediate 7]⟩,
    ⟨.move, [.memory (.displaced (.register (.general 4)) 0), .register (.general 3)]⟩,
    ⟨.push, [.register (.general 3)]⟩, ⟨.pop, [.register (.general 0)]⟩]

/-- The whole function. -/
def spillingProgram : List Operation :=
  let config := Config.ofArchitecture .x64
  spillingFrame.prologue config ++ (spillingInside ++ (spillingFrame.epilogue config ++ []))

/-- A state to enter the function from. -/
def spillingEntry : State := ⟨fun r => if r = .general 4 then 4096 else 1, fun _ => 0⟩

theorem keepsConvention_spilling :
    layout (.ofArchitecture .x64) [] spilling = .ok spillingFrame ∧
      spillingFrame.complete (.ofArchitecture .x64) spilling = .ok spillingProgram ∧
      IsDisciplined .x64 spilling ∧
      spillingFrame.KeepsConvention (.ofArchitecture .x64)
        (spillingFrame.machine (.ofArchitecture .x64) [] (fun _ => 0) 4096) spillingProgram
        spillingEntry ∧
      ∃ t, (spillingFrame.machine (.ofArchitecture .x64) [] (fun _ => 0) 4096).Reaches
          spillingProgram (spillingProgram, spillingEntry) ([Operation.ret], t) ∧
        t.registers (.general 3) = 1 := by
  have hl : layout (.ofArchitecture .x64) [] spilling = .ok spillingFrame := by cbv
  have hc : spillingFrame.complete (.ofArchitecture .x64) spilling = .ok spillingProgram := by rfl
  have hd : IsDisciplined .x64 spilling :=
    ⟨by simp [spilling]; decide +kernel, .cons (by decide) (.cons (by decide) (.pair (by decide)
      (.cons (by decide) .nil)))⟩
  have hkeeps := keepsConvention hl hd hc (fun _ => 0) spillingEntry
  refine ⟨hl, hc, hd, hkeeps, ?_⟩
  obtain ⟨body, s, hprogram, hs, hentered⟩ := hkeeps.enters
  obtain rfl := (List.append_cancel_left hprogram).symm
  have hbody : ∃ u, (spillingFrame.machine (.ofArchitecture .x64) [] (fun _ => 0) 4096).Reaches
      spillingProgram (spillingInside ++ (spillingFrame.epilogue (.ofArchitecture .x64) ++ []), s)
        (spillingFrame.epilogue (.ofArchitecture .x64) ++ [], u) := by
    refine ⟨_, .head (.next (.move rfl .register)) (.head (.next (.move rfl (.memory rfl ?_)))
      (.head (.next (.push rfl)) (.head (.next (.pop .register)) .refl)))⟩
    -- the slot is at the stack pointer
    intro b hb
    have hsp : s.registers (.general 4) = 4072 := hentered.stackPointer
    have hslot : (s.set (.general 3) 7).registers (.general 4) + 0 * 1 + 0 = 4072 := by
      rw [State.set_registers_of_ne (by decide), hsp]
      rfl
    replace hb : Within ((s.set (.general 3) 7).registers (.general 4) + 0 * 1 + 0) 8 b := hb
    rw [hslot] at hb
    have hoffset : (SlotKey.temporary 0, 0) ∈ spillingFrame.offsets := List.mem_singleton_self _
    exact writable_slot hoffset hb
  obtain ⟨u, hbody⟩ := hbody
  obtain ⟨t, ht⟩ := hkeeps.leaves [] _ (hs.trans hbody)
  have hreached := (hs.trans hbody).trans ht
  exact ⟨t, hreached, (hkeeps.restores _ _ hreached).2 (.general 3) (by decide)⟩

end Frame

end Codegen
