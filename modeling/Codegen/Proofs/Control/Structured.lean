import Codegen.Proofs.Control.Walk
import Codegen.Proofs.Lowering.Shaped

/-!
# Structured execution

What a body does, told by its constructs instead of jumps: statements run in order, the first branch
of a chain whose condition holds runs, and a loop runs rounds until it is left or its condition
fails. Operands come from left to right, and logical operators skip the second one if the first one
decides. The number of rounds is limited, so that loops without end can be run as well. What happens
is told with the parts whose values are compared, stored, passed and returned.

* `Event`, `Exec`: what a part does, and how it is left;
* `Exec.rounds`: the rounds of a loop;
* `Shape.run`: **structured execution**;
* `Shape.execute`: what a whole function does.
-/

namespace Codegen

/-! ## Parts that do something -/

/-- What a body does as far as its flow of control shows. Operands are told by the parts that they
are the values of. -/
inductive Event
  /-- A comparison of two values, in this order. One without a second part compares with zero. -/
  | compare (first second : Option Shape)
  | call (f : FunctionId) (arguments : List Shape)
  /-- A store to a place in memory. -/
  | store (place source : Option Shape)
  | ret (value : Option Shape)

/-- Is an event a comparison? -/
def Event.isCompare : Event → Bool
  | compare .. => true
  | _ => false

/-- What has happened, the last event first. -/
abbrev History := List Event

/-- The number of comparisons that have happened. -/
def History.comparisons (h : History) : Nat := h.countP Event.isCompare

/-- How a part is left before its end. -/
inductive Leave
  | control (c : LoopControl)
  | ret
  /-- A loop had no rounds left. -/
  | cut

/-- What a part does: it makes events happen and gives a value, unless it is left. -/
abbrev Exec := EStateM Leave History

namespace Exec

/-- An event. -/
def perform (e : Event) : Exec Unit := modify (e :: ·)

/-- Does a test hold of the words that were compared last? -/
def decides (o : Oracle) (t : JumpTest) : Exec Bool := do
  return t.decides (o.last (← get).comparisons)

/-- A part of a loop, and the statement that it was left by, if it was left to the loop. -/
def caught (x : Exec Unit) : Exec (Option LoopControl) := fun h =>
  match x h with
  | .ok () h' => .ok none h'
  | .error (.control c) h' => .ok (some c) h'
  | .error e h' => .error e h'

/-- The rounds of a loop, which test before another round whether there is one. A round that is left
by `next` begins again without the test. -/
def rounds (round : Nat → Exec Unit) (again : Nat → Exec Bool) : Nat → Exec Unit
  | 0 => throw .cut
  | n + 1 => do
    match ← caught (round n) with
    | none => if ← again n then rounds round again n
    | some .next => rounds round again n
    | some .stop => return ()

end Exec

/-! ## Structured execution -/

namespace Shape

open Exec

theorem sizeOf_parts (s : Shape) : sizeOf s.parts < sizeOf s := by
  cases s
  simp only [parts, node.sizeOf_spec]
  omega

theorem sizeOf_drop (cs : List Shape) (n : Nat) : sizeOf (cs.drop n) ≤ sizeOf cs := by
  induction cs generalizing n with
  | nil => simp
  | cons c cs ih =>
    cases n with
    | zero => exact Nat.le_refl _
    | succ n =>
      simp only [List.drop_succ_cons, List.cons.sizeOf_spec]
      have := ih n
      omega

theorem sizeOf_bodyOn (s : Shape) : sizeOf s.bodyOn < sizeOf s := by
  have hp := s.sizeOf_parts
  have hd := sizeOf_drop s.parts
  unfold bodyOn
  split
  case h_1 | h_2 => exact Nat.lt_of_le_of_lt (hd 1) hp
  case h_3 | h_4 => exact hp
  case h_5 => exact Nat.lt_of_le_of_lt (hd 3) hp
  case h_6 => exact Nat.lt_of_le_of_lt (by cases s.parts <;> simp; omega) hp

theorem sizeOf_head? (cs : List Shape) : sizeOf cs.head? ≤ sizeOf cs := by
  cases cs <;> simp

theorem sizeOf_getLast? (cs : List Shape) : sizeOf cs.getLast? ≤ sizeOf cs := by
  induction cs with
  | nil => simp
  | cons c cs ih =>
    cases cs with
    | nil => simp
    | cons d cs =>
      rw [List.getLast?_cons_cons]
      refine Nat.le_trans ih ?_
      simp only [List.cons.sizeOf_spec]
      omega

theorem sizeOf_scope? {s c : Shape} (h : s.scope? = some c) : sizeOf c.parts < sizeOf s := by
  have hc : c ∈ s.parts := mem_parts (scope_place h)
  exact Nat.lt_trans c.sizeOf_parts
    (Nat.lt_trans (List.sizeOf_lt_of_mem hc) s.sizeOf_parts)

/-- Is the part a place in memory? -/
def isMemory (s : Shape) : Bool := s.kind == .link || s.kind == .offset

/-- Does a comparison of the first with the last part compare signed words? -/
def isSigned (t : Tree) (symbols : SymbolTable) (cs : List Shape) : Bool :=
  match cs.head?, cs.getLast? with
  | some l, some m => (comparesSigned t symbols l m).toOption.getD true
  | _, _ => true

variable (o : Oracle) (t : Tree) (symbols : SymbolTable)

mutual

/-- **Runs a part.** A branch runs the chain that goes on in the parts that follow it. -/
def run (s : Shape) (ss : List Shape) (n : Nat) : Exec Unit :=
  match s.kind with
  | .scope _ | .parenthesis => runStatements s.parts n
  | .operator op => do
    runOperand s.parts.head? n
    runOperand s.parts.getLast? n
    if op.category = .assign ∧ s.parts.head?.any isMemory then
      perform (.store s.parts.head? s.parts.getLast?)
  | .link => runOperand s.parts.head? n
  | .offset => do
    runOperand s.parts.head? n
    runOperand s.parts.getLast? n
  | .call f => do
    runEach s.parts n
    perform (.call f s.parts)
  | .ifBranch _ => runChain s ss n
  | .loop _ true => rounds (fun n => runBody s n) (fun _ => pure true) n
  | .loop _ false => do
    runFirst s.parts n
    if ← holds s n then
      rounds (fun n => do runBody s n; runFirst (s.parts.drop 2) n) (fun n => holds s n) n
  | .control c => throw (.control c)
  | .ret => do
    runOperand s.parts.head? n
    perform (.ret s.parts.head?)
    throw .ret
  | _ => return ()
termination_by (sizeOf s + sizeOf ss, 3)
decreasing_by
  all_goals
    have := s.sizeOf_parts
    have := sizeOf_drop s.parts 2
    have := sizeOf_head? s.parts
    have := sizeOf_getLast? s.parts
    cases ss <;> simp [Prod.lex_def] <;> omega

/-- Runs the first branch of a chain whose condition holds. -/
def runChain (s : Shape) (ss : List Shape) (n : Nat) : Exec Unit := do
  if ← runBranch s n then return ()
  else
    match ss with
    | [] => return ()
    | b :: bs =>
      if s.kind.isConditional && b.kind.isAlternative then runChain b bs n else return ()
termination_by (sizeOf s + sizeOf ss, 2)
decreasing_by
  · simp only [Prod.lex_def]
    omega
  · simp [Prod.lex_def]; omega

/-- Runs a branch if its condition holds, and tells whether it did. -/
def runBranch (s : Shape) (n : Nat) : Exec Bool := do
  if s.kind.isConditional then
    if ← holds s n then
      runBody s n
      return true
    else return false
  else
    runBody s n
    return true
termination_by (sizeOf s, 1)

/-- Runs the body of a branch or of a round. -/
def runBody (s : Shape) (n : Nat) : Exec Unit := runFirst s.bodyOn n
termination_by (sizeOf s, 0)
decreasing_by
  have := s.sizeOf_bodyOn
  simp [Prod.lex_def, this]

/-- Runs the statements before a condition and the condition. -/
def holds (s : Shape) (n : Nat) : Exec Bool :=
  match _h : s.scope? with
  | some c => testLast c.parts n
  | none => return false
termination_by (sizeOf s, 0)
decreasing_by
  have := sizeOf_scope? _h
  simp [Prod.lex_def, this]

/-- Runs statements in order. The later branches of a chain are left to its first branch. -/
def runStatements (ss : List Shape) (n : Nat) : Exec Unit :=
  match ss with
  | [] => return ()
  | s :: ss =>
    if s.kind.isAlternative then runStatements ss n
    else do
      run s ss n
      runStatements ss n
termination_by (sizeOf ss, 4)

/-- Runs parts for their values. -/
def runEach (ss : List Shape) (n : Nat) : Exec Unit :=
  match ss with
  | [] => return ()
  | s :: ss => do
    run s [] n
    runEach ss n
termination_by (sizeOf ss, 4)
decreasing_by
  · cases ss <;> simp [Prod.lex_def]; omega
  · simp only [List.cons.sizeOf_spec, Prod.lex_def]
    omega

/-- Runs the first part, if there is one. -/
def runFirst (ss : List Shape) (n : Nat) : Exec Unit :=
  match ss with
  | [] => return ()
  | s :: ss => run s ss n
termination_by (sizeOf ss, 4)

/-- Runs a part for its value, if there is one. -/
def runOperand (s? : Option Shape) (n : Nat) : Exec Unit :=
  match s? with
  | none => return ()
  | some s => run s [] n
termination_by (sizeOf s?, 4)
decreasing_by
  simp [Prod.lex_def]; omega

/-- Runs a condition. What is no comparison holds if it is not zero. -/
def test (s : Shape) (n : Nat) : Exec Bool :=
  match s.kind with
  | .operator op =>
    if op.isLogical then do
      if (← testPart s.parts.head? n) == (op == .and) then testPart s.parts.getLast? n
      else return op != .and
    else
      match Comparison.ofOperator? op with
      | some c => do
        runOperand s.parts.head? n
        runOperand s.parts.getLast? n
        perform (.compare s.parts.head? s.parts.getLast?)
        decides o ⟨c, isSigned t symbols s.parts⟩
      | none => do
        run s [] n
        perform (.compare (some s) none)
        decides o ⟨.notEqual, true⟩
  | .parenthesis => testLast s.parts n
  | _ => do
    run s [] n
    perform (.compare (some s) none)
    decides o ⟨.notEqual, true⟩
termination_by (sizeOf s + 1, 4)
decreasing_by
  all_goals
    have := s.sizeOf_parts
    have := sizeOf_head? s.parts
    have := sizeOf_getLast? s.parts
    simp [Prod.lex_def] <;> omega

/-- Runs a condition, if there is one. -/
def testPart (s? : Option Shape) (n : Nat) : Exec Bool :=
  match s? with
  | none => return false
  | some s => test s n
termination_by (sizeOf s?, 5)
decreasing_by
  simp [Prod.lex_def]; omega

/-- Runs parts in order, the last one as a condition. -/
def testLast (ss : List Shape) (n : Nat) : Exec Bool :=
  match ss with
  | [] => return false
  | [s] => test s n
  | s :: ss => do
    run s ss n
    testLast ss n
termination_by (sizeOf ss, 4)

end

/-- Has a function returned before a loop had no rounds left, and what has happened? -/
def execute (W : Shape) (n : Nat) : Bool × History :=
  match run o t symbols W [] n [] with
  | .ok () h => (true, .ret none :: h)
  | .error .ret h => (true, h)
  | .error _ h => (false, h)

end Shape

end Codegen
