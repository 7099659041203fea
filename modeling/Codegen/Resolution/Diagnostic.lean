import Codegen.Symbol.Declare
import Codegen.Tree.Basic

/-!
# Diagnostics

Reports of what could not be resolved: names and calls without a meaning, and variables without a
type.

* `Diagnostic`, `Diagnostic.text`: a report and its text;
* `Tree.unresolved`: all reports on a tree and on the contexts below one.
-/

namespace Codegen

/-- What a report is about. -/
inductive DiagnosticKind
  | name
  | call
  /-- No function of that name accepts the arguments. -/
  | overload
  /-- A variable without a type. -/
  | type
deriving DecidableEq

/-- The name of a kind of reports. -/
def DiagnosticKind.title : DiagnosticKind → String
  | name => "UnresolvedIdentifier"
  | call => "UnresolvedFunction"
  | overload => "NoMatchingOverload"
  | type => "UnresolvedType"

/-- A report, with the place that it is about. -/
structure Diagnostic where
  kind : DiagnosticKind
  message : String
  position? : Option Position
deriving DecidableEq

/-- The text of a report behind its place. -/
def Diagnostic.text (d : Diagnostic) : String :=
  match d.position? with
  | some p => s!"{p.text}: {d.message}"
  | none => d.message

namespace Tree

/-- The report on a node without a meaning. -/
def describeUnresolved? (t : Tree) (n : NodeId) : Option Diagnostic :=
  match t.kind n with
  | .unresolvedName name =>
    some ⟨.name, s!"Could not resolve identifier '{name}'", t.position? n⟩
  | .unresolvedCall name =>
    some ⟨.call, s!"Could not resolve function '{name}'", t.position? n⟩
  | _ => none

/-- The reports on the variables of a context and of all below it. -/
def untyped (s : SymbolTable) (c : ContextId) : Except Fault (List Diagnostic) := do
  let _ ← s.context c
  let vars := (Scoping.subtree s c).flatMap fun c => s.contexts[c]?.elim [] (·.variableIds)
  vars.filterMapM fun v => do
    let i ← s.variableInfo v
    return if i.isUnresolved then
      some ⟨.type, s!"Could not resolve the type of variable '{i.name}'", none⟩
    else none

/-- The reports on the nodes below a node and on the variables of a context and of all below. -/
def unresolved (t : Tree) (s : SymbolTable) (root : NodeId) (c : ContextId) :
    Except Fault (List Diagnostic) := do
  return (t.findAll root NodeKind.isResolvable).filterMap t.describeUnresolved? ++ (← untyped s c)

end Tree

end Codegen
