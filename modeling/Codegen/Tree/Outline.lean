import Codegen.Symbol.Table
import Codegen.Text
import Codegen.Tree.Basic

/-!
# Outlines of trees

An outline shows a tree as text: a caption for each node, with the outlines of its children.

* `NodeKind.caption`: the caption of a node;
* `Tree.outline`: the outline of a node and all below it;
* `NodeKind.ofWord`: the construct that a word stands for.
-/

namespace Codegen

/-- A caption with the outlines below it. -/
inductive Outline
  | entry (caption : String) (below : List Outline)
deriving Inhabited

namespace NodeKind

/-- The text of a literal in captions; decimals are shown by their bits. -/
def numberCaption : Number → String
  | .integer w => s!"num {w.toInt}"
  | .decimal x => "dec " ++ Text.hexPadded 16 x.bits.toNat

/-- The caption of a node. -/
def caption (s : SymbolTable) : NodeKind → String
  | scope c => s!"scope {c}"
  | number n f => numberCaption n ++ " " ++ f.name
  | reference v => "var " ++ (s.vars[v]?.elim "" (·.name)) ++ s!"#{v}"
  | operator o => o.symbol
  | parenthesis => "paren"
  | link => "link"
  | offset => "offset"
  | call f => "call " ++ (s.functions[f]?.elim "" (·.name)) ++ s!"#{f}"
  | ifBranch c => s!"if {c}"
  | elseIf c => s!"elif {c}"
  | otherwise c => s!"else {c}"
  | loop c false => s!"loop {c}"
  | loop c true => s!"forever {c}"
  | control .stop => "stop"
  | control .next => "continue"
  | ret => "return"
  | stackAddress identity bytes i =>
    s!"stack {identity} {bytes} " ++ (s.types[i]?.elim "" (·.name))
  | typeReference i => "type " ++ (s.types[i]?.elim "" (·.name))
  | compiles => "compiles"
  | unresolvedName n => s!"id {n}"
  | unresolvedCall n => s!"ucall {n}"

/-- The construct that a word stands for, in a context; other words are names. -/
def ofWord (c : ContextId) (w : String) : NodeKind :=
  match Operator.ofSymbol? w with
  | some o => operator o
  | none =>
    match w with
    | "scope" => scope c
    | "paren" => parenthesis
    | "link" => link
    | "offset" => offset
    | "if" => ifBranch c
    | "elif" => elseIf c
    | "else" => otherwise c
    | "loop" => loop c false
    | "forever" => loop c true
    | "stop" => control .stop
    | "continue" => control .next
    | "return" => ret
    | "compiles" => compiles
    | name => unresolvedName name

end NodeKind

namespace Tree

/-- The outline of a node, to the given depth. -/
def outlineWithin (t : Tree) (s : SymbolTable) : Nat → NodeId → Outline
  | 0, n => .entry ((t.kind n).caption s) []
  | fuel + 1, n => .entry ((t.kind n).caption s) ((t.children n).map (t.outlineWithin s fuel))

/-- The outline of a node and all below it. -/
def outline (t : Tree) (s : SymbolTable) (n : NodeId) : Outline :=
  t.outlineWithin s (t.size + 1) n

end Tree

end Codegen
