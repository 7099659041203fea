import Codegen.Tree.Basic

/-!
# Sources

A `Source` is the body of a function in its tree, from which code is generated.
-/

namespace Codegen

/-- The body of a function in its tree. -/
structure Source where
  function : FunctionId
  tree : Tree
  body : NodeId
deriving Inhabited

end Codegen
