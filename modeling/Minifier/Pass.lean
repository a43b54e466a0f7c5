import Minifier.Mangle.Rename
import Minifier.Optimize.Optimizer

/-!
# Passes

What can be done to a program as a whole.
-/

namespace Minifier

/-- A pass over a program. -/
inductive Pass where
  /-- rename bindings -/
  | mangle
  /-- fold constants and drop what is never reached -/
  | optimize
  /-- optimize, then mangle -/
  | minify
deriving DecidableEq, Repr

namespace Pass

/-- The pass with a name. -/
def ofText? : String → Option Pass
  | "mangle" => some .mangle
  | "optimize" => some .optimize
  | "minify" => some .minify
  | _ => none

/-- Do a pass. The plan tells what was renamed, if anything was to be. -/
def apply (pass : Pass) (options : Mangle.Options) (tree : Node) :
    Except Error (Node × Option Mangle.Plan) :=
  match pass with
  | .optimize => (Optimize.optimize tree).map fun tree => (tree, none)
  | .mangle => .ok (mangled tree)
  | .minify => (Optimize.optimize tree).map mangled
where
  /-- The mangled tree with its plan. -/
  mangled (tree : Node) : Node × Option Mangle.Plan :=
    let (tree, plan) := Mangle.mangle options tree
    (tree, some plan)

end Pass

end Minifier
