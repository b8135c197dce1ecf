import Treewalk.Text.Quoted
import Treewalk.Value.Store

/-! # Descriptions of environments

    For inspection an environment is described by the number of scopes around
    it and the names bound in its innermost scope. -/

namespace Treewalk.Store

/-- The description of an environment. -/
def describe {α : Type} (s : Store α) (env : Env) : String :=
  let names := match env with
    | scope :: _ => (s.bindings scope).sortedNames
    | [] => []
  "Environment(depth=" ++ toString env.depth ++ ", names=["
    ++ ", ".intercalate (names.map Text.quoted) ++ "])"

end Treewalk.Store
