import TypeGen.Render.Enum
import TypeGen.Render.Struct
import TypeGen.Render.Variant

/-!
The code of a spec of any kind: the body of its header and the body of its source.
-/

namespace TypeGen.Render

open TypeGen.Code TypeGen.Spec

/-- The includes of the header. -/
def headerIncludes : Spec → IncludeList
  | .struct s => StructSpec.renderer.headerIncludes s
  | .enum s => EnumSpec.renderer.headerIncludes s
  | .variant s => VariantSpec.renderer.headerIncludes s

/-- The includes of the definitions. -/
def sourceIncludes : Spec → IncludeList
  | .struct s => StructSpec.renderer.sourceIncludes s
  | .enum s => EnumSpec.renderer.sourceIncludes s
  | .variant s => VariantSpec.renderer.sourceIncludes s

/-- Steps of the header, between the guards. -/
def headerSteps : Spec → List Step
  | .struct s => StructSpec.renderer.header s
  | .enum s => EnumSpec.renderer.header s
  | .variant s => VariantSpec.renderer.header s

/-- Steps of the source, behind the include of the header. -/
def sourceSteps : Spec → List Step
  | .struct s => StructSpec.renderer.source s
  | .enum s => EnumSpec.renderer.source s
  | .variant s => VariantSpec.renderer.source s

def headerCode (s : Spec) : String := renderSteps (headerSteps s)

def sourceCode (s : Spec) : String := renderSteps (sourceSteps s)

end TypeGen.Render
