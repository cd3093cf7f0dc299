import Stylesheet.Catalog
import Stylesheet.Project

/-!
# Tools

What the compiler offers to other programs: compiling a text, and listing the functions
of the language. A call names its tool and carries its arguments; the answer is data.

## Main definitions

* `ToolCall`, `ToolAnswer` — calls and their answers
* `ToolCall.answer` — answers a call
-/

namespace Stylesheet

/-- A call of a tool. -/
inductive ToolCall where
  | compile (source : Text) (settings : Overrides)
  | functions (category : Text)

/-- What a tool answers. -/
inductive ToolAnswer where
  | compiled (css : Text) (diagnostics : List Diagnostic)
  | functions (listed : List Listed)

/-- The compilation of a text on its own. -/
def Overrides.options (o : Overrides) : Options :=
  { compress := o.compress.getD true, shortColors := o.shortColors.getD true,
    reverseColors := o.reverseColors.getD true, presets := o.presets }

/-- Answers a call. Only a compilation that ends early fails. -/
def ToolCall.answer : ToolCall → Except Halt ToolAnswer
  | .compile source settings =>
    let o := Stylesheet.compile settings.options source
    o.result.map fun c => .compiled c.css o.diagnostics
  | .functions category => .ok (.functions (catalogOf Table.standard category))

end Stylesheet
