import Stylesheet.Function.Color
import Stylesheet.Function.List
import Stylesheet.Function.Math
import Stylesheet.Function.Selector
import Stylesheet.Function.String

/-!
# The standard functions

## Main definitions

* `Table.standard` — the functions every stylesheet can call
-/

namespace Stylesheet

/-- The functions every stylesheet can call. -/
def Table.standard : Table :=
  Table.registerAll {} (colorFunctions ++ listFunctions ++ selectorFunctions ++ mathFunctions
    ++ stringFunctions ++ introspectionFunctions)

end Stylesheet
