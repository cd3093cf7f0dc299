import Stylesheet.Function
import Stylesheet.Function.Math

/-!
# Selector functions

Lists of selectors: nesting, appending, headings, enumerations, and the elements with a
default display.

## Main definitions

* `selectorFunctions` — the registrations
-/

namespace Stylesheet

open Text

namespace SelectorFunction

/-- The elements that browsers display in each way. -/
def elementsOfType : List (Text × List Text) :=
  [ ("block", ["address", "article", "aside", "blockquote", "center", "dd", "dialog", "dir",
      "div", "dl", "dt", "fieldset", "figure", "footer", "form", "frameset", "h1", "h2", "h3",
      "h4", "h5", "h6", "header", "hgroup", "hr", "isindex", "menu", "nav", "noframes",
      "noscript", "ol", "p", "pre", "section", "ul"]),
    ("inline", ["a", "abbr", "acronym", "b", "basefont", "bdo", "big", "br", "cite", "code",
      "dfn", "em", "font", "i", "img", "input", "kbd", "label", "q", "s", "samp", "select",
      "small", "span", "strike", "strong", "sub", "sup", "textarea", "tt", "u", "var"]),
    ("table", ["table"]), ("list-item", ["li"]), ("table-row-group", ["tbody"]),
    ("table-header-group", ["thead"]), ("table-footer-group", ["tfoot"]), ("table-row", ["tr"]),
    ("table-cell", ["td", "th"]),
    ("html5", ["article", "aside", "dialog", "figure", "footer", "header", "hgroup", "nav",
      "section"]) ].map fun (k, vs) => (of k, vs.map of)

/-- Selectors as an unquoted comma list. -/
def selectorList (selectors : List Text) : Value := .ofList [ch ','] (selectors.map .plain)

/-- The selectors written in a value. -/
def selectorsOf (v : Value) : List Text :=
  ((split (ch ',') v.unquoted).map trim).filter fun t => !t.isEmpty

/-- A child below a parent, in place of each `&` it has. -/
def nestOne (parent child : Text) : Text :=
  if hasByte child (ch '&') then replace [ch '&'] parent child else parent ++ ch ' ' :: child

/-- Each child below each parent. -/
def nestAll (parents children : List Text) : List Text :=
  parents.flatMap fun p => children.map (nestOne p)

/-- The selectors of each argument as descendants of those before it. -/
def nest (a : Args) : Except FunctionError Value :=
  match a.positional with
  | [] => .error .noSelectors
  | v :: rest =>
    .ok (selectorList (sortUnique
      (rest.foldl (fun acc w => nestAll acc (selectorsOf w)) (selectorsOf v))))

/-- Each selector of `$selector` followed by each text of `$to-append`. -/
def appendSelector (a : Args) : Except FunctionError Value := do
  let front ← a.value 0 (of "selector")
  let back ← a.value 1 (of "to-append")
  return selectorList (sortUnique
    ((selectorsOf front).flatMap fun s => (selectorsOf back).map (s ++ ·)))

/-- The headings from one level to another, six at most. -/
def headers (a : Args) : Except FunctionError Value := do
  let (first, last) ←
    match a.positional with
    | [v] =>
      if sameFold v.unquoted (of "all") then pure (1, 6)
      else do pure (1, ← a.int 0 (of "to"))
    | [_, _] => do
      let first ← a.int 0 (of "from")
      pure (first, ← a.int 1 (of "to"))
    | _ => pure (1, 6)
  return selectorList
    ((MathFunction.interval (max first 1) (min last 6)).map fun i => ch 'h' :: ofInt i)

/-- `$prefix` joined to each number from `$from` through `$through`. -/
def enumerate (a : Args) : Except FunctionError Value := do
  let stem := (← a.value 0 (of "prefix")).unquoted
  let first ← a.int 1 (of "from")
  let last ← a.int 2 (of "through")
  let sep := ((a.get? 3 (of "separator")).map Value.unquoted).getD [ch '-']
  return selectorList ((MathFunction.interval first last).map fun i =>
    if stem.isEmpty then ofInt i else stem ++ sep ++ ofInt i)

/-- The elements displayed as `$display`. -/
def elementsOf (a : Args) : Except FunctionError Value := do
  let display ← a.value 0 (of "display")
  match elementsOfType.lookup (lower display.unquoted) with
  | some elements => return selectorList (sortUnique elements)
  | none => throw (.unknownDisplay display.text)

end SelectorFunction

open SelectorFunction in
/-- The selector functions. -/
def selectorFunctions : List Function :=
  [ ("nest", variadic, nest), ("append-selector", 2, appendSelector), ("headers", 0, headers),
    ("headers", 1, headers), ("headers", 2, headers), ("headings", 0, headers),
    ("headings", 1, headers), ("headings", 2, headers), ("enumerate", 3, enumerate),
    ("enumerate", 4, enumerate), ("elements-of-type", 1, elementsOf)
  ].map fun (name, arity, run) => ⟨of name, arity, of "selector", run⟩

end Stylesheet
