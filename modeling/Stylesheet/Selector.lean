import Stylesheet.Text

/-!
# Selectors

The header of a rule is a list of selectors and, after `extends`, the selectors it
inherits from. A nested rule combines each selector of the rule around it with each of
its own. Lists of selectors are kept in order and without duplicates.

## Main definitions

* `parseSelectors` — the selectors and parents of a header
* `nestSelectors` — selectors below the selectors of a parent
-/

namespace Stylesheet

open Text

/-- The selectors named in a text, separated by commas or `&`, without repetition. -/
def parseParents (t : Text) : List Text :=
  ((split (ch ',') t).flatMap (split (ch '&'))).foldl
    (fun parents p =>
      let p := collapse p
      if p.isEmpty || parents.contains p then parents else parents ++ [p])
    []

/-- The part of a header before `extends` and the part after it. -/
def splitExtends (header : Text) : Text × Text :=
  let word := of " extends "
  match find word header with
  | some i => (header.take i, header.drop (i + word.length))
  | none => (header, [])

/-- The selectors of a header and the parents it extends. -/
def parseSelectors (header : Text) : List Text × List Text :=
  let (own, parents) := splitExtends header
  let selectors := ((split (ch ',') own).map collapse).filter fun s => !s.isEmpty
  (sortUnique selectors, parseParents parents)

/-- A child below a parent: in place of each `&`, or as a descendant. -/
def nestSelector (parent child : Text) : Text :=
  if hasByte child (ch '&') then collapse (replace [ch '&'] parent child)
  else if parent.isEmpty then child
  else parent ++ ch ' ' :: child

/-- Each child below each parent; without parents the children stand at the root. -/
def nestSelectors (parents children : List Text) : List Text :=
  let parents := if parents.isEmpty then [[]] else parents
  sortUnique (parents.flatMap fun p => children.map (nestSelector p))

end Stylesheet
