import Stylesheet.Output.Layout

/-!
# Outlines

The fragments of a stylesheet drawn as a tree: media blocks, then selectors with their
rank, then declarations.

## Main definitions

* `Outline` — a tree of texts
* `Outline.draw` — the tree drawn with lines
* `outlineOf` — the outline of fragments
-/

namespace Stylesheet

open Text

/-- A tree of texts. -/
inductive Outline where
  | node (label : Text) (children : List Outline)

namespace Outline

/-- The padding below a node, which is or is not the last of its siblings. -/
def gutter (last : Bool) : Text := of (if last then "    " else "│   ")

/-- The edge to a node. -/
def edge (last : Bool) : Text := of (if last then "└── " else "├── ")

/-- A label after its edge; further lines of it are padded. -/
def labelLines (padding : Text) (last : Bool) (label : Text) : Text :=
  padding ++ edge last ++
    join (ch '\n' :: padding ++ gutter last) (split (ch '\n') label) ++ [ch '\n']

mutual

/-- A node below padding. -/
def drawNode (padding : Text) (last : Bool) : Outline → Text
  | .node label children =>
    labelLines padding last label ++ drawAll (padding ++ gutter last) children

/-- Siblings below padding. -/
def drawAll (padding : Text) : List Outline → Text
  | [] => []
  | o :: rest => drawNode padding rest.isEmpty o ++ drawAll padding rest

end

/-- A tree of nodes below a dot. -/
def draw (nodes : List Outline) : Text := of ".\n" ++ drawAll [] nodes

/-- A node without children. -/
def leaf (label : Text) : Outline := .node label []

end Outline

/-- The outline of one fragment. -/
def Fragment.outline (f : Fragment) : Outline :=
  match f.raw with
  | some r => .leaf (r.header ++ of " \x7b ... \x7d")
  | none =>
    let label := join (of ", ") f.selectors
    let label := if label.isEmpty then of "(top level)" else label
    .node (label ++ of " [" ++ ofNat f.position ++ [ch ']'])
      (f.properties.map fun p => .leaf p.text)

/-- The outline of fragments, those of one media query in a row under one node. -/
def outlineOf : List Fragment → List Outline
  | [] => []
  | f :: rest =>
    let query := mediaQuery f.media
    if query.isEmpty then f.outline :: outlineOf rest
    else
      let label := of "@media " ++ query
      match rest, outlineOf rest with
      | g :: _, .node l children :: more =>
        if mediaQuery g.media = query then .node l (f.outline :: children) :: more
        else .node label [f.outline] :: .node l children :: more
      | _, more => .node label [f.outline] :: more

/-- Fragments drawn as a tree. -/
def drawFragments (fragments : List Fragment) : Text := Outline.draw (outlineOf fragments)

end Stylesheet
