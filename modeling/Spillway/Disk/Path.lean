/-!
# Paths

A path is a text and the names joined to it. It is shown as one text with slashes, and looked up
part by part.
-/

namespace Spillway

structure Path where
  base : String
  names : List String := []
  deriving DecidableEq

namespace Path

instance : Coe String Path := ⟨fun base => { base }⟩

/-- The place of `name` in the directory at the path. -/
def join (path : Path) (name : String) : Path :=
  { path with names := path.names ++ [name] }

def text (path : Path) : String :=
  path.names.foldl
    (fun text name => if text = "" ∨ text.endsWith "/" then text ++ name else text ++ "/" ++ name)
    path.base

/-- The pieces between the slashes of a text. -/
def pieces : List Char → List (List Char)
  | [] => [[]]
  | c :: rest =>
    if c = '/' then [] :: pieces rest
    else
      match pieces rest with
      | [] => [[c]]
      | piece :: more => (c :: piece) :: more

/-- The names to follow from the top of the tree. -/
def parts (path : Path) : List String :=
  (pieces path.base.toList).map String.ofList ++ path.names

end Path

end Spillway
