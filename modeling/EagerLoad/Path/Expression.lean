import EagerLoad.Path.Grammar

/-!
Contract: requests for several paths at once.

Owns: expressions given as one source or as a list of sources, and the paths they
denote together.

Does not own: reports about rejected sources. A rejected source contributes no
path here; who wants to know about it parses it by itself.
-/

set_option autoImplicit false

namespace EagerLoad.Path

inductive Expression where
  | single (source : String)
  | many (sources : List String)
  deriving DecidableEq, Repr

/-- The items of a list without the later repeats. -/
def firstOccurrences {α : Type} [DecidableEq α] (items : List α) : List α :=
  items.foldl (fun kept item => if item ∈ kept then kept else kept ++ [item]) []

namespace Expression

def sources : Expression → List String
  | .single source => [source]
  | .many sources => sources

/-- The paths of a source, none when it is rejected. -/
def acceptedPaths (source : String) : List RelationPath :=
  match parse source with
  | .ok paths => paths
  | .error _ => []

/-- The distinct paths of all accepted sources, in order of first occurrence. -/
def paths (expression : Expression) : List RelationPath :=
  firstOccurrences (expression.sources.flatMap acceptedPaths)

end Expression

end EagerLoad.Path
