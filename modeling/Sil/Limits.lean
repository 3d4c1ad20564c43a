/-!
How deep the passes over a tree can go. A pass needs a part of the stack for every level, how much
of it depends on the pass and on what surrounds it, so the depths are parameters of the passes.
-/
namespace Sil

/-- The most nodes on a path that the search for a syntax error, the building of a syntax tree and
its lowering can follow. -/
structure Limits where
  search : Nat := 960
  construction : Nat := 480
  lowering : Nat := 480

end Sil
