/-!
# Drawing a sample

A draw names `k` of `n` positions. What a scheduler does with a draw must hold for every draw, so a draw is a parameter
(`Draw`), and `Draw.Fair` says all that may be assumed of one. `drawDistinct` draws uniformly without replacement from a
generator; equal generators draw equal samples.
-/

namespace PlacementTree

/-- Positions drawn, by how many there are and how many are wanted. -/
abbrev Draw := Nat → Nat → List Nat

/-- A draw of no more positions than there are yields that many distinct positions. -/
structure Draw.Fair (draw : Draw) : Prop where
  length : ∀ n k, k ≤ n → (draw n k).length = k
  nodup : ∀ n k, k ≤ n → (draw n k).Nodup
  lt : ∀ n k, k ≤ n → ∀ i ∈ draw n k, i < n

/-- Draw entries of a list until none is left or enough are drawn. -/
def drawFrom : Nat → List Nat → StdGen → List Nat × StdGen
  | 0, _, g => ([], g)
  | wanted + 1, left, g =>
    let (i, g) := randNat g 0 (left.length - 1)
    match left[i]? with
    | none => ([], g)
    | some position =>
      let (rest, g) := drawFrom wanted (left.eraseIdx i) g
      (position :: rest, g)

/-- Draw `k` of `n` positions, each choice equally likely, and leave the generator for the next draw. -/
def drawDistinct (g : StdGen) (n k : Nat) : List Nat × StdGen := drawFrom k (List.range n) g

/-- The generator of a seed for the `turn`-th draw at a place of the tree. The place and the turn are mixed into the seed by a
linear congruence. -/
def generatorAt (seed turn : Nat) (place : List Nat) : StdGen :=
  mkStdGen (place.foldl (fun mixed i => (mixed * 6364136223846793005 + i + 1442695040888963407) % UInt64.size) (seed + turn))

/-- The draws of a seed: for each place and turn one of its own. -/
def seededDraw (seed turn : Nat) (place : List Nat) : Draw := fun n k => (drawDistinct (generatorAt seed turn place) n k).1

end PlacementTree
