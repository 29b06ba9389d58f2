/-!
# Work lists

A search meets elements and looks at them one after another. Each element is met once and waits
until its turn comes: on a stack the one that was met last is next, in a queue the one that has
waited longest. `Worklist.search` goes on until nothing waits.
-/

namespace BoxFlow

/-- Which of the waiting elements is next. -/
inductive Turn
  /-- The one that was met last. -/
  | newest
  /-- The one that has waited longest. -/
  | oldest
  deriving DecidableEq, Repr

/-- What a search has met, and what of it still waits; the head is next. -/
structure Worklist (α : Type) where
  met : List α := []
  waiting : List α := []
  deriving DecidableEq, Repr

namespace Worklist

variable {α σ : Type} [DecidableEq α]

/-- An element is met; it starts to wait if that is the first time. -/
def meet (turn : Turn) (w : Worklist α) (x : α) : Worklist α :=
  if x ∈ w.met then w
  else
    { met := w.met ++ [x]
      waiting := match turn with
        | .newest => x :: w.waiting
        | .oldest => w.waiting ++ [x] }

def meetAll (turn : Turn) (w : Worklist α) (xs : List α) : Worklist α :=
  xs.foldl (meet turn) w

/-- Looks at the waiting elements, at most `bound` of them. `look` tells what is met at an element;
it may use and change a record that is kept along the way. -/
def search (turn : Turn) (look : α → σ → List α × σ) : Nat → Worklist α × σ → Worklist α × σ
  | 0, s => s
  | bound + 1, (w, r) =>
    match w.waiting with
    | [] => (w, r)
    | x :: rest =>
      let (ys, r) := look x r
      search turn look bound (meetAll turn { w with waiting := rest } ys, r)

end Worklist

end BoxFlow
