/-!
The order of linked things: sources come before targets. What lies on a circle of links, or behind
one, has no place in the order.
-/
namespace WorkflowInference.Builder.Order

variable {α : Type} [BEq α]

def endpoints (links : List (α × α)) : List α := (links.flatMap fun l => [l.1, l.2]).eraseDups

def inDegree (links : List (α × α)) (x : α) : Nat := links.countP fun l => l.2 == x

def targets (links : List (α × α)) (x : α) : List α := (links.filter fun l => l.1 == x).map (·.2)

def lessen (degrees : List (α × Nat)) (x : α) : List (α × Nat) :=
  degrees.map fun d => if d.1 == x then (d.1, d.2 - 1) else d

def release : List (α × Nat) → List α → List α → List (α × Nat) × List α
  | degrees, queue, [] => (degrees, queue)
  | degrees, queue, t :: ts =>
    let degrees := lessen degrees t
    let free := degrees.any fun d => d.1 == t && d.2 == 0
    release degrees (if free then queue ++ [t] else queue) ts

def run (links : List (α × α)) : Nat → List (α × Nat) → List α → List α
  | 0, _, _ => []
  | _, _, [] => []
  | n + 1, degrees, x :: queue =>
    match release degrees queue (targets links x) with
    | (degrees, queue) => x :: run links n degrees queue

/-- The ends of links in order. Each end is in the queue at most once, so their number bounds the
steps. -/
def ofLinks (links : List (α × α)) : List α :=
  let ends := endpoints links
  run links ends.length (ends.map fun x => (x, inDegree links x)) (ends.filter fun x =>
    inDegree links x == 0)

end WorkflowInference.Builder.Order
