/-!
# Binary heaps

A list kept so that the member that comes first is always at hand. Members that neither comes before
the other leave the heap in the order that its shape gives them.

## Main Definitions

* `Heap.push`, `Heap.pop?` — adding a member, and taking the first
* `Heap.sorted` — all members of a list in the order in which a heap gives them back

## Design Notes

Member `i` has the members `2 * i + 1` and `2 * i + 2` below it and comes after neither of them. A
new member starts at the end and rises; when the first leaves, the last takes its place and sinks.
No member rises or sinks further than there are members.
-/

namespace ReleaseRecovery.Heap

variable {α : Type} (before : α → α → Bool)

/-- Whether a member has to stand above another one. -/
def isDue (heap : Array α) (i j : Nat) : Bool :=
  match heap[i]?, heap[j]? with
  | some a, some b => before a b
  | _, _ => false

/-- Lets member `i` rise, `room` times at most. -/
def rise : Nat → Nat → Array α → Array α
  | 0, _, heap => heap
  | room + 1, i, heap =>
    let above := (i - 1) / 2
    if 0 < i ∧ isDue before heap i above then rise room above (heap.swapIfInBounds i above)
    else heap

/-- Which of the two members below `i` comes first. Of equals it is the left one. -/
def below (heap : Array α) (i : Nat) : Nat :=
  if isDue before heap (2 * i + 2) (2 * i + 1) then 2 * i + 2 else 2 * i + 1

/-- Lets member `i` sink, `room` times at most. -/
def sink : Nat → Nat → Array α → Array α
  | 0, _, heap => heap
  | room + 1, i, heap =>
    let next := below before heap i
    if isDue before heap next i then sink room next (heap.swapIfInBounds next i) else heap

/-- Adds a member. -/
def push (heap : Array α) (a : α) : Array α :=
  rise before heap.size heap.size (heap.push a)

/-- Takes the first member. -/
def pop? (heap : Array α) : Option (α × Array α) :=
  match heap[0]?, heap.back? with
  | some first, some last => some (first, sink before heap.size 0 ((heap.pop).setIfInBounds 0 last))
  | _, _ => none

/-- The first `count` members in the order in which they leave. -/
def drain : Nat → Array α → List α
  | 0, _ => []
  | count + 1, heap =>
    match pop? before heap with
    | some (a, heap) => a :: drain count heap
    | none => []

/-- The members of a list in the order in which they leave a heap that they have entered one after
the other. -/
def sorted (l : List α) : List α := drain before l.length (l.foldl (push before) #[])

end ReleaseRecovery.Heap
