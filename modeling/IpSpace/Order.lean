/-!
# Ascending lists
-/
namespace IpSpace

/-- The members of a list in ascending order; equal ones keep their places. -/
def ascending {α : Type} [Ord α] (xs : List α) : List α :=
  xs.mergeSort fun x y => (compare x y).isLE

end IpSpace
