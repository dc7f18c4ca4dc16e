import VbaRefactor.Error

/-!
# Permutations of parameter places

A permutation is given by the table that says, for each new place, which old place goes there.
-/

namespace VbaRefactor

/-- A new order: the entry at each new place is the old place. -/
structure Permutation where
  oldPlaces : List Nat
deriving DecidableEq, Repr

namespace Permutation

/-- The list holds every place below `n` exactly once. -/
def isOrder (order : List Nat) (n : Nat) : Bool :=
  order.length = n && order.all (· < n) && decide order.Nodup

/-- The permutation of `n` places that a list describes (`from_order`). -/
def ofOrder (order : List Nat) (n : Nat) : Except OrderFault Permutation :=
  if isOrder order n then .ok ⟨order⟩ else .error (.notAPermutation n order)

def identity (n : Nat) : Permutation := ⟨List.range n⟩

def size (p : Permutation) : Nat := p.oldPlaces.length

def isIdentity (p : Permutation) : Bool := p.oldPlaces = List.range p.size

def oldPlace (p : Permutation) (new : Nat) : Nat := p.oldPlaces[new]?.getD 0

/-- For each old place, the new place it goes to (`old_to_new`). -/
def newPlaces (p : Permutation) : List Nat :=
  (List.range p.size).map fun old => p.oldPlaces.idxOf old

/-- The permutation that undoes this one (`inverse`). -/
def inverse (p : Permutation) : Permutation := ⟨p.newPlaces⟩

/-- The items in the new order (`apply`). -/
def apply {α : Type} (p : Permutation) (items : List α) : List α :=
  p.oldPlaces.filterMap fun old => items[old]?

end Permutation

end VbaRefactor
