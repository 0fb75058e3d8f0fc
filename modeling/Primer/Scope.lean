import Primer.Value

/-!
Names in scope. Every variable and every scratch slot of a loop belongs to the depth it was
introduced at, and leaving that depth gives its slot up.
-/

set_option autoImplicit false
set_option relaxedAutoImplicit false

namespace Primer

structure Variable where
  type : Ty
  slot : UInt8
  depth : Nat
deriving DecidableEq

/-- Named variables and unnamed scratch slots, each with its depth, and the current depth. -/
structure Scope where
  bindings : List (String × Variable) := []
  scratch : List (UInt8 × Nat) := []
  depth : Nat := 0
deriving DecidableEq

namespace Scope

instance : Inhabited Scope := ⟨{}⟩

def find? (scope : Scope) (name : String) : Option Variable :=
  scope.bindings.lookup name

/-- Introduce a variable at the current depth, in place of one of the same name. -/
def declare (scope : Scope) (name : String) (type : Ty) (slot : UInt8) : Scope :=
  { scope with
    bindings := (name, ⟨type, slot, scope.depth⟩) :: scope.bindings.filter (·.1 ≠ name) }

def addScratch (scope : Scope) (slot : UInt8) : Scope :=
  { scope with scratch := scope.scratch ++ [(slot, scope.depth)] }

def enter (scope : Scope) : Scope := { scope with depth := scope.depth + 1 }

/-- The slots that belong to depths beyond a given one, in ascending order. -/
def slotsBeyond (scope : Scope) (depth : Nat) : List UInt8 :=
  let named := (scope.bindings.filter (depth < ·.2.depth)).map (·.2.slot)
  let unnamed := (scope.scratch.filter (depth < ·.2)).map (·.1)
  (named ++ unnamed).mergeSort

/-- Leave the innermost depth; also gives the slots that belonged to it, in ascending order. -/
def leave (scope : Scope) : List UInt8 × Scope :=
  let depth := scope.depth - 1
  (scope.slotsBeyond depth,
    { bindings := scope.bindings.filter (·.2.depth ≤ depth)
      scratch := scope.scratch.filter (·.2 ≤ depth)
      depth })

end Scope

end Primer
