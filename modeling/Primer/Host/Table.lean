import Primer.Signature
import Primer.Text.Order
import Primer.Text.Quoted

/-!
Host procedures: what programs can call beyond themselves. They run in any monad, so that a table
works on a real terminal as well as on a simulated one.
-/

set_option autoImplicit false
set_option relaxedAutoImplicit false

namespace Primer

/-- What a host procedure answers: a value or nothing, or the text of its failure. -/
abbrev HostReply := Except String (Option Value)

/-- A procedure of the host. Arguments come in order. -/
structure HostProcedure (μ : Type → Type) where
  signature : Signature
  perform : List Value → μ HostReply

/-- Host procedures by name. -/
structure HostTable (μ : Type → Type) where
  entries : List (String × HostProcedure μ) := []

namespace HostTable

variable {μ : Type → Type}

def find? (table : HostTable μ) (name : String) : Option (HostProcedure μ) :=
  table.entries.lookup name

/-- Add a procedure, in place of one of the same name. -/
def register (table : HostTable μ) (name : String) (procedure : HostProcedure μ) : HostTable μ :=
  ⟨(name, procedure) :: table.entries.filter (·.1 ≠ name)⟩

def signature? (table : HostTable μ) (name : String) : Option Signature :=
  (table.find? name).map (·.signature)

/-- Run a procedure; the types of the arguments are not checked. -/
def call? (table : HostTable μ) (name : String) (arguments : List Value) : Option (μ HostReply) :=
  (table.find? name).map (·.perform arguments)

/-- All signatures, in the order of the names. -/
def signatures (table : HostTable μ) : List (String × Signature) :=
  (table.entries.map fun (name, procedure) => (name, procedure.signature)).mergeSort
    fun a b => Text.precedes a.1.toList b.1.toList

/-- The table under inspection: the names, in order. -/
def inspect (table : HostTable μ) : String :=
  "ExternTable \x7b externs: [" ++ Value.join ", " (table.signatures.map fun s => Text.quote s.1)
    ++ "] \x7d"

end HostTable

end Primer
