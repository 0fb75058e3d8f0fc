/-!
The order of texts by the numbers of their characters.
-/

set_option autoImplicit false
set_option relaxedAutoImplicit false

namespace Primer.Text

/-- The first text is the second one or comes before it: at the first character where they
differ it has the smaller one, or it ends there. -/
def precedes : List Char → List Char → Bool
  | [], _ => true
  | _ :: _, [] => false
  | a :: as, b :: bs => a.toNat < b.toNat || (a.toNat == b.toNat && precedes as bs)

end Primer.Text
