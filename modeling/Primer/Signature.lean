import Primer.Value

/-!
Signatures of procedures: the types they take and the type they give back.
-/

set_option autoImplicit false
set_option relaxedAutoImplicit false

namespace Primer

structure Signature where
  params : List Ty
  returns : Ty
deriving DecidableEq

end Primer
