import Krypto.Store.Outline

/-! Which calls the operations of a store make, whatever is replied to them. -/

namespace Krypto
open Effect Store

variable {ν α : Type}

section Crate
variable (P : Primitives)

end Crate

end Krypto
