/-!
Stretches of source text, in bytes.
-/

namespace Pinning

structure Span where
  start : Nat
  stop : Nat
deriving DecidableEq, Repr

structure Spanned (β : Type) where
  value : β
  span : Span
deriving DecidableEq

end Pinning
