/-!
# Arithmetic — powers and sums as the core library has them

The algebraic hierarchy has instances of its own for `^` and for the empty sum.  Under
`open scoped Arithmetic` a definition is about those of the core library, whatever is imported.
-/

namespace SlotAuction
namespace Arithmetic

scoped instance powNat : Pow Nat Nat := instPowNat

scoped instance powInt : Pow Int Nat := instPowNat

scoped instance zeroNat : Zero Nat := Zero.ofOfNat0

scoped instance zeroWord : Zero UInt64 := Zero.ofOfNat0

end Arithmetic
end SlotAuction
