/-
  Numbers of the entries of a table, as literals.

  That a table is not empty, and that its numbers can be told apart, is proved here by name, so
  that a literal or a membership test is the same term in every module.
-/
import Mathlib.Algebra.Order.Ring.Nat

namespace Uniks.Slots

instance (priority := 2000) neZero_64 : NeZero 64 := ⟨by decide⟩

instance (priority := 2000) neZero_256 : NeZero 256 := ⟨by decide⟩

instance (priority := 2000) neZero_512 : NeZero 512 := ⟨by decide⟩

instance (priority := 2000) lawfulBEq_fin {n : Nat} : LawfulBEq (Fin n) := inferInstance

end Uniks.Slots
