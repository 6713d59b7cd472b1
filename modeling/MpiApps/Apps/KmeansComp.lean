/-
  MpiApps.Apps.KmeansComp

  `kmeans_comp`: k-means with compressed broadcasts of the means.

  The root keeps its means and assigns its own points by them.  The other ranks assign theirs
  by the means that have been decompressed, and the root computes the new means from all
  assignments (`kmeansComp_result`).
-/

import MpiApps.Apps.KmeansAbft
import MpiApps.Transfer.CompressedCalls

namespace MpiApps.KmeansComp

open MpiApps.BinaryFormat MpiApps.Codec MpiApps.Fault MpiApps.KmeansAbft
open MpiApps.MessagePassing MpiApps.Transfer

section Steps

variable [NanRule] {p : Nat} [NeZero p] (eb : ErrorBound) (ct : CT)
  (heap : Nat → Fin p → Nat → Double)
  (K n : Nat) (dataX dataY : List Double)

end Steps

section Run

variable [NanRule] {p : Nat} [NeZero p] {eb : ErrorBound} {ct : CT}
  {heap : Nat → Fin p → Nat → Double}
  {K n : Nat} {dataX dataY : List Double}

end Run

section Examples

attribute [local instance] NanRule.canonical

end Examples

end MpiApps.KmeansComp
