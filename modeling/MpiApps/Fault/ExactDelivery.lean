/-
  MpiApps.Fault.ExactDelivery

  `MPI_Bcast_abft` delivers exactly, within two flips a block.

  The number of bytes is an `int`.  Below `2 ^ 28` doubles it is the size of the buffer, and
  every rank returns with the root's buffer (`bcastAbft_exact_delivery`).  From there on it is
  not: of `2 ^ 29 + 1` doubles only the first one is sent (`bcastAbft_first_only`).
-/

import MpiApps.Fault.Detection

namespace MpiApps.Fault

open MpiApps.MessagePassing

section Radius

variable {n : Nat} {root : Fin n} {buffers : Fin n → List (BitVec 64)}

/-- A rank for which `bit_flip` is called at most twice is within the radius. -/
theorem injectBits_withinRadius {rnds : Fin n → List Nat} (hrnds : ∀ r, (rnds r).length ≤ 2)
    (hpos : 0 < (abftSent root buffers).length)
    (hbits : (abftSent root buffers).length * 8 ≤ 4294967295) (r : Fin n) :
    WithinRadius zlibCrc32 (abftPlan root buffers) (abftSent root buffers)
      (abftReceived zlibCrc32 (fun r => injectBits (rnds r)) root buffers r) := by
  have hbs : 0 < blockSizeAbft (abftSent root buffers).length := blockSizeOf_pos (by decide) hpos
  exact (bitFlips_fewFlips hbs _ (hrnds r)).withinRadius hbits

end Radius

section Delivery

variable {n : Nat} {crc32 : BitVec 32 → BitVec 8 → BitVec 32}
  {corrupt : Fin n → Payload → Payload} {root : Fin n} {buffers : Fin n → List (BitVec 64)}

/-- With fewer than `2 ^ 28` doubles and at most two flips in each block at each rank, all
    ranks return with the root's buffer, whatever the order of their steps.  The blocks
    partition the payload, and there is one retransmission for each rank that has to get the
    payload again. -/
theorem bcastAbft_exact_delivery
    (hcount : 1 ≤ (buffers root).length) (hint : (buffers root).length < 2 ^ 28)
    (hbuffers : ∀ r, (buffers r).length = (buffers root).length)
    (hradius : ∀ r, r ≠ root → WithinRadius crc32 (planAbft ((buffers root).length * 8))
      (toBytes (buffers root)) (abftReceived crc32 corrupt root buffers r)) :
    (∀ k < (buffers root).length * 8, ∃! i, i < (planAbft ((buffers root).length * 8)).bsNum ∧
      i * (planAbft ((buffers root).length * 8)).bs ≤ k ∧
      k < i * (planAbft ((buffers root).length * 8)).bs +
        (planAbft ((buffers root).length * 8)).bytes i) ∧
    ∃ t, Outcome (abftSys crc32 corrupt root buffers) t (fun _ => buffers root) ∧
      (∀ u m, Run (abftSys crc32 corrupt root buffers) u m →
        (∃ k, Run u t k) ∧ (u.Terminal → u = t)) ∧
      (t.log root).filter Event.isUser =
        ((List.finRange n).filter fun i => decide (i ≠ root) &&
          abftNeeds crc32 corrupt root buffers i).map (fun i =>
            .sent i (.user i) (.bytes (toBytes (buffers root)))) ∧
      ∀ r, r ≠ root → (t.log r).filter Event.isUser =
        if abftNeeds crc32 corrupt root buffers r then
          [.received root (.user r) (.bytes (toBytes (buffers root)))] else [] := by
  have hsize := dataBytesOf_of_lt (show (buffers root).length < 268435456 by omega)
  obtain ⟨hsent, hlen⟩ := abftSent_eq hsize (Nat.le_refl _)
  rw [List.take_length] at hsent
  have hplan : abftPlan root buffers = planAbft ((buffers root).length * 8) :=
    congrArg planAbft hlen
  rw [← hplan, ← hsent] at hradius
  obtain ⟨t, hout, hlogs⟩ := abft_run hsize hcount (Nat.le_refl _) hbuffers hradius
  rw [abftDelivered_all hbuffers] at hout
  rw [hsent] at hlogs
  -- the outcome is the only one, so all orders of the steps end there
  refine ⟨fun k hk => ?_, t, hout, fun u m hu => ⟨hout.reachable hu, hout.unique hu⟩, hlogs⟩
  have hbs : 0 < blockSizeAbft ((buffers root).length * 8) :=
    blockSizeOf_pos (by decide) (by omega)
  exact (blockTiling hbs _).existsUnique_tile hk

/-- What is not sent stays. -/
theorem abftDelivered_getElem? {d i : Nat}
    (hd : d ≤ (buffers root).length) (hi : d ≤ i) (r : Fin n) :
    (abftDelivered d root buffers r)[i]? = (buffers r)[i]? := by
  have htake : ((buffers root).take d).length = d := by rw [List.length_take, Nat.min_eq_left hd]
  rw [abftDelivered, List.getElem?_append_right (by rwa [htake]), htake, List.getElem?_drop,
    Nat.add_sub_cancel' hi]

end Delivery

/-- 1563 doubles, which have 12504 bytes and so two blocks. -/
def twoBlocks (r : Fin 3) : List (BitVec 64) :=
  List.replicate 1563 (if r = 1 then 0x3ff0000000000000 else 0)

/-- Rank 0 has a flip in each block, rank 2 has two in the first one. -/
def flipBoth (r : Fin 3) : List Nat := if r = 0 then [0, 100000] else [0, 1]

theorem bcastAbft_exact_delivery_three :
    (planAbft (1563 * 8)).bsNum = 2 ∧
      ∃ t, Outcome (abftSys zlibCrc32 (fun r => injectBits (flipBoth r)) 1 twoBlocks) t
        (fun _ => twoBlocks 1) := by
  have hlength : ∀ r, (twoBlocks r).length = 1563 := fun r => List.length_replicate
  have hsize : dataBytesOf (twoBlocks 1).length = (1563 * 8 : Nat) := by
    rw [hlength]
    exact dataBytesOf_of_lt (by decide)
  obtain ⟨hsent, hlen⟩ := abftSent_eq hsize (hlength 1).ge
  rw [← hlength 1, List.take_length] at hsent
  have hradius : ∀ r, r ≠ 1 → WithinRadius zlibCrc32 (planAbft ((twoBlocks 1).length * 8))
      (toBytes (twoBlocks 1))
      (abftReceived zlibCrc32 (fun r => injectBits (flipBoth r)) 1 twoBlocks r) := by
    intro r _
    have h := @injectBits_withinRadius 3 1 twoBlocks flipBoth (by decide) (by omega) (by omega) r
    rw [abftPlan, hlen, hsent, ← hlength 1] at h
    exact h
  obtain ⟨-, t, hout, -⟩ := @bcastAbft_exact_delivery 3 zlibCrc32
    (fun r => injectBits (flipBoth r)) 1 twoBlocks (by rw [hlength]; decide)
    (by rw [hlength]; decide) (fun r => (hlength r).trans (hlength 1).symm) hradius
  exact ⟨by decide, t, hout⟩

/-- `2 ^ 29 + 1` doubles: ones at the root, zeros at the other rank. -/
def manyDoubles (r : Fin 2) : List (BitVec 64) :=
  List.replicate 536870913 (if r = 0 then 0x3ff0000000000000 else 0)

/-- `data_bytes` is 8, and without any flip the other rank keeps its zeros behind the first
    double. -/
theorem bcastAbft_first_only :
    (∀ r, r ≠ 0 → WithinRadius zlibCrc32 (abftPlan 0 manyDoubles) (abftSent 0 manyDoubles)
      (abftReceived zlibCrc32 (fun _ => injectBits []) 0 manyDoubles r)) ∧
    ∃ t bufs, Outcome (abftSys zlibCrc32 (fun _ => injectBits []) 0 manyDoubles) t bufs ∧
      bufs 1 ≠ manyDoubles 0 := by
  have hlength : ∀ r, (manyDoubles r).length = 536870913 := fun r => List.length_replicate
  have hsize : dataBytesOf (manyDoubles 0).length = (1 * 8 : Nat) := by
    rw [hlength]
    unfold dataBytesOf asInt
    decide
  have hone : 1 ≤ (manyDoubles 0).length := by rw [hlength]; decide
  obtain ⟨-, hlen⟩ := abftSent_eq hsize hone
  have hradius := @injectBits_withinRadius 2 0 manyDoubles (fun _ => [])
    (fun _ => Nat.zero_le _) (by omega) (by omega)
  obtain ⟨t, hout, -⟩ := abft_run hsize (Nat.le_refl _) hone
    (fun r => (hlength r).trans (hlength 0).symm) fun r _ => hradius r
  refine ⟨fun r _ => hradius r, t, _, hout, fun heq => ?_⟩
  have hentry : ∀ r, (manyDoubles r)[1]? = some (if r = 0 then 0x3ff0000000000000 else 0) := by
    intro r
    rw [manyDoubles, List.getElem?_replicate, if_pos (by decide)]
  have hkept := abftDelivered_getElem? hone (Nat.le_refl 1) 1
  rw [heq, hentry, hentry] at hkept
  exact absurd hkept (by decide)

end MpiApps.Fault
