/-
  MpiApps.Fault.AbftCalls

  `MPI_Bcast_abft` in the place of `MPI_Bcast`.

  A program that broadcasts its doubles with `MPI_Bcast_abft` computes what it computes with
  `MPI_Bcast`, if no broadcast has more than a few flips at any rank (`delivers_abft`,
  `Computes.yields_withAbft`).  The program may be any one over collective operations.
-/

import MpiApps.Codec.Ieee
import MpiApps.Fault.Detection
import MpiApps.Lib.CollectivePrograms

namespace MpiApps.Fault

open MpiApps.Codec MpiApps.MessagePassing

/-! ## The calls -/

/-- The buffers of a program: `MPI_INT` and `MPI_DOUBLE`. -/
inductive Buffer (V : Type)
  | ints (ks : List Nat)
  | doubles (xs : List V)

/-- The messages of a program with calls of `MPI_Bcast_abft`. -/
inductive Message
  | own (m : Buffer Double)
  | wire (w : Wire)

def Message.asOwn : Message → Option (Buffer Double)
  | .own m => some m
  | .wire _ => none

def Message.asWire : Message → Option Wire
  | .own _ => none
  | .wire w => some w

/-- The bits of doubles. -/
def toWords (xs : List Double) : List (BitVec 64) := xs.map (·.bits)

/-- Doubles by their bits. -/
def ofWords (ws : List (BitVec 64)) : List Double := ws.map fun w => ⟨w⟩

@[simp] theorem toWords_length (xs : List Double) : (toWords xs).length = xs.length :=
  List.length_map _

@[simp] theorem ofWords_length (ws : List (BitVec 64)) : (ofWords ws).length = ws.length :=
  List.length_map _

@[simp] theorem ofWords_toWords (xs : List Double) : ofWords (toWords xs) = xs := by
  induction xs with
  | nil => rfl
  | cons x xs ih => exact congrArg (x :: ·) ih

section Calls

variable {n : Nat} {α : Type}

/-- The `i`-th broadcast of a program: `MPI_Bcast_abft` for doubles, `MPI_Bcast` for
    integers. -/
def abftBroadcast (crc32 : BitVec 32 → BitVec 8 → BitVec 32)
    (corrupt : Nat → Fin n → Payload → Payload) :
    Broadcast (Fin n) (Tag (Fin n)) (Buffer Double) Message α := fun i root rank m k =>
  match m with
  | .doubles xs =>
    (mpiBcastAbft crc32 (corrupt i rank) (List.finRange n) root rank (toWords xs)).call .wire
      Message.asWire fun ys => k (.doubles (ofWords ys))
  | .ints ks =>
    bcast (List.finRange n) root rank .bcast (.own (.ints ks)) fun w =>
      Proc.expect Message.asOwn w k

/-- A program with `MPI_Bcast_abft` at a rank. -/
def withAbft (crc32 : BitVec 32 → BitVec 8 → BitVec 32)
    (corrupt : Nat → Fin n → Payload → Payload) (P : Fin n → Prog (Fin n) (Buffer Double) α)
    (rank : Fin n) : Proc (Fin n) (Tag (Fin n)) Message α :=
  (P rank).proc .own Message.asOwn (List.finRange n) .bcast (abftBroadcast crc32 corrupt) rank 0

/-- The same program with `MPI_Bcast`, for numbers of any kind. -/
def withBcast {V : Type} (P : Fin n → Prog (Fin n) (Buffer V) α) (rank : Fin n) :
    Proc (Fin n) (Tag (Fin n)) (Buffer V) α :=
  (P rank).proc id some (List.finRange n) .bcast (fun _ root rank m k =>
    bcast (List.finRange n) root rank .bcast m k) rank 0

/-- A broadcast of integers, or of doubles as many as every rank has room for. -/
def Callable {R V : Type} (most : Nat) (root : R) (m : R → Buffer V) : Prop :=
  (∃ ks : R → List Nat, m = fun r => .ints (ks r)) ∨
    ∃ xs : R → List V, m = (fun r => .doubles (xs r)) ∧ 1 ≤ (xs root).length ∧
      (xs root).length ≤ most ∧ ∀ r, (xs r).length = (xs root).length

theorem callable_doubles {R V : Type} {most len : Nat} {root : R} {xs : R → List V}
    (hpos : 1 ≤ len) (hmost : len ≤ most) (hlen : ∀ r, (xs r).length = len) :
    Callable most root fun r => .doubles (xs r) := by
  refine .inr ⟨xs, rfl, ?_, ?_, fun r => ?_⟩
  · rwa [hlen]
  · rwa [hlen]
  · rw [hlen, hlen]

/-- No broadcast has more than a few flips at any rank. -/
def FewFlipsAlways {R : Type} (crc32 : BitVec 32 → BitVec 8 → BitVec 32)
    (corrupt : Nat → R → Payload → Payload) : Prop :=
  ∀ i r (buffer : List (BitVec 64)), 1 ≤ buffer.length →
    FewFlips crc32 (planAbft (buffer.length * 8)) (toBytes buffer)
      (corrupt i r (protect crc32 (planAbft (buffer.length * 8)) (toBytes buffer)))

/-- Calls of `bit_flip` before the check of a broadcast, by its number and the rank. -/
def injected {R : Type} (rnds : Nat → R → List Nat) (i : Nat) (r : R) : Payload → Payload :=
  injectBits (rnds i r)

theorem injected_fewFlipsAlways {R : Type} (crc32 : BitVec 32 → BitVec 8 → BitVec 32)
    {rnds : Nat → R → List Nat} (h : ∀ i r, (rnds i r).length ≤ 2) :
    FewFlipsAlways crc32 (injected rnds) := by
  intro i r buffer hbuffer
  have hbs : 0 < blockSizeAbft (buffer.length * 8) := blockSizeOf_pos (by decide) (by omega)
  have hflips := @bitFlips_fewFlips crc32 _ hbs (toBytes buffer) _ (h i r)
  rw [toBytes_length] at hflips
  exact hflips

end Calls

/-! ## Delivery -/

section Delivery

variable {n : Nat} {α : Type} {crc32 : BitVec 32 → BitVec 8 → BitVec 32}

/-- As many doubles as have their bits in one period of the CRC. -/
def mostDoubles : Nat := 4294967295 / 64

/-- `MPI_Bcast_abft` delivers what `MPI_Bcast` delivers. -/
theorem delivers_abft {corrupt : Nat → Fin n → Payload → Payload}
    (hfew : FewFlipsAlways zlibCrc32 corrupt) :
    Delivers (α := α) (Callable mostDoubles) (fun _ _ _ m => m)
      (abftBroadcast zlibCrc32 corrupt) := by
  intro i root m k hm
  rcases hm with ⟨ks, rfl⟩ | ⟨xs, rfl, hcount, hmost, hlen⟩
  · have h := reaches_bcast (List.nodup_finRange n) (List.mem_finRange ·) root (Tag.bcast)
      (fun r => Message.own (.ints (ks r))) fun r w => Proc.expect Message.asOwn w (k r)
    simp only [Proc.expect_eq (show Message.asOwn (.own (.ints (ks root))) = some (.ints (ks root))
      from rfl)] at h
    exact h
  · let buffers (r : Fin n) : List (BitVec 64) := toWords (xs r)
    have hroot : (buffers root).length = (xs root).length := toWords_length _
    have hbuffers : ∀ r, (buffers r).length = (buffers root).length := fun r => by
      simp only [buffers, toWords_length, hlen]
    rw [mostDoubles] at hmost
    have hsize := dataBytesOf_of_lt (show (buffers root).length < 268435456 by omega)
    obtain ⟨hsent, hbytes⟩ := abftSent_eq hsize (Nat.le_refl _)
    rw [List.take_length] at hsent
    have hplan : abftPlan root buffers = planAbft ((buffers root).length * 8) :=
      congrArg planAbft hbytes
    obtain ⟨t, ht, -⟩ := @abft_run n zlibCrc32 (corrupt i) root buffers _ hsize (by omega)
      (Nat.le_refl _) hbuffers fun r _ => by
        have h := (hfew i r (buffers root) (by omega)).withinRadius (by rw [← hsent]; omega)
        rwa [← hplan, ← hsent] at h
    rw [abftDelivered_all hbuffers] at ht
    have hproj : ∀ w, Message.asWire (.wire w) = some w := fun _ => rfl
    have h := reaches_call hproj ht fun r ys => k r (.doubles (ofWords ys))
    simp only [buffers, ofWords_toWords] at h
    exact h

theorem delivers_withBcast {V : Type} :
    Delivers (T := Tag (Fin n)) (α := α) (fun _ (_ : Fin n → Buffer V) => True) (fun _ _ _ m => m)
      fun _ root rank m k => bcast (List.finRange n) root rank .bcast m k :=
  fun _ root m k _ =>
    reaches_bcast (List.nodup_finRange n) (List.mem_finRange ·) root Tag.bcast m k

/-- What a program computes. -/
def Computes {V : Type} (most : Nat) (P : Fin n → Prog (Fin n) (Buffer V) α) (a : Fin n → α) :
    Prop :=
  Runs (List.finRange n) (Callable most) (fun _ _ _ m => m) 0 P a

theorem Computes.yields_withBcast {V : Type} {most : Nat}
    {P : Fin n → Prog (Fin n) (Buffer V) α} {a : Fin n → α} (h : Computes most P a) :
    Yields (withBcast P) a := by
  have hproj : ∀ m : Buffer V, some (id m) = some m := fun _ => rfl
  exact ((h.mono fun _ _ _ => trivial).reaches (List.nodup_finRange n) List.mem_finRange hproj
    Tag.bcast delivers_withBcast).determined

/-- With `MPI_Bcast_abft` it computes the same, whatever the order of the steps. -/
theorem Computes.yields_withAbft {P : Fin n → Prog (Fin n) (Buffer Double) α} {a : Fin n → α}
    (h : Computes mostDoubles P a) {corrupt : Nat → Fin n → Payload → Payload}
    (hfew : FewFlipsAlways zlibCrc32 corrupt) : Yields (withAbft zlibCrc32 corrupt P) a := by
  have hproj : ∀ m, Message.asOwn (.own m) = some m := fun _ => rfl
  exact (h.reaches (List.nodup_finRange n) List.mem_finRange hproj Tag.bcast
    (delivers_abft hfew)).determined

end Delivery

end MpiApps.Fault
