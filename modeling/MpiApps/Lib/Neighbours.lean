/-
  MpiApps.Lib.Neighbours

  Messages between neighbours on a line.

  At the end of the line a rank has no neighbour: what it would send there is not sent, and
  nothing arrives from there.  In a round every rank sends a list of messages, each of them
  to one side, and receives the same list from the other side.  If the ranks agree on who
  is whose neighbour, a round takes every rank to what it does with the messages of its
  neighbours (`reaches_round`).
-/

import MpiApps.Lib.Collectives

namespace MpiApps.MessagePassing

variable {R T M α : Type}

/-- Which way a message goes. -/
inductive Dir
  | down
  | up
  deriving DecidableEq, Repr

/-- The neighbours of the ranks on a line. -/
structure Neighbours (R : Type) where
  lower : R → Option R
  upper : R → Option R
  upper_iff : ∀ a b, upper a = some b ↔ lower b = some a

namespace Neighbours

variable (N : Neighbours R)

/-- Where a message goes. -/
def target (r : R) : Dir → Option R
  | .down => N.lower r
  | .up => N.upper r

/-- Where it comes from. -/
def source (r : R) : Dir → Option R
  | .down => N.upper r
  | .up => N.lower r

theorem target_iff_source (a b : R) (d : Dir) : N.target a d = some b ↔ N.source b d = some a := by
  cases d with
  | down => exact (N.upper_iff b a).symm
  | up => exact N.upper_iff a b

/-! ## A round -/

/-- The sends of a round. -/
def sendAll (r : R) : List (Dir × T × M) → Proc R T M α → Proc R T M α
  | [], k => k
  | (d, tag, m) :: msgs, k =>
    match N.target r d with
    | some dst => .send dst tag m (sendAll r msgs k)
    | none => sendAll r msgs k

/-- The receives of a round. -/
def recvAll (r : R) : List (Dir × T) → (List (Option M) → Proc R T M α) → Proc R T M α
  | [], k => k []
  | (d, tag) :: items, k =>
    match N.source r d with
    | some src => .recv src tag fun m => recvAll r items fun ms => k (some m :: ms)
    | none => recvAll r items fun ms => k (none :: ms)

/-- A round; `m d tag` is what goes to the side `d` with a tag. -/
def round (r : R) (items : List (Dir × T)) (m : Dir → T → M)
    (k : List (Option M) → Proc R T M α) : Proc R T M α :=
  N.sendAll r (items.map fun i => (i.1, i.2, m i.1 i.2)) (N.recvAll r items k)

/-- What has arrived after a round. -/
def arrivals (r : R) (items : List (Dir × T)) (m : R → Dir → T → M) : List (Option M) :=
  items.map fun i => (N.source r i.1).map fun s => m s i.1 i.2

theorem localRun_sendAll (r : R) (items : List (Dir × T)) (m : Dir → T → M)
    (k : Proc R T M α) :
    LocalRun (N.sendAll r (items.map fun i => (i.1, i.2, m i.1 i.2)) k)
      (items.filterMap fun i => (N.target r i.1).map fun dst => .sent dst i.2 (m i.1 i.2)) k := by
  induction items with
  | nil => exact .refl k
  | cons i items ih =>
      rw [List.map_cons, sendAll, List.filterMap_cons]
      cases N.target r i.1 with
      | none => exact ih
      | some dst => exact .head .send ih

theorem localRun_recvAll (r : R) (items : List (Dir × T)) (m : R → Dir → T → M)
    (k : List (Option M) → Proc R T M α) :
    LocalRun (N.recvAll r items k)
      (items.filterMap fun i => (N.source r i.1).map fun src => .received src i.2 (m src i.1 i.2))
      (k (N.arrivals r items m)) := by
  induction items generalizing k with
  | nil => exact .refl (k [])
  | cons i items ih =>
      rw [recvAll, List.filterMap_cons, arrivals, List.map_cons]
      cases N.source r i.1 with
      | none => exact ih fun ms => k (none :: ms)
      | some src => exact .head .recv (ih fun ms => k (some (m src i.1 i.2) :: ms))

variable [DecidableEq R] [DecidableEq T]

/-- What a rank sends to another one is what that one receives from it. -/
theorem sendsTo_eq_recvsFrom (items : List (Dir × T)) (m : R → Dir → T → M) (a b : R) (tag : T) :
    sendsTo (items.filterMap fun i =>
        (N.target a i.1).map fun dst => Event.sent dst i.2 (m a i.1 i.2)) b tag =
      recvsFrom (items.filterMap fun i =>
        (N.source b i.1).map fun src => Event.received src i.2 (m src i.1 i.2)) a tag := by
  rw [sendsTo, recvsFrom, List.filterMap_filterMap, List.filterMap_filterMap]
  refine List.filterMap_congr fun i _ => ?_
  by_cases hab : N.target a i.1 = some b
  · rw [hab, (N.target_iff_source a b i.1).mp hab]
    simp
  · have hba := (N.target_iff_source a b i.1).not.mp hab
    -- the one item goes elsewhere, the other comes from elsewhere
    refine Eq.trans (b := none) ?_ (Eq.symm ?_)
    · cases ht : N.target a i.1 with
      | none => rfl
      | some dst => exact if_neg fun h => hab (ht.trans (congrArg some h.1))
    · cases hs : N.source b i.1 with
      | none => rfl
      | some src => exact if_neg fun h => hba (hs.trans (congrArg some h.1))

variable [Fintype R]

/-- After a round every rank has the messages of its neighbours. -/
theorem reaches_round (items : List (Dir × T)) (m : R → Dir → T → M)
    (k : R → List (Option M) → Proc R T M α) :
    Reaches (fun r => N.round r items (m r) (k r)) (fun r => k r (N.arrivals r items m)) := by
  refine reaches_of_exchange (fun r => N.localRun_sendAll r items (m r) _)
    (fun r => N.localRun_recvAll r items m (k r)) ?_ ?_ (N.sendsTo_eq_recvsFrom items m)
  · intro r src tag
    rw [recvsFrom, List.filterMap_filterMap, List.filterMap_eq_nil_iff]
    intro i _
    cases N.target r i.1 <;> rfl
  · intro r dst tag
    rw [sendsTo, List.filterMap_filterMap, List.filterMap_eq_nil_iff]
    intro i _
    cases N.source r i.1 <;> rfl

end Neighbours

end MpiApps.MessagePassing
