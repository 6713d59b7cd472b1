/-
  MpiApps.Lib.Replicas

  Replicated memories whose parts are computed by their owners.

  Every process holds a copy of the whole memory.  Operations write a part each and read no
  part of another operation.  If every process performs the operations it owns and the parts
  are then copied from their owners, all copies are what one process makes that performs
  every operation (`exchange_own`), whoever owns what.
-/

import Mathlib.Data.List.Nodup
import Mathlib.Tactic.Common

namespace MpiApps.Replicas

variable {X V ι : Type}

/-- Operations on a memory with cells `X`, each with its part of the cells. -/
structure Parts (X V ι : Type) where
  /-- the operation that writes a cell -/
  part : X → Option ι
  op : ι → (X → V) → X → V
  /-- an operation writes its part only -/
  kept : ∀ j A x, part x ≠ some j → op j A x = A x
  /-- and reads no other part -/
  reads : ∀ j A B, (∀ x, part x = none ∨ part x = some j → A x = B x) →
    ∀ x, part x = some j → op j A x = op j B x

namespace Parts

variable (P : Parts X V ι)

/-- One process performs the operations that are its own. -/
def own (mine : ι → Bool) (js : List ι) (A : X → V) : X → V :=
  js.foldl (fun A j => if mine j then P.op j A else A) A

theorem own_cons (mine : ι → Bool) (j : ι) (js : List ι) (A : X → V) :
    P.own mine (j :: js) A = P.own mine js (if mine j then P.op j A else A) := rfl

/-- A cell outside the parts stays. -/
theorem own_of_not_mem {mine : ι → Bool} {js : List ι} {x : X}
    (h : ∀ j ∈ js, P.part x ≠ some j) (A : X → V) : P.own mine js A x = A x := by
  induction js generalizing A with
  | nil => rfl
  | cons j js ih =>
      rw [own_cons, ih fun i hi => h i (List.mem_cons_of_mem _ hi)]
      split
      · exact P.kept j A x (h j List.mem_cons_self)
      · rfl

/-- A cell of a part is as its operation makes it from the first memory. -/
theorem own_of_mem {mine : ι → Bool} {js : List ι} (hjs : js.Nodup) {j : ι} (hj : j ∈ js) {x : X}
    (hx : P.part x = some j) (A : X → V) :
    P.own mine js A x = if mine j then P.op j A x else A x := by
  induction js generalizing A with
  | nil => exact absurd hj List.not_mem_nil
  | cons i js ih =>
      obtain ⟨hi, hjs⟩ := List.nodup_cons.mp hjs
      rw [own_cons]
      rcases List.mem_cons.mp hj with rfl | hmem
      · have hrest : ∀ k ∈ js, P.part x ≠ some k := by
          rintro k hk hxk
          rw [hx] at hxk
          exact hi (Option.some.inj hxk ▸ hk)
        rw [own_of_not_mem P hrest]
        split <;> rfl
      · have hne : i ≠ j := fun h => hi (h ▸ hmem)
        have hstay : ∀ y, P.part y = none ∨ P.part y = some j →
            (if mine i then P.op i A else A) y = A y := by
          rintro y hy
          split
          · refine P.kept i A y ?_
            rcases hy with hy | hy <;> rw [hy]
            · exact (Option.some_ne_none i).symm
            · exact fun h => hne (Option.some.inj h).symm
          · rfl
        rw [ih hjs hmem]
        split
        · exact P.reads j _ _ hstay x hx
        · exact hstay x (.inr hx)

variable [DecidableEq ι]

/-- The part of `j` is copied from the memory `B`. -/
def copyPart (j : ι) (B A : X → V) : X → V := fun x => if P.part x = some j then B x else A x

/-- The parts are copied one after the other, each from its owner. -/
def exchange {R : Type} (owner : ι → R) (js : List ι) (B : R → X → V) : R → X → V :=
  js.foldl (fun B j r => P.copyPart j (B (owner j)) (B r)) B

theorem exchange_of_not_mem {R : Type} {owner : ι → R} {js : List ι} {x : X}
    (h : ∀ j ∈ js, P.part x ≠ some j) (B : R → X → V) (r : R) :
    P.exchange owner js B r x = B r x := by
  induction js generalizing B with
  | nil => rfl
  | cons j js ih =>
      refine (ih (fun i hi => h i (List.mem_cons_of_mem _ hi)) _).trans ?_
      exact if_neg (h j List.mem_cons_self)

theorem exchange_of_mem {R : Type} {owner : ι → R} {js : List ι} (hjs : js.Nodup) {j : ι}
    (hj : j ∈ js) {x : X} (hx : P.part x = some j) (B : R → X → V) (r : R) :
    P.exchange owner js B r x = B (owner j) x := by
  induction js generalizing B with
  | nil => exact absurd hj List.not_mem_nil
  | cons i js ih =>
      obtain ⟨hi, hjs⟩ := List.nodup_cons.mp hjs
      rcases List.mem_cons.mp hj with rfl | hmem
      · have hrest : ∀ k ∈ js, P.part x ≠ some k := by
          rintro k hk hxk
          rw [hx] at hxk
          exact hi (Option.some.inj hxk ▸ hk)
        exact (exchange_of_not_mem P hrest _ r).trans (if_pos hx)
      · have hne : ¬ P.part x = some i := by
          rw [hx]
          exact fun h => hi (Option.some.inj h ▸ hmem)
        exact (ih hjs hmem _).trans (if_neg hne)

/-- After the exchange all copies are what one process makes that owns everything. -/
theorem exchange_own {R : Type} [DecidableEq R] (owner : ι → R) {js : List ι} (hjs : js.Nodup)
    (A : X → V) (r : R) :
    P.exchange owner js (fun q => P.own (fun j => decide (owner j = q)) js A) r =
      P.own (fun _ => true) js A := by
  funext x
  by_cases hx : ∃ j ∈ js, P.part x = some j
  · obtain ⟨j, hj, hx⟩ := hx
    rw [exchange_of_mem P hjs hj hx, own_of_mem P hjs hj hx, own_of_mem P hjs hj hx]
    simp
  · have hnot : ∀ j ∈ js, P.part x ≠ some j := fun j hj h => hx ⟨j, hj, h⟩
    rw [exchange_of_not_mem P hnot, own_of_not_mem P hnot, own_of_not_mem P hnot]

end Parts

end MpiApps.Replicas
