/-
  MpiApps.Lib.Stores

  Values that are stored at addresses, one after the other.

  When no address occurs twice, the order of the stores does not matter: behind them every
  address holds what was stored there, and all others hold what they held before
  (`storeAll_of_mem`, `storeAll_of_not_mem`).
-/

import Mathlib.Data.List.Nodup

namespace MpiApps.Stores

variable {α β : Type}

/-! ## Stores -/

section StoreAll

variable [DecidableEq α]

/-- The memory `p` after the stores of a list. -/
def storeAll (p : α → β) (l : List (α × β)) : α → β :=
  l.foldl (fun p x => Function.update p x.1 x.2) p

@[simp] theorem storeAll_cons (p : α → β) (x : α × β) (l : List (α × β)) :
    storeAll p (x :: l) = storeAll (Function.update p x.1 x.2) l := rfl

theorem storeAll_append (p : α → β) (l l' : List (α × β)) :
    storeAll p (l ++ l') = storeAll (storeAll p l) l' := List.foldl_append

theorem storeAll_of_not_mem {l : List (α × β)} {a : α} (h : a ∉ l.map Prod.fst) (p : α → β) :
    storeAll p l a = p a := by
  induction l generalizing p with
  | nil => rfl
  | cons x l ih =>
      obtain ⟨hne, hrest⟩ := not_or.mp (List.mem_cons.not.mp h)
      rw [storeAll_cons, ih hrest, Function.update_of_ne hne]

theorem storeAll_of_mem {l : List (α × β)} (hnodup : (l.map Prod.fst).Nodup) {x : α × β}
    (hx : x ∈ l) (p : α → β) : storeAll p l x.1 = x.2 := by
  induction l generalizing p with
  | nil => exact absurd hx List.not_mem_nil
  | cons y l ih =>
      obtain ⟨hy, hrest⟩ := List.nodup_cons.mp hnodup
      rw [storeAll_cons]
      rcases List.mem_cons.mp hx with rfl | hx
      · -- nothing behind it is stored at its address
        rw [storeAll_of_not_mem hy, Function.update_self]
      · exact ih hrest hx _

/-- The values at a list of addresses are those that were stored there. -/
theorem map_storeAll {l : List (α × β)} (hnodup : (l.map Prod.fst).Nodup) {as : List α}
    {vs : List β} (hlen : as.length = vs.length) (hsub : as.zip vs ⊆ l) (p : α → β) :
    as.map (storeAll p l) = vs := by
  have hfst : (as.zip vs).map Prod.fst = as := List.map_fst_zip (Nat.le_of_eq hlen)
  have hsnd : (as.zip vs).map Prod.snd = vs := List.map_snd_zip (Nat.le_of_eq hlen.symm)
  calc as.map (storeAll p l)
      = (as.zip vs).map fun x => storeAll p l x.1 := by
        conv_lhs => rw [← hfst]
        rw [List.map_map]
        rfl
    _ = (as.zip vs).map Prod.snd :=
        List.map_congr_left fun x hx => storeAll_of_mem hnodup (hsub hx) p
    _ = vs := hsnd

end StoreAll

/-! ## Two lists in turn -/

/-- From `p` to `q`: the areas for which values have come hold them, and everything else is
    as it was. -/
structure Refreshed {ι : Type} (area : ι → List α) (came : ι → Option (List β)) (p q : α → β) :
    Prop where
  stored : ∀ i vs, came i = some vs → (area i).map q = vs
  kept : ∀ a, (∀ i, came i = none ∨ a ∉ area i) → q a = p a

section Refreshed

variable {ι : Type} {area : ι → List α} {came : ι → Option (List β)}

/-- The stores for an area. -/
def storesFor (area : ι → List α) (came : ι → Option (List β)) (i : ι) : List (α × β) :=
  ((came i).map (area i).zip).getD []

theorem storesFor_of_some {i : ι} {vs : List β} (h : came i = some vs) :
    storesFor area came i = (area i).zip vs := by
  rw [storesFor, h]
  rfl

theorem storesFor_of_none {i : ι} (h : came i = none) : storesFor area came i = [] := by
  rw [storesFor, h]
  rfl

theorem map_fst_storesFor_sublist {i : ι}
    (hlen : ∀ vs, came i = some vs → (area i).length = vs.length) :
    ((storesFor area came i).map Prod.fst).Sublist (area i) := by
  cases h : came i with
  | none =>
      rw [storesFor_of_none h]
      exact List.nil_sublist _
  | some vs =>
      rw [storesFor_of_some h, List.map_fst_zip (Nat.le_of_eq (hlen vs h))]

variable [DecidableEq α]

/-- Two areas without a common address are refreshed by the stores for both, in any order. -/
theorem refreshed_storeAll {i j : ι} (hij : ∀ k, k = i ∨ k = j) (hi : (area i).Nodup)
    (hj : (area j).Nodup) (hdisj : (area i).Disjoint (area j))
    (hlen : ∀ k vs, came k = some vs → (area k).length = vs.length) {l : List (α × β)}
    (hl : l.Perm (storesFor area came i ++ storesFor area came j)) (p : α → β) :
    Refreshed area came p (storeAll p l) := by
  have hkeys : (l.map Prod.fst).Perm
      ((storesFor area came i).map Prod.fst ++ (storesFor area came j).map Prod.fst) := by
    rw [← List.map_append]
    exact hl.map _
  have hsub := fun k => map_fst_storesFor_sublist (hlen k)
  have hnodup : (l.map Prod.fst).Nodup := by
    rw [hkeys.nodup_iff]
    exact (hi.sublist (hsub i)).append (hj.sublist (hsub j))
      (List.disjoint_of_subset_left (hsub i).subset
        (List.disjoint_of_subset_right (hsub j).subset hdisj))
  constructor
  · intro k vs hk
    refine map_storeAll hnodup (hlen k vs hk) (fun x hx => hl.mem_iff.mpr ?_) p
    rw [← storesFor_of_some hk] at hx
    rcases hij k with rfl | rfl
    · exact List.mem_append_left _ hx
    · exact List.mem_append_right _ hx
  · intro a ha
    have hnone : ∀ k, a ∉ (storesFor area came k).map Prod.fst := by
      intro k hk
      rcases ha k with hcame | harea
      · rw [storesFor_of_none hcame] at hk
        exact List.not_mem_nil hk
      · exact harea ((hsub k).subset hk)
    refine storeAll_of_not_mem (fun h => ?_) p
    rcases List.mem_append.mp (hkeys.mem_iff.mp h) with h | h
    · exact hnone i h
    · exact hnone j h

end Refreshed

end MpiApps.Stores
