/-
  MpiApps.Lib.Windows

  Windows of a list, and lists that are cut into windows.

  `window start len l` is the window `[start, start+len)` of `l`, `setWindow` overwrites it.
  A `Tiling n` cuts `[0, n)` into windows: each index lies in exactly one of them, so
  a list of length `n` is determined by its windows (`Tiling.ext`) and overwriting one
  of them leaves the others alone (`Tiling.tile_setWindow`).
-/

import Mathlib.Data.List.FinRange
import Mathlib.Tactic.Common

namespace MpiApps.Windows

variable {α : Type}

/-- The window `[start, start + len)` of a list. -/
def window (start len : Nat) (l : List α) : List α := (l.drop start).take len

/-- The list with its window from `start` on overwritten. -/
def setWindow (start : Nat) (new l : List α) : List α :=
  l.take start ++ new ++ l.drop (start + new.length)

theorem window_length {start len : Nat} {l : List α} (h : start + len ≤ l.length) :
    (window start len l).length = len := by
  rw [window, List.length_take, List.length_drop]
  omega

theorem window_getElem? {start len : Nat} {l : List α} (j : Nat) :
    (window start len l)[j]? = if j < len then l[start + j]? else none := by
  rw [window, List.getElem?_take]
  split <;> simp

theorem getD_window {start len i : Nat} (hi : i < len) (l : List α) (d : α) :
    (window start len l).getD i d = l.getD (start + i) d := by
  rw [List.getD_eq_getElem?_getD, window_getElem?, if_pos hi, ← List.getD_eq_getElem?_getD]

/-- Chunks of one length, one after the other. -/
theorem flatMap_chunks (f : Nat → α) (chunk p : Nat) :
    (List.finRange p).flatMap (fun q : Fin p => (List.range chunk).map fun i => f (q * chunk + i)) =
      (List.range (p * chunk)).map f := by
  induction p with
  | zero => simp
  | succ p ih =>
      have hlast : (List.range chunk).map (fun i => f (p * chunk + i)) =
          ((List.range chunk).map (p * chunk + ·)).map f := List.map_map.symm
      rw [List.finRange_succ_last, List.flatMap_append, List.flatMap_map, List.flatMap_singleton,
        Nat.succ_mul, List.range_add, List.map_append]
      simp only [Fin.val_castSucc, Fin.val_last]
      rw [ih, hlast]

theorem setWindow_length {start : Nat} {new l : List α} (h : start + new.length ≤ l.length) :
    (setWindow start new l).length = l.length := by
  simp only [setWindow, List.length_append, List.length_take, List.length_drop]
  omega

theorem setWindow_getElem? {start : Nat} {new l : List α} (h : start + new.length ≤ l.length)
    (k : Nat) :
    (setWindow start new l)[k]? =
      if start ≤ k ∧ k < start + new.length then new[k - start]? else l[k]? := by
  have htake : (l.take start).length = start := by rw [List.length_take]; omega
  rw [setWindow, List.append_assoc]
  by_cases h1 : k < start
  · rw [List.getElem?_append_left (by rw [htake]; exact h1), List.getElem?_take_of_lt h1,
      if_neg (by omega)]
  · rw [List.getElem?_append_right (by rw [htake]; omega), htake]
    by_cases h2 : k - start < new.length
    · rw [List.getElem?_append_left h2, if_pos (by omega)]
    · rw [List.getElem?_append_right (by omega), List.getElem?_drop, if_neg (by omega)]
      congr 1
      omega

/-- The window that was overwritten. -/
theorem window_setWindow_self {start : Nat} {new l : List α}
    (h : start + new.length ≤ l.length) :
    window start new.length (setWindow start new l) = new := by
  apply List.ext_getElem?
  intro j
  rw [window_getElem?]
  split
  · next hj =>
      rw [setWindow_getElem? h, if_pos (by omega)]
      congr 1
      omega
  · next hj => rw [List.getElem?_eq_none (by omega)]

/-- A window that is disjoint from the one that was overwritten. -/
theorem window_setWindow_disjoint {start start' len' : Nat} {new l : List α}
    (h : start + new.length ≤ l.length)
    (hd : start' + len' ≤ start ∨ start + new.length ≤ start') :
    window start' len' (setWindow start new l) = window start' len' l := by
  apply List.ext_getElem?
  intro j
  rw [window_getElem?, window_getElem?]
  split
  · rw [setWindow_getElem? h, if_neg (by omega)]
  · rfl

/-- `[0, n)` cut into `count` windows, the `i`-th of which starts at `start i` and has
    `len i` elements. -/
structure Tiling (n : Nat) where
  count : Nat
  start : Nat → Nat
  len : Nat → Nat
  /-- the windows lie inside -/
  inside : ∀ i < count, start i + len i ≤ n
  /-- earlier windows end before later ones start -/
  ordered : ∀ i j, i < j → j < count → start i + len i ≤ start j
  /-- every index lies in a window -/
  covers : ∀ k < n, ∃ i < count, start i ≤ k ∧ k < start i + len i

namespace Tiling

variable {n : Nat} (t : Tiling n)

/-- The `i`-th window of a list. -/
def tile (i : Nat) (l : List α) : List α := window (t.start i) (t.len i) l

theorem tile_length {l : List α} (hl : l.length = n) {i : Nat} (hi : i < t.count) :
    (t.tile i l).length = t.len i :=
  window_length (hl ▸ t.inside i hi)

/-- The window of an index is unique. -/
theorem existsUnique_tile {k : Nat} (hk : k < n) :
    ∃! i, i < t.count ∧ t.start i ≤ k ∧ k < t.start i + t.len i := by
  obtain ⟨i, hi, h1, h2⟩ := t.covers k hk
  refine ⟨i, ⟨hi, h1, h2⟩, ?_⟩
  rintro j ⟨hj, h1', h2'⟩
  rcases Nat.lt_trichotomy i j with hlt | rfl | hgt
  · have := t.ordered i j hlt hj
    omega
  · rfl
  · have := t.ordered j i hgt hi
    omega

/-- A list is determined by its windows. -/
theorem ext {l l' : List α} (hl : l.length = n) (hl' : l'.length = n)
    (h : ∀ i < t.count, t.tile i l = t.tile i l') : l = l' := by
  apply List.ext_getElem?
  intro k
  by_cases hk : k < n
  · obtain ⟨i, hi, h1, h2⟩ := t.covers k hk
    have hget := congrArg (fun w => w[k - t.start i]?) (h i hi)
    simp only [tile, window_getElem?, if_pos (show k - t.start i < t.len i by omega),
      show t.start i + (k - t.start i) = k by omega] at hget
    exact hget
  · rw [List.getElem?_eq_none (by omega), List.getElem?_eq_none (by omega)]

/-- Overwriting a window changes that window only. -/
theorem tile_setWindow {l new : List α} (hl : l.length = n) {i j : Nat} (hi : i < t.count)
    (hj : j < t.count) (hnew : new.length = t.len i) :
    t.tile j (setWindow (t.start i) new l) = if j = i then new else t.tile j l := by
  have hin := t.inside i hi
  split
  · next h =>
      subst h
      rw [tile, ← hnew]
      exact window_setWindow_self (by omega)
  · next h =>
      apply window_setWindow_disjoint (by omega)
      rcases Nat.lt_or_gt_of_ne h with hlt | hgt
      · have := t.ordered j i hlt hi
        omega
      · have := t.ordered i j hgt hj
        omega

end Tiling

end MpiApps.Windows
