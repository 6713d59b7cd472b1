/-
  MpiApps.Lib.CollectivePrograms

  Programs over collective operations, and protocols in the place of a broadcast.

  A `Prog` says which collective operations a rank calls and what it does with the results.
  What the ranks compute depends only on what a broadcast delivers to each of them
  (`Runs`).  A protocol that delivers this in every interleaving can carry the broadcasts
  out (`Runs.reaches`), so that two protocols that deliver the same are the same to all
  programs.  The protocol is a program of its own with its own messages; `Proc.call` runs it
  as a part of a larger one, and `reaches_call` says that it gets there to its outcome.
-/

import MpiApps.Lib.Collectives

namespace MpiApps.MessagePassing

/-! ## Calls -/

section Call

variable {R T M W α β : Type}

/-- Go on with a message, if it is one of those that are expected. -/
def Proc.expect (proj : W → Option M) (w : W) (k : M → Proc R T W α) : Proc R T W α :=
  match proj w with
  | some m => k m
  | none => .abort

theorem Proc.expect_eq {proj : W → Option M} {w : W} {m : M} (h : proj w = some m)
    (k : M → Proc R T W α) : Proc.expect proj w k = k m := by
  rw [Proc.expect, h]

/-- Run a process with its messages among those of the caller, and go on with its result. -/
def Proc.call (inj : M → W) (proj : W → Option M) :
    Proc R T M α → (α → Proc R T W β) → Proc R T W β
  | .ret a, k => k a
  | .send dst tag m p, k => .send dst tag (inj m) (p.call inj proj k)
  | .recv src tag p, k =>
    .recv src tag fun w => Proc.expect proj w fun m => (p m).call inj proj k
  | .abort, _ => .abort

variable [DecidableEq R] [DecidableEq T]

/-- A system that is at the same point of the called processes. -/
structure Calls (inj : M → W) (proj : W → Option M) (k : R → α → Proc R T W β)
    (s : Sys R T M α) (s' : Sys R T W β) : Prop where
  proc : ∀ r, s'.proc r = (s.proc r).call inj proj (k r)
  chan : ∀ src dst tag, s'.chan src dst tag = (s.chan src dst tag).map inj

/-- An operation of the called process as one of the caller. -/
def Event.map (inj : M → W) : Event R T M → Event R T W
  | .sent dst tag m => .sent dst tag (inj m)
  | .received src tag m => .received src tag (inj m)

variable {inj : M → W} {proj : W → Option M} {k : R → α → Proc R T W β}

theorem Event.effect_map (r : R) (e : Event R T M) {chan : R → R → T → List M}
    {chan' : R → R → T → List W} (h : ∀ src dst tag, chan' src dst tag = (chan src dst tag).map inj)
    (src dst : R) (tag : T) :
    (e.map inj).effect r chan' src dst tag = (e.effect r chan src dst tag).map inj := by
  cases e with
  | sent d t m =>
      simp only [Event.map, Event.effect, h]
      split
      · rw [List.map_append]
        rfl
      · rfl
  | received s t m =>
      simp only [Event.map, Event.effect, h]
      split
      · rw [List.map_tail]
      · rfl

/-- Step lemma: the caller does what the called process does. -/
theorem Calls.step (hproj : ∀ m, proj (inj m) = some m) {s u : Sys R T M α} {s' : Sys R T W β}
    (h : Calls inj proj k s s') {r : R} (hstep : Step r s u) :
    ∃ u', Step r s' u' ∧ Calls inj proj k u u' := by
  obtain @⟨e, p, hoff, hready⟩ := hstep
  have hoff' : (s'.proc r).Offers (e.map inj) (p.call inj proj (k r)) := by
    rw [h.proc r]
    generalize s.proc r = q at hoff
    cases hoff with
    | send => exact .send
    | @recv src tag m p' =>
        have hrecv := @Proc.Offers.recv R T W β src tag (inj m) fun w =>
          Proc.expect proj w fun m => (p' m).call inj proj (k r)
        rw [Proc.expect_eq (hproj m)] at hrecv
        exact hrecv
  have hready' : (e.map inj).Ready s'.chan r := by
    cases e with
    | sent dst tag m => trivial
    | received src tag m =>
        show (s'.chan src r tag).head? = some (inj m)
        rw [h.chan, List.head?_map, show (s.chan src r tag).head? = some m from hready]
        rfl
  refine ⟨_, .act hoff' hready', fun q => ?_, e.effect_map r h.chan⟩
  by_cases hq : q = r
  · subst hq
    rw [Sys.act_proc_self, Sys.act_proc_self]
  · rw [Sys.act_proc_of_ne _ hq, Sys.act_proc_of_ne _ hq]
    exact h.proc q

/-- Run lemma. -/
theorem Calls.run (hproj : ∀ m, proj (inj m) = some m) {s u : Sys R T M α} {s' : Sys R T W β}
    (h : Calls inj proj k s s') {n : Nat} (hrun : Run s u n) :
    ∃ u', Run s' u' n ∧ Calls inj proj k u u' := by
  induction hrun generalizing s' with
  | refl s => exact ⟨s', .refl s', h⟩
  | head r hstep _ ih =>
      obtain ⟨v', hstep', hv⟩ := h.step hproj hstep
      obtain ⟨u', hrun', hu⟩ := ih hv
      exact ⟨u', .head r hstep' hrun', hu⟩

/-- The called processes get to their outcome. -/
theorem reaches_call (hproj : ∀ m, proj (inj m) = some m) {P : R → Proc R T M α} {a : R → α}
    {t : Sys R T M α} (h : Outcome (Sys.start P) t a) (k : R → α → Proc R T W β) :
    Reaches (fun r => (P r).call inj proj (k r)) fun r => k r (a r) := by
  intro s hs hempty
  have hcalls : Calls inj proj k (Sys.start P) s :=
    ⟨fun r => by rw [hs]; rfl, fun src dst tag => hempty src dst tag⟩
  obtain ⟨n, hrun⟩ := h.run
  obtain ⟨u, hrun', hu⟩ := hcalls.run hproj hrun
  refine ⟨u, n, hrun', funext fun r => ?_, fun src dst tag => ?_⟩
  · rw [hu.proc, h.returned]
    rfl
  · rw [hu.chan, h.drained]
    rfl

end Call

/-! ## Programs -/

/-- A rank of a program that communicates by collective operations on buffers `M`. -/
inductive Prog (R M α : Type)
  | ret (a : α)
  | bcast (root : R) (m : M) (k : M → Prog R M α)
  | scatter (root : R) (parts : R → M) (k : M → Prog R M α)
  | gather (root : R) (m : M) (k : List M → Prog R M α)
  /-- stuck for good -/
  | abort

section Programs

variable {R T M W α : Type} [DecidableEq R]

/-- A protocol for the broadcasts of a program: what a rank does in the `i`-th one. -/
abbrev Broadcast (R T M W α : Type) : Type :=
  Nat → R → R → M → (M → Proc R T W α) → Proc R T W α

/-- The same for the messages of a gather. -/
def Proc.expectAll (proj : W → Option M) (ws : List W) (k : List M → Proc R T W α) :
    Proc R T W α :=
  match ws.mapM proj with
  | some ms => k ms
  | none => .abort

/-- The `i`-th broadcast and what follows it, with the broadcasts carried out by `b`. -/
def Prog.proc (inj : M → W) (proj : W → Option M) (ranks : List R) (tag : T)
    (b : Broadcast R T M W α) (rank : R) : Nat → Prog R M α → Proc R T W α
  | _, .ret a => .ret a
  | i, .bcast root m k =>
    b i root rank m fun m => (k m).proc inj proj ranks tag b rank (i + 1)
  | i, .scatter root parts k =>
    MessagePassing.scatter ranks root rank tag (fun d => inj (parts d)) fun w =>
      Proc.expect proj w fun m => (k m).proc inj proj ranks tag b rank i
  | i, .gather root m k =>
    MessagePassing.gather ranks root rank tag (inj m) fun ws =>
      Proc.expectAll proj ws fun ms => (k ms).proc inj proj ranks tag b rank i
  | _, .abort => .abort

/-- What the ranks compute from their `i`-th broadcast on, when rank `r` gets
    `deliver i root r m` for a message `m` of the root; the broadcasts are called as `ok`
    allows. -/
inductive Runs (ranks : List R) (ok : R → (R → M) → Prop) (deliver : Nat → R → R → M → M) :
    Nat → (R → Prog R M α) → (R → α) → Prop
  | ret {i : Nat} (a : R → α) : Runs ranks ok deliver i (fun r => .ret (a r)) a
  | bcast {i : Nat} {a : R → α} {root : R} {m : R → M} {k : R → M → Prog R M α} (hok : ok root m)
      (h : Runs ranks ok deliver (i + 1) (fun r => k r (deliver i root r (m root))) a) :
      Runs ranks ok deliver i (fun r => .bcast root (m r) (k r)) a
  | scatter {i : Nat} {a : R → α} {root : R} {parts : R → R → M} {k : R → M → Prog R M α}
      (h : Runs ranks ok deliver i (fun r => k r (parts root r)) a) :
      Runs ranks ok deliver i (fun r => .scatter root (parts r) (k r)) a
  | gather {i : Nat} {a : R → α} {root : R} {m : R → M} {k : R → List M → Prog R M α}
      (h : Runs ranks ok deliver i (fun r => k r (if r = root then ranks.map m else [])) a) :
      Runs ranks ok deliver i (fun r => .gather root (m r) (k r)) a

variable {ranks : List R} {ok ok' : R → (R → M) → Prop} {deliver : Nat → R → R → M → M}

theorem Runs.mono (hok : ∀ root m, ok root m → ok' root m) {i : Nat} {P : R → Prog R M α}
    {a : R → α} (h : Runs ranks ok deliver i P a) : Runs ranks ok' deliver i P a := by
  induction h with
  | ret a => exact .ret a
  | bcast h _ ih => exact .bcast (hok _ _ h) ih
  | scatter _ ih => exact .scatter ih
  | gather _ ih => exact .gather ih

variable [DecidableEq T]

/-- The protocol delivers. -/
def Delivers (ok : R → (R → M) → Prop) (deliver : Nat → R → R → M → M)
    (b : Broadcast R T M W α) : Prop :=
  ∀ i root (m : R → M) (k : R → M → Proc R T W α), ok root m →
    Reaches (fun r => b i root r (m r) (k r)) fun r => k r (deliver i root r (m root))

omit [DecidableEq R] [DecidableEq T] in
theorem Proc.expectAll_map {inj : M → W} {proj : W → Option M}
    (hproj : ∀ m, proj (inj m) = some m) (ms : List M) (k : List M → Proc R T W α) :
    Proc.expectAll proj (ms.map inj) k = k ms := by
  have h : (ms.map inj).mapM proj = some ms := by
    induction ms with
    | nil => rfl
    | cons m ms ih => simp [ih, hproj]
  rw [Proc.expectAll, h]

variable [Fintype R]

/-- With a protocol that delivers, the ranks get to what they compute. -/
theorem Runs.reaches (hnodup : ranks.Nodup) (hranks : ∀ r, r ∈ ranks) {inj : M → W}
    {proj : W → Option M} (hproj : ∀ m, proj (inj m) = some m) (tag : T)
    {b : Broadcast R T M W α} (hb : Delivers ok deliver b) {i : Nat} {P : R → Prog R M α}
    {a : R → α} (h : Runs ranks ok deliver i P a) :
    Reaches (fun r => (P r).proc inj proj ranks tag b r i) fun r => .ret (a r) := by
  induction h with
  | ret a => exact .refl _
  | @bcast i a root m k hok _ ih =>
      exact (hb i root m (fun r m => (k r m).proc inj proj ranks tag b r (i + 1)) hok).trans ih
  | @scatter i a root parts k _ ih =>
      have hscatter := reaches_scatter hnodup hranks root tag (fun r d => inj (parts r d))
        fun r w => Proc.expect proj w fun m => (k r m).proc inj proj ranks tag b r i
      simp only [Proc.expect_eq (hproj _)] at hscatter
      exact hscatter.trans ih
  | @gather i a root m k _ ih =>
      have hgather := reaches_gather hnodup hranks root tag (fun r => inj (m r)) fun r ws =>
        Proc.expectAll proj ws fun ms => (k r ms).proc inj proj ranks tag b r i
      -- the root has all messages, the others none
      have hall : ∀ r, (if r = root then ranks.map fun r => inj (m r) else []) =
          (if r = root then ranks.map m else []).map inj := by
        intro r
        split
        · rw [List.map_map]
          rfl
        · rfl
      simp only [hall, Proc.expectAll_map hproj] at hgather
      exact hgather.trans ih

end Programs

end MpiApps.MessagePassing
