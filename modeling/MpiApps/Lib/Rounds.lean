/-
  MpiApps.Lib.Rounds

  Sequential processes that repeat rounds.

  A rank that has returned from a round with the state `x` is at the head of its loop: it
  goes on with `body r x`, or has left the loop where there is none.  The ranks are not
  synchronised between the rounds; one of them can be ahead of the others.

  `Rounds` gives what the ranks do in each round if they take the rounds together.  When in
  every round each rank receives from every other one, and receives exactly what is sent to
  it in this round, all runs follow these rounds: the log of a rank is always a prefix of
  what it does in them (`Rounds.follows`), ranks that are at the head of their loops
  are at the head of the same round with nothing in flight (`Rounds.heads_together`),
  and from every state that is reached the ranks can complete the rounds they have begun
  (`Rounds.completes`).
-/

import MpiApps.Lib.MessagePassing
import Mathlib.Algebra.BigOperators.Group.Finset.Piecewise
import Mathlib.Data.Finset.Lattice.Fold

namespace MpiApps.MessagePassing

variable {R T M α : Type}

/-! ## Programs that repeat rounds -/

/-- What a rank does next, which may be to begin a round. -/
def unroll (body : R → α → Option (Proc R T M α)) (r : R) : Proc R T M α → Proc R T M α
  | .ret x => (body r x).getD (.ret x)
  | p => p

theorem unroll_of_offers {body : R → α → Option (Proc R T M α)} {r : R} {p q : Proc R T M α}
    {e : Event R T M} (h : p.Offers e q) : unroll body r p = p := by
  cases h <;> rfl

variable [DecidableEq R] [DecidableEq T]

/-- A step of rank `r`; at the head of its loop it is the first one of the next round. -/
inductive LoopStep (body : R → α → Option (Proc R T M α)) (r : R) (s : Sys R T M α) :
    Sys R T M α → Prop
  | act {e : Event R T M} {p : Proc R T M α} (h : (unroll body r (s.proc r)).Offers e p)
      (hr : e.Ready s.chan r) : LoopStep body r s (s.act r e p)

/-- `n` steps, of any ranks in any order. -/
inductive LoopRun (body : R → α → Option (Proc R T M α)) :
    Sys R T M α → Sys R T M α → Nat → Prop
  | refl (s : Sys R T M α) : LoopRun body s s 0
  | head {s u t : Sys R T M α} {n : Nat} (r : R) (h : LoopStep body r s u)
      (hr : LoopRun body u t n) : LoopRun body s t (n + 1)

section Runs

variable {body : R → α → Option (Proc R T M α)} {s u v t : Sys R T M α}

theorem LoopRun.trans {m n : Nat} (h : LoopRun body s u m) (h' : LoopRun body u t n) :
    LoopRun body s t (m + n) := by
  induction h with
  | refl s => rwa [Nat.zero_add]
  | head r hstep _ ih =>
      rw [Nat.add_right_comm]
      exact .head r hstep (ih h')

theorem LoopStep.unique {r : R} (hu : LoopStep body r s u) (hv : LoopStep body r s v) : u = v := by
  obtain @⟨e, p, h, hr⟩ := hu
  obtain @⟨e', p', h', hr'⟩ := hv
  obtain ⟨rfl, rfl⟩ := h.unique h' hr hr'
  rfl

theorem LoopStep.diamond {r q : R} (hrq : r ≠ q) (hu : LoopStep body r s u)
    (hv : LoopStep body q s v) : ∃ w, LoopStep body q u w ∧ LoopStep body r v w := by
  obtain @⟨e, p, h, hr⟩ := hu
  obtain @⟨e', p', h', hr'⟩ := hv
  refine ⟨_, .act (by rwa [Sys.act_proc_of_ne s (Ne.symm hrq)]) (hr'.effect hrq), ?_⟩
  rw [s.act_comm hrq hr hr']
  exact .act (by rwa [Sys.act_proc_of_ne s hrq]) (hr.effect (Ne.symm hrq))

theorem LoopStep.log {r : R} (h : LoopStep body r s u) :
    (∃ e, u.log r = s.log r ++ [e]) ∧ ∀ q, q ≠ r → u.log q = s.log q := by
  obtain @⟨e, p, -, -⟩ := h
  refine ⟨⟨e, Function.update_self ..⟩, fun q hq => Function.update_of_ne hq ..⟩

/-- A step only appends to the logs. -/
theorem LoopStep.log_mono {r : R} (h : LoopStep body r s u) (q : R) : s.log q <+: u.log q := by
  obtain ⟨⟨e, he⟩, hother⟩ := h.log
  by_cases hq : q = r
  · subst hq
    rw [he]
    exact List.prefix_append _ _
  · rw [hother q hq]

theorem LoopRun.log_mono {n : Nat} (h : LoopRun body s u n) (q : R) : s.log q <+: u.log q := by
  induction h with
  | refl s => exact List.prefix_refl _
  | head r hstep _ ih => exact (hstep.log_mono q).trans ih

/-- A run absorbs a step of a rank that does something in it. -/
theorem LoopRun.absorb {n : Nat} (h : LoopRun body s t n) {r : R} (hu : LoopStep body r s u)
    (hlog : t.log r ≠ s.log r) : ∃ k, LoopRun body u t k := by
  induction h generalizing u with
  | refl s => exact absurd rfl hlog
  | @head s v t n q hq hrest ih =>
      by_cases hrq : r = q
      · subst hrq
        rw [hu.unique hq]
        exact ⟨n, hrest⟩
      · obtain ⟨w, hw, hw'⟩ := hu.diamond hrq hq
        obtain ⟨k, hk⟩ := ih hw' (by rwa [hq.log.2 r hrq])
        exact ⟨k + 1, .head q hw hk⟩

/-- A run that has not got farther than another one can go on to where that one ends. -/
theorem LoopRun.catchUp {m n : Nat} (h : LoopRun body s t n) (hu : LoopRun body s u m)
    (hlog : ∀ r, u.log r <+: t.log r) : ∃ k, LoopRun body u t k := by
  induction hu generalizing n with
  | refl s => exact ⟨n, h⟩
  | @head s v u m r hr hrest ih =>
      have hne : t.log r ≠ s.log r := by
        obtain ⟨⟨e, he⟩, -⟩ := hr.log
        have hle := ((hrest.log_mono r).trans (hlog r)).length_le
        intro heq
        rw [heq, he, List.length_append, List.length_singleton] at hle
        omega
      obtain ⟨k, hk⟩ := h.absorb hr hne
      exact ih hk hlog

/-- No rank can do anything, be it in a round or by beginning one. -/
def LoopTerminal (body : R → α → Option (Proc R T M α)) (s : Sys R T M α) : Prop :=
  ∀ r u, ¬ LoopStep body r s u

/-- A run to the end absorbs a step: what is left of it is one step shorter. -/
theorem LoopRun.absorb_of_terminal {n : Nat} (h : LoopRun body s t n) (ht : LoopTerminal body t)
    {r : R} (hu : LoopStep body r s u) : ∃ k, k + 1 = n ∧ LoopRun body u t k := by
  induction h generalizing u with
  | refl s => exact absurd hu (ht r u)
  | @head s v t n q hq hrest ih =>
      by_cases hrq : r = q
      · subst hrq
        rw [hu.unique hq]
        exact ⟨n, rfl, hrest⟩
      · obtain ⟨w, hw, hw'⟩ := hu.diamond hrq hq
        obtain ⟨k, rfl, hk⟩ := ih ht hw'
        exact ⟨k + 1, rfl, .head q hw hk⟩

/-- Every run from where a run to the end starts can be extended to its end. -/
theorem LoopRun.determinate {m n : Nat} (h : LoopRun body s t n) (ht : LoopTerminal body t)
    (hu : LoopRun body s u m) : ∃ k, m + k = n ∧ LoopRun body u t k := by
  induction hu generalizing n with
  | refl s => exact ⟨n, Nat.zero_add n, h⟩
  | head r hr _ ih =>
      obtain ⟨k, rfl, hk⟩ := h.absorb_of_terminal ht hr
      obtain ⟨l, rfl, hl⟩ := ih hk
      exact ⟨l, by omega, hl⟩

/-- A run of the processes with the loops unrolled, in which every rank that is at the head
    of its loop does something. -/
theorem Run.loop_of_unroll {n : Nat} {s' : Sys R T M α} (h : Run s' t n)
    (hchan : s'.chan = s.chan) (hlog : s'.log = s.log)
    (hproc : ∀ r, s'.proc r = s.proc r ∨
      s'.proc r = unroll body r (s.proc r) ∧ t.log r ≠ s.log r) : LoopRun body s t n := by
  induction h generalizing s with
  | refl s' =>
      have heq : s' = s := by
        ext1
        · funext r
          rcases hproc r with hr | ⟨-, hne⟩
          · exact hr
          · exact absurd (by rw [hlog]) hne
        · exact hchan
        · exact hlog
      rw [heq]
      exact .refl s
  | @head s' _ t n r hstep _ ih =>
      -- a rank still at its head goes into the round with its first step
      obtain @⟨e, p, hoff, hready⟩ := hstep
      have hoff' : (unroll body r (s.proc r)).Offers e p := by
        rcases hproc r with hr | ⟨hr, -⟩
        · rw [hr] at hoff
          rwa [unroll_of_offers hoff]
        · rwa [← hr]
      rw [hchan] at hready
      refine .head r (.act hoff' hready) (ih ?_ ?_ fun q => ?_)
      · show e.effect r s'.chan = e.effect r s.chan
        rw [hchan]
      · show Function.update s'.log r _ = Function.update s.log r _
        rw [hlog]
      · by_cases hq : q = r
        · subst hq
          left
          rw [Sys.act_proc_self, Sys.act_proc_self]
        · rw [Sys.act_proc_of_ne s' hq, Sys.act_proc_of_ne s hq]
          have hlogq : (s.act r e p).log q = s.log q := Function.update_of_ne hq ..
          rw [hlogq]
          exact hproc q

end Runs

/-! ## What is in flight -/

omit [DecidableEq R] [DecidableEq T] in
theorem Sys.act_log [DecidableEq R] [DecidableEq T] (s : Sys R T M α) (r q : R) (e : Event R T M)
    (p : Proc R T M α) : (s.act r e p).log q = s.log q ++ if q = r then [e] else [] := by
  by_cases hq : q = r
  · subst hq
    simp [Sys.act]
  · simp [Sys.act, hq]

/-- What has been received and what is in flight is what has been sent. -/
def Sys.Accounted (s : Sys R T M α) : Prop :=
  ∀ a b tag, recvsFrom (s.log b) a tag ++ s.chan a b tag = sendsTo (s.log a) b tag

theorem Sys.Accounted.act {s : Sys R T M α} (h : s.Accounted) {r : R} {e : Event R T M}
    (hr : e.Ready s.chan r) (p : Proc R T M α) : (s.act r e p).Accounted := by
  intro a b tag
  rw [Sys.act_log, Sys.act_log, recvsFrom_append, sendsTo_append, ← h a b tag]
  cases e with
  | sent dst tag' m =>
      have hrecv : recvsFrom (if b = r then [Event.sent dst tag' m] else []) a tag = [] := by
        split <;> rfl
      rw [hrecv, List.append_nil, List.append_assoc]
      congr 1
      show (if a = r ∧ b = dst ∧ tag = tag' then s.chan a b tag ++ [m] else s.chan a b tag) = _
      by_cases ha : a = r
      · rw [if_pos ha, sendsTo_cons_sent, sendsTo_nil, List.append_nil]
        by_cases hd : dst = b ∧ tag' = tag
        · rw [if_pos hd, if_pos ⟨ha, hd.1.symm, hd.2.symm⟩]
        · rw [if_neg hd, if_neg fun h => hd ⟨h.2.1.symm, h.2.2.symm⟩, List.append_nil]
      · rw [if_neg ha, if_neg fun h => ha h.1, sendsTo_nil, List.append_nil]
  | received src tag' m =>
      have hsend : sendsTo (if a = r then [Event.received src tag' m] else []) b tag = [] := by
        split <;> rfl
      rw [hsend, List.append_nil, List.append_assoc]
      congr 1
      show _ ++ (if a = src ∧ b = r ∧ tag = tag' then (s.chan a b tag).tail else s.chan a b tag) = _
      by_cases hb : b = r
      · rw [if_pos hb, recvsFrom_cons_received, recvsFrom_nil, List.append_nil]
        by_cases hs : src = a ∧ tag' = tag
        · rw [if_pos hs, if_pos ⟨hs.1.symm, hb, hs.2.symm⟩]
          -- the message was the first one in the channel
          obtain ⟨rfl, rfl⟩ := hs
          subst hb
          exact List.cons_head?_tail hr
        · rw [if_neg hs, if_neg fun h => hs ⟨h.1.symm, h.2.2.symm⟩, List.nil_append]
      · rw [if_neg hb, if_neg fun h => hb h.2.1, recvsFrom_nil, List.nil_append]

theorem LoopRun.accounted {body : R → α → Option (Proc R T M α)} {s u : Sys R T M α} {n : Nat}
    (h : LoopRun body s u n) (hs : s.Accounted) : u.Accounted := by
  induction h with
  | refl s => exact hs
  | head r hstep _ ih =>
      obtain @⟨e, p, -, hr⟩ := hstep
      exact ih (hs.act hr p)

theorem sendsTo_mono {es es' : List (Event R T M)} (h : es <+: es') (dst : R) (tag : T) :
    sendsTo es dst tag <+: sendsTo es' dst tag := by
  obtain ⟨rest, rfl⟩ := h
  rw [sendsTo_append]
  exact List.prefix_append _ _

theorem recvsFrom_mono {es es' : List (Event R T M)} (h : es <+: es') (src : R) (tag : T) :
    recvsFrom es src tag <+: recvsFrom es' src tag := by
  obtain ⟨rest, rfl⟩ := h
  rw [recvsFrom_append]
  exact List.prefix_append _ _

/-! ## Rounds that all ranks take together -/

/-- What the ranks do if they take the rounds together: the states in which they begin
    round `k`, and what each of them does in it. -/
structure Rounds (body : R → α → Option (Proc R T M α)) where
  state : Nat → R → α
  events : Nat → R → List (Event R T M)
  /-- all ranks leave the loop before the same round -/
  together : ∀ k r q, body r (state k r) = none → body q (state k q) = none
  round : ∀ k r p, body r (state k r) = some p →
    LocalRun p (events k r) (.ret (state (k + 1) r))
  /-- what is sent in a round is received in it -/
  matched : ∀ k, (∀ r, body r (state k r) ≠ none) → ∀ a b tag,
    sendsTo (events k a) b tag = recvsFrom (events k b) a tag
  /-- every rank hears from every other one -/
  linked : ∀ k, (∀ r, body r (state k r) ≠ none) → ∀ a b, a ≠ b →
    ∃ tag, recvsFrom (events k b) a tag ≠ []
  /-- the ranks can perform the round -/
  performed : ∀ k, (∀ r, body r (state k r) ≠ none) → ∀ s : Sys R T M α,
    (∀ r, s.proc r = .ret (state k r)) → (∀ a b tag, s.chan a b tag = []) →
    ∃ t n, LoopRun body s t n ∧ (∀ r, t.proc r = .ret (state (k + 1) r)) ∧
      (∀ a b tag, t.chan a b tag = []) ∧ ∀ r, t.log r = s.log r ++ events k r

namespace Rounds

variable {body : R → α → Option (Proc R T M α)} (rs : Rounds body) {u : Sys R T M α}

/-- The rounds before round `k` take place. -/
def Taken (k : Nat) : Prop := ∀ j < k, ∀ r, body r (rs.state j r) ≠ none

/-- What a rank does before round `k`. -/
def history (k : Nat) (r : R) : List (Event R T M) :=
  (List.range k).flatMap fun j => rs.events j r

/-- All ranks at the head of their loops before the first round. -/
def start : Sys R T M α := ⟨fun r => .ret (rs.state 0 r), fun _ _ _ => [], fun _ => []⟩

variable {rs}

theorem Taken.succ {k : Nat} (h : rs.Taken k) (hk : ∀ r, body r (rs.state k r) ≠ none) :
    rs.Taken (k + 1) := by
  intro j hj
  rcases Nat.lt_or_eq_of_le (Nat.le_of_lt_succ hj) with hlt | rfl
  · exact h j hlt
  · exact hk

theorem Taken.mono {k l : Nat} (h : rs.Taken l) (hkl : k ≤ l) : rs.Taken k :=
  fun j hj => h j (Nat.lt_of_lt_of_le hj hkl)

theorem Taken.max {k l : Nat} (hk : rs.Taken k) (hl : rs.Taken l) : rs.Taken (max k l) := by
  rcases Nat.le_total k l with h | h
  · rwa [Nat.max_eq_right h]
  · rwa [Nat.max_eq_left h]

theorem history_succ (k : Nat) (r : R) :
    rs.history (k + 1) r = rs.history k r ++ rs.events k r := by
  rw [history, List.range_succ, List.flatMap_append, List.flatMap_singleton]
  rfl

theorem history_mono {k l : Nat} (h : k ≤ l) (r : R) : rs.history k r <+: rs.history l r := by
  induction l, h using Nat.le_induction with
  | base => exact List.prefix_refl _
  | succ l _ ih =>
      rw [history_succ]
      exact ih.trans (List.prefix_append _ _)

/-- What is sent in some rounds is received in them. -/
theorem history_matched {k : Nat} (h : rs.Taken k) (a b : R) (tag : T) :
    sendsTo (rs.history k a) b tag = recvsFrom (rs.history k b) a tag := by
  induction k with
  | zero => rfl
  | succ k ih =>
      rw [history_succ, history_succ, sendsTo_append, recvsFrom_append,
        ih (h.mono (Nat.le_succ k)), rs.matched k (h k (Nat.lt_succ_self k))]

variable (rs)

/-- Where rank `r` is in round `k`: at the head of its loop, or inside. -/
inductive Position (u : Sys R T M α) (r : R) (k : Nat) : Prop
  | head (hproc : u.proc r = .ret (rs.state k r)) (hlog : u.log r = rs.history k r)
  | inside {done todo : List (Event R T M)} (hk : ∀ q, body q (rs.state k q) ≠ none)
      (hevents : done ++ todo = rs.events k r) (hlog : u.log r = rs.history k r ++ done)
      (htodo : todo ≠ []) (hrest : LocalRun (u.proc r) todo (.ret (rs.state (k + 1) r)))

/-- The invariant: every rank is somewhere in the rounds, and nothing is lost. -/
structure Follows (u : Sys R T M α) : Prop where
  accounted : u.Accounted
  position : ∀ r, ∃ k, rs.Taken k ∧ rs.Position u r k

variable {rs}

theorem Position.history_prefix {r : R} {k : Nat} (h : rs.Position u r k) :
    rs.history k r <+: u.log r := by
  cases h with
  | head hproc hlog => rw [hlog]
  | inside hk hevents hlog htodo hrest =>
      rw [hlog]
      exact List.prefix_append _ _

theorem Position.log_prefix {r : R} {k : Nat} (h : rs.Position u r k) (hk : rs.Taken k) :
    ∃ l, rs.Taken l ∧ u.log r <+: rs.history l r := by
  cases h with
  | head hproc hlog => exact ⟨k, hk, by rw [hlog]⟩
  | inside hk' hevents hlog htodo hrest =>
      refine ⟨k + 1, hk.succ hk', ?_⟩
      rw [hlog, history_succ, ← hevents, ← List.append_assoc]
      exact List.prefix_append _ _

theorem Follows.log_prefix (h : rs.Follows u) (r : R) :
    ∃ k, rs.Taken k ∧ u.log r <+: rs.history k r := by
  obtain ⟨k, hk, hpos⟩ := h.position r
  exact hpos.log_prefix hk

/-- A message that is received is the one that the rounds have in this place. -/
theorem Follows.received_eq (h : rs.Follows u) {r src : R} {tag : T} {m m' : M} {k : Nat}
    (hk : rs.Taken k) (hlog : u.log r ++ [.received src tag m'] <+: rs.history k r)
    (hm : (u.chan src r tag).head? = some m) : m = m' := by
  obtain ⟨l, hl, hsrc⟩ := h.log_prefix src
  have htaken := hk.max hl
  -- both are prefixes of what `r` receives from `src` in all these rounds
  have hrecv := recvsFrom_mono (hlog.trans (history_mono (Nat.le_max_left k l) r)) src tag
  have hsent := sendsTo_mono (hsrc.trans (history_mono (Nat.le_max_right k l) src)) r tag
  rw [recvsFrom_append, recvsFrom_cons_received, if_pos ⟨rfl, rfl⟩, recvsFrom_nil,
    List.append_nil] at hrecv
  rw [history_matched htaken, ← h.accounted src r tag] at hsent
  obtain ⟨rest, hrest⟩ : ∃ rest, u.chan src r tag = m :: rest := by
    cases hchan : u.chan src r tag with
    | nil => rw [hchan] at hm; cases hm
    | cons x rest => rw [hchan] at hm; cases hm; exact ⟨rest, rfl⟩
  rw [hrest] at hsent
  obtain ⟨x, hx⟩ := hrecv
  obtain ⟨y, hy⟩ := hsent
  have heq := hx.trans hy.symm
  rw [List.append_assoc, List.append_assoc, List.append_cancel_left_eq] at heq
  exact (List.cons.inj heq).1.symm

/-- Step lemma for the rank that takes the step. -/
theorem Follows.position_act (h : rs.Follows u) {r : R} {k : Nat} (hk : rs.Taken k)
    (hround : ∀ q, body q (rs.state k q) ≠ none) {done todo : List (Event R T M)}
    {p q q' : Proc R T M α} {e e' : Event R T M} (hevents : done ++ e' :: todo = rs.events k r)
    (hlog : u.log r = rs.history k r ++ done) (hoff' : p.Offers e' q')
    (hrest : LocalRun q' todo (.ret (rs.state (k + 1) r))) (hoff : p.Offers e q)
    (hr : e.Ready u.chan r) :
    ∃ l, rs.Taken l ∧ rs.Position (u.act r e q) r l := by
  have hnext : u.log r ++ [e'] <+: rs.history (k + 1) r := by
    rw [hlog, history_succ, ← hevents, List.append_assoc]
    exact (List.prefix_append_right_inj _).mpr
      ((List.prefix_append_right_inj _).mpr (List.prefix_append [e'] todo))
  -- the operation is the one that the round has next
  have hsame : e = e' ∧ q = q' := by
    cases hoff' with
    | send => cases hoff; exact ⟨rfl, rfl⟩
    | @recv src tag m' f =>
        cases hoff with
        | @recv _ _ m =>
            have hm := h.received_eq (hk.succ hround) hnext hr
            rw [hm]
            exact ⟨rfl, rfl⟩
  obtain ⟨rfl, rfl⟩ := hsame
  have hlog' : (u.act r e q).log r = rs.history k r ++ (done ++ [e]) := by
    rw [Sys.act_log, if_pos rfl, hlog, List.append_assoc]
  cases todo with
  | nil =>
      refine ⟨k + 1, hk.succ hround, .head ?_ ?_⟩
      · rw [Sys.act_proc_self]
        cases hrest
        rfl
      · rw [hlog', hevents, history_succ]
  | cons e'' todo =>
      have hevents' : (done ++ [e]) ++ e'' :: todo = rs.events k r := by
        rw [List.append_assoc]
        exact hevents
      refine ⟨k, hk, .inside hround hevents' hlog' (List.cons_ne_nil e'' todo) ?_⟩
      · rwa [Sys.act_proc_self]

/-- Step lemma. -/
theorem Follows.step (h : rs.Follows u) {r : R} {v : Sys R T M α} (hstep : LoopStep body r u v) :
    rs.Follows v := by
  obtain @⟨e, p, hoff, hr⟩ := hstep
  refine ⟨h.accounted.act hr p, fun q => ?_⟩
  obtain ⟨k, hk, hpos⟩ := h.position q
  by_cases hq : q = r
  · subst hq
    cases hpos with
    | head hproc hlog =>
        -- the first operation of round `k`
        rw [hproc] at hoff
        cases hbody : body q (rs.state k q) with
        | none => rw [unroll, hbody] at hoff; cases hoff
        | some p' =>
            rw [unroll, hbody] at hoff
            have hround : ∀ q', body q' (rs.state k q') ≠ none := fun q' hnone => by
              rw [rs.together k q' q hnone] at hbody
              cases hbody
            have hrun := rs.round k q p' hbody
            generalize hevents : rs.events k q = es at hrun
            cases hrun with
            | refl => cases hoff
            | head hoff' hrest =>
                exact h.position_act hk hround hevents.symm (by rw [hlog, List.append_nil]) hoff'
                  hrest hoff hr
    | inside hround hevents hlog htodo hrest =>
        generalize hp : u.proc q = p' at hrest hoff
        cases hrest with
        | refl => exact absurd rfl htodo
        | head hoff' hrest =>
            rw [unroll_of_offers hoff'] at hoff
            exact h.position_act hk hround hevents hlog hoff' hrest hoff hr
  · have hproc : (u.act r e p).proc q = u.proc q := Sys.act_proc_of_ne u hq e p
    have hlog' : (u.act r e p).log q = u.log q := by
      rw [Sys.act_log, if_neg hq, List.append_nil]
    refine ⟨k, hk, ?_⟩
    cases hpos with
    | head hp hlog => exact .head (by rw [hproc, hp]) (by rw [hlog', hlog])
    | inside hround hevents hlog htodo hrest =>
        exact .inside hround hevents (by rw [hlog', hlog]) htodo (by rwa [hproc])

theorem Follows.run {s : Sys R T M α} {n : Nat} (h : rs.Follows s) (hrun : LoopRun body s u n) :
    rs.Follows u := by
  induction hrun with
  | refl s => exact h
  | head r hstep _ ih => exact ih (h.step hstep)

/-- Run lemma: all runs follow the rounds. -/
theorem follows {n : Nat} (h : LoopRun body rs.start u n) : rs.Follows u :=
  Follows.run ⟨fun _ _ _ => rfl, fun _ => ⟨0, fun j hj => absurd hj (Nat.not_lt_zero j),
    .head rfl rfl⟩⟩ h

/-- No rank is ahead of one at the head of its loop. -/
theorem Follows.not_ahead (h : rs.Follows u) {a b : R} (hab : a ≠ b) {k l : Nat}
    (ha : u.log a = rs.history k a) (hl : rs.Taken l) (hb : rs.history l b <+: u.log b) :
    l ≤ k := by
  by_contra hlt
  have hkl : k + 1 ≤ l := by omega
  have htaken := hl.mono hkl
  -- in round `k` it has received from the rank that has not begun this round
  obtain ⟨tag, hne⟩ := rs.linked k (htaken k (Nat.lt_succ_self k)) a b hab
  have hrecv := (recvsFrom_mono ((history_mono hkl b).trans hb) a tag).length_le
  have hacc := congrArg List.length (h.accounted a b tag)
  rw [ha, history_matched (htaken.mono (Nat.le_succ k)), List.length_append] at hacc
  rw [history_succ, recvsFrom_append, List.length_append] at hrecv
  have := List.length_pos_iff.mpr hne
  omega

/-- A rank at the head of its loop is between two rounds. -/
theorem Position.head_of_ret {r : R} {k : Nat} {x : α} (h : rs.Position u r k)
    (hx : u.proc r = .ret x) : x = rs.state k r ∧ u.log r = rs.history k r := by
  cases h with
  | head hproc hlog =>
      rw [hproc] at hx
      cases hx
      exact ⟨rfl, hlog⟩
  | inside hk hevents hlog htodo hrest =>
      rw [hx] at hrest
      cases hrest with
      | refl => exact absurd rfl htodo
      | head hoff _ => cases hoff

/-- Ranks that are all at the head of their loops are between the same two rounds, and
    nothing is in flight. -/
theorem Follows.heads_together [Nonempty R] (h : rs.Follows u) {x : R → α}
    (hx : ∀ r, u.proc r = .ret (x r)) :
    ∃ k, rs.Taken k ∧ x = rs.state k ∧ (∀ r, u.log r = rs.history k r) ∧
      ∀ a b tag, u.chan a b tag = [] := by
  obtain ⟨r₀⟩ := ‹Nonempty R›
  obtain ⟨k, hk, hpos⟩ := h.position r₀
  obtain ⟨hx₀, hlog₀⟩ := hpos.head_of_ret (hx r₀)
  have hall : ∀ r, x r = rs.state k r ∧ u.log r = rs.history k r := by
    intro r
    by_cases hr : r = r₀
    · subst hr
      exact ⟨hx₀, hlog₀⟩
    · obtain ⟨l, hl, hposr⟩ := h.position r
      obtain ⟨hxr, hlogr⟩ := hposr.head_of_ret (hx r)
      -- neither rank is ahead of what the other has done
      have h1 : l ≤ k := h.not_ahead (Ne.symm hr) hlog₀ hl (by rw [hlogr])
      have h2 : k ≤ l := h.not_ahead hr hlogr hk (by rw [hlog₀])
      rw [Nat.le_antisymm h1 h2] at hxr hlogr
      exact ⟨hxr, hlogr⟩
  refine ⟨k, hk, funext fun r => (hall r).1, fun r => (hall r).2, fun a b tag => ?_⟩
  have hacc := h.accounted a b tag
  rw [(hall a).2, (hall b).2, history_matched hk] at hacc
  exact List.append_right_eq_self.mp hacc

/-- A rank that has left its loop has done so after the last round, and no rank is ahead. -/
theorem Follows.left (h : rs.Follows u) {r : R} {x : α} (hx : u.proc r = .ret x)
    (hleft : body r x = none) :
    ∃ k, rs.Taken k ∧ x = rs.state k r ∧ (∀ q, body q (rs.state k q) = none) ∧
      u.log r = rs.history k r ∧ ∀ q, u.log q <+: rs.history k q := by
  obtain ⟨k, hk, hpos⟩ := h.position r
  obtain ⟨rfl, hlog⟩ := hpos.head_of_ret hx
  refine ⟨k, hk, rfl, fun q => rs.together k r q hleft, hlog, fun q => ?_⟩
  by_cases hq : q = r
  · subst hq
    rw [hlog]
  · obtain ⟨l, hl, hposq⟩ := h.position q
    have hle := h.not_ahead (Ne.symm hq) hlog hl hposq.history_prefix
    cases hposq with
    | head hproc hlogq =>
        rw [hlogq]
        exact history_mono hle q
    | inside hround hevents hlogq htodo hrest =>
        -- the last round it can be in is the one before
        have hlt : l < k := by
          refine Nat.lt_of_le_of_ne hle fun heq => ?_
          rw [heq] at hround
          exact hround r hleft
        refine List.IsPrefix.trans ?_ (history_mono hlt q)
        rw [hlogq, history_succ, ← hevents, ← List.append_assoc]
        exact List.prefix_append _ _

/-- The ranks can perform any number of the rounds together. -/
theorem run_history {k : Nat} (hk : rs.Taken k) :
    ∃ t n, LoopRun body rs.start t n ∧ (∀ r, t.proc r = .ret (rs.state k r)) ∧
      (∀ a b tag, t.chan a b tag = []) ∧ ∀ r, t.log r = rs.history k r := by
  induction k with
  | zero => exact ⟨rs.start, 0, .refl _, fun _ => rfl, fun _ _ _ => rfl, fun _ => rfl⟩
  | succ k ih =>
      obtain ⟨s, n, hrun, hproc, hchan, hlog⟩ := ih (hk.mono (Nat.le_succ k))
      obtain ⟨t, m, hrun', hproc', hchan', hlog'⟩ :=
        rs.performed k (hk k (Nat.lt_succ_self k)) s hproc hchan
      refine ⟨t, n + m, hrun.trans hrun', hproc', hchan', fun r => ?_⟩
      rw [hlog', hlog, history_succ]

/-- From every state that is reached the ranks can go on to the end of a round that none of
    them has left behind. -/
theorem completes {n k : Nat} (h : LoopRun body rs.start u n) (hk : rs.Taken k)
    (hlog : ∀ r, u.log r <+: rs.history k r) :
    ∃ t m, LoopRun body u t m ∧ (∀ r, t.proc r = .ret (rs.state k r)) ∧
      ∀ a b tag, t.chan a b tag = [] := by
  obtain ⟨t, m, hrun, hproc, hchan, hlogt⟩ := run_history hk
  obtain ⟨l, hl⟩ := hrun.catchUp h fun r => by rw [hlogt]; exact hlog r
  exact ⟨t, l, hl, hproc, hchan⟩

/-- There is such a round. -/
theorem Follows.exists_bound [Fintype R] (h : rs.Follows u) :
    ∃ k, rs.Taken k ∧ ∀ r, u.log r <+: rs.history k r := by
  choose k hk hlog using h.log_prefix
  refine ⟨Finset.univ.sup k, fun j hj => ?_, fun r =>
    (hlog r).trans (history_mono (Finset.le_sup (Finset.mem_univ r)) r)⟩
  obtain ⟨r, -, hr⟩ := Finset.lt_sup_iff.mp hj
  exact hk r j hr

end Rounds

end MpiApps.MessagePassing
