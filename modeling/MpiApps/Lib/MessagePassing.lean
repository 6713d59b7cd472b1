/-
  MpiApps.Lib.MessagePassing

  Sequential processes that exchange messages over channels.

  Each rank runs a process that sends without blocking and receives from a rank and a
  tag it names.  There is one queue for each sender, receiver and tag; a step lets one
  rank perform its next operation, in any order between the ranks.  Since no receive
  can choose between senders, two steps of different ranks commute (`Step.diamond`),
  and a system that has one complete run has no other outcome (`Run.determinate`).

  A complete run is put together from phases: in a phase each rank performs some
  operations whose receives find their messages in the channels already (`run_phase`).
-/

import Mathlib.Data.Fintype.Basic
import Mathlib.Data.List.Basic
import Mathlib.Logic.Function.Basic
import Mathlib.Tactic.Common

namespace MpiApps.MessagePassing

/-! ## Processes and systems -/

/-- A process over ranks `R`, tags `T` and messages `M` with a result of type `α`. -/
inductive Proc (R T M α : Type)
  | ret (a : α)
  | send (dst : R) (tag : T) (m : M) (k : Proc R T M α)
  | recv (src : R) (tag : T) (k : M → Proc R T M α)
  /-- stuck for good, as after a message of the wrong type -/
  | abort

/-- What a rank has done. -/
inductive Event (R T M : Type)
  | sent (dst : R) (tag : T) (m : M)
  | received (src : R) (tag : T) (m : M)
  deriving DecidableEq

/-- The processes, the messages in flight by sender, receiver and tag, and what each rank
    has done so far. -/
@[ext] structure Sys (R T M α : Type) where
  proc : R → Proc R T M α
  chan : R → R → T → List M
  log : R → List (Event R T M)

variable {R T M α : Type}

/-- A process that can perform an operation, and what is left of it then. -/
inductive Proc.Offers : Proc R T M α → Event R T M → Proc R T M α → Prop
  | send {dst : R} {tag : T} {m : M} {k : Proc R T M α} :
      Offers (.send dst tag m k) (.sent dst tag m) k
  | recv {src : R} {tag : T} {m : M} {k : M → Proc R T M α} :
      Offers (.recv src tag k) (.received src tag m) (k m)

/-- A receive needs its message at the head of the channel. -/
def Event.Ready (chan : R → R → T → List M) (r : R) : Event R T M → Prop
  | .sent _ _ _ => True
  | .received src tag m => (chan src r tag).head? = some m

variable [DecidableEq R] [DecidableEq T]

/-- What an operation of rank `r` does to the channels. -/
def Event.effect (r : R) (e : Event R T M) (chan : R → R → T → List M) : R → R → T → List M :=
  match e with
  | .sent dst tag m => fun a b t =>
    if a = r ∧ b = dst ∧ t = tag then chan a b t ++ [m] else chan a b t
  | .received src tag _ => fun a b t =>
    if a = src ∧ b = r ∧ t = tag then (chan a b t).tail else chan a b t

/-- The system after rank `r` has performed an operation and continues as `p`. -/
def Sys.act (s : Sys R T M α) (r : R) (e : Event R T M) (p : Proc R T M α) : Sys R T M α where
  proc := Function.update s.proc r p
  chan := e.effect r s.chan
  log := Function.update s.log r (s.log r ++ [e])

@[simp] theorem Sys.act_proc_self (s : Sys R T M α) (r : R) (e : Event R T M)
    (p : Proc R T M α) : (s.act r e p).proc r = p := by
  simp [Sys.act]

theorem Sys.act_proc_of_ne (s : Sys R T M α) {r q : R} (h : q ≠ r) (e : Event R T M)
    (p : Proc R T M α) : (s.act r e p).proc q = s.proc q := by
  simp [Sys.act, h]

/-- A step of rank `r`. -/
inductive Step (r : R) (s : Sys R T M α) : Sys R T M α → Prop
  | act {e : Event R T M} {p : Proc R T M α} (h : (s.proc r).Offers e p)
      (hr : e.Ready s.chan r) : Step r s (s.act r e p)

/-- `n` steps, of any ranks in any order. -/
inductive Run : Sys R T M α → Sys R T M α → Nat → Prop
  | refl (s : Sys R T M α) : Run s s 0
  | head {s u t : Sys R T M α} {n : Nat} (r : R) (h : Step r s u) (hr : Run u t n) :
      Run s t (n + 1)

/-- No rank can do anything. -/
def Sys.Terminal (s : Sys R T M α) : Prop := ∀ r u, ¬ Step r s u

theorem Run.trans {s u t : Sys R T M α} {m n : Nat} (h : Run s u m) (h' : Run u t n) :
    Run s t (m + n) := by
  induction h with
  | refl s => rwa [Nat.zero_add]
  | head r hstep _ ih =>
      rw [Nat.add_right_comm]
      exact .head r hstep (ih h')

/-! ## Determinacy -/

omit [DecidableEq R] [DecidableEq T] in
/-- A process has at most one operation that is ready. -/
theorem Proc.Offers.unique {p q q' : Proc R T M α} {e e' : Event R T M} {r : R}
    {chan : R → R → T → List M} (h : p.Offers e q) (h' : p.Offers e' q') (hr : e.Ready chan r)
    (hr' : e'.Ready chan r) : e = e' ∧ q = q' := by
  cases h with
  | send =>
      cases h'
      exact ⟨rfl, rfl⟩
  | recv =>
      cases h'
      -- both receives take the head of the same channel
      have hm := hr.symm.trans hr'
      cases hm
      exact ⟨rfl, rfl⟩

/-- A rank has at most one next step. -/
theorem Step.unique {r : R} {s u v : Sys R T M α} (hu : Step r s u) (hv : Step r s v) : u = v := by
  obtain @⟨e, p, h, hr⟩ := hu
  obtain @⟨e', p', h', hr'⟩ := hv
  obtain ⟨rfl, rfl⟩ := h.unique h' hr hr'
  rfl

/-- Taking the head of a queue and appending to it do not disturb each other. -/
theorem tail_append_of_head? {l : List M} {m m' : M} (h : l.head? = some m) :
    (l ++ [m']).tail = l.tail ++ [m'] ∧ (l ++ [m']).head? = some m := by
  cases l with
  | nil => cases h
  | cons x l => exact ⟨rfl, h⟩

/-- An operation of one rank leaves those of another one ready. -/
theorem Event.Ready.effect {r q : R} (hrq : r ≠ q) {e e' : Event R T M}
    {chan : R → R → T → List M} (h' : e'.Ready chan q) : e'.Ready (e.effect r chan) q := by
  cases e' with
  | sent _ _ _ => trivial
  | received src' tag' m' =>
      show (e.effect r chan src' q tag').head? = some m'
      cases e with
      | sent dst tag m =>
          simp only [Event.effect]
          split
          · exact (tail_append_of_head? h').2
          · exact h'
      | received src tag m =>
          simp only [Event.effect]
          rw [if_neg fun h => hrq h.2.1.symm]
          exact h'

/-- Operations of two ranks that are ready commute on the channels. -/
theorem Event.effect_comm {r q : R} (hrq : r ≠ q) {e e' : Event R T M}
    {chan : R → R → T → List M} (h : e.Ready chan r) (h' : e'.Ready chan q) :
    e'.effect q (e.effect r chan) = e.effect r (e'.effect q chan) := by
  funext a b t
  cases e with
  | sent dst tag m =>
      cases e' with
      | sent dst' tag' m' =>
          -- the channels have different senders
          by_cases h1 : a = r <;> by_cases h2 : a = q
          · exact absurd (h1.symm.trans h2) hrq
          all_goals simp [Event.effect, h1, h2, hrq, Ne.symm hrq]
      | received src' tag' m' =>
          by_cases h1 : a = r ∧ b = dst ∧ t = tag <;> by_cases h2 : a = src' ∧ b = q ∧ t = tag'
          · obtain ⟨rfl, rfl, rfl⟩ := h2
            simp only [Event.effect, if_pos h1, and_self, if_true]
            exact (tail_append_of_head? h').1
          · simp only [Event.effect, if_pos h1, if_neg h2]
          · simp only [Event.effect, if_neg h1, if_pos h2]
          · simp only [Event.effect, if_neg h1, if_neg h2]
  | received src tag m =>
      cases e' with
      | sent dst' tag' m' =>
          by_cases h1 : a = src ∧ b = r ∧ t = tag <;> by_cases h2 : a = q ∧ b = dst' ∧ t = tag'
          · obtain ⟨rfl, rfl, rfl⟩ := h1
            simp only [Event.effect, if_pos h2, and_self, if_true]
            exact (tail_append_of_head? h).1.symm
          · simp only [Event.effect, if_pos h1, if_neg h2]
          · simp only [Event.effect, if_neg h1, if_pos h2]
          · simp only [Event.effect, if_neg h1, if_neg h2]
      | received src' tag' m' =>
          -- the channels have different receivers
          by_cases h1 : b = r <;> by_cases h2 : b = q
          · exact absurd (h1.symm.trans h2) hrq
          all_goals simp [Event.effect, h1, h2, hrq, Ne.symm hrq]

/-- Operations of two ranks commute on the system. -/
theorem Sys.act_comm (s : Sys R T M α) {r q : R} (hrq : r ≠ q) {e e' : Event R T M}
    (hr : e.Ready s.chan r) (hr' : e'.Ready s.chan q) (p p' : Proc R T M α) :
    (s.act r e p).act q e' p' = (s.act q e' p').act r e p := by
  ext1
  · exact Function.update_comm hrq _ _ _
  · exact Event.effect_comm hrq hr hr'
  · simp only [Sys.act, Function.update_of_ne hrq, Function.update_of_ne (Ne.symm hrq)]
    exact Function.update_comm hrq _ _ _

/-- Steps of different ranks commute. -/
theorem Step.diamond {r q : R} (hrq : r ≠ q) {s u v : Sys R T M α} (hu : Step r s u)
    (hv : Step q s v) : ∃ w, Step q u w ∧ Step r v w := by
  obtain @⟨e, p, h, hr⟩ := hu
  obtain @⟨e', p', h', hr'⟩ := hv
  have hq : ((s.act r e p).proc q).Offers e' p' := by
    rwa [Sys.act_proc_of_ne s (Ne.symm hrq)]
  have hp : ((s.act q e' p').proc r).Offers e p := by
    rwa [Sys.act_proc_of_ne s hrq]
  refine ⟨_, .act hq (hr'.effect hrq), ?_⟩
  rw [s.act_comm hrq hr hr']
  exact .act hp (hr.effect (Ne.symm hrq))

/-- A complete run absorbs a step: what is left of it is one step shorter. -/
theorem Run.absorb {s t u : Sys R T M α} {n : Nat} (h : Run s t n) (ht : t.Terminal) {r : R}
    (hu : Step r s u) : ∃ k, k + 1 = n ∧ Run u t k := by
  induction h generalizing u r with
  | refl s => exact absurd hu (ht r u)
  | head q hq hrest ih =>
      by_cases hrq : r = q
      · subst hrq
        rw [hu.unique hq]
        exact ⟨_, rfl, hrest⟩
      · obtain ⟨w, hw, hw'⟩ := hu.diamond hrq hq
        obtain ⟨k, rfl, hk⟩ := ih ht hw'
        exact ⟨k + 1, rfl, .head q hw hk⟩

/-- Every run from where a complete run starts can be extended to its end. -/
theorem Run.determinate {s t u : Sys R T M α} {m n : Nat} (h : Run s t n) (ht : t.Terminal)
    (hu : Run s u m) : ∃ k, m + k = n ∧ Run u t k := by
  induction hu generalizing n with
  | refl s => exact ⟨n, Nat.zero_add n, h⟩
  | head r hr _ ih =>
      obtain ⟨k, rfl, hk⟩ := h.absorb ht hr
      obtain ⟨j, rfl, hj⟩ := ih hk
      exact ⟨j, by omega, hj⟩

/-- In particular all complete runs end in the same state. -/
theorem Run.eq_of_terminal {s t u : Sys R T M α} {m n : Nat} (h : Run s t n) (ht : t.Terminal)
    (hu : Run s u m) (hterm : u.Terminal) : u = t := by
  obtain ⟨k, _, hk⟩ := h.determinate ht hu
  cases hk with
  | refl => rfl
  | head r hr _ => exact absurd hr (hterm r _)

/-! ## One process on its own -/

omit [DecidableEq R] [DecidableEq T] in
/-- The operations `es` take process `p` to `p'`. -/
inductive LocalRun : Proc R T M α → List (Event R T M) → Proc R T M α → Prop
  | refl (p : Proc R T M α) : LocalRun p [] p
  | head {p q p' : Proc R T M α} {e : Event R T M} {es : List (Event R T M)}
      (h : p.Offers e q) (hr : LocalRun q es p') : LocalRun p (e :: es) p'

omit [DecidableEq R] [DecidableEq T] in
theorem LocalRun.trans {p q q' : Proc R T M α} {es es' : List (Event R T M)}
    (h : LocalRun p es q) (h' : LocalRun q es' q') : LocalRun p (es ++ es') q' := by
  induction h with
  | refl p => exact h'
  | head hoff _ ih => exact .head hoff (ih h')

omit [DecidableEq R] [DecidableEq T] in
/-- What is done in two parts is done up to some point between them. -/
theorem LocalRun.split {p q : Proc R T M α} {es es' : List (Event R T M)}
    (h : LocalRun p (es ++ es') q) : ∃ m, LocalRun p es m ∧ LocalRun m es' q := by
  induction es generalizing p with
  | nil => exact ⟨p, .refl p, h⟩
  | cons e es ih =>
      cases h with
      | head hoff hrest =>
          obtain ⟨m, hm, hm'⟩ := ih hrest
          exact ⟨m, .head hoff hm, hm'⟩

/-- What is sent to `dst` with a tag. -/
def sendsTo (es : List (Event R T M)) (dst : R) (tag : T) : List M :=
  es.filterMap fun
    | .sent d t m => if d = dst ∧ t = tag then some m else none
    | .received _ _ _ => none

/-- What is received from `src` with a tag. -/
def recvsFrom (es : List (Event R T M)) (src : R) (tag : T) : List M :=
  es.filterMap fun
    | .sent _ _ _ => none
    | .received s t m => if s = src ∧ t = tag then some m else none

@[simp] theorem sendsTo_nil (dst : R) (tag : T) : sendsTo ([] : List (Event R T M)) dst tag = [] :=
  rfl

@[simp] theorem recvsFrom_nil (src : R) (tag : T) :
    recvsFrom ([] : List (Event R T M)) src tag = [] := rfl

@[simp] theorem sendsTo_append (es es' : List (Event R T M)) (dst : R) (tag : T) :
    sendsTo (es ++ es') dst tag = sendsTo es dst tag ++ sendsTo es' dst tag :=
  List.filterMap_append

@[simp] theorem recvsFrom_append (es es' : List (Event R T M)) (src : R) (tag : T) :
    recvsFrom (es ++ es') src tag = recvsFrom es src tag ++ recvsFrom es' src tag :=
  List.filterMap_append

theorem sendsTo_cons_sent (es : List (Event R T M)) (d dst : R) (t tag : T) (m : M) :
    sendsTo (.sent d t m :: es) dst tag =
      (if d = dst ∧ t = tag then [m] else []) ++ sendsTo es dst tag := by
  unfold sendsTo
  by_cases h : d = dst ∧ t = tag
  · rw [List.filterMap_cons_some (b := m) (by simp [h]), if_pos h]
    rfl
  · rw [List.filterMap_cons_none (by simp [h]), if_neg h]
    rfl

@[simp] theorem sendsTo_cons_received (es : List (Event R T M)) (s dst : R) (t tag : T) (m : M) :
    sendsTo (.received s t m :: es) dst tag = sendsTo es dst tag := rfl

@[simp] theorem recvsFrom_cons_sent (es : List (Event R T M)) (d src : R) (t tag : T) (m : M) :
    recvsFrom (.sent d t m :: es) src tag = recvsFrom es src tag := rfl

theorem recvsFrom_cons_received (es : List (Event R T M)) (s src : R) (t tag : T) (m : M) :
    recvsFrom (.received s t m :: es) src tag =
      (if s = src ∧ t = tag then [m] else []) ++ recvsFrom es src tag := by
  unfold recvsFrom
  by_cases h : s = src ∧ t = tag
  · rw [List.filterMap_cons_some (b := m) (by simp [h]), if_pos h]
    rfl
  · rw [List.filterMap_cons_none (by simp [h]), if_neg h]
    rfl

/-- The system after rank `r` has performed `es` and continues as `p`. -/
def Sys.advance (s : Sys R T M α) (r : R) (es : List (Event R T M)) (p : Proc R T M α) :
    Sys R T M α where
  proc := Function.update s.proc r p
  chan a b t := (if b = r then (s.chan a b t).drop (recvsFrom es a t).length else s.chan a b t) ++
    (if a = r then sendsTo es b t else [])
  log := Function.update s.log r (s.log r ++ es)

theorem Sys.advance_nil {s : Sys R T M α} {r : R} {p : Proc R T M α} (hp : s.proc r = p) :
    s.advance r [] p = s := by
  ext1
  · rw [← hp]
    exact Function.update_eq_self r s.proc
  · funext a b t
    simp [advance]
  · show Function.update s.log r (s.log r ++ []) = s.log
    rw [List.append_nil]
    exact Function.update_eq_self r s.log

/-- The channels after one operation and then the others. -/
theorem chan_advance_cons {r : R} {e : Event R T M} {es : List (Event R T M)}
    {chan : R → R → T → List M}
    (hin : ∀ src tag, recvsFrom (e :: es) src tag <+: chan src r tag) (a b : R) (t : T) :
    (if b = r then (e.effect r chan a b t).drop (recvsFrom es a t).length
        else e.effect r chan a b t) ++ (if a = r then sendsTo es b t else []) =
      (if b = r then (chan a b t).drop (recvsFrom (e :: es) a t).length else chan a b t) ++
        (if a = r then sendsTo (e :: es) b t else []) := by
  have hle := (hin a t).length_le
  cases e with
  | sent dst tag m =>
      rw [recvsFrom_cons_sent, sendsTo_cons_sent]
      rw [recvsFrom_cons_sent] at hle
      by_cases h : a = r ∧ b = dst ∧ t = tag
      · obtain ⟨rfl, rfl, rfl⟩ := h
        simp only [Event.effect, and_self, if_true]
        by_cases hb : b = a
        · rw [hb]
          -- a message to itself goes behind what it has still to receive
          rw [if_pos rfl, if_pos rfl, List.drop_append_of_le_length hle, List.append_assoc]
        · rw [if_neg hb, if_neg hb, List.append_assoc]
      · simp only [Event.effect, if_neg h]
        by_cases ha : a = r
        · have h' : ¬ (dst = b ∧ tag = t) := fun h' => h ⟨ha, h'.1.symm, h'.2.symm⟩
          rw [if_neg h', List.nil_append]
        · rw [if_neg ha, if_neg ha]
  | received src tag m =>
      rw [recvsFrom_cons_received, sendsTo_cons_received]
      congr 1
      by_cases hb : b = r
      · rw [if_pos hb, if_pos hb]
        by_cases h : a = src ∧ t = tag
        · simp only [Event.effect, h, hb, and_self, if_true, List.cons_append, List.nil_append,
            List.length_cons, List.drop_tail]
        · have h' : ¬ (src = a ∧ tag = t) := fun h' => h ⟨h'.1.symm, h'.2.symm⟩
          have h'' : ¬ (a = src ∧ b = r ∧ t = tag) := fun h'' => h ⟨h''.1, h''.2.2⟩
          simp only [Event.effect, if_neg h', if_neg h'', List.nil_append]
      · have h'' : ¬ (a = src ∧ b = r ∧ t = tag) := fun h'' => hb h''.2.1
        rw [if_neg hb, if_neg hb]
        simp only [Event.effect, if_neg h'']

/-- After its first operation a rank still finds in the channels what it receives. -/
theorem recvsFrom_effect {r : R} {e : Event R T M} {es : List (Event R T M)}
    {chan : R → R → T → List M}
    (hin : ∀ src tag, recvsFrom (e :: es) src tag <+: chan src r tag) (src : R) (tag : T) :
    recvsFrom es src tag <+: e.effect r chan src r tag := by
  have h := hin src tag
  cases e with
  | sent dst tag' m =>
      rw [recvsFrom_cons_sent] at h
      simp only [Event.effect]
      split
      · exact h.trans (List.prefix_append _ _)
      · exact h
  | received src' tag' m =>
      rw [recvsFrom_cons_received] at h
      simp only [Event.effect]
      by_cases hs : src = src' ∧ tag = tag'
      · obtain ⟨rfl, rfl⟩ := hs
        simp only [and_self, if_true, List.cons_append, List.nil_append] at h ⊢
        obtain ⟨rest, hrest⟩ := h
        rw [← hrest]
        exact List.prefix_append _ _
      · rw [if_neg fun h' => hs ⟨h'.1.symm, h'.2.symm⟩, List.nil_append] at h
        rw [if_neg fun h' => hs ⟨h'.1, h'.2.2⟩]
        exact h

/-- An operation is ready if its message is what the channel holds first. -/
theorem Event.ready_of_recvsFrom {r : R} {e : Event R T M}
    {es : List (Event R T M)} {chan : R → R → T → List M}
    (hin : ∀ src tag, recvsFrom (e :: es) src tag <+: chan src r tag) : e.Ready chan r := by
  cases e with
  | sent _ _ _ => trivial
  | received src tag m =>
      have hm := hin src tag
      rw [recvsFrom_cons_received, if_pos ⟨rfl, rfl⟩] at hm
      obtain ⟨rest, hrest⟩ := hm
      show (chan src r tag).head? = some m
      rw [← hrest]
      rfl

/-- One operation and then the others. -/
theorem Sys.advance_act {s : Sys R T M α} {r : R} {e : Event R T M} {es : List (Event R T M)}
    (hin : ∀ src tag, recvsFrom (e :: es) src tag <+: s.chan src r tag) (q p : Proc R T M α) :
    (s.act r e q).advance r es p = s.advance r (e :: es) p := by
  ext1
  · exact Function.update_idem _ _ _
  · funext a b t
    exact chan_advance_cons hin a b t
  · show Function.update (Function.update s.log r _) r
      (Function.update s.log r _ r ++ es) = Function.update s.log r (s.log r ++ e :: es)
    rw [Function.update_self, Function.update_idem, List.append_assoc]
    rfl

/-- A rank can run on its own as long as the channels hold what it receives. -/
theorem run_advance {s : Sys R T M α} {r : R} {es : List (Event R T M)} {p p' : Proc R T M α}
    (h : LocalRun p es p') (hp : s.proc r = p)
    (hin : ∀ src tag, recvsFrom es src tag <+: s.chan src r tag) :
    Run s (s.advance r es p') es.length := by
  induction h generalizing s with
  | refl p =>
      rw [Sys.advance_nil hp]
      exact .refl s
  | @head p q p' e es hoff _ ih =>
      have hrest := ih (s := s.act r e q) (s.act_proc_self r e q) (recvsFrom_effect hin)
      rw [Sys.advance_act hin] at hrest
      exact .head r (.act (hp ▸ hoff) (Event.ready_of_recvsFrom hin)) hrest

/-! ## Phases -/

/-- The system after each rank `r` has performed `e r` and continues as `p r`, where the
    messages received were there before the phase. -/
def Sys.phase (s : Sys R T M α) (e : R → List (Event R T M)) (p : R → Proc R T M α) :
    Sys R T M α where
  proc := p
  chan a b t := (s.chan a b t).drop (recvsFrom (e b) a t).length ++ sendsTo (e a) b t
  log r := s.log r ++ e r

/-- All ranks can run through a phase. -/
theorem run_phase [Fintype R] {s : Sys R T M α} {e : R → List (Event R T M)}
    {p : R → Proc R T M α} (h : ∀ r, LocalRun (s.proc r) (e r) (p r))
    (hin : ∀ r src tag, recvsFrom (e r) src tag <+: s.chan src r tag) :
    ∃ n, Run s (s.phase e p) n := by
  -- rank by rank: those in `A` are through
  have hall : ∀ A : Finset R, ∃ n, Run s (s.phase (fun r => if r ∈ A then e r else [])
      fun r => if r ∈ A then p r else s.proc r) n := by
    intro A
    induction A using Finset.induction_on with
    | empty =>
        refine ⟨0, ?_⟩
        have heq : s.phase (fun r => if r ∈ (∅ : Finset R) then e r else [])
            (fun r => if r ∈ (∅ : Finset R) then p r else s.proc r) = s := by
          ext1 <;> simp [Sys.phase]
        rw [heq]
        exact .refl s
    | insert q A hq ih =>
        obtain ⟨n, hn⟩ := ih
        refine ⟨_, hn.trans (?_ : Run _ _ (e q).length)⟩
        have hadv := run_advance (s := s.phase (fun r => if r ∈ A then e r else [])
          fun r => if r ∈ A then p r else s.proc r) (r := q) (h q) (by simp [Sys.phase, hq]) (by
            intro src tag
            simp only [Sys.phase, hq, if_false, recvsFrom_nil, List.length_nil, List.drop_zero]
            exact (hin q src tag).trans (List.prefix_append _ _))
        convert hadv using 1
        ext1
        · funext r
          by_cases hr : r = q
          · subst hr
            simp [Sys.phase, Sys.advance]
          · simp [Sys.phase, Sys.advance, Finset.mem_insert, hr]
        · funext a b t
          have hle := (hin q a t).length_le
          by_cases hb : b = q
          · subst hb
            by_cases ha : a = b
            · subst ha
              simp [Sys.phase, Sys.advance, hq]
            · simp only [Sys.phase, Sys.advance, Finset.mem_insert, hq, ha, true_or, false_or,
                if_true, if_false, recvsFrom_nil, List.length_nil, List.drop_zero,
                List.append_nil]
              rw [List.drop_append_of_le_length hle]
          · by_cases ha : a = q
            · subst ha
              simp [Sys.phase, Sys.advance, hq, hb]
            · simp [Sys.phase, Sys.advance, ha, hb]
        · funext r
          by_cases hr : r = q
          · subst hr
            simp [Sys.phase, Sys.advance, hq]
          · simp [Sys.phase, Sys.advance, Finset.mem_insert, hr]
  obtain ⟨n, hn⟩ := hall Finset.univ
  refine ⟨n, ?_⟩
  simpa using hn

/-- The only outcome of a system: where a complete run ends, with nothing in flight. -/
structure Outcome (s t : Sys R T M α) (a : R → α) : Prop where
  run : ∃ n, Run s t n
  returned : ∀ r, t.proc r = .ret (a r)
  drained : ∀ src dst tag, t.chan src dst tag = []

theorem Outcome.terminal {s t : Sys R T M α} {a : R → α} (h : Outcome s t a) : t.Terminal := by
  rintro r u ⟨hoff, _⟩
  rw [h.returned r] at hoff
  cases hoff

/-- Whatever the ranks did so far, they can go on to the outcome. -/
theorem Outcome.reachable {s t u : Sys R T M α} {a : R → α} {m : Nat} (h : Outcome s t a)
    (hu : Run s u m) : ∃ k, Run u t k := by
  obtain ⟨n, hn⟩ := h.run
  obtain ⟨k, _, hk⟩ := hn.determinate h.terminal hu
  exact ⟨k, hk⟩

/-- Where nothing can be done any more, the outcome is reached. -/
theorem Outcome.unique {s t u : Sys R T M α} {a : R → α} {m : Nat} (h : Outcome s t a)
    (hu : Run s u m) (hterm : u.Terminal) : u = t := by
  obtain ⟨n, hn⟩ := h.run
  exact hn.eq_of_terminal h.terminal hu hterm

/-! ## Collective operations -/

/-- Send a list of messages one after the other. -/
def sendList : List (R × T × M) → Proc R T M α → Proc R T M α
  | [], k => k
  | (dst, tag, m) :: l, k => .send dst tag m (sendList l k)

/-- A broadcast: the root sends to all other ranks, these receive from the root. -/
def bcast (ranks : List R) (root rank : R) (tag : T) (m : M) (k : M → Proc R T M α) :
    Proc R T M α :=
  if rank = root then sendList ((ranks.filter (· ≠ root)).map fun d => (d, tag, m)) (k m)
  else .recv root tag k

/-- The root's part of a gather: its own message in its own place. -/
def gatherLoop (root : R) (tag : T) (m : M) : List R → (List M → Proc R T M α) → Proc R T M α
  | [], k => k []
  | i :: l, k =>
    if i = root then gatherLoop root tag m l fun ms => k (m :: ms)
    else .recv i tag fun x => gatherLoop root tag m l fun ms => k (x :: ms)

/-- A gather: the root receives from all other ranks in order, these send to the root. -/
def gather (ranks : List R) (root rank : R) (tag : T) (m : M) (k : List M → Proc R T M α) :
    Proc R T M α :=
  if rank = root then gatherLoop root tag m ranks k else .send root tag m (k [])

omit [DecidableEq R] [DecidableEq T] in
theorem localRun_sendList (l : List (R × T × M)) (k : Proc R T M α) :
    LocalRun (sendList l k) (l.map fun x => .sent x.1 x.2.1 x.2.2) k := by
  induction l with
  | nil => exact .refl k
  | cons x l ih => exact .head .send ih

omit [DecidableEq T] in
theorem localRun_bcast_root (ranks : List R) (root : R) (tag : T) (m : M)
    (k : M → Proc R T M α) :
    LocalRun (bcast ranks root root tag m k)
      ((ranks.filter (· ≠ root)).map fun d => .sent d tag m) (k m) := by
  have h := localRun_sendList ((ranks.filter (· ≠ root)).map fun d => (d, tag, m)) (k m)
  rw [List.map_map] at h
  rw [bcast, if_pos rfl]
  exact h

omit [DecidableEq T] in
theorem localRun_bcast {root rank : R} (hrank : rank ≠ root) (ranks : List R) (tag : T)
    (own m : M) (k : M → Proc R T M α) :
    LocalRun (bcast ranks root rank tag own k) [.received root tag m] (k m) := by
  rw [bcast, if_neg hrank]
  exact .head .recv (.refl _)

omit [DecidableEq T] in
theorem localRun_gather_root (ranks : List R) (root : R) (tag : T) (f : R → M)
    (k : List M → Proc R T M α) :
    LocalRun (gather ranks root root tag (f root) k)
      ((ranks.filter (· ≠ root)).map fun i => .received i tag (f i)) (k (ranks.map f)) := by
  rw [gather, if_pos rfl]
  induction ranks generalizing k with
  | nil => exact .refl _
  | cons i l ih =>
      rw [gatherLoop]
      by_cases hi : i = root
      · subst hi
        rw [if_pos rfl, List.filter_cons_of_neg (by simp)]
        exact ih fun ms => k (f i :: ms)
      · rw [if_neg hi, List.filter_cons_of_pos (by simpa using hi)]
        exact .head .recv (ih fun ms => k (f i :: ms))

omit [DecidableEq T] in
theorem localRun_gather {root rank : R} (hrank : rank ≠ root) (ranks : List R) (tag : T) (m : M)
    (k : List M → Proc R T M α) :
    LocalRun (gather ranks root rank tag m k) [.sent root tag m] (k []) := by
  rw [gather, if_neg hrank]
  exact .head .send (.refl _)

/-- What one message to each of some ranks puts into the channels. -/
theorem sendsTo_map_sent {l : List R} (hl : l.Nodup) (g : R → T) (m : R → M) (dst : R) (tag : T) :
    sendsTo (l.map fun d => Event.sent d (g d) (m d)) dst tag =
      if dst ∈ l ∧ tag = g dst then [m dst] else [] := by
  induction l with
  | nil => simp
  | cons d l ih =>
      obtain ⟨hd, hl'⟩ := List.nodup_cons.mp hl
      rw [List.map_cons, sendsTo_cons_sent, ih hl']
      by_cases h : d = dst
      · subst h
        by_cases ht : g d = tag
        · simp [hd, ht]
        · simp [hd, ht, Ne.symm ht]
      · have h' : dst ≠ d := Ne.symm h
        simp [h, h']

/-- What one message from each of some ranks takes out of the channels. -/
theorem recvsFrom_map_received {l : List R} (hl : l.Nodup) (g : R → T) (m : R → M) (src : R)
    (tag : T) :
    recvsFrom (l.map fun s => Event.received s (g s) (m s)) src tag =
      if src ∈ l ∧ tag = g src then [m src] else [] := by
  induction l with
  | nil => simp
  | cons d l ih =>
      obtain ⟨hd, hl'⟩ := List.nodup_cons.mp hl
      rw [List.map_cons, recvsFrom_cons_received, ih hl']
      by_cases h : d = src
      · subst h
        by_cases ht : g d = tag
        · simp [hd, ht]
        · simp [hd, ht, Ne.symm ht]
      · have h' : src ≠ d := Ne.symm h
        simp [h, h']

@[simp] theorem sendsTo_map_received (l : List R) (g : R → T) (m : R → M) (dst : R) (tag : T) :
    sendsTo (l.map fun s => Event.received s (g s) (m s)) dst tag = [] := by
  induction l with
  | nil => rfl
  | cons d l ih => rw [List.map_cons, sendsTo_cons_received, ih]

@[simp] theorem recvsFrom_map_sent (l : List R) (g : R → T) (m : R → M) (src : R) (tag : T) :
    recvsFrom (l.map fun d => Event.sent d (g d) (m d)) src tag = [] := by
  induction l with
  | nil => rfl
  | cons d l ih => rw [List.map_cons, recvsFrom_cons_sent, ih]

/-- The messages with a tag. -/
def withTag (msgs : List (T × M)) (tag : T) : List M :=
  msgs.filterMap fun x => if x.1 = tag then some x.2 else none

theorem sendsTo_map_sent_to (msgs : List (T × M)) (d dst : R) (tag : T) :
    sendsTo (msgs.map fun x => Event.sent d x.1 x.2) dst tag =
      if d = dst then withTag msgs tag else [] := by
  by_cases hd : d = dst
  · simp [sendsTo, withTag, List.filterMap_map, hd]
  · simp [sendsTo, List.filterMap_map, hd]

theorem recvsFrom_map_received_from (msgs : List (T × M)) (s src : R) (tag : T) :
    recvsFrom (msgs.map fun x => Event.received s x.1 x.2) src tag =
      if s = src then withTag msgs tag else [] := by
  by_cases hs : s = src
  · simp [recvsFrom, withTag, List.filterMap_map, hs]
  · simp [recvsFrom, List.filterMap_map, hs]

@[simp] theorem recvsFrom_map_sent_to (msgs : List (T × M)) (d src : R) (tag : T) :
    recvsFrom (msgs.map fun x => Event.sent d x.1 x.2) src tag = [] := by
  simp [recvsFrom, List.filterMap_map]

@[simp] theorem sendsTo_map_received_from (msgs : List (T × M)) (s dst : R) (tag : T) :
    sendsTo (msgs.map fun x => Event.received s x.1 x.2) dst tag = [] := by
  simp [sendsTo, List.filterMap_map]

end MpiApps.MessagePassing
