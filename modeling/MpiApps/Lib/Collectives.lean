/-
  MpiApps.Lib.Collectives

  Programs that communicate by collective operations only.

  Between two collective operations nothing is in flight.  `Reaches P Q` says that from such
  a state, in which every rank `r` is at `P r`, the ranks can all get to `Q r` and nothing is
  in flight again.  A broadcast, a scatter and a gather take every rank to what it does
  with what it receives, so the result of a program is computed one operation at a time; by
  `Outcome.unique` it is then the result of every complete run.
-/

import MpiApps.Lib.MessagePassing

namespace MpiApps.MessagePassing

variable {R T M α : Type} [DecidableEq R] [DecidableEq T]

/-! ## From one operation to the next -/

/-- With nothing in flight, the ranks get from `P` to `Q` with nothing in flight. -/
def Reaches (P Q : R → Proc R T M α) : Prop :=
  ∀ s : Sys R T M α, s.proc = P → (∀ a b t, s.chan a b t = []) →
    ∃ u n, Run s u n ∧ u.proc = Q ∧ ∀ a b t, u.chan a b t = []

theorem Reaches.refl (P : R → Proc R T M α) : Reaches P P :=
  fun s hs hempty => ⟨s, 0, .refl s, hs, hempty⟩

theorem Reaches.trans {P Q S : R → Proc R T M α} (h : Reaches P Q) (h' : Reaches Q S) :
    Reaches P S := by
  intro s hs hempty
  obtain ⟨u, n, hrun, hu, huempty⟩ := h s hs hempty
  obtain ⟨v, m, hrun', hv, hvempty⟩ := h' u hu huempty
  exact ⟨v, n + m, hrun.trans hrun', hv, hvempty⟩

/-- When every rank gets to its result, these results are the outcome. -/
theorem Reaches.outcome {P : R → Proc R T M α} {a : R → α} (h : Reaches P fun r => .ret (a r))
    {s : Sys R T M α} (hs : s.proc = P) (hempty : ∀ a b t, s.chan a b t = []) :
    ∃ t, Outcome s t a := by
  obtain ⟨t, n, hrun, ht, htempty⟩ := h s hs hempty
  exact ⟨t, ⟨n, hrun⟩, fun r => by rw [ht], htempty⟩

/-- All ranks at the start of their programs. -/
def Sys.start (P : R → Proc R T M α) : Sys R T M α := ⟨P, fun _ _ _ => [], fun _ => []⟩

/-- Whatever the ranks have done so far, they can go on to the outcome, and once they are
    stuck they have reached it. -/
theorem Reaches.determined {P : R → Proc R T M α} {a : R → α}
    (h : Reaches P fun r => .ret (a r)) :
    ∃ t, Outcome (Sys.start P) t a ∧
      ∀ u m, Run (Sys.start P) u m → (∃ k, Run u t k) ∧ (u.Terminal → u = t) := by
  obtain ⟨t, ht⟩ := h.outcome (s := Sys.start P) rfl fun _ _ _ => rfl
  exact ⟨t, ht, fun u m hu => ⟨ht.reachable hu, ht.unique hu⟩⟩

/-- Whatever the ranks do first, they end with these results. -/
def Yields (P : R → Proc R T M α) (a : R → α) : Prop :=
  ∃ t, Outcome (Sys.start P) t a ∧
    ∀ u m, Run (Sys.start P) u m → (∃ k, Run u t k) ∧ (u.Terminal → u = t)

theorem Yields.unique {P : R → Proc R T M α} {a b : R → α} (ha : Yields P a) (hb : Yields P b) :
    a = b := by
  obtain ⟨t, ht, hall⟩ := ha
  obtain ⟨t', ht', -⟩ := hb
  obtain ⟨n, hn⟩ := ht'.run
  obtain rfl := (hall t' n hn).2 ht'.terminal
  funext r
  exact Proc.ret.inj ((ht.returned r).symm.trans (ht'.returned r))

/-! ## The operations -/

/-- A scatter: the root sends each other rank its part, these receive from the root. -/
def scatter (ranks : List R) (root rank : R) (tag : T) (parts : R → M) (k : M → Proc R T M α) :
    Proc R T M α :=
  if rank = root then
    sendList ((ranks.filter (· ≠ root)).map fun d => (d, tag, parts d)) (k (parts root))
  else .recv root tag k

/-- A reduction whose result all ranks have: the values are collected by one of them. -/
def allreduce (ranks : List R) (root rank : R) (tag : T) (op : List M → M) (m : M)
    (k : M → Proc R T M α) : Proc R T M α :=
  gather ranks root rank tag m fun ms => bcast ranks root rank tag (op ms) k

variable [Fintype R]

/-- A round of messages: every rank sends what the others then receive. -/
theorem run_exchange {s : Sys R T M α} {mid Q : R → Proc R T M α}
    {sends recvs : R → List (Event R T M)}
    (hsend : ∀ r, LocalRun (s.proc r) (sends r) (mid r))
    (hrecv : ∀ r, LocalRun (mid r) (recvs r) (Q r))
    (hin : ∀ r src tag, recvsFrom (sends r) src tag = [])
    (hout : ∀ r dst tag, sendsTo (recvs r) dst tag = [])
    (hmatch : ∀ a b tag, sendsTo (sends a) b tag = recvsFrom (recvs b) a tag)
    (hempty : ∀ a b tag, s.chan a b tag = []) :
    ∃ u n, Run s u n ∧ u.proc = Q ∧ (∀ a b tag, u.chan a b tag = []) ∧
      ∀ r, u.log r = s.log r ++ (sends r ++ recvs r) := by
  obtain ⟨n, hn⟩ := run_phase (s := s) (e := sends) (p := mid) hsend
    fun r src tag => by rw [hin]; exact List.nil_prefix
  -- what was sent is in the channels now
  have hchan : ∀ a b tag, (s.phase sends mid).chan a b tag = recvsFrom (recvs b) a tag := by
    intro a b tag
    show (s.chan a b tag).drop _ ++ sendsTo (sends a) b tag = _
    rw [hempty, List.drop_nil, List.nil_append, hmatch]
  obtain ⟨m, hm⟩ := run_phase (s := s.phase sends mid) (e := recvs) (p := Q) hrecv
    fun r src tag => by rw [hchan]
  refine ⟨_, n + m, hn.trans hm, rfl, fun a b tag => ?_, fun r => List.append_assoc ..⟩
  show ((s.phase sends mid).chan a b tag).drop _ ++ sendsTo (recvs a) b tag = []
  rw [hchan, hout, List.drop_length, List.nil_append]

/-- A round in which a rank either only sends or only receives. -/
theorem run_oneWay (c : R → Prop) [DecidablePred c] {s : Sys R T M α} {Q : R → Proc R T M α}
    {e : R → List (Event R T M)} (h : ∀ r, LocalRun (s.proc r) (e r) (Q r))
    (hin : ∀ r, c r → ∀ src tag, recvsFrom (e r) src tag = [])
    (hout : ∀ r, ¬c r → ∀ dst tag, sendsTo (e r) dst tag = [])
    (hmatch : ∀ a b tag, sendsTo (e a) b tag = recvsFrom (e b) a tag)
    (hempty : ∀ a b tag, s.chan a b tag = []) :
    ∃ u n, Run s u n ∧ u.proc = Q ∧ (∀ a b tag, u.chan a b tag = []) ∧
      ∀ r, u.log r = s.log r ++ e r := by
  have hsend : ∀ r, LocalRun (s.proc r) (if c r then e r else [])
      (if c r then Q r else s.proc r) := by
    intro r
    by_cases hr : c r
    · simpa only [if_pos hr] using h r
    · simpa only [if_neg hr] using .refl _
  have hrecv : ∀ r, LocalRun (if c r then Q r else s.proc r) (if c r then [] else e r) (Q r) := by
    intro r
    by_cases hr : c r
    · simpa only [if_pos hr] using .refl _
    · simpa only [if_neg hr] using h r
  have hmatch' : ∀ a b tag, sendsTo (if c a then e a else []) b tag =
      recvsFrom (if c b then [] else e b) a tag := by
    intro a b tag
    -- two senders or two receivers have nothing for each other
    by_cases ha : c a <;> by_cases hb : c b
    · rw [if_pos ha, if_pos hb, hmatch, hin b hb]
      rfl
    · rw [if_pos ha, if_neg hb, hmatch]
    · rw [if_neg ha, if_pos hb]
      rfl
    · rw [if_neg ha, if_neg hb, ← hmatch, hout a ha]
      rfl
  obtain ⟨u, n, hrun, hproc, hchan, hlog⟩ := run_exchange hsend hrecv
    (fun r src tag => by split; exacts [hin r ‹_› src tag, rfl])
    (fun r dst tag => by split; exacts [rfl, hout r ‹_› dst tag]) hmatch' hempty
  refine ⟨u, n, hrun, hproc, hchan, fun r => ?_⟩
  rw [hlog]
  split <;> simp

theorem reaches_of_exchange {P mid Q : R → Proc R T M α} {sends recvs : R → List (Event R T M)}
    (hsend : ∀ r, LocalRun (P r) (sends r) (mid r))
    (hrecv : ∀ r, LocalRun (mid r) (recvs r) (Q r))
    (hin : ∀ r src tag, recvsFrom (sends r) src tag = [])
    (hout : ∀ r dst tag, sendsTo (recvs r) dst tag = [])
    (hmatch : ∀ a b tag, sendsTo (sends a) b tag = recvsFrom (recvs b) a tag) :
    Reaches P Q := by
  intro s hs hempty
  obtain ⟨u, n, hrun, hu, huempty, -⟩ :=
    run_exchange (fun r => by rw [hs]; exact hsend r) hrecv hin hout hmatch hempty
  exact ⟨u, n, hrun, hu, huempty⟩

/-- The round without the channels and the logs. -/
theorem reaches_of_oneWay (c : R → Prop) [DecidablePred c] {P Q : R → Proc R T M α}
    (e : R → List (Event R T M)) (h : ∀ r, LocalRun (P r) (e r) (Q r))
    (hin : ∀ r, c r → ∀ src tag, recvsFrom (e r) src tag = [])
    (hout : ∀ r, ¬c r → ∀ dst tag, sendsTo (e r) dst tag = [])
    (hmatch : ∀ a b tag, sendsTo (e a) b tag = recvsFrom (e b) a tag) : Reaches P Q := by
  intro s hs hempty
  obtain ⟨u, n, hrun, hu, huempty, -⟩ :=
    run_oneWay c (fun r => by rw [hs]; exact h r) hin hout hmatch hempty
  exact ⟨u, n, hrun, hu, huempty⟩

variable {ranks : List R} (hnodup : ranks.Nodup) (hranks : ∀ r, r ∈ ranks)

include hnodup hranks

/-- After a scatter every rank has the part that the root has for it. -/
theorem reaches_scatter (root : R) (tag : T) (parts : R → R → M) (k : R → M → Proc R T M α) :
    Reaches (fun r => scatter ranks root r tag (parts r) (k r))
      (fun r => k r (parts root r)) := by
  refine reaches_of_oneWay (· = root)
    (fun r => if r = root then (ranks.filter (· ≠ root)).map fun d => .sent d tag (parts root d)
      else [.received root tag (parts root r)]) ?_ ?_ ?_ ?_
  · intro r
    by_cases hr : r = root
    · subst hr
      have h := localRun_sendList ((ranks.filter (· ≠ r)).map fun d => (d, tag, parts r d))
        (k r (parts r r))
      rw [List.map_map] at h
      simp only [scatter, if_true]
      exact h
    · simp only [hr, if_false, scatter]
      exact .head .recv (.refl _)
  · intro r hr src t
    simp [hr]
  · intro r hr dst t
    simp [hr]
  · intro a b t
    -- one message from the root to each other rank, nothing else
    have hsent := @sendsTo_map_sent R T M _ _ _ (hnodup.filter (· ≠ root)) (fun _ => tag)
      (parts root) b t
    by_cases ha : a = root
    · subst ha
      rw [if_pos rfl, hsent]
      by_cases hb : b = a
      · simp [hb]
      · rw [if_neg hb, recvsFrom_cons_received, recvsFrom_nil]
        by_cases ht : t = tag
        · simp [hb, ht, hranks]
        · simp [ht, Ne.symm ht]
    · rw [if_neg ha, sendsTo_cons_received, sendsTo_nil]
      by_cases hb : b = root
      · simp [hb]
      · rw [if_neg hb, recvsFrom_cons_received, if_neg fun h => ha h.1.symm, recvsFrom_nil]
        rfl

/-- After a broadcast every rank has the message of the root. -/
theorem reaches_bcast (root : R) (tag : T) (m : R → M) (k : R → M → Proc R T M α) :
    Reaches (fun r => bcast ranks root r tag (m r) (k r)) (fun r => k r (m root)) :=
  reaches_scatter hnodup hranks root tag (fun r _ => m r) k

/-- After a gather the root has the messages of all ranks, in order. -/
theorem reaches_gather (root : R) (tag : T) (m : R → M) (k : R → List M → Proc R T M α) :
    Reaches (fun r => gather ranks root r tag (m r) (k r))
      (fun r => k r (if r = root then ranks.map m else [])) := by
  refine reaches_of_oneWay (· ≠ root)
    (fun r => if r = root then (ranks.filter (· ≠ root)).map fun i => .received i tag (m i)
      else [.sent root tag (m r)]) ?_ ?_ ?_ ?_
  · intro r
    by_cases hr : r = root
    · subst hr
      simp only [if_true]
      exact localRun_gather_root ranks r tag m (k r)
    · simp only [hr, if_false]
      exact localRun_gather hr ranks tag (m r) (k r)
  · intro r hr src t
    rw [if_neg hr, recvsFrom_cons_sent, recvsFrom_nil]
  · intro r hr dst t
    rw [if_pos (not_not.mp hr), sendsTo_map_received]
  · intro a b t
    -- one message to the root from each other rank, nothing else
    have hrecv := @recvsFrom_map_received R T M _ _ _ (hnodup.filter (· ≠ root)) (fun _ => tag) m
      a t
    by_cases hb : b = root
    · subst hb
      rw [if_pos rfl, hrecv]
      by_cases ha : a = b
      · simp [ha]
      · rw [if_neg ha, sendsTo_cons_sent, sendsTo_nil]
        by_cases ht : t = tag
        · simp [ha, ht, hranks]
        · simp [ht, Ne.symm ht]
    · rw [if_neg hb, recvsFrom_cons_sent, recvsFrom_nil]
      by_cases ha : a = root
      · rw [if_pos ha, sendsTo_map_received]
      · rw [if_neg ha, sendsTo_cons_sent, if_neg fun h => hb h.1.symm, sendsTo_nil]
        rfl

/-- After a reduction every rank has the result. -/
theorem reaches_allreduce (root : R) (tag : T) (op : List M → M) (m : R → M)
    (k : R → M → Proc R T M α) :
    Reaches (fun r => allreduce ranks root r tag op (m r) (k r))
      (fun r => k r (op (ranks.map m))) := by
  have hgather := reaches_gather hnodup hranks root tag m
    fun r ms => bcast ranks root r tag (op ms) (k r)
  have hbcast := reaches_bcast hnodup hranks root tag
    (fun r => op (if r = root then ranks.map m else [])) k
  simp only [if_true] at hbcast
  exact hgather.trans hbcast

end MpiApps.MessagePassing
