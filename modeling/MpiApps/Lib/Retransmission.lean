/-
  MpiApps.Lib.Retransmission

  Broadcast with selective retransmission.

  The root broadcasts some messages, every other rank reports a verdict through a
  gather, and the root sends one more message to each rank that needs it, with that
  rank as the tag.  If the processes have this shape, the system has exactly one
  outcome: all ranks return, nothing is left in flight, and one retransmission goes to
  each rank that waits for one (`retransmission_outcome`).
-/

import MpiApps.Lib.Collectives

namespace MpiApps.MessagePassing

/-- Collective operations have tags of their own, a message between two ranks has a rank
    as its tag. -/
inductive Tag (R : Type)
  | bcast
  | gather
  | user (t : R)
  deriving DecidableEq

variable {R M α : Type} [DecidableEq R]

/-- Whether an operation belongs to a message between two ranks. -/
def Event.isUser : Event R (Tag R) M → Bool
  | .sent _ (.user _) _ => true
  | .received _ (.user _) _ => true
  | _ => false

theorem sendsTo_broadcasts {l : List R} (hl : l.Nodup) (msgs : List M) (dst : R) (tag : Tag R) :
    sendsTo (msgs.flatMap fun m => l.map fun d => Event.sent d Tag.bcast m) dst tag =
      if dst ∈ l ∧ tag = .bcast then msgs else [] := by
  induction msgs with
  | nil => simp
  | cons m msgs ih =>
      rw [List.flatMap_cons, sendsTo_append, ih,
        sendsTo_map_sent hl (fun _ => Tag.bcast) fun _ => m]
      split <;> rfl

theorem recvsFrom_broadcasts_sent (l : List R) (msgs : List M) (src : R) (tag : Tag R) :
    recvsFrom (msgs.flatMap fun m => l.map fun d => Event.sent d Tag.bcast m) src tag = [] := by
  induction msgs with
  | nil => rfl
  | cons m msgs ih =>
      rw [List.flatMap_cons, recvsFrom_append, ih,
        recvsFrom_map_sent l (fun _ => Tag.bcast) fun _ => m]
      rfl

theorem recvsFrom_broadcasts (root : R) (msgs : List M) (src : R) (tag : Tag R) :
    recvsFrom (msgs.map fun m => Event.received root Tag.bcast m) src tag =
      if src = root ∧ tag = .bcast then msgs else [] := by
  induction msgs with
  | nil => simp
  | cons m msgs ih =>
      rw [List.map_cons, recvsFrom_cons_received, ih]
      by_cases h : src = root ∧ tag = .bcast
      · rw [if_pos h, if_pos h, if_pos ⟨h.1.symm, h.2.symm⟩]
        rfl
      · rw [if_neg h, if_neg h, if_neg fun h' => h ⟨h'.1.symm, h'.2.symm⟩]
        rfl

theorem sendsTo_broadcasts_received (root : R) (msgs : List M) (dst : R) (tag : Tag R) :
    sendsTo (msgs.map fun m => Event.received root Tag.bcast m) dst tag = [] := by
  induction msgs with
  | nil => rfl
  | cons m msgs ih => rw [List.map_cons, sendsTo_cons_received, ih]

/-- The broadcasts of the root. -/
def announcements (ranks : List R) (root : R) (msgs : List M) : List (Event R (Tag R) M) :=
  msgs.flatMap fun m => (ranks.filter (· ≠ root)).map fun d => .sent d .bcast m

/-- The root's part of the gather. -/
def collected (ranks : List R) (root : R) (ok : R → M) : List (Event R (Tag R) M) :=
  (ranks.filter (· ≠ root)).map fun i => .received i .gather (ok i)

/-- One message to each rank that needs it, in rank order. -/
def resends (ranks : List R) (root : R) (needs : R → Bool) (data : M) :
    List (Event R (Tag R) M) :=
  (ranks.filter fun i => decide (i ≠ root) && needs i).map fun i => .sent i (.user i) data

/-- What a rank other than the root does up to the verdict. -/
def reported (root : R) (msgs : List M) (verdict : M) : List (Event R (Tag R) M) :=
  (msgs.map fun m => .received root .bcast m) ++ [.sent root .gather verdict]

/-- What a rank other than the root does after the verdict. -/
def repaired (root : R) (needs : R → Bool) (data : M) (r : R) : List (Event R (Tag R) M) :=
  if needs r then [.received root (.user r) data] else []

section Outcome

variable {ranks : List R} {root : R} {msgs : List M} {ok : R → M} {needs : R → Bool}
  {data : M} {a : R → α} {s : Sys R (Tag R) M α} {kroot : List M → Proc R (Tag R) M α}
  {k : R → List M → Proc R (Tag R) M α}

theorem sendsTo_announcements (hnodup : ranks.Nodup) (hranks : ∀ r, r ∈ ranks) (dst : R)
    (tag : Tag R) :
    sendsTo (announcements ranks root msgs) dst tag =
      if dst ≠ root ∧ tag = .bcast then msgs else [] := by
  rw [announcements, sendsTo_broadcasts (hnodup.filter _)]
  simp [hranks dst]

theorem recvsFrom_announcements (src : R) (tag : Tag R) :
    recvsFrom (announcements ranks root msgs) src tag = [] :=
  recvsFrom_broadcasts_sent _ msgs src tag

theorem recvsFrom_collected (hnodup : ranks.Nodup) (hranks : ∀ r, r ∈ ranks) (src : R)
    (tag : Tag R) :
    recvsFrom (collected ranks root ok) src tag =
      if src ≠ root ∧ tag = .gather then [ok src] else [] := by
  rw [collected, recvsFrom_map_received (hnodup.filter _) (fun _ => Tag.gather)]
  simp [hranks src]

theorem sendsTo_collected (dst : R) (tag : Tag R) :
    sendsTo (collected ranks root ok) dst tag = [] := by
  rw [collected, sendsTo_map_received]

theorem sendsTo_resends (hnodup : ranks.Nodup) (hranks : ∀ r, r ∈ ranks) (dst : R) (tag : Tag R) :
    sendsTo (resends ranks root needs data) dst tag =
      if (dst ≠ root ∧ needs dst = true) ∧ tag = .user dst then [data] else [] := by
  rw [resends, sendsTo_map_sent (hnodup.filter _) Tag.user fun _ => data]
  simp [hranks dst]

theorem recvsFrom_resends (src : R) (tag : Tag R) :
    recvsFrom (resends ranks root needs data) src tag = [] := by
  rw [resends, recvsFrom_map_sent]

theorem recvsFrom_repaired (r src : R) (tag : Tag R) :
    recvsFrom (repaired root needs data r) src tag =
      if needs r = true ∧ src = root ∧ tag = .user r then [data] else [] := by
  unfold repaired
  by_cases hn : needs r = true
  · rw [if_pos hn, recvsFrom_cons_received, recvsFrom_nil, List.append_nil]
    by_cases h : src = root ∧ tag = .user r
    · rw [if_pos ⟨h.1.symm, h.2.symm⟩, if_pos ⟨hn, h⟩]
    · rw [if_neg fun h' => h ⟨h'.1.symm, h'.2.symm⟩, if_neg fun h' => h h'.2]
  · rw [if_neg hn, if_neg fun h' => hn h'.1]
    rfl

theorem sendsTo_repaired (r dst : R) (tag : Tag R) :
    sendsTo (repaired root needs data r) dst tag = [] := by
  unfold repaired
  split <;> rfl

theorem filter_isUser_root :
    (announcements ranks root msgs ++ collected ranks root ok ++
      resends ranks root needs data).filter Event.isUser = resends ranks root needs data := by
  -- the collectives have tags of their own
  have hann : (announcements ranks root msgs).filter Event.isUser = [] := by
    apply List.filter_eq_nil_iff.mpr
    intro e he
    obtain ⟨m, _, hm⟩ := List.mem_flatMap.mp he
    obtain ⟨d, _, rfl⟩ := List.mem_map.mp hm
    exact Bool.false_ne_true
  have hcol : (collected ranks root ok).filter Event.isUser = [] := by
    apply List.filter_eq_nil_iff.mpr
    intro e he
    obtain ⟨d, _, rfl⟩ := List.mem_map.mp he
    exact Bool.false_ne_true
  have hres : (resends ranks root needs data).filter Event.isUser =
      resends ranks root needs data := by
    apply List.filter_eq_self.mpr
    intro e he
    obtain ⟨d, _, rfl⟩ := List.mem_map.mp he
    rfl
  rw [List.filter_append, List.filter_append, hann, hcol, hres]
  rfl

omit [DecidableEq R] in
theorem filter_isUser_other (verdict : M) (r : R) :
    (reported root msgs verdict ++ repaired root needs data r).filter Event.isUser =
      repaired root needs data r := by
  have hrep : (reported root msgs verdict).filter Event.isUser = [] := by
    apply List.filter_eq_nil_iff.mpr
    intro e he
    rcases List.mem_append.mp he with he | he
    · obtain ⟨m, _, rfl⟩ := List.mem_map.mp he
      exact Bool.false_ne_true
    · rw [List.mem_singleton.mp he]
      exact Bool.false_ne_true
  rw [List.filter_append, hrep, List.nil_append, repaired]
  split <;> rfl

/-! ### The three rounds -/

section Rounds

variable [Fintype R]

/-- The root announces, the others listen. -/
theorem run_announcements (hnodup : ranks.Nodup) (hranks : ∀ r, r ∈ ranks) {p : Proc R (Tag R) M α}
    {heard : R → Proc R (Tag R) M α} (hchan : ∀ src dst tag, s.chan src dst tag = [])
    (hroot : LocalRun (s.proc root) (announcements ranks root msgs) p)
    (hothers : ∀ r, r ≠ root →
      LocalRun (s.proc r) (msgs.map fun m => .received root .bcast m) (heard r)) :
    ∃ u n, Run s u n ∧ (∀ r, u.proc r = if r = root then p else heard r) ∧
      (∀ src dst tag, u.chan src dst tag = []) ∧
      ∀ r, u.log r = s.log r ++ if r = root then announcements ranks root msgs
        else msgs.map fun m => .received root .bcast m := by
  have hrun : ∀ r, LocalRun (s.proc r)
      (if r = root then announcements ranks root msgs
        else msgs.map fun m => .received root .bcast m)
      (if r = root then p else heard r) := by
    intro r
    by_cases hr : r = root
    · subst hr
      simpa using hroot
    · simpa only [if_neg hr] using hothers r hr
  obtain ⟨u, n, hu, hproc, hempty, hlog⟩ := run_oneWay (· = root) hrun
    (fun r hr src tag => by rw [if_pos hr, recvsFrom_announcements])
    (fun r hr dst tag => by rw [if_neg hr, sendsTo_broadcasts_received])
    (fun x y tag => by
      by_cases hx : x = root <;> by_cases hy : y = root <;>
        simp [hx, hy, sendsTo_announcements hnodup hranks, recvsFrom_announcements,
          recvsFrom_broadcasts, sendsTo_broadcasts_received])
    hchan
  exact ⟨u, n, hu, congrFun hproc, hempty, hlog⟩

/-- The others report, the root collects. -/
theorem run_reports (hnodup : ranks.Nodup) (hranks : ∀ r, r ∈ ranks)
    {heard : R → Proc R (Tag R) M α} (hchan : ∀ src dst tag, s.chan src dst tag = [])
    (hroot : LocalRun (s.proc root) (collected ranks root ok) (kroot (ranks.map ok)))
    (hothers : ∀ r, r ≠ root → LocalRun (s.proc r) [.sent root .gather (ok r)] (heard r)) :
    ∃ u n, Run s u n ∧ (∀ r, u.proc r = if r = root then kroot (ranks.map ok) else heard r) ∧
      (∀ src dst tag, u.chan src dst tag = []) ∧
      ∀ r, u.log r = s.log r ++ if r = root then collected ranks root ok
        else [.sent root .gather (ok r)] := by
  have hrun : ∀ r, LocalRun (s.proc r)
      (if r = root then collected ranks root ok else [.sent root .gather (ok r)])
      (if r = root then kroot (ranks.map ok) else heard r) := by
    intro r
    by_cases hr : r = root
    · subst hr
      simpa using hroot
    · simpa only [if_neg hr] using hothers r hr
  obtain ⟨u, n, hu, hproc, hempty, hlog⟩ := run_oneWay (· ≠ root) hrun
    (fun r hr src tag => by rw [if_neg hr, recvsFrom_cons_sent, recvsFrom_nil])
    (fun r hr dst tag => by rw [if_pos (not_not.mp hr), sendsTo_collected])
    (fun x y tag => by
      by_cases hx : x = root
      · by_cases hy : y = root <;>
          simp [hx, hy, sendsTo_collected, recvsFrom_collected hnodup hranks, recvsFrom_cons_sent]
      · by_cases hy : y = root
        · simp [hx, hy, recvsFrom_collected hnodup hranks, sendsTo_cons_sent, eq_comm]
        · simp [hx, hy, Ne.symm hy, sendsTo_cons_sent, recvsFrom_cons_sent])
    hchan
  exact ⟨u, n, hu, congrFun hproc, hempty, hlog⟩

/-- The root resends, the ranks that wait for it receive. -/
theorem run_resends (hnodup : ranks.Nodup) (hranks : ∀ r, r ∈ ranks)
    (hchan : ∀ src dst tag, s.chan src dst tag = [])
    (hroot : LocalRun (s.proc root) (resends ranks root needs data) (.ret (a root)))
    (hothers : ∀ r, r ≠ root → LocalRun (s.proc r) (repaired root needs data r) (.ret (a r))) :
    ∃ u n, Run s u n ∧ (∀ r, u.proc r = .ret (a r)) ∧
      (∀ src dst tag, u.chan src dst tag = []) ∧
      ∀ r, u.log r = s.log r ++ if r = root then resends ranks root needs data
        else repaired root needs data r := by
  have hrun : ∀ r, LocalRun (s.proc r)
      (if r = root then resends ranks root needs data else repaired root needs data r)
      (.ret (a r)) := by
    intro r
    by_cases hr : r = root
    · subst hr
      simpa using hroot
    · simpa only [if_neg hr] using hothers r hr
  obtain ⟨u, n, hu, hproc, hempty, hlog⟩ := run_oneWay (· = root) hrun
    (fun r hr src tag => by rw [if_pos hr, recvsFrom_resends])
    (fun r hr dst tag => by rw [if_neg hr, sendsTo_repaired])
    (fun x y tag => by
      by_cases hx : x = root <;> by_cases hy : y = root <;>
        simp [hx, hy, sendsTo_resends hnodup hranks, recvsFrom_resends, recvsFrom_repaired,
          sendsTo_repaired])
    hchan
  exact ⟨u, n, hu, congrFun hproc, hempty, hlog⟩

end Rounds

/-- The outcome of a broadcast with selective retransmission, with all messages between
    two ranks. -/
theorem retransmission_outcome [Fintype R] (hnodup : ranks.Nodup) (hranks : ∀ r, r ∈ ranks)
    (hchan : ∀ src dst tag, s.chan src dst tag = []) (hlog : ∀ r, s.log r = [])
    (hroot : LocalRun (s.proc root) (announcements ranks root msgs)
      (gather ranks root root .gather (ok root) kroot))
    (hothers : ∀ r, r ≠ root →
      LocalRun (s.proc r) (reported root msgs (ok r)) (k r []))
    (hresend : LocalRun (kroot (ranks.map ok)) (resends ranks root needs data) (.ret (a root)))
    (hfinish : ∀ r, r ≠ root → LocalRun (k r []) (repaired root needs data r) (.ret (a r))) :
    ∃ t, Outcome s t a ∧ ∀ r, t.log r =
      if r = root then
        announcements ranks root msgs ++ collected ranks root ok ++ resends ranks root needs data
      else reported root msgs (ok r) ++ repaired root needs data r := by
  -- the others' part up to the verdict is the end of the first round and the second one
  have hsplit : ∀ r, ∃ heard, r ≠ root →
      LocalRun (s.proc r) (msgs.map fun m => .received root .bcast m) heard ∧
        LocalRun heard [.sent root .gather (ok r)] (k r []) := by
    intro r
    by_cases hr : r = root
    · exact ⟨s.proc r, fun h => absurd hr h⟩
    · obtain ⟨heard, h⟩ := (hothers r hr).split
      exact ⟨heard, fun _ => h⟩
  choose heard hheard using hsplit
  obtain ⟨s₁, n₁, hrun₁, hproc₁, hchan₁, hlog₁⟩ := run_announcements hnodup hranks hchan hroot
    fun r hr => (hheard r hr).1
  have hroot₁ : LocalRun (s₁.proc root) (collected ranks root ok) (kroot (ranks.map ok)) := by
    rw [hproc₁, if_pos rfl]
    exact localRun_gather_root ranks root _ ok kroot
  have hothers₁ : ∀ r, r ≠ root →
      LocalRun (s₁.proc r) [.sent root .gather (ok r)] (k r []) := by
    intro r hr
    rw [hproc₁, if_neg hr]
    exact (hheard r hr).2
  obtain ⟨s₂, n₂, hrun₂, hproc₂, hchan₂, hlog₂⟩ :=
    run_reports hnodup hranks hchan₁ hroot₁ hothers₁
  have hroot₂ : LocalRun (s₂.proc root) (resends ranks root needs data) (.ret (a root)) := by
    rw [hproc₂, if_pos rfl]
    exact hresend
  have hothers₂ : ∀ r, r ≠ root →
      LocalRun (s₂.proc r) (repaired root needs data r) (.ret (a r)) := by
    intro r hr
    rw [hproc₂, if_neg hr]
    exact hfinish r hr
  obtain ⟨t, n₃, hrun₃, hproc₃, hchan₃, hlog₃⟩ :=
    run_resends hnodup hranks hchan₂ hroot₂ hothers₂
  refine ⟨t, ⟨⟨_, (hrun₁.trans hrun₂).trans hrun₃⟩, hproc₃, hchan₃⟩, fun r => ?_⟩
  rw [hlog₃, hlog₂, hlog₁, hlog, List.nil_append]
  by_cases hr : r = root
  · simp only [if_pos hr]
  · simp only [if_neg hr, reported]

end Outcome

end MpiApps.MessagePassing
