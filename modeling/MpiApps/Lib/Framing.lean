/-
  MpiApps.Lib.Framing

  Readers that cut a symbol stream into words on the fly.

  A framing rule looks at the symbols collected so far for the current word
  and says one of three things: the word goes on, the word is finished, or the
  word is finished but is only handed over when one further symbol shows up.
  The third answer is what makes the end of a stream delicate: a last word of
  that kind is lost unless something follows it.

  `Rule.frames_flatten_iff` characterises exactly when the reader recovers a
  given list of words from their concatenation followed by padding.
-/

import Mathlib.Data.List.Basic
import Mathlib.Tactic.Common

namespace MpiApps.Framing

variable {α : Type*}

/-- What a rule says about the symbols collected for the current word. -/
inductive Status
  | more
  | done
  | doneAtNext
  deriving DecidableEq, Repr

/-- A framing rule: a status for every partial word, the empty one being open. -/
structure Rule (α : Type*) where
  status : List α → Status
  status_nil : status [] = .more

/-- The reader: the current partial word and the words handed over so far. -/
structure Reader (α : Type*) where
  cur : List α
  out : List (List α)

namespace Rule

variable (r : Rule α)

/-- Take in one symbol; a word that was only waiting for it is handed over first. -/
def take (s : Reader α) (a : α) : Reader α :=
  if r.status s.cur = .doneAtNext then ⟨[a], s.out ++ [s.cur]⟩ else ⟨s.cur ++ [a], s.out⟩

/-- Hand over the current word if it is finished. -/
def close (s : Reader α) : Reader α :=
  if r.status s.cur = .done then ⟨[], s.out ++ [s.cur]⟩ else s

/-- One symbol of input. -/
def step (s : Reader α) (a : α) : Reader α := r.close (r.take s a)

/-- A whole stretch of input. -/
def run (s : Reader α) (as : List α) : Reader α := as.foldl r.step s

/-- The words handed over while reading a stream from its beginning. -/
def frames (as : List α) : List (List α) := (r.run ⟨[], []⟩ as).out

/-- `w` ends a word under the rule, and none of its proper prefixes does. -/
def Complete (w : List α) : Prop :=
  r.status w ≠ .more ∧ ∀ p, p <+: w → p ≠ w → r.status p = .more

/-- A partial word that the reader can be left with. -/
def Open (cur : List α) : Prop :=
  r.status cur ≠ .done ∧ ∀ p, p <+: cur → p ≠ cur → r.status p = .more

@[simp] theorem run_nil (s : Reader α) : r.run s [] = s := rfl

@[simp] theorem run_cons (s : Reader α) (a : α) (as : List α) :
    r.run s (a :: as) = r.run (r.step s a) as := rfl

theorem run_append (s : Reader α) (as bs : List α) :
    r.run s (as ++ bs) = r.run (r.run s as) bs := by
  simp [run, List.foldl_append]

@[simp] theorem frames_nil : r.frames [] = [] := rfl

variable {r}

theorem Complete.ne_nil {w : List α} (h : r.Complete w) : w ≠ [] := by
  rintro rfl
  exact h.1 r.status_nil

/-- A word is complete if it ends one and no shorter prefix does. -/
theorem Complete.of_shorter {w : List α} (h : r.status w ≠ .more)
    (hp : ∀ p, p <+: w → p.length < w.length → r.status p = .more) : r.Complete w := by
  refine ⟨h, fun p hpw hne => hp p hpw ?_⟩
  exact Nat.lt_of_le_of_ne hpw.length_le fun he => hne (hpw.eq_of_length he)

/-! ## The output only grows -/

theorem step_out (cur : List α) (out : List (List α)) (a : α) :
    r.step ⟨cur, out⟩ a =
      ⟨(r.step ⟨cur, []⟩ a).cur, out ++ (r.step ⟨cur, []⟩ a).out⟩ := by
  unfold step take close
  split <;> dsimp only <;> split <;> simp

theorem run_out (as : List α) (cur : List α) (out : List (List α)) :
    r.run ⟨cur, out⟩ as =
      ⟨(r.run ⟨cur, []⟩ as).cur, out ++ (r.run ⟨cur, []⟩ as).out⟩ := by
  induction as generalizing cur out with
  | nil => simp
  | cons a as ih =>
      rw [run_cons, run_cons, step_out cur out a]
      rw [ih (r.step ⟨cur, []⟩ a).cur (out ++ (r.step ⟨cur, []⟩ a).out)]
      conv_rhs => rw [show r.step ⟨cur, []⟩ a =
        ⟨(r.step ⟨cur, []⟩ a).cur, (r.step ⟨cur, []⟩ a).out⟩ from rfl, ih]
      simp

/-! ## Reading one complete word -/

/-- While every longer prefix stays open the reader just collects. -/
theorem run_more (w : List α) (cur : List α) (out : List (List α))
    (hcur : r.status cur = .more)
    (h : ∀ p, p <+: w → r.status (cur ++ p) = .more) :
    r.run ⟨cur, out⟩ w = ⟨cur ++ w, out⟩ := by
  induction w generalizing cur with
  | nil => simp
  | cons a w ih =>
      have ha : r.status (cur ++ [a]) = .more := h [a] ⟨w, rfl⟩
      have hstep : r.step ⟨cur, out⟩ a = ⟨cur ++ [a], out⟩ := by
        simp [step, take, close, hcur, ha]
      rw [run_cons, hstep, ih (cur ++ [a]) ha]
      · simp
      · intro p hp
        have := h (a :: p) (by simpa using hp)
        simpa using this

/-- Reading a complete word from the start of a word. -/
theorem run_complete {w : List α} (h : r.Complete w) (out : List (List α)) :
    r.run ⟨[], out⟩ w = r.close ⟨w, out⟩ := by
  obtain ⟨v, a, rfl⟩ : ∃ v a, w = v ++ [a] :=
    ⟨w.dropLast, w.getLast h.ne_nil, (List.dropLast_append_getLast h.ne_nil).symm⟩
  have hpre : ∀ p, p <+: v → r.status p = .more := by
    intro p hp
    refine h.2 p (hp.trans (List.prefix_append v [a])) ?_
    rintro rfl
    have hlen := hp.length_le
    rw [List.length_append, List.length_singleton] at hlen
    omega
  have hv : r.status v = .more := hpre v (List.prefix_refl v)
  rw [run_append, run_more v [] out r.status_nil (by simpa using hpre)]
  simp [step, take, hv]

/-- A word that waits for its next symbol is handed over by it, and that symbol
    then starts the next word. -/
theorem step_doneAtNext {w : List α} (h : r.status w = .doneAtNext)
    (out : List (List α)) (a : α) :
    r.step ⟨w, out⟩ a = r.step ⟨[], out ++ [w]⟩ a := by
  simp [step, take, h, r.status_nil]

/-- A complete word at the head of a stream is the first frame, unless it waits
    for a symbol that never comes. -/
theorem frames_append {w : List α} (h : r.Complete w) (rest : List α) :
    r.frames (w ++ rest) =
      if r.status w = .doneAtNext ∧ rest = [] then [] else w :: r.frames rest := by
  have key : ∀ as, (r.run ⟨[], [w]⟩ as).out = w :: r.frames as := by
    intro as
    rw [run_out]
    rfl
  rw [frames, run_append, run_complete h]
  by_cases hd : r.status w = .done
  · simp [close, hd, key]
  · have hn : r.status w = .doneAtNext := by
      have h1 := h.1
      revert hd h1
      cases r.status w <;> simp
    cases rest with
    | nil => simp [close, hn]
    | cons a as =>
        simp only [close, hn, reduceCtorEq, if_false, and_false]
        rw [run_cons, step_doneAtNext hn, ← run_cons, List.nil_append, key]

/-! ## The rest of a word -/

/-- `v` is what is missing of a complete word that starts with `u`. -/
def CompleteFrom (r : Rule α) (u v : List α) : Prop :=
  r.status (u ++ v) ≠ .more ∧ ∀ p, p <+: v → p ≠ v → r.status (u ++ p) = .more

theorem complete_iff_completeFrom_nil {w : List α} : r.Complete w ↔ r.CompleteFrom [] w := Iff.rfl

/-- A word that has ended misses nothing. -/
theorem completeFrom_of_ended {u v : List α} (h : r.status u ≠ .more) :
    r.CompleteFrom u v ↔ v = [] := by
  constructor
  · intro hc
    by_contra hne
    have hu := hc.2 [] List.nil_prefix (Ne.symm hne)
    rw [List.append_nil] at hu
    exact h hu
  · rintro rfl
    refine ⟨by rwa [List.append_nil], fun p hp hne => ?_⟩
    exact absurd (List.prefix_nil.mp hp) hne

/-- While the word stays open, what has been read moves from the rest to the beginning. -/
theorem completeFrom_append {u v t : List α}
    (h : ∀ p, p <+: v → p ≠ v → r.status (u ++ p) = .more) :
    r.CompleteFrom u (v ++ t) ↔ r.CompleteFrom (u ++ v) t := by
  constructor
  · rintro ⟨hst, hpre⟩
    refine ⟨by rwa [List.append_assoc], fun p hp hne => ?_⟩
    rw [List.append_assoc]
    exact hpre (v ++ p) ((List.prefix_append_right_inj v).mpr hp)
      fun heq => hne (List.append_cancel_left heq)
  · rintro ⟨hst, hpre⟩
    refine ⟨by rwa [List.append_assoc] at hst, fun p hp hne => ?_⟩
    rcases List.prefix_or_prefix_of_prefix hp (List.prefix_append v t) with hpv | hvp
    · -- no prefix inside v ends the frame, and what is past v is a prefix of t
      by_cases hpe : p = v
      · have ht : t ≠ [] := by
          rintro rfl
          exact hne (by rw [hpe, List.append_nil])
        have hu := hpre [] List.nil_prefix ht.symm
        rw [hpe]
        rwa [List.append_nil] at hu
      · exact h p hpv hpe
    · obtain ⟨q, rfl⟩ := hvp
      rw [← List.append_assoc]
      exact hpre q ((List.prefix_append_right_inj v).mp hp) fun heq => hne (by rw [heq])

/-- A word stays open if it does so after each of its prefixes. -/
theorem not_completeFrom {u v : List α} (h : r.status (u ++ v) = .more) :
    ¬ r.CompleteFrom u v := fun hc => hc.1 h

/-! ## One symbol in an open word -/

/-- No prefix of an open word is a complete one. -/
theorem Open.status_prefix_ne_done {cur p : List α} (h : r.Open cur) (hp : p <+: cur) :
    r.status p ≠ .done := by
  intro hdone
  by_cases heq : p = cur
  · exact h.1 (heq ▸ hdone)
  · rw [h.2 p hp heq] at hdone
    cases hdone

/-- A proper prefix of an open word goes on. -/
theorem Open.eq_of_status_ne_more {cur p : List α} (h : r.Open cur) (hp : p <+: cur)
    (hst : r.status p ≠ .more) : p = cur := by
  by_contra hne
  exact hst (h.2 p hp hne)

theorem open_nil : r.Open [] := by
  refine ⟨by simp [r.status_nil], fun p hp hne => ?_⟩
  exact absurd (List.prefix_nil.mp hp) hne

theorem Open.concat {cur : List α} (h : r.Open cur) (hm : r.status cur = .more) (a : α) :
    ∀ p, p <+: cur ++ [a] → p ≠ cur ++ [a] → r.status p = .more := by
  intro p hp hne
  rcases List.prefix_concat_iff.mp hp with rfl | hp'
  · exact absurd rfl hne
  · by_cases hpc : p = cur
    · exact hpc ▸ hm
    · exact h.2 p hp' hpc

/-- What one symbol does to an open word: a waiting word is handed over first,
    and the symbol then closes the word it is appended to or leaves it open. -/
theorem Open.step_cases {cur : List α} (h : r.Open cur) (a : α) :
    (r.status cur = .doneAtNext ∧ r.Complete cur ∧
      r.step ⟨cur, []⟩ a = r.step ⟨[], [cur]⟩ a) ∨
    (r.status cur = .more ∧ r.status (cur ++ [a]) = .done ∧ r.Complete (cur ++ [a]) ∧
      r.step ⟨cur, []⟩ a = ⟨[], [cur ++ [a]]⟩) ∨
    (r.status cur = .more ∧ r.Open (cur ++ [a]) ∧ r.step ⟨cur, []⟩ a = ⟨cur ++ [a], []⟩) := by
  by_cases hn : r.status cur = .doneAtNext
  · exact .inl ⟨hn, ⟨by simp [hn], h.2⟩, step_doneAtNext hn [] a⟩
  · have hm : r.status cur = .more := by
      have h1 := h.1
      revert h1 hn
      cases r.status cur <;> simp
    have hpre := h.concat hm a
    by_cases hd : r.status (cur ++ [a]) = .done
    · exact .inr (.inl ⟨hm, hd, ⟨by simp [hd], hpre⟩, by simp [step, take, close, hm, hd]⟩)
    · exact .inr (.inr ⟨hm, ⟨hd, hpre⟩, by simp [step, take, close, hm, hd]⟩)

/-- The word left over after a symbol is open again. -/
theorem Open.step {cur : List α} (h : r.Open cur) (a : α) : r.Open (r.step ⟨cur, []⟩ a).cur := by
  rcases h.step_cases a with ⟨_, _, hs⟩ | ⟨_, _, _, hs⟩ | ⟨_, ho, hs⟩
  · rw [hs, step_out]
    rcases (open_nil (r := r)).step_cases a with ⟨hn, _⟩ | ⟨_, _, _, hs'⟩ | ⟨_, ho', hs'⟩
    · simp [r.status_nil] at hn
    · rw [hs']
      exact open_nil
    · rw [hs']
      exact ho'
  · rw [hs]
    exact open_nil
  · rw [hs]
    exact ho

/-- The word left over after any stretch of input is open. -/
theorem Open.run {cur : List α} (h : r.Open cur) (as : List α) :
    r.Open (r.run ⟨cur, []⟩ as).cur := by
  induction as generalizing cur with
  | nil => exact h
  | cons a as ih =>
      have hstep : r.Open (r.step ⟨cur, []⟩ a).cur := h.step a
      rw [run_cons, show r.step ⟨cur, []⟩ a =
        ⟨(r.step ⟨cur, []⟩ a).cur, (r.step ⟨cur, []⟩ a).out⟩ from rfl, run_out]
      exact ih hstep

/-- If no word is complete after one symbol, a symbol hands over at most one word. -/
theorem Open.step_out_length {cur : List α} (h : r.Open cur) (hone : ∀ a, r.status [a] ≠ .done)
    (a : α) : (r.step ⟨cur, []⟩ a).out.length ≤ 1 := by
  rcases h.step_cases a with ⟨_, _, hs⟩ | ⟨_, _, _, hs⟩ | ⟨_, _, hs⟩
  · have hnil : (r.step ⟨[], []⟩ a).out = [] := by
      simp [Rule.step, take, close, r.status_nil, hone a]
    rw [hs, step_out, hnil]
    exact Nat.le_refl 1
  · rw [hs]
    exact Nat.le_refl 1
  · rw [hs]
    exact Nat.zero_le 1

/-! ## The first word handed over is complete -/

theorem head_frame_aux (as : List α) (cur : List α) (hcur : r.Open cur) {w : List α}
    {ws : List (List α)} (h : (r.run ⟨cur, []⟩ as).out = w :: ws) : r.Complete w := by
  induction as generalizing cur with
  | nil => simp at h
  | cons a as ih =>
      rw [run_cons] at h
      rcases hcur.step_cases a with ⟨_, hw, hs⟩ | ⟨_, _, hw, hs⟩ | ⟨_, ho, hs⟩
      · rw [hs, ← run_cons, run_out] at h
        simp only [List.cons_append, List.nil_append, List.cons.injEq] at h
        exact h.1 ▸ hw
      · rw [hs, run_out] at h
        simp only [List.cons_append, List.nil_append, List.cons.injEq] at h
        exact h.1 ▸ hw
      · rw [hs] at h
        exact ih (cur ++ [a]) ho h

/-- Whatever the stream, the first word handed over is complete. -/
theorem complete_of_frames_eq_cons {as w : List α} {ws : List (List α)}
    (h : r.frames as = w :: ws) : r.Complete w :=
  head_frame_aux as [] open_nil h

/-- Whatever the stream, every word handed over is complete. -/
theorem complete_of_mem_run {as cur w : List α} (hcur : r.Open cur)
    (h : w ∈ (r.run ⟨cur, []⟩ as).out) : r.Complete w := by
  induction as generalizing cur with
  | nil => simp at h
  | cons a as ih =>
      have hstep : r.Open (r.step ⟨cur, []⟩ a).cur := hcur.step a
      rw [run_cons, show r.step ⟨cur, []⟩ a =
        ⟨(r.step ⟨cur, []⟩ a).cur, (r.step ⟨cur, []⟩ a).out⟩ from rfl, run_out] at h
      rcases List.mem_append.mp h with h | h
      · -- the step may close the pending frame and a one-symbol frame after it
        rcases hcur.step_cases a with ⟨_, hw, hs⟩ | ⟨_, _, hw, hs⟩ | ⟨_, _, hs⟩
        · rw [hs, step_out] at h
          rcases List.mem_append.mp h with h | h
          · exact List.mem_singleton.mp h ▸ hw
          · rcases (open_nil (r := r)).step_cases a with ⟨hn, _⟩ | ⟨_, _, hw', hs'⟩ | ⟨_, _, hs'⟩
            · simp [r.status_nil] at hn
            · rw [hs'] at h
              exact List.mem_singleton.mp h ▸ hw'
            · simp [hs'] at h
        · rw [hs] at h
          exact List.mem_singleton.mp h ▸ hw
        · simp [hs] at h
      · exact ih hstep h

theorem complete_of_mem_frames {as w : List α} (h : w ∈ r.frames as) : r.Complete w :=
  complete_of_mem_run open_nil h

/-! ## No symbol is lost or invented -/

theorem step_flatten (s : Reader α) (a : α) :
    (r.step s a).out.flatten ++ (r.step s a).cur = s.out.flatten ++ s.cur ++ [a] := by
  unfold step take close
  split <;> dsimp only <;> split <;> simp

/-- The words handed over and the one left over make up the input. -/
theorem run_flatten (s : Reader α) (as : List α) :
    (r.run s as).out.flatten ++ (r.run s as).cur = s.out.flatten ++ s.cur ++ as := by
  induction as generalizing s with
  | nil => simp
  | cons a as ih =>
      rw [run_cons, ih, step_flatten]
      simp

/-- If every complete word has `k` symbols, there is a word for every `k` symbols at most. -/
theorem mul_frames_length_le {k : Nat} (hk : ∀ w, r.Complete w → k ≤ w.length) (as : List α) :
    k * (r.frames as).length ≤ as.length := by
  have hlen : ∀ ws : List (List α), (∀ w ∈ ws, k ≤ w.length) →
      k * ws.length ≤ ws.flatten.length := by
    intro ws
    induction ws with
    | nil => simp
    | cons w ws ih =>
        intro hne
        have hw := hne w (by simp)
        have hws := ih fun v hv => hne v (by simp [hv])
        rw [List.length_cons, List.flatten_cons, List.length_append, Nat.mul_succ]
        omega
  have hflat := congrArg List.length (run_flatten (r := r) ⟨[], []⟩ as)
  simp only [List.length_append, List.flatten_nil, List.nil_append] at hflat
  have hcount := hlen (r.frames as) fun w hw => hk w (complete_of_mem_frames hw)
  unfold frames at hcount ⊢
  omega

/-- There are no more words than symbols. -/
theorem frames_length_le (as : List α) : (r.frames as).length ≤ as.length := by
  have h := mul_frames_length_le (r := r) (fun _ hw => List.length_pos_of_ne_nil hw.ne_nil) as
  omega

/-- A stream hands over nothing if no complete word is at its beginning, but for one that
    waits for a symbol at its end. -/
theorem frames_eq_nil_iff {as : List α} :
    r.frames as = [] ↔ ∀ w rest, as = w ++ rest → r.Complete w →
      r.status w = .doneAtNext ∧ rest = [] := by
  constructor
  · rintro h w rest rfl hw
    rw [frames_append hw] at h
    by_contra hne
    rw [if_neg hne] at h
    cases h
  · intro h
    cases hf : r.frames as with
    | nil => rfl
    | cons w ws =>
        have hw := complete_of_frames_eq_cons hf
        -- the frame and what follows it are the whole input again
        have hflat := run_flatten (r := r) ⟨[], []⟩ as
        rw [show (r.run ⟨[], []⟩ as).out = w :: ws from hf, List.flatten_cons, List.flatten_nil,
          List.append_assoc, List.nil_append, List.nil_append] at hflat
        have hend := h w _ hflat.symm hw
        rw [← hflat, frames_append hw, if_pos hend] at hf
        cases hf

/-! ## When a list of words is recovered -/

/-- The reader recovers `ws` from their concatenation followed by `pad` exactly
    when every word is complete, a last word that waits for a symbol gets one
    from the padding, and the padding alone hands over nothing. -/
theorem frames_flatten_iff (ws : List (List α)) (pad : List α) :
    r.frames (ws.flatten ++ pad) = ws ↔
      (∀ w ∈ ws, r.Complete w) ∧
      (∀ w, ws.getLast? = some w → r.status w = .doneAtNext → pad ≠ []) ∧
      r.frames pad = [] := by
  induction ws with
  | nil => simp
  | cons w ws ih =>
      rw [List.flatten_cons, List.append_assoc]
      constructor
      · intro h
        have hw : r.Complete w := complete_of_frames_eq_cons h
        rw [frames_append hw] at h
        split at h
        · simp at h
        · rename_i hrest
          obtain ⟨hall, hlast, hpad⟩ := ih.mp (List.cons.inj h).2
          refine ⟨by simpa using ⟨hw, hall⟩, ?_, hpad⟩
          intro v hv hn
          cases ws with
          | nil =>
              obtain rfl : w = v := by simpa using hv
              intro hp
              exact hrest ⟨hn, by simp [hp]⟩
          -- the last frame is the same with w in front
          | cons u us => exact hlast v (by simpa using hv) hn
      · rintro ⟨hall, hlast, hpad⟩
        have hw : r.Complete w := hall w (by simp)
        have htail : r.frames (ws.flatten ++ pad) = ws := by
          refine ih.mpr ⟨fun v hv => hall v (by simp [hv]), ?_, hpad⟩
          intro v hv hn
          cases ws with
          | nil => simp at hv
          | cons u us => exact hlast v (by simpa using hv) hn
        rw [frames_append hw, if_neg, htail]
        rintro ⟨hn, hnil⟩
        obtain ⟨hf, hp⟩ := List.append_eq_nil_iff.mp hnil
        cases ws with
        | nil => exact hlast w (by simp) hn hp
        | cons u us =>
            have hu : r.Complete u := hall u (by simp)
            exact hu.ne_nil (List.flatten_eq_nil_iff.mp hf u (by simp))

/-- Complete words in front of something else all come out. -/
theorem frames_flatten_append {ws : List (List α)} (hall : ∀ w ∈ ws, r.Complete w)
    {rest : List α} (hrest : rest ≠ []) :
    r.frames (ws.flatten ++ rest) = ws ++ r.frames rest := by
  induction ws with
  | nil => rfl
  | cons w ws ih =>
      rw [List.flatten_cons, List.append_assoc, frames_append (hall w List.mem_cons_self),
        if_neg (by simp [hrest]), ih fun v hv => hall v (List.mem_cons_of_mem _ hv)]
      rfl

/-- Words that do not wait for a symbol come out even if nothing follows them. -/
theorem frames_flatten_append_of_done {ws : List (List α)} (hall : ∀ w ∈ ws, r.Complete w)
    (hdone : ∀ w ∈ ws, r.status w ≠ .doneAtNext) (rest : List α) :
    r.frames (ws.flatten ++ rest) = ws ++ r.frames rest := by
  induction ws with
  | nil => rfl
  | cons w ws ih =>
      rw [List.flatten_cons, List.append_assoc, frames_append (hall w List.mem_cons_self),
        if_neg fun h => hdone w List.mem_cons_self h.1,
        ih (fun v hv => hall v (List.mem_cons_of_mem _ hv))
          fun v hv => hdone v (List.mem_cons_of_mem _ hv)]
      rfl

/-- Forward direction for a stream without padding: all words but a waiting last
    one come out, so every frame is one of the words at its own position. -/
theorem frames_flatten_isPrefix (ws : List (List α)) (pad : List α)
    (hall : ∀ w ∈ ws, r.Complete w) (hpad : r.frames pad = []) :
    r.frames (ws.flatten ++ pad) <+: ws := by
  induction ws with
  | nil => simp [hpad]
  | cons w ws ih =>
      rw [List.flatten_cons, List.append_assoc, frames_append (hall w (by simp))]
      split
      · exact List.nil_prefix
      · exact List.cons_prefix_cons.mpr ⟨rfl, ih fun v hv => hall v (by simp [hv])⟩

/-! ## Machines that follow a rule -/

section Machine

variable {S O E : Type*} (step : S → α → Except E S) (emit : O → List α → Except E O)
  (ctl : List α → O → S)

/-- A machine follows the rule `r` when, in the state `ctl cur o` that stands for the
    partial word `cur` and the output `o`, one symbol makes it emit the words that
    the reader hands over and go to the state of the reader's next partial word. -/
def Follows (r : Rule α) : Prop :=
  ∀ cur o a, r.Open cur →
    step (ctl cur o) a =
      ((r.step ⟨cur, []⟩ a).out.foldlM emit o).map (ctl (r.step ⟨cur, []⟩ a).cur)

variable {step emit ctl}

/-- A machine follows a rule if it does so in the three situations that one symbol
    can meet: a waiting word, a word that the symbol completes, a word that it does not. -/
theorem Follows.of_cases
    (hpend : ∀ cur o a, r.Open cur → r.status cur = .doneAtNext →
      step (ctl cur o) a = (emit o cur).bind fun o' => step (ctl [] o') a)
    (hclose : ∀ cur o a, r.Open cur → r.status cur = .more → r.status (cur ++ [a]) = .done →
      step (ctl cur o) a = (emit o (cur ++ [a])).map (ctl []))
    (hgrow : ∀ cur o a, r.Open cur → r.status cur = .more → r.Open (cur ++ [a]) →
      step (ctl cur o) a = .ok (ctl (cur ++ [a]) o)) :
    Follows step emit ctl r := by
  -- a step from a frame still open, also the one after a pending frame was closed
  have hmore : ∀ cur o a, r.Open cur → r.status cur = .more →
      step (ctl cur o) a =
        ((r.step ⟨cur, []⟩ a).out.foldlM emit o).map (ctl (r.step ⟨cur, []⟩ a).cur) := by
    intro cur o a hcur hm
    rcases hcur.step_cases a with ⟨hn, _⟩ | ⟨_, hd, _, hs⟩ | ⟨_, ho, hs⟩
    · simp [hm] at hn
    · rw [hclose cur o a hcur hm hd, hs, List.foldlM_cons]
      cases emit o (cur ++ [a]) <;> rfl
    · rw [hgrow cur o a hcur hm ho, hs]
      rfl
  intro cur o a hcur
  rcases hcur.step_cases a with ⟨hn, _, hs⟩ | ⟨hm, _⟩ | ⟨hm, _⟩
  · rw [hpend cur o a hcur hn, hs, step_out, List.singleton_append, List.foldlM_cons]
    cases emit o cur with
    | error e => rfl
    | ok o' => exact hmore [] o' a open_nil r.status_nil
  · exact hmore cur o a hcur hm
  · exact hmore cur o a hcur hm

/-- Run lemma: over a whole stream the machine emits the frames one by one. -/
theorem Follows.run (h : Follows step emit ctl r) (as : List α) (cur : List α) (o : O)
    (hcur : r.Open cur) :
    as.foldlM step (ctl cur o) =
      ((r.run ⟨cur, []⟩ as).out.foldlM emit o).map (ctl (r.run ⟨cur, []⟩ as).cur) := by
  induction as generalizing cur o with
  | nil => rfl
  | cons a as ih =>
      rw [List.foldlM_cons, h cur o a hcur, run_cons,
        show r.step ⟨cur, []⟩ a =
          ⟨(r.step ⟨cur, []⟩ a).cur, (r.step ⟨cur, []⟩ a).out⟩ from rfl, run_out,
        List.foldlM_append]
      cases (r.step ⟨cur, []⟩ a).out.foldlM emit o with
      | error e => rfl
      | ok o' => exact ih _ o' (hcur.step a)

theorem Follows.run_frames (h : Follows step emit ctl r) (as : List α) (o : O) :
    as.foldlM step (ctl [] o) =
      ((r.frames as).foldlM emit o).map (ctl (r.run ⟨[], []⟩ as).cur) :=
  h.run as [] o open_nil

end Machine

end Rule

end MpiApps.Framing
