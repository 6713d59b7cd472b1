/-
  MpiApps.Transfer.BcastBytewise

  A broadcast of doubles with the bytewise codec (`CT` 1).

  The root broadcasts the number of literals, the literals, and, if there are letters, the
  letters with their displacements.  Every rank merges them again.  The merge reads behind
  the displacements unless there are no letters, in which case `-1` takes their place, or the
  last element has one; within the arrays all ranks replay the same decisions
  (`bcastBytewise_outcome`).
-/

import MpiApps.Codec.BytewiseReads
import MpiApps.Fault.BcastAbft
import MpiApps.Lib.Collectives

namespace MpiApps.Transfer

open MpiApps.BinaryFormat MpiApps.Codec MpiApps.Fault MpiApps.MessagePassing

/-! ## The code -/

/-- `array_double_len` and the members of `struct vector`. -/
inductive ByteWire
  | arrayDoubleLen (len : Nat)
  | pData (xs : List (BitVec 64))
  | cData (cs : List Letter)
  | disp (js : List Int)

/-- `myCompress_double`, in double arithmetic. -/
def compressedArrays (eb : ErrorBound) (buffer : List (BitVec 64)) : ByteArrays (BitVec 64) :=
  myCompressDouble (FloatArith.ieee double eb) buffer

/-- `myDecompress_double`, in double arithmetic. -/
def decompressedArrays (eb : ErrorBound) (msg : ByteArrays (BitVec 64)) (past : Int) (num : Nat) :
    Except Fault (List (BitVec 64)) :=
  myDecompressDouble (FloatArith.ieee double eb) msg past num

section Code

variable {R : Type} [DecidableEq R]

/-- `buffer` on return.  `past` is the integer that a rank finds behind its displacements. -/
def mergeHere (eb : ErrorBound) (past : Int) (root rank : R) (buffer : List (BitVec 64))
    (msg : ByteArrays (BitVec 64)) : Proc R (Tag R) ByteWire (List (BitVec 64)) :=
  match decompressedArrays eb msg past buffer.length with
  | .ok decompressedData => .ret (if rank = root then buffer else decompressedData)
  | .error _ => .abort

/-- The branch of `CT` 1 at one rank. -/
def bcastBytewise (eb : ErrorBound) (past : Int) (ranks : List R) (root rank : R)
    (buffer : List (BitVec 64)) : Proc R (Tag R) ByteWire (List (BitVec 64)) :=
  let own : ByteArrays (BitVec 64) :=
    if rank = root then compressedArrays eb buffer else ⟨[], [], []⟩
  bcast ranks root rank .bcast (.arrayDoubleLen own.arrayDouble.length) fun
    | .arrayDoubleLen numP =>
      let numC := buffer.length - numP
      bcast ranks root rank .bcast (.pData own.arrayDouble) fun
        | .pData pData =>
          -- the letter 'z' next to the displacement -1 is never read
          if numC = 0 then mergeHere eb past root rank buffer ⟨pData, [], [-1]⟩
          else
            bcast ranks root rank .bcast (.cData own.arrayChar) fun
              | .cData cData =>
                bcast ranks root rank .bcast (.disp own.arrayCharDisplacement) fun
                  | .disp disp => mergeHere eb past root rank buffer ⟨pData, cData, disp⟩
                  | _ => .abort
              | _ => .abort
        | _ => .abort
    | _ => .abort

end Code

/-! ## The merge -/

section Merge

variable {fmt : Format} {V : Type} (A : FloatArith fmt V) {ps : List (V × Option Letter)}
  {js : List Int} {past : Int}

theorem replayStep_length {data data' : List V} {p : V × Option Letter}
    (h : replayStep A data p = .ok data') : data'.length = data.length + 1 := by
  obtain ⟨v, code⟩ := p
  cases code with
  | none =>
      cases h
      simp
  | some t =>
      rw [replayStep_letter] at h
      cases hw : extrapolate A data data.length t with
      | error f => rw [hw] at h; cases h
      | ok w =>
          rw [hw] at h
          cases h
          simp

theorem foldlM_replayStep_length {data data' : List V}
    (h : ps.foldlM (replayStep A) data = .ok data') : data'.length = data.length + ps.length := by
  induction ps generalizing data with
  | nil =>
      cases h
      rfl
  | cons p ps ih =>
      rw [List.foldlM_cons] at h
      obtain ⟨mid, hmid, h⟩ := bind_eq_ok h
      rw [ih h, replayStep_length A hmid, List.length_cons]
      omega

/-- Run lemma: while the displacements lead the merge it replays the decisions. -/
theorem cursorsAt_eq_replay {n : Nat} (hn : n ≤ ps.length)
    (hpoints : ∀ i < n, PointsAt ps js past i) :
    cursorsAt A ⟨verbatim ps, letters ps, js⟩ past n =
      ((ps.take n).foldlM (replayStep A) []).map (cursorsBehind ps n) := by
  induction n with
  | zero => rfl
  | succ n ih =>
      have hrun := ih (by omega) fun i hi => hpoints i (by omega)
      have hp : ps[n]? = some ps[n] := List.getElem?_eq_getElem (by omega)
      have hreplay : (ps.take (n + 1)).foldlM (replayStep A) [] =
          (ps.take n).foldlM (replayStep A) [] >>= fun data => replayStep A data ps[n] := by
        rw [take_succ_getElem? hp, List.foldlM_append]
        congr 1
        funext data
        rw [List.foldlM_cons]
        cases replayStep A data ps[n] <;> rfl
      have hstep : cursorsAt A ⟨verbatim ps, letters ps, js⟩ past (n + 1) =
          cursorsAt A ⟨verbatim ps, letters ps, js⟩ past n >>= fun s =>
            decompressBytesStep A ⟨verbatim ps, letters ps, js⟩ past s n := by
        rw [cursorsAt, List.range_succ, List.foldlM_append]
        congr 1
        funext s
        rw [List.foldlM_cons]
        cases decompressBytesStep A ⟨verbatim ps, letters ps, js⟩ past s n <;> rfl
      rw [hstep, hrun, hreplay]
      cases hdata : (ps.take n).foldlM (replayStep A) [] with
      | error f => rfl
      | ok data =>
          have hlen := foldlM_replayStep_length A hdata
          rw [List.length_take, Nat.min_eq_left (by omega), List.length_nil, Nat.zero_add] at hlen
          exact decompressBytesStep_eq A hp (hpoints n (by omega)) data hlen

theorem decompressBytes_eq_replay (hpoints : ∀ i < ps.length, PointsAt ps js past i) :
    decompressBytes A ⟨verbatim ps, letters ps, js⟩ past ps.length =
      ps.foldlM (replayStep A) [] := by
  have h := cursorsAt_eq_replay A (Nat.le_refl _) hpoints
  rw [List.take_length] at h
  change cursorsAt A ⟨verbatim ps, letters ps, js⟩ past ps.length >>= _ = _
  rw [h]
  cases ps.foldlM (replayStep A) [] <;> rfl

/-- What every rank merges: the arrays of the root, or `-1` for the displacements if there are
    no letters. -/
def withMarker (arrays : ByteArrays V) : ByteArrays V :=
  if arrays.arrayChar = [] then { arrays with arrayCharDisplacement := [-1] } else arrays

/-- The decisions of the compressor, replayed. -/
def replayed (data : List (BitVec fmt.numBits)) : Except Fault (List V) :=
  (byteCodes A (ByteHistory.init A) data).foldlM (replayStep A) []

theorem replayed_length {data : List (BitVec fmt.numBits)} {d : List V}
    (h : replayed A data = .ok d) : d.length = data.length := by
  have hlen := foldlM_replayStep_length A h
  rwa [byteCodes_length, List.length_nil, Nat.zero_add] at hlen

/-- The marked arrays lead the merge if the last element has a letter or no element has one. -/
theorem withMarker_pointsAt
    (h : ∀ j < ps.length, (letters (ps.take j)).length < (letters ps).length ∨ letters ps = [])
    (past : Int) : ∃ js, withMarker ⟨verbatim ps, letters ps, displacements 0 ps⟩ =
      ⟨verbatim ps, letters ps, js⟩ ∧ ∀ i < ps.length, PointsAt ps js past i := by
  by_cases hnil : letters ps = []
  · refine ⟨[-1], by simp only [withMarker, hnil, if_true], fun i _ => ?_⟩
    have hdisp : displacements 0 ps = [] := displacements_eq_nil_iff.mpr hnil
    have hp := @pointsAt_displacements _ ps past [-1] i (.inr (.inr (by simp)))
    rwa [hdisp] at hp
  · exact ⟨displacements 0 ps, by simp only [withMarker, hnil, if_false],
      fun i hi => pointsAt_of_left (h i hi)⟩

variable {A}

/-- Within the arrays the merge is the replay, whatever lies behind the displacements. -/
theorem merge_eq_replayed (hneg : History.unset A (A.ofInt (-1)) = true)
    {data : List (BitVec fmt.numBits)} (h : LettersToTheEnd A data) (past : Int) :
    decompressBytes A (withMarker (compressBytes A data)) past data.length = replayed A data ∧
      ∃ d, replayed A data = .ok d ∧ d.length = data.length := by
  have hlen := byteCodes_length A (ByteHistory.init A) data
  have hfour : ∀ i p, (byteCodes A (ByteHistory.init A) data)[i]? = some p → p.2 ≠ none → 4 ≤ i :=
    fun i p => four_le_of_letter A hneg
  have hinside := (readsInside_compressBytes_iff A hneg past).mpr h
  rw [compressBytes_eq, ← hlen] at hinside
  obtain ⟨js, hjs, hpoints⟩ :=
    withMarker_pointsAt (letter_left ((readsInside_decisions_iff A hfour).mp hinside)) past
  have hreplay := cursorsAt_eq_replay A (Nat.le_refl _) hpoints
  rw [List.take_length] at hreplay
  obtain ⟨data', hrun, -⟩ := cursorsAt_eq A (Nat.le_refl _) hpoints hfour
  rw [compressBytes_eq, hjs]
  refine ⟨hlen ▸ decompressBytes_eq_replay A hpoints, ?_⟩
  cases hd : replayed A data with
  | error f =>
      rw [← replayed, hd] at hreplay
      rw [hreplay] at hrun
      cases hrun
  | ok d => exact ⟨d, rfl, replayed_length A hd⟩

end Merge

/-! ## The broadcast -/

section Broadcast

variable {n : Nat} {eb : ErrorBound} {root : Fin n} {buffers : Fin n → List (BitVec 64)}

/-- Arrays of which every entry that the merge reads is there. -/
def MergesInside (eb : ErrorBound) (buffer : List (BitVec 64)) : Prop :=
  @LettersToTheEnd double _ (FloatArith.ieee double eb) buffer

/-- What a rank merges. -/
def mergedAs (eb : ErrorBound) (buffer : List (BitVec 64)) : Except Fault (List (BitVec 64)) :=
  @replayed double _ (FloatArith.ieee double eb) buffer

theorem mergedAs_length {buffer d : List (BitVec 64)} (h : mergedAs eb buffer = .ok d) :
    d.length = buffer.length := replayed_length _ h

theorem decompressedArrays_eq {buffer : List (BitVec 64)} (h : MergesInside eb buffer)
    (past : Int) :
    decompressedArrays eb (withMarker (compressedArrays eb buffer)) past buffer.length =
        mergedAs eb buffer ∧ ∃ d, mergedAs eb buffer = .ok d ∧ d.length = buffer.length :=
  merge_eq_replayed (unset_marker eb).1 h past

theorem compressedArrays_length (eb : ErrorBound) (buffer : List (BitVec 64)) :
    (compressedArrays eb buffer).arrayDouble.length +
      (compressedArrays eb buffer).arrayChar.length = buffer.length :=
  (@compressBytes_length double _ (FloatArith.ieee double eb) buffer).1

/-- Every rank returns with the replay of the root's decisions, and the root with its own
    data. -/
theorem bcastBytewise_outcome (past : Fin n → Int)
    (hbuffers : ∀ r, (buffers r).length = (buffers root).length)
    (hinside : MergesInside eb (buffers root)) {d : List (BitVec 64)}
    (hd : mergedAs eb (buffers root) = .ok d) :
    ∃ t, Outcome (Sys.start fun r => bcastBytewise eb (past r) (List.finRange n) root r
      (buffers r)) t fun r => if r = root then buffers root else d := by
  refine Reaches.outcome ?_ rfl fun _ _ _ => rfl
  have hreturn : (fun r => mergeHere eb (past r) root r (buffers r)
        (withMarker (compressedArrays eb (buffers root))) :
      Fin n → Proc (Fin n) (Tag (Fin n)) ByteWire (List (BitVec 64))) =
      fun r => .ret (if r = root then buffers root else d) := by
    funext r
    rw [mergeHere, hbuffers r, (decompressedArrays_eq hinside (past r)).1, hd]
    by_cases hr : r = root
    · subst hr
      rfl
    · simp only [if_neg hr]
  refine (reaches_bcast (List.nodup_finRange n) List.mem_finRange root _ _ _).trans ?_
  refine (reaches_bcast (List.nodup_finRange n) List.mem_finRange root _ _ _).trans ?_
  have hlen := compressedArrays_length eb (buffers root)
  simp only [if_true, hbuffers]
  rw [← hreturn]
  by_cases hnil : (compressedArrays eb (buffers root)).arrayChar = []
  · have hnum : (buffers root).length -
        (compressedArrays eb (buffers root)).arrayDouble.length = 0 := by
      rw [hnil, List.length_nil] at hlen
      omega
    simp only [hnum, if_true, withMarker, hnil]
    exact .refl _
  · have hnum : (buffers root).length -
        (compressedArrays eb (buffers root)).arrayDouble.length ≠ 0 := by
      have := List.length_pos_iff.mpr hnil
      omega
    simp only [hnum, if_false, withMarker, hnil]
    refine (reaches_bcast (List.nodup_finRange n) List.mem_finRange root _ _ _).trans ?_
    refine (reaches_bcast (List.nodup_finRange n) List.mem_finRange root _ _ _).trans ?_
    simp only [if_true]
    exact .refl _

end Broadcast

end MpiApps.Transfer
