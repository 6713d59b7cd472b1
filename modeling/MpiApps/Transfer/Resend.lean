/-
  MpiApps.Transfer.Resend

  Compressed broadcasts that end with a resend.

  The ranks report `crc_ok`, the root sends the payload once more to those that reported
  `'n'`, and these wait for it.  What the ranks do before that differs; a rank decompresses
  what it then holds.  If all ranks that did not report `'n'` hold the payload of the root,
  every run ends with the same outcome (`redelivered`).
-/

import MpiApps.Transfer.BcastCrc

namespace MpiApps.Transfer

open MpiApps.Codec MpiApps.Fault MpiApps.MessagePassing

/-! ## The code -/

section Code

variable {R : Type} [DecidableEq R]

/-- The payload of a rank behind the gather: received once more if its `crc_ok` is `'n'`. -/
def recvAgain (root rank : R) (dataBytes : Nat) (crcOk : Char) (dataBits : List (BitVec 8))
    (k : List (BitVec 8) → Proc R (Tag R) Wire CrcReturn) : Proc R (Tag R) Wire CrcReturn :=
  if crcOk = 'n' then
    .recv root (.user rank) fun
      | .bytes dataBits => k (dataBits.take dataBytes)
      | _ => .abort
  else k dataBits

/-- The end of a broadcast at the root: it resends, then decompresses for the statistics
    only. -/
def resendThenReturn (decompressed : List (BitVec 8) → Except Fault (List (BitVec 64)))
    (ranks : List R) (root : R) (buffer : List (BitVec 64)) (resend : Nat)
    (dataBits : List (BitVec 8)) (crcOkRecv : List Wire) : Proc R (Tag R) Wire CrcReturn :=
  resendLoop root dataBits (ranks.zip crcOkRecv) resend fun resend =>
    match decompressed dataBits with
    | .ok _ => .ret ⟨buffer.map some, resend⟩
    | .error _ => .abort

/-- The end at another rank: `buffer` gets what is decompressed, plus the minimum. -/
def storeBuffer [NanRule] (decompressed : List (BitVec 8) → Except Fault (List (BitVec 64)))
    (count : Nat) (min : BitVec 64) (resend : Nat) (dataBits : List (BitVec 8)) :
    Proc R (Tag R) Wire CrcReturn :=
  match decompressed dataBits with
  | .ok decompressedData => .ret ⟨addMin min count decompressedData, resend⟩
  | .error _ => .abort

end Code

/-! ## Redelivery -/

section Redelivery

variable {n : Nat} {root : Fin n} {sent : List (BitVec 8)} {S : Finset (Fin n)}

/-- All runs of a program come to one outcome.  The root sends the payload `sent` once to each
    rank of `S`, and these are all messages between two ranks. -/
def Redelivers (P : Fin n → Proc (Fin n) (Tag (Fin n)) Wire CrcReturn) (root : Fin n)
    (sent : List (BitVec 8)) (S : Finset (Fin n)) (a : Fin n → CrcReturn) : Prop :=
  ∃ t, Outcome (Sys.start P) t a ∧
    (∀ u m, Run (Sys.start P) u m → (∃ k, Run u t k) ∧ (u.Terminal → u = t)) ∧
    (t.log root).filter Event.isUser = ((List.finRange n).filter (· ∈ S)).map (fun i =>
      .sent i (.user i) (.bytes sent)) ∧
    ∀ r, r ≠ root → (t.log r).filter Event.isUser =
      if r ∈ S then [.received root (.user r) (.bytes sent)] else []

/-- What the ranks return with: the root with its own buffer and the resends counted, the
    others with what the payload is decompressed to, plus the minimum. -/
def deliveredTo [NanRule] (root : Fin n) (buffer : List (BitVec 64)) (min : BitVec 64)
    (d : List (BitVec 64)) (resend : Fin n → Nat) (S : Finset (Fin n)) (r : Fin n) :
    CrcReturn :=
  if r = root then ⟨buffer.map some, resend root + S.card⟩
  else ⟨addMin min buffer.length d, resend r⟩

theorem localRun_resendThenReturn {decompressed : List (BitVec 8) → Except Fault _}
    {ok : Fin n → Wire} (hroot : root ∉ S)
    (hok : ∀ r, r ≠ root → (ok r = .chars ['n'] ↔ r ∈ S)) (buffer : List (BitVec 64))
    (resend : Nat) {d : List (BitVec 64)} (hd : decompressed sent = .ok d) :
    LocalRun (resendThenReturn decompressed (List.finRange n) root buffer resend sent
        ((List.finRange n).map ok))
      (resends (List.finRange n) root (fun r => decide (r ∈ S)) (.bytes sent))
      (.ret ⟨buffer.map some, resend + S.card⟩) := by
  have hpick := filter_needs hroot
  have hzip := @filter_zip_verdicts n root (List.finRange n) ok (fun r => decide (r ∈ S))
    (fun r hr => (hok r hr).trans decide_eq_true_iff.symm) (Wire.bytes sent)
  rw [hpick] at hzip
  have hloop := localRun_resendLoop root sent ((List.finRange n).zip ((List.finRange n).map ok))
    resend fun resend => match decompressed sent with
      | .ok _ => .ret ⟨buffer.map some, resend⟩
      | .error _ => .abort
  -- the ranks picked from the verdicts are those of `S`, in events and in number
  have hevents := congrArg (List.map fun x => Event.sent x.1 x.2.1 x.2.2) hzip
  have hcount := congrArg List.length hzip
  rw [List.map_map, List.map_map] at hevents
  rw [List.length_map, List.length_map, length_filter_mem] at hcount
  have hret : (match decompressed sent with
      | .ok _ => .ret ⟨buffer.map some, resend + S.card⟩
      | .error _ => .abort : Proc (Fin n) (Tag (Fin n)) Wire CrcReturn) =
      .ret ⟨buffer.map some, resend + S.card⟩ := by
    rw [hd]
  rw [hcount] at hloop
  replace hloop := hret ▸ hloop
  rw [resends, hpick]
  exact hevents ▸ hloop

theorem localRun_recvAgain [NanRule] {decompressed : List (BitVec 8) → Except Fault _} {r : Fin n}
    {out : Char × List (BitVec 8)} (hfail : r ∈ S → out.1 = 'n')
    (hpass : r ∉ S → out = ('y', sent)) (count : Nat) (min : BitVec 64) (resend : Nat)
    {d : List (BitVec 64)} (hd : decompressed sent = .ok d) :
    LocalRun (recvAgain root r sent.length out.1 out.2 (storeBuffer decompressed count min resend))
      (repaired root (fun r => decide (r ∈ S)) (.bytes sent) r)
      (.ret ⟨addMin min count d, resend⟩) := by
  have hstore : (storeBuffer decompressed count min resend sent :
      Proc (Fin n) (Tag (Fin n)) Wire CrcReturn) = .ret ⟨addMin min count d, resend⟩ := by
    rw [storeBuffer, hd]
  rw [recvAgain, repaired]
  by_cases hr : r ∈ S
  · rw [if_pos (hfail hr), if_pos (decide_eq_true hr)]
    refine .head (.recv (m := Wire.bytes sent)) ?_
    simp only [List.take_length, hstore]
    exact .refl _
  · rw [hpass hr, if_neg (show ¬ 'y' = 'n' by decide), if_neg (by simpa using hr), hstore]
    exact .refl _

/-- With the verdicts of the ranks in `S`, and the payload at all others, all runs end with
    the payload delivered. -/
theorem redelivered [NanRule]
    {decompressed : List (BitVec 8) → Except Fault (List (BitVec 64))}
    {P : Fin n → Proc (Fin n) (Tag (Fin n)) Wire CrcReturn} {wires : List Wire}
    {buffer : List (BitVec 64)} {min : BitVec 64} {resend : Fin n → Nat}
    {out : Fin n → Char × List (BitVec 8)}
    (hroot : LocalRun (P root) (announcements (List.finRange n) root wires)
      (gather (List.finRange n) root root .gather (.chars ['y'])
        (resendThenReturn decompressed (List.finRange n) root buffer (resend root) sent)))
    (hothers : ∀ r, r ≠ root → LocalRun (P r) (reported root wires (.chars [(out r).1]))
      (recvAgain root r sent.length (out r).1 (out r).2
        (storeBuffer decompressed buffer.length min (resend r))))
    (hS : root ∉ S) (hfail : ∀ r ∈ S, (out r).1 = 'n')
    (hpass : ∀ r, r ≠ root → r ∉ S → out r = ('y', sent))
    {d : List (BitVec 64)} (hd : decompressed sent = .ok d) :
    Redelivers P root sent S (deliveredTo root buffer min d resend S) := by
  let ok (r : Fin n) : Wire := if r = root then .chars ['y'] else .chars [(out r).1]
  have hok : ∀ r, r ≠ root → (ok r = .chars ['n'] ↔ r ∈ S) := by
    intro r hr
    simp only [ok, if_neg hr]
    by_cases hmem : r ∈ S
    · simp [hfail r hmem, hmem]
    · simp [hpass r hr hmem, hmem]
  have hown : ok root = .chars ['y'] := if_pos rfl
  rw [← hown] at hroot
  obtain ⟨t, hout, ht⟩ := @retransmission_outcome (Fin n) Wire CrcReturn _ (List.finRange n) root
    wires ok (fun r => decide (r ∈ S)) (Wire.bytes sent) (deliveredTo root buffer min d resend S)
    (Sys.start P)
    (resendThenReturn decompressed (List.finRange n) root buffer (resend root) sent)
    (fun r _ => recvAgain root r sent.length (out r).1 (out r).2
      (storeBuffer decompressed buffer.length min (resend r)))
    _ (List.nodup_finRange n) List.mem_finRange (fun _ _ _ => rfl) (fun _ => rfl) hroot
    (fun r hr => by
      simp only [ok, if_neg hr]
      exact hothers r hr)
    (by
      rw [deliveredTo, if_pos rfl]
      exact localRun_resendThenReturn hS hok buffer (resend root) hd)
    (fun r hr => by
      rw [deliveredTo, if_neg hr]
      exact localRun_recvAgain (hfail r) (hpass r hr) buffer.length min (resend r) hd)
  refine ⟨t, hout, fun u m hu => ⟨hout.reachable hu, hout.unique hu⟩, ?_, ?_⟩
  · rw [ht root, if_pos rfl, filter_isUser_root, resends, filter_needs hS]
  · intro r hr
    rw [ht r, if_neg hr, filter_isUser_other, repaired]
    simp only [decide_eq_true_iff]

end Redelivery

end MpiApps.Transfer
