/-
  MpiApps.Transfer.Messages

  Compressed point-to-point messages and the compressed broadcast of doubles.

  The sender subtracts the minimum, compresses, and puts `bytes`, the minimum and the
  payload into one message; the receiver reads the three back and adds the minimum again.
  `MPI_Bcast_bitwise_double` does so through an array with room for the header and for
  the doubles themselves, which is enough since the compressors never expand
  (`compressors_never_expand`).  The receivers let MPI store the whole message into the
  caller's array, which has no room for the header: whether it fits there depends on how
  much the codec saves (`received_inside_iff`).
-/

import MpiApps.Codec.WordSize
import MpiApps.Fault.BcastAbft

namespace MpiApps.Transfer

open MpiApps.BinaryFormat MpiApps.Codec MpiApps.Fault MpiApps.Windows

/-! ## The code -/

/-- `if(data[i]<min) min = data[i];` -/
def minStep (fmt : Format) (min x : BitVec fmt.numBits) : BitVec fmt.numBits :=
  if (ieeeUnpack fmt x).lt (ieeeUnpack fmt min) then x else min

/-- The minimum, and `*data_small`. -/
def toSmallDataset [NanRule] (fmt : Format) (data : List (BitVec fmt.numBits)) :
    BitVec fmt.numBits × List (BitVec fmt.numBits) :=
  let min := data.tail.foldl (minStep fmt) (data.headD 0)
  (min, data.map fun x => minus fmt x min)

/-- `toSmallDataset_double`. -/
def toSmallDatasetDouble [NanRule] (data : List (BitVec 64)) : BitVec 64 × List (BitVec 64) :=
  toSmallDataset double data

/-- `toSmallDataset_float`. -/
def toSmallDatasetFloat [NanRule] (data : List (BitVec 32)) : BitVec 32 × List (BitVec 32) :=
  toSmallDataset float data

/-- The bytes of an `int` in memory. -/
def intBytes (n : Nat) : List (BitVec 8) :=
  (List.range 4).map fun i => BitVec.ofNat 8 (n / 256 ^ i)

/-- The `int` with these bytes. -/
def ofIntBytes (bytes : List (BitVec 8)) : Nat := bytes.foldr (fun b x => b.toNat + 256 * x) 0

/-- A char array: a byte is `none` until it is written. -/
abbrev Chars := List (Option (BitVec 8))

/-- `memmove(dst+off, src, n)` for the `n` bytes `src`. -/
def memmove (dst : Chars) (off : Nat) (src : List (BitVec 8)) : Except Fault Chars :=
  if off + src.length ≤ dst.length then return setWindow off (src.map some) dst
  else throw .outOfBounds

/-- `n` initialised bytes from `off` on. -/
def readBytes (off n : Nat) (src : Chars) : Except Fault (List (BitVec 8)) :=
  if off + n ≤ src.length then
    match (window off n src).mapM id with
    | some bytes => return bytes
    | none => throw .outOfBounds
  else throw .outOfBounds

/-- `data_bits_aux`, an array of `size` bytes: `bytes`, `min`, `data_bits`. -/
def dataBitsAux (size : Nat) (min : BitVec 64) (s : ByteBuffer) : Except Fault Chars := do
  let aux ← memmove (List.replicate size none) 0 (intBytes s.bytes)
  let aux ← memmove aux 4 (doubleBytes min)
  memmove aux 12 (s.dataBits.take s.bytes)

/-- `decompressed_data[i] + min` for `i < count`, where `decompressed_data[i]` was written. -/
def addMin [NanRule] (min : BitVec 64) (count : Nat) (decompressedData : List (BitVec 64)) :
    List (Option (BitVec 64)) :=
  (List.range count).map fun i => decompressedData[i]?.map fun x => plus double x min

/-- What `MPI_Recv` stores from offset `off` on when `posted` bytes are posted: the bytes
    of the message, at consecutive offsets. -/
def mpiRecv (off posted : Nat) (message : Chars) : List (Nat × Option (BitVec 8)) :=
  (message.take posted).mapIdx fun i b => (off + i, b)

/-- A receiver: what MPI stores into `buf`, and the elements of `buf` on return. -/
structure Received where
  stores : List (Nat × Option (BitVec 8))
  buf : Except Fault (List (Option (BitVec 64)))

section Transfer

variable [NanRule] (compress : List (BitVec 64) → ByteBuffer)
  (decompress : List (BitVec 8) → Nat → Except Fault (List (BitVec 64)))

/-- The message of the senders. -/
def sendBitwise (buf : List (BitVec 64)) : Except Fault Chars :=
  let small := toSmallDatasetDouble buf
  let s := compress small.2
  dataBitsAux (12 + s.bytes) small.1 s

/-- The two messages of the senders that compress the first `len` elements only. -/
def sendBitwiseCn (len : Nat) (buf : List (BitVec 64)) : Except Fault (Chars × Chars) := do
  let message ← sendBitwise compress (buf.take len)
  return (message, (toBytes (buf.drop len)).map some)

/-- What the receivers read out of a message. -/
def readMessage (count : Nat) (message : Chars) : Except Fault (List (Option (BitVec 64))) := do
  let bytes := ofIntBytes (← readBytes 0 4 message)
  let min := ofDoubleBytes (← readBytes 4 8 message)
  let decompressedData ← decompress (← readBytes 12 bytes message) count
  return addMin min count decompressedData

/-- The receivers.  MPI stores the message into `buf` itself, and it is read from there. -/
def recvBitwise (count : Nat) (message : Chars) : Received where
  stores := mpiRecv 0 (count * 8 + 4 + 8) message
  buf := readMessage decompress count message

/-- The receivers of two messages; the second one goes behind the first `len` elements. -/
def recvBitwiseCn (len count : Nat) (messages : Chars × Chars) : Received where
  stores := mpiRecv 0 (len * 8 + 4 + 8) messages.1 ++
    mpiRecv (len * 8) ((count - len) * 8) messages.2
  buf := do
    let first ← readMessage decompress len messages.1
    let rest ← readBytes 0 ((count - len) * 8) messages.2
    return first ++ (ofBytes (count - len) rest).map some

end Transfer

section Decompressed

variable (eb : ErrorBound)

/-- `myDecompress_bitwise_double` and its variants, as the receivers call them. -/
def decompressedDouble (dataBits : List (BitVec 8)) (num : Nat) :
    Except Fault (List (BitVec 64)) := do
  return (← myDecompressBitwiseDouble (FloatArith.ieee double eb) dataBits num).decompressed

@[inherit_doc decompressedDouble]
def decompressedDoubleNp (dataBits : List (BitVec 8)) (num : Nat) :
    Except Fault (List (BitVec 64)) := do
  return (← myDecompressBitwiseDoubleNp (FloatArith.ieee double eb) dataBits num).decompressed

@[inherit_doc decompressedDouble]
def decompressedDoubleOp (dataBits : List (BitVec 8)) (num : Nat) :
    Except Fault (List (BitVec 64)) := do
  return (← myDecompressBitwiseDoubleOp (FloatArith.ieee double eb) dataBits num).decompressed

end Decompressed

section Members

variable [NanRule] (eb : ErrorBound)

/-- `MPI_Send_bitwise_double`. -/
def mpiSendBitwiseDouble (buf : List (BitVec 64)) :=
  sendBitwise (myCompressBitwiseDouble (FloatArith.ieee double eb)) buf

/-- `MPI_Recv_bitwise_double`. -/
def mpiRecvBitwiseDouble (count : Nat) (message : Chars) :=
  recvBitwise (decompressedDouble eb) count message

/-- `MPI_Send_bitwise_double_np`. -/
def mpiSendBitwiseDoubleNp (buf : List (BitVec 64)) :=
  sendBitwise (myCompressBitwiseDoubleNp eb) buf

/-- `MPI_Recv_bitwise_double_np`. -/
def mpiRecvBitwiseDoubleNp (count : Nat) (message : Chars) :=
  recvBitwise (decompressedDoubleNp eb) count message

/-- `MPI_Send_bitwise_double_op`. -/
def mpiSendBitwiseDoubleOp (buf : List (BitVec 64)) :=
  sendBitwise (myCompressBitwiseDoubleOp (FloatArith.ieee double eb)) buf

/-- `MPI_Recv_bitwise_double_op`. -/
def mpiRecvBitwiseDoubleOp (count : Nat) (message : Chars) :=
  recvBitwise (decompressedDoubleOp eb) count message

/-- `MPI_Send_bitwise_double_cn`. -/
def mpiSendBitwiseDoubleCn (len : Nat) (buf : List (BitVec 64)) :=
  sendBitwiseCn (myCompressBitwiseDouble (FloatArith.ieee double eb)) len buf

/-- `MPI_Recv_bitwise_double_cn`. -/
def mpiRecvBitwiseDoubleCn (len count : Nat) (messages : Chars × Chars) :=
  recvBitwiseCn (decompressedDouble eb) len count messages

/-- `MPI_Send_bitwise_double_np_cn`. -/
def mpiSendBitwiseDoubleNpCn (len : Nat) (buf : List (BitVec 64)) :=
  sendBitwiseCn (myCompressBitwiseDoubleNp eb) len buf

/-- `MPI_Recv_bitwise_double_np_cn`. -/
def mpiRecvBitwiseDoubleNpCn (len count : Nat) (messages : Chars × Chars) :=
  recvBitwiseCn (decompressedDoubleNp eb) len count messages

/-- `MPI_Send_bitwise_double_op_cn`. -/
def mpiSendBitwiseDoubleOpCn (len : Nat) (buf : List (BitVec 64)) :=
  sendBitwiseCn (myCompressBitwiseDoubleOp (FloatArith.ieee double eb)) len buf

/-- `MPI_Recv_bitwise_double_op_cn`. -/
def mpiRecvBitwiseDoubleOpCn (len count : Nat) (messages : Chars × Chars) :=
  recvBitwiseCn (decompressedDoubleOp eb) len count messages

/-- The array that the root of `MPI_Bcast_bitwise_double` broadcasts. -/
def mpiBcastBitwiseDoubleAux (buf : List (BitVec 64)) : Except Fault Chars :=
  let small := toSmallDatasetDouble buf
  dataBitsAux (4 + 8 + buf.length * 8) small.1
    (myCompressBitwiseDouble (FloatArith.ieee double eb) small.2)

/-- `MPI_Bcast_bitwise_double` at the other ranks, from the broadcast array on. -/
def mpiBcastBitwiseDouble (count : Nat) (aux : Chars) : Except Fault (List (Option (BitVec 64))) :=
  readMessage (decompressedDouble eb) count aux

end Members

/-! ## The compressors never expand -/

/-- A list never takes more bytes than its numbers, in any of the four codecs; the mask codec
    runs with the type and the mean of the list. -/
theorem compressWith_bytes_le_all {fmt : Format} {V : Type} (A : FloatArith fmt V) {k : Nat}
    (hk : fmt.numBits = 8 * k) (xs : List (BitVec fmt.numBits)) :
    (compressWith A (literal fmt A.errorBound) xs).bytes ≤ k * xs.length ∧
    (compressNp fmt A.errorBound xs).bytes ≤ k * xs.length ∧
    (compressWith A tostr xs).bytes ≤ k * xs.length ∧
    (compressWith A (maskLiteral fmt A.errorBound (medDataset fmt xs).2
      (maskOf fmt (medDataset fmt xs).1)) xs).bytes ≤ k * xs.length :=
  ⟨compressWith_bytes_le A hk (literal_length_le A.errorBound) xs,
    compressNp_bytes_le A.errorBound hk xs,
    compressWith_bytes_le A hk (fun x => (tostr_length x).le) xs,
    compressWith_bytes_le A hk
      (maskLiteral_length_le A.errorBound (medDataset_type_le xs) _) xs⟩

@[simp] theorem toSmallDatasetDouble_length [NanRule] (data : List (BitVec 64)) :
    (toSmallDatasetDouble data).2.length = data.length :=
  List.length_map _

theorem memmove_append {written : Chars} {n : Nat} {src : List (BitVec 8)} (h : src.length ≤ n) :
    memmove (written ++ List.replicate n none) written.length src =
      .ok (written ++ src.map some ++ List.replicate (n - src.length) none) := by
  rw [memmove, if_pos (by simp; omega), setWindow, List.take_left, List.drop_append,
    List.drop_eq_nil_of_le (by simp), List.nil_append, List.length_map, Nat.add_sub_cancel_left,
    List.drop_replicate]
  rfl

@[simp] theorem intBytes_length (n : Nat) : (intBytes n).length = 4 := by
  simp [intBytes]

/-- With room for header and payload the three copies stay inside the array, and the bytes
    behind the payload stay unwritten. -/
theorem dataBitsAux_eq {size : Nat} (min : BitVec 64) {s : ByteBuffer}
    (hs : s.bytes = s.dataBits.length) (hsize : 12 + s.bytes ≤ size) :
    dataBitsAux size min s = .ok ((intBytes s.bytes ++ doubleBytes min ++ s.dataBits).map some ++
      List.replicate (size - (12 + s.bytes)) none) := by
  have h1 := @memmove_append [] size (intBytes s.bytes) (by simp; omega)
  have h2 := @memmove_append ((intBytes s.bytes).map some) (size - 4) (doubleBytes min)
    (by simp; omega)
  have h3 := @memmove_append ((intBytes s.bytes ++ doubleBytes min).map some) (size - 4 - 8)
    s.dataBits (by omega)
  simp only [List.nil_append, List.length_nil, List.length_map, List.length_append,
    intBytes_length, doubleBytes_length, List.map_append] at h1 h2 h3
  have htake : s.dataBits.take s.bytes = s.dataBits := List.take_of_length_le hs.ge
  rw [dataBitsAux, h1, ok_bind, h2, ok_bind, htake]
  refine h3.trans ?_
  rw [show size - 4 - 8 - s.dataBits.length = size - (12 + s.bytes) by omega, List.map_append,
    List.map_append]

/-- The bytes produced by the four codecs are at most those of the list, for doubles and for
    floats, and so header and payload fit the array of `MPI_Bcast_bitwise_double`. -/
theorem compressors_never_expand [NanRule] {V W : Type} (A : FloatArith double V)
    (B : FloatArith float W) :
    (∀ xs : List (BitVec 64),
      (myCompressBitwiseDouble A xs).bytes ≤ 8 * xs.length ∧
      (myCompressBitwiseDoubleNp A.errorBound xs).bytes ≤ 8 * xs.length ∧
      (myCompressBitwiseDoubleOp A xs).bytes ≤ 8 * xs.length ∧
      (myCompressBitwiseDoubleMask A xs (medDatasetDouble xs).2
        (maskOf double (medDatasetDouble xs).1)).bytes ≤ 8 * xs.length) ∧
    (∀ ys : List (BitVec 32),
      (myCompressBitwise B ys).bytes ≤ 4 * ys.length ∧
      (myCompressBitwiseNp B.errorBound ys).bytes ≤ 4 * ys.length ∧
      (myCompressBitwiseOp B ys).bytes ≤ 4 * ys.length ∧
      (myCompressBitwiseMask B ys (medDatasetFloat ys).2
        (maskOf float (medDatasetFloat ys).1)).bytes ≤ 4 * ys.length) ∧
    ∀ (eb : ErrorBound) (buf : List (BitVec 64)), ∃ payload unused,
      (myCompressBitwiseDouble (FloatArith.ieee double eb)
        (toSmallDatasetDouble buf).2).dataBits = payload ∧
      payload.length + unused = buf.length * 8 ∧
      mpiBcastBitwiseDoubleAux eb buf = .ok
        ((intBytes payload.length ++ doubleBytes (toSmallDatasetDouble buf).1 ++
            payload).map some ++
          List.replicate unused none) := by
  refine ⟨fun xs => compressWith_bytes_le_all A rfl xs,
    fun ys => compressWith_bytes_le_all B rfl ys, ?_⟩
  intro eb buf
  let s := myCompressBitwiseDouble (FloatArith.ieee double eb) (toSmallDatasetDouble buf).2
  have hs : s.bytes = s.dataBits.length := (compressWith_packed _ _ _).bytes_eq
  have hle : s.bytes ≤ 8 * (toSmallDatasetDouble buf).2.length :=
    (compressWith_bytes_le_all (FloatArith.ieee double eb) rfl _).1
  rw [toSmallDatasetDouble_length] at hle
  refine ⟨s.dataBits, buf.length * 8 - s.bytes, rfl, by omega, ?_⟩
  have haux := @dataBitsAux_eq (4 + 8 + buf.length * 8) (toSmallDatasetDouble buf).1 s hs (by omega)
  rw [show 4 + 8 + buf.length * 8 - (12 + s.bytes) = buf.length * 8 - s.bytes by omega, hs] at haux
  rw [hs]
  exact haux

/-! ## What is read back -/

theorem mapM_id_map_some (bytes : List (BitVec 8)) : (bytes.map some).mapM id = some bytes := by
  induction bytes with
  | nil => rfl
  | cons b bytes ih => simp [ih]

theorem readBytes_append (front : Chars) (bytes : List (BitVec 8)) (rest : Chars) :
    readBytes front.length bytes.length (front ++ bytes.map some ++ rest) = .ok bytes := by
  have hwindow : window front.length bytes.length (front ++ bytes.map some ++ rest) =
      bytes.map some := by
    rw [window, List.append_assoc, List.drop_left, List.take_left' (List.length_map _)]
  rw [readBytes, if_pos (by simp), hwindow, mapM_id_map_some]
  rfl

theorem ofIntBytes_intBytes {n : Nat} (h : n < 2 ^ 32) : ofIntBytes (intBytes n) = n := by
  simp only [ofIntBytes, intBytes, List.range, List.range.loop, List.map_cons, List.map_nil,
    List.foldr_cons, List.foldr_nil, BitVec.toNat_ofNat]
  omega

/-- A receiver decompresses the payload that was sent and adds the minimum that was sent, as
    long as an `int` holds the number of bytes. -/
theorem readMessage_eq [NanRule]
    (decompress : List (BitVec 8) → Nat → Except Fault (List (BitVec 64))) (count : Nat)
    (min : BitVec 64) {payload : List (BitVec 8)} (h : payload.length < 2 ^ 32) (rest : Chars) :
    readMessage decompress count
        ((intBytes payload.length ++ doubleBytes min ++ payload).map some ++ rest) =
      (decompress payload count).map (addMin min count) := by
  have h1 := readBytes_append [] (intBytes payload.length)
    ((doubleBytes min ++ payload).map some ++ rest)
  have h2 := readBytes_append ((intBytes payload.length).map some) (doubleBytes min)
    (payload.map some ++ rest)
  have h3 := readBytes_append ((intBytes payload.length ++ doubleBytes min).map some) payload rest
  simp only [List.map_append, List.append_assoc, List.nil_append, List.length_nil,
    List.length_map, List.length_append, intBytes_length, doubleBytes_length] at h1 h2 h3
  rw [readMessage, List.map_append, List.map_append, List.append_assoc, List.append_assoc, h1,
    ok_bind, h2, ok_bind, ofIntBytes_intBytes h, ofDoubleBytes_doubleBytes]
  refine (congrArg (· >>= _) h3).trans ?_
  rw [ok_bind]
  cases decompress payload count <;> rfl

/-! ## What is stored into the caller's array -/

/-- Every byte of the message that is sent lands inside an array of `count` doubles. -/
def ReceivedInside {M : Type} (send : Except Fault M) (recv : M → Received) (count : Nat) : Prop :=
  ∀ m, send = .ok m → ∀ st ∈ (recv m).stores, st.1 < count * 8

theorem mem_mpiRecv {off posted : Nat} {message : Chars} {st : Nat × Option (BitVec 8)} :
    st ∈ mpiRecv off posted message ↔
      ∃ i b, i < posted ∧ message[i]? = some b ∧ st = (off + i, b) := by
  rw [mpiRecv, List.mem_iff_getElem?]
  simp only [List.getElem?_mapIdx, List.getElem?_take, Option.map_eq_some_iff]
  constructor
  · rintro ⟨i, b, hb, rfl⟩
    split at hb
    · next hi => exact ⟨i, b, hi, hb, rfl⟩
    · cases hb
  · rintro ⟨i, b, hi, hb, rfl⟩
    exact ⟨i, b, by rw [if_pos hi, hb], rfl⟩

/-- A message that is not truncated ends where its last byte is stored. -/
theorem mpiRecv_inside_iff {off posted limit : Nat} {message : Chars}
    (hlen : message.length ≤ posted) (hoff : off ≤ limit) :
    (∀ st ∈ mpiRecv off posted message, st.1 < limit) ↔ off + message.length ≤ limit := by
  constructor
  · intro hall
    by_contra hlong
    have hlast : limit - off < message.length := by omega
    have h := hall (off + (limit - off), message[limit - off])
      (mem_mpiRecv.mpr ⟨_, _, by omega, List.getElem?_eq_getElem hlast, rfl⟩)
    omega
  · rintro hle st hst
    obtain ⟨i, b, _, hb, rfl⟩ := mem_mpiRecv.mp hst
    obtain ⟨hi, _⟩ := List.getElem?_eq_some_iff.mp hb
    show off + i < limit
    omega

section Inside

variable [NanRule] {compress : List (BitVec 64) → ByteBuffer} {words : List (BitVec 64) → List Bool}
  {saved : List (BitVec 64) → Nat}
  (decompress : List (BitVec 8) → Nat → Except Fault (List (BitVec 64)))
  (hpacked : ∀ xs, Packed (compress xs) (words xs))
  (hsaved : ∀ xs, (words xs).length + saved xs = 64 * xs.length)

include hpacked hsaved

/-- The sender always gets its message together; its length is what the codec does not save,
    rounded up to bytes, behind a header of 12 bytes. -/
theorem sendBitwise_eq (buf : List (BitVec 64)) :
    ∃ message, sendBitwise compress buf = .ok message ∧
      message.length ≤ buf.length * 8 + 4 + 8 ∧
      ∀ n, message.length ≤ 8 * n ↔
        96 + 64 * buf.length ≤ 64 * n + saved (toSmallDatasetDouble buf).2 := by
  have hs := (hpacked (toSmallDatasetDouble buf).2).bytes_eq
  have hbytes := (hpacked (toSmallDatasetDouble buf).2).bytes_le_iff
  have hwords := hsaved (toSmallDatasetDouble buf).2
  rw [toSmallDatasetDouble_length] at hwords
  obtain ⟨message, hsend, hlen⟩ : ∃ message, sendBitwise compress buf = .ok message ∧
      message.length = 12 + (compress (toSmallDatasetDouble buf).2).bytes := by
    refine ⟨_, dataBitsAux_eq _ hs (Nat.le_refl _), ?_⟩
    simp only [Nat.sub_self, List.replicate_zero, List.append_nil, List.length_map,
      List.length_append, intBytes_length, doubleBytes_length]
    omega
  have hmax := (hbytes (buf.length * 8)).mpr (by omega)
  refine ⟨message, hsend, by omega, fun n => ?_⟩
  -- 12 + bytes is at most 8 * n: the payload has at most 8 * n - 12 bytes
  have hpay := hbytes (8 * n - 12)
  omega

/-- Header and payload fit the array exactly if the codec saves the 96 bits of the header. -/
theorem recvBitwise_inside_iff (buf : List (BitVec 64)) :
    ReceivedInside (sendBitwise compress buf) (recvBitwise decompress buf.length) buf.length ↔
      96 ≤ saved (toSmallDatasetDouble buf).2 := by
  obtain ⟨message, hsend, hmax, hfits⟩ := sendBitwise_eq hpacked hsaved buf
  have hinside := @mpiRecv_inside_iff 0 _ (buf.length * 8) message hmax (Nat.zero_le _)
  calc ReceivedInside (sendBitwise compress buf) (recvBitwise decompress buf.length) buf.length
      ↔ ∀ st ∈ mpiRecv 0 (buf.length * 8 + 4 + 8) message, st.1 < buf.length * 8 := by
        constructor
        · exact fun h => h message hsend
        · rintro h m hm
          obtain rfl : message = m := Except.ok.inj (hsend.symm.trans hm)
          exact h
    _ ↔ 0 + message.length ≤ buf.length * 8 := hinside
    _ ↔ 96 ≤ saved (toSmallDatasetDouble buf).2 := by
        have h := hfits buf.length
        omega

/-- With two messages the elements that are not compressed make room for the header too; the
    second message itself always fits. -/
theorem recvBitwiseCn_inside_iff {len : Nat} {buf : List (BitVec 64)} (hlen : len ≤ buf.length) :
    ReceivedInside (sendBitwiseCn compress len buf) (recvBitwiseCn decompress len buf.length)
        buf.length ↔
      96 ≤ saved (toSmallDatasetDouble (buf.take len)).2 + 64 * (buf.length - len) := by
  obtain ⟨message, hsend, hmax, hfits⟩ := sendBitwise_eq hpacked hsaved (buf.take len)
  rw [List.length_take, Nat.min_eq_left hlen] at hmax hfits
  -- the uncompressed rest always fits, so the first message decides
  have hsecond : ∀ st ∈ mpiRecv (len * 8) ((buf.length - len) * 8)
      ((toBytes (buf.drop len)).map some), st.1 < buf.length * 8 := by
    have hrest : ((toBytes (buf.drop len)).map some).length = (buf.length - len) * 8 := by
      rw [List.length_map, toBytes_length, List.length_drop]
    exact (mpiRecv_inside_iff hrest.le (by omega)).mpr (by omega)
  have hinside := @mpiRecv_inside_iff 0 _ (buf.length * 8) message hmax (Nat.zero_le _)
  have hmessages : sendBitwiseCn compress len buf =
      .ok (message, (toBytes (buf.drop len)).map some) := by
    rw [sendBitwiseCn, hsend, ok_bind]
    rfl
  calc ReceivedInside (sendBitwiseCn compress len buf) (recvBitwiseCn decompress len buf.length)
        buf.length
      ↔ ∀ st ∈ mpiRecv 0 (len * 8 + 4 + 8) message, st.1 < buf.length * 8 := by
        constructor
        · exact fun h st hst => h _ hmessages st (List.mem_append_left _ hst)
        · rintro h m hm st hst
          obtain rfl := Except.ok.inj (hmessages.symm.trans hm)
          exact (List.mem_append.mp hst).elim (h st) (hsecond st)
    _ ↔ 0 + message.length ≤ buf.length * 8 := hinside
    _ ↔ 96 ≤ saved (toSmallDatasetDouble (buf.take len)).2 + 64 * (buf.length - len) := by
        have h := hfits buf.length
        omega

end Inside

/-! ## What the codecs save -/

section Saved

variable (eb : ErrorBound)

/-- A code saves 61 of 64 bits, a literal the mantissa bits that the bound does not ask for. -/
def savedDouble (xs : List (BitVec 64)) : Nat :=
  savedBits (FloatArith.ieee double eb)
    (fun x => 1 + double.expoBits + mantissaBitsWithinErrorBound double eb (tostr x))
    (History.init (FloatArith.ieee double eb)) xs

/-- Without prediction every element is a literal. -/
def savedDoubleNp (xs : List (BitVec 64)) : Nat := @savedBitsNp double eb xs

/-- Literals of full width save nothing. -/
def savedDoubleOp (xs : List (BitVec 64)) : Nat :=
  savedBits (FloatArith.ieee double eb) (fun _ => 64) (History.init (FloatArith.ieee double eb)) xs

theorem savedDouble_spec (xs : List (BitVec 64)) :
    (codeWords (FloatArith.ieee double eb) (literal double eb)
      (History.init (FloatArith.ieee double eb)) xs).flatten.length + savedDouble eb xs =
      64 * xs.length := by
  have h := codeWords_length_add_savedBits (FloatArith.ieee double eb) (literal_length_le eb)
    (History.init (FloatArith.ieee double eb)) xs
  simp only [literal_length] at h
  exact h

theorem savedDoubleOp_spec (xs : List (BitVec 64)) :
    (codeWords (FloatArith.ieee double eb) tostr
      (History.init (FloatArith.ieee double eb)) xs).flatten.length + savedDoubleOp eb xs =
      64 * xs.length := by
  have h := @codeWords_length_add_savedBits double _ (FloatArith.ieee double eb) tostr
    (fun x => (tostr_length x).le) (History.init (FloatArith.ieee double eb)) xs
  simp only [tostr_length] at h
  exact h

end Saved

/-- A received message stays inside the array of `count` doubles exactly if what the codec
    saves on the shifted elements, with the size of the elements that are not compressed,
    makes room for the header. -/
theorem received_inside_iff [NanRule] (eb : ErrorBound) (buf : List (BitVec 64)) :
    (ReceivedInside (mpiSendBitwiseDouble eb buf) (mpiRecvBitwiseDouble eb buf.length)
        buf.length ↔ 96 ≤ savedDouble eb (toSmallDatasetDouble buf).2) ∧
    (ReceivedInside (mpiSendBitwiseDoubleNp eb buf) (mpiRecvBitwiseDoubleNp eb buf.length)
        buf.length ↔ 96 ≤ savedDoubleNp eb (toSmallDatasetDouble buf).2) ∧
    (ReceivedInside (mpiSendBitwiseDoubleOp eb buf) (mpiRecvBitwiseDoubleOp eb buf.length)
        buf.length ↔ 96 ≤ savedDoubleOp eb (toSmallDatasetDouble buf).2) ∧
    ∀ len, 1 ≤ len → len ≤ buf.length →
      (ReceivedInside (mpiSendBitwiseDoubleCn eb len buf)
          (mpiRecvBitwiseDoubleCn eb len buf.length) buf.length ↔
        96 ≤ savedDouble eb (toSmallDatasetDouble (buf.take len)).2 + 64 * (buf.length - len)) ∧
      (ReceivedInside (mpiSendBitwiseDoubleNpCn eb len buf)
          (mpiRecvBitwiseDoubleNpCn eb len buf.length) buf.length ↔
        96 ≤ savedDoubleNp eb (toSmallDatasetDouble (buf.take len)).2 + 64 * (buf.length - len)) ∧
      (ReceivedInside (mpiSendBitwiseDoubleOpCn eb len buf)
          (mpiRecvBitwiseDoubleOpCn eb len buf.length) buf.length ↔
        96 ≤ savedDoubleOp eb (toSmallDatasetDouble (buf.take len)).2 +
          64 * (buf.length - len)) := by
  have hdefault := @compressWith_packed double _ (FloatArith.ieee double eb) (literal double eb)
  have hnp := @compressNp_packed double eb
  have hop := @compressWith_packed double _ (FloatArith.ieee double eb) tostr
  have hsavedNp := @literals_length_add_savedBitsNp double eb
  refine ⟨recvBitwise_inside_iff _ hdefault (savedDouble_spec eb) buf,
    recvBitwise_inside_iff _ hnp hsavedNp buf,
    recvBitwise_inside_iff _ hop (savedDoubleOp_spec eb) buf, fun len _ hlen => ⟨?_, ?_, ?_⟩⟩
  · exact recvBitwiseCn_inside_iff _ hdefault (savedDouble_spec eb) hlen
  · exact recvBitwiseCn_inside_iff _ hnp hsavedNp hlen
  · exact recvBitwiseCn_inside_iff _ hop (savedDoubleOp_spec eb) hlen

section Examples

attribute [local instance] NanRule.sse

/-- Two equal numbers become two codes, which save 122 bits. -/
theorem received_inside_iff_pair :
    ReceivedInside (mpiSendBitwiseDoubleOp absErrorBound [0x3FF0000000000000, 0x3FF0000000000000])
      (mpiRecvBitwiseDoubleOp absErrorBound 2) 2 ∧
    ¬ ReceivedInside
      (mpiSendBitwiseDoubleOpCn absErrorBound 1 [0x3FF0000000000000])
      (mpiRecvBitwiseDoubleOpCn absErrorBound 1 1) 1 :=
  ⟨(received_inside_iff absErrorBound [0x3FF0000000000000, 0x3FF0000000000000]).2.2.1.mpr
      (by decide +kernel),
    fun h => absurd (((received_inside_iff absErrorBound [0x3FF0000000000000]).2.2.2 1
      (Nat.le_refl _) (Nat.le_refl _)).2.2.mp h) (by decide +kernel)⟩

/-- A single `1.0` is sent as 13 bytes and received into eight. -/
theorem received_outside :
    ¬ ∀ (eb : ErrorBound) (buf : List (BitVec 64)), buf ≠ [] →
      (∀ x ∈ buf, double.Finite (bitsOf x)) →
      ReceivedInside (mpiSendBitwiseDouble eb buf) (mpiRecvBitwiseDouble eb buf.length)
        buf.length := by
  intro hall
  have h := hall absErrorBound [0x3FF0000000000000] (List.cons_ne_nil _ _)
    (List.forall_mem_singleton.mpr (by decide +kernel))
  have hlast := h ((intBytes 1 ++ doubleBytes 0x3FF0000000000000 ++ [0x80]).map some)
    (by decide +kernel) (12, some 0x80) (by decide +kernel)
  exact absurd hlast (by decide)

end Examples

end MpiApps.Transfer
