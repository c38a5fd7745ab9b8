import PgRange.Math.Bytes
import PgRange.Math.CInt
import PgRange.Range.Canonical
import PgRange.Range.Parse

/-!
# Input and output of ranges

`range_in`, `range_recv` and `range_send`, with the parts of `pqformat.c` and
`stringinfo.c` that read and write a message. The I/O function of the element type is a
parameter, as `typioproc` is in the source; a type may have no binary one.

The text functions are those of `PgRange.Range.Parse` and `PgRange.Range.Deparse`. Here
the binary format is the subject: the flags byte, then each present bound as a length
word and that many bytes.

## Main results

* `rangeSend_eq_ok_iff` — the message that is sent, and when it is sent
* `rangeRecv_rangeSend` — receiving what was sent gives the range back
-/

set_option autoImplicit false

namespace PgRange

open Math

variable {α : Type} [Inhabited α]

/-! ### String buffers and messages -/

/-- `appendBinaryStringInfo` with the check of `enlargeStringInfo`. -/
def appendBinaryStringInfo (str data : List UInt8) : Except Fault (List UInt8) :=
  if data.length ≥ maxAllocSize - str.length then .error .stringTooLong else .ok (str ++ data)

/-- `pq_begintypsend`: four bytes are reserved for the length word of the result. -/
def pqBegintypsend : List UInt8 := List.replicate 4 0

/-- `pq_sendbyte`. -/
def pqSendbyte (buf : List UInt8) (byt : UInt8) : Except Fault (List UInt8) :=
  appendBinaryStringInfo buf [byt]

/-- `pq_sendint32`. -/
def pqSendint32 (buf : List UInt8) (i : ℕ) : Except Fault (List UInt8) :=
  appendBinaryStringInfo buf (bigEndian 4 i)

/-- `pq_sendbytes`. -/
def pqSendbytes (buf data : List UInt8) : Except Fault (List UInt8) :=
  appendBinaryStringInfo buf data

/-- `pq_endtypsend`: the contents of the result, behind its length word. -/
def pqEndtypsend (buf : List UInt8) : List UInt8 := buf.drop 4

/-- `pq_getmsgbyte`. A message is what its cursor has not passed yet. -/
def pqGetmsgbyte : List UInt8 → Except Fault (UInt8 × List UInt8)
  | [] => .error .noDataLeft
  | byt :: msg => .ok (byt, msg)

/-- `pq_getmsgbytes`: a length that is negative as an `int` is refused. -/
def pqGetmsgbytes (msg : List UInt8) (datalen : ℤ) : Except Fault (List UInt8 × List UInt8) :=
  if datalen < 0 ∨ datalen > msg.length then .error .insufficientData
  else .ok (msg.take datalen.toNat, msg.drop datalen.toNat)

/-- `pq_getmsgint` for four bytes. -/
def pqGetmsgint (msg : List UInt8) : Except Fault (ℕ × List UInt8) := do
  let (n32, msg) ← pqGetmsgbytes msg 4
  return (ofBigEndian n32, msg)

/-- `pq_getmsgend`. -/
def pqGetmsgend : List UInt8 → Except Fault Unit
  | [] => .ok ()
  | _ :: _ => .error .invalidMessageFormat

/-! ### The functions of the source -/

/-- How `range_in` reads either bound. For a bound that the literal does not have, the
local variable keeps what it held, `uninit`. -/
def inputBound (typioproc : Option CString → Except Fault α) (present : Bool) (uninit : α)
    (boundStr : Option CString) : Except Fault α :=
  if present then typioproc boundStr else .ok uninit

/-- `range_in`. -/
def rangeIn (loc : Locale) (typcache : TypeCacheEntry α)
    (typioproc : Option CString → Except Fault α) (uninitLower uninitUpper : α)
    (inputStr : CString) : Except Fault (RangeType α) := do
  let ⟨flags, lboundStr, uboundStr⟩ ← rangeParse loc inputStr
  let lowerVal ← inputBound typioproc flags.hasLbound uninitLower lboundStr
  let upperVal ← inputBound typioproc flags.hasUbound uninitUpper uboundStr
  makeRange typcache ⟨lowerVal, flags.lbInf, flags.lbInc, true⟩
    ⟨upperVal, flags.ubInf, flags.ubInc, false⟩ flags.empty

/-- The flags that `range_recv` keeps of the flags it is sent. -/
def RangeFlags.received (flags : RangeFlags) : RangeFlags :=
  { flags with lbNull := false, ubNull := false, containEmpty := false }

/-- How `range_recv` reads either bound: a length word, that many bytes, and the
element type's receive function on a copy of them. -/
def receiveBound (typioproc : List UInt8 → Except Fault α) (present : Bool) (buf : List UInt8) :
    Except Fault (α × List UInt8) :=
  if present then do
    let (boundLen, buf) ← pqGetmsgint buf
    let (boundData, buf) ← pqGetmsgbytes buf (CInt.wrap32 boundLen)
    let boundBuf ← appendBinaryStringInfo [] boundData
    let val ← typioproc boundBuf
    return (val, buf)
  else .ok (default, buf)

/-- `range_recv`. -/
def rangeRecv (typcache : TypeCacheEntry α)
    (typioproc : Option (List UInt8 → Except Fault α)) (buf : List UInt8) :
    Except Fault (RangeType α) :=
  match typioproc with
  | none => .error .noBinaryInput
  | some typioproc => do
    let (byt, buf) ← pqGetmsgbyte buf
    let flags := (RangeFlags.ofByte byt).received
    let (lowerVal, buf) ← receiveBound typioproc flags.hasLbound buf
    let (upperVal, buf) ← receiveBound typioproc flags.hasUbound buf
    pqGetmsgend buf
    makeRange typcache ⟨lowerVal, flags.lbInf, flags.lbInc, true⟩
      ⟨upperVal, flags.ubInf, flags.ubInc, false⟩ flags.empty

/-- How `range_send` writes either bound. -/
def sendBound (typioproc : α → Except Fault (List UInt8)) (present : Bool) (val : α)
    (buf : List UInt8) : Except Fault (List UInt8) :=
  if present then do
    let boundData ← typioproc val
    let buf ← pqSendint32 buf boundData.length
    pqSendbytes buf boundData
  else .ok buf

/-- `range_send`. -/
def rangeSend (typioproc : Option (α → Except Fault (List UInt8))) (range : RangeType α) :
    Except Fault (List UInt8) :=
  match typioproc with
  | none => .error .noBinaryOutput
  | some typioproc => do
    let ⟨lower, upper, _⟩ := rangeDeserialize range
    let flags := range.flags
    let buf ← pqSendbyte pqBegintypsend flags.toByte
    let buf ← sendBound typioproc flags.hasLbound lower.val buf
    let buf ← sendBound typioproc flags.hasUbound upper.val buf
    return pqEndtypsend buf

/-! ### Messages read back -/

theorem appendBinaryStringInfo_eq_ok_iff {str data out : List UInt8} :
    appendBinaryStringInfo str data = .ok out ↔
      str ++ data = out ∧ (str ++ data).length < maxAllocSize := by
  have hfits : ¬ data.length ≥ maxAllocSize - str.length ↔
      (str ++ data).length < maxAllocSize := by
    rw [List.length_append]
    omega
  rw [← hfits, appendBinaryStringInfo]
  split_ifs with h <;> simp [h]

theorem pqGetmsgbytes_append {data : List UInt8} {n : ℤ} (hn : n = data.length)
    (rest : List UInt8) : pqGetmsgbytes (data ++ rest) n = .ok (data, rest) := by
  subst hn
  have hlen : ¬ ((data.length : ℤ) < 0 ∨ (data.length : ℤ) > (data ++ rest).length) := by
    simp
  rw [pqGetmsgbytes, if_neg hlen]
  simp

theorem pqGetmsgint_append {n : ℕ} (hn : n < 2 ^ 32) (rest : List UInt8) :
    pqGetmsgint (bigEndian 4 n ++ rest) = .ok (n, rest) := by
  have hword : ofBigEndian (bigEndian 4 n) = n := by
    rw [ofBigEndian_bigEndian, Nat.mod_eq_of_lt (by omega)]
  rw [pqGetmsgint, pqGetmsgbytes_append (by simp)]
  simp [bind, Except.bind, pure, Except.pure, hword]

/-- What `range_send` adds to the message for a bound. -/
inductive BoundMessage (typioproc : α → Except Fault (List UInt8)) (val : α) :
    Bool → List UInt8 → Prop
  | present {data : List UInt8} :
      typioproc val = .ok data → BoundMessage typioproc val true (bigEndian 4 data.length ++ data)
  | absent : BoundMessage typioproc val false []

section Bounds

variable {send : α → Except Fault (List UInt8)} {receive : List UInt8 → Except Fault α}
  {val : α} {present : Bool} {buf out part : List UInt8}

omit [Inhabited α] in
/-- A bound is appended if the element type's function produces it and the buffer can
hold it. -/
theorem sendBound_eq_ok_iff (hbuf : buf.length < maxAllocSize) :
    sendBound send present val buf = .ok out ↔
      ∃ part, BoundMessage send val present part ∧ buf ++ part = out ∧
        out.length < maxAllocSize := by
  cases present with
  | false =>
    constructor
    · rintro ⟨⟩
      exact ⟨[], .absent, List.append_nil _, hbuf⟩
    · rintro ⟨_, ⟨⟩, rfl, -⟩
      simp [sendBound]
  | true =>
    simp only [sendBound, if_true, bind_eq_ok_iff, pqSendint32, pqSendbytes,
      appendBinaryStringInfo_eq_ok_iff]
    constructor
    · rintro ⟨data, hdata, _, ⟨rfl, -⟩, rfl, hlen⟩
      exact ⟨_, .present hdata, (List.append_assoc ..).symm, hlen⟩
    · rintro ⟨_, ⟨hdata⟩, rfl, hlen⟩
      refine ⟨_, hdata, _, ⟨rfl, ?_⟩, List.append_assoc .., by rwa [List.append_assoc]⟩
      -- the length word fits because the bytes behind it do
      rw [← List.append_assoc, List.length_append] at hlen
      omega

/-- A bound is read back from its part of the message, if the receive function undoes
the send function on it. -/
theorem receiveBound_append (hpart : BoundMessage send val present part)
    (hfits : part.length < maxAllocSize) (hval : present = false → val = default)
    (hundo : present = true → ∀ data, send val = .ok data → receive data = .ok val)
    (rest : List UInt8) : receiveBound receive present (part ++ rest) = .ok (val, rest) := by
  cases hpart with
  | absent => simp [receiveBound, hval rfl]
  | @present data hdata =>
    have hlen : data.length < maxAllocSize := by
      rw [List.length_append] at hfits
      omega
    -- the length was sent as an unsigned word and is received as an int
    have hint : data.length < 2 ^ 31 := by
      unfold maxAllocSize at hlen
      omega
    have hwrap : CInt.wrap32 data.length = data.length := by
      rw [CInt.wrap32_eq_iff]
      constructor <;> omega
    have hword : pqGetmsgint (bigEndian 4 data.length ++ data ++ rest) =
        .ok (data.length, data ++ rest) := by
      rw [List.append_assoc]
      exact pqGetmsgint_append (by omega) _
    have hbytes : pqGetmsgbytes (data ++ rest) (CInt.wrap32 data.length) = .ok (data, rest) :=
      pqGetmsgbytes_append hwrap rest
    have hcopy : appendBinaryStringInfo [] data = .ok data :=
      appendBinaryStringInfo_eq_ok_iff.mpr ⟨rfl, hlen⟩
    refine bind_eq_ok_iff.mpr ⟨_, hword, bind_eq_ok_iff.mpr ⟨_, hbytes, ?_⟩⟩
    exact bind_eq_ok_iff.mpr ⟨_, hcopy, bind_eq_ok_iff.mpr ⟨_, hundo rfl data hdata, rfl⟩⟩

end Bounds

/-- `range_send` writes the flags byte and the present bounds, if there is a send
function, it succeeds on them, and a buffer can hold the message. -/
theorem rangeSend_eq_ok_iff {typioproc : Option (α → Except Fault (List UInt8))}
    {r : RangeType α} {msg : List UInt8} :
    rangeSend typioproc r = .ok msg ↔
      ∃ send, typioproc = some send ∧ ∃ lpart upart,
        BoundMessage send (lowerOf r).val r.flags.hasLbound lpart ∧
        BoundMessage send (upperOf r).val r.flags.hasUbound upart ∧
        r.flags.toByte :: (lpart ++ upart) = msg ∧ 4 + msg.length < maxAllocSize := by
  cases typioproc with
  | none => simp [rangeSend]
  | some send =>
    -- the buffer starts with four bytes for the length of the result
    have hfive : (pqBegintypsend ++ [r.flags.toByte]).length < maxAllocSize := by
      simp [pqBegintypsend, maxAllocSize]
    have hstart : pqSendbyte pqBegintypsend r.flags.toByte =
        .ok (pqBegintypsend ++ [r.flags.toByte]) :=
      appendBinaryStringInfo_eq_ok_iff.mpr ⟨rfl, hfive⟩
    simp only [rangeSend, bind_eq_ok_iff, hstart]
    constructor
    · rintro ⟨_, ⟨⟩, buf1, h1, buf2, h2, hmsg⟩
      obtain ⟨lpart, hl, rfl, hlen1⟩ := (sendBound_eq_ok_iff hfive).mp h1
      obtain ⟨upart, hu, rfl, hlen2⟩ := (sendBound_eq_ok_iff hlen1).mp h2
      obtain rfl := Except.ok.inj hmsg
      refine ⟨send, rfl, lpart, upart, hl, hu, by simp [pqEndtypsend, pqBegintypsend], ?_⟩
      simp only [pqEndtypsend, pqBegintypsend, List.length_append, List.length_drop,
        List.length_replicate, List.length_cons, List.length_nil] at hlen2 ⊢
      omega
    · rintro ⟨_, ⟨⟩, lpart, upart, hl, hu, rfl, hlen⟩
      have hlen1 : (pqBegintypsend ++ [r.flags.toByte] ++ lpart).length < maxAllocSize := by
        simp only [List.length_append, List.length_cons, pqBegintypsend, List.length_replicate,
          List.length_nil] at hlen ⊢
        omega
      have hlen2 : (pqBegintypsend ++ [r.flags.toByte] ++ lpart ++ upart).length <
          maxAllocSize := by
        simp only [List.length_append, List.length_cons, pqBegintypsend, List.length_replicate,
          List.length_nil] at hlen ⊢
        omega
      refine ⟨_, rfl, _, (sendBound_eq_ok_iff hfive).mpr ⟨lpart, hl, rfl, hlen1⟩, _,
        (sendBound_eq_ok_iff hlen1).mpr ⟨upart, hu, rfl, hlen2⟩, ?_⟩
      simp [pqEndtypsend, pqBegintypsend, pure, Except.pure]

/-! ### Binary output and input -/

/-- The mask of `range_recv` does not touch the flags of a well-formed range. -/
theorem WellFormed.flags_received {cmp : α → α → Ordering} {r : RangeType α}
    (h : WellFormed cmp r) : r.flags.received = r.flags := by
  obtain ⟨⟨hlb, hub⟩, -, -, -⟩ := h.proper
  have hce := h.noContainEmpty
  obtain ⟨⟨a, b, c, d, e, f, g, k⟩, lbound, ubound⟩ := r
  simp_all [RangeFlags.received]

/-- Receiving the bytes of a canonical well-formed range consumes them all and returns the
range. A message is sent unless the element type's send function fails on a bound, or
the message does not fit into a buffer. -/
theorem rangeRecv_rangeSend (typcache : TypeCacheEntry α) (r : RangeType α)
    (send : α → Except Fault (List UInt8)) (receive : List UInt8 → Except Fault α)
    (hr : WellFormed typcache.cmp r) (hcanon : typcache.IsCanonical r)
    (hlower : r.flags.hasLbound = true →
      ∀ data, send r.lbound = .ok data → receive data = .ok r.lbound)
    (hupper : r.flags.hasUbound = true →
      ∀ data, send r.ubound = .ok data → receive data = .ok r.ubound) :
    (∀ msg, rangeSend (some send) r = .ok msg → rangeRecv typcache (some receive) msg = .ok r) ∧
    ∀ lpart upart, BoundMessage send r.lbound r.flags.hasLbound lpart →
      BoundMessage send r.ubound r.flags.hasUbound upart →
      5 + lpart.length + upart.length < maxAllocSize →
      ∃ msg, rangeSend (some send) r = .ok msg ∧
        rangeRecv typcache (some receive) msg = .ok r := by
  -- an absent bound is read as the zero word, which is what a well-formed range stores
  have hlval : (lowerOf r).val = r.lbound := by
    cases hb : r.flags.hasLbound <;> simp [lowerOf, rangeDeserialize, hb, hr.absentLower]
  have huval : (upperOf r).val = r.ubound := by
    cases hb : r.flags.hasUbound <;> simp [upperOf, rangeDeserialize, hb, hr.absentUpper]
  have hrecv : ∀ msg, rangeSend (some send) r = .ok msg →
      rangeRecv typcache (some receive) msg = .ok r := by
    intro msg hmsg
    obtain ⟨_, ⟨⟩, lpart, upart, hl, hu, rfl, hlen⟩ := rangeSend_eq_ok_iff.mp hmsg
    rw [hlval] at hl
    rw [huval] at hu
    rw [List.length_cons, List.length_append] at hlen
    have hreadl := receiveBound_append hl (by omega) hr.absentLower hlower upart
    have hreadu := receiveBound_append hu (by omega) hr.absentUpper hupper []
    rw [List.append_nil] at hreadu
    have hmake := makeRange_of_canonical hr hcanon
    simp only [rangeRecv, pqGetmsgbyte, bind, Except.bind, RangeFlags.ofByte_toByte,
      hr.flags_received, hreadl, hreadu, pqGetmsgend]
    rw [← hmake, ← hlval, ← huval]
    rfl
  refine ⟨hrecv, ?_⟩
  intro lpart upart hl hu hlen
  have hsend : rangeSend (some send) r = .ok (r.flags.toByte :: (lpart ++ upart)) := by
    refine rangeSend_eq_ok_iff.mpr ⟨send, rfl, lpart, upart, hlval ▸ hl, huval ▸ hu, rfl, ?_⟩
    rw [List.length_cons, List.length_append]
    omega
  exact ⟨_, hsend, hrecv _ hsend⟩

/-- `int4send`. -/
def int4send (arg1 : ℤ) : Except Fault (List UInt8) := do
  let buf ← pqSendint32 pqBegintypsend (arg1 % 2 ^ 32).toNat
  return pqEndtypsend buf

/-- `int4recv`. -/
def int4recv (buf : List UInt8) : Except Fault ℤ := do
  let (n, _) ← pqGetmsgint buf
  return CInt.wrap32 n

/-- The bytes of `[1,5)`, and that they are received as `[1,5)`. -/
theorem rangeRecv_rangeSend_int4 :
    rangeSend (some int4send) ⟨{ lbInc := true }, 1, 5⟩ =
        .ok [2, 0, 0, 0, 4, 0, 0, 0, 1, 0, 0, 0, 4, 0, 0, 0, 5] ∧
      rangeRecv int4range (some int4recv)
        [2, 0, 0, 0, 4, 0, 0, 0, 1, 0, 0, 0, 4, 0, 0, 0, 5] =
        .ok ⟨{ lbInc := true }, 1, 5⟩ := by
  have hsend : rangeSend (some int4send) ⟨{ lbInc := true }, 1, 5⟩ =
      .ok [2, 0, 0, 0, 4, 0, 0, 0, 1, 0, 0, 0, 4, 0, 0, 0, 5] := by decide +kernel
  refine ⟨hsend, (rangeRecv_rangeSend int4range ⟨{ lbInc := true }, 1, 5⟩ int4send int4recv
    ?_ ?_ ?_ ?_).1 _ hsend⟩
  · exact ⟨⟨⟨rfl, rfl⟩, nofun, nofun, nofun⟩, rfl, fun _ => by decide, nofun, nofun⟩
  · rintro _ ⟨⟩ -
    decide +kernel
  · rintro - data ⟨⟩
    decide +kernel
  · rintro - data ⟨⟩
    decide +kernel

end PgRange
