import PgRange.Math.Loop
import PgRange.Range.Datum
import PgRange.Range.WellFormed

/-!
# The stored form of a range

`range_serialize` and `range_deserialize` down to the bytes: the varlena header and the
type's OID, the present bounds, and the flags byte at the end.

The first half of each function, which does not depend on the element type's storage, is
that of `PgRange.Range.Construct` and `PgRange.Range.Basic` at the type of datums.

## Main definitions

* `Occupies` — the bytes of a bound behind an offset, pad bytes included
* `rangeBytes` — the bytes of a range object
* `Restores` — what is read back of the bounds that were serialized

## Main results

* `fillRange_eq` — the object is filled exactly
* `loadRange_rangeBytes` — and read back
* `rangeDeserialize_rangeSerialize` — the two together, for all bounds in order
-/

set_option autoImplicit false

namespace PgRange.Layout

open Math

/-! ### The functions of the source -/

/-- The size counted for either bound, if it is present. -/
def boundSize (order : ByteOrder) (typ : ElementType) (present : Bool) (val : Datum)
    (msize : ℕ) : ℕ :=
  if present then datumComputeSize order msize val typ else msize

/-- `msize`: the size of the range object. It starts with its length word and the OID. -/
def rangeSize (order : ByteOrder) (typ : ElementType) (r : RangeType Datum) : ℕ :=
  let msize := boundSize order typ r.flags.hasLbound r.lbound 8
  let msize := boundSize order typ r.flags.hasUbound r.ubound msize
  msize + 1

/-- Either bound written, if it is present. -/
def writeBound (order : ByteOrder) (typ : ElementType) (base : ℕ) (present : Bool) (val : Datum)
    (range : List UInt8) (ptr : ℕ) : Except Fault (List UInt8 × ℕ) :=
  if present then datumWrite order base range ptr val typ else .ok (range, ptr)

/-- The zero-filled object with its length word and the type's OID. -/
def allocRange (order : ByteOrder) (typeId msize : ℕ) : List UInt8 :=
  let range := List.replicate msize 0
  let range := overwrite range 0 (setVarsize order msize)
  overwrite range 4 (machineBytes order 4 typeId)

/-- The part of `range_serialize` that fills the object: the bounds and the flags byte.
The second result is the pointer behind the last byte written. -/
def fillRange (order : ByteOrder) (typ : ElementType) (base : ℕ) (range : List UInt8)
    (r : RangeType Datum) : Except Fault (List UInt8 × ℕ) := do
  let (range, ptr) ← writeBound order typ base r.flags.hasLbound r.lbound range (base + 8)
  let (range, ptr) ← writeBound order typ base r.flags.hasUbound r.ubound range ptr
  return (memcpy base range ptr [r.flags.toByte], ptr + 1)

/-- `range_serialize`, for bounds that need no detoasting. `base` is the address that
`palloc0` returns. -/
def rangeSerialize (order : ByteOrder) (typ : ElementType) (cmp : Datum → Datum → Ordering)
    (typeId base : ℕ) (lower upper : RangeBound Datum) (empty : Bool) :
    Except Fault (List UInt8) := do
  let r ← PgRange.rangeSerialize cmp lower upper empty
  let msize := rangeSize order typ r
  if msize > maxAllocSize then .error .invalidAllocSize
  else do
    let (range, _) ← fillRange order typ base (allocRange order typeId msize) r
    return range

/-- The part of `range_deserialize` that reads the object at address `base`. -/
def loadRange (order : ByteOrder) (typ : ElementType) (base : ℕ) (range : List UInt8) :
    RangeType Datum :=
  let deref (ptr : ℕ) := range.drop (ptr - base)
  let flags := RangeFlags.ofByte (range.getD (varsize4B order range - 1) 0)
  let ptr := base + 8
  let lbound := if flags.hasLbound then fetchAtt order typ (deref ptr) else default
  let ptr := if flags.hasLbound then attAddlengthPointer order ptr typ (deref ptr) else ptr
  let ubound :=
    if flags.hasUbound then fetchAtt order typ (deref (attAlignPointer ptr typ (deref ptr)))
    else default
  ⟨flags, lbound, ubound⟩

/-- `range_deserialize`. -/
def rangeDeserialize (order : ByteOrder) (typ : ElementType) (base : ℕ) (range : List UInt8) :
    RangeParts Datum :=
  PgRange.rangeDeserialize (loadRange order typ base range)

/-! ### The bytes of a range -/

section Start

variable (typ : ElementType)

theorem typalign_pos : 0 < typ.typalign.bytes := by
  cases typ.typalign <;> decide

/-- The data of a range starts at an offset that is aligned for every type. -/
theorem typalign_dvd_eight : typ.typalign.bytes ∣ 8 := by
  cases typ.typalign <;> decide

theorem le_start (packed : Bool) (off : ℕ) : off ≤ typ.start packed off := by
  cases packed with
  | true => exact le_rfl
  | false => exact le_alignUp (typalign_pos typ) off

theorem start_add (packed : Bool) {base : ℕ} (hbase : typ.typalign.bytes ∣ base) (off : ℕ) :
    typ.start packed (base + off) = base + typ.start packed off := by
  cases packed with
  | true => rfl
  | false => exact alignUp_add (typalign_pos typ) hbase off

theorem start_eight (packed : Bool) : typ.start packed 8 = 8 := by
  cases packed with
  | true => rfl
  | false => exact alignUp_of_dvd (typalign_pos typ) (typalign_dvd_eight typ)

end Start

/-- The bytes that either bound occupies behind an offset, pad bytes included; none if it
is absent. -/
inductive Occupies (order : ByteOrder) (typ : ElementType) (val : Datum) (data : List UInt8) :
    Bool → (ℕ → List UInt8) → Prop
  | absent : Occupies order typ val data false fun _ => []
  | present {packed : Bool} {bytes : List UInt8} : Encodes order typ val data packed bytes →
      Occupies order typ val data true fun off =>
        List.replicate (typ.start packed off - off) 0 ++ bytes

section Bound

variable {order : ByteOrder} {typ : ElementType} {val : Datum} {data : List UInt8}
  {present : Bool} {part : ℕ → List UInt8}

theorem exists_occupies (h : present = true → Contents order typ val data) :
    ∃ part, Occupies order typ val data present part := by
  cases present with
  | false => exact ⟨_, .absent⟩
  | true =>
    obtain ⟨packed, bytes, henc⟩ := (h rfl).exists_encodes
    exact ⟨_, .present henc⟩

/-- The bytes are as many as were counted. -/
theorem Occupies.boundSize_eq (h : Occupies order typ val data present part) (off : ℕ) :
    boundSize order typ present val off = off + (part off).length := by
  cases h with
  | absent => rfl
  | @present packed bytes henc =>
    have hle := le_start typ packed off
    simp only [boundSize, if_true, henc.size, List.length_append, List.length_replicate]
    omega

/-- The bytes are what is written behind the filled part of the object. -/
theorem Occupies.writeBound_eq (h : Occupies order typ val data present part) {base : ℕ}
    (hbase : typ.typalign.bytes ∣ base) (filled : List UInt8) {k : ℕ}
    (hfits : (part filled.length).length ≤ k) :
    writeBound order typ base present val (filled ++ List.replicate k 0) (base + filled.length) =
      .ok (filled ++ part filled.length ++ List.replicate (k - (part filled.length).length) 0,
        base + (filled ++ part filled.length).length) := by
  cases h with
  | absent => simp [writeBound]
  | @present packed bytes henc =>
    have hle := le_start typ packed filled.length
    -- pointers are aligned, not offsets; the two agree as the object itself is aligned
    have hoff : typ.start packed (base + filled.length) - base =
        filled.length + (typ.start packed filled.length - filled.length) := by
      rw [start_add typ packed hbase]
      omega
    have hend : typ.start packed (base + filled.length) + bytes.length =
        base + (filled.length + (typ.start packed filled.length - filled.length + bytes.length)) := by
      rw [start_add typ packed hbase]
      omega
    rw [List.length_append, List.length_replicate] at hfits
    simp only [writeBound, if_true, henc.write, memcpy, hoff, overwrite_zeros filled bytes _ k hfits,
      hend, List.append_assoc, List.length_append, List.length_replicate]

/-- The first bound is read where it was written: it needs no padding. -/
theorem Occupies.read_lower (h : Occupies order typ val data true part) (rest : List UInt8) :
    Contents order typ (fetchAtt order typ (part 8 ++ rest)) data ∧
      ∀ ptr, attAddlengthPointer order ptr typ (part 8 ++ rest) = ptr + (part 8).length := by
  cases h with
  | @present packed bytes henc =>
    simp only [start_eight, Nat.sub_self, List.replicate_zero, List.nil_append]
    exact ⟨henc.fetch rest, fun ptr => henc.addlength ptr rest⟩

/-- Peeking at the first byte finds where the other bound starts: pad bytes are zero, and
a packed datum does not begin with a zero byte. -/
theorem Encodes.attAlignPointer_eq {packed : Bool} {bytes : List UInt8}
    (h : Encodes order typ val data packed bytes) (ptr : ℕ) (rest : List UInt8) :
    attAlignPointer ptr typ
      (List.replicate (typ.start packed ptr - ptr) 0 ++ bytes ++ rest) = typ.start packed ptr := by
  cases packed with
  | true =>
    -- a packed datum is a varlena, and its header byte is not zero
    obtain ⟨htyp, hnotpad⟩ := h.notPad rfl
    have hstart : typ.start true ptr - ptr = 0 := Nat.sub_self ptr
    rw [hstart, List.replicate_zero, List.nil_append, attAlignPointer,
      if_pos ⟨htyp, hnotpad rest⟩]
    rfl
  | false =>
    rw [attAlignPointer]
    split_ifs with hpeek
    · -- the byte is not zero, so there are no pad bytes, and the pointer is aligned
      have hle := le_start typ false ptr
      cases hpad : typ.start false ptr - ptr with
      | zero => omega
      | succ k =>
        rw [hpad] at hpeek
        simp [varattNotPadByte, vaHeader, List.replicate_succ] at hpeek
    · rfl

theorem Occupies.read_upper (h : Occupies order typ val data true part) {base : ℕ}
    (hbase : typ.typalign.bytes ∣ base) (off : ℕ) (rest : List UInt8) :
    ∃ pad, attAlignPointer (base + off) typ (part off ++ rest) = base + off + pad ∧
      Contents order typ (fetchAtt order typ ((part off ++ rest).drop pad)) data := by
  cases h with
  | @present packed bytes henc =>
    have hle := le_start typ packed off
    have hshift : typ.start packed (base + off) - (base + off) = typ.start packed off - off := by
      rw [start_add typ packed hbase]
      omega
    have halign := henc.attAlignPointer_eq (base + off) rest
    rw [hshift] at halign
    refine ⟨typ.start packed off - off, ?_, ?_⟩
    · rw [halign, start_add typ packed hbase]
      omega
    · rw [List.append_assoc, List.drop_left' (List.length_replicate ..)]
      exact henc.fetch rest

end Bound

/-- The fresh object: its header, and zeros. -/
theorem allocRange_eq (order : ByteOrder) (typeId msize : ℕ) (h : 8 ≤ msize) :
    allocRange order typeId msize =
      setVarsize order msize ++ machineBytes order 4 typeId ++ List.replicate (msize - 8) 0 := by
  have hsize : overwrite (List.replicate msize 0) 0 (setVarsize order msize) =
      setVarsize order msize ++ List.replicate (msize - 4) 0 := by
    have hzero := overwrite_zeros [] (setVarsize order msize) 0 msize
      (by rw [length_setVarsize]; omega)
    simpa using hzero
  have hoid := overwrite_zeros (setVarsize order msize) (machineBytes order 4 typeId) 0
    (msize - 4) (by rw [length_machineBytes]; omega)
  have hrest : msize - 4 - 4 = msize - 8 := by omega
  rw [allocRange, hsize]
  simpa [hrest] using hoid

/-- The bytes of a range object whose bounds occupy the given parts. -/
def rangeBytes (order : ByteOrder) (typeId : ℕ) (lpart upart : List UInt8) (flags : RangeFlags) :
    List UInt8 :=
  setVarsize order (8 + lpart.length + upart.length + 1) ++ machineBytes order 4 typeId ++
    lpart ++ upart ++ [flags.toByte]

section Range

variable {order : ByteOrder} {typ : ElementType} {r : RangeType Datum}
  {ldata udata : List UInt8} {lpart upart : ℕ → List UInt8}

@[simp] theorem length_rangeBytes (order : ByteOrder) (typeId : ℕ) (lpart upart : List UInt8)
    (flags : RangeFlags) :
    (rangeBytes order typeId lpart upart flags).length =
      8 + lpart.length + upart.length + 1 := by
  simp only [rangeBytes, List.length_append, length_setVarsize, length_machineBytes,
    List.length_singleton]

theorem rangeSize_eq (hl : Occupies order typ r.lbound ldata r.flags.hasLbound lpart)
    (hu : Occupies order typ r.ubound udata r.flags.hasUbound upart) :
    rangeSize order typ r =
      8 + (lpart 8).length + (upart (8 + (lpart 8).length)).length + 1 := by
  rw [rangeSize, hl.boundSize_eq, hu.boundSize_eq]

/-- The object is filled exactly: the flags byte is its last byte. -/
theorem fillRange_eq (typeId : ℕ) {base : ℕ} (hbase : typ.typalign.bytes ∣ base)
    (hl : Occupies order typ r.lbound ldata r.flags.hasLbound lpart)
    (hu : Occupies order typ r.ubound udata r.flags.hasUbound upart) :
    fillRange order typ base (allocRange order typeId (rangeSize order typ r)) r =
      .ok (rangeBytes order typeId (lpart 8) (upart (8 + (lpart 8).length)) r.flags,
        base + rangeSize order typ r) := by
  have hmsize := rangeSize_eq hl hu
  have halloc := allocRange_eq order typeId (rangeSize order typ r) (by omega)
  generalize hhead : setVarsize order (rangeSize order typ r) ++ machineBytes order 4 typeId =
    head at halloc
  have hlen : head.length = 8 := by simp [← hhead]
  -- the lower bound goes behind the header, the upper bound behind the lower bound
  have hlower := hl.writeBound_eq hbase head (k := rangeSize order typ r - 8)
    (by rw [hlen]; omega)
  rw [hlen] at hlower
  have hlen2 : (head ++ lpart 8).length = 8 + (lpart 8).length := by
    rw [List.length_append, hlen]
  have hupper := hu.writeBound_eq hbase (head ++ lpart 8)
    (k := rangeSize order typ r - 8 - (lpart 8).length) (by rw [hlen2]; omega)
  rw [hlen2] at hupper
  generalize hlp : lpart 8 = lp at *
  generalize hup : upart (8 + lp.length) = up at *
  have hone : rangeSize order typ r - 8 - lp.length - up.length = 1 := by omega
  rw [hone] at hupper
  have hflag := overwrite_zeros (head ++ lp ++ up) [r.flags.toByte] 0 1 (by simp)
  have hend : (head ++ lp ++ up).length + 1 = rangeSize order typ r := by
    simp only [List.length_append, hlen]
    omega
  refine bind_eq_ok_iff.mpr ⟨_, by rw [halloc]; exact hlower, ?_⟩
  refine bind_eq_ok_iff.mpr ⟨_, by rw [hlen2]; exact hupper, ?_⟩
  simp only [memcpy, Nat.add_sub_cancel_left, pure, Except.pure]
  rw [Nat.add_zero] at hflag
  rw [hflag, Nat.add_assoc, hend, rangeBytes, ← hmsize, hhead]
  simp

/-- The flags and the present bounds are read back, from any place that is aligned for the
element type. -/
theorem loadRange_rangeBytes (typeId : ℕ) {base : ℕ} (hbase : typ.typalign.bytes ∣ base)
    (hl : Occupies order typ r.lbound ldata r.flags.hasLbound lpart)
    (hu : Occupies order typ r.ubound udata r.flags.hasUbound upart)
    (hsize : rangeSize order typ r ≤ maxAllocSize) :
    let range := rangeBytes order typeId (lpart 8) (upart (8 + (lpart 8).length)) r.flags
    (loadRange order typ base range).flags = r.flags ∧
      (r.flags.hasLbound = true →
        Contents order typ (loadRange order typ base range).lbound ldata) ∧
      (r.flags.hasUbound = true →
        Contents order typ (loadRange order typ base range).ubound udata) := by
  intro range
  rw [rangeSize_eq hl hu] at hsize
  have hvarsize : varsize4B order range = range.length := by
    simp only [range, length_rangeBytes]
    simp only [rangeBytes, List.append_assoc]
    refine varsize4B_setVarsize order _ ?_
    unfold maxAllocSize at hsize
    omega
  have hflag : range.getD (varsize4B order range - 1) 0 = r.flags.toByte := by
    rw [hvarsize]
    simp only [range, rangeBytes]
    rw [List.length_append, List.length_singleton, Nat.add_sub_cancel,
      List.getD_eq_getElem?_getD, List.getElem?_append_right le_rfl, Nat.sub_self]
    rfl
  have hdrop8 : range.drop 8 = lpart 8 ++ (upart (8 + (lpart 8).length) ++ [r.flags.toByte]) := by
    simp only [range, rangeBytes, List.append_assoc]
    rw [← List.append_assoc]
    exact List.drop_left' (by simp)
  have hdrop : range.drop (8 + (lpart 8).length) =
      upart (8 + (lpart 8).length) ++ [r.flags.toByte] := by
    rw [← List.drop_drop, hdrop8, List.drop_left' rfl]
  -- the pointer behind the lower bound, whether or not there is one
  have hptr : (if r.flags.hasLbound then
      attAddlengthPointer order (base + 8) typ (range.drop 8) else base + 8) =
      base + (8 + (lpart 8).length) := by
    cases hb : r.flags.hasLbound with
    | false =>
      rw [hb] at hl
      cases hl
      rfl
    | true =>
      rw [hb] at hl
      rw [if_pos rfl, hdrop8, (hl.read_lower _).2, Nat.add_assoc]
  refine ⟨?_, ?_, ?_⟩
  · simp only [loadRange, hflag, RangeFlags.ofByte_toByte]
  · intro hb
    rw [hb] at hl
    simp only [loadRange, hflag, RangeFlags.ofByte_toByte, hb, if_true, Nat.add_sub_cancel_left,
      hdrop8]
    exact (hl.read_lower _).1
  · intro hb
    rw [hb] at hu
    obtain ⟨pad, halign, hcontents⟩ :=
      hu.read_upper hbase (8 + (lpart 8).length) [r.flags.toByte]
    simp only [loadRange, hflag, RangeFlags.ofByte_toByte, hb, if_true, Nat.add_sub_cancel_left,
      hptr, hdrop, halign]
    rwa [Nat.add_assoc base, Nat.add_sub_cancel_left, ← List.drop_drop, hdrop]

end Range

/-! ### Serialized ranges -/

/-- What `range_deserialize` returns for a serialized range: whether it is empty, and if
not, the bounds up to the inclusiveness of infinite ones and the header form of
varlenas. -/
structure Restores (order : ByteOrder) (typ : ElementType) (lower upper : RangeBound Datum)
    (ldata udata : List UInt8) (empty : Bool) (parts : RangeParts Datum) : Prop where
  empty_eq : parts.empty = empty
  lower_infinite : empty = false → parts.lower.infinite = lower.infinite
  upper_infinite : empty = false → parts.upper.infinite = upper.infinite
  lower_inclusive : empty = false →
    parts.lower.inclusive = (!lower.infinite && lower.inclusive)
  upper_inclusive : empty = false →
    parts.upper.inclusive = (!upper.infinite && upper.inclusive)
  lower_val : empty = false → lower.infinite = false → Contents order typ parts.lower.val ldata
  upper_val : empty = false → upper.infinite = false → Contents order typ parts.upper.val udata

/-- Whether a range with these bounds is empty. -/
def isEmptyBounds (cmp : Datum → Datum → Ordering) (lower upper : RangeBound Datum)
    (empty : Bool) : Bool :=
  empty || (rangeCmpBoundValues cmp lower upper == .eq && !(lower.inclusive && upper.inclusive))

section Serialize

variable {order : ByteOrder} {typ : ElementType} {lower upper : RangeBound Datum}
  {ldata udata : List UInt8}

/-- The value level of `range_serialize`, for bounds in order. -/
theorem rangeSerialize_of_ordered {cmp : Datum → Datum → Ordering} {empty : Bool}
    (h : rangeCmpBoundValues cmp lower upper ≠ .gt) :
    PgRange.rangeSerialize cmp lower upper empty =
      .ok (if isEmptyBounds cmp lower upper empty then emptyRange else packRange lower upper) := by
  cases empty with
  | true => rfl
  | false =>
    cases hc : rangeCmpBoundValues cmp lower upper with
    | gt => exact absurd hc h
    | lt => simp [PgRange.rangeSerialize, isEmptyBounds, hc]
    | eq =>
      cases hinc : lower.inclusive && upper.inclusive <;>
        simp [PgRange.rangeSerialize, isEmptyBounds, hc, hinc]

/-- A value with the flags of the serialized range and the contents of its present bounds
restores the range. -/
theorem restores_of_flags {empty : Bool} {v : RangeType Datum}
    (hflags : v.flags = (if empty then emptyRange else packRange lower upper).flags)
    (hlower : (if empty then emptyRange else packRange lower upper).flags.hasLbound = true →
      Contents order typ v.lbound ldata)
    (hupper : (if empty then emptyRange else packRange lower upper).flags.hasUbound = true →
      Contents order typ v.ubound udata) :
    Restores order typ lower upper ldata udata empty (PgRange.rangeDeserialize v) := by
  rw [← hflags] at hlower hupper
  cases empty with
  | true => exact ⟨by simp [hflags, emptyRange], nofun, nofun, nofun, nofun, nofun, nofun⟩
  | false =>
    have hpack : v.flags = (packRange lower upper).flags := hflags
    refine ⟨?_, fun _ => ?_, fun _ => ?_, fun _ => ?_, fun _ => ?_, fun _ hinf => ?_,
      fun _ hinf => ?_⟩
    · simp [hpack, packRange]
    · simp [hpack, packRange]
    · simp [hpack, packRange]
    · simp [hpack, packRange]
    · simp [hpack, packRange]
    · have hb : v.flags.hasLbound = true := by
        simp [hpack, packRange, RangeFlags.hasLbound, hinf]
      simpa [PgRange.rangeDeserialize, hb] using hlower hb
    · have hb : v.flags.hasUbound = true := by
        simp [hpack, packRange, RangeFlags.hasUbound, hinf]
      simpa [PgRange.rangeDeserialize, hb] using hupper hb

/-- Reading a stored range back. With bounds in order, `range_serialize` returns an object
of exactly the size that was counted, the last byte written being its last byte, unless
that size cannot be allocated; and `range_deserialize` restores it from any aligned
place. -/
theorem rangeDeserialize_rangeSerialize (order : ByteOrder) (typ : ElementType)
    (cmp : Datum → Datum → Ordering) (typeId base base' : ℕ) (hbase : 8 ∣ base)
    (hbase' : typ.typalign.bytes ∣ base') (lower upper : RangeBound Datum) (empty : Bool)
    (ldata udata : List UInt8) (hordered : rangeCmpBoundValues cmp lower upper ≠ .gt)
    (hlower : lower.infinite = false → Contents order typ lower.val ldata)
    (hupper : upper.infinite = false → Contents order typ upper.val udata) :
    let r := if isEmptyBounds cmp lower upper empty then emptyRange else packRange lower upper
    let msize := rangeSize order typ r
    (maxAllocSize < msize →
      rangeSerialize order typ cmp typeId base lower upper empty = .error .invalidAllocSize) ∧
    (msize ≤ maxAllocSize →
      ∃ range, rangeSerialize order typ cmp typeId base lower upper empty = .ok range ∧
        fillRange order typ base (allocRange order typeId msize) r =
          .ok (range, base + msize) ∧
        range.length = msize ∧
        Restores order typ lower upper ldata udata (isEmptyBounds cmp lower upper empty)
          (rangeDeserialize order typ base' range)) := by
  intro r msize
  have hser : PgRange.rangeSerialize cmp lower upper empty = .ok r :=
    rangeSerialize_of_ordered hordered
  have hflow : r.flags.hasLbound = true → Contents order typ r.lbound ldata := by
    intro hb
    cases he : isEmptyBounds cmp lower upper empty <;> cases hinf : lower.infinite <;>
      simp_all [r, emptyRange, packRange, RangeFlags.hasLbound]
  have hfup : r.flags.hasUbound = true → Contents order typ r.ubound udata := by
    intro hb
    cases he : isEmptyBounds cmp lower upper empty <;> cases hinf : upper.infinite <;>
      simp_all [r, emptyRange, packRange, RangeFlags.hasUbound]
  obtain ⟨lpart, hl⟩ := exists_occupies hflow
  obtain ⟨upart, hu⟩ := exists_occupies hfup
  -- `palloc0` aligns for every type
  have hfill := fillRange_eq typeId ((typalign_dvd_eight typ).trans hbase) hl hu
  constructor
  · intro hbig
    simp only [rangeSerialize, hser, bind, Except.bind]
    exact if_pos hbig
  · intro hfits
    refine ⟨_, ?_, hfill, ?_, ?_⟩
    · refine bind_eq_ok_iff.mpr ⟨r, hser, ?_⟩
      simp only [Nat.not_lt.mpr hfits, if_false, msize]
      exact bind_eq_ok_iff.mpr ⟨_, hfill, rfl⟩
    · rw [length_rangeBytes]
      exact (rangeSize_eq hl hu).symm
    · obtain ⟨hflags, hlval, huval⟩ := loadRange_rangeBytes typeId hbase' hl hu hfits
      exact restores_of_flags hflags hlval huval

end Serialize

/-- The storage description of `text`. -/
def textType : ElementType where
  typlen := -1
  typbyval := false
  typalign := .int
  typstorage := .extended
  byval_len := nofun
  byref_len := fun _ => Or.inr (Or.inl rfl)
  cstring_align := nofun

/-- The bound with a text of one letter, in four-byte header form. -/
def letterBound (letter : UInt8) (inclusive lower : Bool) : RangeBound Datum :=
  ⟨.pointer [20, 0, 0, 0, letter], false, inclusive, lower⟩

/-- The stored form of the text range `[a,b)`: both headers have become short. -/
theorem rangeDeserialize_rangeSerialize_text :
    rangeSerialize .little textType (fun d1 d2 => compare (vaHeader (d1.mem.drop 4))
        (vaHeader (d2.mem.drop 4))) 3906 16 (letterBound 97 true true)
        (letterBound 98 false false) false =
        .ok [52, 0, 0, 0, 66, 15, 0, 0, 5, 97, 5, 98, 2] ∧
      Restores .little textType (letterBound 97 true true) (letterBound 98 false false)
        [97] [98] false
        (rangeDeserialize .little textType 4
          [52, 0, 0, 0, 66, 15, 0, 0, 5, 97, 5, 98, 2]) := by
  have hbytes : rangeSerialize .little textType (fun d1 d2 => compare (vaHeader (d1.mem.drop 4))
      (vaHeader (d2.mem.drop 4))) 3906 16 (letterBound 97 true true)
      (letterBound 98 false false) false =
      .ok [52, 0, 0, 0, 66, 15, 0, 0, 5, 97, 5, 98, 2] := by decide
  obtain ⟨-, hread⟩ := rangeDeserialize_rangeSerialize .little textType
    (fun d1 d2 => compare (vaHeader (d1.mem.drop 4)) (vaHeader (d2.mem.drop 4))) 3906
    16 4 (by decide) (by decide) (letterBound 97 true true) (letterBound 98 false false) false
    [97] [98] (by decide) (fun _ => @Contents.long _ _ [97] [] rfl rfl (by decide))
    (fun _ => @Contents.long _ _ [98] [] rfl rfl (by decide))
  obtain ⟨range, hser, -, -, hrestores⟩ := hread (by decide)
  obtain rfl := Except.ok.inj (hser.symm.trans hbytes)
  exact ⟨hbytes, hrestores⟩

end PgRange.Layout
