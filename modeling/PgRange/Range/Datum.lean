import PgRange.Math.Bytes
import PgRange.Range.Basic

/-!
# Datums inside a range object

`datum_compute_size` and `datum_write`, and the macros of `tupmacs.h` and `postgres.h`
with which they and `range_deserialize` decide where a bound lies. The decision is made
three times by three rules: counting aligns an offset, writing aligns a pointer, and
reading aligns a pointer unless the byte there is not a pad byte. Each has its own
branches for the kinds of element types. That the three agree for every kind is the
subject of this file.

A datum is a machine word or the memory from the address it points to.

## Main definitions

* `ElementType` — the storage description of the element type
* `Contents` — what a datum of the type that is not toasted holds
* `Encodes` — the bytes that a datum occupies, and what all the rules say about them

## Main results

* `Contents.exists_encodes` — for every kind of datum the rules agree
-/

set_option autoImplicit false

namespace PgRange.Layout

open Math

/-! ### Element types and datums -/

/-- `typalign`. -/
inductive TypAlign
  | char
  | short
  | int
  | double
  deriving DecidableEq, Repr

/-- The alignments of the C types. -/
def TypAlign.bytes : TypAlign → ℕ
  | char => 1
  | short => 2
  | int => 4
  | double => 8

/-- `typstorage`. -/
inductive TypStorage
  | plain
  | external
  | extended
  | main
  deriving DecidableEq, Repr

/-- The storage description of an element type: passed by value, of fixed length, a
varlena (length -1) or a C string (length -2). -/
structure ElementType where
  typlen : ℤ
  typbyval : Bool
  typalign : TypAlign
  typstorage : TypStorage
  byval_len : typbyval = true → typlen = 1 ∨ typlen = 2 ∨ typlen = 4 ∨ typlen = 8
  byref_len : typbyval = false → 0 < typlen ∨ typlen = -1 ∨ typlen = -2
  cstring_align : typlen = -2 → typalign = .char

/-- A datum: a word, or a pointer, which stands for the memory that it points to. -/
inductive Datum
  | word (bits : BitVec 64)
  | pointer (mem : List UInt8)
  deriving DecidableEq, Repr

instance : Inhabited Datum := ⟨.word 0⟩

/-- `DatumGetPointer`. -/
def Datum.mem : Datum → List UInt8
  | word _ => []
  | pointer mem => mem

/-- The bits of a datum that is passed by value. -/
def Datum.bits : Datum → BitVec 64
  | word bits => bits
  | pointer _ => 0

/-! ### Varlena headers -/

/-- The first byte, `va_header` of `varattrib_1b`. -/
def vaHeader (mem : List UInt8) : ℕ := (mem.headD 0).toNat

/-- `VARATT_IS_4B_U`: the two flag bits are zero. -/
def varattIs4BU (order : ByteOrder) (mem : List UInt8) : Bool :=
  match order with
  | .little => vaHeader mem % 4 = 0
  | .big => vaHeader mem / 64 = 0

/-- `VARATT_IS_1B`: the flag bit is one. -/
def varattIs1B (order : ByteOrder) (mem : List UInt8) : Bool :=
  match order with
  | .little => vaHeader mem % 2 = 1
  | .big => vaHeader mem / 128 = 1

/-- `VARATT_IS_1B_E`: a toast pointer. -/
def varattIs1BE (order : ByteOrder) (mem : List UInt8) : Bool :=
  match order with
  | .little => vaHeader mem = 0x01
  | .big => vaHeader mem = 0x80

/-- `VARATT_NOT_PAD_BYTE`. -/
def varattNotPadByte (mem : List UInt8) : Bool := vaHeader mem ≠ 0

/-- `VARSIZE_4B`. -/
def varsize4B (order : ByteOrder) (mem : List UInt8) : ℕ :=
  match order with
  | .little => ofMachineBytes .little (mem.take 4) / 4 % 2 ^ 30
  | .big => ofMachineBytes .big (mem.take 4) % 2 ^ 30

/-- `VARSIZE_1B`. -/
def varsize1B (order : ByteOrder) (mem : List UInt8) : ℕ :=
  match order with
  | .little => vaHeader mem / 2
  | .big => vaHeader mem % 128

/-- `VARSIZE_EXTERNAL`, with the sizes that `VARTAG_SIZE` gives the known tags. -/
def varsizeExternal (mem : List UInt8) : ℕ :=
  2 + match vaHeader (mem.drop 1) with
    | 1 | 2 | 3 => 8
    | 18 => 16
    | _ => 0

/-- `VARSIZE_ANY`. -/
def varsizeAny (order : ByteOrder) (mem : List UInt8) : ℕ :=
  if varattIs1BE order mem then varsizeExternal mem
  else if varattIs1B order mem then varsize1B order mem
  else varsize4B order mem

/-- `VARATT_CONVERTED_SHORT_SIZE`. -/
def varattConvertedShortSize (order : ByteOrder) (mem : List UInt8) : ℕ :=
  varsize4B order mem - 4 + 1

/-- `VARATT_CAN_MAKE_SHORT`. -/
def varattCanMakeShort (order : ByteOrder) (mem : List UInt8) : Bool :=
  varattIs4BU order mem && varattConvertedShortSize order mem ≤ 0x7F

/-- The word that `SET_VARSIZE` stores. -/
def setVarsize (order : ByteOrder) (len : ℕ) : List UInt8 :=
  match order with
  | .little => machineBytes .little 4 (len * 4)
  | .big => machineBytes .big 4 (len % 2 ^ 30)

/-- The byte that `SET_VARSIZE_SHORT` stores. -/
def setVarsizeShort (order : ByteOrder) (len : ℕ) : UInt8 :=
  match order with
  | .little => UInt8.ofNat (len * 2 + 1)
  | .big => UInt8.ofNat (len % 128 + 128)

/-! ### Attributes in memory -/

/-- `strlen`. -/
def strlen (mem : List UInt8) : ℕ := (mem.takeWhile (· ≠ 0)).length

/-- `TYPE_IS_PACKABLE`. -/
def typeIsPackable (typ : ElementType) : Bool := typ.typlen = -1 && typ.typstorage ≠ .plain

/-- `att_align_nominal`. -/
def attAlignNominal (curOffset : ℕ) (typ : ElementType) : ℕ :=
  alignUp typ.typalign.bytes curOffset

/-- `att_align_datum`. -/
def attAlignDatum (order : ByteOrder) (curOffset : ℕ) (typ : ElementType)
    (attdatum : List UInt8) : ℕ :=
  if typ.typlen = -1 ∧ varattIs1B order attdatum = true then curOffset
  else attAlignNominal curOffset typ

/-- `att_align_pointer`. -/
def attAlignPointer (curOffset : ℕ) (typ : ElementType) (attptr : List UInt8) : ℕ :=
  if typ.typlen = -1 ∧ varattNotPadByte attptr = true then curOffset
  else attAlignNominal curOffset typ

/-- `att_addlength_pointer`, and `att_addlength_datum`, which is the same. -/
def attAddlengthPointer (order : ByteOrder) (curOffset : ℕ) (typ : ElementType)
    (attptr : List UInt8) : ℕ :=
  if typ.typlen > 0 then curOffset + typ.typlen.toNat
  else if typ.typlen = -1 then curOffset + varsizeAny order attptr
  else curOffset + (strlen attptr + 1)

/-- `fetch_att`: a word of one, two, four or eight bytes is extended with its sign, and
anything else stays where it is. -/
def fetchAtt (order : ByteOrder) (typ : ElementType) (mem : List UInt8) : Datum :=
  if typ.typbyval then
    let len := typ.typlen.toNat
    .word ((BitVec.ofNat (8 * len) (ofMachineBytes order (mem.take len))).signExtend 64)
  else .pointer mem

/-- The bytes that `store_att_byval` stores. -/
def storeAttByval (order : ByteOrder) (datum : Datum) (typ : ElementType) : List UInt8 :=
  machineBytes order typ.typlen.toNat datum.bits.toNat

/-! ### Counting and writing -/

/-- `datum_compute_size`. -/
def datumComputeSize (order : ByteOrder) (dataLength : ℕ) (val : Datum) (typ : ElementType) : ℕ :=
  if typeIsPackable typ && varattCanMakeShort order val.mem then
    dataLength + varattConvertedShortSize order val.mem
  else
    attAddlengthPointer order (attAlignDatum order dataLength typ val.mem) typ val.mem

/-- `memcpy` into the range object at address `base`. -/
def memcpy (base : ℕ) (range : List UInt8) (ptr : ℕ) (bytes : List UInt8) : List UInt8 :=
  overwrite range (ptr - base) bytes

/-- `datum_write`: the range object at `base` with the datum written at `ptr`, and the
pointer behind it. -/
def datumWrite (order : ByteOrder) (base : ℕ) (range : List UInt8) (ptr : ℕ) (datum : Datum)
    (typ : ElementType) : Except Fault (List UInt8 × ℕ) :=
  let val := datum.mem
  if typ.typbyval then
    let ptr := attAlignNominal ptr typ
    .ok (memcpy base range ptr (storeAttByval order datum typ), ptr + typ.typlen.toNat)
  else if typ.typlen = -1 then
    if varattIs1BE order val then .error .toastPointerInRange
    else if varattIs1B order val then
      let dataLength := varsize1B order val
      .ok (memcpy base range ptr (val.take dataLength), ptr + dataLength)
    else if typeIsPackable typ && varattCanMakeShort order val then
      let dataLength := varattConvertedShortSize order val
      .ok (memcpy base range ptr
        (setVarsizeShort order dataLength :: (val.drop 4).take (dataLength - 1)),
        ptr + dataLength)
    else
      let ptr := attAlignNominal ptr typ
      let dataLength := varsize4B order val
      .ok (memcpy base range ptr (val.take dataLength), ptr + dataLength)
  else if typ.typlen = -2 then
    -- a C string is never aligned
    let dataLength := strlen val + 1
    .ok (memcpy base range ptr (val.take dataLength), ptr + dataLength)
  else
    let ptr := attAlignNominal ptr typ
    .ok (memcpy base range ptr (val.take typ.typlen.toNat), ptr + typ.typlen.toNat)

/-! ### What a datum holds -/

/-- The contents of a datum of the element type that is not toasted. A varlena has either
header form, and the length field of its header is as wide as the form allows. -/
inductive Contents (order : ByteOrder) (typ : ElementType) : Datum → List UInt8 → Prop
  | byval {bits : BitVec 64} : typ.typbyval = true →
      Contents order typ (.word bits) (machineBytes order typ.typlen.toNat bits.toNat)
  | fixed {bytes rest : List UInt8} : typ.typbyval = false → 0 < typ.typlen →
      bytes.length = typ.typlen.toNat → Contents order typ (.pointer (bytes ++ rest)) bytes
  | short {data rest : List UInt8} : typ.typbyval = false → typ.typlen = -1 →
      data.length + 1 ≤ 0x7F →
      Contents order typ
        (.pointer (setVarsizeShort order (data.length + 1) :: (data ++ rest))) data
  | long {data rest : List UInt8} : typ.typbyval = false → typ.typlen = -1 →
      data.length + 4 < 2 ^ 30 →
      Contents order typ (.pointer (setVarsize order (data.length + 4) ++ (data ++ rest))) data
  | cstring {text rest : List UInt8} : typ.typbyval = false → typ.typlen = -2 → 0 ∉ text →
      Contents order typ (.pointer (text ++ 0 :: rest)) text

/-! ### Headers read back -/

section Headers

variable (order : ByteOrder) (rest : List UInt8) {n : ℕ}

@[simp] theorem length_setVarsize : (setVarsize order n).length = 4 := by
  cases order <;> simp [setVarsize]

theorem varsize4B_setVarsize (h : n < 2 ^ 30) :
    varsize4B order (setVarsize order n ++ rest) = n := by
  have htake : (setVarsize order n ++ rest).take 4 = setVarsize order n :=
    List.take_left' (length_setVarsize order)
  cases order with
  | little =>
    rw [varsize4B, htake, setVarsize, ofMachineBytes_machineBytes]
    omega
  | big =>
    rw [varsize4B, htake, setVarsize, ofMachineBytes_machineBytes]
    omega

theorem vaHeader_setVarsize (h : n < 2 ^ 30) :
    vaHeader (setVarsize order n ++ rest) =
      match order with
      | .little => n * 4 % 256
      | .big => n / 2 ^ 24 := by
  cases order with
  | little => exact UInt8.toNat_ofNat'
  | big =>
    -- the high byte comes first, and has the two flag bits, which are zero
    have hfirst : vaHeader (setVarsize .big n ++ rest) =
        (UInt8.ofNat (n % 2 ^ 30 / 256 / 256 / 256)).toNat := rfl
    rw [hfirst, UInt8.toNat_ofNat']
    change _ = n / 2 ^ 24
    omega

theorem vaHeader_setVarsizeShort (h : n ≤ 0x7F) :
    vaHeader (setVarsizeShort order n :: rest) =
      match order with
      | .little => n * 2 + 1
      | .big => n + 128 := by
  cases order with
  | little =>
    have hfirst : vaHeader (setVarsizeShort .little n :: rest) =
        (UInt8.ofNat (n * 2 + 1)).toNat := rfl
    rw [hfirst, UInt8.toNat_ofNat']
    change _ = n * 2 + 1
    omega
  | big =>
    have hfirst : vaHeader (setVarsizeShort .big n :: rest) =
        (UInt8.ofNat (n % 128 + 128)).toNat := rfl
    rw [hfirst, UInt8.toNat_ofNat']
    change _ = n + 128
    omega

/-- A four-byte header is recognized as one. -/
theorem setVarsize_is4BU (h : n < 2 ^ 30) :
    varattIs4BU order (setVarsize order n ++ rest) = true ∧
      varattIs1B order (setVarsize order n ++ rest) = false ∧
      varattIs1BE order (setVarsize order n ++ rest) = false := by
  have hhead := vaHeader_setVarsize order rest h
  cases order with
  | little =>
    simp only [varattIs4BU, varattIs1B, varattIs1BE, hhead, decide_eq_true_eq, decide_eq_false_iff_not]
    omega
  | big =>
    simp only [varattIs4BU, varattIs1B, varattIs1BE, hhead, decide_eq_true_eq, decide_eq_false_iff_not]
    omega

/-- A one-byte header is recognized as one, holds its length, and is not a pad byte. -/
theorem setVarsizeShort_is1B (hpos : 0 < n) (h : n ≤ 0x7F) :
    varattIs4BU order (setVarsizeShort order n :: rest) = false ∧
      varattIs1B order (setVarsizeShort order n :: rest) = true ∧
      varattIs1BE order (setVarsizeShort order n :: rest) = false ∧
      varsize1B order (setVarsizeShort order n :: rest) = n ∧
      varattNotPadByte (setVarsizeShort order n :: rest) = true := by
  have hhead := vaHeader_setVarsizeShort order rest h
  cases order with
  | little =>
    simp only [varattIs4BU, varattIs1B, varattIs1BE, varsize1B, varattNotPadByte, hhead,
      decide_eq_true_eq, decide_eq_false_iff_not]
    omega
  | big =>
    simp only [varattIs4BU, varattIs1B, varattIs1BE, varsize1B, varattNotPadByte, hhead,
      decide_eq_true_eq, decide_eq_false_iff_not]
    omega

end Headers

/-! ### The bytes of one datum -/

/-- Where a datum starts that is to be written at or behind an offset. -/
def ElementType.start (typ : ElementType) (packed : Bool) (off : ℕ) : ℕ :=
  if packed then off else attAlignNominal off typ

/-- The bytes that a datum occupies, and whether they are packed, that is, never aligned.
Counting, writing and reading agree on them. -/
structure Encodes (order : ByteOrder) (typ : ElementType) (d : Datum) (data : List UInt8)
    (packed : Bool) (bytes : List UInt8) : Prop where
  size : ∀ off, datumComputeSize order off d typ = typ.start packed off + bytes.length
  write : ∀ base range ptr, datumWrite order base range ptr d typ =
    .ok (memcpy base range (typ.start packed ptr) bytes, typ.start packed ptr + bytes.length)
  addlength : ∀ ptr rest, attAddlengthPointer order ptr typ (bytes ++ rest) = ptr + bytes.length
  notPad : packed = true →
    typ.typlen = -1 ∧ ∀ rest, varattNotPadByte (bytes ++ rest) = true
  fetch : ∀ rest, Contents order typ (fetchAtt order typ (bytes ++ rest)) data

section Kinds

variable {order : ByteOrder} {typ : ElementType}

theorem encodes_byval (hval : typ.typbyval = true) (bits : BitVec 64) :
    Encodes order typ (.word bits) (machineBytes order typ.typlen.toNat bits.toNat) false
      (machineBytes order typ.typlen.toNat bits.toNat) := by
  have hlen := typ.byval_len hval
  have hpos : typ.typlen > 0 := by omega
  have hne : typ.typlen ≠ -1 := by omega
  refine ⟨?_, ?_, ?_, nofun, ?_⟩
  · intro off
    simp [datumComputeSize, typeIsPackable, hne, attAddlengthPointer, hpos, attAlignDatum,
      ElementType.start]
  · intro base range ptr
    simp [datumWrite, hval, storeAttByval, Datum.bits, ElementType.start]
  · intro ptr rest
    simp [attAddlengthPointer, hpos]
  · intro rest
    have htake : (machineBytes order typ.typlen.toNat bits.toNat ++ rest).take typ.typlen.toNat =
        machineBytes order typ.typlen.toNat bits.toNat :=
      List.take_left' (length_machineBytes ..)
    have hfetch : fetchAtt order typ (machineBytes order typ.typlen.toNat bits.toNat ++ rest) =
        .word ((BitVec.ofNat (8 * typ.typlen.toNat)
          (bits.toNat % 256 ^ typ.typlen.toNat)).signExtend 64) := by
      simp only [fetchAtt, hval, if_true, htake, ofMachineBytes_machineBytes]
    -- only the low bytes are stored, and only they are the contents
    have hlow := toNat_signExtend_mod (k := typ.typlen.toNat) (w := 64) (by omega)
      (bits.toNat % 256 ^ typ.typlen.toNat)
    have hstored : machineBytes order typ.typlen.toNat bits.toNat =
        machineBytes order typ.typlen.toNat ((BitVec.ofNat (8 * typ.typlen.toNat)
          (bits.toNat % 256 ^ typ.typlen.toNat)).signExtend 64).toNat :=
      machineBytes_congr order (by rw [hlow, Nat.mod_mod])
    rw [hfetch, hstored]
    exact .byval hval

theorem encodes_fixed (hval : typ.typbyval = false) (hpos : 0 < typ.typlen)
    {bytes : List UInt8} (hlen : bytes.length = typ.typlen.toNat) (rest : List UInt8) :
    Encodes order typ (.pointer (bytes ++ rest)) bytes false bytes := by
  have hne : typ.typlen ≠ -1 := by omega
  have hne' : typ.typlen ≠ -2 := by omega
  refine ⟨?_, ?_, ?_, nofun, ?_⟩
  · intro off
    simp [datumComputeSize, typeIsPackable, hne, attAddlengthPointer, hpos, attAlignDatum,
      ElementType.start, hlen]
  · intro base range ptr
    simp [datumWrite, hval, hne, hne', ElementType.start, Datum.mem, ← hlen]
  · intro ptr rest
    simp [attAddlengthPointer, hpos, hlen]
  · intro rest
    rw [fetchAtt, hval]
    exact .fixed hval hpos hlen

theorem encodes_cstring (hval : typ.typbyval = false) (htyp : typ.typlen = -2)
    {text : List UInt8} (htext : 0 ∉ text) (rest : List UInt8) :
    Encodes order typ (.pointer (text ++ 0 :: rest)) text false (text ++ [0]) := by
  have hstrlen : ∀ rest, strlen (text ++ 0 :: rest) = text.length := by
    intro rest
    have hall : ∀ c ∈ text, (decide (c ≠ 0)) = true := by
      intro c hc
      simp only [ne_eq, decide_eq_true_eq]
      rintro rfl
      exact htext hc
    rw [strlen, List.takeWhile_append_of_pos hall]
    simp
  -- nothing is to be aligned for a C string, so it does not matter that it never is
  have halign : ∀ off, attAlignNominal off typ = off := by
    intro off
    rw [attAlignNominal, typ.cstring_align htyp]
    exact alignUp_of_dvd Nat.one_pos (one_dvd off)
  refine ⟨?_, ?_, ?_, nofun, ?_⟩
  · intro off
    simp [datumComputeSize, typeIsPackable, htyp, attAddlengthPointer, attAlignDatum,
      ElementType.start, halign, Datum.mem, hstrlen]
  · intro base range ptr
    have htake : (text ++ 0 :: rest).take (text.length + 1) = text ++ [0] := by
      rw [List.append_cons]
      exact List.take_left' (by simp)
    simp [datumWrite, hval, htyp, ElementType.start, halign, Datum.mem, hstrlen, htake]
  · intro ptr rest
    simp [attAddlengthPointer, htyp, hstrlen]
  · intro rest
    rw [fetchAtt, hval, List.append_assoc]
    exact .cstring hval htyp htext

theorem encodes_short (hval : typ.typbyval = false) (htyp : typ.typlen = -1)
    {data : List UInt8} (hlen : data.length + 1 ≤ 0x7F) (rest : List UInt8) :
    Encodes order typ (.pointer (setVarsizeShort order (data.length + 1) :: (data ++ rest))) data
      true (setVarsizeShort order (data.length + 1) :: data) := by
  have hhead := fun rest => setVarsizeShort_is1B order rest (Nat.succ_pos data.length) hlen
  obtain ⟨h4, h1, he, hsize, -⟩ := hhead (data ++ rest)
  refine ⟨?_, ?_, ?_, ?_, ?_⟩
  · intro off
    simp [datumComputeSize, Datum.mem, varattCanMakeShort, h4, attAddlengthPointer, htyp,
      attAlignDatum, h1, varsizeAny, he, hsize, ElementType.start]
  · intro base range ptr
    simp [datumWrite, hval, htyp, Datum.mem, he, h1, hsize, ElementType.start]
  · intro ptr rest
    obtain ⟨-, h1, he, hsize, -⟩ := hhead (data ++ rest)
    simp [attAddlengthPointer, htyp, varsizeAny, he, h1, hsize]
  · intro _
    exact ⟨htyp, fun rest => (hhead (data ++ rest)).2.2.2.2⟩
  · intro rest
    rw [fetchAtt, hval]
    exact .short hval htyp hlen

/-- A varlena with a four-byte header whose form is kept. -/
theorem encodes_long (hval : typ.typbyval = false) (htyp : typ.typlen = -1)
    {data : List UInt8} (hlen : data.length + 4 < 2 ^ 30) (rest : List UInt8)
    (hkeep : typeIsPackable typ = false ∨ 0x7F < data.length + 1) :
    Encodes order typ (.pointer (setVarsize order (data.length + 4) ++ (data ++ rest))) data
      false (setVarsize order (data.length + 4) ++ data) := by
  have hsize := fun rest => varsize4B_setVarsize order rest hlen
  have hhead := fun rest => setVarsize_is4BU order rest hlen
  obtain ⟨-, h1, he⟩ := hhead (data ++ rest)
  -- the header is kept if the type is never packed, or the data is too long
  have hconv : (typeIsPackable typ && varattCanMakeShort order
      (setVarsize order (data.length + 4) ++ (data ++ rest))) = false := by
    rcases hkeep with hplain | hbig
    · rw [hplain, Bool.false_and]
    · have hnot : varattCanMakeShort order
          (setVarsize order (data.length + 4) ++ (data ++ rest)) = false := by
        simp only [varattCanMakeShort, varattConvertedShortSize, hsize, Bool.and_eq_false_iff,
          decide_eq_false_iff_not]
        omega
      rw [hnot, Bool.and_false]
  refine ⟨?_, ?_, ?_, nofun, ?_⟩
  · intro off
    simp [datumComputeSize, Datum.mem, hconv, attAddlengthPointer, htyp, attAlignDatum, h1,
      varsizeAny, he, hsize, ElementType.start, Nat.add_comm]
  · intro base range ptr
    have htake : (setVarsize order (data.length + 4) ++ (data ++ rest)).take (data.length + 4) =
        setVarsize order (data.length + 4) ++ data := by
      rw [← List.append_assoc]
      exact List.take_left' (by simp [Nat.add_comm])
    simp only [datumWrite, hval, htyp, Datum.mem, he, h1, hconv, hsize, htake]
    simp [ElementType.start, Nat.add_comm]
  · intro ptr rest
    obtain ⟨-, h1, he⟩ := hhead (data ++ rest)
    rw [List.append_assoc]
    simp [attAddlengthPointer, htyp, varsizeAny, he, h1, hsize, Nat.add_comm]
  · intro rest
    rw [fetchAtt, hval, List.append_assoc]
    exact .long hval htyp hlen

/-- A varlena with a four-byte header that is converted to a one-byte header. -/
theorem encodes_converted (hval : typ.typbyval = false) (htyp : typ.typlen = -1)
    {data : List UInt8} (hlen : data.length + 4 < 2 ^ 30) (rest : List UInt8)
    (hpack : typeIsPackable typ = true) (hshort : data.length + 1 ≤ 0x7F) :
    Encodes order typ (.pointer (setVarsize order (data.length + 4) ++ (data ++ rest))) data
      true (setVarsizeShort order (data.length + 1) :: data) := by
  obtain ⟨h4, h1, he⟩ := setVarsize_is4BU order (data ++ rest) hlen
  have hsize : varattConvertedShortSize order
      (setVarsize order (data.length + 4) ++ (data ++ rest)) = data.length + 1 := by
    rw [varattConvertedShortSize, varsize4B_setVarsize order _ hlen, Nat.add_sub_cancel]
  have hconv : varattCanMakeShort order
      (setVarsize order (data.length + 4) ++ (data ++ rest)) = true := by
    simp [varattCanMakeShort, h4, hsize, hshort]
  -- what is read back is the short form, and so are its facts
  have hread := @encodes_short order typ hval htyp data hshort rest
  refine ⟨?_, ?_, hread.addlength, hread.notPad, hread.fetch⟩
  · intro off
    simp [datumComputeSize, Datum.mem, hpack, hconv, hsize, ElementType.start]
  · intro base range ptr
    have hdata : ((setVarsize order (data.length + 4) ++ (data ++ rest)).drop 4).take
        data.length = data := by
      rw [List.drop_left' (length_setVarsize order), List.take_left' rfl]
    simp only [datumWrite, hval, htyp, Datum.mem, he, h1, hpack, hconv, hsize,
      Nat.add_sub_cancel, hdata]
    simp [ElementType.start]

/-- For every kind of datum, counting, writing and reading agree. -/
theorem Contents.exists_encodes {d : Datum} {data : List UInt8} (h : Contents order typ d data) :
    ∃ packed bytes, Encodes order typ d data packed bytes := by
  cases h with
  | byval hval => exact ⟨_, _, encodes_byval hval _⟩
  | fixed hval hpos hlen => exact ⟨_, _, encodes_fixed hval hpos hlen _⟩
  | short hval htyp hlen => exact ⟨_, _, encodes_short hval htyp hlen _⟩
  | cstring hval htyp htext => exact ⟨_, _, encodes_cstring hval htyp htext _⟩
  | long hval htyp hlen =>
    by_cases hpack : typeIsPackable typ = true
    · by_cases hshort : data.length + 1 ≤ 0x7F
      · exact ⟨_, _, encodes_converted hval htyp hlen _ hpack hshort⟩
      · exact ⟨_, _, encodes_long hval htyp hlen _ (Or.inr (by omega))⟩
    · exact ⟨_, _, encodes_long hval htyp hlen _ (Or.inl (by simpa using hpack))⟩

end Kinds

end PgRange.Layout
