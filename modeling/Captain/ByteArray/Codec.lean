import Captain.ByteArray.Refinement
import Captain.ByteOrder
import Captain.Varint

/-!
# The typed values of a `ByteArray`

`captain/bytearray.cpp` puts typed values into the bytes that `write` appends and takes them out of
those that `read` consumes. Here the two work on a flat sequence of bytes, the `Stream`.

* `host` is `CAPTAIN_BYTE_ORDER`, the order of the machine that runs the code.
* Signed integers are their bit patterns: `-v` and `v * 2` are those of the two's complement.
* An operation that throws, or that would write past its `tmp`, is `none`.
-/

namespace Captain.ByteArray

structure Stream where
  m_endian : ByteOrder
  data : List UInt8
  deriving DecidableEq, Repr

/-- `std::string`: its `size()` is a `size_t`. -/
abbrev StdString := { l : List UInt8 // l.length < UInt64.size }

def StdString.size (value : StdString) : BitVec 64 := BitVec.ofNat 64 value.1.length

theorem StdString.toNat_size (value : StdString) : value.size.toNat = value.1.length := by
  have hlt : value.1.length < 2 ^ 64 := value.2
  rw [size, BitVec.toNat_ofNat, Nat.mod_eq_of_lt hlt]

/-- `byteswap` for a type of `n` bytes. -/
def byteswap (n : Nat) (value : BitVec (8 * n)) : BitVec (8 * n) :=
  BitVec.ofNat _ (ByteOrder.swap n value.toNat)

namespace Stream

def new : Stream := ⟨.big, []⟩

def setIsLittleEndian (s : Stream) (val : Bool) : Stream :=
  { s with m_endian := if val then .little else .big }

def getReadSize (s : Stream) : Nat := s.data.length

def write (s : Stream) (buf : List UInt8) : Stream := { s with data := s.data ++ buf }

def read (s : Stream) (size : Nat) : Option (List UInt8 × Stream) :=
  if s.getReadSize < size then none
  else some (s.data.take size, { s with data := s.data.drop size })

section

variable (host : ByteOrder) (s : Stream)

/-! ## Writing -/

/-- The writer of the types of `n` bytes that have a byte order. -/
def writeFixed (n : Nat) (value : BitVec (8 * n)) : Stream :=
  s.write (host.store n (if s.m_endian ≠ host then byteswap n value else value).toNat)

def writeFint8 (value : BitVec 8) : Stream := s.write [.ofBitVec value]

def writeFuint8 (value : BitVec 8) : Stream := s.write [.ofBitVec value]

def writeFint16 (value : BitVec 16) : Stream := s.writeFixed host 2 value

def writeFuint16 (value : BitVec 16) : Stream := s.writeFixed host 2 value

def writeFint32 (value : BitVec 32) : Stream := s.writeFixed host 4 value

def writeFuint32 (value : BitVec 32) : Stream := s.writeFixed host 4 value

def writeFint64 (value : BitVec 64) : Stream := s.writeFixed host 8 value

def writeFuint64 (value : BitVec 64) : Stream := s.writeFixed host 8 value

def EncodeZigzag32 (v : BitVec 32) : BitVec 32 := Varint.encodeZigzag v

def EncodeZigzag64 (v : BitVec 64) : BitVec 64 := Varint.encodeZigzag v

def DecodeZigzag32 (v : BitVec 32) : BitVec 32 := Varint.decodeZigzag v

def DecodeZigzag64 (v : BitVec 64) : BitVec 64 := Varint.decodeZigzag v

/-- `tmp` has five bytes. -/
def writeUint32 (value : BitVec 32) : Option Stream := (Varint.write 5 value.toNat).map s.write

def writeInt32 (value : BitVec 32) : Option Stream := s.writeUint32 (EncodeZigzag32 value)

/-- `tmp` has ten bytes. -/
def writeUint64 (value : BitVec 64) : Option Stream := (Varint.write 10 value.toNat).map s.write

def writeInt64 (value : BitVec 64) : Option Stream := s.writeUint64 (EncodeZigzag64 value)

/-- The `float` with these bits. -/
def writeFloat (value : BitVec 32) : Stream := s.writeFuint32 host value

def writeDouble (value : BitVec 64) : Stream := s.writeFuint64 host value

def writeStringF16 (value : StdString) : Stream :=
  (s.writeFuint16 host (value.size.setWidth 16)).write value.1

def writeStringF32 (value : StdString) : Stream :=
  (s.writeFuint32 host (value.size.setWidth 32)).write value.1

def writeStringF64 (value : StdString) : Stream :=
  (s.writeFuint64 host value.size).write value.1

def writeStringVint (value : StdString) : Option Stream :=
  (s.writeUint64 value.size).map fun s => s.write value.1

/-! ## Reading -/

/-- The macro `XX`. -/
def readFixed (n : Nat) : Option (BitVec (8 * n) × Stream) :=
  (s.read n).map fun (buf, s') =>
    let v := BitVec.ofNat (8 * n) (host.load buf)
    (if s.m_endian = host then v else byteswap n v, s')

def readFuint8 : Option (BitVec 8 × Stream) :=
  match s.data with
  | [] => none
  | b :: rest => some (b.toBitVec, { s with data := rest })

def readFint8 : Option (BitVec 8 × Stream) := s.readFuint8

def readFint16 : Option (BitVec 16 × Stream) := s.readFixed host 2

def readFuint16 : Option (BitVec 16 × Stream) := s.readFixed host 2

def readFint32 : Option (BitVec 32 × Stream) := s.readFixed host 4

def readFuint32 : Option (BitVec 32 × Stream) := s.readFixed host 4

def readFint64 : Option (BitVec 64 × Stream) := s.readFixed host 8

def readFuint64 : Option (BitVec 64 × Stream) := s.readFixed host 8

/-- The loop of `readUint32` and `readUint64`, whose `readFuint8` takes the next byte. -/
def readVarint (w : Nat) : Option (BitVec w × Stream) :=
  (Varint.read w 0 0#w s.data).map fun (v, rest) => (v, { s with data := rest })

def readUint32 : Option (BitVec 32 × Stream) := s.readVarint 32

def readInt32 : Option (BitVec 32 × Stream) :=
  s.readUint32.map fun (v, s') => (DecodeZigzag32 v, s')

def readUint64 : Option (BitVec 64 × Stream) := s.readVarint 64

def readInt64 : Option (BitVec 64 × Stream) :=
  s.readUint64.map fun (v, s') => (DecodeZigzag64 v, s')

def readFloat : Option (BitVec 32 × Stream) := s.readFuint32 host

def readDouble : Option (BitVec 64 × Stream) := s.readFuint64 host

/-- `buff.resize(len); read(&buff[0], len);` -/
def readBuff (len : BitVec 64) : Option (StdString × Stream) :=
  if s.getReadSize < len.toNat then none
  else some (⟨s.data.take len.toNat, Nat.lt_of_le_of_lt (List.length_take_le _ _) len.isLt⟩,
    { s with data := s.data.drop len.toNat })

def readStringF16 : Option (StdString × Stream) :=
  (s.readFuint16 host).bind fun (len, s') => s'.readBuff (len.setWidth 64)

def readStringF32 : Option (StdString × Stream) :=
  (s.readFuint32 host).bind fun (len, s') => s'.readBuff (len.setWidth 64)

def readStringF64 : Option (StdString × Stream) :=
  (s.readFuint64 host).bind fun (len, s') => s'.readBuff len

def readStringVint : Option (StdString × Stream) :=
  s.readUint64.bind fun (len, s') => s'.readBuff len

end

/-! ## Fixed widths -/

theorem two_pow_eq (n : Nat) : 2 ^ (8 * n) = 256 ^ n := Nat.pow_mul 2 8 n

theorem toNat_byteswap (n : Nat) (value : BitVec (8 * n)) :
    (byteswap n value).toNat = ByteOrder.swap n value.toNat := by
  unfold byteswap
  rw [BitVec.toNat_ofNat, two_pow_eq, Nat.mod_eq_of_lt (ByteOrder.swap_lt n _)]

/-- The bytes of a fixed-width value are those of the selected order, on every host. -/
theorem writeFixed_eq (host : ByteOrder) (s : Stream) (n : Nat) (value : BitVec (8 * n)) :
    s.writeFixed host n value = s.write (s.m_endian.store n value.toNat) := by
  unfold writeFixed
  split
  · rename_i hne
    rw [toNat_byteswap, ByteOrder.store_swap hne.symm]
  · rename_i heq
    rw [Decidable.not_not.mp heq]

theorem read_append (e : ByteOrder) (buf rest : List UInt8) :
    read ⟨e, buf ++ rest⟩ buf.length = some (buf, ⟨e, rest⟩) := by
  unfold read getReadSize
  rw [if_neg (by rw [List.length_append]; omega), List.take_left, List.drop_left]

theorem readFixed_store (host e : ByteOrder) (n : Nat) (value : BitVec (8 * n))
    (rest : List UInt8) :
    readFixed host ⟨e, e.store n value.toNat ++ rest⟩ n = some (value, ⟨e, rest⟩) := by
  have hlength : (e.store n value.toNat).length = n := ByteOrder.length_store e n _
  have hread := read_append e (e.store n value.toNat) rest
  have hload : e.load (e.store n value.toNat) = value.toNat :=
    ByteOrder.load_store e (two_pow_eq n ▸ value.isLt)
  rw [hlength] at hread
  unfold readFixed
  rw [hread]
  apply congrArg some
  apply congrArg fun v => (v, (⟨e, rest⟩ : Stream))
  dsimp only
  split
  · rename_i heq
    rw [← heq, hload, BitVec.ofNat_toNat, BitVec.setWidth_eq]
  · rename_i hne
    apply BitVec.eq_of_toNat_eq
    have hswap := ByteOrder.swap_load (fun h => hne h.symm) (e.store n value.toNat)
    rw [hlength, hload] at hswap
    rw [toNat_byteswap, BitVec.toNat_ofNat, two_pow_eq, Nat.mod_eq_of_lt, hswap]
    have hlt := ByteOrder.load_lt host (e.store n value.toNat)
    rwa [hlength] at hlt

/-! ## Writers and readers that belong together -/

/-- What the writer appends for `v`, the reader takes off again as `v`, whatever comes after it. -/
def Inverse {α : Type} (writer : Stream → α → Option Stream)
    (reader : Stream → Option (α × Stream)) (v : α) : Prop :=
  ∀ e, ∃ bytes, (∀ data, writer ⟨e, data⟩ v = some ⟨e, data ++ bytes⟩) ∧
    ∀ rest, reader ⟨e, bytes ++ rest⟩ = some (v, ⟨e, rest⟩)

theorem inverse_fixed (writer reader : ByteOrder) (n : Nat) (value : BitVec (8 * n)) :
    Inverse (fun s v => some (s.writeFixed writer n v)) (fun s => s.readFixed reader n) value := by
  intro e
  refine ⟨e.store n value.toNat, fun data => ?_, readFixed_store reader e n value⟩
  exact congrArg some (writeFixed_eq writer ⟨e, data⟩ n value)

theorem inverse_fuint8 (value : BitVec 8) :
    Inverse (fun s v => some (s.writeFuint8 v)) readFuint8 value :=
  fun _ => ⟨[.ofBitVec value], fun _ => rfl, fun _ => rfl⟩

theorem inverse_varint {w room : Nat} (hw : 0 < w) (hroom : 2 ^ w ≤ 128 ^ (room + 1))
    (value : BitVec w) :
    Inverse (fun s v => (Varint.write (room + 1) v.toNat).map s.write) (fun s => s.readVarint w)
      value := by
  intro e
  obtain ⟨bytes, hwrite, hread⟩ := Varint.read_write_zero hw room hroom value
  refine ⟨bytes, fun data => ?_, fun rest => ?_⟩
  · dsimp only
    rw [hwrite]
    rfl
  · dsimp only [readVarint]
    rw [hread]
    rfl

theorem inverse_uint32 (value : BitVec 32) : Inverse writeUint32 readUint32 value :=
  inverse_varint (by decide) (by decide) value

theorem inverse_uint64 (value : BitVec 64) : Inverse writeUint64 readUint64 value :=
  inverse_varint (by decide) (by decide) value

/-- A pair that encodes a value and hands the code to another pair. -/
theorem Inverse.map {α β : Type} {writer : Stream → β → Option Stream}
    {reader : Stream → Option (β × Stream)} {encode : α → β} {decode : β → α} {v : α}
    (h : Inverse writer reader (encode v)) (hv : decode (encode v) = v) :
    Inverse (fun s v => writer s (encode v))
      (fun s => (reader s).map fun (c, s') => (decode c, s')) v := by
  intro e
  obtain ⟨bytes, hwrite, hread⟩ := h e
  refine ⟨bytes, hwrite, fun rest => ?_⟩
  dsimp only
  rw [hread, Option.map_some, hv]

/-! ## Variable lengths -/

/-- What the writer appends for `v`, `n` bytes, the reader takes off again as `r`, whatever comes
after it. -/
def ReadsAs {α β : Type} (writer : Stream → α → Option Stream)
    (reader : Stream → Option (β × Stream)) (v : α) (n : Nat) (r : β) : Prop :=
  ∀ e, ∃ bytes : List UInt8, bytes.length = n ∧
    (∀ data, writer ⟨e, data⟩ v = some ⟨e, data ++ bytes⟩) ∧
    ∀ rest, reader ⟨e, bytes ++ rest⟩ = some (r, ⟨e, rest⟩)

/-- The width of the writer and that of the reader do not matter, only that the number fits both. -/
theorem readsAs_varint {w w' room : Nat} (hw : 0 < w') {v : BitVec w} {v' : BitVec w'}
    (hsame : v.toNat = v'.toNat) (hroom : v.toNat < 128 ^ (room + 1)) :
    ReadsAs (fun s (v : BitVec w) => (Varint.write (room + 1) v.toNat).map s.write)
      (fun s => s.readVarint w') v (Varint.groups v.toNat) v' := by
  intro e
  obtain ⟨bytes, hwrite, hread⟩ :=
    Varint.read_write_ofNat hw room (hsame ▸ v'.isLt : v.toNat < 2 ^ w') hroom
  refine ⟨bytes, Varint.length_write hwrite, fun data => ?_, fun rest => ?_⟩
  · dsimp only
    rw [hwrite]
    rfl
  · dsimp only [readVarint]
    rw [hread, hsame, BitVec.ofNat_toNat, BitVec.setWidth_eq]
    rfl

theorem ReadsAs.map {α β γ δ : Type} {writer : Stream → β → Option Stream}
    {reader : Stream → Option (γ × Stream)} {encode : α → β} {decode : γ → δ} {v : α} {n : Nat}
    {c : γ} {r : δ} (h : ReadsAs writer reader (encode v) n c) (hr : decode c = r) :
    ReadsAs (fun s v => writer s (encode v))
      (fun s => (reader s).map fun (c, s') => (decode c, s')) v n r := by
  intro e
  obtain ⟨bytes, hlength, hwrite, hread⟩ := h e
  refine ⟨bytes, hlength, hwrite, fun rest => ?_⟩
  dsimp only
  rw [hread, Option.map_some, hr]

/-- The codes of the same integer are the same number at both widths. -/
theorem toNat_EncodeZigzag {v : BitVec 32} {v' : BitVec 64} (h : v.toInt = v'.toInt) :
    (EncodeZigzag32 v).toNat = (EncodeZigzag64 v').toNat := by
  have h32 := Varint.toNat_encodeZigzag v
  have h64 := Varint.toNat_encodeZigzag v'
  rw [← h] at h64
  exact Int.ofNat_inj.mp (h32.trans h64.symm)

/-- An integer of variable length takes as many bytes as it has groups of seven bits, and is read
back. The codes of signed integers are one to one with them. A number that has 32 and 64 bits is
written at one width and read at the other. -/
theorem variable_lengths :
    (∀ v : BitVec 64, Varint.groups v.toNat ≤ 10 ∧
      ReadsAs writeUint64 readUint64 v (Varint.groups v.toNat) v) ∧
    (∀ v : BitVec 32, Varint.groups v.toNat ≤ 5 ∧
      ReadsAs writeUint32 readUint32 v (Varint.groups v.toNat) v) ∧
    (∀ v, DecodeZigzag64 (EncodeZigzag64 v) = v ∧ EncodeZigzag64 (DecodeZigzag64 v) = v) ∧
    (∀ v, DecodeZigzag32 (EncodeZigzag32 v) = v ∧ EncodeZigzag32 (DecodeZigzag32 v) = v) ∧
    (∀ (v : BitVec 32) (v' : BitVec 64), v.toNat = v'.toNat →
      ReadsAs writeUint32 readUint64 v (Varint.groups v.toNat) v' ∧
      ReadsAs writeUint64 readUint32 v' (Varint.groups v.toNat) v) ∧
    ∀ (v : BitVec 32) (v' : BitVec 64), v.toInt = v'.toInt →
      ReadsAs writeInt32 readInt64 v (Varint.groups (EncodeZigzag32 v).toNat) v' ∧
      ReadsAs writeInt64 readInt32 v' (Varint.groups (EncodeZigzag32 v).toNat) v := by
  have h32 : ∀ v : BitVec 32, v.toNat < 128 ^ 5 := fun v => Nat.lt_trans v.isLt (by decide)
  have h64 : ∀ v : BitVec 64, v.toNat < 128 ^ 10 := fun v => Nat.lt_trans v.isLt (by decide)
  have hwiden : ∀ (v : BitVec 32) (v' : BitVec 64), v.toNat = v'.toNat →
      ReadsAs writeUint32 readUint64 v (Varint.groups v.toNat) v' ∧
      ReadsAs writeUint64 readUint32 v' (Varint.groups v.toNat) v := by
    intro v v' hsame
    refine ⟨readsAs_varint (by decide) hsame (h32 v), ?_⟩
    rw [hsame]
    exact readsAs_varint (by decide) hsame.symm (h64 v')
  refine ⟨fun v => ⟨?_, readsAs_varint (by decide) rfl (h64 v)⟩,
    fun v => ⟨?_, readsAs_varint (by decide) rfl (h32 v)⟩,
    fun v => ⟨Varint.decodeZigzag_encodeZigzag v, Varint.encodeZigzag_decodeZigzag v⟩,
    fun v => ⟨Varint.decodeZigzag_encodeZigzag v, Varint.encodeZigzag_decodeZigzag v⟩,
    hwiden, fun v v' hsame => ?_⟩
  · exact Varint.groups_le (by decide) (Nat.lt_trans v.isLt (by decide))
  · exact Varint.groups_le (by decide) (Nat.lt_trans v.isLt (by decide))
  · obtain ⟨hto64, hto32⟩ := hwiden _ _ (toNat_EncodeZigzag hsame)
    exact ⟨hto64.map (Varint.decodeZigzag_encodeZigzag v'),
      hto32.map (Varint.decodeZigzag_encodeZigzag v)⟩

/-- The least integer of 32 bits. -/
theorem variable_lengths_minimum :
    ReadsAs writeInt32 readInt64 0x80000000#32 5 0xFFFFFFFF80000000#64 ∧
      ReadsAs writeInt64 readInt32 0xFFFFFFFF80000000#64 5 0x80000000#32 :=
  variable_lengths.2.2.2.2.2 _ _ (by decide)

/-! ## Strings -/

theorem readBuff_append (e : ByteOrder) (len : BitVec 64) (buf : List UInt8)
    (hlen : len.toNat ≤ buf.length) : ∃ v : StdString, v.1 = buf.take len.toNat ∧
      readBuff ⟨e, buf⟩ len = some (v, ⟨e, buf.drop len.toNat⟩) :=
  ⟨_, rfl, if_neg (Nat.not_lt.mpr hlen)⟩

/-- A string is read back as far as its prefix tells its length. -/
theorem readBuff_prefix {w : Nat} (hw : w ≤ 64) {writer : Stream → BitVec w → Option Stream}
    {reader : Stream → Option (BitVec w × Stream)} (value : StdString)
    (h : Inverse writer reader (value.size.setWidth w)) :
    ∀ e, ∃ bytes,
      (∀ data, (writer ⟨e, data⟩ (value.size.setWidth w)).map (fun s => s.write value.1) =
        some ⟨e, data ++ bytes⟩) ∧
      ∀ rest, ∃ v : StdString, v.1 = value.1.take (value.1.length % 2 ^ w) ∧
        (reader ⟨e, bytes ++ rest⟩).bind (fun (len, s') => s'.readBuff (len.setWidth 64)) =
          some (v, ⟨e, value.1.drop (value.1.length % 2 ^ w) ++ rest⟩) := by
  intro e
  obtain ⟨bytes, hwrite, hread⟩ := h e
  have hlen : ((value.size.setWidth w).setWidth 64).toNat = value.1.length % 2 ^ w := by
    rw [BitVec.toNat_setWidth, BitVec.toNat_setWidth, StdString.toNat_size]
    apply Nat.mod_eq_of_lt
    exact Nat.lt_of_lt_of_le (Nat.mod_lt _ (Nat.two_pow_pos w))
      (Nat.pow_le_pow_right (by decide) hw)
  have hle : value.1.length % 2 ^ w ≤ value.1.length := Nat.mod_le _ _
  refine ⟨bytes ++ value.1, fun data => ?_, fun rest => ?_⟩
  · rw [hwrite, ← List.append_assoc]
    rfl
  · obtain ⟨v, hv, heq⟩ := readBuff_append e ((value.size.setWidth w).setWidth 64)
      (value.1 ++ rest) (by rw [hlen, List.length_append]; omega)
    rw [hlen] at hv heq
    rw [List.take_append_of_le_length hle] at hv
    rw [List.drop_append_of_le_length hle] at heq
    refine ⟨v, hv, ?_⟩
    rw [List.append_assoc, hread]
    exact heq

theorem inverse_string {w : Nat} (hw : w ≤ 64) {writer : Stream → BitVec w → Option Stream}
    {reader : Stream → Option (BitVec w × Stream)} (value : StdString)
    (hvalue : value.1.length < 2 ^ w) (h : Inverse writer reader (value.size.setWidth w)) :
    Inverse (fun s v => (writer s (v.size.setWidth w)).map (fun s => s.write v.1))
      (fun s => (reader s).bind fun (len, s') => s'.readBuff (len.setWidth 64)) value := by
  intro e
  obtain ⟨bytes, hwrite, hread⟩ := readBuff_prefix hw value h e
  refine ⟨bytes, hwrite, fun rest => ?_⟩
  obtain ⟨v, hv, heq⟩ := hread rest
  rw [Nat.mod_eq_of_lt hvalue, List.take_length] at hv
  rw [Nat.mod_eq_of_lt hvalue, List.drop_length, List.nil_append] at heq
  apply heq.trans
  rw [Subtype.ext hv]

end Stream

end Captain.ByteArray
