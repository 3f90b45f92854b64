import Captain.ByteArray.Codec

/-!
# Typed values read back from a `ByteArray`

`Kind` lists the types that have a writer and a reader, and an `Item` is one value written or one
`setIsLittleEndian` between two values. Every pair of `Kind.inverse` leaves in place what follows
it, so `readAll_writeAll` reads back a whole list of items. `unread` is the stream that a
`ByteArray` is to its readers.
-/

namespace Captain.ByteArray

inductive Kind
  | fint8
  | fuint8
  | fint16
  | fuint16
  | fint32
  | fuint32
  | fint64
  | fuint64
  | int32
  | uint32
  | int64
  | uint64
  | float
  | double
  | stringF16
  | stringF32
  | stringF64
  | stringVint
  deriving DecidableEq, Repr

namespace Kind

abbrev Value : Kind → Type
  | fint8 | fuint8 => BitVec 8
  | fint16 | fuint16 => BitVec 16
  | fint32 | fuint32 | int32 | uint32 | float => BitVec 32
  | fint64 | fuint64 | int64 | uint64 | double => BitVec 64
  | stringF16 | stringF32 | stringF64 | stringVint => StdString

def write (host : ByteOrder) : (k : Kind) → Stream → k.Value → Option Stream
  | fint8, s, value => some (s.writeFint8 value)
  | fuint8, s, value => some (s.writeFuint8 value)
  | fint16, s, value => some (s.writeFint16 host value)
  | fuint16, s, value => some (s.writeFuint16 host value)
  | fint32, s, value => some (s.writeFint32 host value)
  | fuint32, s, value => some (s.writeFuint32 host value)
  | fint64, s, value => some (s.writeFint64 host value)
  | fuint64, s, value => some (s.writeFuint64 host value)
  | int32, s, value => s.writeInt32 value
  | uint32, s, value => s.writeUint32 value
  | int64, s, value => s.writeInt64 value
  | uint64, s, value => s.writeUint64 value
  | float, s, value => some (s.writeFloat host value)
  | double, s, value => some (s.writeDouble host value)
  | stringF16, s, value => some (s.writeStringF16 host value)
  | stringF32, s, value => some (s.writeStringF32 host value)
  | stringF64, s, value => some (s.writeStringF64 host value)
  | stringVint, s, value => s.writeStringVint value

def read (host : ByteOrder) : (k : Kind) → Stream → Option (k.Value × Stream)
  | fint8, s => s.readFint8
  | fuint8, s => s.readFuint8
  | fint16, s => s.readFint16 host
  | fuint16, s => s.readFuint16 host
  | fint32, s => s.readFint32 host
  | fuint32, s => s.readFuint32 host
  | fint64, s => s.readFint64 host
  | fuint64, s => s.readFuint64 host
  | int32, s => s.readInt32
  | uint32, s => s.readUint32
  | int64, s => s.readInt64
  | uint64, s => s.readUint64
  | float, s => s.readFloat host
  | double, s => s.readDouble host
  | stringF16, s => s.readStringF16 host
  | stringF32, s => s.readStringF32 host
  | stringF64, s => s.readStringF64 host
  | stringVint, s => s.readStringVint

/-- The number of bytes of a fixed-width kind. -/
def width : Kind → Option Nat
  | fint8 | fuint8 => some 1
  | fint16 | fuint16 => some 2
  | fint32 | fuint32 | float => some 4
  | fint64 | fuint64 | double => some 8
  | _ => none

/-- A string's length is one its 16-bit prefix can tell. -/
def Short : (k : Kind) → k.Value → Prop
  | stringF16, value => value.1.length < 2 ^ 16
  | _, _ => True

/-- A string's length is one its 16-bit or 32-bit prefix can tell. -/
def Fits : (k : Kind) → k.Value → Prop
  | stringF16, value => value.1.length < 2 ^ 16
  | stringF32, value => value.1.length < 2 ^ 32
  | _, _ => True

open Captain.ByteArray.Stream

theorem inverse (writer reader : ByteOrder) (k : Kind) (v : k.Value) (h : k.Fits v) :
    Inverse (k.write writer) (k.read reader) v := by
  cases k with
  | fint8 => exact inverse_fuint8 v
  | fuint8 => exact inverse_fuint8 v
  | fint16 => exact inverse_fixed writer reader 2 v
  | fuint16 => exact inverse_fixed writer reader 2 v
  | fint32 => exact inverse_fixed writer reader 4 v
  | fuint32 => exact inverse_fixed writer reader 4 v
  | fint64 => exact inverse_fixed writer reader 8 v
  | fuint64 => exact inverse_fixed writer reader 8 v
  | int32 => exact (inverse_uint32 _).map (Varint.decodeZigzag_encodeZigzag v)
  | uint32 => exact inverse_uint32 v
  | int64 => exact (inverse_uint64 _).map (Varint.decodeZigzag_encodeZigzag v)
  | uint64 => exact inverse_uint64 v
  | float => exact inverse_fixed writer reader 4 v
  | double => exact inverse_fixed writer reader 8 v
  | stringF16 => exact inverse_string (by decide) v h (inverse_fixed writer reader 2 _)
  | stringF32 => exact inverse_string (by decide) v h (inverse_fixed writer reader 4 _)
  | stringF64 => exact inverse_string (by decide) v v.2 (inverse_fixed writer reader 8 _)
  | stringVint => exact inverse_string (by decide) v v.2 (inverse_uint64 _)

/-- The bytes of a fixed-width value depend on the selected order and on nothing else. -/
theorem write_fixed (k : Kind) (v : k.Value) {n : Nat} (hn : k.width = some n) :
    ∃ bytes : ByteOrder → List UInt8, (∀ e, (bytes e).length = n) ∧
      ∀ host s, k.write host s v = some (s.write (bytes s.m_endian)) := by
  have hfixed : ∀ (n : Nat) (value : BitVec (8 * n)), ∃ bytes : ByteOrder → List UInt8,
      (∀ e, (bytes e).length = n) ∧
      ∀ host (s : Stream), some (s.writeFixed host n value) = some (s.write (bytes s.m_endian)) :=
    fun n value => ⟨fun e => e.store n value.toNat, fun e => ByteOrder.length_store e n _,
      fun host s => congrArg some (writeFixed_eq host s n value)⟩
  have hbyte : ∀ value : BitVec 8, ∃ bytes : ByteOrder → List UInt8,
      (∀ e, (bytes e).length = 1) ∧
      ∀ (_ : ByteOrder) (s : Stream),
        some (s.writeFuint8 value) = some (s.write (bytes s.m_endian)) :=
    fun value => ⟨fun _ => [.ofBitVec value], fun _ => rfl, fun _ _ => rfl⟩
  cases k <;> cases hn
  case fint8 | fuint8 => exact hbyte v
  case fint16 | fuint16 => exact hfixed 2 v
  case fint32 | fuint32 | float => exact hfixed 4 v
  case fint64 | fuint64 | double => exact hfixed 8 v

end Kind

/-- A value, or what stands for it, or a switch of the byte order. -/
inductive Item (V : Kind → Type)
  | value (k : Kind) (v : V k)
  | setIsLittleEndian (val : Bool)

namespace Item

/-- What a reader has to know of a list of items: the kinds and the switches. -/
def shape : Item Kind.Value → Item fun _ => Unit
  | value k _ => value k ()
  | setIsLittleEndian val => setIsLittleEndian val

def Short : Item Kind.Value → Prop
  | value k v => k.Short v
  | setIsLittleEndian _ => True

def Fits : Item Kind.Value → Prop
  | value k v => k.Fits v
  | setIsLittleEndian _ => True

end Item

def values : List (Item Kind.Value) → List ((k : Kind) × k.Value)
  | [] => []
  | .value k v :: items => ⟨k, v⟩ :: values items
  | .setIsLittleEndian _ :: items => values items

namespace Stream

def writeAll (host : ByteOrder) : List (Item Kind.Value) → Stream → Option Stream
  | [], s => some s
  | .value k v :: items, s => (k.write host s v).bind (writeAll host items)
  | .setIsLittleEndian val :: items, s => writeAll host items (s.setIsLittleEndian val)

def readAll (host : ByteOrder) :
    List (Item fun _ => Unit) → Stream → Option (List ((k : Kind) × k.Value) × Stream)
  | [], s => some ([], s)
  | .value k () :: items, s => do
    let (v, s) ← k.read host s
    let (vs, s) ← readAll host items s
    return (⟨k, v⟩ :: vs, s)
  | .setIsLittleEndian val :: items, s => readAll host items (s.setIsLittleEndian val)

theorem readAll_value (host : ByteOrder) (k : Kind) {s s' : Stream} {v : k.Value}
    (h : k.read host s = some (v, s')) :
    readAll host [.value k ()] s = some ([⟨k, v⟩], s') := by
  rw [readAll, h]
  rfl

/-- By induction on the items: each appends bytes that its reader takes off again. -/
theorem readAll_writeAll (writer reader : ByteOrder) (items : List (Item Kind.Value))
    (h : ∀ i ∈ items, i.Fits) :
    ∀ e, ∃ e' bytes, (∀ data, writeAll writer items ⟨e, data⟩ = some ⟨e', data ++ bytes⟩) ∧
      ∀ rest, readAll reader (items.map Item.shape) ⟨e, bytes ++ rest⟩ =
        some (values items, ⟨e', rest⟩) := by
  induction items with
  | nil =>
    intro e
    refine ⟨e, [], fun data => ?_, fun rest => rfl⟩
    rw [List.append_nil]
    rfl
  | cons item items ih =>
    intro e
    have hitems := ih fun i hi => h i (List.mem_cons_of_mem _ hi)
    cases item with
    | value k v =>
      obtain ⟨b₁, hwrite₁, hread₁⟩ := k.inverse writer reader v (h _ List.mem_cons_self) e
      obtain ⟨e', b₂, hwrite₂, hread₂⟩ := hitems e
      refine ⟨e', b₁ ++ b₂, fun data => ?_, fun rest => ?_⟩
      · rw [writeAll, hwrite₁, Option.bind_some, hwrite₂, List.append_assoc]
      · rw [List.map_cons, Item.shape, readAll, List.append_assoc, hread₁]
        show (readAll reader _ ⟨e, b₂ ++ rest⟩).bind _ = _
        rw [hread₂]
        rfl
    | setIsLittleEndian val => exact hitems _

/-- A list of values of any kinds, with switches of the byte order anywhere between them, is read
back whole, whichever machine reads it, and nothing is left; what a fixed-width value leaves in the
array depends on the selected order alone. -/
theorem roundTrip (writer : ByteOrder) (e : ByteOrder) (items : List (Item Kind.Value))
    (h : ∀ i ∈ items, i.Fits) :
    (∃ s, writeAll writer items ⟨e, []⟩ = some s ∧
      ∀ reader, ∃ s', readAll reader (items.map Item.shape) ⟨e, s.data⟩ = some (values items, s') ∧
        s'.getReadSize = 0) ∧
    ∀ (k : Kind) (v : k.Value) (n : Nat), k.width = some n →
      ∃ bytes : ByteOrder → List UInt8, (∀ e, (bytes e).length = n) ∧
        ∀ host s, k.write host s v = some (s.write (bytes s.m_endian)) := by
  refine ⟨?_, fun k v n hn => k.write_fixed v hn⟩
  obtain ⟨e', bytes, hwrite, -⟩ := readAll_writeAll writer writer items h e
  refine ⟨⟨e', bytes⟩, hwrite [], fun reader => ?_⟩
  obtain ⟨e'', bytes', hwrite', hread⟩ := readAll_writeAll writer reader items h e
  have hsame := (hwrite []).symm.trans (hwrite' [])
  cases hsame
  refine ⟨⟨e', []⟩, ?_, rfl⟩
  have hnil := hread []
  rwa [List.append_nil] at hnil

theorem roundTrip_switched :
    ∃ s, writeAll .little [.value .fint16 0x0102#16, .setIsLittleEndian true,
        .value .int32 0x80000000#32, .value .stringVint ⟨[7, 8], by decide⟩] ⟨.big, []⟩ = some s ∧
      ∀ reader, ∃ s', readAll reader [.value .fint16 (), .setIsLittleEndian true, .value .int32 (),
          .value .stringVint ()] ⟨.big, s.data⟩ =
        some ([⟨.fint16, 0x0102#16⟩, ⟨.int32, 0x80000000#32⟩,
            ⟨.stringVint, ⟨[7, 8], by decide⟩⟩], s') ∧
          s'.getReadSize = 0 := by
  apply (roundTrip .little .big [.value .fint16 0x0102#16, .setIsLittleEndian true,
    .value .int32 0x80000000#32, .value .stringVint ⟨[7, 8], by decide⟩] ?_).1
  intro i hi
  simp only [List.mem_cons, List.not_mem_nil, or_false] at hi
  rcases hi with rfl | rfl | rfl | rfl <;> exact trivial

/-- The prefix of a string of `2 ^ 32` bytes tells the length zero. -/
theorem not_roundTrip :
    ¬∀ (host e : ByteOrder) (items : List (Item Kind.Value)), (∀ i ∈ items, i.Short) →
      ∃ s, writeAll host items ⟨e, []⟩ = some s ∧
        ∃ s', readAll host (items.map Item.shape) ⟨e, s.data⟩ = some (values items, s') ∧
          s'.getReadSize = 0 := by
  intro h
  obtain ⟨value, hvalue⟩ : ∃ value : StdString, value.1.length = 2 ^ 32 :=
    ⟨⟨List.replicate (2 ^ 32) 0, by rw [List.length_replicate]; decide⟩, List.length_replicate⟩
  obtain ⟨s, hwrite, s', hread, -⟩ := h .little .big [.value .stringF32 value] (by
    intro i hi
    rw [List.mem_singleton.mp hi]
    exact trivial)
  obtain ⟨bytes, hwrite', hread'⟩ := readBuff_prefix (by decide) value
    (inverse_fixed .little .little 4 (value.size.setWidth 32)) .big
  obtain ⟨v, hv, heq⟩ := hread' []
  rw [hvalue, Nat.mod_self, List.take_zero] at hv
  rw [List.append_nil] at heq
  have hs : some s = some (⟨.big, bytes⟩ : Stream) := hwrite.symm.trans (hwrite' [])
  cases hs
  have hone := readAll_value .little .stringF32 (s := ⟨.big, bytes⟩) heq
  have hsame := hone.symm.trans hread
  simp only [values, Option.some.injEq, Prod.mk.injEq, List.cons.injEq, Sigma.mk.injEq,
    heq_eq_eq, true_and, and_true] at hsame
  rw [← hsame.1, hv] at hvalue
  exact absurd hvalue (by decide)

/-! ## A string whose length does not fit its prefix -/

/-- What is written is read as far as the prefix tells, which is the value if it fits and another
one if it does not. -/
theorem read_write (writer reader : ByteOrder) (k : Kind) (v : k.Value) (e : ByteOrder) :
    ∃ bytes, (∀ data, k.write writer ⟨e, data⟩ v = some ⟨e, data ++ bytes⟩) ∧
      ∀ rest, ∃ v' s, k.read reader ⟨e, bytes ++ rest⟩ = some (v', s) ∧
        (v' = v ↔ k.Fits v) ∧ (k.Fits v → s = ⟨e, rest⟩) := by
  have hlong : ∀ {w : Nat} {value v' : StdString}, ¬value.1.length < 2 ^ w →
      v'.1 = value.1.take (value.1.length % 2 ^ w) → v' ≠ value := by
    intro w value v' hfits hv heq
    have hmod := Nat.mod_lt value.1.length (Nat.two_pow_pos w)
    have hlength := congrArg List.length hv
    rw [heq, List.length_take] at hlength
    omega
  by_cases hfits : k.Fits v
  · obtain ⟨bytes, hwrite, hread⟩ := k.inverse writer reader v hfits e
    exact ⟨bytes, hwrite, fun rest =>
      ⟨v, _, hread rest, iff_of_true rfl hfits, fun _ => rfl⟩⟩
  · cases k <;> try exact absurd trivial hfits
    case stringF16 =>
      obtain ⟨bytes, hwrite, hread⟩ := readBuff_prefix (by decide) v
        (inverse_fixed writer reader 2 (v.size.setWidth 16)) e
      refine ⟨bytes, hwrite, fun rest => ?_⟩
      obtain ⟨v', hv, heq⟩ := hread rest
      exact ⟨v', _, heq, iff_of_false (hlong hfits hv) hfits, fun h => absurd h hfits⟩
    case stringF32 =>
      obtain ⟨bytes, hwrite, hread⟩ := readBuff_prefix (by decide) v
        (inverse_fixed writer reader 4 (v.size.setWidth 32)) e
      refine ⟨bytes, hwrite, fun rest => ?_⟩
      obtain ⟨v', hv, heq⟩ := hread rest
      exact ⟨v', _, heq, iff_of_false (hlong hfits hv) hfits, fun h => absurd h hfits⟩

/-- By induction on the items: up to the first that does not fit, each is taken off again, and that
one is read as another. -/
theorem fits_of_readAll (writer reader : ByteOrder) (items : List (Item Kind.Value)) :
    ∀ e, ∃ e' bytes, (∀ data, writeAll writer items ⟨e, data⟩ = some ⟨e', data ++ bytes⟩) ∧
      ∀ rest s, readAll reader (items.map Item.shape) ⟨e, bytes ++ rest⟩ = some (values items, s) →
        ∀ i ∈ items, i.Fits := by
  induction items with
  | nil =>
    intro e
    refine ⟨e, [], fun data => ?_, fun _ _ _ i hi => absurd hi List.not_mem_nil⟩
    rw [List.append_nil]
    rfl
  | cons item items ih =>
    intro e
    cases item with
    | value k v =>
      obtain ⟨b₁, hwrite₁, hread₁⟩ := read_write writer reader k v e
      obtain ⟨e', b₂, hwrite₂, hread₂⟩ := ih e
      refine ⟨e', b₁ ++ b₂, fun data => ?_, fun rest s hread => ?_⟩
      · rw [writeAll, hwrite₁, Option.bind_some, hwrite₂, List.append_assoc]
      · obtain ⟨v', s₁, hrun₁, hsame, hrest⟩ := hread₁ (b₂ ++ rest)
        rw [List.map_cons, Item.shape, readAll, List.append_assoc, hrun₁] at hread
        change (readAll reader _ s₁).bind _ = _ at hread
        obtain ⟨⟨vs, s₂⟩, hrun₂, hpure⟩ := Option.bind_eq_some_iff.mp hread
        cases hpure
        have hfits : k.Fits v := hsame.mp rfl
        rw [hrest hfits] at hrun₂
        intro i hi
        rcases List.mem_cons.mp hi with rfl | hi
        · exact hfits
        · exact hread₂ rest _ hrun₂ i hi
    | setIsLittleEndian val =>
      obtain ⟨e', bytes, hwrite, hread⟩ := ih (if val then .little else .big)
      refine ⟨e', bytes, hwrite, fun rest s hrun i hi => ?_⟩
      rcases List.mem_cons.mp hi with rfl | hi
      · exact trivial
      · exact hread rest s hrun i hi

/-- The items are read back from the start, and nothing is left. -/
def ReadBack (writer reader e : ByteOrder) (items : List (Item Kind.Value)) : Prop :=
  ∃ s, writeAll writer items ⟨e, []⟩ = some s ∧
    ∃ s', readAll reader (items.map Item.shape) ⟨e, s.data⟩ = some (values items, s') ∧
      s'.getReadSize = 0

/-- The string is read back, and the next reader starts with the bytes that the items after it have
written. -/
def InStep (writer reader e : ByteOrder) (value : StdString) (items : List (Item Kind.Value)) :
    Prop :=
  ∃ s tail, writeAll writer (.value .stringF16 value :: items) ⟨e, []⟩ = some s ∧
    writeAll writer items ⟨e, []⟩ = some tail ∧
    readStringF16 reader ⟨e, s.data⟩ = some (value, ⟨e, tail.data⟩)

theorem allFit_iff (writer reader e : ByteOrder) (items : List (Item Kind.Value)) :
    ReadBack writer reader e items ↔ ∀ i ∈ items, i.Fits := by
  constructor
  · rintro ⟨s, hwrite, s', hread, -⟩
    obtain ⟨e', bytes, hwrite', hfits⟩ := fits_of_readAll writer reader items e
    have hsame := hwrite.symm.trans (hwrite' [])
    cases hsame
    apply hfits [] s'
    rwa [List.append_nil]
  · intro hfits
    obtain ⟨e', bytes, hwrite, hread⟩ := readAll_writeAll writer reader items hfits e
    have hnil := hread []
    rw [List.append_nil] at hnil
    exact ⟨_, hwrite [], _, hnil, rfl⟩

/-- A string and the items behind it stay in step when the string's length fits its prefix, and only
then: a longer one is written all the same. -/
theorem stringF16_iff (writer reader e : ByteOrder) (value : StdString)
    (items : List (Item Kind.Value)) :
    (InStep writer reader e value items ↔ value.1.length < 2 ^ 16) ∧
      (ReadBack writer reader e (.value .stringF16 value :: items) ↔
        value.1.length < 2 ^ 16 ∧ ∀ i ∈ items, i.Fits) := by
  refine ⟨?_, (allFit_iff writer reader e _).trans List.forall_mem_cons⟩
  obtain ⟨bytes, hwrite, hread⟩ := read_write writer reader .stringF16 value e
  obtain ⟨e', tail, htail, -⟩ := fits_of_readAll writer reader items e
  obtain ⟨v, s, hrun, hsame, hrest⟩ := hread tail
  have hall : writeAll writer (.value .stringF16 value :: items) ⟨e, []⟩ =
      some ⟨e', bytes ++ tail⟩ := by
    rw [writeAll, hwrite, Option.bind_some, htail]
    rfl
  constructor
  · rintro ⟨s₁, s₂, h₁, -, hvalue⟩
    cases hall.symm.trans h₁
    cases hrun.symm.trans hvalue
    exact hsame.mp rfl
  · intro hfits
    refine ⟨_, _, hall, htail [], ?_⟩
    rw [hsame.mpr hfits, hrest hfits] at hrun
    exact hrun

/-- Of a string of `2 ^ 16` bytes the prefix tells the length zero. -/
theorem not_stringF16 : ∃ value : StdString, value.1.length = 2 ^ 16 ∧
    ¬InStep .little .little .big value [.value .fuint8 1#8] ∧
    ¬ReadBack .little .little .big [.value .stringF16 value, .value .fuint8 1#8] := by
  obtain ⟨value, hvalue⟩ : ∃ value : StdString, value.1.length = 2 ^ 16 :=
    ⟨⟨List.replicate (2 ^ 16) 0, by rw [List.length_replicate]; decide⟩, List.length_replicate⟩
  have hlong : ¬Kind.stringF16.Fits value := by
    rw [Kind.Fits, hvalue]
    decide
  refine ⟨value, hvalue, ?_, fun hback => ?_⟩
  · rintro ⟨s, tail, hwrite, -, hread⟩
    obtain ⟨bytes, hwrite', hread'⟩ := read_write .little .little .stringF16 value .big
    rw [writeAll, hwrite', Option.bind_some] at hwrite
    cases hwrite
    obtain ⟨v, s, hrun, hsame, -⟩ := hread' [1]
    cases hrun.symm.trans hread
    exact hlong (hsame.mp rfl)
  · exact hlong ((allFit_iff _ _ _ _).mp hback _ List.mem_cons_self)

end Stream

/-! ## The stream of a `ByteArray` -/

/-- What there is to read. -/
def unread (b : ByteArray) (e : ByteOrder) : Stream :=
  ⟨e, Chunks.slice b.nodes.bytes b.m_position b.getReadSize⟩

end Captain.ByteArray
