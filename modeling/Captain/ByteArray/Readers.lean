import Captain.ByteArray.RoundTrip
import Captain.ByteArray.File

/-!
# The readers of a `ByteArray` that make several reads

An integer of variable length is read byte by byte, and a string as its length, the room for it and
its bytes. An exception leaves the array as the reads before it have left it, so a `Reader` has the
state in which it throws.

* `Takes`: a reader that takes as many bytes as its value needs, and throws when there are not as
  many, having lost some.
* `readFixed_of_le`, `readVarint_of_needs`, `readBuff_item`: the readers of a `Stream` make the same
  of the same bytes.
* `Composite.read_atomic_iff`: when a reader returns its value or leaves the array alone, and
  allocates no more than there is to read.
-/

namespace Captain.ByteArray

open Chunks Transition Captain.ByteArray.Stream

/-- What `resize` throws. -/
inductive Refusal
  | length_error
  | bad_alloc
  deriving DecidableEq, Repr

/-- What is thrown, or goes wrong. -/
inductive Raised
  | fault (f : Fault)
  | refused (r : Refusal)
  deriving DecidableEq, Repr

/-- The array, and the sizes of the buffers that have been allocated. -/
structure Session where
  array : ByteArray
  allocated : List Nat := []
  deriving DecidableEq, Repr

abbrev Reader := EStateM Raised Session

namespace Reader

/-- `read(buf, size)`. -/
def take (size : Nat) : Reader (List UInt8) := fun s =>
  match s.array.read size with
  | .ok (b, buf) => .ok buf { s with array := b }
  | .error f => .error (.fault f) s

/-- `buff.resize(len)` of an empty string; `refuses` is what it throws for a length. -/
def resize (refuses : Nat → Option Refusal) (len : Nat) : Reader Unit := fun s =>
  match refuses len with
  | some r => .error (.refused r) s
  | none => .ok () { s with allocated := len :: s.allocated }

def readFuint8 : Reader UInt8 := do
  let buf ← take 1
  return buf.headD 0

/-- The loop of `readUint32` and `readUint64`, in as many turns as `i` takes to reach `w`. -/
def varintLoop (w : Nat) : Nat → Nat → BitVec w → Reader (BitVec w)
  | 0, _, result => pure result
  | turns + 1, i, result =>
    if i < w then do
      let b ← readFuint8
      if b < 0x80 then pure (result ||| (BitVec.ofNat w b.toNat) <<< i)
      else varintLoop w turns (i + 7) (result ||| (BitVec.ofNat w (b &&& 0x7F).toNat) <<< i)
    else pure result

def readUint32 : Reader (BitVec 32) := varintLoop 32 5 0 0#32

def readInt32 : Reader (BitVec 32) := do return Stream.DecodeZigzag32 (← readUint32)

def readUint64 : Reader (BitVec 64) := varintLoop 64 10 0 0#64

def readInt64 : Reader (BitVec 64) := do return Stream.DecodeZigzag64 (← readUint64)

section

variable (host m_endian : ByteOrder)

/-- The macro `XX`. -/
def readFixed (n : Nat) : Reader (BitVec (8 * n)) := do
  let buf ← take n
  let v := BitVec.ofNat (8 * n) (host.load buf)
  return if m_endian = host then v else byteswap n v

def readFuint16 : Reader (BitVec 16) := readFixed host m_endian 2

def readFuint32 : Reader (BitVec 32) := readFixed host m_endian 4

def readFuint64 : Reader (BitVec 64) := readFixed host m_endian 8

variable (refuses : Nat → Option Refusal)

/-- `std::string buff; buff.resize(len); read(&buff[0], len);`, after `len` is read. -/
def readString {w : Nat} (len : Reader (BitVec w)) : Reader (List UInt8) := do
  let len ← len
  resize refuses len.toNat
  take len.toNat

def readStringF16 : Reader (List UInt8) := readString refuses (readFuint16 host m_endian)

def readStringF32 : Reader (List UInt8) := readString refuses (readFuint32 host m_endian)

def readStringF64 : Reader (List UInt8) := readString refuses (readFuint64 host m_endian)

def readStringVint : Reader (List UInt8) := readString refuses readUint64

end

end Reader

/-! ## Skipping -/

/-- The bytes that there are to read. -/
def rest (b : ByteArray) : List UInt8 := slice b.nodes.bytes b.m_position b.getReadSize

/-- The array after `n` bytes have been read. -/
def skip (b : ByteArray) (n : Nat) : ByteArray :=
  { b with
    m_position := b.m_position + n
    m_cur := b.nodes.cursor b.m_baseSize (b.m_position + n) }

namespace Inv

variable {b : ByteArray} (h : Inv b)
include h

theorem length_rest : b.rest.length = b.getReadSize := by
  have hle := h.position_le
  have hsize := h.size_le
  unfold rest slice getReadSize
  rw [List.length_take, List.length_drop, h.length_bytes]
  omega

theorem skip_zero : b.skip 0 = b := by
  have hcur : b.nodes.cursor b.m_baseSize b.m_position = b.m_cur := by
    rw [h.cur, Chain.cursor, h.capacity]
  rw [skip, Nat.add_zero, hcur]

theorem skip_inv {n : Nat} (hn : n ≤ b.getReadSize) : Inv (b.skip n) := by
  have hle := h.position_le
  unfold getReadSize at hn
  refine ⟨h.uniform, h.root, h.capacity, ?_, h.size_le, ?_⟩
  · show b.m_position + n ≤ b.m_size
    omega
  · show b.nodes.cursor b.m_baseSize (b.m_position + n) = _
    rw [Chain.cursor, ← h.capacity]
    rfl

omit h in
theorem rest_skip (n : Nat) : (b.skip n).rest = b.rest.drop n := by
  unfold rest slice getReadSize skip
  rw [List.drop_take, List.drop_drop, Nat.sub_sub]

theorem read_eq {n : Nat} (hn : 1 ≤ n) (hle : n ≤ b.getReadSize) :
    b.read n = .ok (b.skip n, b.rest.take n) := by
  obtain ⟨b', hrun, h', hbase, hpos, hsize, hnodes⟩ := h.read_spec hn hle
  have heq : b' = b.skip n :=
    h'.ext (h.skip_inv hle) hbase hpos hsize (congrArg Chain.bytes hnodes)
  rw [hrun, heq, rest, slice, slice, List.take_take, Nat.min_eq_left hle]

end Inv

theorem skip_skip (b : ByteArray) (m n : Nat) : (b.skip m).skip n = b.skip (m + n) := by
  simp only [skip, Nat.add_assoc]

/-! ## Readers that take what they need -/

namespace Reader

theorem bind_of_ok {α β : Type} {r : Reader α} {f : α → Reader β} {s s' : Session} {a : α}
    (h : r s = .ok a s') : (r >>= f) s = f a s' := by
  show EStateM.bind r f s = _
  rw [EStateM.bind, h]

theorem bind_of_error {α β : Type} {r : Reader α} {f : α → Reader β} {s s' : Session} {e : Raised}
    (h : r s = .error e s') : (r >>= f) s = .error e s' := by
  show EStateM.bind r f s = _
  rw [EStateM.bind, h]

theorem map_error_iff {α β : Type} {r : Reader α} {f : α → β} {s s' : Session} {e : Raised} :
    (do return f (← r) : Reader β) s = .error e s' ↔ r s = .error e s' := by
  cases h : r s with
  | ok a s₁ =>
    rw [bind_of_ok h]
    exact iff_of_false (fun heq => by cases heq) (fun heq => by cases heq)
  | error e₁ s₁ =>
    rw [bind_of_error h]
    exact ⟨fun heq => by cases heq; rfl, fun heq => by cases heq; rfl⟩

/-- `std::out_of_range`, as `read` throws it. -/
def outOfRange : Raised := .fault (.outOfRange "not enough len")

theorem take_ok {s : Session} (h : Inv s.array) {n : Nat} (hn : 1 ≤ n)
    (hle : n ≤ s.array.rest.length) :
    take n s = .ok (s.array.rest.take n) { s with array := s.array.skip n } := by
  rw [h.length_rest] at hle
  rw [take, h.read_eq hn hle]

theorem take_short {s : Session} (h : Inv s.array) {n : Nat} (hlt : s.array.rest.length < n) :
    take n s = .error outOfRange s := by
  rw [h.length_rest] at hlt
  rw [take, ByteArray.read, if_pos hlt]
  rfl

theorem take_zero {s : Session} (h : Inv s.array) :
    take 0 s = if s.array.m_position = s.array.m_capacity then .error (.fault .nullNode) s
      else .ok [] s := by
  rw [take, h.read_zero]
  by_cases hend : s.array.m_position = s.array.m_capacity
  · rw [if_pos hend, if_pos hend]
  · rw [if_neg hend, if_neg hend]

/-- The reader takes the `needs d` bytes at the start of what there is to read, `d`, and makes
`value d` of them. Without as many it throws, and has taken `lost d`. -/
structure Takes {α : Type} (r : Reader α) (needs : List UInt8 → Nat) (value : List UInt8 → α)
    (lost : List UInt8 → Nat) : Prop where
  pos : ∀ d, 1 ≤ needs d
  lost_le : ∀ d, lost d ≤ d.length
  ok : ∀ s : Session, Inv s.array → needs s.array.rest ≤ s.array.rest.length →
    r s = .ok (value s.array.rest) { s with array := s.array.skip (needs s.array.rest) }
  short : ∀ s : Session, Inv s.array → s.array.rest.length < needs s.array.rest →
    r s = .error outOfRange { s with array := s.array.skip (lost s.array.rest) }

theorem takes_take {n : Nat} (hn : 1 ≤ n) :
    Takes (take n) (fun _ => n) (fun d => d.take n) (fun _ => 0) where
  pos _ := hn
  lost_le _ := Nat.zero_le _
  ok s h hle := take_ok h hn hle
  short s h hlt := by
    rw [take_short h hlt, h.skip_zero]

theorem Takes.map {α β : Type} {r : Reader α} {needs : List UInt8 → Nat} {value : List UInt8 → α}
    {lost : List UInt8 → Nat} (h : Takes r needs value lost) (f : α → β) :
    Takes (do return f (← r)) needs (fun d => f (value d)) lost where
  pos := h.pos
  lost_le := h.lost_le
  ok s hs hle := bind_of_ok (h.ok s hs hle)
  short s hs hlt := bind_of_error (h.short s hs hlt)

/-- The number that `XX` makes of the bytes. -/
def fixedValue (host m_endian : ByteOrder) (n : Nat) (d : List UInt8) : BitVec (8 * n) :=
  let v := BitVec.ofNat (8 * n) (host.load (d.take n))
  if m_endian = host then v else byteswap n v

theorem takes_fixed (host m_endian : ByteOrder) {n : Nat} (hn : 1 ≤ n) :
    Takes (readFixed host m_endian n) (fun _ => n) (fixedValue host m_endian n) (fun _ => 0) :=
  (takes_take hn).map _

/-- It is the one of the selected order, on every host. -/
theorem toNat_fixedValue (host m_endian : ByteOrder) {n : Nat} {d : List UInt8}
    (hle : n ≤ d.length) :
    (fixedValue host m_endian n d).toNat = m_endian.load (d.take n) := by
  have hlength : (d.take n).length = n := by
    rw [List.length_take, Nat.min_eq_left hle]
  have hlt := host.load_lt (d.take n)
  rw [hlength] at hlt
  have hload : (BitVec.ofNat (8 * n) (host.load (d.take n))).toNat = host.load (d.take n) := by
    rw [BitVec.toNat_ofNat, two_pow_eq, Nat.mod_eq_of_lt hlt]
  unfold fixedValue
  dsimp only
  by_cases heq : m_endian = host
  · rw [if_pos heq, hload, heq]
  · have hswap := ByteOrder.swap_load (fun h => heq h.symm) (d.take n)
    rw [hlength] at hswap
    rw [if_neg heq, toNat_byteswap, hload, hswap]

theorem readFuint8_ok {s : Session} (h : Inv s.array) {b : UInt8} {rest : List UInt8}
    (hrest : s.array.rest = b :: rest) :
    readFuint8 s = .ok b { s with array := s.array.skip 1 } := by
  have htake := take_ok h (Nat.le_refl 1) (by rw [hrest]; exact Nat.succ_le_succ (Nat.zero_le _))
  rw [readFuint8, bind_of_ok htake, hrest]
  rfl

theorem readFuint8_nil {s : Session} (h : Inv s.array) (hrest : s.array.rest = []) :
    readFuint8 s = .error outOfRange s := by
  rw [readFuint8, bind_of_error (take_short h (by rw [hrest]; exact Nat.one_pos))]

/-- By induction on the turns: a group is a byte read, and the others are read from what is left. -/
theorem varintLoop_ok {w : Nat} (turns : Nat) : ∀ {i : Nat} {result : BitVec w} {s : Session},
    w ≤ i + 7 * turns → Inv s.array → Varint.needs w i s.array.rest ≤ s.array.rest.length →
    ∃ v, Varint.read w i result s.array.rest =
        some (v, s.array.rest.drop (Varint.needs w i s.array.rest)) ∧
      varintLoop w turns i result s =
        .ok v { s with array := s.array.skip (Varint.needs w i s.array.rest) } := by
  have hdone : ∀ (turns : Nat) {i : Nat} {result : BitVec w} {s : Session}, ¬i < w → Inv s.array →
      ∃ v, Varint.read w i result s.array.rest =
          some (v, s.array.rest.drop (Varint.needs w i s.array.rest)) ∧
        varintLoop w turns i result s =
          .ok v { s with array := s.array.skip (Varint.needs w i s.array.rest) } := by
    intro turns i result s hi h
    refine ⟨result, ?_, ?_⟩
    · rw [Varint.read_done hi, Varint.needs_done hi, List.drop_zero]
    · rw [Varint.needs_done hi, h.skip_zero]
      cases turns with
      | zero => rfl
      | succ turns =>
        rw [varintLoop, if_neg hi]
        rfl
  induction turns with
  | zero =>
    intro i result s hturns h _
    exact hdone 0 (by omega) h
  | succ turns ih =>
    intro i result s hturns h hle
    by_cases hi : i < w
    · cases hrest : s.array.rest with
      | nil =>
        rw [hrest, Varint.needs, if_pos hi] at hle
        exact absurd hle (Nat.not_succ_le_zero 0)
      | cons b rest =>
        have hbyte := readFuint8_ok h hrest
        have hskip : (s.array.skip 1).rest = rest := by
          rw [Inv.rest_skip, hrest, List.drop_one, List.tail_cons]
        have hsize : 1 ≤ s.array.getReadSize := by
          rw [← h.length_rest, hrest, List.length_cons]
          exact Nat.succ_le_succ (Nat.zero_le _)
        rw [hrest, Varint.needs, if_pos hi] at hle
        rw [Varint.needs, Varint.read, if_pos hi, if_pos hi, varintLoop, if_pos hi,
          bind_of_ok hbyte]
        by_cases hb : b < 0x80
        · simp only [if_pos hb]
          exact ⟨_, rfl, rfl⟩
        · rw [if_neg hb] at hle
          obtain ⟨v, hread, hrun⟩ := @ih (i + 7)
            (result ||| (BitVec.ofNat w (b &&& 0x7F).toNat) <<< i)
            { s with array := s.array.skip 1 } (by omega) (h.skip_inv hsize)
            (by rw [hskip]; exact Nat.le_of_succ_le_succ hle)
          rw [hskip] at hread hrun
          simp only [if_neg hb]
          refine ⟨v, hread, hrun.trans ?_⟩
          rw [skip_skip, Nat.add_comm 1]
    · exact hdone _ hi h

theorem varintLoop_short {w : Nat} (turns : Nat) : ∀ {i : Nat} {result : BitVec w} {s : Session},
    w ≤ i + 7 * turns → Inv s.array → s.array.rest.length < Varint.needs w i s.array.rest →
    varintLoop w turns i result s =
      .error outOfRange { s with array := s.array.skip s.array.rest.length } := by
  induction turns with
  | zero =>
    intro i result s hturns h hlt
    rw [Varint.needs_done (by omega)] at hlt
    exact absurd hlt (Nat.not_lt_zero _)
  | succ turns ih =>
    intro i result s hturns h hlt
    by_cases hi : i < w
    · cases hrest : s.array.rest with
      | nil =>
        rw [varintLoop, if_pos hi, bind_of_error (readFuint8_nil h hrest), List.length_nil,
          h.skip_zero]
      | cons b rest =>
        have hbyte := readFuint8_ok h hrest
        have hskip : (s.array.skip 1).rest = rest := by
          rw [Inv.rest_skip, hrest, List.drop_one, List.tail_cons]
        have hsize : 1 ≤ s.array.getReadSize := by
          rw [← h.length_rest, hrest, List.length_cons]
          exact Nat.succ_le_succ (Nat.zero_le _)
        rw [hrest, Varint.needs, if_pos hi] at hlt
        rw [varintLoop, if_pos hi, bind_of_ok hbyte]
        by_cases hb : b < 0x80
        · rw [if_pos hb] at hlt
          exact absurd hlt (Nat.not_lt.mpr (Nat.succ_le_succ (Nat.zero_le _)))
        · rw [if_neg hb] at hlt
          have hrun := @ih (i + 7)
            (result ||| (BitVec.ofNat w (b &&& 0x7F).toNat) <<< i)
            { s with array := s.array.skip 1 } (by omega) (h.skip_inv hsize)
            (by rw [hskip]; exact Nat.lt_of_succ_lt_succ hlt)
          rw [hskip] at hrun
          rw [if_neg hb, hrun, skip_skip, List.length_cons, Nat.add_comm 1]
    · rw [Varint.needs_done hi] at hlt
      exact absurd hlt (Nat.not_lt_zero _)

/-- The number that `readUint32` or `readUint64` makes of the bytes. -/
def varintValue (w : Nat) (d : List UInt8) : BitVec w :=
  ((Varint.read w 0 0#w d).map Prod.fst).getD 0#w

theorem takes_varint {w turns : Nat} (hw : 0 < w) (hturns : w ≤ 7 * turns) :
    Takes (varintLoop w turns 0 0#w) (Varint.needs w 0) (varintValue w) List.length where
  pos d := by
    cases d with
    | nil =>
      rw [Varint.needs, if_pos hw]
    | cons b rest =>
      rw [Varint.needs, if_pos hw]
      split
      · exact Nat.le_refl 1
      · exact Nat.succ_le_succ (Nat.zero_le _)
  lost_le _ := Nat.le_refl _
  ok s h hle := by
    obtain ⟨v, hread, hrun⟩ := @varintLoop_ok w turns 0 0#w s (by omega) h hle
    rw [hrun, varintValue, hread]
    rfl
  short s h hlt := varintLoop_short turns (by omega) h hlt

end Reader

/-! ## Composite readers -/

/-- A reader leaves the array with the item taken off, or throws because there are fewer bytes than
the item takes; then the array is as before, and no buffer larger than what there is to read has
been allocated. `item` takes the item off a stream. -/
structure Atomic {α : Type} (r : Reader α) (item : Stream → Option (α × Stream)) (encoded : Nat)
    (b : ByteArray) (e : ByteOrder) : Prop where
  returns : encoded ≤ b.getReadSize → ∃ v s, r ⟨b, []⟩ = .ok v s ∧
    item (b.unread e) = some (v, s.array.unread e) ∧
    s.array.m_position = b.m_position + encoded ∧ s.array.m_size = b.m_size
  throws : b.getReadSize < encoded → ∃ s, r ⟨b, []⟩ = .error Reader.outOfRange s ∧
    s.array.m_position = b.m_position ∧ s.array.m_cur = b.m_cur ∧ s.array.m_size = b.m_size ∧
    ∀ n ∈ s.allocated, n ≤ b.getReadSize

/-- A string is there whole behind its length, can be allocated, and if it is empty does not stand
at the end of the capacity. -/
def Whole (b : ByteArray) (refuses : Nat → Option Refusal) (needs declared : Nat) : Prop :=
  needs + declared ≤ b.getReadSize ∧ refuses declared = none ∧
    (declared = 0 → b.m_position + needs < b.m_capacity)

namespace Reader

variable {α : Type} {b : ByteArray} {e : ByteOrder}

theorem unread_skip (n : Nat) : (b.skip n).unread e = ⟨e, b.rest.drop n⟩ := by
  rw [← Inv.rest_skip]
  rfl

/-- A reader of a number is atomic where it loses nothing. -/
theorem Takes.atomic_iff {r : Reader α} {needs : List UInt8 → Nat} {value : List UInt8 → α}
    {lost : List UInt8 → Nat} {item : Stream → Option (α × Stream)} (h : Takes r needs value lost)
    (hitem : ∀ d, needs d ≤ d.length → item ⟨e, d⟩ = some (value d, ⟨e, d.drop (needs d)⟩))
    (hb : Inv b) :
    Atomic r item (needs b.rest) b e ↔ needs b.rest ≤ b.getReadSize ∨ lost b.rest = 0 := by
  have hlength := hb.length_rest
  constructor
  · intro hatomic
    by_cases hle : needs b.rest ≤ b.getReadSize
    · exact .inl hle
    · obtain ⟨s, hrun, hpos, -⟩ := hatomic.throws (Nat.lt_of_not_le hle)
      have hshort := h.short ⟨b, []⟩ hb (by rw [hlength]; exact Nat.lt_of_not_le hle)
      rw [hrun] at hshort
      cases hshort
      exact .inr (Nat.add_eq_left.mp hpos)
  · intro hcases
    refine ⟨fun hle => ?_, fun hlt => ?_⟩
    · refine ⟨_, _, h.ok ⟨b, []⟩ hb (by rw [hlength]; exact hle), ?_, rfl, rfl⟩
      rw [unread_skip]
      exact hitem b.rest (by rw [hlength]; exact hle)
    · have hzero : lost b.rest = 0 := hcases.resolve_left (Nat.not_le_of_lt hlt)
      have hshort := h.short ⟨b, []⟩ hb (by rw [hlength]; exact hlt)
      rw [hzero, hb.skip_zero] at hshort
      exact ⟨_, hshort, rfl, rfl, rfl, fun n hn => absurd hn List.not_mem_nil⟩

/-- `take` of what remains behind the cursor, or of nothing. -/
theorem take_body {s : Session} (h : Inv s.array) {n : Nat} (hle : n ≤ s.array.rest.length)
    (hzero : n = 0 → s.array.m_position < s.array.m_capacity) :
    take n s = .ok (s.array.rest.take n) { s with array := s.array.skip n } := by
  by_cases hn : n = 0
  · rw [hn, take_zero h, if_neg (hzero hn).ne, h.skip_zero, List.take_zero]
  · exact take_ok h (Nat.one_le_iff_ne_zero.mpr hn) hle

/-- Once the length is read, its buffer is allocated and filled. -/
theorem readString_of_ok {w : Nat} {len : Reader (BitVec w)} {s s' : Session} {v : BitVec w}
    (refuses : Nat → Option Refusal) (h : len s = .ok v s') (hrefuses : refuses v.toNat = none) :
    readString refuses len s =
      take v.toNat { s' with allocated := v.toNat :: s'.allocated } := by
  have hresize : resize refuses v.toNat s' =
      .ok () { s' with allocated := v.toNat :: s'.allocated } := by
    rw [resize, hrefuses]
  rw [readString, bind_of_ok h, bind_of_ok hresize]

theorem readString_of_refused {w : Nat} {len : Reader (BitVec w)} {s s' : Session} {v : BitVec w}
    {refuses : Nat → Option Refusal} {r : Refusal} (h : len s = .ok v s')
    (hrefuses : refuses v.toNat = some r) :
    readString refuses len s = .error (.refused r) s' := by
  have hresize : resize refuses v.toNat s' = .error (.refused r) s' := by
    rw [resize, hrefuses]
  rw [readString, bind_of_ok h, bind_of_error hresize]

/-- What becomes of reading a string whose length takes `needs` bytes and is `declared`; `lost` is
what the attempt to read the length takes when it is cut short. -/
inductive Outcome (s : Session) (refuses : Nat → Option Refusal) (needs declared lost : Nat) :
    EStateM.Result Raised Session (List UInt8) → Prop
  | noLength (hlt : s.array.getReadSize < needs) :
    Outcome s refuses needs declared lost
      (.error outOfRange { s with array := s.array.skip lost })
  | refused (hle : needs ≤ s.array.getReadSize) (r : Refusal) (hr : refuses declared = some r) :
    Outcome s refuses needs declared lost
      (.error (.refused r) { s with array := s.array.skip needs })
  | noBody (hle : needs ≤ s.array.getReadSize) (hr : refuses declared = none)
    (hlt : s.array.getReadSize < needs + declared) :
    Outcome s refuses needs declared lost
      (.error outOfRange ⟨s.array.skip needs, declared :: s.allocated⟩)
  | atEnd (hle : needs ≤ s.array.getReadSize) (hr : refuses declared = none)
    (hzero : declared = 0) (hend : s.array.m_position + needs = s.array.m_capacity) :
    Outcome s refuses needs declared lost
      (.error (.fault .nullNode) ⟨s.array.skip needs, declared :: s.allocated⟩)
  | whole (h : s.array.Whole refuses needs declared) :
    Outcome s refuses needs declared lost
      (.ok ((s.array.rest.drop needs).take declared)
        ⟨s.array.skip (needs + declared), declared :: s.allocated⟩)

theorem Takes.readString_outcome {w : Nat} {len : Reader (BitVec w)} {needs : List UInt8 → Nat}
    {value : List UInt8 → BitVec w} {lost : List UInt8 → Nat} (h : Takes len needs value lost)
    (refuses : Nat → Option Refusal) {declared : List UInt8 → Nat}
    (hdeclared : ∀ d, needs d ≤ d.length → (value d).toNat = declared d) {s : Session}
    (hs : Inv s.array) :
    Outcome s refuses (needs s.array.rest) (declared s.array.rest) (lost s.array.rest)
      (readString refuses len s) := by
  have hlength := hs.length_rest
  rcases Nat.lt_or_ge s.array.getReadSize (needs s.array.rest) with hlt | hle
  · have hrun : readString refuses len s = _ :=
      bind_of_error (h.short s hs (by rw [hlength]; exact hlt))
    rw [hrun]
    exact .noLength hlt
  -- The length is read, and the cursor stands behind it.
  have hlen := h.ok s hs (by rw [hlength]; exact hle)
  have htell := hdeclared s.array.rest (by rw [hlength]; exact hle)
  have hinv := hs.skip_inv hle
  have hrest : (s.array.skip (needs s.array.rest)).rest = _ := Inv.rest_skip _
  cases hrefuses : refuses (declared s.array.rest) with
  | some r =>
    rw [readString_of_refused hlen (htell ▸ hrefuses)]
    exact .refused hle r hrefuses
  | none =>
    rw [readString_of_ok refuses hlen (htell ▸ hrefuses), htell]
    rcases Nat.lt_or_ge s.array.getReadSize (needs s.array.rest + declared s.array.rest)
      with hlt | hge
    · rw [take_short hinv (by dsimp only; rw [hrest, List.length_drop, hlength]; omega)]
      exact .noBody hle hrefuses hlt
    · by_cases hend : declared s.array.rest = 0 ∧
        s.array.m_position + needs s.array.rest = s.array.m_capacity
      · obtain ⟨hzero, hend⟩ := hend
        have hrun : take 0 ⟨s.array.skip (needs s.array.rest), 0 :: s.allocated⟩ = _ :=
          (take_zero hinv).trans (if_pos hend)
        rw [hzero] at hrefuses ⊢
        rw [hrun]
        exact .atEnd hle hrefuses rfl hend
      · have hbound : s.array.m_position + needs s.array.rest ≤ s.array.m_capacity :=
          Nat.le_trans hinv.position_le hinv.size_le
        have hlt : declared s.array.rest = 0 →
            s.array.m_position + needs s.array.rest < s.array.m_capacity :=
          fun hzero => Nat.lt_of_le_of_ne hbound fun heq => hend ⟨hzero, heq⟩
        rw [take_body hinv (by dsimp only; rw [hrest, List.length_drop, hlength]; omega) hlt]
        dsimp only
        rw [skip_skip, hrest]
        exact .whole ⟨hge, hrefuses, hlt⟩

/-- A reader of a string is atomic where its length cannot be read and nothing is lost by trying,
and where the string is there whole. -/
theorem Takes.atomic_string_iff {w : Nat} {len : Reader (BitVec w)} {needs : List UInt8 → Nat}
    {value : List UInt8 → BitVec w} {lost : List UInt8 → Nat}
    {item : Stream → Option (List UInt8 × Stream)} (h : Takes len needs value lost)
    (refuses : Nat → Option Refusal) {declared : List UInt8 → Nat}
    (hdeclared : ∀ d, needs d ≤ d.length → (value d).toNat = declared d)
    (hitem : ∀ d, needs d + declared d ≤ d.length →
      item ⟨e, d⟩ = some ((d.drop (needs d)).take (declared d),
        ⟨e, (d.drop (needs d)).drop (declared d)⟩))
    (hb : Inv b) :
    Atomic (readString refuses len) item (needs b.rest + declared b.rest) b e ↔
      (b.getReadSize < needs b.rest ∧ lost b.rest = 0) ∨
        b.Whole refuses (needs b.rest) (declared b.rest) := by
  have hneeds := h.pos b.rest
  have houtcome := h.readString_outcome refuses hdeclared (s := ⟨b, []⟩) hb
  constructor
  · rintro ⟨hreturns, hthrows⟩
    generalize readString refuses len ⟨b, []⟩ = r at *
    cases houtcome with
    | noLength hlt =>
      obtain ⟨s, hrun, hpos, -⟩ := hthrows (Nat.lt_of_lt_of_le hlt (Nat.le_add_right _ _))
      cases hrun
      exact .inl ⟨hlt, Nat.add_eq_left.mp hpos⟩
    | refused hle r hr =>
      rcases Nat.lt_or_ge b.getReadSize (needs b.rest + declared b.rest) with hlt | hge
      · obtain ⟨s, hrun, -⟩ := hthrows hlt
        cases hrun
      · obtain ⟨v, s, hrun, -⟩ := hreturns hge
        cases hrun
    | noBody hle hr hlt =>
      obtain ⟨s, hrun, hpos, -⟩ := hthrows hlt
      cases hrun
      exact absurd (Nat.add_eq_left.mp hpos) (Nat.ne_of_gt hneeds)
    | atEnd hle hr hzero hend =>
      obtain ⟨v, s, hrun, -⟩ := hreturns (by rw [hzero]; exact hle)
      cases hrun
    | whole hwhole => exact .inr hwhole
  · intro hcases
    generalize hrun : readString refuses len ⟨b, []⟩ = r at houtcome
    cases houtcome with
    | noLength hlt =>
      have hzero : lost b.rest = 0 := by
        rcases hcases with ⟨-, hzero⟩ | ⟨hle, -⟩
        · exact hzero
        · dsimp only at hlt
          omega
      dsimp only at hlt hrun
      rw [hzero, hb.skip_zero] at hrun
      refine ⟨fun hle => absurd hle (by omega), fun _ => ⟨_, hrun, rfl, rfl, rfl, ?_⟩⟩
      exact fun n hn => absurd hn List.not_mem_nil
    | refused hle r hr =>
      rcases hcases with ⟨hlt, -⟩ | ⟨-, hnone, -⟩
      · exact absurd hle (Nat.not_le_of_lt hlt)
      · rw [hnone] at hr
        cases hr
    | noBody hle hr hlt =>
      rcases hcases with ⟨hlt, -⟩ | ⟨hge, -⟩
      · exact absurd hle (Nat.not_le_of_lt hlt)
      · exact absurd hge (Nat.not_le_of_lt hlt)
    | atEnd hle hr hzero hend =>
      rcases hcases with ⟨hlt, -⟩ | ⟨-, -, hroom⟩
      · exact absurd hle (Nat.not_le_of_lt hlt)
      · exact absurd hend (hroom hzero).ne
    | whole hwhole =>
      refine ⟨fun _ => ⟨_, _, hrun, ?_, rfl, rfl⟩,
        fun hlt => absurd hwhole.1 (Nat.not_le_of_lt hlt)⟩
      dsimp only
      rw [unread_skip, ← List.drop_drop]
      exact hitem b.rest (by rw [hb.length_rest]; exact hwhole.1)

theorem readVarint_of_needs {w : Nat} {d : List UInt8} (hle : Varint.needs w 0 d ≤ d.length) :
    readVarint ⟨e, d⟩ w = some (varintValue w d, ⟨e, d.drop (Varint.needs w 0 d)⟩) := by
  obtain ⟨v, hread⟩ := @Varint.read_of_needs w 0 0#w d hle
  rw [readVarint, varintValue, hread]
  rfl

theorem readFixed_of_le (host : ByteOrder) {n : Nat} {d : List UInt8} (hle : n ≤ d.length) :
    Stream.readFixed host ⟨e, d⟩ n = some (fixedValue host e n d, ⟨e, d.drop n⟩) := by
  have hread : Stream.read ⟨e, d⟩ n = some (d.take n, ⟨e, d.drop n⟩) :=
    if_neg (Nat.not_lt.mpr hle)
  rw [Stream.readFixed, hread]
  rfl

/-- The string behind a length that has been read. -/
theorem readBuff_item {w : Nat} (hw : w ≤ 64) {len : Option (BitVec w × Stream)}
    {v : BitVec w} {d : List UInt8} {needs declared : Nat}
    (hread : len = some (v, ⟨e, d.drop needs⟩)) (hv : v.toNat = declared)
    (hle : needs + declared ≤ d.length) :
    ((len.bind fun (len, s) => s.readBuff (len.setWidth 64)).map
        fun (buff, s) => (buff.1, s)) =
      some ((d.drop needs).take declared, ⟨e, (d.drop needs).drop declared⟩) := by
  have hlen : (v.setWidth 64).toNat = declared := by
    rw [BitVec.toNat_setWidth, hv]
    apply Nat.mod_eq_of_lt
    rw [← hv]
    exact Nat.lt_of_lt_of_le v.isLt (Nat.pow_le_pow_right (by decide) hw)
  obtain ⟨buff, hbuff, hrun⟩ := readBuff_append e (v.setWidth 64) (d.drop needs) (by
    rw [hlen, List.length_drop]
    omega)
  rw [hlen] at hbuff hrun
  rw [hread, Option.bind_some]
  dsimp only
  rw [hrun, Option.map_some, hbuff]

theorem atomic_varint_iff {w turns : Nat}
    (ht : Takes (varintLoop w turns 0 0#w) (Varint.needs w 0) (varintValue w) List.length)
    (hb : Inv b) (e : ByteOrder) :
    Atomic (varintLoop w turns 0 0#w) (fun s => s.readVarint w) (Varint.needs w 0 b.rest) b e ↔
      Varint.needs w 0 b.rest ≤ b.getReadSize ∨ b.rest.length = 0 :=
  ht.atomic_iff (fun _ hle => readVarint_of_needs hle) hb

theorem atomic_zigzag_iff {w turns : Nat}
    (ht : Takes (varintLoop w turns 0 0#w) (Varint.needs w 0) (varintValue w) List.length)
    (decode : BitVec w → BitVec w) (hb : Inv b) (e : ByteOrder) :
    Atomic (do return decode (← varintLoop w turns 0 0#w))
        (fun s => (s.readVarint w).map fun (v, s) => (decode v, s)) (Varint.needs w 0 b.rest) b e ↔
      Varint.needs w 0 b.rest ≤ b.getReadSize ∨ b.rest.length = 0 := by
  refine (ht.map decode).atomic_iff (fun d hle => ?_) hb
  rw [readVarint_of_needs hle]
  rfl

theorem atomic_fixed_iff {n : Nat} (hn : 1 ≤ n) (hw : 8 * n ≤ 64) (hb : Inv b)
    (host e : ByteOrder) (refuses : Nat → Option Refusal) :
    Atomic (readString refuses (readFixed host e n))
        (fun s => ((s.readFixed host n).bind fun (len, s) => s.readBuff (len.setWidth 64)).map
          fun (buff, s) => (buff.1, s)) (n + e.load (b.rest.take n)) b e ↔
      b.getReadSize < n ∨ b.Whole refuses n (e.load (b.rest.take n)) := by
  refine ((takes_fixed host e hn).atomic_string_iff refuses
    (fun d hle => toNat_fixedValue host e hle) (fun d hle => ?_) hb).trans
    (or_congr (and_iff_left rfl) Iff.rfl)
  exact readBuff_item hw (readFixed_of_le host (Nat.le_of_add_right_le hle))
    (toNat_fixedValue host e (Nat.le_of_add_right_le hle)) hle

theorem readUint32_takes : Takes readUint32 (Varint.needs 32 0) (varintValue 32) List.length :=
  takes_varint (by decide) (by decide)

theorem readUint64_takes : Takes readUint64 (Varint.needs 64 0) (varintValue 64) List.length :=
  takes_varint (by decide) (by decide)

end Reader

/-- The types that are read in several reads. -/
inductive Composite
  | uint32
  | int32
  | uint64
  | int64
  | stringF16
  | stringF32
  | stringF64
  | stringVint
  deriving DecidableEq, Repr

namespace Composite

abbrev Value : Composite → Type
  | uint32 | int32 => BitVec 32
  | uint64 | int64 => BitVec 64
  | stringF16 | stringF32 | stringF64 | stringVint => List UInt8

def read (host m_endian : ByteOrder) (refuses : Nat → Option Refusal) :
    (c : Composite) → Reader c.Value
  | uint32 => Reader.readUint32
  | int32 => Reader.readInt32
  | uint64 => Reader.readUint64
  | int64 => Reader.readInt64
  | stringF16 => Reader.readStringF16 host m_endian refuses
  | stringF32 => Reader.readStringF32 host m_endian refuses
  | stringF64 => Reader.readStringF64 host m_endian refuses
  | stringVint => Reader.readStringVint refuses

/-- What the reader takes off a stream. -/
def item (host : ByteOrder) : (c : Composite) → Stream → Option (c.Value × Stream)
  | uint32, s => s.readUint32
  | int32, s => s.readInt32
  | uint64, s => s.readUint64
  | int64, s => s.readInt64
  | stringF16, s => (s.readStringF16 host).map fun (buff, s) => (buff.1, s)
  | stringF32, s => (s.readStringF32 host).map fun (buff, s) => (buff.1, s)
  | stringF64, s => (s.readStringF64 host).map fun (buff, s) => (buff.1, s)
  | stringVint, s => s.readStringVint.map fun (buff, s) => (buff.1, s)

/-- The number of bytes that the item at the start of `d` takes. -/
def encoded (m_endian : ByteOrder) : Composite → List UInt8 → Nat
  | uint32, d | int32, d => Varint.needs 32 0 d
  | uint64, d | int64, d => Varint.needs 64 0 d
  | stringF16, d => 2 + m_endian.load (d.take 2)
  | stringF32, d => 4 + m_endian.load (d.take 4)
  | stringF64, d => 8 + m_endian.load (d.take 8)
  | stringVint, d => Varint.needs 64 0 d + (Reader.varintValue 64 d).toNat

/-- A number is there to its last byte, or there is nothing to read. A string is there whole, or its
length is not: of a length of fixed width there may be a part, of another nothing. -/
def Exact (m_endian : ByteOrder) (refuses : Nat → Option Refusal) (b : ByteArray) :
    Composite → Prop
  | uint32 | int32 => Varint.needs 32 0 b.rest ≤ b.getReadSize ∨ b.getReadSize = 0
  | uint64 | int64 => Varint.needs 64 0 b.rest ≤ b.getReadSize ∨ b.getReadSize = 0
  | stringF16 => b.getReadSize < 2 ∨ b.Whole refuses 2 (m_endian.load (b.rest.take 2))
  | stringF32 => b.getReadSize < 4 ∨ b.Whole refuses 4 (m_endian.load (b.rest.take 4))
  | stringF64 => b.getReadSize < 8 ∨ b.Whole refuses 8 (m_endian.load (b.rest.take 8))
  | stringVint => b.getReadSize = 0 ∨
    b.Whole refuses (Varint.needs 64 0 b.rest) (Reader.varintValue 64 b.rest).toNat

open Reader

/-- A composite read is all or nothing in these cases and in no others. -/
theorem read_atomic_iff {b : ByteArray} (h : Inv b) (host m_endian : ByteOrder)
    (refuses : Nat → Option Refusal) (c : Composite) :
    Atomic (c.read host m_endian refuses) (c.item host) (c.encoded m_endian b.rest) b m_endian ↔
      c.Exact m_endian refuses b := by
  have hlength := h.length_rest
  cases c with
  | uint32 =>
    have hatomic := atomic_varint_iff readUint32_takes h m_endian
    rwa [hlength] at hatomic
  | int32 =>
    have hatomic := atomic_zigzag_iff readUint32_takes DecodeZigzag32 h m_endian
    rwa [hlength] at hatomic
  | uint64 =>
    have hatomic := atomic_varint_iff readUint64_takes h m_endian
    rwa [hlength] at hatomic
  | int64 =>
    have hatomic := atomic_zigzag_iff readUint64_takes DecodeZigzag64 h m_endian
    rwa [hlength] at hatomic
  | stringF16 => exact atomic_fixed_iff (by decide) (by decide) h host m_endian refuses
  | stringF32 => exact atomic_fixed_iff (by decide) (by decide) h host m_endian refuses
  | stringF64 => exact atomic_fixed_iff (by decide) (by decide) h host m_endian refuses
  | stringVint =>
    have hitem : ∀ d, Varint.needs 64 0 d + (varintValue 64 d).toNat ≤ d.length →
        stringVint.item host ⟨m_endian, d⟩ =
          some ((d.drop (Varint.needs 64 0 d)).take (varintValue 64 d).toNat,
            ⟨m_endian, (d.drop (Varint.needs 64 0 d)).drop (varintValue 64 d).toNat⟩) :=
      fun d hle => readBuff_item (Nat.le_refl 64)
        (readVarint_of_needs (Nat.le_of_add_right_le hle)) rfl hle
    have hatomic := readUint64_takes.atomic_string_iff refuses (fun _ _ => rfl) hitem h
    rw [hlength] at hatomic
    refine hatomic.trans (or_congr ⟨And.right, fun hzero => ⟨?_, hzero⟩⟩ Iff.rfl)
    rw [hzero]
    exact readUint64_takes.pos b.rest

theorem run_prefix : Run Moves (new (fun _ => 0) 4)
    [.op (.write (fun _ _ => 0) [255, 255, 255, 255]), .op (.setPosition 0)]
    ⟨4, 0, 4, 4, [⟨[255, 255, 255, 255]⟩], some 0⟩ :=
  .cons rfl (.cons rfl (.nil _))

/-- Four bytes are read as the length of a string, and room for it allocated, before there turns out
to be nothing behind them. -/
theorem not_read_atomic : ∃ b, Inv b ∧ b.m_position = 0 ∧ b.getReadSize = 4 ∧
    ¬Atomic (stringF32.read .little .big fun _ => none) (stringF32.item .little)
      (stringF32.encoded .big b.rest) b .big ∧
    stringF32.read .little .big (fun _ => none) ⟨b, []⟩ =
      .error outOfRange ⟨{ b with m_position := 4, m_cur := none }, [4294967295]⟩ := by
  refine ⟨_, (reachable_inv (by decide) run_prefix).1, rfl, rfl, ?_, rfl⟩
  intro hatomic
  obtain ⟨s, hrun, hpos, -⟩ := hatomic.throws (by decide)
  cases hrun
  exact absurd hpos (by decide)

theorem read_atomic_iff_uint32 : ∃ b, b.rest = [2, 3, 4, 5, 6] ∧
    Atomic (uint32.read .little .big fun _ => none) (uint32.item .little) 1 b .big :=
  ⟨_, rfl, (read_atomic_iff (reachable_inv (by decide) run_six).1 .little .big (fun _ => none)
    uint32).mpr (.inl (by decide))⟩

end Composite

end Captain.ByteArray
