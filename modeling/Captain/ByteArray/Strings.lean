import Captain.ByteArray.Readers

/-!
# Strings with their lengths in front

A list of strings is written and, from where the writing began, read back. A reader takes the
length of a string and then as many bytes with `read(buf, n)`, which looks at the current node even
if `n` is zero.

* `encoded`: the bytes that the strings leave in the array.
* `EmptyAtEnd`: the bytes by which a reader comes to an empty string with nothing behind it.
* `readStrings_iff`: when no reader dereferences the null node.
-/

namespace Captain.ByteArray

open Chunks Captain.ByteArray.Stream Captain.ByteArray.Reader

/-- The lengths of `writeStringF32`, `writeStringF64` and `writeStringVint`. -/
inductive Prefix
  | f32
  | f64
  | vint
  deriving DecidableEq, Repr

/-! ## Writing -/

section

variable (host m_endian : ByteOrder) (junk : Nat → Nat → Nat → UInt8)

/-- `write`; `junk p` is what the blocks hold that are added at the position `p`. -/
def put (b : ByteArray) (buf : List UInt8) : Except Fault ByteArray :=
  b.write (junk b.m_position) buf

def writeFixed (n : Nat) (value : BitVec (8 * n)) (b : ByteArray) : Except Fault ByteArray :=
  b.put junk (host.store n (if m_endian ≠ host then byteswap n value else value).toNat)

def writeUint64 (value : BitVec 64) (b : ByteArray) : Except Fault ByteArray :=
  match Varint.write 10 value.toNat with
  | some tmp => b.put junk tmp
  | none => .error .outOfBlock

def writeStringF32 (value : StdString) (b : ByteArray) : Except Fault ByteArray := do
  let b ← b.writeFixed host m_endian junk 4 (value.size.setWidth 32)
  b.put junk value.1

def writeStringF64 (value : StdString) (b : ByteArray) : Except Fault ByteArray := do
  let b ← b.writeFixed host m_endian junk 8 value.size
  b.put junk value.1

def writeStringVint (value : StdString) (b : ByteArray) : Except Fault ByteArray := do
  let b ← b.writeUint64 junk value.size
  b.put junk value.1

def Prefix.write : Prefix → StdString → ByteArray → Except Fault ByteArray
  | f32 => writeStringF32 host m_endian junk
  | f64 => writeStringF64 host m_endian junk
  | vint => writeStringVint junk

def writeStrings : List (Prefix × StdString) → ByteArray → Except Fault ByteArray
  | [], b => .ok b
  | (p, value) :: items, b => do
    let b ← p.write host m_endian junk value b
    writeStrings items b

variable (refuses : Nat → Option Refusal)

def Prefix.read : Prefix → Reader (List UInt8)
  | f32 => readStringF32 host m_endian refuses
  | f64 => readStringF64 host m_endian refuses
  | vint => readStringVint refuses

def readStrings : List Prefix → Reader (List (List UInt8))
  | [] => pure []
  | p :: ps => do
    let buff ← p.read host m_endian refuses
    let buffs ← readStrings ps
    return buff :: buffs

end

/-! ## The bytes of the lengths -/

namespace Prefix

/-- The bytes that tell a length. -/
def bytes (m_endian : ByteOrder) : Prefix → Nat → List UInt8
  | f32, n => m_endian.store 4 (n % 2 ^ 32)
  | f64, n => m_endian.store 8 n
  | vint, n => (Varint.write 10 n).getD []

/-- The number of bytes that the length at the start of `d` takes. -/
def needs : Prefix → List UInt8 → Nat
  | f32, _ => 4
  | f64, _ => 8
  | vint, d => Varint.needs 64 0 d

/-- The length that the bytes tell. -/
def declared (m_endian : ByteOrder) : Prefix → List UInt8 → Nat
  | f32, d => m_endian.load (d.take 4)
  | f64, d => m_endian.load (d.take 8)
  | vint, d => (varintValue 64 d).toNat

/-- A string has a length that its prefix can tell. -/
def Fits : Prefix → StdString → Prop
  | f32, value => value.1.length < 2 ^ 32
  | f64, _ | vint, _ => True

/-- What the reader of `needs` bytes loses when there are not as many. -/
def lost : Prefix → List UInt8 → Nat
  | f32, _ | f64, _ => 0
  | vint, d => d.length

variable (m_endian : ByteOrder)

theorem write_eq (host : ByteOrder) (junk : Nat → Nat → Nat → UInt8) (p : Prefix)
    (value : StdString) (b : ByteArray) :
    p.write host m_endian junk value b =
      (b.put junk (p.bytes m_endian value.1.length)).bind fun b => b.put junk value.1 := by
  have hstore : ∀ (n : Nat) (v : BitVec (8 * n)),
      host.store n (if m_endian ≠ host then byteswap n v else v).toNat =
        m_endian.store n v.toNat := by
    intro n v
    have heq := congrArg Stream.data (writeFixed_eq host ⟨m_endian, []⟩ n v)
    exact heq
  cases p with
  | f32 =>
    show (b.writeFixed host m_endian junk 4 (value.size.setWidth 32)).bind _ = _
    rw [writeFixed, hstore, BitVec.toNat_setWidth, StdString.toNat_size]
    rfl
  | f64 =>
    show (b.writeFixed host m_endian junk 8 value.size).bind _ = _
    rw [writeFixed, hstore, StdString.toNat_size]
    rfl
  | vint =>
    obtain ⟨tmp, htmp, -⟩ := Varint.read_write_zero (by decide) 9 (by decide) value.size
    rw [StdString.toNat_size] at htmp
    show (b.writeUint64 junk value.size).bind _ = _
    rw [writeUint64, StdString.toNat_size, bytes, htmp]
    rfl

/-- The length is read back, if it fits. -/
theorem needs_append {p : Prefix} {value : StdString} (hfits : p.Fits value) (d : List UInt8) :
    p.needs (p.bytes m_endian value.1.length ++ d) = (p.bytes m_endian value.1.length).length ∧
      p.declared m_endian (p.bytes m_endian value.1.length ++ d) = value.1.length := by
  have hfixed : ∀ n, value.1.length < 256 ^ n →
      (m_endian.store n value.1.length).length = n ∧
        m_endian.load ((m_endian.store n value.1.length ++ d).take n) = value.1.length := by
    intro n hlt
    have hlength := ByteOrder.length_store m_endian n value.1.length
    rw [List.take_left' hlength]
    exact ⟨hlength, ByteOrder.load_store m_endian hlt⟩
  cases p with
  | f32 =>
    have hlt : value.1.length < 2 ^ 32 := hfits
    obtain ⟨hlength, hload⟩ := hfixed 4 hlt
    rw [bytes, Nat.mod_eq_of_lt hlt]
    exact ⟨hlength.symm, hload⟩
  | f64 =>
    obtain ⟨hlength, hload⟩ := hfixed 8 value.2
    exact ⟨hlength.symm, hload⟩
  | vint =>
    obtain ⟨tmp, htmp, hread⟩ := Varint.read_write_zero (by decide) 9 (by decide) value.size
    rw [StdString.toNat_size] at htmp
    rw [bytes, htmp]
    refine ⟨Varint.needs_of_read (hread d), ?_⟩
    show (varintValue 64 (tmp ++ d)).toNat = _
    rw [varintValue, hread d]
    exact StdString.toNat_size value

end Prefix

/-! ## Reading -/

section

variable (host m_endian : ByteOrder) (refuses : Nat → Option Refusal)

/-- A reader comes to an empty string with nothing behind it. -/
def EmptyAtEnd : List Prefix → List UInt8 → Prop
  | [], _ => False
  | p :: ps, d => p.needs d ≤ d.length ∧ refuses (p.declared m_endian d) = none ∧
    ((p.declared m_endian d = 0 ∧ p.needs d = d.length) ∨
      (p.needs d + p.declared m_endian d ≤ d.length ∧
        EmptyAtEnd ps (d.drop (p.needs d + p.declared m_endian d))))

theorem Prefix.read_outcome (p : Prefix) {s : Session} (hs : Inv s.array) :
    Reader.Outcome s refuses (p.needs s.array.rest) (p.declared m_endian s.array.rest)
      (p.lost s.array.rest) (p.read host m_endian refuses s) := by
  cases p with
  | f32 =>
    exact (takes_fixed host m_endian (by decide : 1 ≤ 4)).readString_outcome refuses
      (fun d hle => toNat_fixedValue host m_endian hle) hs
  | f64 =>
    exact (takes_fixed host m_endian (by decide : 1 ≤ 8)).readString_outcome refuses
      (fun d hle => toNat_fixedValue host m_endian hle) hs
  | vint => exact readUint64_takes.readString_outcome refuses (fun _ _ => rfl) hs

theorem Prefix.needs_pos (p : Prefix) (d : List UInt8) : 1 ≤ p.needs d := by
  cases p with
  | f32 | f64 => exact Nat.succ_le_succ (Nat.zero_le _)
  | vint => exact readUint64_takes.pos d

/-- By induction on the readers: the first that does not return stops the others, and steps onto the
null node if it stands at the end of the capacity. -/
theorem readStrings_null (ps : List Prefix) : ∀ {s : Session}, Inv s.array →
    ((∃ s', readStrings host m_endian refuses ps s = .error (.fault .nullNode) s') ↔
      s.array.m_position + s.array.getReadSize = s.array.m_capacity ∧
        EmptyAtEnd m_endian refuses ps s.array.rest) := by
  induction ps with
  | nil =>
    intro s hs
    refine iff_of_false ?_ And.right
    rintro ⟨s', hrun⟩
    cases hrun
  | cons p ps ih =>
    intro s hs
    have hlength := hs.length_rest
    have hsize := hs.size_le
    have hposition := hs.position_le
    have houtcome := p.read_outcome host m_endian refuses hs
    generalize hrun : p.read host m_endian refuses s = r at houtcome
    have hthrown : ∀ {e : Raised} {s₁ : Session}, p.read host m_endian refuses s = .error e s₁ →
        e ≠ .fault .nullNode →
        ¬∃ s', readStrings host m_endian refuses (p :: ps) s = .error (.fault .nullNode) s' := by
      rintro e s₁ he hne ⟨s', hnull⟩
      rw [readStrings, bind_of_error he] at hnull
      cases hnull
      exact hne rfl
    cases houtcome with
    | noLength hlt =>
      refine iff_of_false (hthrown hrun (by decide)) fun hend => ?_
      have hle := hend.2.1
      omega
    | refused hle r hr =>
      refine iff_of_false (hthrown hrun Raised.noConfusion) fun hend => ?_
      have hnone := hend.2.2.1
      rw [hr] at hnone
      cases hnone
    | noBody hle hr hlt =>
      refine iff_of_false (hthrown hrun (by decide)) fun hend => ?_
      rcases hend.2.2.2 with ⟨hzero, hall⟩ | ⟨hge, -⟩
      · omega
      · omega
    | atEnd hle hr hzero hend =>
      have hall : p.needs s.array.rest = s.array.rest.length := by
        unfold getReadSize at hlength hle
        omega
      refine iff_of_true ⟨_, bind_of_error hrun⟩ ⟨?_, ?_, hr, .inl ⟨hzero, hall⟩⟩
      · omega
      · omega
    | whole hwhole =>
      obtain ⟨hge, hr, hroom⟩ := hwhole
      have hskip : Inv (s.array.skip (p.needs s.array.rest + p.declared m_endian s.array.rest)) :=
        hs.skip_inv hge
      have hnext := @ih
        ⟨s.array.skip (p.needs s.array.rest + p.declared m_endian s.array.rest),
          p.declared m_endian s.array.rest :: s.allocated⟩ hskip
      rw [readStrings, bind_of_ok hrun]
      simp only [map_error_iff]
      rw [hnext]
      dsimp only
      rw [Inv.rest_skip]
      unfold getReadSize at hlength hge ⊢
      dsimp only [skip]
      constructor
      · rintro ⟨hcap, hnull⟩
        exact ⟨by omega, by omega, hr, .inr ⟨by omega, hnull⟩⟩
      · rintro ⟨hcap, -, -, ⟨hzero, hall⟩ | ⟨-, hnull⟩⟩
        · have hlt := hroom hzero
          omega
        · exact ⟨by omega, hnull⟩

end

/-! ## What was written -/

/-- The bytes that the strings leave in the array. -/
def encoded (m_endian : ByteOrder) (items : List (Prefix × StdString)) : List UInt8 :=
  items.flatMap fun (p, value) => p.bytes m_endian value.1.length ++ value.1

variable (m_endian : ByteOrder) {refuses : Nat → Option Refusal}

/-- Strings whose prefixes tell their lengths end with an empty string if the last one is empty. -/
theorem emptyAtEnd_iff {items : List (Prefix × StdString)}
    (h : ∀ i ∈ items, i.1.Fits i.2 ∧ refuses i.2.1.length = none) (tail : List UInt8) :
    EmptyAtEnd m_endian refuses (items.map Prod.fst) (encoded m_endian items ++ tail) ↔
      tail = [] ∧ ∃ i ∈ items.getLast?, i.2.1 = [] := by
  induction items with
  | nil =>
    refine iff_of_false id ?_
    rintro ⟨-, i, hi, -⟩
    cases hi
  | cons item items ih =>
    obtain ⟨p, value⟩ := item
    obtain ⟨hfits, hrefuses⟩ := h _ List.mem_cons_self
    have hitems := ih fun i hi => h i (List.mem_cons_of_mem _ hi)
    obtain ⟨hneeds, hdeclared⟩ :=
      Prefix.needs_append m_endian hfits (value.1 ++ (encoded m_endian items ++ tail))
    have hpos := p.needs_pos (p.bytes m_endian value.1.length ++
      (value.1 ++ (encoded m_endian items ++ tail)))
    have hsplit : encoded m_endian ((p, value) :: items) ++ tail =
        p.bytes m_endian value.1.length ++ (value.1 ++ (encoded m_endian items ++ tail)) := by
      rw [encoded, List.flatMap_cons, List.append_assoc, List.append_assoc]
      rfl
    rw [hsplit, List.map_cons, EmptyAtEnd, hneeds, hdeclared, ← List.drop_drop,
      List.drop_left, List.drop_left, hitems]
    simp only [List.length_append]
    cases items with
    | nil =>
      constructor
      · rintro ⟨-, -, ⟨hzero, hall⟩ | ⟨-, -, i, hi, -⟩⟩
        · refine ⟨List.length_eq_zero_iff.mp (by omega), (p, value), rfl, ?_⟩
          exact List.length_eq_zero_iff.mp hzero
        · cases hi
      · rintro ⟨rfl, i, hi, hempty⟩
        cases hi
        have hzero : value.1.length = 0 := List.length_eq_zero_iff.mpr hempty
        refine ⟨by omega, hrefuses, .inl ⟨hzero, ?_⟩⟩
        rw [hzero]
        rfl
    | cons next items =>
      have hnonempty : 0 < (encoded m_endian (next :: items)).length := by
        obtain ⟨hnext, -⟩ := Prefix.needs_append m_endian
          (h next (List.mem_cons_of_mem _ List.mem_cons_self)).1 []
        have hbytes := next.1.needs_pos (next.1.bytes m_endian next.2.1.length ++ [])
        rw [encoded, List.flatMap_cons, List.length_append, List.length_append]
        omega
      rw [List.getLast?_cons_cons]
      constructor
      · rintro ⟨-, -, ⟨hzero, hall⟩ | ⟨-, hlast⟩⟩
        · omega
        · exact hlast
      · exact fun hlast => ⟨by omega, hrefuses, .inr ⟨by omega, hlast⟩⟩

/-- `buf` has been written from the position of `b` on. -/
structure Wrote (b b' : ByteArray) (buf : List UInt8) : Prop where
  inv : Inv b'
  position : b'.m_position = b.m_position + buf.length
  size : b'.m_size = max b.m_size b'.m_position
  bytes : b'.nodes.bytes.take b'.m_position = b.nodes.bytes.take b.m_position ++ buf

theorem Wrote.refl {b : ByteArray} (h : Inv b) : Wrote b b [] where
  inv := h
  position := rfl
  size := (Nat.max_eq_left h.position_le).symm
  bytes := (List.append_nil _).symm

theorem Wrote.trans {b b₁ b₂ : ByteArray} {buf₁ buf₂ : List UInt8} (h₁ : Wrote b b₁ buf₁)
    (h₂ : Wrote b₁ b₂ buf₂) : Wrote b b₂ (buf₁ ++ buf₂) where
  inv := h₂.inv
  position := by
    rw [h₂.position, h₁.position, List.length_append, Nat.add_assoc]
  size := by
    have hle : b₁.m_position ≤ b₂.m_position := h₂.position ▸ Nat.le_add_right _ _
    rw [h₂.size, h₁.size]
    omega
  bytes := by
    rw [h₂.bytes, h₁.bytes, List.append_assoc]

/-- A write that returned had room. -/
theorem wrote_put {b b' : ByteArray} (h : Inv b) {junk : Nat → Nat → Nat → UInt8}
    {buf : List UInt8} (hrun : b.put junk buf = .ok b') : Wrote b b' buf := by
  rcases Nat.eq_zero_or_pos buf.length with hzero | hbuf
  · rw [List.length_eq_zero_iff.mp hzero] at hrun ⊢
    rw [put, write_nil] at hrun
    cases hrun
    exact .refl h
  · have hroom : buf.length ≤ (b.addCapacity (junk b.m_position) buf.length).getCapacity := by
      by_contra hshort
      rw [put, h.write_short hbuf hshort] at hrun
      cases hrun
    obtain ⟨b₁, fresh, hrun₁, h₁, -, hpos, hsize, -, hbytes⟩ := h.write_spec _ hbuf hroom
    cases hrun.symm.trans hrun₁
    refine ⟨h₁, hpos, by rw [hsize, hpos], ?_⟩
    have hle : b.m_position ≤ b.nodes.bytes.length :=
      h.length_bytes ▸ Nat.le_trans h.position_le h.size_le
    have hlength : (b.nodes.bytes.take b.m_position).length = b.m_position := by
      rw [List.length_take, Nat.min_eq_left hle]
    rw [hbytes, hpos, overwrite, List.take_append_of_le_length hle]
    apply List.take_left'
    rw [List.length_append, hlength]

theorem wrote_strings {host : ByteOrder} {junk : Nat → Nat → Nat → UInt8}
    (items : List (Prefix × StdString)) : ∀ {b b' : ByteArray}, Inv b →
    writeStrings host m_endian junk items b = .ok b' → Wrote b b' (encoded m_endian items) := by
  induction items with
  | nil =>
    intro b b' h hrun
    cases hrun
    exact .refl h
  | cons item items ih =>
    intro b b' h hrun
    obtain ⟨p, value⟩ := item
    obtain ⟨b₂, hitem, hrest⟩ := Transition.bind_ok hrun
    rw [Prefix.write_eq] at hitem
    obtain ⟨b₁, hlen, hbody⟩ := Transition.bind_ok hitem
    have h₁ := wrote_put h hlen
    have h₂ := wrote_put h₁.inv hbody
    rw [encoded, List.flatMap_cons]
    exact (h₁.trans h₂).trans (ih h₂.inv hrest)

/-- Back at the start, what was written is what there is to read, up to what was there before. -/
theorem Wrote.rest {b b' c : ByteArray} {buf : List UInt8} (h : Inv b) (hw : Wrote b b' buf)
    (hseek : b'.setPosition b.m_position = .ok c) :
    Inv c ∧ c.m_position = b.m_position ∧ c.m_capacity = b'.m_capacity ∧
      ∃ tail, c.rest = buf ++ tail ∧ c.getReadSize = buf.length + tail.length := by
  have hle : b.m_position ≤ b'.m_size := by
    rw [hw.size]
    exact Nat.le_trans h.position_le (Nat.le_max_left _ _)
  obtain ⟨c', hseek', h', -, hpos, hsize, hnodes⟩ :=
    hw.inv.setPosition_spec (Nat.le_trans hle hw.inv.size_le)
  cases hseek.symm.trans hseek'
  have hcap : c.m_capacity = b'.m_capacity := by
    rw [← h'.length_bytes, ← hw.inv.length_bytes, hnodes]
  have hposition := hw.position
  have hread : c.getReadSize = buf.length + b'.getReadSize := by
    have hle' := hw.inv.position_le
    unfold getReadSize
    omega
  have hstart : b.m_position ≤ b.nodes.bytes.length :=
    h.length_bytes ▸ Nat.le_trans h.position_le h.size_le
  have hbuf : slice b'.nodes.bytes b.m_position buf.length = buf := by
    rw [slice, List.take_drop, ← hposition, hw.bytes]
    apply List.drop_left'
    rw [List.length_take, Nat.min_eq_left hstart]
  have hrest : c.rest = buf ++ slice b'.nodes.bytes b'.m_position b'.getReadSize := by
    rw [ByteArray.rest, hnodes, hpos, hread, slice_add, hbuf, ← hposition]
  refine ⟨h', hpos, hcap, _, hrest, ?_⟩
  rw [← h'.length_rest, hrest, List.length_append]

/-- The reader does not step onto the null node. -/
def NullFree {α : Type} (r : Reader α) (b : ByteArray) : Prop :=
  ∀ s, r ⟨b, []⟩ ≠ .error (.fault .nullNode) s

/-- Strings are read back without a null node unless a reader comes to an empty string at the end of
the capacity. If their prefixes tell their lengths, that is the last of the strings. So it is with a
read at any position, which fails if it is one of nothing at the end of the capacity. -/
theorem readStrings_iff {b b' c : ByteArray} (h : Inv b) (host reader m_endian : ByteOrder)
    (junk : Nat → Nat → Nat → UInt8) (refuses : Nat → Option Refusal)
    (items : List (Prefix × StdString))
    (hwrite : writeStrings host m_endian junk items b = .ok b')
    (hseek : b'.setPosition b.m_position = .ok c) :
    (NullFree (readStrings reader m_endian refuses (items.map Prod.fst)) c ↔
      ¬(c.m_position + c.getReadSize = c.m_capacity ∧
        EmptyAtEnd m_endian refuses (items.map Prod.fst) c.rest)) ∧
    ((∀ i ∈ items, i.1.Fits i.2 ∧ refuses i.2.1.length = none) →
      (NullFree (readStrings reader m_endian refuses (items.map Prod.fst)) c ↔
        ¬(b.m_position + (encoded m_endian items).length = b'.m_capacity ∧
          ∃ i ∈ items.getLast?, i.2.1 = []))) ∧
    ∀ p ≤ c.m_size, ∀ n ≤ c.m_size - p,
      (((c.setPosition p).bind fun d => d.read n).map Prod.snd = .ok (slice c.nodes.bytes p n) ↔
        ¬(n = 0 ∧ p = c.m_capacity)) := by
  have hwrote := wrote_strings m_endian items h hwrite
  obtain ⟨hc, hpos, hcap, tail, hrest, hsize⟩ := hwrote.rest h hseek
  have hfree : NullFree (readStrings reader m_endian refuses (items.map Prod.fst)) c ↔
      ¬(c.m_position + c.getReadSize = c.m_capacity ∧
        EmptyAtEnd m_endian refuses (items.map Prod.fst) c.rest) := by
    rw [← readStrings_null reader m_endian refuses (items.map Prod.fst) (s := ⟨c, []⟩) hc,
      not_exists]
    rfl
  refine ⟨hfree, fun hfits => hfree.trans (not_congr ?_), fun p hp n hn => ?_⟩
  · have hle : c.m_position + c.getReadSize ≤ c.m_capacity := by
      have hposition := hc.position_le
      have hsize_le := hc.size_le
      unfold getReadSize
      omega
    rw [hrest, emptyAtEnd_iff m_endian hfits]
    constructor
    · rintro ⟨hend, rfl, hlast⟩
      rw [List.length_nil] at hsize
      exact ⟨by omega, hlast⟩
    · rintro ⟨hend, hlast⟩
      exact ⟨by omega, List.length_eq_zero_iff.mp (by omega), hlast⟩
  · rw [hc.seek_read n hp, if_neg (Nat.not_lt.mpr hn)]
    by_cases hend : n = 0 ∧ p = c.m_capacity
    · rw [if_pos hend]
      exact iff_of_false (fun heq => by cases heq) (not_not_intro hend)
    · rw [if_neg hend]
      exact iff_of_true rfl hend

/-- The length of the empty string fills the block, and there is no node to read nothing from. -/
theorem not_readStrings : ∃ b c, writeStrings .little .big (fun _ _ _ => 0)
      [(.f32, ⟨[], by decide⟩)] (new (fun _ => 0) 4) = .ok b ∧
    b.setPosition 0 = .ok c ∧ c.getReadSize = 4 ∧
    ¬NullFree (readStrings .little .big (fun _ => none) [.f32]) c :=
  ⟨⟨4, 4, 4, 4, [⟨[0, 0, 0, 0]⟩], none⟩, ⟨4, 0, 4, 4, [⟨[0, 0, 0, 0]⟩], some 0⟩, rfl, rfl, rfl,
    fun hfree => hfree _ rfl⟩

theorem readStrings_iff_two : ∃ b c, writeStrings .little .big (fun _ _ _ => 0)
      [(.f32, ⟨[1, 2], by decide⟩), (.vint, ⟨[], by decide⟩)] (new (fun _ => 0) 4) = .ok b ∧
    b.setPosition 0 = .ok c ∧ c.getReadSize = 7 ∧ c.m_capacity = 8 ∧
    NullFree (readStrings .little .big (fun _ => none) [.f32, .vint]) c := by
  have hwrite : writeStrings .little .big (fun _ _ _ => 0)
      [(.f32, ⟨[1, 2], by decide⟩), (.vint, ⟨[], by decide⟩)] (new (fun _ => 0) 4) =
        .ok ⟨4, 7, 8, 7, [⟨[0, 0, 0, 2]⟩, ⟨[1, 2, 0, 0]⟩], some 1⟩ := by
    decide +kernel
  refine ⟨_, ⟨4, 0, 8, 7, [⟨[0, 0, 0, 2]⟩, ⟨[1, 2, 0, 0]⟩], some 0⟩, hwrite, rfl, rfl, rfl, ?_⟩
  have hiff := readStrings_iff (new_inv (fun _ => 0) (by decide)) .little .little .big
    (fun _ _ _ => 0) (fun _ => none) _ hwrite rfl
  refine hiff.1.mpr ?_
  rintro ⟨hend, -⟩
  exact absurd hend (by decide)

end Captain.ByteArray
