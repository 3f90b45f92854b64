import Captain.ByteArray.Cursor
import Captain.Transition

/-!
# `ByteArray` is a flat byte array with a cursor

`Flat` is what a `ByteArray` is for: a byte array that grows at its end, a position and the
size of the data. `refines_flat` relates the two over whole runs of `write`, `read`,
`setPosition` and `clear` from a fresh array: no call faults, `Inv` holds in every state
reached, and the calls with the bytes they return are a run of `Flat`.
-/

namespace Captain

open Chunks Transition

/-- A byte array with a cursor `pos` and the size of the data stored so far. -/
@[ext] structure Flat where
  bytes : List UInt8
  pos : Nat
  size : Nat
  pos_le : pos ≤ size
  size_le : size ≤ bytes.length

namespace Flat

/-- Writes `buf` over the bytes from `pos` on, after the array has grown by `fresh`. -/
def write (f : Flat) (fresh buf : List UInt8)
    (h : f.pos + buf.length ≤ (f.bytes ++ fresh).length) : Flat where
  bytes := overwrite (f.bytes ++ fresh) f.pos buf
  pos := f.pos + buf.length
  size := max f.size (f.pos + buf.length)
  pos_le := Nat.le_max_right _ _
  size_le := by
    have := f.size_le
    rw [length_overwrite h]
    rw [List.length_append] at h ⊢
    omega

def advance (f : Flat) (n : Nat) (h : f.pos + n ≤ f.size) : Flat where
  bytes := f.bytes
  pos := f.pos + n
  size := f.size
  pos_le := h
  size_le := f.size_le

def seek (f : Flat) (v : Nat) (h : v ≤ f.bytes.length) : Flat where
  bytes := f.bytes
  pos := v
  size := max f.size v
  pos_le := Nat.le_max_right _ _
  size_le := Nat.max_le.mpr ⟨f.size_le, h⟩

/-- Forgets the data and gives back all but the first `k` bytes of the store. -/
def clear (f : Flat) (k : Nat) : Flat where
  bytes := f.bytes.take k
  pos := 0
  size := 0
  pos_le := Nat.le_refl _
  size_le := Nat.zero_le _

end Flat

namespace ByteArray

/-- A call of one of the four operations. A `write` comes with the contents of the blocks that
its `addCapacity` may allocate. -/
inductive Op
  | write (junk : Nat → Nat → UInt8) (buf : List UInt8)
  | read (size : Nat)
  | setPosition (v : Nat)
  | clear

/-- A call and the bytes it hands back (none but those of a `read`). -/
abbrev Call := Op × List UInt8

/-- What a call does to the array. -/
def call (b : ByteArray) : Op → Except Fault (ByteArray × List UInt8)
  | .write junk buf => (b.write junk buf).map fun b => (b, [])
  | .read size => b.read size
  | .setPosition v => (b.setPosition v).map fun b => (b, [])
  | .clear => .ok (b.clear, [])

def Trans (b : ByteArray) (c : Call) (b' : ByteArray) : Prop := b.call c.1 = .ok (b', c.2)

/-- The calls considered: a `write` of at least one byte whose `addCapacity` leaves enough
room, a `read` of at least one byte inside the data, a `setPosition` inside the capacity. -/
def Legal (b : ByteArray) : Op → Prop
  | .write junk buf =>
    1 ≤ buf.length ∧ buf.length ≤ (b.addCapacity junk buf.length).getCapacity
  | .read size => 1 ≤ size ∧ size ≤ b.getReadSize
  | .setPosition v => v ≤ b.m_capacity
  | .clear => True

instance (b : ByteArray) : (op : Op) → Decidable (Legal b op)
  | .write junk buf => inferInstanceAs (Decidable
      (1 ≤ buf.length ∧ buf.length ≤ (b.addCapacity junk buf.length).getCapacity))
  | .read size => inferInstanceAs (Decidable (1 ≤ size ∧ size ≤ b.getReadSize))
  | .setPosition v => inferInstanceAs (Decidable (v ≤ b.m_capacity))
  | .clear => isTrue trivial

/-- The runs considered are made of legal calls. -/
abbrev LegalTrans : ByteArray → Call → ByteArray → Prop := Guard (fun b c => Legal b c.1) Trans

/-- The flat array that an array with its invariant stands for. -/
def flat (b : ByteArray) (h : Inv b) : Flat where
  bytes := b.nodes.bytes
  pos := b.m_position
  size := b.m_size
  pos_le := h.position_le
  size_le := h.length_bytes ▸ h.size_le

/-- One call on the flat array, with the bytes it returns. -/
inductive FlatStep : Flat → Call → Flat → Prop
  | write {f : Flat} (junk : Nat → Nat → UInt8) (fresh : List UInt8) {buf : List UInt8}
      (h : f.pos + buf.length ≤ (f.bytes ++ fresh).length) :
      FlatStep f (.write junk buf, []) (f.write fresh buf h)
  | read {f : Flat} {n : Nat} (h : f.pos + n ≤ f.size) :
      FlatStep f (.read n, slice f.bytes f.pos n) (f.advance n h)
  | setPosition {f : Flat} {v : Nat} (h : v ≤ f.bytes.length) :
      FlatStep f (.setPosition v, []) (f.seek v h)
  | clear {f : Flat} (k : Nat) : FlatStep f (.clear, []) (f.clear k)

/-- A legal call runs without a fault, keeps the invariant, and is a call on the flat array. -/
theorem call_spec {b : ByteArray} (h : Inv b) {op : Op} (hop : Legal b op) :
    ∃ b' out, b.call op = .ok (b', out) ∧ b'.m_baseSize = b.m_baseSize ∧
      ∃ h' : Inv b', FlatStep (b.flat h) (op, out) (b'.flat h') := by
  cases op with
  | write junk buf =>
    obtain ⟨b', fresh, hrun, h', hB, hpos, hsize, hroom, hby⟩ := h.write_spec junk hop.1 hop.2
    refine ⟨b', [], by simp only [call, hrun, Except.map], hB, h', ?_⟩
    have hflat : b'.flat h' = (b.flat h).write fresh buf hroom := Flat.ext hby hpos hsize
    rw [hflat]
    exact .write junk fresh hroom
  | read n =>
    obtain ⟨b', hrun, h', hB, hpos, hsize, hns⟩ := h.read_spec hop.1 hop.2
    have hn : b.m_position + n ≤ b.m_size := by
      have := h.position_le
      have := hop.2
      unfold getReadSize at this
      omega
    refine ⟨b', _, hrun, hB, h', ?_⟩
    have hflat : b'.flat h' = (b.flat h).advance n hn :=
      Flat.ext (congrArg Chain.bytes hns) hpos hsize
    rw [hflat]
    exact .read hn
  | setPosition v =>
    obtain ⟨b', hrun, h', hB, hpos, hsize, hns⟩ := h.setPosition_spec hop
    have hv : v ≤ b.nodes.bytes.length := h.length_bytes ▸ hop
    refine ⟨b', [], by simp only [call, hrun, Except.map], hB, h', ?_⟩
    have hflat : b'.flat h' = (b.flat h).seek v hv :=
      Flat.ext (congrArg Chain.bytes hns) hpos hsize
    rw [hflat]
    exact .setPosition hv
  | clear =>
    obtain ⟨h', hby⟩ := h.clear_spec
    refine ⟨b.clear, [], rfl, rfl, h', ?_⟩
    have hflat : b.clear.flat h' = (b.flat h).clear b.m_baseSize := Flat.ext hby rfl rfl
    rw [hflat]
    exact .clear _

/-- **Refinement.** For every base size and every run of legal calls from a fresh array: the
cursor invariant holds in the state reached, the run with all the bytes it returned is a run of
the flat array, and each further legal call runs without a fault as a call on the flat array. -/
theorem refines_flat {B : Nat} (hB : 1 ≤ B) (junk : Nat → UInt8) {cs : List Call}
    {b : ByteArray} (hrun : Run LegalTrans (new junk B) cs b) :
    (b.m_position ≤ b.m_size ∧ b.m_size ≤ b.m_capacity ∧ b.m_capacity = B * b.nodes.length ∧
      b.m_cur = if b.m_position = b.m_capacity then none else some (b.m_position / B)) ∧
    ∃ h : Inv b, Run FlatStep ((new junk B).flat (new_inv junk hB)) cs (b.flat h) ∧
      ∀ op, Legal b op → ∃ b' out, b.call op = .ok (b', out) ∧
        ∃ h' : Inv b', FlatStep (b.flat h) (op, out) (b'.flat h') := by
  have hsim := hrun.simulate FlatStep
    (fun b f => b.m_baseSize = B ∧ ∃ h : Inv b, f = b.flat h)
    (by
      rintro b ⟨op, out⟩ b' f ⟨hbase, h, rfl⟩ ⟨hlegal, htrans⟩
      obtain ⟨b₁, out₁, hcall, hbase₁, h₁, hstep⟩ := call_spec h hlegal
      rw [Trans, hcall] at htrans
      cases htrans
      exact ⟨_, hstep, hbase₁.trans hbase, h₁, rfl⟩)
    (t := (new junk B).flat (new_inv junk hB)) ⟨rfl, new_inv junk hB, rfl⟩
  obtain ⟨f, hflat, hbase, h, rfl⟩ := hsim
  refine ⟨⟨h.position_le, h.size_le, hbase ▸ h.capacity, hbase ▸ h.cur⟩, h, hflat, ?_⟩
  intro op hop
  obtain ⟨b', out, hcall, -, h', hstep⟩ := call_spec h hop
  exact ⟨b', out, hcall, h', hstep⟩

/-- A write that ends on the edge of the only node, one more byte, and the two of them read
back over the edge of the first node. -/
theorem refines_flat_two :
    ∃ b, Run LegalTrans (new (fun _ => 0) 2)
        [(.write (fun _ _ => 7) [1, 2], []), (.write (fun _ _ => 7) [3], []),
          (.setPosition 1, []), (.read 2, [2, 3])] b ∧
      ∃ h : Inv b, b.flat h = ⟨[1, 2, 3, 7], 3, 3, by decide, by decide⟩ := by
  have h₁ : LegalTrans (new (fun _ => 0) 2) (.write (fun _ _ => 7) [1, 2], [])
      ⟨2, 2, 2, 2, [⟨[1, 2]⟩], none⟩ := ⟨by decide, rfl⟩
  have h₂ : LegalTrans ⟨2, 2, 2, 2, [⟨[1, 2]⟩], none⟩ (.write (fun _ _ => 7) [3], [])
      ⟨2, 3, 4, 3, [⟨[1, 2]⟩, ⟨[3, 7]⟩], some 1⟩ := ⟨by decide, rfl⟩
  have h₃ : LegalTrans ⟨2, 3, 4, 3, [⟨[1, 2]⟩, ⟨[3, 7]⟩], some 1⟩ (.setPosition 1, [])
      ⟨2, 1, 4, 3, [⟨[1, 2]⟩, ⟨[3, 7]⟩], some 0⟩ := ⟨by decide, rfl⟩
  have h₄ : LegalTrans ⟨2, 1, 4, 3, [⟨[1, 2]⟩, ⟨[3, 7]⟩], some 0⟩ (.read 2, [2, 3])
      ⟨2, 3, 4, 3, [⟨[1, 2]⟩, ⟨[3, 7]⟩], some 1⟩ := ⟨by decide, rfl⟩
  have hrun := Run.cons h₁ (.cons h₂ (.cons h₃ (.cons h₄ (.nil _))))
  obtain ⟨-, h, -⟩ := refines_flat (by decide) (fun _ => 0) hrun
  exact ⟨_, hrun, h, rfl⟩

end ByteArray

end Captain
