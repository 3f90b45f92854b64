import Captain.Http.BodyLimit
import Captain.Stream

/-!
# `readFixSize` of a session

The bytes of a body come by `SocketStream::read`. What `Stream::readFixSize` returns to a session is
what it makes of the results of these calls.
-/

namespace Captain

namespace Http.SocketStream

/-- What the calls of `read` in the loop return. -/
def results : Nat → SocketStream → Nat → List Int32
  | 0, _, _ => []
  | turns + 1, s, left =>
    if left = 0 then []
    else
      let (got, s) := s.read left
      Int32.ofNat got.length ::
        (if got.length = 0 then [] else results turns s (left - got.length))

theorem length_read_lt (s : SocketStream) (length : Nat) : (s.read length).1.length < 2 ^ 31 := by
  have hmax : MAX_RW_COUNT < 2 ^ 31 := by decide
  unfold read
  split
  · exact Nat.two_pow_pos 31
  · split
    · exact Nat.two_pow_pos 31
    · dsimp only
      split
      · dsimp only
        omega
      · dsimp only
        rw [List.length_take]
        omega

theorem toInt_ofNat {n : Nat} (h : n < 2 ^ 31) : (Int32.ofNat n).toInt = n :=
  Int32.toInt_ofNat_of_lt h

/-- The value that stands for what the loop has read. -/
def returned (length : UInt64) : Option Bytes → Int32
  | some _ => length.toUInt32.toInt32
  | none => 0

theorem returned_map (length : UInt64) (buffer : Option Bytes) (f : Bytes → Bytes) :
    returned length (buffer.map f) = returned length buffer := by
  cases buffer <;> rfl

/-- The loop of a session is that of `Stream::readFixSize` over what its calls return. -/
theorem readLoop_eq (length : UInt64) {turns : Nat} {s : SocketStream} {left : Nat}
    (hturns : left < turns) (offset : Nat) :
    ∃ moved, Stream.fixSizeLoop length (results turns s left) offset left =
      some ⟨returned length (readLoop turns s left).1, moved⟩ := by
  induction turns generalizing s left offset with
  | zero => cases hturns
  | succ turns ih =>
    rw [results, readLoop]
    by_cases hzero : left = 0
    · subst hzero
      exact ⟨[], rfl⟩
    · rw [if_neg hzero, if_neg hzero]
      dsimp only
      have hint := toInt_ofNat (length_read_lt s left)
      have hle := length_read_le s left
      by_cases hgot : (s.read left).1.length = 0
      · rw [if_pos hgot, if_pos hgot, hgot]
        exact ⟨[], Stream.fixSizeLoop_failed (by omega) (by decide) []⟩
      · have hpos : ¬Int32.ofNat (s.read left).1.length ≤ 0 := by
          have hzero' : (0 : Int32).toInt = 0 := rfl
          rw [Int32.le_iff_toInt_le, hint, hzero']
          omega
        obtain ⟨moved, hmoved⟩ := ih (s := (s.read left).2)
          (show left - (s.read left).1.length < turns by omega) (offset + (s.read left).1.length)
        have hleft : ((left - (s.read left).1.length : Nat) : Int) =
            left - (s.read left).1.length := by omega
        rw [if_neg hgot, if_neg hgot, Stream.fixSizeLoop, if_pos (by omega), if_neg hpos, hint,
          Int.toNat_natCast, ← hleft, hmoved]
        dsimp only
        rw [returned_map]
        exact ⟨_, rfl⟩

/-- What `readFixSize` returns to a session. -/
theorem readFixSize_eq {length : UInt64} (hlt : length.toNat < 2 ^ 63) (s : SocketStream) :
    (Stream.readFixSize length (s.results (length.toNat + 1) length.toNat)).map
      (fun r => r.rt.toInt) = some (s.readFixSize length.toNat).1 := by
  obtain ⟨moved, hmoved⟩ := readLoop_eq length (s := s)
    (Nat.lt_succ_self length.toNat) 0
  rw [Stream.readFixSize, Stream.toInt_length, if_pos hlt, hmoved, Option.map_some]
  unfold readFixSize
  cases hbuffer : readLoop (length.toNat + 1) s length.toNat with
  | mk buffer s' =>
    cases buffer with
    | none => rfl
    | some buffer =>
      have hint : length.toUInt32.toInt32.toInt = toInt length.toNat := by
        have hleft : length.toUInt32.toInt32.toInt = (length.toUInt32.toNat : Int).bmod (2 ^ 32) :=
          BitVec.toInt_eq_toNat_bmod ..
        have hright : toInt length.toNat = (_ : Int).bmod (2 ^ 32) :=
          BitVec.toInt_eq_toNat_bmod ..
        rw [hleft, hright, UInt64.toNat_toUInt32, BitVec.toNat_ofNat]
      exact congrArg some hint

end Http.SocketStream

end Captain
