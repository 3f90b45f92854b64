import Captain.ByteArray.Refinement

/-!
# Segments of a `ByteArray`

`getReadBuffers` and `getWriteBuffers` give out ranges of the blocks, and the kernel moves bytes
from them (`gather`) or into them (`scatter`), front to back. `Tiles` says that the segments lie one
after the other from a position on: then `gather` is a slice of the bytes of the chain, and
`scatter` overwrites one.
-/

namespace Captain

open Chunks

namespace ByteArray

/-- The segments lie end to end in blocks of `B` bytes, `count` of them, and make up the `n` bytes
from the position `p` on. -/
inductive Tiles (count B : Nat) : List Iovec → Nat → Nat → Prop
  | nil (p : Nat) : Tiles count B [] p 0
  | cons {i off m n : Nat} {vs : List Iovec} (hi : i < count) (hm : 1 ≤ m) (hoff : off + m ≤ B)
      (rest : Tiles count B vs (i * B + off + m) n) :
      Tiles count B (⟨some i, off, m⟩ :: vs) (i * B + off) (m + n)

/-- What `sendmsg` finds in the segments. -/
def gather (ns : Chain) : List Iovec → Except Fault (List UInt8)
  | [] => .ok []
  | v :: vs => do
    let bytes ← ns.load v.node v.off v.iov_len
    let rest ← gather ns vs
    .ok (bytes ++ rest)

/-- `recvmsg` puts `data` into the segments. -/
def scatter : Chain → List Iovec → List UInt8 → Except Fault Chain
  | ns, [], _ => .ok ns
  | ns, v :: vs, data =>
    if data = [] then .ok ns
    else do
      let ns ← ns.store v.node v.off (data.take v.iov_len)
      scatter ns vs (data.drop v.iov_len)

theorem gather_tiles {ns : Chain} {B : Nat} (h : ns.Uniform B) {vs : List Iovec} {p n : Nat}
    (ht : Tiles ns.length B vs p n) : gather ns vs = .ok (slice ns.bytes p n) := by
  induction ht with
  | nil p => simp [gather, slice]
  | cons hi hm hoff rest ih =>
    simp only [gather, bind, Except.bind, h.load_at hi _ _ hoff, ih]
    rw [slice_add]

theorem scatter_tiles {count B : Nat} {vs : List Iovec} {p n : Nat} (ht : Tiles count B vs p n) :
    ∀ {ns : Chain} (_ : ns.Uniform B) (_ : ns.length = count) {data : List UInt8}
      (_ : data.length ≤ n), ∃ ns', scatter ns vs data = .ok ns' ∧ ns'.length = ns.length ∧
        ns'.Uniform B ∧ ns'.bytes = overwrite ns.bytes p data := by
  induction ht with
  | nil p =>
    intro ns h _ data hdata
    obtain rfl : data = [] := List.length_eq_zero_iff.mp (Nat.le_zero.mp hdata)
    exact ⟨ns, rfl, rfl, h, (overwrite_nil _ _).symm⟩
  | @cons i off m n vs hi hm hoff rest ih =>
    intro ns h hcount data hdata
    by_cases hnil : data = []
    · subst hnil
      exact ⟨ns, if_pos rfl, rfl, h, (overwrite_nil _ _).symm⟩
    · have hle : (data.take m).length ≤ m := List.length_take_le m data
      obtain ⟨ns₁, hst, hns₁, hu₁, hby₁⟩ :=
        h.store_at (i := i) (by omega) off (data.take m) (by omega)
      obtain ⟨ns', hrun, hns', hu', hby'⟩ := ih hu₁ (hns₁.trans hcount)
        (by rw [List.length_drop]; omega : (data.drop m).length ≤ n)
      refine ⟨ns', ?_, hns'.trans hns₁, hu', ?_⟩
      · rw [scatter, if_neg hnil]
        simp only [bind, Except.bind, hst, hrun]
      · rw [hby', hby₁]
        by_cases hlong : m ≤ data.length
        · have htake : (data.take m).length = m := List.length_take_of_le hlong
          have hroom : i * B + off + (data.take m).length ≤ ns.bytes.length := by
            have hlt : i * B + B ≤ B * count := by
              rw [Nat.mul_comm B, ← Nat.succ_mul]
              exact Nat.mul_le_mul_right B hi
            rw [h.length_bytes, hcount]
            omega
          have hover := overwrite_overwrite (data.drop m) hroom
          rwa [htake, List.take_append_drop] at hover
        · rw [List.drop_eq_nil_of_le (by omega), overwrite_nil, List.take_of_length_le (by omega)]

/-- The segments that the loop appends for a transfer that fits. -/
theorem iovecLoop_tiles {ns : Chain} {B : Nat} (h : ns.Uniform B) (turns : Nat) :
    ∀ {i : Nat} (off len : Nat) (buffers : List Iovec), i < ns.length → off < B → 1 ≤ len →
      i * B + off + len ≤ B * ns.length → ns.length ≤ i + turns →
      ∃ vs, iovecLoop ns turns (some i) off (B - off) len buffers = .ok (buffers ++ vs) ∧
        Tiles ns.length B vs (i * B + off) len := by
  induction turns with
  | zero =>
    intro i off len buffers hi _ _ _ hturns
    omega
  | succ turns ih =>
    intro i off len buffers hi hoff hlen hfit hturns
    obtain ⟨n, -, hd, -⟩ := h.deref_at hi
    rw [iovecLoop, if_neg (by omega)]
    by_cases hcap : B - off ≥ len
    · refine ⟨[⟨some i, off, len⟩], ?_, .cons hi hlen (by omega) (.nil _)⟩
      rw [if_pos hcap]
      simp only [bind, Except.bind, hd]
    · have hmul : (i + 1) * B = i * B + B := by ring
      have hi' : i + 1 < ns.length := Chain.lt_of_overflow hoff len (by omega) hfit
      have hcur := h.cursor_at hi' h.base_pos
      rw [Nat.add_zero] at hcur
      obtain ⟨m, -, hd', hm⟩ := h.deref_at hi'
      obtain ⟨vs, hrun, htiles⟩ := ih 0 (len - (B - off)) (buffers ++ [⟨some i, off, B - off⟩]) hi'
        h.base_pos (by omega) (by omega) (by omega)
      refine ⟨⟨some i, off, B - off⟩ :: vs, ?_, ?_⟩
      · rw [if_neg hcap]
        simp only [bind, Except.bind, hd, h.next_at hi, hcur, hd', hm]
        rw [Nat.sub_zero] at hrun
        rw [hrun, List.append_assoc, List.singleton_append]
      · have hend : i * B + off + (B - off) = (i + 1) * B + 0 := by omega
        have hsum : len = B - off + (len - (B - off)) := by omega
        rw [hsum]
        refine .cons hi (by omega) (by omega) ?_
        rw [hend]
        exact htiles

end ByteArray

end Captain
