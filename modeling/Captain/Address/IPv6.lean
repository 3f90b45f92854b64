import Captain.Address.Mask
import Mathlib.Data.Fintype.Pi

/-!
# `IPv6Address` (`captain/address.cpp`)

Broadcast address, network address and subnet mask of a prefix length. The functions write to the
sixteen bytes of an address by index, and have no result where an index is 16 or more. A result
`some none` is a null pointer.

* `boundaryLaws_iff`: the laws hold exactly of the prefix lengths below 128, and of the addresses
  whose byte at the boundary is zero.
-/

namespace Captain

structure SockaddrIn6 where
  sin6_family : BitVec 16
  sin6_port : BitVec 16
  s6_addr : Fin 16 → UInt8
  deriving DecidableEq

structure IPv6Address where
  m_addr : SockaddrIn6
  deriving DecidableEq

namespace IPv6Address

def AF_INET6 : BitVec 16 := 10

section

variable (host : ByteOrder)

def new (address : Fin 16 → UInt8) (port : BitVec 16) : IPv6Address :=
  ⟨⟨AF_INET6, byteswapOnLittleEndian host port, address⟩⟩

def getPort (a : IPv6Address) : BitVec 16 := byteswapOnLittleEndian host a.m_addr.sin6_port

end

/-- An assignment to the byte at an index. -/
def setByte (s6_addr : Fin 16 → UInt8) (index : Nat) (f : UInt8 → BitVec 8) :
    Option (Fin 16 → UInt8) :=
  if h : index < 16 then some (Function.update s6_addr ⟨index, h⟩ ⟨f (s6_addr ⟨index, h⟩)⟩)
  else none

/-- The loop that sets the bytes from an index on. -/
def setFrom (s6_addr : Fin 16 → UInt8) (index : Nat) (b : UInt8) : Fin 16 → UInt8 :=
  fun i => if index ≤ i then b else s6_addr i

/-- The loop that sets the bytes before an index. -/
def setBefore (s6_addr : Fin 16 → UInt8) (index : Nat) (b : UInt8) : Fin 16 → UInt8 :=
  fun i => if i < index then b else s6_addr i

def broadcastAddress (prefix_len : Nat) (a : IPv6Address) : Option (Option IPv6Address) := do
  let s6_addr ← setByte a.m_addr.s6_addr (prefix_len / 8)
    fun b => b.toBitVec ||| CreateMask 8 (prefix_len % 8)
  let s6_addr := setFrom s6_addr (prefix_len / 8 + 1) 0xff
  some (some ⟨{ a.m_addr with s6_addr }⟩)

def networdAddress (prefix_len : Nat) (a : IPv6Address) : Option (Option IPv6Address) := do
  let s6_addr ← setByte a.m_addr.s6_addr (prefix_len / 8)
    fun b => b.toBitVec &&& CreateMask 8 (prefix_len % 8)
  let s6_addr := setFrom s6_addr (prefix_len / 8 + 1) 0x00
  some (some ⟨{ a.m_addr with s6_addr }⟩)

/-- It is called on an address, of which it uses nothing. -/
def subnetMask (prefix_len : Nat) : Option (Option IPv6Address) := do
  let s6_addr ← setByte (fun _ => 0) (prefix_len / 8) fun _ => ~~~CreateMask 8 (prefix_len % 8)
  let s6_addr := setBefore s6_addr (prefix_len / 8) 0xff
  some (some ⟨⟨AF_INET6, 0, s6_addr⟩⟩)

/-- The byte in which bit `i` is. -/
def byteOf (i : Fin 128) : Fin 16 := ⟨i / 8, by omega⟩

/-- Bit `i` of an address, from the left. -/
def bit (s6_addr : Fin 16 → UInt8) (i : Fin 128) : Bool :=
  (s6_addr (byteOf i)).toBitVec.getMsbD (i % 8)

/-- What the three functions are for. For prefix lengths above 128 they have no address, as those of
`IPv4Address`, of which `subnetMask` makes no such check. -/
structure Laws (host : ByteOrder) (n : Nat) (a : IPv6Address) : Prop where
  subnet : n ≤ 128 → ∃ m, subnetMask n = some (some m) ∧
    ∀ i : Fin 128, bit m.m_addr.s6_addr i = decide (i < n)
  netword : n ≤ 128 → ∃ m, a.networdAddress n = some (some m) ∧ m.getPort host = a.getPort host ∧
    ∀ i : Fin 128, bit m.m_addr.s6_addr i = (bit a.m_addr.s6_addr i && decide (i < n))
  broadcast : n ≤ 128 → ∃ m, a.broadcastAddress n = some (some m) ∧
    m.getPort host = a.getPort host ∧
    ∀ i : Fin 128, bit m.m_addr.s6_addr i = (bit a.m_addr.s6_addr i || !decide (i < n))
  outside : 128 < n → a.networdAddress n = some none ∧ a.broadcastAddress n = some none ∧
    subnetMask n ≠ none

/-! ## Byte by byte -/

/-- Byte `k` of the mask with the `n` leading bits. -/
def maskByte (n k : Nat) : BitVec 8 := leadingBits 8 (min 8 (n - 8 * k))

theorem getMsbD_maskByte {n k j : Nat} (hj : j < 8) :
    (maskByte n k).getMsbD j = decide (8 * k + j < n) := by
  unfold maskByte
  rw [getMsbD_leadingBits (Nat.min_le_left _ _)]
  exact decide_eq_decide.mpr (by omega)

theorem maskByte_before {n k : Nat} (h : k < n / 8) : maskByte n k = BitVec.allOnes 8 := by
  have hmin : min 8 (n - 8 * k) = 8 := by omega
  unfold maskByte
  rw [hmin]
  decide

theorem maskByte_after {n k : Nat} (h : n / 8 < k) : maskByte n k = 0#8 := by
  have hmin : min 8 (n - 8 * k) = 0 := by omega
  unfold maskByte
  rw [hmin]
  decide

theorem maskByte_boundary (n : Nat) : maskByte n (n / 8) = ~~~CreateMask 8 (n % 8) := by
  have hmod : n % 8 < 8 := Nat.mod_lt n (by decide)
  have hmin : min 8 (n - 8 * (n / 8)) = n % 8 := by omega
  unfold maskByte
  rw [hmin, CreateMask_byte hmod]
  rfl

theorem not_maskByte_boundary (n : Nat) : ~~~maskByte n (n / 8) = CreateMask 8 (n % 8) := by
  rw [maskByte_boundary, BitVec.not_not]

/-- Two addresses have the same bits when they have the same bytes. -/
theorem bit_eq_iff {s : Fin 16 → UInt8} {p : Fin 16 → BitVec 8} :
    (∀ i : Fin 128, bit s i = (p (byteOf i)).getMsbD (i % 8)) ↔
      ∀ k, (s k).toBitVec = p k := by
  constructor
  · intro h k
    apply BitVec.eq_of_getMsbD_eq
    intro j hj
    have hbit := h ⟨8 * k + j, by omega⟩
    have hbyte : byteOf ⟨8 * k + j, by omega⟩ = k :=
      Fin.ext (by show (8 * k.val + j) / 8 = k; omega)
    have hmod : (8 * k.val + j) % 8 = j := by omega
    simpa only [bit, hbyte, hmod] using hbit
  · intro h i
    unfold bit
    rw [h]

theorem getMsbD_maskByte_byteOf (n : Nat) (i : Fin 128) :
    (maskByte n (byteOf i)).getMsbD (i % 8) = decide (i < n) := by
  rw [getMsbD_maskByte (Nat.mod_lt _ (by decide))]
  exact decide_eq_decide.mpr (by show 8 * (i.val / 8) + i % 8 < n ↔ i < n; omega)

theorem setByte_of_lt {s : Fin 16 → UInt8} {index : Nat} {f : UInt8 → BitVec 8} (h : index < 16) :
    setByte s index f = some (Function.update s ⟨index, h⟩ ⟨f (s ⟨index, h⟩)⟩) :=
  dif_pos h

theorem setByte_of_le {s : Fin 16 → UInt8} {index : Nat} {f : UInt8 → BitVec 8} (h : 16 ≤ index) :
    setByte s index f = none :=
  dif_neg (Nat.not_lt.mpr h)

/-! ## What the functions write -/

variable {host : ByteOrder} {n : Nat} {a : IPv6Address}

theorem subnetMask_bytes (h : n < 128) : ∃ m, subnetMask n = some (some m) ∧
    ∀ k, (m.m_addr.s6_addr k).toBitVec = maskByte n k := by
  have hindex : n / 8 < 16 := by omega
  unfold subnetMask
  rw [setByte_of_lt hindex]
  refine ⟨_, rfl, fun k => ?_⟩
  unfold setBefore
  rcases Nat.lt_trichotomy k (n / 8) with hk | hk | hk
  · rw [maskByte_before hk]
    simp only [hk, if_true]
    rfl
  · obtain rfl : k = ⟨n / 8, hindex⟩ := Fin.ext hk
    simp only [Nat.lt_irrefl, if_false, Function.update_self]
    exact (maskByte_boundary n).symm
  · have hne : k ≠ ⟨n / 8, hindex⟩ := fun heq => by rw [heq] at hk; exact Nat.lt_irrefl _ hk
    rw [maskByte_after hk]
    simp only [Nat.not_lt.mpr hk.le, if_false, Function.update_of_ne hne]
    rfl

theorem broadcastAddress_bytes (h : n < 128) : ∃ m, a.broadcastAddress n = some (some m) ∧
    m.getPort host = a.getPort host ∧
    ∀ k, (m.m_addr.s6_addr k).toBitVec = (a.m_addr.s6_addr k).toBitVec ||| ~~~maskByte n k := by
  have hindex : n / 8 < 16 := by omega
  unfold broadcastAddress
  rw [setByte_of_lt hindex]
  refine ⟨_, rfl, rfl, fun k => ?_⟩
  unfold setFrom
  rcases Nat.lt_trichotomy k (n / 8) with hk | hk | hk
  · have hne : k ≠ ⟨n / 8, hindex⟩ := fun heq => by rw [heq] at hk; exact Nat.lt_irrefl _ hk
    have hle : ¬n / 8 + 1 ≤ k := by omega
    simp only [hle, if_false, Function.update_of_ne hne]
    rw [maskByte_before hk]
    simp
  · obtain rfl : k = ⟨n / 8, hindex⟩ := Fin.ext hk
    simp only [Nat.not_succ_le_self, if_false, Function.update_self]
    rw [not_maskByte_boundary]
  · rw [maskByte_after hk]
    simp only [Nat.succ_le_of_lt hk, if_true]
    exact BitVec.or_allOnes.symm

/-- The byte at the boundary is masked by the host bits. -/
theorem networdAddress_bytes (h : n < 128) : ∃ m, a.networdAddress n = some (some m) ∧
    m.getPort host = a.getPort host ∧
    ∀ k, (m.m_addr.s6_addr k).toBitVec =
      if k = n / 8 then (a.m_addr.s6_addr k).toBitVec &&& ~~~maskByte n k
      else (a.m_addr.s6_addr k).toBitVec &&& maskByte n k := by
  have hindex : n / 8 < 16 := by omega
  unfold networdAddress
  rw [setByte_of_lt hindex]
  refine ⟨_, rfl, rfl, fun k => ?_⟩
  unfold setFrom
  rcases Nat.lt_trichotomy k (n / 8) with hk | hk | hk
  · have hne : k ≠ ⟨n / 8, hindex⟩ := fun heq => by rw [heq] at hk; exact Nat.lt_irrefl _ hk
    have hle : ¬n / 8 + 1 ≤ k := by omega
    simp only [hle, if_false, Function.update_of_ne hne, hk.ne]
    rw [maskByte_before hk, BitVec.and_allOnes]
  · obtain rfl : k = ⟨n / 8, hindex⟩ := Fin.ext hk
    simp only [Nat.not_succ_le_self, if_false, Function.update_self, if_true]
    rw [not_maskByte_boundary]
  · rw [maskByte_after hk]
    simp only [Nat.succ_le_of_lt hk, if_true, hk.ne', if_false]
    simp

/-- From the prefix length 128 on every function writes to a byte that is not there. -/
theorem outside_of_le (h : 128 ≤ n) :
    subnetMask n = none ∧ a.networdAddress n = none ∧ a.broadcastAddress n = none := by
  have hindex : 16 ≤ n / 8 := by omega
  unfold subnetMask networdAddress broadcastAddress
  rw [setByte_of_le hindex, setByte_of_le hindex, setByte_of_le hindex]
  exact ⟨rfl, rfl, rfl⟩

theorem subnetMask_laws (h : n < 128) : ∃ m, subnetMask n = some (some m) ∧
    ∀ i : Fin 128, bit m.m_addr.s6_addr i = decide (i < n) := by
  obtain ⟨m, heq, hbytes⟩ := subnetMask_bytes h
  refine ⟨m, heq, fun i => ?_⟩
  rw [bit_eq_iff.mpr hbytes i, getMsbD_maskByte_byteOf]

theorem broadcastAddress_laws (h : n < 128) : ∃ m, a.broadcastAddress n = some (some m) ∧
    m.getPort host = a.getPort host ∧
    ∀ i : Fin 128, bit m.m_addr.s6_addr i = (bit a.m_addr.s6_addr i || !decide (i < n)) := by
  obtain ⟨m, heq, hport, hbytes⟩ := broadcastAddress_bytes h
  refine ⟨m, heq, hport, fun i => ?_⟩
  have hmod : i.val % 8 < 8 := Nat.mod_lt _ (by decide)
  rw [bit_eq_iff.mpr hbytes i, BitVec.getMsbD_or, BitVec.getMsbD_not, decide_eq_true hmod,
    Bool.true_and, getMsbD_maskByte_byteOf]
  rfl

/-- The network address is right exactly if the byte at the boundary is zero. -/
theorem networdAddress_right_iff (h : n < 128) : (∃ m, a.networdAddress n = some (some m) ∧
    m.getPort host = a.getPort host ∧
    ∀ i : Fin 128, bit m.m_addr.s6_addr i = (bit a.m_addr.s6_addr i && decide (i < n))) ↔
      a.m_addr.s6_addr ⟨n / 8, by omega⟩ = 0 := by
  obtain ⟨m, heq, hport, hbytes⟩ := networdAddress_bytes h
  have hbits : (∀ i : Fin 128,
      bit m.m_addr.s6_addr i = (bit a.m_addr.s6_addr i && decide (i < n))) ↔
      ∀ k, (m.m_addr.s6_addr k).toBitVec = (a.m_addr.s6_addr k).toBitVec &&& maskByte n k := by
    rw [← bit_eq_iff]
    refine forall_congr' fun i => ?_
    rw [BitVec.getMsbD_and, getMsbD_maskByte_byteOf]
    rfl
  constructor
  · rintro ⟨m', heq', _, hlaw⟩
    obtain rfl : m = m' := Option.some.inj (Option.some.inj (heq.symm.trans heq'))
    have hbyte := hbytes ⟨n / 8, by omega⟩
    rw [if_pos rfl, hbits.mp hlaw ⟨n / 8, by omega⟩] at hbyte
    exact UInt8.toBitVec_inj.mp (and_not_eq_iff.mp hbyte)
  · intro hzero
    refine ⟨m, heq, hport, hbits.mpr fun k => ?_⟩
    rw [hbytes]
    split
    · rename_i hk
      have hboundary : k = ⟨n / 8, by omega⟩ := Fin.ext hk
      rw [hboundary, hzero]
      exact (and_not_eq_iff.mpr rfl).symm
    · rfl

theorem boundaryLaws_iff (host : ByteOrder) (n : Nat) (a : IPv6Address) :
    Laws host n a ↔ ∃ h : n < 128, a.m_addr.s6_addr ⟨n / 8, by omega⟩ = 0 := by
  constructor
  · intro h
    have hlt : n < 128 := by
      by_contra hle
      obtain ⟨hsubnet, _, _⟩ := outside_of_le (a := a) (Nat.not_lt.mp hle)
      rcases Nat.lt_or_ge 128 n with hgt | hle'
      · exact (h.outside hgt).2.2 hsubnet
      · obtain ⟨m, hm, _⟩ := h.subnet hle'
        rw [hsubnet] at hm
        cases hm
    exact ⟨hlt, (networdAddress_right_iff hlt).mp (h.netword hlt.le)⟩
  · rintro ⟨hlt, hzero⟩
    exact {
      subnet := fun _ => subnetMask_laws hlt
      netword := fun _ => (networdAddress_right_iff hlt).mpr hzero
      broadcast := fun _ => broadcastAddress_laws hlt
      outside := fun hgt => absurd (hgt.trans hlt) (Nat.lt_irrefl _) }

/-- The mask of all bits is written beyond the address. -/
theorem subnetMask_at_128 :
    ¬∀ (host : ByteOrder) (n : Nat) (a : IPv6Address), Laws host n a := by
  intro h
  obtain ⟨m, hm, _⟩ := (h .little 128 (new .little (fun _ => 0) 80)).subnet (by decide)
  have hnone : subnetMask 128 = none := by decide
  rw [hnone] at hm
  cases hm

end IPv6Address

end Captain
