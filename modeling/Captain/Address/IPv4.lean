import Captain.Address.Mask

/-!
# `IPv4Address` (`captain/address.cpp`)

Broadcast address, network address and subnet mask of a prefix length.

* `prefixLaws_iff`: `networdAddress` keeps the host bits instead of those of the network, and for
  the prefix length 0 the mask of the host bits is empty; the laws hold of a pair of addresses only
  where this makes no difference.
-/

namespace Captain

structure SockaddrIn where
  sin_family : BitVec 16
  sin_port : BitVec 16
  /-- The number that the host reads. -/
  s_addr : BitVec 32
  deriving DecidableEq

structure IPv4Address where
  m_addr : SockaddrIn
  deriving DecidableEq

namespace IPv4Address

def AF_INET : BitVec 16 := 2

section

variable (host : ByteOrder)

def new (address : BitVec 32) (port : BitVec 16) : IPv4Address :=
  ⟨⟨AF_INET, byteswapOnLittleEndian host port, byteswapOnLittleEndian host address⟩⟩

/-- The number that `insert` prints. -/
def address (a : IPv4Address) : BitVec 32 := byteswapOnLittleEndian host a.m_addr.s_addr

def getPort (a : IPv4Address) : BitVec 16 := byteswapOnLittleEndian host a.m_addr.sin_port

def broadcastAddress (prefix_len : Nat) (a : IPv4Address) : Option IPv4Address :=
  if prefix_len > 32 then none
  else
    let mask := byteswapOnLittleEndian host (CreateMask 32 prefix_len)
    some ⟨{ a.m_addr with s_addr := a.m_addr.s_addr ||| mask }⟩

def networdAddress (prefix_len : Nat) (a : IPv4Address) : Option IPv4Address :=
  if prefix_len > 32 then none
  else
    let mask := byteswapOnLittleEndian host (CreateMask 32 prefix_len)
    some ⟨{ a.m_addr with s_addr := a.m_addr.s_addr &&& mask }⟩

/-- It is called on an address, of which it uses nothing. -/
def subnetMask (prefix_len : Nat) : IPv4Address :=
  ⟨⟨AF_INET, 0, ~~~byteswapOnLittleEndian host (CreateMask 32 prefix_len)⟩⟩

/-- The first `n` bits agree. -/
def FirstAgree (n : Nat) (a b : IPv4Address) : Prop :=
  ∀ i < n, (a.address host).getMsbD i = (b.address host).getMsbD i

/-- The bits from `n` on agree. -/
def RestAgree (n : Nat) (a b : IPv4Address) : Prop :=
  ∀ i < 32, n ≤ i → (a.address host).getMsbD i = (b.address host).getMsbD i

/-- What the three functions are for. -/
structure Laws (n : Nat) (a b : IPv4Address) : Prop where
  subnet : (subnetMask host n).address host = leadingBits 32 n
  netword : (a.networdAddress host n).map (address host) =
    some (a.address host &&& leadingBits 32 n)
  broadcast : (a.broadcastAddress host n).map (address host) =
    some (a.address host ||| ~~~leadingBits 32 n)
  netword_port : (a.networdAddress host n).map (getPort host) = some (a.getPort host)
  broadcast_port : (a.broadcastAddress host n).map (getPort host) = some (a.getPort host)
  idempotent : (a.networdAddress host n).bind (networdAddress host n) = a.networdAddress host n
  same : (a.networdAddress host n).map (address host) =
    (b.networdAddress host n).map (address host) ↔ FirstAgree host n a b

end

variable {host : ByteOrder} {n : Nat} {a b : IPv4Address}

theorem address_subnetMask : (subnetMask host n).address host = ~~~CreateMask 32 n := by
  unfold subnetMask address
  rw [byteswap_not (by decide), byteswap_byteswap (by decide)]

theorem address_networdAddress (hn : n ≤ 32) :
    (a.networdAddress host n).map (address host) = some (a.address host &&& CreateMask 32 n) := by
  unfold networdAddress
  rw [if_neg (Nat.not_lt.mpr hn), Option.map_some]
  unfold address
  rw [byteswap_and (by decide), byteswap_byteswap (by decide)]

theorem address_broadcastAddress (hn : n ≤ 32) :
    (a.broadcastAddress host n).map (address host) = some (a.address host ||| CreateMask 32 n) := by
  unfold broadcastAddress
  rw [if_neg (Nat.not_lt.mpr hn), Option.map_some]
  unfold address
  rw [byteswap_or (by decide), byteswap_byteswap (by decide)]

theorem networdAddress_port (hn : n ≤ 32) :
    (a.networdAddress host n).map (getPort host) = some (a.getPort host) := by
  unfold networdAddress
  rw [if_neg (Nat.not_lt.mpr hn)]
  rfl

theorem broadcastAddress_port (hn : n ≤ 32) :
    (a.broadcastAddress host n).map (getPort host) = some (a.getPort host) := by
  unfold broadcastAddress
  rw [if_neg (Nat.not_lt.mpr hn)]
  rfl

theorem networdAddress_idempotent (hn : n ≤ 32) :
    (a.networdAddress host n).bind (networdAddress host n) = a.networdAddress host n := by
  unfold networdAddress
  simp only [if_neg (Nat.not_lt.mpr hn), Option.bind_some, BitVec.and_assoc, BitVec.and_self]

/-! ## Where the host bits serve as well -/

theorem not_CreateMask (hpos : 0 < n) (hn : n ≤ 32) : ~~~CreateMask 32 n = leadingBits 32 n := by
  rw [CreateMask_eq hpos hn]
  rfl

theorem not_leadingBits (hpos : 0 < n) (hn : n ≤ 32) : ~~~leadingBits 32 n = CreateMask 32 n := by
  rw [← not_CreateMask hpos hn, BitVec.not_not]

theorem subnetMask_iff (hn : n ≤ 32) :
    (subnetMask host n).address host = leadingBits 32 n ↔ 0 < n := by
  rw [address_subnetMask]
  constructor
  · intro h
    by_contra hzero
    obtain rfl : n = 0 := by omega
    exact absurd h (by decide)
  · intro hpos
    exact not_CreateMask hpos hn

theorem networdAddress_iff (hpos : 0 < n) (hn : n ≤ 32) :
    (a.networdAddress host n).map (address host) = some (a.address host &&& leadingBits 32 n) ↔
      a.address host = 0 := by
  rw [address_networdAddress hn, ← not_CreateMask hpos hn, Option.some.injEq]
  exact and_not_eq_iff

theorem broadcastAddress_of_pos (hpos : 0 < n) (hn : n ≤ 32) :
    (a.broadcastAddress host n).map (address host) =
      some (a.address host ||| ~~~leadingBits 32 n) := by
  rw [address_broadcastAddress hn, not_leadingBits hpos hn]

/-- The network address has the bits from `n` on. -/
theorem networdAddress_same_iff (hpos : 0 < n) (hn : n ≤ 32) :
    (a.networdAddress host n).map (address host) = (b.networdAddress host n).map (address host) ↔
      RestAgree host n a b := by
  rw [address_networdAddress hn, address_networdAddress hn, Option.some.injEq,
    CreateMask_eq hpos hn]
  unfold RestAgree
  constructor
  · intro h i hi hle
    have hbit := congrArg (fun y : BitVec 32 => y.getLsbD (31 - i)) h
    simp only [BitVec.getLsbD_and] at hbit
    rw [getLsbD_lowBits (by omega), decide_eq_true (by omega), Bool.and_true, Bool.and_true] at hbit
    rw [BitVec.getMsbD_eq_getLsbD, BitVec.getMsbD_eq_getLsbD, hbit]
  · intro h
    apply BitVec.eq_of_getLsbD_eq
    intro i hi
    rw [BitVec.getLsbD_and, BitVec.getLsbD_and, getLsbD_lowBits hi]
    by_cases hlow : i < 32 - n
    · have hbit := h (31 - i) (by omega) (by omega)
      have hflip : 32 - 1 - (31 - i) = i := by omega
      rw [BitVec.getMsbD_eq_getLsbD, BitVec.getMsbD_eq_getLsbD, hflip,
        decide_eq_true (by omega : 31 - i < 32), Bool.true_and, Bool.true_and] at hbit
      rw [hbit]
    · rw [decide_eq_false hlow, Bool.and_false, Bool.and_false]

/-- The laws hold of two addresses only if the first one is `0.0.0.0`, and for no prefix length do
they hold of it and of every other address. -/
theorem prefixLaws_iff (hn : n ≤ 32) (a : IPv4Address) :
    (∀ b, Laws host n a b ↔
      0 < n ∧ a.address host = 0 ∧ (RestAgree host n a b ↔ FirstAgree host n a b)) ∧
    ¬∀ b, Laws host n a b := by
  have hlaws : ∀ b, Laws host n a b ↔
      0 < n ∧ a.address host = 0 ∧ (RestAgree host n a b ↔ FirstAgree host n a b) := by
    intro b
    constructor
    · intro h
      have hpos := (subnetMask_iff hn).mp h.subnet
      refine ⟨hpos, (networdAddress_iff hpos hn).mp h.netword, ?_⟩
      rw [← networdAddress_same_iff hpos hn]
      exact h.same
    · rintro ⟨hpos, hzero, hsame⟩
      exact {
        subnet := (subnetMask_iff hn).mpr hpos
        netword := (networdAddress_iff hpos hn).mpr hzero
        broadcast := broadcastAddress_of_pos hpos hn
        netword_port := networdAddress_port hn
        broadcast_port := broadcastAddress_port hn
        idempotent := networdAddress_idempotent hn
        same := (networdAddress_same_iff hpos hn).trans hsame }
  refine ⟨hlaws, fun hall => ?_⟩
  -- `128.0.0.0` differs from `0.0.0.0` in its first bit alone.
  obtain ⟨hpos, hzero, hsame⟩ := (hlaws _).mp (hall (new host 0x80000000 0))
  have haddr : (new host 0x80000000 0).address host = 0x80000000 :=
    byteswap_byteswap (by decide) _
  have hrest : RestAgree host n a (new host 0x80000000 0) := by
    intro i hi hle
    rw [hzero, haddr]
    have hbits : ∀ i < 32, 0 < i → (0#32).getMsbD i = (0x80000000#32).getMsbD i := by decide
    exact hbits i hi (by omega)
  have hfirst := hsame.mp hrest 0 hpos
  rw [hzero, haddr] at hfirst
  exact absurd hfirst (by decide)

theorem prefixLaws_at_24 : Laws .little 24 (new .little 0 80) (new .little 0 80) ∧
    ¬∀ b, Laws .little 24 (new .little 0 80) b := by
  obtain ⟨hiff, hnot⟩ := prefixLaws_iff (by decide : 24 ≤ 32) (new .little 0 80)
  refine ⟨(hiff _).mpr ⟨by decide, by decide, ?_⟩, hnot⟩
  exact iff_of_true (fun _ _ _ => rfl) fun _ _ => rfl

/-- The network address of `192.168.1.7/24` is `0.0.0.7`. -/
theorem networdAddress_keeps_host_bits :
    ¬∀ (host : ByteOrder) (n : Nat) (a b : IPv4Address), n ≤ 32 → Laws host n a b := by
  intro h
  have hnet := (h .little 24 (new .little 0xC0A80107 80) (new .little 0 80) (by decide)).netword
  exact absurd hnet (by decide +kernel)

end IPv4Address

end Captain
