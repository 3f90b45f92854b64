import Captain.Address.IPv6
import Captain.Address.Rfc4291
import Captain.Lines

/-!
# `IPv6Address::insert` (`captain/address.cpp`)

The groups are read as 16-bit numbers of the host. The loop leaves out the first zeros, and writes
the two colons for them before the next group, or at the end.

* `insert_readable`: what is written between the brackets is read as the eight groups, with at most
  one `::`, on a host of either byte order.
-/

namespace Captain.IPv6Address

open Rfc4291

/-- `((uint16_t*)m_addr.sin6_addr.s6_addr)[i]`. -/
def addr (host : ByteOrder) (a : IPv6Address) (i : Nat) : BitVec 16 :=
  .ofNat 16 (host.load
    [a.m_addr.s6_addr (Fin.ofNat 16 (2 * i)), a.m_addr.s6_addr (Fin.ofNat 16 (2 * i + 1))])

/-- A round of the loop: the stream and `used_zeros`. -/
def insertGroup (host : ByteOrder) (addr : Nat → BitVec 16) (acc : List Char × Bool) (i : Nat) :
    List Char × Bool :=
  if addr i = 0 ∧ !acc.2 then acc
  else
    let acc := if i ≠ 0 ∧ addr (i - 1) = 0 ∧ !acc.2 then (acc.1 ++ [':'], true) else acc
    let os := if i ≠ 0 then acc.1 ++ [':'] else acc.1
    (os ++ Nat.toDigits 16 (byteswapOnLittleEndian host (addr i)).toNat, acc.2)

/-- To a stream that writes numbers in decimal. -/
def insert (host : ByteOrder) (a : IPv6Address) : List Char :=
  let (os, used_zeros) := (List.range 8).foldl (insertGroup host (addr host a)) (['['], false)
  let os := if !used_zeros ∧ addr host a 7 = 0 then os ++ [':', ':'] else os
  os ++ ']' :: ':' :: Nat.toDigits 10 (a.getPort host).toNat

/-- Group `i` of the address, with the more significant byte first. -/
def group (a : IPv6Address) (i : Nat) : Nat :=
  256 * (a.m_addr.s6_addr (Fin.ofNat 16 (2 * i))).toNat +
    (a.m_addr.s6_addr (Fin.ofNat 16 (2 * i + 1))).toNat

def groups (a : IPv6Address) : List Nat := (List.range 8).map a.group

/-! ## The groups that the host reads -/

variable {host : ByteOrder} {a b : IPv6Address}

theorem group_lt (a : IPv6Address) (i : Nat) : a.group i < 65536 := by
  have hhigh := (a.m_addr.s6_addr (Fin.ofNat 16 (2 * i))).toNat_lt
  have hlow := (a.m_addr.s6_addr (Fin.ofNat 16 (2 * i + 1))).toNat_lt
  unfold group
  omega

theorem load_big (x y : UInt8) : ByteOrder.big.load [x, y] = 256 * x.toNat + y.toNat := by
  show 256 * (256 * 0 + x.toNat) + y.toNat = _
  omega

/-- The host swaps what it reads from two bytes unless it reads the first one as the higher. -/
theorem byteswap_load (host : ByteOrder) (x y : UInt8) :
    (byteswapOnLittleEndian host (BitVec.ofNat 16 (host.load [x, y]))).toNat =
      256 * x.toNat + y.toNat := by
  have hx := x.toNat_lt
  have hy := y.toNat_lt
  have hload : host.load [x, y] < 2 ^ 16 := by
    have h := ByteOrder.load_lt host [x, y]
    simpa using h
  cases host with
  | little =>
    have hswap : ByteOrder.swap 2 (ByteOrder.little.load [x, y]) = _ :=
      @ByteOrder.swap_load .little .big (by decide) [x, y]
    unfold byteswapOnLittleEndian
    rw [BitVec.toNat_ofNat, BitVec.toNat_ofNat, Nat.mod_eq_of_lt hload]
    show ByteOrder.swap 2 (ByteOrder.little.load [x, y]) % 2 ^ 16 = _
    rw [hswap, load_big, Nat.mod_eq_of_lt (by omega)]
  | big =>
    unfold byteswapOnLittleEndian
    rw [BitVec.toNat_ofNat, Nat.mod_eq_of_lt hload, load_big]

theorem byteswap_addr (host : ByteOrder) (a : IPv6Address) (i : Nat) :
    (byteswapOnLittleEndian host (addr host a i)).toNat = a.group i :=
  byteswap_load host _ _

theorem addr_eq_zero_iff (host : ByteOrder) (a : IPv6Address) (i : Nat) :
    addr host a i = 0 ↔ a.group i = 0 := by
  have hzero : byteswapOnLittleEndian host (0 : BitVec 16) = 0 := by cases host <;> decide
  rw [← byteswap_addr host a i]
  constructor
  · intro h
    rw [h, hzero]
    rfl
  · intro h
    have hswap : byteswapOnLittleEndian host (addr host a i) = 0 := BitVec.eq_of_toNat_eq h
    have hback := @byteswap_byteswap host 16 (by decide) (addr host a i)
    rw [← hback, hswap, hzero]

/-! ## One round of the loop -/

section

variable {addr : Nat → BitVec 16} {os : List Char} {i : Nat}

theorem insertGroup_zero (h : addr i = 0) :
    insertGroup host addr (os, false) i = (os, false) := by
  simp [insertGroup, h]

/-- The first group, and one behind a group that is not zero. -/
theorem insertGroup_plain (h : addr i ≠ 0) (hprev : i ≠ 0 → addr (i - 1) ≠ 0) :
    insertGroup host addr (os, false) i =
      (os ++ (if i ≠ 0 then [':'] else []) ++
        Nat.toDigits 16 (byteswapOnLittleEndian host (addr i)).toNat, false) := by
  have hcolon : ¬(i ≠ 0 ∧ addr (i - 1) = 0 ∧ (!(os, false).2) = true) :=
    fun hc => hprev hc.1 hc.2.1
  unfold insertGroup
  rw [if_neg fun hzero => h hzero.1, if_neg hcolon]
  split <;> simp

theorem insertGroup_zeros (h : addr i ≠ 0) (hi : i ≠ 0) (hprev : addr (i - 1) = 0) :
    insertGroup host addr (os, false) i =
      (os ++ ':' :: ':' :: Nat.toDigits 16 (byteswapOnLittleEndian host (addr i)).toNat, true) := by
  unfold insertGroup
  rw [if_neg fun hzero => h hzero.1, if_pos ⟨hi, hprev, rfl⟩]
  simp [hi]

theorem insertGroup_used (hi : i ≠ 0) :
    insertGroup host addr (os, true) i =
      (os ++ ':' :: Nat.toDigits 16 (byteswapOnLittleEndian host (addr i)).toNat, true) := by
  simp [insertGroup, hi]

end

/-! ## The loop -/

/-- What has been written for the first `n` groups `g`: without a zero, with zeros at the end, and
with something behind the first zeros. -/
inductive Written (g : Nat → Nat) (n : Nat) : List Char × Bool → Prop
  | plain {l : List Nat} (heq : (List.range n).map g = l) (hl : 0 ∉ l) :
      Written g n ('[' :: join l, false)
  | zeros {l : List Nat} {k : Nat} (heq : (List.range n).map g = l ++ List.replicate (k + 1) 0) :
      Written g n ('[' :: join l, false)
  | compressed {l r : List Nat} {k : Nat}
      (heq : (List.range n).map g = l ++ List.replicate (k + 1) 0 ++ r) (hr : r ≠ []) :
      Written g n ('[' :: join l ++ ':' :: ':' :: join r, true)

theorem map_range_succ (g : Nat → Nat) (n : Nat) :
    (List.range (n + 1)).map g = (List.range n).map g ++ [g n] := by
  rw [List.range_succ, List.map_append, List.map_singleton]

/-- The last of the first `n` values. -/
theorem last_of_map_range {g : Nat → Nat} {n v : Nat} {l : List Nat}
    (h : (List.range n).map g = l ++ [v]) : n ≠ 0 ∧ g (n - 1) = v := by
  cases n with
  | zero => exact absurd h.symm (List.append_ne_nil_of_right_ne_nil _ (List.cons_ne_nil _ _))
  | succ n =>
    rw [map_range_succ] at h
    exact ⟨Nat.succ_ne_zero n, (List.append_inj' h rfl).2 |> List.cons.inj |>.1⟩

/-- A group that is not zero, before any zeros. -/
theorem written_plain {l : List Nat} {n : Nat} (heq : (List.range n).map a.group = l) (hl : 0 ∉ l)
    (hne : a.group n ≠ 0) : Written a.group (n + 1)
      (insertGroup host (addr host a) ('[' :: join l, false) n) := by
  have hprev : n ≠ 0 → addr host a (n - 1) ≠ 0 := by
    intro hn hprev
    refine hl (heq ▸ List.mem_map.mpr ⟨n - 1, List.mem_range.mpr (by omega), ?_⟩)
    exact (addr_eq_zero_iff host a (n - 1)).mp hprev
  have hjoin : '[' :: join l ++ (if n ≠ 0 then [':'] else []) ++ Nat.toDigits 16 (a.group n) =
      '[' :: join (l ++ [a.group n]) := by
    by_cases hn : n = 0
    · have hnil : l = [] := by rw [← heq, hn]; rfl
      rw [hnil, if_neg (not_not.mpr hn), List.nil_append, join_singleton]
      rfl
    · have hlne : l ≠ [] := by
        rintro rfl
        exact hn (List.range_eq_nil.mp (List.map_eq_nil_iff.mp heq))
      rw [if_pos hn, join_concat hlne]
      simp
  rw [insertGroup_plain (mt (addr_eq_zero_iff host a n).mp hne) hprev, byteswap_addr, hjoin]
  refine .plain (by rw [map_range_succ, heq]) ?_
  rw [List.mem_append, List.mem_singleton]
  exact fun hmem => hmem.elim hl fun h0 => hne h0.symm

theorem Written.round {acc : List Char × Bool} {n : Nat} (h : Written a.group n acc) :
    Written a.group (n + 1) (insertGroup host (addr host a) acc n) := by
  cases h with
  | @plain l heq hl =>
    by_cases hzero : a.group n = 0
    · rw [insertGroup_zero ((addr_eq_zero_iff host a n).mpr hzero)]
      refine .zeros (k := 0) ?_
      rw [map_range_succ, heq, hzero]
      rfl
    · exact written_plain heq hl hzero
  | @zeros l k heq =>
    by_cases hzero : a.group n = 0
    · rw [insertGroup_zero ((addr_eq_zero_iff host a n).mpr hzero)]
      refine .zeros (k := k + 1) ?_
      rw [map_range_succ, heq, hzero, List.append_assoc, ← List.replicate_succ']
    · rw [List.replicate_succ', ← List.append_assoc] at heq
      obtain ⟨hn, hlast⟩ := last_of_map_range heq
      rw [insertGroup_zeros (mt (addr_eq_zero_iff host a n).mp hzero) hn
        ((addr_eq_zero_iff host a (n - 1)).mpr hlast), byteswap_addr, ← join_singleton]
      refine .compressed (k := k) ?_ (List.cons_ne_nil _ _)
      rw [map_range_succ, heq, List.append_assoc l, ← List.replicate_succ']
  | @compressed l r k heq hr =>
    have hn : n ≠ 0 := by
      rintro rfl
      exact hr (List.append_eq_nil_iff.mp heq.symm).2
    have hjoin : '[' :: join l ++ ':' :: ':' :: join r ++ ':' :: Nat.toDigits 16 (a.group n) =
        '[' :: join l ++ ':' :: ':' :: join (r ++ [a.group n]) := by
      rw [join_concat hr]
      simp
    rw [insertGroup_used hn, byteswap_addr, hjoin]
    refine .compressed (k := k) ?_ (List.append_ne_nil_of_right_ne_nil _ (List.cons_ne_nil _ _))
    rw [map_range_succ, heq, List.append_assoc _ r]

theorem written_foldl (host : ByteOrder) (a : IPv6Address) (n : Nat) :
    Written a.group n ((List.range n).foldl (insertGroup host (addr host a)) (['['], false)) := by
  induction n with
  | zero => exact .plain (l := []) rfl List.not_mem_nil
  | succ n ih =>
    rw [List.range_succ, List.foldl_append]
    exact ih.round

/-! ## The text -/

/-- The text of the address: its groups, or those around its first zeros. -/
def Shows (a : IPv6Address) (t : List Char) : Prop :=
  t = join a.groups ∨
    ∃ l k r, t = join l ++ ':' :: ':' :: join r ∧ a.groups = l ++ List.replicate (k + 1) 0 ++ r

theorem insert_shows (host : ByteOrder) (a : IPv6Address) : ∃ t, a.Shows t ∧
    insert host a = '[' :: t ++ ']' :: ':' :: Nat.toDigits 10 (a.getPort host).toNat := by
  have h := written_foldl host a 8
  unfold insert
  generalize (List.range 8).foldl (insertGroup host (addr host a)) (['['], false) = acc at h ⊢
  cases h with
  | @plain l heq hl =>
    have hlast : addr host a 7 ≠ 0#16 := by
      intro hzero
      refine hl (heq ▸ List.mem_map.mpr ⟨7, by decide, ?_⟩)
      exact (addr_eq_zero_iff host a 7).mp hzero
    refine ⟨join l, .inl (congrArg join heq.symm), ?_⟩
    simp [hlast]
  | @zeros l k heq =>
    have hlast : addr host a 7 = 0 := by
      have heq' := heq
      rw [List.replicate_succ', ← List.append_assoc] at heq'
      exact (addr_eq_zero_iff host a 7).mpr (last_of_map_range heq').2
    refine ⟨join l ++ [':', ':'], .inr ⟨l, k, [], rfl, heq.trans (List.append_nil _).symm⟩, ?_⟩
    simp [hlast]
  | @compressed l r k heq hr =>
    refine ⟨join l ++ ':' :: ':' :: join r, .inr ⟨l, k, r, rfl, heq⟩, ?_⟩
    simp

theorem length_groups (a : IPv6Address) : a.groups.length = 8 := by
  unfold groups
  rw [List.length_map, List.length_range]

theorem groups_lt {v : Nat} (h : v ∈ a.groups) : v < 65536 := by
  obtain ⟨i, -, rfl⟩ := List.mem_map.mp h
  exact group_lt a i

theorem Shows.parse {t : List Char} (h : a.Shows t) : Rfc4291.parse t = some a.groups := by
  rcases h with rfl | ⟨l, k, r, rfl, heq⟩
  · exact parse_join a.length_groups fun v hv => groups_lt hv
  · have hlen := a.length_groups
    rw [heq, List.length_append, List.length_append, List.length_replicate] at hlen
    have hk : 8 - (l.length + r.length) = k + 1 := by omega
    have hl : ∀ v ∈ l, v < 65536 := fun v hv => groups_lt (a := a) (by rw [heq]; simp [hv])
    have hr : ∀ v ∈ r, v < 65536 := fun v hv => groups_lt (a := a) (by rw [heq]; simp [hv])
    rw [parse_compressed (by omega) hl hr, hk, heq]

/-- `::` is there at most once. -/
theorem Shows.double_unique {t x y z w : List Char} (h : a.Shows t)
    (hxy : t = x ++ ':' :: ':' :: y) (hzw : t = z ++ ':' :: ':' :: w) : x = z := by
  rcases h with rfl | ⟨l, k, r, rfl, -⟩
  · refine absurd ?_ (no_double_left a.groups)
    exact ⟨x, y ++ [':'], by rw [hxy]; simp⟩
  · rw [Rfc4291.double_unique hxy, Rfc4291.double_unique hzw]

theorem not_mem_join {vs : List Nat} {c : Char} (hcolon : c ≠ ':') (hdigit : hexDigit c = none) :
    c ∉ join vs := by
  induction vs with
  | nil => exact List.not_mem_nil
  | cons v vs ih =>
    by_cases hvs : vs = []
    · rw [hvs, join_singleton]
      exact not_mem_toDigits hdigit
    · rw [join_cons hvs, List.mem_append, List.mem_cons]
      rintro (hc | hc | hc)
      · exact not_mem_toDigits hdigit hc
      · exact hcolon hc
      · exact ih hc

/-- The text ends at the first bracket. -/
theorem Shows.bracket {t : List Char} (h : a.Shows t) : ']' ∉ t := by
  have hjoin : ∀ vs, ']' ∉ join vs := fun vs => not_mem_join (by decide) (by decide)
  rcases h with rfl | ⟨l, k, r, rfl, -⟩
  · exact hjoin _
  · simp [hjoin]

/-- The groups have all the bytes. -/
theorem s6_addr_of_groups (h : a.groups = b.groups) : a.m_addr.s6_addr = b.m_addr.s6_addr := by
  have hgroup : ∀ i < 8, a.group i = b.group i := fun i hi =>
    List.map_inj_left.mp h i (List.mem_range.mpr hi)
  funext k
  have hk := hgroup (k / 2) (by omega)
  have ha := (a.m_addr.s6_addr (Fin.ofNat 16 (2 * (k.val / 2) + 1))).toNat_lt
  have hb := (b.m_addr.s6_addr (Fin.ofNat 16 (2 * (k.val / 2) + 1))).toNat_lt
  unfold group at hk
  apply UInt8.toNat_inj.mp
  rcases Nat.mod_two_eq_zero_or_one k with hmod | hmod
  · have hplace : Fin.ofNat 16 (2 * (k.val / 2)) = k :=
      Fin.ext (by show 2 * (k.val / 2) % 16 = k; omega)
    rw [hplace] at hk
    omega
  · have hplace : Fin.ofNat 16 (2 * (k.val / 2) + 1) = k :=
      Fin.ext (by show (2 * (k.val / 2) + 1) % 16 = k; omega)
    rw [hplace] at hk ha hb
    omega

/-- What is printed is `[T]:port` with a text `T` that is read as the eight groups of the address
and has at most one `::`; no other address and port is printed so. -/
theorem insert_readable (host : ByteOrder) (a : IPv6Address) :
    (∃ t, insert host a = '[' :: t ++ ']' :: ':' :: Nat.toDigits 10 (a.getPort host).toNat ∧
      parse t = some a.groups ∧
      ∀ x y z w, t = x ++ ':' :: ':' :: y → t = z ++ ':' :: ':' :: w → x = z) ∧
    ∀ b, insert host b = insert host a →
      b.m_addr.s6_addr = a.m_addr.s6_addr ∧ b.getPort host = a.getPort host := by
  obtain ⟨t, ht, heq⟩ := insert_shows host a
  refine ⟨⟨t, heq, ht.parse, fun x y z w => ht.double_unique⟩, fun b hb => ?_⟩
  obtain ⟨u, hu, hequ⟩ := insert_shows host b
  obtain ⟨rfl, hport⟩ := Lines.first_unique hu.bracket ht.bracket
    (List.cons.inj (hequ.symm.trans (hb.trans heq))).2
  have hgroups : b.groups = a.groups := Option.some.inj (hu.parse.symm.trans ht.parse)
  have hdigits := congrArg (fun l => Nat.ofDigitChars 10 l 0) (List.cons.inj hport).2
  simp only [Nat.ofDigitChars_ten_toDigits] at hdigits
  exact ⟨s6_addr_of_groups hgroups, BitVec.eq_of_toNat_eq hdigits⟩

end Captain.IPv6Address
