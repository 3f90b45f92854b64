import Captain.Lines
import Mathlib.Data.List.Count
import Mathlib.Tactic.Tauto

/-!
# The host string of `Address::Lookup` (`captain/address.cpp`)

A pointer into the host string is an index; the byte behind the string is zero. What is passed to
`getaddrinfo` is the node and, unless the pointer is null, the text from `service` on.

* `split_iff`: for which host strings the node and the service are as they should be. A bare IPv6
  address is passed with a service, the text from its first colon on.
-/

namespace Captain.Lookup

/-- `memchr` from `start` to the end of the string. -/
def memchr (host : List UInt8) (start : Nat) (c : UInt8) : Option Nat :=
  ((host.drop start).findIdx? (· == c)).map (start + ·)

/-- `node` and `service`. -/
abbrev Found := List UInt8 × Option Nat

/-- The check for `[node]:service`. -/
def bracketed (host : List UInt8) : Found :=
  if host.head? = some 91 then
    match memchr host 1 93 with
    | some endipv6 =>
      ((host.drop 1).take (endipv6 - 1),
        if host[endipv6 + 1]? = some 58 then some (endipv6 + 2) else none)
    | none => ([], none)
  else ([], none)

/-- The check for `node:service`. -/
def colon (host : List UInt8) (found : Found) : Found :=
  if found.1.isEmpty then
    match memchr host 0 58 with
    | some service =>
      if (memchr host (service + 1) 58).isNone then (host.take service, some (service + 1))
      else (found.1, some service)
    | none => (found.1, none)
  else found

/-- What `Lookup` passes to `getaddrinfo`. -/
def split (host : List UInt8) : List UInt8 × Option (List UInt8) :=
  let (node, service) := colon host (bracketed host)
  (if node.isEmpty then host else node, service.map fun p => host.drop p)

/-! ## What should be passed -/

/-- The host string begins with the node in brackets. -/
def Brackets (host node rest : List UInt8) : Prop :=
  host = 91 :: node ++ 93 :: rest ∧ 93 ∉ node ∧ node ≠ []

/-- The host string is `[node]` or `[node]:service`. -/
def Literal (host : List UInt8) : Prop :=
  ∃ node rest, Brackets host node rest ∧ (rest = [] ∨ rest.head? = some 58)

/-- The forms of a host string, those with brackets first. -/
structure Expected (host : List UInt8) (passed : List UInt8 × Option (List UInt8)) : Prop where
  literal_service : ∀ {node service}, Brackets host node (58 :: service) →
    passed = (node, some service)
  literal : ∀ {node}, Brackets host node [] → passed = (node, none)
  service : ∀ {node service}, ¬Literal host → host = node ++ 58 :: service → 58 ∉ node →
    58 ∉ service → node ≠ [] → passed = (node, some service)
  no_colon : ¬Literal host → 58 ∉ host → passed = (host, none)
  bare : 2 ≤ host.count 58 → 91 ∉ host → 93 ∉ host → passed = (host, none)
  only_present : ¬Literal host → passed.2.isSome → host.count 58 = 1

/-! ## The search -/

theorem findIdx?_of_not_mem {l : List UInt8} {c : UInt8} (h : c ∉ l) :
    l.findIdx? (· == c) = none := by
  refine List.findIdx?_eq_none_iff.mpr fun b hb => ?_
  rw [beq_eq_false_iff_ne]
  intro heq
  exact h (heq ▸ hb)

theorem memchr_append {p l r : List UInt8} {c : UInt8} (h : c ∉ l) :
    memchr (p ++ (l ++ c :: r)) p.length c = some (p.length + l.length) := by
  unfold memchr
  rw [List.drop_left, List.findIdx?_append, findIdx?_of_not_mem h, List.findIdx?_cons]
  simp

theorem memchr_none {p l : List UInt8} {c : UInt8} (h : c ∉ l) :
    memchr (p ++ l) p.length c = none := by
  unfold memchr
  rw [List.drop_left, findIdx?_of_not_mem h]
  rfl

/-! ## What is passed -/

variable {host node rest service : List UInt8}

theorem bracketed_of_brackets (h : Brackets host node rest) :
    bracketed host =
      (node, if rest.head? = some 58 then some (node.length + 3) else none) := by
  obtain ⟨rfl, hend, -⟩ := h
  have hmem : memchr (91 :: node ++ 93 :: rest) 1 93 = some (1 + node.length) :=
    memchr_append (p := [91]) hend
  have hnext : (91 :: node ++ 93 :: rest)[1 + node.length + 1]? = rest.head? := by
    have hlength : (91 :: node ++ [93]).length = 1 + node.length + 1 := by
      simp only [List.length_append, List.length_cons, List.length_nil]
      omega
    rw [← List.singleton_append (l := rest), ← List.append_assoc, ← hlength,
      List.getElem?_append_right (Nat.le_refl _), Nat.sub_self, List.head?_eq_getElem?]
  have hnode : ((91 :: node ++ 93 :: rest).drop 1).take (1 + node.length - 1) = node := by
    simp
  have hplace : 1 + node.length + 2 = node.length + 3 := by omega
  unfold bracketed
  rw [hmem]
  simp only [List.cons_append, List.head?_cons, if_true] at hnext hnode ⊢
  simp only [hnext, hnode, hplace]

theorem bracketed_of_not_brackets (h : ¬∃ node rest, Brackets host node rest) :
    (bracketed host).1 = [] := by
  unfold bracketed
  split
  · rename_i hhead
    obtain ⟨tail, rfl⟩ : ∃ tail, host = 91 :: tail := by
      cases host with
      | nil => cases hhead
      | cons b tail => exact ⟨tail, by rw [Option.some.inj hhead]⟩
    by_cases hend : 93 ∈ tail
    · obtain ⟨node, rest, rfl, hnode⟩ := List.eq_append_cons_of_mem hend
      have hmem : memchr (91 :: (node ++ 93 :: rest)) 1 93 = some (1 + node.length) :=
        memchr_append (p := [91]) hnode
      have hempty : node = [] := by
        by_contra hne
        exact h ⟨node, rest, rfl, hnode, hne⟩
      rw [hmem, hempty]
      rfl
    · have hmem : memchr (91 :: tail) 1 93 = none := memchr_none (p := [91]) hend
      rw [hmem]
  · rfl

/-- A node in brackets is passed with the service behind the colon that follows. -/
theorem split_of_brackets (h : Brackets host node rest) :
    split host = (node, if rest.head? = some 58 then some rest.tail else none) := by
  have hne : node.isEmpty = false := List.isEmpty_eq_false_iff.mpr h.2.2
  unfold split
  rw [bracketed_of_brackets h]
  unfold colon
  simp only [hne, Bool.false_eq_true, if_false, Prod.mk.injEq, true_and]
  split
  · rename_i hcolon
    have hdrop : host.drop (node.length + 3) = rest.tail := by
      obtain ⟨rfl, -, -⟩ := h
      cases rest with
      | nil => cases hcolon
      | cons b rest => simp
    rw [Option.map_some, hdrop]
  · rfl

section

variable (h : ¬∃ node rest, Brackets host node rest)
include h

theorem split_of_no_colon (hcolon : 58 ∉ host) : split host = (host, none) := by
  have hmem : memchr host 0 58 = none := memchr_none (p := []) hcolon
  unfold split colon
  rw [bracketed_of_not_brackets h, hmem]
  rfl

theorem split_of_one_colon (hhost : host = node ++ 58 :: service) (hnode : 58 ∉ node)
    (hservice : 58 ∉ service) :
    split host = (if node = [] then host else node, some service) := by
  subst hhost
  have hfirst : memchr (node ++ 58 :: service) 0 58 = some (0 + node.length) :=
    memchr_append (p := []) hnode
  have hsecond : memchr (node ++ 58 :: service) (node.length + 1) 58 = none := by
    have h := memchr_none (p := node ++ [58]) hservice
    rwa [List.append_assoc, List.singleton_append, List.length_append] at h
  have hdrop : (node ++ 58 :: service).drop (node.length + 1) = service := by simp
  unfold split colon
  rw [bracketed_of_not_brackets h, hfirst, Nat.zero_add]
  simp only [List.isEmpty_nil, if_true, hsecond, Option.isNone_none, List.take_left,
    Option.map_some, hdrop, List.isEmpty_iff]

theorem split_of_colons (hhost : host = node ++ 58 :: service) (hnode : 58 ∉ node)
    (hservice : 58 ∈ service) : split host = (host, some (58 :: service)) := by
  subst hhost
  have hfirst : memchr (node ++ 58 :: service) 0 58 = some (0 + node.length) :=
    memchr_append (p := []) hnode
  have hsecond : (memchr (node ++ 58 :: service) (node.length + 1) 58).isNone = false := by
    obtain ⟨pre, rest, rfl, hpre⟩ := List.eq_append_cons_of_mem hservice
    have h := memchr_append (p := node ++ [58]) (r := rest) hpre
    rw [List.append_assoc, List.singleton_append, List.length_append, List.length_singleton] at h
    rw [h]
    rfl
  unfold split colon
  rw [bracketed_of_not_brackets h, hfirst, Nat.zero_add]
  simp only [List.isEmpty_nil, if_true, hsecond, Bool.false_eq_true, if_false, Option.map_some,
    List.drop_left]

end

/-! ## The host strings for which that is right -/

theorem Brackets.unique {node' rest' : List UInt8} (h : Brackets host node rest)
    (h' : Brackets host node' rest') : node = node' ∧ rest = rest' :=
  Lines.first_unique h.2.1 h'.2.1 (List.cons.inj (h.1.symm.trans h'.1)).2

/-- The string begins with a node in brackets that nothing or a colon follows, or that is followed
by something else in a string with two colons; or it does not begin so and has at most one colon.
-/
def Handled (host : List UInt8) : Prop :=
  (∃ node rest, Brackets host node rest ∧
    (rest = [] ∨ rest.head? = some 58 ∨ 2 ≤ host.count 58)) ∨
  (¬∃ node rest, Brackets host node rest) ∧ host.count 58 ≤ 1

theorem not_literal (h : ¬∃ node rest, Brackets host node rest) : ¬Literal host :=
  fun ⟨node, rest, hb, _⟩ => h ⟨node, rest, hb⟩

/-- A string with one colon is split there. -/
theorem exists_split_of_count_one (h : host.count 58 = 1) :
    ∃ node service, host = node ++ 58 :: service ∧ 58 ∉ node ∧ 58 ∉ service := by
  obtain ⟨node, service, rfl, hnode⟩ :=
    List.eq_append_cons_of_mem (List.count_pos_iff.mp (h ▸ Nat.one_pos))
  rw [List.count_append, List.count_cons_self, List.count_eq_zero.mpr hnode] at h
  exact ⟨node, service, rfl, hnode, List.count_eq_zero.mp (by omega)⟩

theorem count_of_split (hnode : 58 ∉ node) (hservice : 58 ∉ service) :
    (node ++ 58 :: service).count 58 = 1 := by
  rw [List.count_append, List.count_cons_self, List.count_eq_zero.mpr hnode,
    List.count_eq_zero.mpr hservice]

theorem expected_of_brackets (h : Brackets host node rest)
    (hrest : rest = [] ∨ rest.head? = some 58 ∨ 2 ≤ host.count 58) :
    Expected host (split host) := by
  have hsplit := split_of_brackets h
  have hliteral : rest ≠ [] → rest.head? ≠ some 58 →
      2 ≤ host.count 58 ∧ (split host).2 = none := fun hnil hcolon =>
    ⟨(hrest.resolve_left hnil).resolve_left hcolon, by rw [hsplit, if_neg hcolon]⟩
  have hother : ¬Literal host → rest ≠ [] ∧ rest.head? ≠ some 58 := fun hnot =>
    ⟨fun hnil => hnot ⟨node, rest, h, .inl hnil⟩, fun hcolon => hnot ⟨node, rest, h, .inr hcolon⟩⟩
  have hopen : 91 ∈ host := h.1 ▸ List.mem_append_left _ List.mem_cons_self
  refine ⟨fun h' => ?_, fun h' => ?_, fun hnot hhost hnode hservice _ => ?_, fun hnot hcolon => ?_,
    fun _ hno _ => absurd hopen hno, fun hnot hsome => ?_⟩
  · obtain ⟨rfl, rfl⟩ := h.unique h'
    exact hsplit
  · obtain ⟨rfl, rfl⟩ := h.unique h'
    exact hsplit
  · have htwo := (hliteral (hother hnot).1 (hother hnot).2).1
    rw [hhost, count_of_split hnode hservice] at htwo
    exact absurd htwo (by decide)
  · have htwo := (hliteral (hother hnot).1 (hother hnot).2).1
    rw [List.count_eq_zero.mpr hcolon] at htwo
    exact absurd htwo (by decide)
  · rw [(hliteral (hother hnot).1 (hother hnot).2).2] at hsome
    cases hsome

theorem expected_of_not_brackets (h : ¬∃ node rest, Brackets host node rest)
    (hcount : host.count 58 ≤ 1) : Expected host (split host) := by
  have hnone : 58 ∉ host → split host = (host, none) := split_of_no_colon h
  refine ⟨fun h' => absurd ⟨_, _, h'⟩ h, fun h' => absurd ⟨_, _, h'⟩ h,
    fun _ hhost hnode hservice hne => ?_, fun _ => hnone, fun htwo => absurd htwo (by omega),
    fun _ hsome => ?_⟩
  · rw [split_of_one_colon h hhost hnode hservice, if_neg hne]
  · by_contra hcolons
    rw [hnone (List.count_eq_zero.mp (by omega))] at hsome
    cases hsome

/-- Where something else follows the brackets the string should be passed whole, or be split at its
colon. -/
theorem handled_of_brackets (hb : Brackets host node rest) (h : Expected host (split host)) :
    rest = [] ∨ rest.head? = some 58 ∨ 2 ≤ host.count 58 := by
  by_contra hno
  obtain ⟨hnil, hcolon, hcount⟩ : rest ≠ [] ∧ rest.head? ≠ some 58 ∧ ¬2 ≤ host.count 58 := by
    tauto
  have hnot : ¬Literal host := by
    rintro ⟨node', rest', hb', hrest'⟩
    obtain ⟨rfl, rfl⟩ := hb.unique hb'
    exact hrest'.elim hnil hcolon
  have hsplit := split_of_brackets hb
  rw [if_neg hcolon] at hsplit
  by_cases hone : host.count 58 = 1
  · obtain ⟨node', service, hhost, hnode', hservice⟩ := exists_split_of_count_one hone
    have hne : node' ≠ [] := by
      rintro rfl
      exact absurd (List.cons.inj (hb.1.symm.trans hhost)).1 (by decide)
    have hexp := h.service hnot hhost hnode' hservice hne
    rw [hsplit] at hexp
    cases hexp
  · have hexp := h.no_colon hnot (List.count_eq_zero.mp (by omega))
    rw [hsplit] at hexp
    have hlen := congrArg List.length ((congrArg Prod.fst hexp).trans hb.1)
    simp at hlen
    omega

/-- Of two colons none begins a service. -/
theorem handled_of_not_brackets (hb : ¬∃ node rest, Brackets host node rest)
    (h : Expected host (split host)) : host.count 58 ≤ 1 := by
  by_contra hcount
  obtain ⟨node, service, hhost, hnode⟩ :=
    List.eq_append_cons_of_mem (List.count_pos_iff.mp (by omega : 0 < host.count 58))
  have hservice : 58 ∈ service := by
    rw [hhost, List.count_append, List.count_cons_self, List.count_eq_zero.mpr hnode] at hcount
    exact List.count_pos_iff.mp (by omega)
  have hsome := h.only_present (not_literal hb)
    (by rw [split_of_colons hb hhost hnode hservice]; rfl)
  omega

/-- The node and the service are as they should be exactly for the strings that `Handled` names. -/
theorem split_iff (host : List UInt8) : Expected host (split host) ↔ Handled host := by
  constructor
  · intro h
    by_cases hb : ∃ node rest, Brackets host node rest
    · obtain ⟨node, rest, hb⟩ := hb
      exact .inl ⟨node, rest, hb, handled_of_brackets hb h⟩
    · exact .inr ⟨hb, handled_of_not_brackets hb h⟩
  · rintro (⟨node, rest, hb, hrest⟩ | ⟨hb, hcount⟩)
    · exact expected_of_brackets hb hrest
    · exact expected_of_not_brackets hb hcount

/-- The bare address `fe80::1` is passed with the service `::1`. -/
theorem bare_address_split : ¬∀ host, Expected host (split host) := by
  intro h
  have hbare := (h [102, 101, 56, 48, 58, 58, 49]).bare (by decide) (by decide) (by decide)
  exact absurd hbare (by decide)

end Captain.Lookup
