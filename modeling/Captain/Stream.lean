import Mathlib.Data.List.Induction
import Mathlib.Data.BitVec

/-!
# `Stream::readFixSize` and `Stream::writeFixSize` (`captain/stream.cpp`)

Both repeat a `read` or a `write` until `length` bytes have been moved, or until one returns nothing
positive. `repeatCalls` is the loop over the `read` or the `write` of any class; `fixSizeLoop` has
what the calls return, and the offset and the size of each transfer.

* `repeatCalls_returns`: what the loop returns is what `fixSizeLoop` makes of the results.
* `fixSize_iff`: for which lengths and results they tell their caller what has happened.
-/

namespace Captain

namespace Stream

section

variable {ρ σ ε : Type}

/-- The loop of `readFixSize` and `writeFixSize`, with a `read` or a `write` of what is left for
each thing the kernel does; `none` while these are not enough. -/
def repeatCalls (call : ρ → Nat → σ → Except ε (Int32 × σ)) (length : UInt64) :
    List ρ → Int → σ → Except ε (Option Int32 × σ)
  | [], left, s => .ok (if left > 0 then none else some length.toUInt32.toInt32, s)
  | r :: rs, left, s =>
    if left > 0 then do
      let (len, s) ← call r left.toNat s
      if len ≤ 0 then .ok (some len, s) else repeatCalls call length rs (left - len.toInt) s
    else .ok (some length.toUInt32.toInt32, s)

end

/-- What a call returns, and what it has moved. -/
structure Moved where
  rt : Int32
  moved : List (Nat × Nat)
  deriving DecidableEq

/-- The loop, with the results of the calls of `read` or `write`; `none` while they are not enough.
`offset` and `left` stay within `size_t` and `int64_t`, as a result is taken while `left` is
positive. -/
def fixSizeLoop (length : UInt64) : List Int32 → Nat → Int → Option Moved
  | [], _, left => if left > 0 then none else some ⟨length.toUInt32.toInt32, []⟩
  | len :: lens, offset, left =>
    if left > 0 then
      if len ≤ 0 then some ⟨len, []⟩
      else (fixSizeLoop length lens (offset + len.toInt.toNat) (left - len.toInt)).map fun r =>
        ⟨r.rt, (offset, len.toInt.toNat) :: r.moved⟩
    else some ⟨length.toUInt32.toInt32, []⟩

/-- `Stream::readFixSize`: `int64_t left = length`. -/
def readFixSize (length : UInt64) (lens : List Int32) : Option Moved :=
  fixSizeLoop length lens 0 length.toInt64.toInt

/-- `Stream::writeFixSize`. -/
def writeFixSize (length : UInt64) (lens : List Int32) : Option Moved :=
  fixSizeLoop length lens 0 length.toInt64.toInt

/-- The number of bytes of the results. -/
def total (lens : List Int32) : Nat := (lens.map fun len => len.toInt.toNat).sum

/-- The results, at consecutive offsets. -/
def chunks : Nat → List Int32 → List (Nat × Nat)
  | _, [] => []
  | offset, len :: lens => (offset, len.toInt.toNat) :: chunks (offset + len.toInt.toNat) lens

def Positive (lens : List Int32) : Prop := ∀ len ∈ lens, 0 < len

instance (lens : List Int32) : Decidable (Positive lens) :=
  List.decidableBAll (fun len => 0 < len) lens

/-- A positive result is at most the remaining length. -/
def Fits (length : UInt64) (lens : List Int32) : Prop :=
  ∀ got len rest, lens = got ++ len :: rest → Positive got → total got < length.toNat →
    total got + len.toInt.toNat ≤ length.toNat

/-- A positive value when all bytes were moved; else the first result that is not positive, with the
bytes of the results before it moved. -/
structure Told (f : UInt64 → List Int32 → Option Moved) (length : UInt64) (lens : List Int32) :
    Prop where
  complete : ∀ got rest, lens = got ++ rest → Positive got → total got = length.toNat →
    ∃ rt, f length lens = some ⟨rt, chunks 0 got⟩ ∧ 0 < rt
  failed : ∀ got len rest, lens = got ++ len :: rest → Positive got → total got < length.toNat →
    len ≤ 0 → f length lens = some ⟨len, chunks 0 got⟩
  waiting : Positive lens → total lens < length.toNat → f length lens = none

/-- The length, as an `int`, is positive if all bytes come; or it is one that `int64_t` makes
negative, and the first result is what the length is as an `int`. -/
def Ok (length : UInt64) (lens : List Int32) : Prop :=
  if length.toNat < 2 ^ 63 then
    (∃ got rest, lens = got ++ rest ∧ Positive got ∧ total got = length.toNat) →
      0 < length.toNat % 2 ^ 32 ∧ length.toNat % 2 ^ 32 < 2 ^ 31
  else lens.head? = some length.toUInt32.toInt32 ∧ length.toUInt32.toInt32 ≤ 0

variable {length : UInt64} {lens got rest : List Int32} {offset : Nat} {left : Int}

/-- What any loop returns comes of the results of its calls. -/
theorem repeatCalls_returns {ρ σ ε : Type} {call : ρ → Nat → σ → Except ε (Int32 × σ)}
    {rs : List ρ} {s s' : σ} {rt : Option Int32}
    (h : repeatCalls call length rs left s = .ok (rt, s')) (offset : Nat) :
    ∃ lens, (fixSizeLoop length lens offset left).map Moved.rt = rt := by
  induction rs generalizing left s offset with
  | nil =>
    cases h
    refine ⟨[], ?_⟩
    rw [fixSizeLoop]
    split <;> rfl
  | cons r rs ih =>
    rw [repeatCalls] at h
    split at h
    · next hleft =>
      cases hcall : call r left.toNat s with
      | error e =>
        rw [hcall] at h
        cases h
      | ok x =>
        obtain ⟨len, s₁⟩ := x
        rw [hcall] at h
        simp only [bind, Except.bind] at h
        split at h
        · next hlen =>
          cases h
          refine ⟨[len], ?_⟩
          rw [fixSizeLoop, if_pos hleft, if_pos hlen]
          rfl
        · next hlen =>
          obtain ⟨lens, hlens⟩ := ih h (offset + len.toInt.toNat)
          refine ⟨len :: lens, ?_⟩
          rw [fixSizeLoop, if_pos hleft, if_neg hlen, Option.map_map]
          exact hlens
    · next hleft =>
      cases h
      refine ⟨[], ?_⟩
      rw [fixSizeLoop, if_neg hleft]
      rfl

theorem toInt_pos {len : Int32} (h : 0 < len) : 0 < len.toInt := Int32.lt_iff_toInt_lt.mp h

theorem not_pos_of_nonpos {len : Int32} (h : len ≤ 0) : ¬0 < len := fun hpos => by
  have hle : len.toInt ≤ 0 := Int32.le_iff_toInt_le.mp h
  have hlt := toInt_pos hpos
  omega

theorem nonpos_of_not_pos {len : Int32} (h : ¬0 < len) : len ≤ 0 := by
  rw [Int32.lt_iff_toInt_lt] at h
  rw [Int32.le_iff_toInt_le]
  exact Int.not_lt.mp h

theorem toInt_length (length : UInt64) : length.toInt64.toInt =
    if length.toNat < 2 ^ 63 then (length.toNat : Int) else length.toNat - 2 ^ 64 := by
  have hint : length.toInt64.toInt = (length.toNat : Int).bmod (2 ^ 64) :=
    BitVec.toInt_eq_toNat_bmod ..
  have hlt := length.toNat_lt
  rw [hint, Int.bmod_def]
  split <;> split <;> omega

/-- The length as an `int`. -/
theorem toInt32_length_pos (length : UInt64) : 0 < length.toUInt32.toInt32 ↔
    0 < length.toNat % 2 ^ 32 ∧ length.toNat % 2 ^ 32 < 2 ^ 31 := by
  have hint : length.toUInt32.toInt32.toInt = (length.toUInt32.toNat : Int).bmod (2 ^ 32) :=
    BitVec.toInt_eq_toNat_bmod ..
  have hzero : (0 : Int32).toInt = 0 := rfl
  rw [Int32.lt_iff_toInt_lt, hzero, hint, UInt64.toNat_toUInt32, Int.bmod_def]
  split <;> omega

theorem total_cons (len : Int32) (lens : List Int32) :
    total (len :: lens) = len.toInt.toNat + total lens := rfl

theorem Positive.tail {len : Int32} (h : Positive (len :: lens)) : Positive lens :=
  fun x hx => h x (List.mem_cons_of_mem len hx)

/-- A list of results is positive, or has a first result that is not. -/
theorem positive_or (lens : List Int32) : Positive lens ∨
    ∃ got len rest, lens = got ++ len :: rest ∧ Positive got ∧ len ≤ 0 := by
  induction lens with
  | nil => exact .inl fun _ hx => by cases hx
  | cons len lens ih =>
    by_cases hlen : 0 < len
    · rcases ih with hpos | ⟨got, len', rest, rfl, hgot, hle⟩
      · exact .inl (List.forall_mem_cons.mpr ⟨hlen, hpos⟩)
      · exact .inr ⟨len :: got, len', rest, rfl, List.forall_mem_cons.mpr ⟨hlen, hgot⟩, hle⟩
    · exact .inr ⟨[], len, lens, rfl, (fun _ hx => by cases hx), nonpos_of_not_pos hlen⟩

/-! ## The loop -/

theorem fixSizeLoop_done (hleft : ¬left > 0) (lens : List Int32) :
    fixSizeLoop length lens offset left = some ⟨length.toUInt32.toInt32, []⟩ := by
  cases lens <;> rw [fixSizeLoop, if_neg hleft]

theorem fixSizeLoop_failed {len : Int32} (hleft : left > 0) (hlen : len ≤ 0)
    (rest : List Int32) : fixSizeLoop length (len :: rest) offset left = some ⟨len, []⟩ := by
  rw [fixSizeLoop, if_pos hleft, if_pos hlen]

/-- **Loop lemma.** The rounds over positive results that fit into what is left. -/
theorem fixSizeLoop_append (h : Positive got) (hle : (total got : Int) ≤ left)
    (rest : List Int32) : fixSizeLoop length (got ++ rest) offset left =
      (fixSizeLoop length rest (offset + total got) (left - total got)).map fun r =>
        ⟨r.rt, chunks offset got ++ r.moved⟩ := by
  induction got generalizing offset left with
  | nil =>
    have hzero : left - (total [] : Nat) = left := Int.sub_zero left
    rw [hzero]
    exact (Option.map_id' ..).symm
  | cons len got ih =>
    have hlen := h len List.mem_cons_self
    have hpos := toInt_pos hlen
    rw [total_cons] at hle ⊢
    have hgo : ¬len ≤ 0 := fun hle => not_pos_of_nonpos hle hlen
    rw [List.cons_append, fixSizeLoop, if_pos (by omega), if_neg hgo,
      ih h.tail (by omega), Option.map_map]
    have hoffset : offset + len.toInt.toNat + total got = offset + (len.toInt.toNat + total got) :=
      Nat.add_assoc ..
    have hleft : left - len.toInt - total got = left - (len.toInt.toNat + total got : Nat) := by
      omega
    rw [hoffset, hleft]
    rfl

/-- Results that fit and come to the length do so at some point exactly. -/
theorem Fits.exists_complete (h : Fits length lens) (heq : lens = got ++ rest)
    (hgot : Positive got) (hle : length.toNat ≤ total got) :
    ∃ got rest, lens = got ++ rest ∧ Positive got ∧ total got = length.toNat := by
  induction got using List.reverseRecOn generalizing rest with
  | nil => exact ⟨[], rest, heq, hgot, Nat.le_antisymm (Nat.zero_le _) hle⟩
  | append_singleton got len ih =>
    have hgot' : Positive got := fun x hx => hgot x (List.mem_append_left _ hx)
    rw [List.append_assoc, List.singleton_append] at heq
    by_cases hlt : total got < length.toNat
    · have hfit := h got len rest heq hgot' hlt
      have htotal : total (got ++ [len]) = total got + len.toInt.toNat := by
        simp [total]
      refine ⟨got ++ [len], rest, by rw [heq, List.append_assoc]; rfl, hgot, ?_⟩
      omega
    · exact ih heq hgot' (Nat.le_of_not_lt hlt)

/-! ## What the caller is told -/

/-- A length that `int64_t` holds. -/
theorem told_of_lt (hlt : length.toNat < 2 ^ 63) (lens : List Int32) :
    Told readFixSize length lens ↔ Ok length lens := by
  have hleft : length.toInt64.toInt = length.toNat := by rw [toInt_length, if_pos hlt]
  have hcomplete : ∀ got rest, lens = got ++ rest → Positive got → total got = length.toNat →
      readFixSize length lens = some ⟨length.toUInt32.toInt32, chunks 0 got⟩ := by
    rintro got rest rfl hgot htotal
    rw [readFixSize, fixSizeLoop_append hgot (by omega), fixSizeLoop_done (by omega)]
    simp
  rw [Ok, if_pos hlt, ← toInt32_length_pos]
  constructor
  · rintro htold ⟨got, rest, heq, hgot, htotal⟩
    obtain ⟨rt, hrt, hpos⟩ := htold.complete got rest heq hgot htotal
    rw [hcomplete got rest heq hgot htotal] at hrt
    cases hrt
    exact hpos
  · intro hok
    refine ⟨fun got rest heq hgot htotal => ?_, ?_, fun hpos htotal => ?_⟩
    · exact ⟨_, hcomplete got rest heq hgot htotal, hok ⟨got, rest, heq, hgot, htotal⟩⟩
    · rintro got len rest rfl hgot htotal hlen
      rw [readFixSize, fixSizeLoop_append hgot (by omega), fixSizeLoop_failed (by omega) hlen]
      simp
    · have hall : fixSizeLoop length (lens ++ []) 0 length.toInt64.toInt = _ :=
        fixSizeLoop_append hpos (by omega) []
      rw [List.append_nil, fixSizeLoop, if_pos (by omega)] at hall
      exact hall

theorem eq_nil_of_chunks (h : chunks offset got = []) : got = [] := by
  cases got with
  | nil => rfl
  | cons len got => cases h

/-- A call that moves nothing tells so only if the first result is what it returns. -/
theorem Told.head_eq {f : UInt64 → List Int32 → Option Moved} {rt : Int32}
    (h : Told f length lens) (hrt : f length lens = some ⟨rt, []⟩) (hpos : 0 < length.toNat)
    (hfits : Fits length lens) : lens.head? = some rt ∧ rt ≤ 0 := by
  have hno : ∀ got rest, lens = got ++ rest → Positive got → total got < length.toNat := by
    intro got rest heq hgot
    by_contra hge
    obtain ⟨got', rest', heq', hgot', htotal⟩ :=
      hfits.exists_complete heq hgot (Nat.le_of_not_lt hge)
    obtain ⟨rt', hsome, -⟩ := h.complete got' rest' heq' hgot' htotal
    rw [hrt] at hsome
    have hnil := eq_nil_of_chunks (congrArg Moved.moved (Option.some.inj hsome)).symm
    rw [hnil] at htotal
    exact Nat.ne_of_lt hpos htotal
  rcases positive_or lens with hall | ⟨got, len, rest, heq, hgot, hlen⟩
  · have hnone := h.waiting hall (hno lens [] (List.append_nil _).symm hall)
    rw [hrt] at hnone
    cases hnone
  · have hsome := h.failed got len rest heq hgot (hno got _ heq hgot) hlen
    rw [hrt] at hsome
    have hnil := eq_nil_of_chunks (congrArg Moved.moved (Option.some.inj hsome)).symm
    have hlen' : rt = len := congrArg Moved.rt (Option.some.inj hsome)
    rw [heq, hnil, hlen']
    exact ⟨rfl, hlen⟩

theorem told_of_head {f : UInt64 → List Int32 → Option Moved} {rt : Int32}
    (hrt : f length (rt :: rest) = some ⟨rt, []⟩) (hneg : rt ≤ 0) (hpos : 0 < length.toNat) :
    Told f length (rt :: rest) := by
  have hfirst : ∀ got rest', rt :: rest = got ++ rest' → Positive got → got = [] := by
    intro got rest' heq hgot
    cases got with
    | nil => rfl
    | cons len got =>
      rw [List.cons_append] at heq
      have hlen := hgot len List.mem_cons_self
      rw [← (List.cons.inj heq).1] at hlen
      exact absurd hlen (not_pos_of_nonpos hneg)
  refine ⟨fun got rest' heq hgot htotal => ?_, fun got len rest' heq hgot _ _ => ?_,
    fun hall => ?_⟩
  · rw [hfirst got rest' heq hgot] at htotal
    exact absurd htotal (Nat.ne_of_lt hpos)
  · have hnil := hfirst got _ heq hgot
    subst hnil
    rw [List.nil_append] at heq
    rw [hrt, (List.cons.inj heq).1]
    rfl
  · exact absurd (hall _ List.mem_cons_self) (not_pos_of_nonpos hneg)

/-- A length that is negative as an `int64_t`: nothing is moved. -/
theorem told_of_le (hle : 2 ^ 63 ≤ length.toNat) (hfits : Fits length lens) :
    Told readFixSize length lens ↔ Ok length lens := by
  have hnot : ¬length.toNat < 2 ^ 63 := Nat.not_lt.mpr hle
  have hpos : 0 < length.toNat := by omega
  have hleft : ¬length.toInt64.toInt > 0 := by
    have hlt := length.toNat_lt
    rw [toInt_length, if_neg hnot]
    omega
  have hrt : readFixSize length lens = some ⟨length.toUInt32.toInt32, []⟩ :=
    fixSizeLoop_done hleft lens
  rw [Ok, if_neg hnot]
  constructor
  · exact fun htold => htold.head_eq hrt hpos hfits
  · rintro ⟨hhead, hneg⟩
    obtain ⟨rest, rfl⟩ := List.head?_eq_some_iff.mp hhead
    exact told_of_head hrt hneg hpos

/-- **Fixed sizes.** For a length and results that fit, `readFixSize` and `writeFixSize` tell what
has happened exactly if `Ok` holds. -/
theorem fixSize_iff (hfits : Fits length lens) :
    (Told readFixSize length lens ↔ Ok length lens) ∧
      (Told writeFixSize length lens ↔ Ok length lens) := by
  have hread : Told readFixSize length lens ↔ Ok length lens := by
    by_cases hlt : length.toNat < 2 ^ 63
    · exact told_of_lt hlt lens
    · exact told_of_le (Nat.le_of_not_lt hlt) hfits
  exact ⟨hread, hread⟩

/-- Two results. -/
theorem fits_pair {length : UInt64} {len len' : Int32} (hlen : len.toInt.toNat ≤ length.toNat)
    (hlen' : len.toInt.toNat + len'.toInt.toNat ≤ length.toNat) : Fits length [len, len'] := by
  intro got x rest heq _ _
  match got with
  | [] =>
    cases heq
    exact (Nat.zero_add _).le.trans hlen
  | [a] =>
    cases heq
    exact hlen'
  | _ :: _ :: got => cases got <;> cases heq

theorem fixSize_iff_five : Told readFixSize 5 [2, 3] ∧ Told writeFixSize 5 [2, 3] := by
  have hiff := fixSize_iff (fits_pair (by decide) (by decide) : Fits 5 [2, 3])
  have hok : Ok 5 [2, 3] := by
    unfold Ok
    rw [if_pos (by decide)]
    exact fun _ => by decide
  exact ⟨hiff.1.mpr hok, hiff.2.mpr hok⟩

/-- All of `2^31` bytes are moved, and a negative value is returned. -/
theorem not_told : ¬∀ (length : UInt64) (lens : List Int32), 0 < length → Fits length lens →
    Told readFixSize length lens ∧ Told writeFixSize length lens := by
  intro h
  have htold := (h 2147483648 [2147483647, 1] (by decide) (fits_pair (by decide) (by decide))).1
  obtain ⟨rt, hrt, hpos⟩ := htold.complete [2147483647, 1] [] rfl (by decide) (by decide)
  have hneg : readFixSize 2147483648 [2147483647, 1] =
      some ⟨-2147483648, chunks 0 [2147483647, 1]⟩ := by decide +kernel
  rw [hneg] at hrt
  cases hrt
  exact absurd hpos (by decide)

end Stream

end Captain
