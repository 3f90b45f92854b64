import Captain.Reads

/-!
# Scanners with actions

A scanner goes over a text from state to state. Each of its transitions has actions, which change
the data beside the state and may look at the whole buffer and at the place where the scanner
stands. An action may fail, and a transition may be the last one.

`Takes P w Q` says that the scanner reads the letters `w`, wherever they stand in the buffer, and
comes from `P` to `Q`. Such triples are put together in the order of the text; `run` is the rule for
a text that is read letter by letter, `foldl` that for a list of items. A scanner that has words of
its own is in the state of a word as long as the text goes on like it; `known_append` is the step.
-/

namespace Scanner

open Transition

/-- A transition; with `done` it leaves the loop. -/
structure Move (S A : Type*) where
  actions : List A
  done : Bool
  target : S
  deriving DecidableEq

/-- The variables of the loop: the place, the state and the data. -/
structure Loop (S X : Type*) where
  p : Nat
  cs : S
  data : X

/-- Where the loop ends. There is no state behind a letter that has no transition. -/
structure End (S X : Type*) where
  p : Nat
  cs : Option S
  data : X

variable {α S A X : Type*} (step : S → α → Option (Move S A)) (act : Nat → X → A → Option X)

def scan : List α → Loop S X → Option (End S X)
  | [], l => some ⟨l.p, some l.cs, l.data⟩
  | a :: rest, l =>
    match step l.cs a with
    | none => some ⟨l.p, none, l.data⟩
    | some m =>
      match m.actions.foldlM (act l.p) l.data with
      | none => none
      | some x =>
        if m.done then some ⟨l.p + 1, some m.target, x⟩ else scan rest ⟨l.p + 1, m.target, x⟩

/-- A turn that does not leave the loop. -/
def next (l : Loop S X) (a : α) : Option (Loop S X) :=
  (step l.cs a).bind fun m =>
    if m.done then none
    else (m.actions.foldlM (act l.p) l.data).map fun x => ⟨l.p + 1, m.target, x⟩

variable {step act}

theorem next_eq {l : Loop S X} {a : α} {m : Move S A} {x : X} (hm : step l.cs a = some m)
    (hdone : m.done = false) (hacts : m.actions.foldlM (act l.p) l.data = some x) :
    next step act l a = some ⟨l.p + 1, m.target, x⟩ := by
  rw [next, hm, Option.bind_some, hdone, if_neg Bool.false_ne_true, hacts, Option.map_some]

/-- `scan` goes on from where the turns lead. -/
theorem scan_exec {l l' : Loop S X} {w : List α} (h : exec (next step act) l w = some l')
    (rest : List α) : scan step act (w ++ rest) l = scan step act rest l' := by
  induction w generalizing l with
  | nil =>
    cases h
    rfl
  | cons a w ih =>
    obtain ⟨u, hu, h⟩ := Option.bind_eq_some_iff.mp h
    obtain ⟨m, hm, hu⟩ := Option.bind_eq_some_iff.mp hu
    cases hdone : m.done with
    | true =>
      rw [hdone, if_pos rfl] at hu
      cases hu
    | false =>
      rw [hdone, if_neg Bool.false_ne_true] at hu
      obtain ⟨x, hx, rfl⟩ := Option.map_eq_some_iff.mp hu
      rw [List.cons_append, scan, hm]
      dsimp only
      rw [hx]
      dsimp only
      rw [hdone, if_neg Bool.false_ne_true]
      exact ih h

/-- What every action keeps is kept by the scanner, wherever it ends. -/
theorem scan_invariant {I : X → Prop} {n : Nat}
    (hact : ∀ p x a x', p < n → I x → act p x a = some x' → I x') {w : List α} {l : Loop S X}
    {e : End S X} (hn : l.p + w.length ≤ n) (h : scan step act w l = some e) (hl : I l.data) :
    I e.data ∧ e.p ≤ n := by
  induction w generalizing l with
  | nil =>
    cases h
    exact ⟨hl, hn⟩
  | cons a w ih =>
    rw [List.length_cons] at hn
    rw [scan] at h
    split at h
    · cases h
      exact ⟨hl, by dsimp only; omega⟩
    · next m _ =>
      split at h
      · cases h
      · next x hx =>
        have hI : I x :=
          foldlM_invariant (fun y b y' hy => hact l.p y b y' (by omega) hy) hx hl
        split at h
        · cases h
          exact ⟨hI, by dsimp only; omega⟩
        · exact ih (by dsimp only; omega) h hI

/-! ## The way through the states -/

/-- Actions that do nothing. -/
def idle (_ : Nat) (_ : Unit) (_ : A) : Option Unit := some ()

theorem foldlM_idle (p : Nat) (as : List A) : as.foldlM (idle p) () = some () := by
  induction as with
  | nil => rfl
  | cons a as ih => exact ih

/-- Where the loop ends does not depend on what the actions do, unless one of them fails. -/
theorem scan_idle {l : Loop S X} {w : List α} {e : End S X} (h : scan step act w l = some e) :
    scan step idle w ⟨l.p, l.cs, ()⟩ = some ⟨e.p, e.cs, ()⟩ := by
  induction w generalizing l with
  | nil =>
    cases h
    rfl
  | cons a w ih =>
    rw [scan] at h ⊢
    dsimp only at h ⊢
    cases hm : step l.cs a with
    | none =>
      rw [hm] at h
      cases h
      rfl
    | some m =>
      rw [hm] at h
      dsimp only at h ⊢
      rw [foldlM_idle]
      dsimp only
      split at h
      · cases h
      · cases hdone : m.done with
        | true =>
          rw [hdone, if_pos rfl] at h
          cases h
          rfl
        | false =>
          rw [hdone, if_neg Bool.false_ne_true] at h
          exact ih h

/-- The way does not depend on the place where it starts. -/
theorem scan_shift (w : List α) (p d : Nat) (s : S) :
    scan step idle w ⟨p + d, s, ()⟩ =
      (scan step idle w ⟨p, s, ()⟩).map fun e => ⟨e.p + d, e.cs, ()⟩ := by
  induction w generalizing p s with
  | nil => rfl
  | cons a w ih =>
    rw [scan, scan]
    dsimp only
    cases step s a with
    | none => rfl
    | some m =>
      dsimp only
      rw [foldlM_idle, foldlM_idle]
      dsimp only
      rw [Nat.add_right_comm]
      cases m.done with
      | true => rfl
      | false => exact ih (p + 1) m.target

/-- A scan that comes further than `v` makes all of its turns over `v`. -/
theorem exec_of_scan {l : Loop S X} {v w : List α} {e : End S X}
    (h : scan step act (v ++ w) l = some e) (hp : l.p + v.length < e.p) :
    ∃ s x, exec (next step act) l v = some ⟨l.p + v.length, s, x⟩ := by
  induction v generalizing l with
  | nil => exact ⟨l.cs, l.data, rfl⟩
  | cons a v ih =>
    rw [List.length_cons] at hp
    rw [List.cons_append, scan] at h
    split at h
    · cases h
      dsimp only at hp
      omega
    · next m hm =>
      split at h
      · cases h
      · next x hx =>
        cases hdone : m.done with
        | true =>
          rw [hdone, if_pos rfl] at h
          cases h
          dsimp only at hp
          omega
        | false =>
          rw [hdone, if_neg Bool.false_ne_true] at h
          obtain ⟨s, x', hexec⟩ := ih h (by dsimp only; omega)
          refine ⟨s, x', ?_⟩
          rw [exec, next_eq hm hdone hx, Option.bind_some, hexec, List.length_cons,
            Nat.add_assoc, Nat.add_comm 1]

/-- An element between what is before it and what is behind it. -/
theorem take_drop_between (pre w rest : List α) :
    ((pre ++ w ++ rest).drop pre.length).take ((pre ++ w).length - pre.length) = w := by
  rw [List.append_assoc, List.drop_left, List.length_append, Nat.add_sub_cancel_left,
    List.take_left]

/-! ## Triples -/

variable (step) in
/-- Behind the letters `pre`, and in `P`, the scanner reads `w` and is in `Q`. -/
def Takes (act : List α → Nat → X → A → Option X) (P : List α → S → X → Prop) (w : List α)
    (Q : List α → S → X → Prop) : Prop :=
  ∀ pre rest s x, P pre s x → ∃ s' x',
    exec (next step (act (pre ++ w ++ rest))) ⟨pre.length, s, x⟩ w =
      some ⟨(pre ++ w).length, s', x'⟩ ∧ Q (pre ++ w) s' x'

namespace Takes

variable {act : List α → Nat → X → A → Option X} {P P' Q Q' R : List α → S → X → Prop}
  {w w' : List α}

theorem nil : Takes step act P [] P := by
  intro pre rest s x hP
  rw [List.append_nil]
  exact ⟨s, x, rfl, hP⟩

theorem append (h : Takes step act P w Q) (h' : Takes step act Q w' R) :
    Takes step act P (w ++ w') R := by
  intro pre rest s x hP
  obtain ⟨s', x', hexec, hQ⟩ := h pre (w' ++ rest) s x hP
  obtain ⟨s'', x'', hexec', hR⟩ := h' (pre ++ w) rest s' x' hQ
  have hbuffer : pre ++ (w ++ w') ++ rest = pre ++ w ++ (w' ++ rest) := by
    simp only [List.append_assoc]
  refine ⟨s'', x'', ?_, List.append_assoc pre w w' ▸ hR⟩
  rw [exec_append, hbuffer, hexec, Option.bind_some, ← List.append_assoc (pre ++ w), hexec',
    ← List.append_assoc pre]

theorem imp (h : Takes step act P w Q) (hP : ∀ pre s x, P' pre s x → P pre s x)
    (hQ : ∀ pre s x, Q pre s x → Q' pre s x) : Takes step act P' w Q' := by
  intro pre rest s x hP'
  obtain ⟨s', x', hexec, hx'⟩ := h pre rest s x (hP pre s x hP')
  exact ⟨s', x', hexec, hQ _ _ _ hx'⟩

/-- One letter. -/
theorem letter {a : α} (h : ∀ pre rest s x, P pre s x → ∃ m x', step s a = some m ∧
      m.done = false ∧ m.actions.foldlM (act (pre ++ a :: rest) pre.length) x = some x' ∧
      Q (pre ++ [a]) m.target x') : Takes step act P [a] Q := by
  intro pre rest s x hP
  obtain ⟨m, x', hm, hdone, hacts, hQ⟩ := h pre rest s x hP
  refine ⟨m.target, x', ?_, hQ⟩
  rw [List.append_assoc, List.singleton_append, exec, next_eq hm hdone hacts, List.length_append]
  rfl

/-- Letter by letter; the invariant may name what has been read of the text. -/
theorem run {P : List α → List α → S → X → Prop} {v w : List α}
    (h : ∀ u, ∀ a ∈ w, Takes step act (P u) [a] (P (u ++ [a]))) :
    Takes step act (P v) w (P (v ++ w)) := by
  induction w generalizing v with
  | nil =>
    rw [List.append_nil]
    exact nil
  | cons a w ih =>
    have htail := ih (v := v ++ [a]) fun u b hb => h u b (List.mem_cons_of_mem a hb)
    rw [List.append_assoc, List.singleton_append] at htail
    exact (h v a List.mem_cons_self).append htail

/-- Items one after the other, each of which makes one thing of another. -/
theorem foldl {β γ : Type*} {P : γ → List α → S → X → Prop} {line : β → List α} {f : γ → β → γ}
    {items : List β} (h : ∀ e ∈ items, ∀ c, Takes step act (P c) (line e) (P (f c e))) (c : γ) :
    Takes step act (P c) (items.flatMap line) (P (items.foldl f c)) := by
  induction items generalizing c with
  | nil => exact nil
  | cons e items ih =>
    exact (h e List.mem_cons_self c).append
      (ih (fun e' he' => h e' (List.mem_cons_of_mem e he')) (f c e))

/-- A text at the beginning of the buffer, and behind it the letter that ends the loop. -/
theorem scan_done (h : Takes step act P w Q) {a : α} {s : S} {x : X} (hP : P [] s x)
    (rest : List α) {R : S → X → Prop} (hdone : ∀ s' x', Q w s' x' → ∃ m x'', step s' a = some m ∧
      m.done = true ∧ m.actions.foldlM (act (w ++ a :: rest) w.length) x' = some x'' ∧
      R m.target x'') :
    ∃ s' x', scan step (act (w ++ a :: rest)) (w ++ a :: rest) ⟨0, s, x⟩ =
      some ⟨w.length + 1, some s', x'⟩ ∧ R s' x' := by
  obtain ⟨s', x', hexec, hQ⟩ := h [] (a :: rest) s x hP
  obtain ⟨m, x'', hm, hend, hacts, hR⟩ := hdone s' x' hQ
  refine ⟨m.target, x'', ?_, hR⟩
  rw [List.nil_append, List.length_nil] at hexec
  rw [scan_exec hexec, scan]
  dsimp only
  rw [hm]
  dsimp only
  rw [hacts]
  dsimp only
  rw [hend, if_pos rfl]

end Takes

/-! ## Words that the states spell -/

section

variable {β : Type*} [DecidableEq β] (words : List (List β))

/-- What is known of the letters read so far. -/
def known (w : List β) : Option (List β) := if w ∈ words then some w else none

/-- The letters with which a word goes on. -/
def following (w : List β) : List β :=
  words.filterMap fun u => if u.dropLast = w then u.getLast? else none

/-- With a word there are those that it goes on from. -/
def PrefixClosed : Prop := ∀ w ∈ words, w.dropLast ≠ [] → w.dropLast ∈ words

variable {words}

theorem known_eq_some {w u : List β} : known words w = some u ↔ u = w ∧ w ∈ words := by
  unfold known
  constructor
  · intro h
    obtain ⟨hmem, heq⟩ := (Option.ite_none_right_eq_some ..).mp h
    exact ⟨(Option.some.inj heq).symm, hmem⟩
  · rintro ⟨rfl, hmem⟩
    exact if_pos hmem

theorem mem_following {w : List β} {b : β} : b ∈ following words w ↔ w ++ [b] ∈ words := by
  rw [following, List.mem_filterMap]
  constructor
  · rintro ⟨u, hu, h⟩
    obtain ⟨rfl, hlast⟩ := (Option.ite_none_right_eq_some ..).mp h
    rwa [List.dropLast_append_getLast? b hlast]
  · exact fun h => ⟨w ++ [b], h, by rw [List.dropLast_concat, if_pos rfl, List.getLast?_concat]⟩

theorem known_append (h : PrefixClosed words) {w : List β} (hw : w ≠ []) (b : β) :
    known words (w ++ [b]) =
      (known words w).bind fun u => if b ∈ following words u then some (u ++ [b]) else none := by
  by_cases hmem : w ∈ words
  · rw [known_eq_some.mpr ⟨rfl, hmem⟩, Option.bind_some, known, if_congr mem_following rfl rfl]
  · have hlong : w ++ [b] ∉ words := by
      intro hlong
      have hshort := h _ hlong
      rw [List.dropLast_concat] at hshort
      exact hmem (hshort hw)
    rw [known, known, if_neg hmem, if_neg hlong, Option.bind_none]

end

end Scanner
