import Captain.Transition
import Mathlib.Computability.Language

/-!
# Triples over languages

A step function reads a word letter by letter. `Reads next P L Q` says that from every state in `P`
it reads every word of the language `L`, and is in `Q` behind it. There is one rule for each
operation on languages; in that of `L∗` the precondition is the invariant of the loop.
-/

namespace Transition

open Computability

variable {σ α : Type*} {next : σ → α → Option σ}

theorem exec_append (s : σ) (as bs : List α) :
    exec next s (as ++ bs) = (exec next s as).bind fun t => exec next t bs := by
  induction as generalizing s with
  | nil => rfl
  | cons a as ih =>
    rw [List.cons_append, exec, exec, Option.bind_assoc]
    exact Option.bind_congr fun t _ => ih t

/-- The words of one letter. -/
def letter (p : α → Prop) : Language α := {w | ∃ a, p a ∧ w = [a]}

theorem mem_letter {p : α → Prop} {a : α} : [a] ∈ letter p ↔ p a := by
  constructor
  · rintro ⟨a', ha, heq⟩
    rwa [List.singleton_inj.mp heq]
  · exact fun ha => ⟨a, ha, rfl⟩

/-- A word all of whose letters are words of `L`. -/
theorem mem_kstar_of_letters {L : Language α} {w : List α} (h : ∀ a ∈ w, [a] ∈ L) : w ∈ L∗ := by
  refine Language.mem_kstar.mpr ⟨w.map fun a => [a], ?_, ?_⟩
  · induction w with
    | nil => rfl
    | cons a w ih => simpa using ih fun b hb => h b (List.mem_cons_of_mem a hb)
  · intro y hy
    obtain ⟨a, ha, rfl⟩ := List.mem_map.mp hy
    exact h a ha

/-- A loop that is not empty makes a first turn. -/
theorem mem_mul_kstar {L : Language α} {w : List α} (h : w ∈ L∗) (hne : w ≠ []) :
    w ∈ L * L∗ := by
  rw [← Language.one_add_self_mul_kstar_eq_kstar] at h
  exact h.resolve_left hne

def Reads (next : σ → α → Option σ) (P : σ → Prop) (L : Language α) (Q : σ → Prop) : Prop :=
  ∀ s, P s → ∀ w ∈ L, ∃ t, exec next s w = some t ∧ Q t

namespace Reads

variable {P P' Q Q' R : σ → Prop} {L L' : Language α}

theorem skip : Reads next P 1 P := by
  intro s hs w hw
  rw [Language.mem_one] at hw
  exact ⟨s, hw ▸ rfl, hs⟩

theorem step {p : α → Prop} (h : ∀ s a, P s → p a → ∃ t, next s a = some t ∧ Q t) :
    Reads next P (letter p) Q := by
  rintro s hs w ⟨a, ha, rfl⟩
  obtain ⟨t, hnext, ht⟩ := h s a hs ha
  exact ⟨t, by rw [exec, hnext]; rfl, ht⟩

theorem seq (h : Reads next P L Q) (h' : Reads next Q L' R) : Reads next P (L * L') R := by
  intro s hs w hw
  obtain ⟨a, ha, b, hb, rfl⟩ := Language.mem_mul.mp hw
  obtain ⟨t, hat, ht⟩ := h s hs a ha
  obtain ⟨u, hbu, hu⟩ := h' t ht b hb
  exact ⟨u, by rw [exec_append, hat, Option.bind_some, hbu], hu⟩

theorem choice (h : Reads next P L Q) (h' : Reads next P L' Q) : Reads next P (L + L') Q := by
  intro s hs w hw
  cases (Language.mem_add L L' w).mp hw with
  | inl hw => exact h s hs w hw
  | inr hw => exact h' s hs w hw

theorem loop (h : Reads next P L P) : Reads next P (L∗) P := by
  intro s hs w hw
  obtain ⟨ws, rfl, hws⟩ := Language.mem_kstar.mp hw
  clear hw
  induction ws generalizing s with
  | nil => exact ⟨s, rfl, hs⟩
  | cons a ws ih =>
    obtain ⟨t, hat, ht⟩ := h s hs a (hws a List.mem_cons_self)
    obtain ⟨u, hu⟩ := ih t ht fun b hb => hws b (List.mem_cons_of_mem a hb)
    exact ⟨u, by rw [List.flatten_cons, exec_append, hat, Option.bind_some, hu.1], hu.2⟩

theorem imp (h : Reads next P L Q) (hP : ∀ s, P' s → P s) (hQ : ∀ s, Q s → Q' s) :
    Reads next P' L Q' := by
  intro s hs w hw
  obtain ⟨t, hexec, ht⟩ := h s (hP s hs) w hw
  exact ⟨t, hexec, hQ t ht⟩

theorem mono (h : Reads next P L Q) (hL : ∀ w ∈ L', w ∈ L) : Reads next P L' Q :=
  fun s hs w hw => h s hs w (hL w hw)

end Reads

end Transition
