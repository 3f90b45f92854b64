import Mathlib.Logic.Basic
import Mathlib.Tactic.Cases

/-!
# Runs of a labelled step relation

A system is a relation `step s a t`: the label `a` takes the state `s` to the state `t`.
`Run step s as t` is a finite run with its labels in order.

* `Run.invariant`: what every step preserves holds at the end of a run.
* `Guard`: the steps that meet a condition on the state before them, so that a run of a guarded
  relation is a run all of whose steps meet the condition.
* `Run.of_steps`: what holds of every step, from what holds of it at its place in the run.
* `Run.simulate`: a step-by-step simulation carries over to runs.
* `Run.steps_iff`, `Run.into_iff`: the runs whose steps have a property, or stay in `P`, are those
  whose steps meet a condition.
* `Run.last_change`: a run that ends in `P` is in `P` all the way, or has a last step into `P`.
* `foldlM_invariant`: the invariant rule of a loop whose rounds may fail.
* `exec`: runs of a step function; `Run.of_exec` makes them runs of the relation, and `exec_iff`
  characterises the sequences along which a property holds.
-/

namespace Transition

variable {σ τ α : Type*}

/-- `Run step s as t`: the labels `as`, one after the other, lead from `s` to `t`. -/
inductive Run (step : σ → α → σ → Prop) : σ → List α → σ → Prop
  | nil (s : σ) : Run step s [] s
  | cons {s t u : σ} {a : α} {as : List α} :
      step s a t → Run step t as u → Run step s (a :: as) u

/-- The steps of `step` whose state and label meet `ok`. -/
def Guard (ok : σ → α → Prop) (step : σ → α → σ → Prop) (s : σ) (a : α) (t : σ) : Prop :=
  ok s a ∧ step s a t

namespace Run

variable {step : σ → α → σ → Prop}

theorem nil_iff {s t : σ} : Run step s [] t ↔ t = s := by
  constructor
  · intro h
    cases h
    rfl
  · rintro rfl
    exact .nil t

theorem cons_iff {s u : σ} {a : α} {as : List α} :
    Run step s (a :: as) u ↔ ∃ t, step s a t ∧ Run step t as u := by
  constructor
  · intro h
    cases h with
    | cons hs hr => exact ⟨_, hs, hr⟩
  · rintro ⟨t, hs, hr⟩
    exact .cons hs hr

theorem append_iff {s u : σ} {as bs : List α} :
    Run step s (as ++ bs) u ↔ ∃ t, Run step s as t ∧ Run step t bs u := by
  induction as generalizing s with
  | nil => simp [nil_iff]
  | cons a as ih =>
    simp only [List.cons_append, cons_iff, ih]
    constructor
    · rintro ⟨t, hs, v, hv, hu⟩
      exact ⟨v, ⟨t, hs, hv⟩, hu⟩
    · rintro ⟨v, ⟨t, hs, hv⟩, hu⟩
      exact ⟨t, hs, v, hv, hu⟩

/-- **Invariant rule.** -/
theorem invariant {I : σ → Prop} (hstep : ∀ s a t, I s → step s a t → I t)
    {s t : σ} {as : List α} (h : Run step s as t) (hs : I s) : I t := by
  induction h with
  | nil => exact hs
  | cons hst _ ih => exact ih (hstep _ _ _ hs hst)

theorem mono {step' : σ → α → σ → Prop} (hstep : ∀ s a t, step s a t → step' s a t)
    {s t : σ} {as : List α} (h : Run step s as t) : Run step' s as t := by
  induction h with
  | nil => exact .nil _
  | cons hst _ ih => exact .cons (hstep _ _ _ hst) ih

theorem of_guard {ok : σ → α → Prop} {s t : σ} {as : List α}
    (h : Run (Guard ok step) s as t) : Run step s as t :=
  h.mono fun _ _ _ hst => hst.2

/-- What holds of every step of a run, at its place in the run. -/
theorem of_steps {P : σ → α → σ → Prop} {s t : σ} {as : List α} (h : Run step s as t)
    (hP : ∀ pre a post u v, as = pre ++ a :: post → Run step s pre u → step u a v →
      Run step v post t → P u a v) : Run (fun u a v => step u a v ∧ P u a v) s as t := by
  induction h with
  | nil => exact .nil _
  | @cons s s₁ t a as hst hrun ih =>
    refine .cons ⟨hst, hP [] a as s s₁ rfl (.nil s) hst hrun⟩ (ih ?_)
    rintro pre b post u v rfl hpre hstep hpost
    exact hP (a :: pre) b post u v rfl (.cons hst hpre) hstep hpost

/-- A run that ends in `P` is in `P` all the way, or has a last step into `P` from outside. -/
theorem last_change {P : σ → Prop} {s t : σ} {as : List α} (h : Run step s as t) (ht : P t) :
    Run (Guard (fun u _ => P u) step) s as t ∨
      ∃ pre a post u v, as = pre ++ a :: post ∧ Run step s pre u ∧ step u a v ∧
        Run (Guard (fun w _ => P w) step) v post t ∧ ¬P u := by
  induction h with
  | nil => exact Or.inl (.nil _)
  | @cons s s₁ t a as hst hrun ih =>
    rcases ih ht with hall | ⟨pre, b, post, u, v, rfl, hpre, hstep, hpost, hu⟩
    · by_cases hs : P s
      · exact Or.inl (.cons ⟨hs, hst⟩ hall)
      · exact Or.inr ⟨[], a, as, s, s₁, rfl, .nil s, hst, hall, hs⟩
    · exact Or.inr ⟨a :: pre, b, post, u, v, rfl, .cons hst hpre, hstep, hpost, hu⟩

/-- The steps of a run that stays in `P`. -/
theorem steps_within {P : σ → Prop} {s t : σ} {as : List α}
    (h : Run (Guard (fun u _ => P u) step) s as t) (ht : P t) :
    P s ∧ ∀ a ∈ as, ∃ u v, step u a v ∧ P u ∧ P v := by
  induction h with
  | nil => exact ⟨ht, by simp⟩
  | cons hst _ ih =>
    obtain ⟨hs₁, hall⟩ := ih ht
    exact ⟨hst.1, List.forall_mem_cons.mpr ⟨⟨_, _, hst.2, hst.1, hs₁⟩, hall⟩⟩

/-- **Simulation rule.** -/
theorem simulate (step' : τ → α → τ → Prop) (R : σ → τ → Prop)
    (hstep : ∀ s a s' t, R s t → step s a s' → ∃ t', step' t a t' ∧ R s' t')
    {s s' : σ} {as : List α} (h : Run step s as s') {t : τ} (ht : R s t) :
    ∃ t', Run step' t as t' ∧ R s' t' := by
  induction h generalizing t with
  | nil => exact ⟨t, .nil t, ht⟩
  | cons hst _ ih =>
    obtain ⟨t₁, hst', ht₁⟩ := hstep _ _ _ _ ht hst
    obtain ⟨t', hr, ht'⟩ := ih ht₁
    exact ⟨t', .cons hst' hr, ht'⟩

/-- **Guards.** From a state in `I`, the runs whose steps have the property `P` are those whose
steps meet `ok`: provided that a step from `I` that meets `ok` leads into `I` and has the property,
and one that does not meet `ok` does not have it. -/
theorem steps_iff {I : σ → Prop} {P : σ → α → σ → Prop} {ok : σ → α → Prop}
    (hok : ∀ s a t, I s → ok s a → step s a t → I t ∧ P s a t)
    (hbad : ∀ s a t, I s → ¬ok s a → step s a t → ¬P s a t) {s t : σ} {as : List α} (hs : I s) :
    Run (fun u a v => step u a v ∧ P u a v) s as t ↔ Run (Guard ok step) s as t := by
  induction as generalizing s with
  | nil => rw [nil_iff, nil_iff]
  | cons a as ih =>
    rw [cons_iff, cons_iff]
    constructor
    · rintro ⟨u, ⟨hst, hPu⟩, hrun⟩
      have hok₀ : ok s a := Classical.byContradiction fun hnot => hbad s a u hs hnot hst hPu
      exact ⟨u, ⟨hok₀, hst⟩, (ih (hok s a u hs hok₀ hst).1).mp hrun⟩
    · rintro ⟨u, ⟨hok₀, hst⟩, hrun⟩
      obtain ⟨hIu, hPu⟩ := hok s a u hs hok₀ hst
      exact ⟨u, ⟨hst, hPu⟩, (ih hIu).mpr hrun⟩

/-- The same where the property is that the step leads into `P`. -/
theorem into_iff {I P : σ → Prop} {ok : σ → α → Prop}
    (hok : ∀ s a t, I s → ok s a → step s a t → I t ∧ P t)
    (hbad : ∀ s a t, I s → ¬ok s a → step s a t → ¬P t) {s t : σ} {as : List α} (hs : I s) :
    Run (fun u a v => step u a v ∧ P v) s as t ↔ Run (Guard ok step) s as t :=
  steps_iff hok hbad hs

end Run

/-! ## Step functions -/

/-- The state after the labels `as`, if every step can be made. -/
def exec (next : σ → α → Option σ) : σ → List α → Option σ
  | s, [] => some s
  | s, a :: as => (next s a).bind fun t => exec next t as

/-- **Invariant rule** of a loop that stops where a round fails. -/
theorem foldlM_invariant {next : σ → α → Option σ} {I : σ → Prop}
    (hnext : ∀ s a t, I s → next s a = some t → I t) {s t : σ} {as : List α}
    (h : as.foldlM next s = some t) (hs : I s) : I t := by
  induction as generalizing s with
  | nil =>
    cases h
    exact hs
  | cons a as ih =>
    rw [List.foldlM_cons] at h
    obtain ⟨u, hu, h⟩ := Option.bind_eq_some_iff.mp h
    exact ih h (hnext s a u hs hu)

/-- The steps of a step function that meet a condition. -/
def guardNext (ok : σ → α → Prop) [∀ s a, Decidable (ok s a)] (next : σ → α → Option σ) (s : σ)
    (a : α) : Option σ := if ok s a then next s a else none

theorem guardNext_sound {ok : σ → α → Prop} [∀ s a, Decidable (ok s a)] {next : σ → α → Option σ}
    {step : σ → α → σ → Prop} (hnext : ∀ s a t, next s a = some t → step s a t) (s : σ) (a : α)
    (t : σ) (h : guardNext ok next s a = some t) : Guard ok step s a t := by
  rw [guardNext] at h
  split at h
  · exact ⟨‹_›, hnext s a t h⟩
  · cases h

theorem Run.of_exec {next : σ → α → Option σ} {step : σ → α → σ → Prop}
    (hnext : ∀ s a t, next s a = some t → step s a t) {s t : σ} {as : List α}
    (h : exec next s as = some t) : Run step s as t := by
  induction as generalizing s with
  | nil =>
    cases h
    exact .nil _
  | cons a as ih =>
    obtain ⟨u, hu, ht⟩ := Option.bind_eq_some_iff.mp h
    exact .cons (hnext s a u hu) (ih ht)

/-- A run that is computed. -/
theorem Run.of_exec_isSome {next : σ → α → Option σ} {step : σ → α → σ → Prop}
    (hnext : ∀ s a t, next s a = some t → step s a t) {s : σ} {as : List α}
    (h : (exec next s as).isSome) : Run step s as ((exec next s as).get h) :=
  .of_exec hnext (Option.some_get h).symm

/-- A run that is computed, with what is computed about its end. -/
theorem Run.of_exec_any {next : σ → α → Option σ} {step : σ → α → σ → Prop}
    (hnext : ∀ s a t, next s a = some t → step s a t) {s : σ} {as : List α} {p : σ → Bool}
    (h : (exec next s as).any p = true) : ∃ t, Run step s as t ∧ p t = true := by
  obtain ⟨t, ht, hp⟩ := Option.any_eq_true p _ |>.mp h
  exact ⟨t, .of_exec hnext ht, hp⟩

/-- A computation that returns came through its first part. -/
theorem bind_ok {ε β γ : Type*} {x : Except ε β} {f : β → Except ε γ} {c : γ}
    (h : x.bind f = .ok c) : ∃ b, x = .ok b ∧ f b = .ok c := by
  cases x with
  | error e => cases h
  | ok b => exact ⟨b, rfl, h⟩

/-- **Guards of a step function.** From a state in `I`, every call goes through to a state in `P`
all along the sequence if and only if every call meets `ok` at its place: provided that `I` implies
`P`, a legal call that meets `ok` keeps `I`, and one that does not is stuck or leaves `P`. -/
theorem exec_iff {next : σ → α → Option σ} {I P : σ → Prop} {legal ok : σ → α → Prop}
    (hP : ∀ s, I s → P s)
    (hok : ∀ s a, I s → legal s a → ok s a → ∃ t, next s a = some t ∧ I t)
    (hbad : ∀ s a, I s → legal s a → ¬ok s a → ∀ t, next s a = some t → ¬P t)
    {s : σ} (hs : I s) {as : List α}
    (hlegal : ∀ pre a u, pre ++ [a] <+: as → exec next s pre = some u → legal u a) :
    (∀ pre, pre <+: as → ∃ u, exec next s pre = some u ∧ P u) ↔
      ∀ pre a u, pre ++ [a] <+: as → exec next s pre = some u → ok u a := by
  induction as generalizing s with
  | nil =>
    constructor
    · intro _ pre a u hpre
      simp at hpre
    · intro _ pre hpre
      rw [List.prefix_nil] at hpre
      subst hpre
      exact ⟨s, rfl, hP s hs⟩
  | cons a as ih =>
    have hlegal₀ : legal s a := hlegal [] a s (by simp) rfl
    have hcons : ∀ {t}, next s a = some t →
        ∀ pre, exec next s (a :: pre) = exec next t pre := by
      intro t ht pre
      rw [exec, ht, Option.bind_some]
    have hlater : ∀ {t}, next s a = some t →
        ∀ pre b u, pre ++ [b] <+: as → exec next t pre = some u → legal u b := by
      intro t ht pre b u hpre hu
      apply hlegal (a :: pre) b u
      · simpa using hpre
      · rw [hcons ht, hu]
    constructor
    · intro hall
      -- the first call goes through, so it meets the condition
      obtain ⟨t, ht, hPt⟩ : ∃ t, next s a = some t ∧ P t := by
        obtain ⟨t, ht, hPt⟩ := hall [a] (by simp)
        obtain ⟨u, hu, hut⟩ := Option.bind_eq_some_iff.mp ht
        cases hut
        exact ⟨t, hu, hPt⟩
      have hok₀ : ok s a := by
        apply Classical.byContradiction
        intro hnot
        exact hbad s a hs hlegal₀ hnot t ht hPt
      obtain ⟨t', ht', hIt⟩ := hok s a hs hlegal₀ hok₀
      rw [ht] at ht'
      cases ht'
      have hrest := (ih hIt (hlater ht)).mp fun pre hpre => by
        obtain ⟨u, hu, hPu⟩ := hall (a :: pre) (by simpa using hpre)
        exact ⟨u, (hcons ht pre).symm.trans hu, hPu⟩
      intro pre b u hpre hu
      cases pre with
      | nil =>
        cases hu
        simp only [List.nil_append, List.cons_prefix_cons, List.nil_prefix, and_true] at hpre
        rw [hpre]
        exact hok₀
      | cons c pre =>
        simp only [List.cons_append, List.cons_prefix_cons] at hpre
        obtain ⟨rfl, hpre⟩ := hpre
        exact hrest pre b u hpre ((hcons ht pre).symm.trans hu)
    · intro hall pre hpre
      obtain ⟨t, ht, hIt⟩ := hok s a hs hlegal₀ (hall [] a s (by simp) rfl)
      cases pre with
      | nil => exact ⟨s, rfl, hP s hs⟩
      | cons c pre =>
        rw [List.cons_prefix_cons] at hpre
        obtain ⟨rfl, hpre⟩ := hpre
        have hrest := (ih hIt (hlater ht)).mpr fun pre b u hpre hu =>
          hall (c :: pre) b u (by simpa using hpre) ((hcons ht pre).trans hu)
        obtain ⟨u, hu, hPu⟩ := hrest pre hpre
        exact ⟨u, (hcons ht pre).trans hu, hPu⟩

end Transition
