import Captain.Http.Grammar
import Captain.Http.Method

/-!
# What the loop of `http_parser_execute` makes of a request

`Takes` says that the loop reads the bytes `w` of a buffer, wherever they stand in it, and what the
callbacks make of the `HttpRequestParser` meanwhile. Each element of a request is read by the rules
for its language (`Reads`), and reported with the delimiter behind it (`Takes.element`).
-/

namespace Captain.Http

open Transition
open Computability

variable {M : Machine}

/-- The variables of the loop. -/
structure Loop (M : Machine) where
  p : Nat
  cs : M.State
  parser : HttpParser M
  target : Target

namespace Loop

/-- A turn that does not leave the loop. -/
def next (buffer : Bytes) (l : Loop M) (b : UInt8) : Option (Loop M) :=
  (M.step l.cs b).bind fun m =>
    if m.done then none
    else (m.actions.foldlM (HttpParser.act buffer l.p) (l.parser, l.target)).map fun k =>
      ⟨l.p + 1, m.target, k.1, k.2⟩

variable {buffer : Bytes} {l l' : Loop M}

theorem next_eq {b : UInt8} {m : Move M.State} (hm : M.step l.cs b = some m)
    (hdone : m.done = false) {k : HttpParser M × Target}
    (hacts : m.actions.foldlM (HttpParser.act buffer l.p) (l.parser, l.target) = some k) :
    next buffer l b = some ⟨l.p + 1, m.target, k.1, k.2⟩ := by
  rw [next, hm, Option.bind_some, hdone, if_neg Bool.false_ne_true, hacts, Option.map_some]

/-- `scan` goes on from where the turns lead. -/
theorem scan_exec {w : Bytes} (h : exec (next buffer) l w = some l') (rest : Bytes) :
    HttpParser.scan buffer (w ++ rest) l.p l.cs l.parser l.target =
        HttpParser.scan buffer rest l'.p l'.cs l'.parser l'.target ∧
      l'.p = l.p + w.length := by
  induction w generalizing l with
  | nil =>
    cases h
    exact ⟨rfl, rfl⟩
  | cons b w ih =>
    obtain ⟨u, hu, h⟩ := Option.bind_eq_some_iff.mp h
    obtain ⟨m, hm, hu⟩ := Option.bind_eq_some_iff.mp hu
    cases hdone : m.done with
    | true =>
      rw [hdone, if_pos rfl] at hu
      cases hu
    | false =>
      rw [hdone, if_neg Bool.false_ne_true] at hu
      obtain ⟨k, hk, rfl⟩ := Option.map_eq_some_iff.mp hu
      obtain ⟨hscan, hp⟩ := ih h
      refine ⟨?_, ?_⟩
      · rw [List.cons_append, HttpParser.scan, hm]
        dsimp only
        rw [hk]
        dsimp only
        rw [hdone, if_neg Bool.false_ne_true]
        exact hscan
      · rw [hp, List.length_cons]
        dsimp only
        omega

end Loop

namespace Grammar

variable {uri_relaxed : Bool} (c : Contained uri_relaxed M)

/-- The loop is in the state `s`, and in `φ`. -/
def In (s : Nat) (φ : HttpParser M → Target → Prop) (l : Loop M) : Prop :=
  l.cs = c.state s ∧ φ l.parser l.target

/-- The loop is at the byte `n` in the state `s`, and in `φ`. -/
def At (n s : Nat) (φ : HttpParser M → Target → Prop) (l : Loop M) : Prop :=
  l.p = n ∧ In c s φ l

variable {c} {buffer : Bytes} {s s' : Nat} {φ ψ : HttpParser M → Target → Prop}

/-- Bytes that have no action. -/
theorem reads_quiet {p : UInt8 → Prop}
    (h : ∀ b, p b → transition uri_relaxed s b = some ⟨[], false, s'⟩) :
    Reads (Loop.next buffer) (In c s φ) (letter p) (In c s' φ) := by
  apply Reads.step
  rintro l b ⟨hcs, hφ⟩ hb
  have hm := c.step (h b hb)
  rw [← hcs] at hm
  exact ⟨_, Loop.next_eq hm rfl rfl, rfl, hφ⟩

/-- Bytes with actions, at a known place. -/
theorem reads_acts {p : UInt8 → Prop} {n : Nat} {as : List Action}
    (h : ∀ b, p b → transition uri_relaxed s b = some ⟨as, false, s'⟩)
    (hacts : ∀ parser t, φ parser t → ∃ k,
      as.foldlM (HttpParser.act buffer n) (parser, t) = some k ∧ ψ k.1 k.2) :
    Reads (Loop.next buffer) (At c n s φ) (letter p) (In c s' ψ) := by
  apply Reads.step
  rintro l b ⟨hp, hcs, hφ⟩ hb
  obtain ⟨k, hk, hψ⟩ := hacts l.parser l.target hφ
  have hm := c.step (h b hb)
  rw [← hcs] at hm
  rw [← hp] at hk
  exact ⟨_, Loop.next_eq hm rfl hk, rfl, hψ⟩

section

variable {P Q X Y : Loop M → Prop}

/-- `pchar` is a byte that stands for itself, or `%` and two digits. -/
theorem reads_pchar (hplain : Reads (Loop.next buffer) P (letter (plain uri_relaxed · = true)) Q)
    (hpct : Reads (Loop.next buffer) P (letter (· = 37)) X)
    (hfirst : Reads (Loop.next buffer) X (letter (xdigit · = true)) Y)
    (hsecond : Reads (Loop.next buffer) Y (letter (xdigit · = true)) Q) :
    Reads (Loop.next buffer) P (pchar uri_relaxed) Q := by
  have hletter : ∀ p : UInt8 → Prop, (∀ b, p b → plain uri_relaxed b = true) →
      Reads (Loop.next buffer) P (letter p) Q := by
    intro p hp
    refine hplain.mono ?_
    rintro w ⟨b, hb, rfl⟩
    exact mem_letter.mpr (hp b hb)
  refine .choice (.choice (.choice (.choice ?_ ?_) ?_) ?_) ?_
  · exact hletter _ fun b hb => by simp [plain, hb]
  · exact .seq (.seq hpct hfirst) hsecond
  · exact hletter _ fun b hb => by simp [plain, hb]
  · exact hletter _ fun b hb => by simp [plain, hb]
  · exact hletter _ fun b hb => by simp [plain, hb]

end

/-! ## Elements -/

/-- Behind the bytes `pre`, and with the parser in `φ`, the loop reads `w`: it comes from the state
`s` to `s'`, with the parser in `ψ`, and the callbacks do `f`. -/
def Takes (c : Contained uri_relaxed M) (s : Nat) (φ : Bytes → HttpParser M → Prop) (w : Bytes)
    (s' : Nat) (ψ : Bytes → HttpParser M → Prop) (f : Target → Target) : Prop :=
  ∀ pre rest parser t, φ pre parser → ∃ parser',
    exec (Loop.next (pre ++ w ++ rest)) ⟨pre.length, c.state s, parser, t⟩ w =
      some ⟨(pre ++ w).length, c.state s', parser', f t⟩ ∧ ψ (pre ++ w) parser'

/-- Nothing is known of the parser. -/
def Any (_ : Bytes) (_ : HttpParser M) : Prop := True

namespace Takes

variable {s s' s'' : Nat} {φ ψ χ : Bytes → HttpParser M → Prop} {w w' : Bytes}
  {f g : Target → Target}

theorem nil : Takes c s φ [] s φ id := by
  intro pre rest parser t hφ
  rw [List.append_nil]
  exact ⟨parser, rfl, hφ⟩

theorem append (h : Takes c s φ w s' ψ f) (h' : Takes c s' ψ w' s'' χ g) :
    Takes c s φ (w ++ w') s'' χ (g ∘ f) := by
  intro pre rest parser t hφ
  obtain ⟨parser', hexec, hψ⟩ := h pre (w' ++ rest) parser t hφ
  obtain ⟨parser'', hexec', hχ⟩ := h' (pre ++ w) rest parser' (f t) hψ
  have hbuffer : pre ++ (w ++ w') ++ rest = pre ++ w ++ (w' ++ rest) := by
    simp only [List.append_assoc]
  refine ⟨parser'', ?_, List.append_assoc pre w w' ▸ hχ⟩
  rw [exec_append, hbuffer, hexec, Option.bind_some, ← List.append_assoc (pre ++ w), hexec',
    ← List.append_assoc pre]
  rfl

theorem flatMap {α : Type} {l : List α} {line : α → Bytes} {f : α → Target → Target}
    (h : ∀ a ∈ l, Takes c s φ (line a) s φ (f a)) :
    Takes c s φ (l.flatMap line) s φ fun t => l.foldl (fun t a => f a t) t := by
  induction l with
  | nil => exact nil
  | cons a l ih =>
    exact (h a List.mem_cons_self).append (ih fun b hb => h b (List.mem_cons_of_mem a hb))

/-- One byte. -/
theorem byte (as : List Action) {d : UInt8} (h : transition uri_relaxed s d = some ⟨as, false, s'⟩)
    (hacts : ∀ pre rest parser t, φ pre parser → ∃ parser',
      as.foldlM (HttpParser.act (pre ++ d :: rest) pre.length) (parser, t) = some (parser', f t) ∧
        ψ (pre ++ [d]) parser') :
    Takes c s φ [d] s' ψ f := by
  intro pre rest parser t hφ
  obtain ⟨parser', hk, hψ⟩ := hacts pre rest parser t hφ
  refine ⟨parser', ?_, hψ⟩
  rw [List.append_assoc, List.singleton_append, exec, Loop.next_eq (c.step h) rfl hk,
    List.length_append]
  rfl

/-- An element, with the delimiter that reports it. -/
theorem element (as : List Action) {L : Language UInt8} {K : Nat → Prop} {d : UInt8} (hw : w ∈ L)
    (hread : ∀ buffer pre t, Reads (Loop.next buffer)
      (At c pre.length s fun parser t' => φ pre parser ∧ t' = t) L
      fun l => ∃ k, K k ∧ In c k (fun parser t' => ψ pre parser ∧ t' = t) l)
    (h : ∀ k, K k → transition uri_relaxed k d = some ⟨as, false, s'⟩)
    (hacts : ∀ pre rest parser t, ψ pre parser → ∃ parser',
      as.foldlM (HttpParser.act (pre ++ w ++ d :: rest) (pre ++ w).length) (parser, t) =
        some (parser', f t) ∧ χ (pre ++ (w ++ [d])) parser') :
    Takes c s φ (w ++ [d]) s' χ f := by
  intro pre rest parser t hφ
  have hbuffer : pre ++ (w ++ [d]) ++ rest = pre ++ w ++ d :: rest := by
    simp only [List.append_assoc, List.singleton_append]
  rw [hbuffer]
  obtain ⟨l, hexec, k, hk, hcs, hψ, htarget⟩ :=
    hread (pre ++ w ++ d :: rest) pre t ⟨pre.length, c.state s, parser, t⟩
      ⟨rfl, rfl, hφ, rfl⟩ w hw
  have hp : l.p = (pre ++ w).length := by
    rw [(Loop.scan_exec hexec []).2, List.length_append]
  obtain ⟨parser', hfold, hχ⟩ := hacts pre rest l.parser t hψ
  have hm := c.step (h k hk)
  rw [← hcs] at hm
  rw [← htarget, ← hp] at hfold
  have hend : (pre ++ (w ++ [d])).length = (pre ++ w).length + 1 := by
    simp only [List.length_append, List.length_singleton]
    omega
  refine ⟨parser', ?_, hχ⟩
  rw [exec_append, hexec, Option.bind_some, exec, Loop.next_eq hm rfl hfold, hp, hend, htarget]
  rfl

end Takes

/-- A change of the request. -/
def modify (f : HttpRequest → HttpRequest) (t : Target) : Target := { t with m_data := f t.m_data }

/-- The state behind a text that has no action. -/
def quiet (uri_relaxed : Bool) : Nat → Bytes → Option Nat :=
  exec fun s b => (transition uri_relaxed s b).bind fun m =>
    if m.actions = [] ∧ m.done = false then some m.target else none

theorem reads_text {w : Bytes} (h : quiet uri_relaxed s w = some s') :
    Reads (Loop.next buffer) (In c s φ) {w} (In c s' φ) := by
  rintro l ⟨hcs, hφ⟩ w' hw'
  rw [Set.mem_singleton_iff.mp hw']
  clear hw'
  induction w generalizing s l with
  | nil =>
    cases h
    exact ⟨l, rfl, hcs, hφ⟩
  | cons b w ih =>
    obtain ⟨u, hu, h⟩ := Option.bind_eq_some_iff.mp h
    obtain ⟨m, hm, hu⟩ := Option.bind_eq_some_iff.mp hu
    obtain ⟨⟨hacts, hdone⟩, htarget⟩ := (Option.ite_none_right_eq_some ..).mp hu
    cases htarget
    have hstep := c.step hm
    rw [← hcs] at hstep
    have hnext : Loop.next buffer l b = some ⟨l.p + 1, c.state m.target, l.parser, l.target⟩ :=
      Loop.next_eq hstep hdone (by rw [hacts]; rfl)
    obtain ⟨l', hl', hin⟩ := ih h ⟨l.p + 1, c.state m.target, l.parser, l.target⟩ rfl hφ
    exact ⟨l', by rw [exec, hnext]; exact hl', hin⟩

/-! ## The request line -/

theorem take_drop_append (pre w rest : Bytes) :
    ((pre ++ w ++ rest).drop pre.length).take ((pre ++ w).length - pre.length) = w := by
  rw [List.append_assoc, List.drop_left, List.length_append, Nat.add_sub_cancel_left,
    List.take_left]

theorem reads_xdigit
    (h : (s, s') ∈ [(27, 28), (28, 26), (31, 32), (32, 30), (22, 23), (23, 21)]) :
    Reads (Loop.next buffer) (In c s φ) (letter (xdigit · = true)) (In c s' φ) :=
  reads_quiet fun _ hb => transition_xdigit h hb

/-- The first byte of an element is marked. -/
theorem reads_mark {p : UInt8 → Prop} {n : Nat} {t : Target} {χ : HttpParser M → Prop}
    (h : ∀ b, p b → transition uri_relaxed s b = some ⟨[.mark], false, s'⟩) :
    Reads (Loop.next buffer) (At c n s fun parser t' => χ parser ∧ t' = t) (letter p)
      (In c s' fun parser t' => parser.mark = n ∧ t' = t) :=
  reads_acts h fun _ _ ht => ⟨_, rfl, rfl, ht.2⟩

theorem reads_path {n : Nat} {t : Target} {χ : HttpParser M → Prop} : Reads (Loop.next buffer)
    (At c n 3 fun parser t' => χ parser ∧ t' = t) (path_absolute uri_relaxed)
    fun l => ∃ k, (k = 33 ∨ k = 26) ∧ In c k (fun parser t' => parser.mark = n ∧ t' = t) l := by
  have hslash : Reads (Loop.next buffer) (At c n 3 fun parser t' => χ parser ∧ t' = t)
      (letter (· = 47)) (In c 33 fun parser t' => parser.mark = n ∧ t' = t) :=
    reads_mark fun b hb => by subst hb; cases uri_relaxed <;> rfl
  have hpchar : ∀ k, k = 33 ∨ k = 26 → Reads (Loop.next buffer)
      (In c k fun parser t' => parser.mark = n ∧ t' = t) (pchar uri_relaxed)
      (In c 26 fun parser t' => parser.mark = n ∧ t' = t) := by
    intro k hk
    refine reads_pchar (reads_quiet fun b hb => ?_) (reads_quiet fun b hb => ?_)
      (reads_xdigit List.mem_cons_self)
      (reads_xdigit (List.mem_cons_of_mem _ List.mem_cons_self))
    · rcases hk with rfl | rfl <;> exact transition_plain (by simp) hb
    · subst hb
      rcases hk with rfl | rfl <;> cases uri_relaxed <;> rfl
  have hsegment : Reads (Loop.next buffer) (In c 26 fun parser t' => parser.mark = n ∧ t' = t)
      (letter (· = 47) * segment uri_relaxed)
      (In c 26 fun parser t' => parser.mark = n ∧ t' = t) :=
    .seq (reads_quiet fun b hb => by subst hb; cases uri_relaxed <;> rfl)
      (hpchar 26 (.inr rfl)).loop
  refine hslash.seq (.choice ?_ ?_)
  · exact Reads.skip.imp (fun _ h => h) fun l h => ⟨33, .inl rfl, h⟩
  · exact (((hpchar 33 (.inl rfl)).seq (hpchar 26 (.inr rfl)).loop).seq hsegment.loop).imp
      (fun _ h => h) fun l h => ⟨26, .inr rfl, h⟩

/-- A query, or a fragment, that is not empty: the first byte has the actions `as`. -/
theorem reads_chars {n x y : Nat} {as : List Action} (h : (s, as, s', x, y) ∈
      [(29, [Action.start_query], 30, 31, 32), (20, [Action.mark], 21, 22, 23)])
    (hacts : ∀ parser t, φ parser t → ∃ k,
      as.foldlM (HttpParser.act buffer n) (parser, t) = some k ∧ ψ k.1 k.2) :
    Reads (Loop.next buffer) (At c n s φ)
      ((pchar uri_relaxed + letter (· = 47) + letter (· = 63)) *
        (pchar uri_relaxed + letter (· = 47) + letter (· = 63))∗) (In c s' ψ) := by
  simp only [List.mem_cons, Prod.mk.injEq, List.not_mem_nil, or_false] at h
  have hplain : ∀ b, plain uri_relaxed b = true →
      transition uri_relaxed s b = some ⟨as, false, s'⟩ ∧
        transition uri_relaxed s' b = some ⟨[], false, s'⟩ := by
    intro b hb
    rcases h with ⟨rfl, rfl, rfl, -, -⟩ | ⟨rfl, rfl, rfl, -, -⟩ <;>
      exact ⟨transition_plain (by simp) hb, transition_plain (by simp) hb⟩
  have hother : ∀ b : UInt8, b = 47 ∨ b = 63 →
      transition uri_relaxed s b = some ⟨as, false, s'⟩ ∧
        transition uri_relaxed s' b = some ⟨[], false, s'⟩ := by
    rcases h with ⟨rfl, rfl, rfl, -, -⟩ | ⟨rfl, rfl, rfl, -, -⟩ <;> rintro b (rfl | rfl) <;>
      cases uri_relaxed <;> exact ⟨rfl, rfl⟩
  have hpct : ∀ b : UInt8, b = 37 → transition uri_relaxed s b = some ⟨as, false, x⟩ ∧
      transition uri_relaxed s' b = some ⟨[], false, x⟩ := by
    rcases h with ⟨rfl, rfl, rfl, rfl, -⟩ | ⟨rfl, rfl, rfl, rfl, -⟩ <;> rintro b rfl <;>
      cases uri_relaxed <;> exact ⟨rfl, rfl⟩
  have hfirst : Reads (Loop.next buffer) (In c x ψ) (letter (xdigit · = true)) (In c y ψ) :=
    reads_xdigit (by rcases h with ⟨-, -, -, rfl, rfl⟩ | ⟨-, -, -, rfl, rfl⟩ <;> simp)
  have hsecond : Reads (Loop.next buffer) (In c y ψ) (letter (xdigit · = true)) (In c s' ψ) :=
    reads_xdigit (by rcases h with ⟨-, -, rfl, -, rfl⟩ | ⟨-, -, rfl, -, rfl⟩ <;> simp)
  refine .seq (.choice (.choice ?_ ?_) ?_) (Reads.loop (.choice (.choice ?_ ?_) ?_))
  · exact reads_pchar (reads_acts (fun b hb => (hplain b hb).1) hacts)
      (reads_acts (fun b hb => (hpct b hb).1) hacts) hfirst hsecond
  · exact reads_acts (fun b hb => (hother b (.inl hb)).1) hacts
  · exact reads_acts (fun b hb => (hother b (.inr hb)).1) hacts
  · exact reads_pchar (reads_quiet fun b hb => (hplain b hb).2)
      (reads_quiet fun b hb => (hpct b hb).2) hfirst hsecond
  · exact reads_quiet fun b hb => (hother b (.inl hb)).2
  · exact reads_quiet fun b hb => (hother b (.inr hb)).2

namespace Takes

/-- A text of which the first byte is marked, and nothing else is done before the delimiter. -/
theorem marked (as : List Action) {w : Bytes} {b d : UInt8} {k x : Nat} {f : Target → Target}
    (hb : w.head? = some b)
    (hfirst : transition uri_relaxed s b = some ⟨[.mark], false, x⟩)
    (htail : quiet uri_relaxed x w.tail = some k)
    (hend : transition uri_relaxed k d = some ⟨as, false, s'⟩)
    (hacts : ∀ pre rest (parser : HttpParser M) t, parser.mark = pre.length →
      as.foldlM (HttpParser.act (pre ++ w ++ d :: rest) (pre ++ w).length) (parser, t) =
        some (parser, f t)) :
    Takes c s Any (w ++ [d]) s' Any f := by
  have hw : w ∈ letter (· = b) * ({w.tail} : Language UInt8) :=
    Language.mem_mul.mpr ⟨[b], mem_letter.mpr rfl, w.tail, rfl, List.cons_head?_tail hb⟩
  refine element as (K := (· = k)) (ψ := fun pre parser => parser.mark = pre.length) hw
    (fun buffer pre t => ?_) (fun k' hk' => hk' ▸ hend) fun pre rest parser t hmark =>
      ⟨parser, hacts pre rest parser t hmark, trivial⟩
  exact ((reads_mark fun b' hb' => hb' ▸ hfirst).seq (reads_text htail)).imp (fun _ h => h)
    fun l h => ⟨k, rfl, h⟩

/-- Every name of a method, but that of `MSEARCH`. -/
theorem method {e : HttpMethod × String} (he : e ∈ HTTP_METHOD_MAP) (hne : e.1 ≠ .MSEARCH) :
    Takes c 1 Any (ascii e.2 ++ [32]) 3 Any (modify fun r => { r with m_method := e.1 }) := by
  have hnames : ∀ e ∈ HTTP_METHOD_MAP, e.1 ≠ .MSEARCH →
      ((ascii e.2).head?.any fun b =>
          transition uri_relaxed 1 b = some ⟨[.mark], false, 2⟩) = true ∧
        ((quiet uri_relaxed 2 (ascii e.2).tail).any fun k =>
          transition uri_relaxed k 32 = some ⟨[.request_method], false, 3⟩) = true := by
    cases uri_relaxed <;> decide +kernel
  obtain ⟨hhead, htail⟩ := hnames e he hne
  obtain ⟨b, hb, hfirst⟩ := Option.any_eq_true _ _ |>.mp hhead
  obtain ⟨k, hk, hend⟩ := Option.any_eq_true _ _ |>.mp htail
  rw [decide_eq_true_eq] at hfirst hend
  refine marked _ hb hfirst hk hend fun pre rest parser t hmark => ?_
  have hchars : CharsToHttpMethod (ascii e.2 ++ 32 :: rest) = e.1 := CharsToHttpMethod_name he
  have hdrop : (pre ++ ascii e.2 ++ 32 :: rest).drop parser.mark = ascii e.2 ++ 32 :: rest := by
    rw [hmark, List.append_assoc, List.drop_left]
  have hvalid : CharsToHttpMethod (ascii e.2 ++ 32 :: rest) ≠ .INVALID_METHOD := by
    rw [hchars]
    exact methods_valid e he
  rw [List.foldlM_cons, HttpParser.act, hdrop, Target.on_request_method_of_valid hvalid, hchars]
  rfl

theorem path {w : Bytes} (hw : w ∈ path_absolute uri_relaxed) {d : UInt8} {as : List Action}
    (hd : (d, as, s') ∈ [((32 : UInt8), [Action.request_path, .request_uri], 4),
      (35, [.request_path, .request_uri], 20), (63, [.request_path], 29)]) :
    Takes c 3 Any (w ++ [d]) s' Any (modify fun r => { r with m_path := w }) := by
  simp only [List.mem_cons, Prod.mk.injEq, List.not_mem_nil, or_false] at hd
  refine element as (ψ := fun pre parser => parser.mark = pre.length) hw
    (fun buffer pre t => reads_path) ?_ fun pre rest parser t hmark => ⟨parser, ?_, trivial⟩
  · rintro k (rfl | rfl) <;> rcases hd with ⟨rfl, rfl, rfl⟩ | ⟨rfl, rfl, rfl⟩ | ⟨rfl, rfl, rfl⟩ <;>
      cases uri_relaxed <;> rfl
  · have htext := take_drop_append pre w (d :: rest)
    rcases hd with ⟨rfl, rfl, rfl⟩ | ⟨rfl, rfl, rfl⟩ | ⟨rfl, rfl, rfl⟩ <;>
      rw [List.foldlM_cons, HttpParser.act, hmark, Target.on_request_path, htext] <;> rfl

theorem query {w : Bytes} (hw : w ∈ Grammar.query uri_relaxed) (hne : w ≠ []) {d : UInt8}
    (hd : (d, s') ∈ [((32 : UInt8), 4), (35, 20)]) :
    Takes c 29 Any (w ++ [d]) s' Any (modify fun r => { r with m_query := w }) := by
  simp only [List.mem_cons, Prod.mk.injEq, List.not_mem_nil, or_false] at hd
  refine element [.query_string, .request_uri] (K := (· = 30))
    (ψ := fun pre parser => parser.query_start = some pre.length) (mem_mul_kstar hw hne)
    (fun buffer pre t => ?_) ?_ fun pre rest parser t hstart => ⟨parser, ?_, trivial⟩
  · exact (reads_chars List.mem_cons_self fun _ _ ht => ⟨_, rfl, rfl, ht.2⟩).imp (fun _ h => h)
      fun l h => ⟨30, rfl, h⟩
  · rintro k rfl
    rcases hd with ⟨rfl, rfl⟩ | ⟨rfl, rfl⟩ <;> cases uri_relaxed <;> rfl
  · have htext := take_drop_append pre w (d :: rest)
    have hle : pre.length ≤ (pre ++ w).length := (List.prefix_append pre w).length_le
    rw [List.foldlM_cons, HttpParser.act, hstart]
    dsimp only
    rw [if_pos hle, Target.on_request_query, htext]
    rfl

theorem fragment {w : Bytes} (hw : w ∈ Grammar.fragment uri_relaxed) (hne : w ≠ []) :
    Takes c 20 Any (w ++ [32]) 4 Any (modify fun r => { r with m_fragment := w }) := by
  refine element [.fragment] (K := (· = 21)) (ψ := fun pre parser => parser.mark = pre.length)
    (mem_mul_kstar hw hne) (fun buffer pre t => ?_) ?_
    fun pre rest parser t hmark => ⟨parser, ?_, trivial⟩
  · exact (reads_chars (List.mem_cons_of_mem _ List.mem_cons_self) fun _ _ ht =>
      ⟨_, rfl, rfl, ht.2⟩).imp (fun _ h => h) fun l h => ⟨21, rfl, h⟩
  · rintro k rfl
    cases uri_relaxed <;> rfl
  · have htext := take_drop_append pre w (32 :: rest)
    rw [List.foldlM_cons, HttpParser.act, hmark, Target.on_request_fragment, htext]
    rfl

theorem version {w : Bytes} {v : UInt8}
    (hw : (w, v) ∈ [(ascii "HTTP/1.1", (0x11 : UInt8)), (ascii "HTTP/1.0", 0x10)]) :
    Takes c 4 Any (w ++ [13]) 17 Any (modify fun r => { r with m_version := v }) := by
  simp only [List.mem_cons, Prod.mk.injEq, List.not_mem_nil, or_false] at hw
  have hb : w.head? = some 72 := by
    rcases hw with ⟨rfl, rfl⟩ | ⟨rfl, rfl⟩ <;> rfl
  have htail : quiet uri_relaxed 5 w.tail = some 12 := by
    rcases hw with ⟨rfl, rfl⟩ | ⟨rfl, rfl⟩ <;> cases uri_relaxed <;> decide +kernel
  refine marked [.http_version] hb (by cases uri_relaxed <;> rfl) htail
    (by cases uri_relaxed <;> rfl) fun pre rest parser t hmark => ?_
  have htext := take_drop_append pre w (13 :: rest)
  rw [List.foldlM_cons, HttpParser.act, hmark, Target.on_request_version, strncmpEq, strncmpEq,
    htext, List.length_append, Nat.add_sub_cancel_left]
  rcases hw with ⟨rfl, rfl⟩ | ⟨rfl, rfl⟩
  · rw [if_pos (by decide)]
    rfl
  · rw [if_neg (by decide), if_pos (by decide)]
    rfl

/-! ## A header -/

/-- The name of a header has been read. -/
def Named (name : Bytes) (pre : Bytes) (parser : HttpParser M) : Prop :=
  ∃ before after, pre = before ++ (name ++ after) ∧ parser.field_start = before.length ∧
    parser.field_len = name.length

theorem name {w : Bytes} (hw : ∀ b ∈ w, (alpha b || digit b || b = 45) = true) (hne : w ≠ []) :
    Takes c 13 Any (w ++ [58]) 15 (Named w) id := by
  have hmem : w ∈ letter (fun b : UInt8 => (alpha b || digit b || b = 45) = true) *
      (letter (fun b : UInt8 => (alpha b || digit b || b = 45) = true))∗ :=
    mem_mul_kstar (mem_kstar_of_letters fun b hb => mem_letter.mpr (hw b hb)) hne
  refine element [.write_field] (K := (· = 14))
    (ψ := fun pre parser => parser.field_start = pre.length) hmem (fun buffer pre t => ?_) ?_
    fun pre rest parser t hstart => ⟨_, rfl, pre, [58], rfl, hstart, ?_⟩
  · exact ((reads_acts (fun b hb => (transition_name b hb).1) fun _ _ ht => ⟨_, rfl, rfl, ht.2⟩).seq
      (reads_quiet fun b hb => (transition_name b hb).2).loop).imp (fun _ h => h)
      fun l h => ⟨14, rfl, h⟩
  · rintro k rfl
    cases uri_relaxed <;> rfl
  · rw [hstart, List.length_append, Nat.add_sub_cancel_left]

theorem act_write_value (parser : HttpParser M) {name pre : Bytes} (value rest : Bytes)
    (hne : name ≠ []) (hname : Named name pre parser) (hmark : parser.mark = pre.length)
    (t : Target) :
    HttpParser.act (pre ++ value ++ rest) (pre ++ value).length (parser, t) .write_value =
      some (parser, modify (fun r => r.setHeader name value) t) := by
  obtain ⟨before, after, rfl, hstart, hlen⟩ := hname
  have hle : before.length + name.length ≤ (before ++ (name ++ after) ++ value).length := by
    simp only [List.length_append]
    omega
  have hfield : ((before ++ (name ++ after) ++ value ++ rest).drop before.length).take
      name.length = name := by
    simp only [List.append_assoc, List.drop_left, List.take_left]
  have hvalue := take_drop_append (before ++ (name ++ after)) value rest
  have hpos : name.length ≠ 0 := fun h => hne (List.length_eq_zero_iff.mp h)
  rw [HttpParser.act, hstart, hlen, hmark, if_pos hle, Target.on_request_http_field, if_neg hpos,
    hfield, hvalue]
  rfl

theorem blank {n : Bytes} : Takes c 15 (Named (M := M) n) [32] 15 (Named n) id := by
  refine byte [.start_value] (by cases uri_relaxed <;> rfl) ?_
  rintro pre rest parser t ⟨before, after, rfl, hstart, hlen⟩
  exact ⟨_, rfl, before, after ++ [32], by simp only [List.append_assoc], hstart, hlen⟩

theorem no_value {n : Bytes} (hn : n ≠ []) :
    Takes c 15 (Named n) [13] 17 Any (modify fun r => r.setHeader n []) := by
  refine byte [.start_value, .write_value] (by cases uri_relaxed <;> rfl) ?_
  intro pre rest parser t hname
  have hact := act_write_value { parser with mark := pre.length } [] (13 :: rest) hn hname rfl t
  rw [List.append_nil] at hact
  refine ⟨{ parser with mark := pre.length }, ?_, trivial⟩
  rw [List.foldlM_cons, HttpParser.act, Option.bind_eq_bind, Option.bind_some, List.foldlM_cons,
    hact]
  rfl

theorem some_value {n w : Bytes} {b : UInt8} (hn : n ≠ []) (hb : (32 ≤ b ∧ b ≤ 126) ∧ b ≠ 32)
    (hw : ∀ b ∈ w, 32 ≤ b ∧ b ≤ 126) :
    Takes c 15 (Named n) (b :: w ++ [13]) 17 Any (modify fun r => r.setHeader n (b :: w)) := by
  have hmem : b :: w ∈ letter (fun b : UInt8 => (32 ≤ b ∧ b ≤ 126) ∧ b ≠ 32) *
      (letter (fun b : UInt8 => 32 ≤ b ∧ b ≤ 126))∗ :=
    Language.mem_mul.mpr ⟨[b], mem_letter.mpr hb, w,
      mem_kstar_of_letters fun b' hb' => mem_letter.mpr (hw b' hb'), rfl⟩
  refine element [.write_value] (K := (· = 16))
    (ψ := fun pre parser => Named n pre parser ∧ parser.mark = pre.length) hmem
    (fun buffer pre t => ?_) ?_ fun pre rest parser t hname => ⟨parser, ?_, trivial⟩
  · refine Reads.imp (.seq (reads_acts
      (fun b hb => (transition_value b hb.1.1 hb.1.2).1 hb.2) ?_)
      (reads_quiet fun b hb => (transition_value b hb.1 hb.2).2).loop) (fun _ h => h)
      fun l h => ⟨16, rfl, h⟩
    exact fun parser t' ht => ⟨_, rfl, ⟨ht.1, rfl⟩, ht.2⟩
  · rintro k rfl
    cases uri_relaxed <;> rfl
  · rw [List.foldlM_cons, act_write_value parser (b :: w) (13 :: rest) hn hname.1 hname.2]
    rfl

/-- Blanks before the value are not part of it. -/
theorem value {n w : Bytes} (hn : n ≠ []) (hw : ∀ b ∈ w, 32 ≤ b ∧ b ≤ 126) :
    Takes c 15 (Named n) (w ++ [13]) 17 Any
      (modify fun r => r.setHeader n (w.dropWhile (· = 32))) := by
  induction w with
  | nil => exact no_value hn
  | cons b w ih =>
    have hw' : ∀ b ∈ w, 32 ≤ b ∧ b ≤ 126 := fun b' hb' => hw b' (List.mem_cons_of_mem b hb')
    by_cases hb : b = 32
    · subst hb
      exact blank.append (ih hw')
    · rw [List.dropWhile_cons_of_neg (by simpa using hb)]
      exact some_value hn ⟨hw b List.mem_cons_self, hb⟩ hw'

theorem line_feed : Takes (M := M) c 17 Any [10] 13 Any id :=
  byte [] (by cases uri_relaxed <;> rfl) fun _ _ parser _ _ => ⟨parser, rfl, trivial⟩

theorem header {n w : Bytes} (hn : ∀ b ∈ n, (alpha b || digit b || b = 45) = true) (hne : n ≠ [])
    (hw : ∀ b ∈ w, 32 ≤ b ∧ b ≤ 126) :
    Takes c 13 Any (n ++ [58] ++ (w ++ [13]) ++ [10]) 13 Any
      (modify fun r => r.setHeader n (w.dropWhile (· = 32))) :=
  ((name hn hne).append (value hne hw)).append line_feed

end Takes

end Grammar

end Captain.Http
