import Captain.Http.Parser
import Captain.Reads

/-!
# What the generated automaton reads (`captain/http/http11_parser.rl`)

The rules for an absolute path, a query and a fragment, as languages. `requestCases` is what the
`switch` of `http11_parser.rl.cpp` does with a request that has them in its request line, and such
headers as `HttpRequest::dump` prints; an automaton that has these transitions is `Contained`.
-/

namespace Captain.Http

open Transition
open Computability

namespace Grammar

/-! ## The rules -/

def upper (b : UInt8) : Bool := 65 ≤ b && b ≤ 90

def lower (b : UInt8) : Bool := 97 ≤ b && b ≤ 122

def digit (b : UInt8) : Bool := 48 ≤ b && b ≤ 57

def alpha (b : UInt8) : Bool := upper b || lower b

def xdigit (b : UInt8) : Bool := digit b || (65 ≤ b && b ≤ 70) || (97 ≤ b && b ≤ 102)

variable (uri_relaxed : Bool)

/-- One of `{}^`. -/
def more_delims (b : UInt8) : Bool := uri_relaxed && [123, 125, 94].contains b

/-- One of `!$&'()*+,;=`, or a delimiter more. -/
def sub_delims (b : UInt8) : Bool :=
  [33, 36, 38, 39, 40, 41, 42, 43, 44, 59, 61].contains b || more_delims uri_relaxed b

/-- A letter, a digit or one of `-._~`. -/
def unreserved (b : UInt8) : Bool := alpha b || digit b || [45, 46, 95, 126].contains b

def pct_encoded : Language UInt8 :=
  letter (· = 37) * letter (xdigit · = true) * letter (xdigit · = true)

def pchar : Language UInt8 :=
  letter (unreserved · = true) + pct_encoded + letter (sub_delims uri_relaxed · = true) +
    letter (· = 58) + letter (· = 64)

def fragment : Language UInt8 := (pchar uri_relaxed + letter (· = 47) + letter (· = 63))∗

def query : Language UInt8 := (pchar uri_relaxed + letter (· = 47) + letter (· = 63))∗

def segment_nz : Language UInt8 := pchar uri_relaxed * (pchar uri_relaxed)∗

def segment : Language UInt8 := (pchar uri_relaxed)∗

def path_absolute : Language UInt8 :=
  letter (· = 47) * (1 + segment_nz uri_relaxed * (letter (· = 47) * segment uri_relaxed)∗)

/-! ## The switch over the states -/

/-- Bytes from `lo` to `hi` of a state. -/
structure Case where
  lo : UInt8
  hi : UInt8
  move : Move Nat

/-- The bytes of `pchar` that stand for themselves. -/
def pcharCases (actions : List Action) (target : Nat) : List Case :=
  [⟨33, 33, actions, false, target⟩, ⟨36, 36, actions, false, target⟩,
    ⟨38, 46, actions, false, target⟩, ⟨48, 59, actions, false, target⟩,
    ⟨61, 61, actions, false, target⟩, ⟨64, 90, actions, false, target⟩,
    ⟨95, 95, actions, false, target⟩, ⟨97, 122, actions, false, target⟩,
    ⟨126, 126, actions, false, target⟩] ++
  if uri_relaxed then
    [⟨94, 94, actions, false, target⟩, ⟨123, 123, actions, false, target⟩,
      ⟨125, 125, actions, false, target⟩]
  else []

def xdigitCases (target : Nat) : List Case :=
  [⟨48, 57, [], false, target⟩, ⟨65, 70, [], false, target⟩, ⟨97, 102, [], false, target⟩]

def pathEndCases : List Case :=
  [⟨32, 32, [.request_path, .request_uri], false, 4⟩,
    ⟨35, 35, [.request_path, .request_uri], false, 20⟩, ⟨63, 63, [.request_path], false, 29⟩]

/-- The state behind `n + 1` bytes of the method. -/
def methodState : Nat → Nat
  | 0 => 2
  | n + 1 => 175 + n

def methodCases (n : Nat) : List Case :=
  ⟨32, 32, [.request_method], false, 3⟩ ::
  if n < 19 then
    [⟨48, 57, [], false, methodState (n + 1)⟩, ⟨65, 90, [], false, methodState (n + 1)⟩]
  else []

def nameCases (actions : List Action) : List Case :=
  [⟨45, 45, actions, false, 14⟩, ⟨48, 57, actions, false, 14⟩, ⟨65, 90, actions, false, 14⟩,
    ⟨97, 122, actions, false, 14⟩]

/-- The states that such a request leads to, and in each of them the bytes that it has there:
letters, digits and dashes in the name of a header, printable ones in its value, `\r\n` behind a
line. -/
def requestCases : List (Nat × List Case) :=
  [(1, [⟨48, 57, [.mark], false, 2⟩, ⟨65, 90, [.mark], false, 2⟩]),
    (3, [⟨47, 47, [.mark], false, 33⟩]),
    (33, pathEndCases ++ ⟨37, 37, [], false, 27⟩ :: pcharCases uri_relaxed [] 26),
    (26, pathEndCases ++ ⟨37, 37, [], false, 27⟩ :: ⟨47, 47, [], false, 26⟩ ::
      pcharCases uri_relaxed [] 26),
    (27, xdigitCases 28), (28, xdigitCases 26),
    (29, ⟨37, 37, [.start_query], false, 31⟩ :: ⟨47, 47, [.start_query], false, 30⟩ ::
      ⟨63, 63, [.start_query], false, 30⟩ :: pcharCases uri_relaxed [.start_query] 30),
    (30, ⟨32, 32, [.query_string, .request_uri], false, 4⟩ ::
      ⟨35, 35, [.query_string, .request_uri], false, 20⟩ :: ⟨37, 37, [], false, 31⟩ ::
      ⟨47, 47, [], false, 30⟩ :: ⟨63, 63, [], false, 30⟩ :: pcharCases uri_relaxed [] 30),
    (31, xdigitCases 32), (32, xdigitCases 30),
    (20, ⟨37, 37, [.mark], false, 22⟩ :: ⟨47, 47, [.mark], false, 21⟩ ::
      ⟨63, 63, [.mark], false, 21⟩ :: pcharCases uri_relaxed [.mark] 21),
    (21, ⟨32, 32, [.fragment], false, 4⟩ :: ⟨37, 37, [], false, 22⟩ :: ⟨47, 47, [], false, 21⟩ ::
      ⟨63, 63, [], false, 21⟩ :: pcharCases uri_relaxed [] 21),
    (22, xdigitCases 23), (23, xdigitCases 21),
    (4, [⟨72, 72, [.mark], false, 5⟩]), (5, [⟨84, 84, [], false, 6⟩]),
    (6, [⟨84, 84, [], false, 7⟩]), (7, [⟨80, 80, [], false, 8⟩]), (8, [⟨47, 47, [], false, 9⟩]),
    (9, [⟨49, 49, [], false, 10⟩]), (10, [⟨46, 46, [], false, 11⟩]),
    (11, [⟨48, 49, [], false, 12⟩]), (12, [⟨13, 13, [.http_version], false, 17⟩]),
    (17, [⟨10, 10, [], false, 13⟩]),
    (13, ⟨13, 13, [.start_field], false, 18⟩ :: nameCases [.start_field]),
    (14, ⟨58, 58, [.write_field], false, 15⟩ :: nameCases []),
    (15, [⟨13, 13, [.start_value, .write_value], false, 17⟩, ⟨32, 32, [.start_value], false, 15⟩,
      ⟨33, 126, [.start_value], false, 16⟩]),
    (16, [⟨13, 13, [.write_value], false, 17⟩, ⟨32, 126, [], false, 16⟩]),
    (18, [⟨10, 10, [], true, 348⟩])] ++
  (List.range 20).map fun n => (methodState n, methodCases n)

def transition (s : Nat) (b : UInt8) : Option (Move Nat) :=
  ((requestCases uri_relaxed).lookup s).bind fun cs =>
    (cs.find? fun c => c.lo ≤ b && b ≤ c.hi).map (·.move)

deriving instance DecidableEq for Move

/-- The automaton has these transitions, and no others in the state behind the first byte of the
method. -/
structure Contained (M : Machine) where
  state : Nat → M.State
  start : state 1 = M.start
  step : ∀ {s b m}, transition uri_relaxed s b = some m →
    M.step (state s) b = some ⟨m.actions, m.done, state m.target⟩
  method : ∀ {b}, transition uri_relaxed 2 b = none → M.step (state 2) b = none

theorem mem_of_lookup {l : List (Nat × List Case)} {s : Nat} {cs : List Case}
    (h : l.lookup s = some cs) : (s, cs) ∈ l := by
  obtain ⟨l₁, l₂, rfl, -⟩ := List.lookup_eq_some_iff.mp h
  exact List.mem_append_right _ List.mem_cons_self

theorem exists_case {s : Nat} {b : UInt8} {m : Move Nat}
    (h : transition uri_relaxed s b = some m) :
    ∃ e ∈ requestCases uri_relaxed, ∃ c ∈ e.2, c.lo ≤ b ∧ b ≤ c.hi ∧ c.move = m := by
  obtain ⟨cs, hcs, h⟩ := Option.bind_eq_some_iff.mp h
  obtain ⟨c, hc, hm⟩ := Option.map_eq_some_iff.mp h
  have hrange := List.find?_some hc
  rw [Bool.and_eq_true, decide_eq_true_eq, decide_eq_true_eq] at hrange
  exact ⟨(s, cs), mem_of_lookup hcs, c, List.mem_of_find?_eq_some hc, hrange.1,
    hrange.2, hm⟩

theorem final_iff_done {s : Nat} {b : UInt8} {m : Move Nat}
    (h : transition uri_relaxed s b = some m) :
    decide (http_parser_first_final ≤ m.target) = m.done := by
  obtain ⟨e, he, c, hc, -, -, rfl⟩ := exists_case uri_relaxed h
  have hall : ∀ e ∈ requestCases uri_relaxed, ∀ c ∈ e.2,
      decide (http_parser_first_final ≤ c.move.target) = c.move.done := by
    cases uri_relaxed <;> decide +kernel
  exact hall e he c hc

theorem space_of_request_method {s : Nat} {b : UInt8} {m : Move Nat}
    (h : transition uri_relaxed s b = some m) (hmem : Action.request_method ∈ m.actions) :
    b = 32 := by
  obtain ⟨e, he, c, hc, hlo, hhi, rfl⟩ := exists_case uri_relaxed h
  have hall : ∀ e ∈ requestCases uri_relaxed, ∀ c ∈ e.2,
      Action.request_method ∈ c.move.actions → c.lo = 32 ∧ c.hi = 32 := by
    cases uri_relaxed <;> decide +kernel
  obtain ⟨hlo', hhi'⟩ := hall e he c hc hmem
  exact UInt8.le_antisymm (hhi' ▸ hhi) (hlo' ▸ hlo)

theorem final_start : decide (http_parser_first_final ≤ http_parser_start) = false := rfl

/-- The transitions as an automaton; a byte of which nothing is said is an error. -/
def machine : Machine where
  State := Nat
  start := http_parser_start
  final s := http_parser_first_final ≤ s
  step := transition uri_relaxed
  start_final := final_start
  target_final := final_iff_done uri_relaxed
  method_space := space_of_request_method uri_relaxed

def contained : Contained uri_relaxed (machine uri_relaxed) := ⟨id, rfl, id, id⟩

/-! ## The bytes of the rules -/

/-- What `pchar` is but for `pct_encoded`. -/
def plain (b : UInt8) : Bool :=
  unreserved b || sub_delims uri_relaxed b || b = 58 || b = 64

variable {uri_relaxed}

theorem forall_byte {p : UInt8 → Prop} (h : ∀ n : Fin 256, p (.ofFin n)) : ∀ b, p b :=
  fun b => h b.toFin

theorem transition_plain {s t : Nat} {as : List Action} (h : (s, as, t) ∈
      [(33, [], 26), (26, [], 26), (29, [.start_query], 30), (30, [], 30), (20, [.mark], 21),
        (21, [], 21)]) {b : UInt8} (hb : plain uri_relaxed b = true) :
    transition uri_relaxed s b = some ⟨as, false, t⟩ := by
  have hall : ∀ b, plain uri_relaxed b = true →
      ∀ e ∈ [(33, [], 26), (26, [], 26), (29, [.start_query], 30), (30, [], 30), (20, [.mark], 21),
        (21, [], 21)], transition uri_relaxed e.1 b = some ⟨e.2.1, false, e.2.2⟩ := by
    apply forall_byte
    cases uri_relaxed <;> decide +kernel
  exact hall b hb _ h

theorem transition_xdigit {s t : Nat}
    (h : (s, t) ∈ [(27, 28), (28, 26), (31, 32), (32, 30), (22, 23), (23, 21)]) {b : UInt8}
    (hb : xdigit b = true) : transition uri_relaxed s b = some ⟨[], false, t⟩ := by
  have hall : ∀ b, xdigit b = true →
      ∀ e ∈ [(27, 28), (28, 26), (31, 32), (32, 30), (22, 23), (23, 21)],
        transition uri_relaxed e.1 b = some ⟨[], false, e.2⟩ := by
    apply forall_byte
    cases uri_relaxed <;> decide +kernel
  exact hall b hb _ h

theorem transition_name : ∀ b : UInt8, (alpha b || digit b || b = 45) = true →
    transition uri_relaxed 13 b = some ⟨[.start_field], false, 14⟩ ∧
      transition uri_relaxed 14 b = some ⟨[], false, 14⟩ := by
  apply forall_byte
  cases uri_relaxed <;> decide +kernel

theorem transition_value : ∀ b : UInt8, 32 ≤ b → b ≤ 126 →
    (b ≠ 32 → transition uri_relaxed 15 b = some ⟨[.start_value], false, 16⟩) ∧
      transition uri_relaxed 16 b = some ⟨[], false, 16⟩ := by
  apply forall_byte
  cases uri_relaxed <;> decide +kernel

end Grammar

end Captain.Http
