import Captain.Http.Client

/-!
# The states of the client automaton

The transitions of `httpclient_parser.rl.cpp` that a head takes, by the part of it that is read. The
automaton spells the names `Connection`, `Content-Length` and `Transfer-Encoding` and the values
`close` and `chunked` in states of their own.
-/

namespace Captain.Http

open Scanner

namespace Client

def within (ranges : List (Nat × Nat)) (b : UInt8) : Bool :=
  ranges.any fun (lo, hi) => lo ≤ b.toNat && b.toNat ≤ hi

def isToken : UInt8 → Bool := within tokens

def isBlank : UInt8 → Bool := within blanks

def lower (w : Bytes) : Bytes := w.map tolower

/-! ## Names and values that the grammar knows -/

/-- The states from `s` on, and the parts of `text` that lead to them, from `n + 1` letters on. -/
def parts (s n : Nat) (text : Bytes) : List (Nat × Bytes) :=
  (List.range (text.length - n)).map fun i => (s + i, text.take (n + 1 + i))

/-- The states of a name that is, so far, one of the three. -/
def nameParts : List (Nat × Bytes) :=
  [(73, ascii "c"), (90, ascii "c")] ++ parts 25 0 (ascii "connection") ++
    parts 101 3 (ascii "content-length") ++ parts 44 0 (ascii "transfer-encoding")

def nameStates : List Nat :=
  [21, 117] ++ List.range' 25 10 ++ List.range' 44 17 ++ List.range' 73 7 ++ List.range' 90 5 ++
    List.range' 101 11

/-- The same for the value of a field whose values start in the state `k`. -/
def valueParts (k : Nat) : List (Nat × Bytes) :=
  if k = 35 then parts 96 0 (ascii "close")
  else if k = 61 then parts 81 0 (ascii "chunked") else []

def valueStates (k : Nat) : List Nat := 23 :: (valueParts k).map (·.1)

def words (l : List (Nat × Bytes)) : List Bytes := l.map (·.2)

/-- The states at the beginning of a line. -/
def lineStates : List Nat := [20, 43, 36, 62, 113]

/-- Where the value of a field starts. -/
def valueStart (name : Option Bytes) : Nat :=
  if name = some (ascii "connection") then 35
  else if name = some (ascii "transfer-encoding") then 61
  else if name = some (ascii "content-length") then 112 else 22

def valueStarts : List Nat := [22, 35, 61, 112]

def startActions (s : Nat) : List (List ClientAction) :=
  if s = 43 then [[.write_connection_close, .start_field]]
  else [[.start_field], [.start_value, .start_field]]

/-! ## Bytes -/

theorem forall_byte {p : UInt8 → Prop} (h : ∀ n : Fin 256, p (.ofFin n)) : ∀ b, p b :=
  fun b => h b.toFin

/-- The digits of the grammar are those that `strtol` reads. -/
theorem digits_spec : ∀ b : UInt8, (within digits b = true ↔ digitValue b < 10) ∧
    (within xdigits b = true → digitValue b < 16) ∧
    (isDigit b = true → within digits b = true ∧ digitValue b = b.toNat - 48) ∧
    (within digits b = true → (b ≠ 10 ∧ b ≠ 13) ∧ isBlank b = false) ∧
    (digitValue b < 36 → isspace b = false ∧ b ≠ 45 ∧ b ≠ 43) ∧
    (digitValue b < 16 → tolower b ≠ 120) := by
  apply forall_byte
  decide +kernel

/-! ## The table -/

/-- There is a transition, not the last one, of which `p` holds. -/
def Steps (s : Nat) (b : UInt8) (p : List ClientAction → Nat → Bool) : Bool :=
  (transition s b).any fun m => !m.done && p m.actions m.target

theorem Steps.elim {s : Nat} {b : UInt8} {p : List ClientAction → Nat → Bool}
    (h : Steps s b p = true) :
    ∃ m, transition s b = some m ∧ m.done = false ∧ p m.actions m.target = true := by
  obtain ⟨m, hm, hp⟩ := Option.any_eq_true _ _ |>.mp h
  rw [Bool.and_eq_true, Bool.not_eq_true'] at hp
  exact ⟨m, hm, hp.1, hp.2⟩

theorem steps_digit : ∀ b : UInt8, within digits b = true →
    (∀ e ∈ [(12, 13), (13, 13), (14, 15), (15, 15), (17, 17)],
      transition e.1 b = some ⟨[], false, e.2⟩) ∧ transition 16 b = some ⟨[.mark], false, 17⟩ := by
  apply forall_byte
  decide +kernel

theorem steps_reason : ∀ b : UInt8, b ≠ 10 → b ≠ 13 →
    transition 18 b = some ⟨[.mark], false, 19⟩ ∧ transition 19 b = some ⟨[], false, 19⟩ := by
  apply forall_byte
  decide +kernel

theorem steps_token : ∀ b, isToken b = true →
    (∀ s ∈ lineStates, Steps s b fun as s' =>
      (startActions s).contains as && nameStates.contains s' &&
        nameParts.lookup s' == known (words nameParts) [tolower b]) ∧
      ∀ s ∈ nameStates, Steps s b fun as s' =>
        as == [] && nameStates.contains s' && nameParts.lookup s' ==
          (nameParts.lookup s).bind fun u =>
            if tolower b ∈ following (words nameParts) u then some (u ++ [tolower b])
            else none := by
  apply forall_byte
  decide +kernel

theorem steps_colon : ∀ s ∈ nameStates, transition s 58 =
    some ⟨[.write_field], false, valueStart (nameParts.lookup s)⟩ := by
  decide

theorem prefixClosed_name : PrefixClosed (words nameParts) := by
  unfold PrefixClosed
  decide

/-- Behind the line of a field: the state for a name and for its value. -/
def crState (k : Nat) : Nat := if k = 35 then 95 else if k = 61 then 80 else
  if k = 112 then 118 else 24

/-- The state behind a value, for a field whose values start in `k`. -/
def valueState (k : Nat) (v : Bytes) : Nat → Bool := fun s =>
  if k = 112 then s == if v.all (within digits) then 119 else 23
  else
    (valueStates k).contains s &&
      (valueParts k).lookup s == known (words (valueParts k)) (lower v)

theorem steps_blank : ∀ b, isBlank b = true → ∀ k ∈ valueStarts,
    transition k b = some ⟨[.start_value], false, k⟩ := by
  apply forall_byte
  decide +kernel

theorem steps_value : ∀ b : UInt8, b ≠ 10 → b ≠ 13 →
    (isBlank b = false → ∀ k ∈ valueStarts,
      Steps k b fun as s' => as == [.start_value] && valueState k [b] s') ∧
    (∀ k ∈ [22, 35, 61], ∀ s ∈ valueStates k, Steps s b fun as s' =>
      as == [] && (valueStates k).contains s' &&
        (valueParts k).lookup s' == ((valueParts k).lookup s).bind fun u =>
          if tolower b ∈ following (words (valueParts k)) u then some (u ++ [tolower b])
          else none) ∧
    ∀ s ∈ [23, 119], transition s b =
      some ⟨[], false, if s = 119 ∧ within digits b = true then 119 else 23⟩ := by
  apply forall_byte
  decide +kernel

theorem prefixClosed_value : ∀ k ∈ [22, 35, 61], PrefixClosed (words (valueParts k)) := by
  unfold PrefixClosed
  decide

theorem steps_crlf : ∀ k ∈ valueStarts,
    transition k 13 = some ⟨[.start_value, .write_value], false, crState k⟩ := by
  decide

/-! ## The ends of lines -/

def closingStates : List Nat := [24, 71, 88, 95, 80, 118]

/-- The state behind the line feed. -/
def lfState (s : Nat) : Nat :=
  if s = 88 then 43 else if s = 95 then 36 else if s = 80 then 62 else if s = 118 then 113 else 20

theorem steps_lf : ∀ s ∈ closingStates,
    transition s 10 = some ⟨if s = 71 then [.trans_chunked] else [], false, lfState s⟩ := by
  decide

theorem steps_end : ∀ s ∈ [23, 119] ++ valueStates 35 ++ valueStates 61, transition s 13 =
    some ⟨if s = 119 then [.write_content_len, .write_value] else [.write_value], false,
      if s = 87 then 71 else if s = 100 then 88 else 24⟩ := by
  decide

/-- The state behind the carriage return of an empty line. -/
def stopState (line : Nat) : Nat :=
  if line = 36 then 89 else if line = 62 then 72 else if line = 113 then 116 else 3

/-- The state behind an empty line. -/
def endState (line : Nat) : Nat :=
  if line = 36 then 122 else if line = 62 then 121 else if line = 113 then 123 else 120

theorem steps_stop : ∀ s ∈ lineStates, transition s 13 =
      some ⟨if s = 43 then [.write_connection_close] else [], false, stopState s⟩ ∧
    transition (stopState s) 10 = some ⟨[], true, endState s⟩ := by
  decide

end Client

end Captain.Http
