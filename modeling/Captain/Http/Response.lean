import Captain.Http.Request
import Captain.Lines
import Mathlib.Data.List.DropRight

/-!
# `HttpResponse` and what it looks like on the connection

`captain/http/http.cpp`. `dump` writes a status line, the headers and the body, one response after
the other on a connection that is kept alive. A client reads lines up to the first empty one, and
from the one field named `content-length` how many bytes of body follow.

* `Framed`: the lines end where `dump` ends them, with one such field, which tells the length of the
  body.
* `dump_iff`: when all responses are framed, and the bytes are cut into responses in one way.
-/

namespace Captain.Http

open Lines

/-- An `enum class` holds any code. -/
abbrev HttpStatus := UInt32

def HTTP_STATUS_MAP : List (HttpStatus × String) :=
  [(100, "Continue"), (101, "Switching Protocols"), (102, "Processing"), (200, "OK"),
    (201, "Created"), (202, "Accepted"), (203, "Non-Authoritative Information"),
    (204, "No Content"), (205, "Reset Content"), (206, "Partial Content"), (207, "Multi-Status"),
    (208, "Already Reported"), (226, "IM Used"), (300, "Multiple Choices"),
    (301, "Moved Permanently"), (302, "Found"), (303, "See Other"), (304, "Not Modified"),
    (305, "Use Proxy"), (307, "Temporary Redirect"), (308, "Permanent Redirect"),
    (400, "Bad Request"), (401, "Unauthorized"), (402, "Payment Required"), (403, "Forbidden"),
    (404, "Not Found"), (405, "Method Not Allowed"), (406, "Not Acceptable"),
    (407, "Proxy Authentication Required"), (408, "Request Timeout"), (409, "Conflict"),
    (410, "Gone"), (411, "Length Required"), (412, "Precondition Failed"),
    (413, "Payload Too Large"), (414, "URI Too Long"), (415, "Unsupported Media Type"),
    (416, "Range Not Satisfiable"), (417, "Expectation Failed"), (421, "Misdirected Request"),
    (422, "Unprocessable Entity"), (423, "Locked"), (424, "Failed Dependency"),
    (426, "Upgrade Required"), (428, "Precondition Required"), (429, "Too Many Requests"),
    (431, "Request Header Fields Too Large"), (451, "Unavailable For Legal Reasons"),
    (500, "Internal Server Error"), (501, "Not Implemented"), (502, "Bad Gateway"),
    (503, "Service Unavailable"), (504, "Gateway Timeout"), (505, "HTTP Version Not Supported"),
    (506, "Variant Also Negotiates"), (507, "Insufficient Storage"), (508, "Loop Detected"),
    (510, "Not Extended"), (511, "Network Authentication Required")]

def HttpStatusToString (s : HttpStatus) : String :=
  match HTTP_STATUS_MAP.find? fun (code, _) => s = code with
  | some (_, msg) => msg
  | none => "<unknown>"

/-- `strcasecmp(lhs.c_str(), rhs.c_str()) == 0`. -/
def strcasecmpEq (lhs rhs : Bytes) : Bool := (c_str lhs).map tolower = (c_str rhs).map tolower

/-- `os << n`. -/
def decimal (n : Nat) : Bytes := (Nat.toDigits 10 n).map fun c => .ofNat c.toNat

structure HttpResponse where
  m_status : HttpStatus := 200
  m_version : UInt8 := 0x11
  m_close : Bool := true
  m_body : Bytes := []
  m_reason : Bytes := []
  m_headers : MapType := []
  deriving DecidableEq, Repr

namespace HttpResponse

variable (r : HttpResponse)

def statusLine : Bytes :=
  ascii "HTTP/" ++ decimal (r.m_version >>> 4).toNat ++ ascii "." ++
    decimal (r.m_version &&& 0x0F).toNat ++ ascii " " ++ decimal r.m_status.toNat ++ ascii " " ++
    if r.m_reason = [] then ascii (HttpStatusToString r.m_status) else r.m_reason

def dump : Bytes :=
  r.statusLine ++ crlf ++
    (r.m_headers.flatMap fun (name, value) =>
      if strcasecmpEq name (ascii "connection") then []
      else name ++ ascii ": " ++ value ++ crlf) ++
    (ascii "connection: " ++ ascii (if r.m_close then "close" else "keep-alive") ++ crlf) ++
    if r.m_body ≠ [] then
      ascii "content-length: " ++ decimal r.m_body.length ++ crlf ++ crlf ++ r.m_body
    else crlf

end HttpResponse

/-! ## What a client reads -/

/-- A field has its name before the first colon. -/
def named (name l : Bytes) : Bool := 58 ∈ l ∧ (l.takeWhile (· ≠ 58)).map tolower = name

def isSpace (b : UInt8) : Bool := b = 32 ∨ b = 9

/-- The value of a field, without the blanks around it. -/
def fieldValue (l : Bytes) : Bytes :=
  (((l.dropWhile (· ≠ 58)).drop 1).dropWhile isSpace).rdropWhile isSpace

def isDigit (b : UInt8) : Bool := 48 ≤ b ∧ b ≤ 57

/-- The number that decimal digits denote. -/
def number (v : Bytes) : Option Nat :=
  if v ≠ [] ∧ v.all isDigit then some (v.foldl (fun n b => 10 * n + (b.toNat - 48)) 0) else none

/-- What the fields named `content-length` tell. -/
def fieldLengths (ls : List Bytes) : List (Option Nat) :=
  (ls.filter (named (ascii "content-length"))).map fun l => number (fieldValue l)

/-- The same for the lines of a message, of which the first is the status line. -/
def lengths (ls : List Bytes) : List (Option Nat) := fieldLengths (ls.drop 1)

/-- One field tells the number of bytes behind the empty line. -/
def Reply (m : Bytes) : Prop :=
  ∃ ls body, head [] m = some (ls, body) ∧ lengths ls = [some body.length]

namespace HttpResponse

/-- The empty line of `dump` is the first one, and one field before it tells the number of bytes of
the body, which follow. -/
def Framed (r : HttpResponse) : Prop :=
  ∃ ls, head [] r.dump = some (ls, r.m_body) ∧ lengths ls = [some r.m_body.length]

/-- The texts that do not depend on the body, but for the field `connection`. -/
def texts (r : HttpResponse) : List Bytes :=
  r.statusLine :: (r.m_headers.filter fun (name, _) => !strcasecmpEq name (ascii "connection")).map
    fun (name, value) => name ++ ascii ": " ++ value

/-- No text has an empty line, and the headers have no field for the length, or for an empty body
one that tells zero. -/
def Exact (r : HttpResponse) : Prop :=
  (∀ t ∈ r.texts, [] ∉ pieces t) ∧
    lengths (r.texts.flatMap pieces) = if r.m_body = [] then [some 0] else []

end HttpResponse

/-! ## Numbers -/

theorem toNat_of_digit {c : Char} (h : c.isDigit = true) :
    (UInt8.ofNat c.toNat).toNat = c.toNat ∧ 48 ≤ c.toNat ∧ c.toNat ≤ 57 := by
  have hbounds : 48 ≤ c.toNat ∧ c.toNat ≤ 57 := Char.isDigit_iff_toNat.mp h
  refine ⟨?_, hbounds⟩
  rw [UInt8.toNat_ofNat']
  omega

theorem digits_decimal {n : Nat} : ∀ b ∈ decimal n, isDigit b = true := by
  intro b hb
  obtain ⟨c, hc, rfl⟩ := List.mem_map.mp hb
  obtain ⟨hsame, hlow, hhigh⟩ :=
    toNat_of_digit (Nat.isDigit_of_mem_toDigits (by decide) (by decide) hc)
  apply decide_eq_true
  rw [UInt8.le_iff_toNat_le, UInt8.le_iff_toNat_le, hsame]
  exact ⟨hlow, hhigh⟩

theorem number_decimal (n : Nat) : number (decimal n) = some n := by
  have hne : decimal n ≠ [] := fun hnil => Nat.toDigits_ne_nil (List.map_eq_nil_iff.mp hnil)
  have hfold : (decimal n).foldl (fun n b => 10 * n + (b.toNat - 48)) 0 = n := by
    have hsame : ∀ m, ∀ c ∈ Nat.toDigits 10 n,
        10 * m + ((UInt8.ofNat c.toNat).toNat - 48) = 10 * m + (c.toNat - '0'.toNat) := by
      intro m c hc
      rw [(toNat_of_digit (Nat.isDigit_of_mem_toDigits (by decide) (by decide) hc)).1]
      rfl
    rw [decimal, List.foldl_map, List.foldl_ext _ _ 0 hsame, ← Nat.ofDigitChars_eq_foldl]
    exact Nat.ofDigitChars_ten_toDigits
  rw [number, if_pos ⟨hne, List.all_eq_true.mpr digits_decimal⟩, hfold]

/-! ## The fields that `dump` generates -/

theorem decimal_not_mem {b : UInt8} (h : isDigit b = false) (n : Nat) : b ∉ decimal n := by
  intro hmem
  rw [digits_decimal b hmem] at h
  cases h

theorem generated_eq (n : Nat) :
    ascii "content-length: " ++ decimal n = ascii "content-length" ++ 58 :: 32 :: decimal n := by
  have htext : ascii "content-length: " = ascii "content-length" ++ [58, 32] := by decide
  rw [htext, List.append_assoc]
  rfl

/-- There is no colon in the name. -/
theorem content_length_name : ∀ b ∈ ascii "content-length", (decide (b ≠ 58)) = true := by
  have hall : ((ascii "content-length").all fun b => decide (b ≠ 58)) = true := by decide
  exact List.all_eq_true.mp hall

theorem named_generated (n : Nat) :
    named (ascii "content-length") (ascii "content-length: " ++ decimal n) = true := by
  have hlower : (ascii "content-length").map tolower = ascii "content-length" := by decide
  rw [generated_eq, named, decide_eq_true_eq]
  refine ⟨List.mem_append_right _ List.mem_cons_self, ?_⟩
  rw [List.takeWhile_append_of_pos content_length_name, List.takeWhile_cons_of_neg (by decide),
    List.append_nil, hlower]

theorem fieldValue_generated (n : Nat) :
    fieldValue (ascii "content-length: " ++ decimal n) = decimal n := by
  have hblank : ∀ b ∈ decimal n, ¬isSpace b = true := by
    intro b hb hspace
    have hdigit := digits_decimal b hb
    rcases of_decide_eq_true hspace with rfl | rfl <;> exact absurd hdigit (by decide)
  rw [generated_eq, fieldValue, List.dropWhile_append_of_pos content_length_name,
    List.dropWhile_cons_of_neg (by decide), List.drop_one, List.tail_cons,
    List.dropWhile_cons_of_pos (by decide),
    List.dropWhile_eq_self_iff.mpr fun hl => hblank _ (List.getElem_mem hl),
    List.rdropWhile_eq_self_iff.mpr fun hl => hblank _ (List.getLast_mem hl)]

/-- The field for the length tells the length. -/
theorem fieldLengths_generated (n : Nat) :
    fieldLengths [ascii "content-length: " ++ decimal n] = [some n] := by
  rw [fieldLengths, List.filter_cons_of_pos (named_generated n), List.filter_nil,
    List.map_singleton, fieldValue_generated, number_decimal]

theorem fieldLengths_append (ls ls' : List Bytes) :
    fieldLengths (ls ++ ls') = fieldLengths ls ++ fieldLengths ls' := by
  simp only [fieldLengths, List.filter_append, List.map_append]

theorem lengths_append {ls : List Bytes} (h : ls ≠ []) (ls' : List Bytes) :
    lengths (ls ++ ls') = lengths ls ++ fieldLengths ls' := by
  rw [lengths, lengths, List.drop_append_of_le_length (List.length_pos_iff.mpr h),
    fieldLengths_append]

namespace HttpResponse

variable (r : HttpResponse)

/-- The texts that `dump` adds to those of the map. -/
def generated : List Bytes :=
  (ascii "connection: " ++ ascii (if r.m_close then "close" else "keep-alive")) ::
    if r.m_body ≠ [] then [ascii "content-length: " ++ decimal r.m_body.length] else []

theorem dump_eq : r.dump = emit (r.texts ++ r.generated) ++ (crlf ++ r.m_body) := by
  have hheaders : (r.m_headers.flatMap fun (name, value) =>
      if strcasecmpEq name (ascii "connection") then []
      else name ++ ascii ": " ++ value ++ crlf) =
      emit ((r.m_headers.filter fun (name, _) => !strcasecmpEq name (ascii "connection")).map
        fun (name, value) => name ++ ascii ": " ++ value) := by
    unfold emit
    induction r.m_headers with
    | nil => rfl
    | cons header headers ih =>
      obtain ⟨name, value⟩ := header
      rw [List.flatMap_cons, ih]
      by_cases hconnection : strcasecmpEq name (ascii "connection")
      · rw [List.filter_cons_of_neg (by simp [hconnection])]
        simp only [if_pos hconnection, List.nil_append]
      · rw [List.filter_cons_of_pos (by simp [hconnection]), List.map_cons, List.flatMap_cons]
        simp only [if_neg hconnection]
  unfold dump
  rw [hheaders]
  by_cases hbody : r.m_body = []
  · rw [if_neg (not_not_intro hbody)]
    simp only [texts, generated, emit, hbody, ne_eq, not_true_eq_false, if_false,
      List.flatMap_append, List.flatMap_cons, List.flatMap_nil, List.append_assoc,
      List.append_nil]
  · rw [if_pos hbody]
    simp only [texts, generated, emit, if_pos hbody, List.flatMap_append, List.flatMap_cons,
      List.flatMap_nil, List.append_assoc, List.append_nil]

theorem pieces_generated : ∀ t ∈ r.generated, pieces t = [t] ∧ t ≠ [] := by
  intro t ht
  rcases List.mem_cons.mp ht with rfl | ht
  · cases r.m_close <;> exact ⟨pieces_of_not_mem (by decide), by decide⟩
  · by_cases hbody : r.m_body = []
    · rw [if_neg (not_not_intro hbody)] at ht
      cases ht
    · rw [if_pos hbody, List.mem_singleton] at ht
      subst ht
      refine ⟨pieces_of_not_mem fun hmem => ?_, List.cons_ne_nil _ _⟩
      rcases List.mem_append.mp hmem with hname | hdigit
      · exact absurd hname (by decide)
      · exact decimal_not_mem (by decide) _ hdigit

theorem fieldLengths_pieces_generated : fieldLengths (r.generated.flatMap pieces) =
    if r.m_body = [] then [] else [some r.m_body.length] := by
  have hconnection : ∀ close : Bool, fieldLengths
      [ascii "connection: " ++ ascii (if close then "close" else "keep-alive")] = [] := by
    intro close
    cases close <;> rfl
  have hpieces : r.generated.flatMap pieces = r.generated := by
    rw [List.flatMap_congr fun t ht => (r.pieces_generated t ht).1, List.flatMap_singleton']
  rw [hpieces, generated, ← List.singleton_append, fieldLengths_append, hconnection,
    List.nil_append]
  by_cases hbody : r.m_body = []
  · rw [if_neg (not_not_intro hbody), if_pos hbody]
    rfl
  · rw [if_pos hbody, if_neg hbody, fieldLengths_generated]

/-- Without an empty line the texts are read as their pieces, and the body is what follows. -/
theorem head_dump (h : ∀ t ∈ r.texts, [] ∉ pieces t) :
    head [] r.dump = some ((r.texts ++ r.generated).flatMap pieces, r.m_body) := by
  have hall : ∀ t ∈ r.texts ++ r.generated, [] ∉ pieces t := by
    intro t ht
    rcases List.mem_append.mp ht with ht | ht
    · exact h t ht
    · obtain ⟨hpieces, hne⟩ := r.pieces_generated t ht
      rw [hpieces, List.mem_singleton]
      exact fun hnil => hne hnil.symm
  have hend : head [] (crlf ++ r.m_body) = some ([], r.m_body) := rfl
  rw [dump_eq, head_texts hall, hend, Option.map_some]
  dsimp only
  rw [List.append_nil]

theorem framed_iff : Framed r ↔ Exact r := by
  by_cases hblank : ∃ t ∈ r.texts, [] ∈ pieces t
  · -- The reader stops before the empty line of `dump`, and takes more than the body for it.
    obtain ⟨t, ht, hmem⟩ := hblank
    refine iff_of_false ?_ fun hexact => hexact.1 t ht hmem
    rintro ⟨ls, hhead, -⟩
    obtain ⟨ls', body, hhead', hle⟩ :=
      head_blank ⟨t, List.mem_append_left r.generated ht, hmem⟩ (crlf ++ r.m_body)
    rw [dump_eq, hhead'] at hhead
    cases hhead
    rw [List.length_append] at hle
    exact absurd hle (Nat.not_le_of_lt (Nat.lt_add_of_pos_left (by decide)))
  · have hclean : ∀ t ∈ r.texts, [] ∉ pieces t := fun t ht hmem => hblank ⟨t, ht, hmem⟩
    have hne : r.texts.flatMap pieces ≠ [] := by
      rw [texts, List.flatMap_cons]
      exact List.append_ne_nil_of_left_ne_nil (pieces_ne_nil _) _
    have hlengths : lengths ((r.texts ++ r.generated).flatMap pieces) =
        lengths (r.texts.flatMap pieces) ++
          if r.m_body = [] then [] else [some r.m_body.length] := by
      rw [List.flatMap_append, lengths_append hne, fieldLengths_pieces_generated]
    have hframed : Framed r ↔
        lengths ((r.texts ++ r.generated).flatMap pieces) = [some r.m_body.length] := by
      rw [Framed, r.head_dump hclean]
      constructor
      · rintro ⟨ls, heq, htell⟩
        cases heq
        exact htell
      · exact fun htell => ⟨_, rfl, htell⟩
    rw [hframed, hlengths, Exact, and_iff_right hclean]
    by_cases hbody : r.m_body = []
    · rw [if_pos hbody, if_pos hbody, List.append_nil, hbody]
      rfl
    · rw [if_neg hbody, if_neg hbody, List.append_eq_singleton_iff]
      simp only [List.cons_ne_nil, and_false, or_false, and_true]

end HttpResponse

/-! ## Messages one after the other -/

/-- A message ends where its own length says. -/
theorem Reply.append_inj {m m' t t' : Bytes} (h : Reply m) (h' : Reply m')
    (heq : m ++ t = m' ++ t') : m = m' ∧ t = t' := by
  obtain ⟨ls, body, hhead, hlength⟩ := h
  obtain ⟨ls', body', hhead', hlength'⟩ := h'
  have hread := head_append hhead t
  rw [heq, head_append hhead' t', Option.some.injEq, Prod.mk.injEq] at hread
  obtain ⟨rfl, hbodies⟩ := hread
  rw [hlength, List.cons.injEq, Option.some.injEq] at hlength'
  obtain ⟨-, htail⟩ := List.append_inj hbodies hlength'.1.symm
  rw [htail] at heq
  exact ⟨List.append_cancel_right heq, htail.symm⟩

theorem Reply.ne_nil {m : Bytes} (h : Reply m) : m ≠ [] := by
  rintro rfl
  obtain ⟨ls, body, hhead, -⟩ := h
  cases hhead

/-- Messages one after the other are cut apart in one way. -/
theorem replies_unique {ms : List Bytes} : ∀ {ms' : List Bytes}, (∀ m ∈ ms, Reply m) →
    (∀ m ∈ ms', Reply m) → ms.flatten = ms'.flatten → ms = ms' := by
  induction ms with
  | nil =>
    intro ms' _ h' heq
    cases ms' with
    | nil => rfl
    | cons m' ms' =>
      have hnil := List.append_eq_nil_iff.mp heq.symm
      exact absurd hnil.1 (h' m' List.mem_cons_self).ne_nil
  | cons m ms ih =>
    intro ms' h h' heq
    cases ms' with
    | nil =>
      have hnil := List.append_eq_nil_iff.mp heq
      exact absurd hnil.1 (h m List.mem_cons_self).ne_nil
    | cons m' ms' =>
      obtain ⟨rfl, htail⟩ :=
        (h m List.mem_cons_self).append_inj (h' m' List.mem_cons_self) heq
      rw [ih (fun m hm => h m (List.mem_cons_of_mem _ hm))
        (fun m hm => h' m (List.mem_cons_of_mem _ hm)) htail]

namespace HttpResponse

/-- Each response is framed, and their bytes one after the other are those of no other messages. -/
structure KeepAlive (rs : List HttpResponse) : Prop where
  framed : ∀ r ∈ rs, Framed r
  unique : ∀ ms : List Bytes, (∀ m ∈ ms, Reply m) → ms.flatten = (rs.map dump).flatten →
    ms = rs.map dump

theorem dump_iff (rs : List HttpResponse) : KeepAlive rs ↔ ∀ r ∈ rs, Exact r := by
  constructor
  · exact fun h r hr => (framed_iff r).mp (h.framed r hr)
  · intro h
    have hframed : ∀ r ∈ rs, Framed r := fun r hr => (framed_iff r).mpr (h r hr)
    refine ⟨hframed, fun ms hms heq => replies_unique hms (fun m hm => ?_) heq⟩
    obtain ⟨r, hr, rfl⟩ := List.mem_map.mp hm
    obtain ⟨ls, hhead, hlength⟩ := hframed r hr
    exact ⟨ls, r.m_body, hhead, hlength⟩

/-- A header for the length is written beside the generated field, and without a body there is
none. -/
theorem not_dump :
    ¬Framed
        { m_close := false
          m_body := [104, 105]
          m_headers := [(ascii "Content-Length", ascii "5")] } ∧
      ¬Framed { m_close := false } := by
  constructor
  · rintro ⟨ls, hhead, hlength⟩
    rw [head_dump _ (by decide)] at hhead
    cases hhead
    exact absurd hlength (by decide)
  · rintro ⟨ls, hhead, hlength⟩
    rw [head_dump _ (by decide)] at hhead
    cases hhead
    exact absurd hlength (by decide)

end HttpResponse

end Captain.Http
