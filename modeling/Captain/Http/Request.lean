import Mathlib.Data.List.Find
import Mathlib.Data.List.TakeWhile

/-!
# `HttpRequest` and the callbacks that fill it

`captain/http/http.h` and the callbacks of `captain/http/HttpParser.cpp`. Bytes from a pointer `at`
on are a list, so that `std::string(at, length)` is `at.take length`.
-/

namespace Captain.Http

abbrev Bytes := List UInt8

def ascii (s : String) : Bytes := s.toList.map fun c => .ofNat c.toNat

/-- What a C function sees of a string: the bytes before the first zero. -/
def c_str (s : Bytes) : Bytes := s.takeWhile (· ≠ 0)

/-- `strncmp(lhs, rhs, n) == 0`. -/
def strncmpEq (lhs rhs : Bytes) (n : Nat) : Bool := c_str (lhs.take n) = c_str (rhs.take n)

inductive HttpMethod
  | DELETE | GET | HEAD | POST | PUT
  | CONNECT | OPTIONS | TRACE
  | COPY | LOCK | MKCOL | MOVE | PROPFIND | PROPPATCH | SEARCH | UNLOCK | BIND | REBIND | UNBIND
  | ACL
  | REPORT | MKACTIVITY | CHECKOUT | MERGE
  | MSEARCH | NOTIFY | SUBSCRIBE | UNSUBSCRIBE
  | PATCH | PURGE
  | MKCALENDAR
  | LINK | UNLINK
  | SOURCE
  | INVALID_METHOD
  deriving DecidableEq, Repr

open HttpMethod in
def HTTP_METHOD_MAP : List (HttpMethod × String) :=
  [(DELETE, "DELETE"), (GET, "GET"), (HEAD, "HEAD"), (POST, "POST"), (PUT, "PUT"),
    (CONNECT, "CONNECT"), (OPTIONS, "OPTIONS"), (TRACE, "TRACE"),
    (COPY, "COPY"), (LOCK, "LOCK"), (MKCOL, "MKCOL"), (MOVE, "MOVE"), (PROPFIND, "PROPFIND"),
    (PROPPATCH, "PROPPATCH"), (SEARCH, "SEARCH"), (UNLOCK, "UNLOCK"), (BIND, "BIND"),
    (REBIND, "REBIND"), (UNBIND, "UNBIND"), (ACL, "ACL"),
    (REPORT, "REPORT"), (MKACTIVITY, "MKACTIVITY"), (CHECKOUT, "CHECKOUT"), (MERGE, "MERGE"),
    (MSEARCH, "M-SEARCH"), (NOTIFY, "NOTIFY"), (SUBSCRIBE, "SUBSCRIBE"),
    (UNSUBSCRIBE, "UNSUBSCRIBE"),
    (PATCH, "PATCH"), (PURGE, "PURGE"),
    (MKCALENDAR, "MKCALENDAR"),
    (LINK, "LINK"), (UNLINK, "UNLINK"),
    (SOURCE, "SOURCE")]

/-- The first method whose name the bytes from `m` on start with. -/
def CharsToHttpMethod (m : Bytes) : HttpMethod :=
  match HTTP_METHOD_MAP.find? fun (_, name) => strncmpEq (ascii name) m (ascii name).length with
  | some (method, _) => method
  | none => .INVALID_METHOD

def tolower (b : UInt8) : UInt8 := if 65 ≤ b ∧ b ≤ 90 then b + 32 else b

def lexLess : Bytes → Bytes → Bool
  | _, [] => false
  | [], _ :: _ => true
  | a :: lhs, b :: rhs => if a < b then true else if b < a then false else lexLess lhs rhs

/-- `strcasecmp(lhs.c_str(), rhs.c_str()) < 0`. -/
def CaseInsensitiveLess (lhs rhs : Bytes) : Bool :=
  lexLess ((c_str lhs).map tolower) ((c_str rhs).map tolower)

/-- A `std::map` with `CaseInsensitiveLess`, in the order of its keys. -/
abbrev MapType := List (Bytes × Bytes)

/-- `m[key] = val`: a key that is there keeps its spelling. -/
def MapType.assign (key val : Bytes) : MapType → MapType
  | [] => [(key, val)]
  | (k, v) :: m =>
    if CaseInsensitiveLess key k then (key, val) :: (k, v) :: m
    else if CaseInsensitiveLess k key then (k, v) :: assign key val m
    else (k, val) :: m

def MapType.find (m : MapType) (key : Bytes) : Option Bytes :=
  (m.find? fun (k, _) => !CaseInsensitiveLess k key && !CaseInsensitiveLess key k).map (·.2)

structure HttpRequest where
  m_method : HttpMethod := .GET
  m_version : UInt8 := 0x11
  m_close : Bool := true
  m_path : Bytes := ascii "/"
  m_query : Bytes := []
  m_fragment : Bytes := []
  m_body : Bytes := []
  m_headers : MapType := []
  deriving DecidableEq, Repr

namespace HttpRequest

def setHeader (r : HttpRequest) (key val : Bytes) : HttpRequest :=
  { r with m_headers := MapType.assign key val r.m_headers }

/-- `getHeaderAs<uint64_t>(key, def)`, where `lexical_cast` is that of Boost. -/
def getHeaderAs (r : HttpRequest) (lexical_cast : Bytes → Option UInt64) (key : Bytes)
    (def_ : UInt64) : UInt64 :=
  match MapType.find r.m_headers key with
  | none => def_
  | some val => (lexical_cast val).getD def_

end HttpRequest

/-! ## The name of a method -/

theorem c_str_eq {s : Bytes} (h : 0 ∉ s) : c_str s = s := by
  apply List.takeWhile_eq_self_iff.mpr
  intro b hb
  exact decide_eq_true fun hzero => h (hzero ▸ hb)

theorem eq_of_c_str_eq {s : Bytes} (h : (c_str s).length = s.length) : c_str s = s :=
  (List.takeWhile_prefix _).eq_of_length h

/-- A name without a zero is compared as a whole. -/
theorem strncmpEq_iff {name m : Bytes} (h : 0 ∉ name) :
    strncmpEq name m name.length = true ↔ m.take name.length = name := by
  unfold strncmpEq
  rw [List.take_length, c_str_eq h, decide_eq_true_iff]
  constructor
  · intro heq
    have hle : (c_str (m.take name.length)).length ≤ (m.take name.length).length :=
      (List.takeWhile_prefix _).length_le
    have hlength : (c_str (m.take name.length)).length = (m.take name.length).length := by
      rw [← heq] at hle ⊢
      have htake := List.length_take_le name.length m
      omega
    exact (eq_of_c_str_eq hlength).symm.trans heq.symm
  · intro heq
    rw [heq, c_str_eq h]

/-- A name without a space does not reach beyond one. -/
theorem strncmpEq_congr {name m m' : Bytes} {n : Nat} (hzero : 0 ∉ name) (hname : 32 ∉ name)
    (h : m.take (n + 1) = m'.take (n + 1)) (hspace : m[n]? = some 32) :
    strncmpEq name m name.length = strncmpEq name m' name.length := by
  apply Bool.eq_iff_iff.mpr
  rw [strncmpEq_iff hzero, strncmpEq_iff hzero]
  have hspace' : m'[n]? = some 32 := by
    rw [← List.getElem?_take_of_lt (Nat.lt_succ_self n), ← h,
      List.getElem?_take_of_lt (Nat.lt_succ_self n), hspace]
  have hshort : ∀ {l : Bytes}, l[n]? = some 32 → l.take name.length = name → name.length ≤ n := by
    intro l hl heq
    by_contra hlt
    rw [← List.getElem?_take_of_lt (Nat.not_le.mp hlt), heq] at hl
    exact hname (List.mem_of_getElem? hl)
  have hsame : name.length ≤ n → m.take name.length = m'.take name.length := by
    intro hle
    have heq := congrArg (List.take name.length) h
    rwa [List.take_take, List.take_take, Nat.min_eq_left (by omega)] at heq
  exact ⟨fun heq => hsame (hshort hspace heq) ▸ heq,
    fun heq => (hsame (hshort hspace' heq)).symm ▸ heq⟩

/-- The method is read off the bytes up to the first space. -/
theorem CharsToHttpMethod_congr {m m' : Bytes} {n : Nat} (h : m.take (n + 1) = m'.take (n + 1))
    (hspace : m[n]? = some 32) : CharsToHttpMethod m = CharsToHttpMethod m' := by
  have hnames : ∀ e ∈ HTTP_METHOD_MAP, 0 ∉ ascii e.2 ∧ 32 ∉ ascii e.2 := by decide
  unfold CharsToHttpMethod
  rw [List.find?_congr fun e he => strncmpEq_congr (hnames e he).1 (hnames e he).2 h hspace]

/-- What the callbacks see of a `HttpRequestParser`. -/
structure Target where
  m_data : HttpRequest := {}
  m_error : Nat := 0
  deriving DecidableEq, Repr

namespace Target

variable (t : Target) (at_ : Bytes) (length : Nat)

def setError (v : Nat) : Target := { t with m_error := v }

def on_request_method : Target :=
  let m := CharsToHttpMethod at_
  if m = .INVALID_METHOD then t.setError 1000
  else { t with m_data := { t.m_data with m_method := m } }

def on_request_fragment : Target :=
  { t with m_data := { t.m_data with m_fragment := at_.take length } }

def on_request_path : Target :=
  { t with m_data := { t.m_data with m_path := at_.take length } }

def on_request_query : Target :=
  { t with m_data := { t.m_data with m_query := at_.take length } }

def on_request_version : Target :=
  if strncmpEq at_ (ascii "HTTP/1.1") length then
    { t with m_data := { t.m_data with m_version := 0x11 } }
  else if strncmpEq at_ (ascii "HTTP/1.0") length then
    { t with m_data := { t.m_data with m_version := 0x10 } }
  else t.setError 1001

def on_request_http_field (field : Bytes) (flen : Nat) (value : Bytes) (vlen : Nat) : Target :=
  if flen = 0 then t
  else { t with m_data := t.m_data.setHeader (field.take flen) (value.take vlen) }

/-! ## What every callback keeps -/

/-- An error stays, and the body is not touched. -/
structure Keeps (t' : Target) : Prop where
  error : t.m_error ≠ 0 → t'.m_error ≠ 0
  body : t'.m_data.m_body = t.m_data.m_body

theorem Keeps.refl : t.Keeps t := ⟨id, rfl⟩

theorem Keeps.trans {t t' t'' : Target} (h : t.Keeps t') (h' : t'.Keeps t'') : t.Keeps t'' :=
  ⟨fun he => h'.error (h.error he), h'.body.trans h.body⟩

theorem keeps_setError {v : Nat} (hv : v ≠ 0) : t.Keeps (t.setError v) := ⟨fun _ => hv, rfl⟩

theorem keeps_method : t.Keeps (t.on_request_method at_) := by
  unfold on_request_method
  dsimp only
  split
  · exact t.keeps_setError (by decide)
  · exact ⟨id, rfl⟩

theorem keeps_version : t.Keeps (t.on_request_version at_ length) := by
  unfold on_request_version
  split
  · exact ⟨id, rfl⟩
  · split
    · exact ⟨id, rfl⟩
    · exact t.keeps_setError (by decide)

theorem keeps_http_field (field : Bytes) (flen : Nat) (value : Bytes) (vlen : Nat) :
    t.Keeps (t.on_request_http_field field flen value vlen) := by
  unfold on_request_http_field
  split
  · exact Keeps.refl t
  · exact ⟨id, rfl⟩

end Target

end Captain.Http
