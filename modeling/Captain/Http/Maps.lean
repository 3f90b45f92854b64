import Captain.Http.Dump

/-!
# The maps of an `HttpRequest` (`captain/http/http.h`, `captain/http/http.cpp`)

Headers, params and cookies are three maps with case-insensitive keys, each with its accessors. What
a map holds for a key is what the last call on it has left there (`value`).

* `wired_iff`: every accessor reads the map that it is named after exactly when the three maps hold
  the same for the key, as values of the type asked for.
-/

namespace Captain.Http

/-- `m.erase(key)`. -/
def MapType.erase (key : Bytes) (m : MapType) : MapType :=
  m.filter fun (k, _) => CaseInsensitiveLess k key || CaseInsensitiveLess key k

section

variable {α : Type} (lexical_cast : Bytes → Option α) (m : MapType) (key : Bytes) (def_ : α)

/-- `checkGetAs`: what it returns, and `val`. -/
def checkGetAs : Bool × α :=
  match MapType.find m key with
  | none => (false, def_)
  | some val =>
    match lexical_cast val with
    | some val => (true, val)
    | none => (false, def_)

def getAs : α :=
  match MapType.find m key with
  | none => def_
  | some val => (lexical_cast val).getD def_

end

/-- An `HttpRequest` with the maps that its parser does not fill. -/
structure HttpRequestMaps extends HttpRequest where
  m_params : MapType := []
  m_cookies : MapType := []
  deriving DecidableEq, Repr

namespace HttpRequestMaps

section

variable {α : Type} (r : HttpRequestMaps) (key : Bytes)

def getHeader (def_ : Bytes) : Bytes := (MapType.find r.m_headers key).getD def_

def getParam (def_ : Bytes) : Bytes := (MapType.find r.m_params key).getD def_

def getCookie (def_ : Bytes) : Bytes := (MapType.find r.m_cookies key).getD def_

def setHeader (val : Bytes) : HttpRequestMaps :=
  { r with m_headers := MapType.assign key val r.m_headers }

def setParam (val : Bytes) : HttpRequestMaps :=
  { r with m_params := MapType.assign key val r.m_params }

def setCookie (val : Bytes) : HttpRequestMaps :=
  { r with m_cookies := MapType.assign key val r.m_cookies }

def delHeader : HttpRequestMaps := { r with m_headers := MapType.erase key r.m_headers }

def delParam : HttpRequestMaps := { r with m_params := MapType.erase key r.m_params }

def delCookie : HttpRequestMaps := { r with m_cookies := MapType.erase key r.m_cookies }

/-- What a `has` function returns, and `*val`, which is none for a null `val`. -/
def has (m : MapType) (key : Bytes) (val : Option Bytes) : Bool × Option Bytes :=
  match MapType.find m key with
  | none => (false, val)
  | some found => (true, val.map fun _ => found)

def hasHeader (val : Option Bytes) : Bool × Option Bytes := has r.m_headers key val

def hasParam (val : Option Bytes) : Bool × Option Bytes := has r.m_params key val

def hasCookie (val : Option Bytes) : Bool × Option Bytes := has r.m_cookies key val

variable (lexical_cast : Bytes → Option α) (def_ : α)

def checkGetHeaderAs : Bool × α := checkGetAs lexical_cast r.m_headers key def_

def getHeaderAs : α := getAs lexical_cast r.m_headers key def_

def checkGetParamAs : Bool × α := checkGetAs lexical_cast r.m_headers key def_

def getParamAs : α := getAs lexical_cast r.m_headers key def_

def checkGetCookieAs : Bool × α := checkGetAs lexical_cast r.m_headers key def_

def getCookieAs : α := getAs lexical_cast r.m_headers key def_

end

theorem getHeaderAs_toHttpRequest (r : HttpRequestMaps) (lexical_cast : Bytes → Option UInt64)
    (key : Bytes) (def_ : UInt64) :
    r.toHttpRequest.getHeaderAs lexical_cast key def_ = r.getHeaderAs key lexical_cast def_ := rfl

end HttpRequestMaps

/-! ## The accessors by map -/

inductive Store
  | header
  | param
  | cookie
  deriving DecidableEq, Repr

/-- A call of one of the six functions that change a map. -/
inductive MapCall
  | set (store : Store) (key val : Bytes)
  | del (store : Store) (key : Bytes)
  deriving DecidableEq, Repr

namespace MapCall

def run (r : HttpRequestMaps) : MapCall → HttpRequestMaps
  | .set .header key val => r.setHeader key val
  | .set .param key val => r.setParam key val
  | .set .cookie key val => r.setCookie key val
  | .del .header key => r.delHeader key
  | .del .param key => r.delParam key
  | .del .cookie key => r.delCookie key

/-- What the call leaves for a key, given what was there. -/
def leaves (store : Store) (key : Bytes) (v : Option Bytes) : MapCall → Option Bytes
  | .set store' key' val => if store' = store ∧ strcasecmpEq key' key then some val else v
  | .del store' key' => if store' = store ∧ strcasecmpEq key' key then none else v

/-- What the last call on the map and the key has left. -/
def value (calls : List MapCall) (store : Store) (key : Bytes) : Option Bytes :=
  calls.foldl (leaves store key) none

end MapCall

namespace HttpRequestMaps

def map (r : HttpRequestMaps) : Store → MapType
  | .header => r.m_headers
  | .param => r.m_params
  | .cookie => r.m_cookies

def get (r : HttpRequestMaps) : Store → Bytes → Bytes → Bytes
  | .header => r.getHeader
  | .param => r.getParam
  | .cookie => r.getCookie

def hasIn (r : HttpRequestMaps) : Store → Bytes → Option Bytes → Bool × Option Bytes
  | .header => r.hasHeader
  | .param => r.hasParam
  | .cookie => r.hasCookie

def getIn {α : Type} (r : HttpRequestMaps) :
    Store → Bytes → (Bytes → Option α) → α → α
  | .header => r.getHeaderAs
  | .param => r.getParamAs
  | .cookie => r.getCookieAs

def checkGetIn {α : Type} (r : HttpRequestMaps) :
    Store → Bytes → (Bytes → Option α) → α → Bool × α
  | .header => r.checkGetHeaderAs
  | .param => r.checkGetParamAs
  | .cookie => r.checkGetCookieAs

/-- Every accessor shows for the key what `value` has in the map that it is named after. -/
structure Wired {α : Type} (r : HttpRequestMaps) (value : Store → Option Bytes) (key : Bytes)
    (lexical_cast : Bytes → Option α) : Prop where
  get : ∀ store def_, r.get store key def_ = (value store).getD def_
  has : ∀ store val, r.hasIn store key val =
    ((value store).isSome, if (value store).isSome then val.bind fun _ => value store else val)
  getAs : ∀ store def_, r.getIn store key lexical_cast def_ =
    ((value store).bind lexical_cast).getD def_
  checkGetAs : ∀ store def_, r.checkGetIn store key lexical_cast def_ =
    (((value store).bind lexical_cast).isSome, ((value store).bind lexical_cast).getD def_)

end HttpRequestMaps

/-! ## The maps -/

namespace MapType

variable {m : MapType} {key key' val : Bytes}

theorem lexLess_irrefl : ∀ s : Bytes, lexLess s s = false
  | [] => rfl
  | b :: s => by
    rw [lexLess, if_neg (UInt8.lt_irrefl b), if_neg (UInt8.lt_irrefl b)]
    exact lexLess_irrefl s

/-- Neither key is before the other exactly if they are the same but for the case. -/
theorem equivalent_iff (key key' : Bytes) :
    (!CaseInsensitiveLess key key' && !CaseInsensitiveLess key' key) = strcasecmpEq key key' := by
  cases hcase : strcasecmpEq key key' with
  | false => rcases apart_of_strcasecmp hcase with h | h <;> simp [h]
  | true =>
    have heq := of_decide_eq_true hcase
    unfold CaseInsensitiveLess
    rw [heq, lexLess_irrefl]
    rfl

theorem strcasecmpEq_iff : strcasecmpEq key key' = true ↔
    (c_str key).map tolower = (c_str key').map tolower := decide_eq_true_iff

theorem strcasecmpEq_congr {k : Bytes} (h : strcasecmpEq k key = true) (key' : Bytes) :
    strcasecmpEq k key' = strcasecmpEq key key' := by
  rw [strcasecmpEq, strcasecmpEq, strcasecmpEq_iff.mp h]

/-- Two keys that are the same as a third. -/
theorem strcasecmpEq_of_same {k : Bytes} (hk : strcasecmpEq k key' = true)
    (hkey : strcasecmpEq key key' = true) : strcasecmpEq k key = true :=
  strcasecmpEq_iff.mpr ((strcasecmpEq_iff.mp hk).trans (strcasecmpEq_iff.mp hkey).symm)

theorem find_cons (k v : Bytes) (m : MapType) (key : Bytes) :
    find ((k, v) :: m) key = if strcasecmpEq k key then some v else find m key := by
  unfold find
  rw [List.find?_cons]
  dsimp only
  rw [equivalent_iff]
  cases strcasecmpEq k key <;> rfl

theorem find_assign (m : MapType) (key val key' : Bytes) :
    find (assign key val m) key' = if strcasecmpEq key key' then some val else find m key' := by
  induction m with
  | nil => exact find_cons key val [] key'
  | cons e m ih =>
    obtain ⟨k, v⟩ := e
    rw [assign]
    split
    · rw [find_cons]
    · split
      · rename_i hless
        rw [find_cons, find_cons, ih]
        -- The key is not the same as one before it.
        have hno : ¬(strcasecmpEq k key' = true ∧ strcasecmpEq key key' = true) := by
          rintro ⟨hk, hkey⟩
          have hsame := strcasecmpEq_of_same hk hkey
          rw [← equivalent_iff, hless] at hsame
          cases hsame
        by_cases hk : strcasecmpEq k key' = true
        · rw [if_pos hk, if_neg fun hkey => hno ⟨hk, hkey⟩, if_pos hk]
        · rw [if_neg hk, if_neg hk]
      · rename_i hless hless'
        have hsame : strcasecmpEq k key = true := by
          rw [← equivalent_iff, Bool.eq_false_iff.mpr hless, Bool.eq_false_iff.mpr hless']
          rfl
        rw [find_cons, find_cons, strcasecmpEq_congr hsame]
        by_cases hkey : strcasecmpEq key key' = true
        · rw [if_pos hkey, if_pos hkey]
        · rw [if_neg hkey, if_neg hkey, if_neg hkey]

theorem erase_cons (k v : Bytes) (m : MapType) (key : Bytes) :
    erase key ((k, v) :: m) =
      if strcasecmpEq k key then erase key m else (k, v) :: erase key m := by
  have hkeep : (CaseInsensitiveLess k key || CaseInsensitiveLess key k) =
      !strcasecmpEq k key := by
    rw [← equivalent_iff]
    cases CaseInsensitiveLess k key <;> cases CaseInsensitiveLess key k <;> rfl
  by_cases hk : strcasecmpEq k key = true
  · rw [if_pos hk]
    exact List.filter_cons_of_neg (by simp [hkeep, hk])
  · rw [if_neg hk]
    exact List.filter_cons_of_pos (by simp [hkeep, hk])

theorem find_erase (m : MapType) (key key' : Bytes) :
    find (erase key m) key' = if strcasecmpEq key key' then none else find m key' := by
  induction m with
  | nil => exact (ite_self none).symm
  | cons e m ih =>
    obtain ⟨k, v⟩ := e
    rw [erase_cons]
    by_cases hk : strcasecmpEq k key = true
    · rw [if_pos hk, ih, find_cons, strcasecmpEq_congr hk]
      by_cases hkey : strcasecmpEq key key' = true
      · rw [if_pos hkey, if_pos hkey]
      · rw [if_neg hkey, if_neg hkey, if_neg hkey]
    · rw [if_neg hk, find_cons, find_cons, ih]
      by_cases hkey : strcasecmpEq key key' = true
      · have hno : ¬strcasecmpEq k key' = true := fun hk' => hk (strcasecmpEq_of_same hk' hkey)
        rw [if_neg hno, if_pos hkey, if_pos hkey]
      · rw [if_neg hkey, if_neg hkey]

end MapType

/-! ## The calls -/

namespace MapCall

/-- **Step lemma.** A call leaves the other maps, and the other keys of its own. -/
theorem find_run (r : HttpRequestMaps) (c : MapCall) (store : Store) (key : Bytes) :
    MapType.find ((c.run r).map store) key =
      c.leaves store key (MapType.find (r.map store) key) := by
  cases c with
  | set store' key' val =>
    by_cases hstore : store' = store
    · subst hstore
      have hassign := MapType.find_assign (r.map store') key' val key
      simp only [leaves, true_and]
      cases store' <;> exact hassign
    · simp only [leaves, hstore, false_and, if_false]
      cases store' <;> cases store <;> first | rfl | exact absurd rfl hstore
  | del store' key' =>
    by_cases hstore : store' = store
    · subst hstore
      have herase := MapType.find_erase (r.map store') key' key
      simp only [leaves, true_and]
      cases store' <;> exact herase
    · simp only [leaves, hstore, false_and, if_false]
      cases store' <;> cases store <;> first | rfl | exact absurd rfl hstore

/-- **Run lemma.** -/
theorem find_runs (calls : List MapCall) (store : Store) (key : Bytes) :
    MapType.find ((calls.foldl run {}).map store) key = value calls store key := by
  suffices h : ∀ r : HttpRequestMaps, MapType.find ((calls.foldl run r).map store) key =
      calls.foldl (leaves store key) (MapType.find (r.map store) key) by
    have hstart : MapType.find (({} : HttpRequestMaps).map store) key = none := by
      cases store <;> rfl
    rw [h, hstart, value]
  induction calls with
  | nil => exact fun _ => rfl
  | cons c calls ih =>
    intro r
    rw [List.foldl_cons, List.foldl_cons, ih, find_run]

end MapCall

namespace HttpRequestMaps

variable {α : Type} {r : HttpRequestMaps} {value : Store → Option Bytes} {key : Bytes}
  {lexical_cast : Bytes → Option α}

theorem getAs_eq (lexical_cast : Bytes → Option α) (m : MapType) (key : Bytes) (def_ : α) :
    getAs lexical_cast m key def_ = ((MapType.find m key).bind lexical_cast).getD def_ := by
  unfold getAs
  cases MapType.find m key <;> rfl

theorem checkGetAs_eq (lexical_cast : Bytes → Option α) (m : MapType) (key : Bytes) (def_ : α) :
    checkGetAs lexical_cast m key def_ = (((MapType.find m key).bind lexical_cast).isSome,
      ((MapType.find m key).bind lexical_cast).getD def_) := by
  unfold checkGetAs
  cases MapType.find m key with
  | none => rfl
  | some val =>
    dsimp only [Option.bind_some]
    cases lexical_cast val <;> rfl

/-- The typed accessors all read the headers. -/
theorem getIn_eq (store : Store) (def_ : α) : r.getIn store key lexical_cast def_ =
    ((MapType.find r.m_headers key).bind lexical_cast).getD def_ := by
  cases store <;> exact getAs_eq ..

theorem checkGetIn_eq (store : Store) (def_ : α) : r.checkGetIn store key lexical_cast def_ =
    (((MapType.find r.m_headers key).bind lexical_cast).isSome,
      ((MapType.find r.m_headers key).bind lexical_cast).getD def_) := by
  cases store <;> exact checkGetAs_eq ..

theorem get_eq (store : Store) (def_ : Bytes) :
    r.get store key def_ = (MapType.find (r.map store) key).getD def_ := by
  cases store <;> rfl

theorem hasIn_eq (store : Store) (val : Option Bytes) : r.hasIn store key val =
    ((MapType.find (r.map store) key).isSome, if (MapType.find (r.map store) key).isSome then
      val.bind fun _ => MapType.find (r.map store) key else val) := by
  have hhas : ∀ m : MapType, has m key val = ((MapType.find m key).isSome,
      if (MapType.find m key).isSome then val.bind fun _ => MapType.find m key else val) := by
    intro m
    unfold has
    cases MapType.find m key <;> cases val <;> rfl
  cases store <;> exact hhas _

/-- Two values are the same if all defaults give the same result. -/
theorem eq_of_getD {a b : Option α}
    (h : ∀ def_, (a.isSome, a.getD def_) = (b.isSome, b.getD def_)) : a = b := by
  cases a with
  | none =>
    cases b with
    | none => rfl
    | some b => cases (Prod.mk.inj (h b)).1
  | some a =>
    cases b with
    | none => cases (Prod.mk.inj (h a)).1
    | some b => exact congrArg some (Prod.mk.inj (h a)).2

/-- **Accessors.** After any calls, every accessor is right for a key exactly when the params and
the cookies hold for it what the headers do, as values of the type. -/
theorem wired_iff (calls : List MapCall) (key : Bytes) (lexical_cast : Bytes → Option α) :
    Wired (calls.foldl MapCall.run {}) (fun store => MapCall.value calls store key) key
        lexical_cast ↔
      (MapCall.value calls .param key).bind lexical_cast =
          (MapCall.value calls .header key).bind lexical_cast ∧
        (MapCall.value calls .cookie key).bind lexical_cast =
          (MapCall.value calls .header key).bind lexical_cast := by
  have hfind := fun store => MapCall.find_runs calls store key
  have hheader : MapType.find (calls.foldl MapCall.run {}).m_headers key =
      MapCall.value calls .header key := hfind .header
  constructor
  · intro h
    have hsame : ∀ store, (MapCall.value calls store key).bind lexical_cast =
        (MapCall.value calls .header key).bind lexical_cast := by
      intro store
      refine eq_of_getD fun def_ => ?_
      rw [← h.checkGetAs store def_, checkGetIn_eq, hheader]
    exact ⟨hsame .param, hsame .cookie⟩
  · rintro ⟨hparam, hcookie⟩
    have hsame : ∀ store, (MapCall.value calls store key).bind lexical_cast =
        (MapCall.value calls .header key).bind lexical_cast := by
      intro store
      cases store with
      | header => rfl
      | param => exact hparam
      | cookie => exact hcookie
    refine ⟨fun store def_ => ?_, fun store val => ?_, fun store def_ => ?_, fun store def_ => ?_⟩
    · rw [get_eq, hfind]
    · rw [hasIn_eq, hfind]
    · rw [getIn_eq, hheader, ← hsame store]
    · rw [checkGetIn_eq, hheader, ← hsame store]

/-- A param that is set is not found by `getParamAs`. -/
theorem not_wired : ¬∀ (calls : List MapCall) (key : Bytes) (lexical_cast : Bytes → Option Bytes),
    Wired (calls.foldl MapCall.run {}) (fun store => MapCall.value calls store key) key
      lexical_cast := by
  intro h
  have hget := (h [.set .param (ascii "id") (ascii "7")] (ascii "id") some).getAs .param []
  exact absurd hget (by decide +kernel)

end HttpRequestMaps

end Captain.Http
