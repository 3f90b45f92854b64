import Captain.OrderedSet
import Captain.Transition
import Captain.Yaml
import Mathlib

/-!
# `TcpServerConf` and its `LexicalCast`s (`captain/include/tcp_server.h`)

The text between the two casts is the tree of its nodes. `args` is written as a map, and read as the
string that a map does not have.

`readBack_iff`: the configuration comes back equal if and only if its `args` are empty.
-/

namespace Captain

open YamlNode

/-- `std::map<std::string, std::string>`. -/
structure StringMap where
  entries : List (String × String)
  sorted : OrderedSet.Sorted (fun a b => decide (a.1 < b.1)) entries
  deriving DecidableEq

namespace StringMap

def empty : StringMap := ⟨[], .nil⟩

theorem less_transitive (a b c : String × String) (hab : decide (a.1 < b.1) = true)
    (hbc : decide (b.1 < c.1) = true) : decide (a.1 < c.1) = true :=
  decide_eq_true (lt_trans (of_decide_eq_true hab) (of_decide_eq_true hbc))

/-- `insert`, which keeps the value that is there. -/
def insert (m : StringMap) (i : String × String) : StringMap :=
  ⟨(OrderedSet.insert (fun a b => decide (a.1 < b.1)) i m.entries).1,
    OrderedSet.Sorted.insert less_transitive m.sorted i⟩

variable (load : String → Option YamlNode) (emit : YamlNode → String)

/-- `LexicalCast<std::map<std::string, std::string>, std::string>`; `load` is `YAML::Load`, which
may throw. -/
def toYaml (v : StringMap) : Option YamlNode :=
  v.entries.foldlM (fun node i => (load i.2).map (node.set i.1)) null

theorem asString_set {node : YamlNode} (key : String) (value : YamlNode)
    (h : node.asString = none) : (node.set key value).asString = none := by
  cases node with
  | null | map _ => rfl
  | scalar _ => cases h
  | seq _ => rfl

/-- A map is written as no string. -/
theorem asString_toYaml {v : StringMap} {node : YamlNode} (h : v.toYaml load = some node) :
    node.asString = none := by
  refine Transition.foldlM_invariant (I := fun u => u.asString = none) ?_ h rfl
  intro u i u' hu hset
  obtain ⟨value, -, rfl⟩ := Option.map_eq_some_iff.mp hset
  exact asString_set i.1 value hu

/-- `LexicalCast<std::string, std::map<std::string, std::string>>`; `emit` is `operator<<`. An item
of a sequence has no `first`, and `Scalar` throws. -/
def fromYaml (v : String) : Option StringMap :=
  (load v).bind fun node =>
    match node with
    | map entries => some (entries.foldl (fun vec e => vec.insert (e.1, emit e.2)) empty)
    | seq (_ :: _) => none
    | _ => some empty

end StringMap

structure TcpServerConf where
  address : List String := []
  keepalive : Int32 := 0
  timeout : Int32 := 1000 * 2 * 60
  ssl : Int32 := 0
  id : String := ""
  type : String := "http"
  name : String := ""
  cert_file : String := ""
  key_file : String := ""
  accept_worker : String := ""
  io_worker : String := ""
  process_worker : String := ""
  args : StringMap := .empty
  deriving DecidableEq

namespace TcpServerConf

/-- `TcpServerConf::operator==`. -/
def eq (c oth : TcpServerConf) : Bool :=
  c.address = oth.address && c.keepalive = oth.keepalive && c.timeout = oth.timeout &&
  c.name = oth.name && c.ssl = oth.ssl && c.cert_file = oth.cert_file &&
  c.key_file = oth.key_file && c.accept_worker = oth.accept_worker &&
  c.io_worker = oth.io_worker && c.process_worker = oth.process_worker && c.args = oth.args &&
  c.id = oth.id && c.type = oth.type

theorem eq_iff {c oth : TcpServerConf} : c.eq oth = true ↔ c = oth := by
  cases c
  cases oth
  simp only [eq, Bool.and_eq_true, decide_eq_true_eq, mk.injEq]
  tauto

/-- `node[key].as<std::string>()`, which throws if the node is no scalar. -/
def asString (node : YamlNode) (key : String) : Option String :=
  (node.get key).bind fun value => value.bind YamlNode.asString

/-- `node[key].as<std::string>(fallback)`. -/
def asStringOr (node : YamlNode) (key fallback : String) : Option String :=
  (node.get key).map fun value => (value.bind YamlNode.asString).getD fallback

/-- `node[key].as<int>(fallback)`; `decode` reads a number. -/
def asIntOr (decode : String → Option Int32) (node : YamlNode) (key : String) (fallback : Int32) :
    Option Int32 :=
  (node.get key).map fun value => ((value.bind YamlNode.asString).bind decode).getD fallback

/-- A number is written in decimal. -/
def ofInt (n : Int32) : YamlNode := scalar n.toInt.repr

/-- `LexicalCast<std::string, TcpServerConf>`. -/
def fromYaml (load : String → Option YamlNode) (emit : YamlNode → String)
    (decode : String → Option Int32) (node : YamlNode) : Option TcpServerConf := do
  let conf : TcpServerConf := {}
  let id ← asStringOr node "id" conf.id
  let type ← asStringOr node "type" conf.type
  let keepalive ← asIntOr decode node "keepalive" conf.keepalive
  let timeout ← asIntOr decode node "timeout" conf.timeout
  let name ← asStringOr node "name" conf.name
  let ssl ← asIntOr decode node "ssl" conf.ssl
  let cert_file ← asStringOr node "cert_file" conf.cert_file
  let key_file ← asStringOr node "key_file" conf.key_file
  let accept_worker ← asString node "accept_worker"
  let io_worker ← asString node "io_worker"
  let process_worker ← asString node "process_worker"
  let args ← StringMap.fromYaml load emit (← asStringOr node "args" "")
  let address ←
    match ← node.get "address" with
    | none => pure conf.address
    | some address => address.items.mapM YamlNode.asString
  return { address, keepalive, timeout, ssl, id, type, name, cert_file, key_file, accept_worker,
           io_worker, process_worker, args }

/-- `LexicalCast<TcpServerConf, std::string>`. -/
def toYaml (load : String → Option YamlNode) (conf : TcpServerConf) : Option YamlNode := do
  let node := null.set "id" (scalar conf.id)
  let node := node.set "type" (scalar conf.type)
  let node := node.set "name" (scalar conf.name)
  let node := node.set "keepalive" (ofInt conf.keepalive)
  let node := node.set "timeout" (ofInt conf.timeout)
  let node := node.set "ssl" (ofInt conf.ssl)
  let node := node.set "cert_file" (scalar conf.cert_file)
  let node := node.set "key_file" (scalar conf.key_file)
  let node := node.set "accept_worker" (scalar conf.accept_worker)
  let node := node.set "io_worker" (scalar conf.io_worker)
  let node := node.set "process_worker" (scalar conf.process_worker)
  let node := node.set "args" (← conf.args.toYaml load)
  return (conf.address.map scalar).foldl (pushAt "address") node

/-! ## What comes back -/

theorem mapM_asString (l : List String) : (l.map scalar).mapM YamlNode.asString = some l := by
  induction l with
  | nil => rfl
  | cons a l ih => simp [ih]

/-- Everything comes back but `args`. -/
theorem fromYaml_toYaml {load : String → Option YamlNode} (emit : YamlNode → String)
    {decode : String → Option Int32} (hload : load "" = some null)
    (hdecode : ∀ n : Int32, decode n.toInt.repr = some n) {c : TcpServerConf} {args : YamlNode}
    (hargs : c.args.toYaml load = some args) :
    (c.toYaml load).bind (fromYaml load emit decode) = some { c with args := .empty } := by
  have hentries : ∃ entries, toYaml load c =
        some ((c.address.map scalar).foldl (pushAt "address") (map entries)) ∧
      lookup "id" entries = some (scalar c.id) ∧
      lookup "type" entries = some (scalar c.type) ∧
      lookup "keepalive" entries = some (ofInt c.keepalive) ∧
      lookup "timeout" entries = some (ofInt c.timeout) ∧
      lookup "name" entries = some (scalar c.name) ∧
      lookup "ssl" entries = some (ofInt c.ssl) ∧
      lookup "cert_file" entries = some (scalar c.cert_file) ∧
      lookup "key_file" entries = some (scalar c.key_file) ∧
      lookup "accept_worker" entries = some (scalar c.accept_worker) ∧
      lookup "io_worker" entries = some (scalar c.io_worker) ∧
      lookup "process_worker" entries = some (scalar c.process_worker) ∧
      lookup "args" entries = some args ∧
      lookup "address" entries = listed [] := by
    unfold toYaml
    rw [hargs]
    exact ⟨_, by simp only [set_null, set_map]; rfl, by simp [listed]⟩
  obtain ⟨entries, htoYaml, hid, htype, hkeepalive, htimeout, hname, hssl, hcert, hkey, haccept,
    hio, hprocess, hargs', haddress⟩ := hentries
  obtain ⟨entries', hfold, hkeep, haddress'⟩ := foldl_pushAt "address" _ [] entries haddress
  rw [htoYaml, hfold, Option.bind_some]
  have hstring : ∀ {key value} fallback, key ≠ "address" →
      lookup key entries = some (scalar value) →
      asStringOr (map entries') key fallback = some value := by
    intro key value fallback hne hlookup
    rw [asStringOr, get_map, hkeep key hne, hlookup]
    rfl
  have hint : ∀ {key value} fallback, key ≠ "address" →
      lookup key entries = some (ofInt value) →
      asIntOr decode (map entries') key fallback = some value := by
    intro key value fallback hne hlookup
    rw [asIntOr, get_map, hkeep key hne, hlookup, ofInt, Option.map_some, Option.bind_some,
      asString_scalar, Option.bind_some, hdecode]
    rfl
  have hscalar : ∀ {key value}, key ≠ "address" → lookup key entries = some (scalar value) →
      asString (map entries') key = some value := by
    intro key value hne hlookup
    rw [asString, get_map, hkeep key hne, hlookup]
    rfl
  -- `args` is no scalar, and what is read is the fallback
  have hfallback : asStringOr (map entries') "args" "" = some "" := by
    rw [asStringOr, get_map, hkeep "args" (by decide), hargs', Option.map_some, Option.bind_some,
      StringMap.asString_toYaml load hargs]
    rfl
  have hempty : StringMap.fromYaml load emit "" = some .empty := by
    rw [StringMap.fromYaml, hload]
    rfl
  have haddress'' : (map entries').get "address" = some (listed (c.address.map scalar)) := by
    rw [get_map, haddress']
    rfl
  simp only [fromYaml, hstring _ (by decide) hid, hstring _ (by decide) htype,
    hint _ (by decide) hkeepalive, hint _ (by decide) htimeout, hstring _ (by decide) hname,
    hint _ (by decide) hssl, hstring _ (by decide) hcert, hstring _ (by decide) hkey,
    hscalar (by decide) haccept, hscalar (by decide) hio, hscalar (by decide) hprocess, hfallback,
    haddress'', hempty, Option.bind_eq_bind, Option.bind_some]
  by_cases hnil : c.address = []
  · rw [hnil]
    rfl
  · rw [listed, if_neg (mt List.map_eq_nil_iff.mp hnil)]
    dsimp only
    rw [items, mapM_asString]
    rfl

/-- **Configuration of a server.** For every loader that makes a null of the empty text, every
emitter and every reader of numbers that reads decimal ones: a configuration that is written and
read is equal to the one that was written if and only if it has no `args`. -/
theorem readBack_iff {load : String → Option YamlNode} (emit : YamlNode → String)
    {decode : String → Option Int32} (hload : load "" = some null)
    (hdecode : ∀ n : Int32, decode n.toInt.repr = some n) (c : TcpServerConf) :
    (∃ c', (c.toYaml load).bind (fromYaml load emit decode) = some c' ∧ c'.eq c = true) ↔
      c.args = .empty := by
  constructor
  · rintro ⟨c', hback, heq⟩
    cases hargs : c.args.toYaml load with
    | none =>
      rw [toYaml, hargs] at hback
      cases hback
    | some args =>
      rw [fromYaml_toYaml emit hload hdecode hargs] at hback
      rw [← eq_iff.mp heq, ← Option.some.inj hback]
  · intro hempty
    have hargs : c.args.toYaml load = some null := by
      rw [hempty]
      rfl
    refine ⟨_, fromYaml_toYaml emit hload hdecode hargs, eq_iff.mpr ?_⟩
    rw [← hempty]

def loadScalar (v : String) : Option YamlNode := if v = "" then some null else some (scalar v)

def decodeInt (v : String) : Option Int32 := v.toInt?.map Int32.ofInt

theorem decodeInt_repr (n : Int32) : decodeInt n.toInt.repr = some n := by
  rw [decodeInt, Int.toInt?_repr, Option.map_some, Int32.ofInt_toInt]

/-- The default configuration with an address. -/
theorem readBack_iff_address :
    ∃ c', (TcpServerConf.toYaml loadScalar { address := ["0.0.0.0:80"] }).bind
        (fromYaml loadScalar (fun _ => "") decodeInt) = some c' ∧
      c'.eq { address := ["0.0.0.0:80"] } = true :=
  (readBack_iff _ rfl decodeInt_repr _).mpr rfl

/-- An argument is lost. -/
theorem not_readBack :
    ¬∀ (load : String → Option YamlNode) (emit : YamlNode → String)
      (decode : String → Option Int32), load "" = some null →
      (∀ n : Int32, decode n.toInt.repr = some n) → ∀ c : TcpServerConf,
      ∃ c', (c.toYaml load).bind (fromYaml load emit decode) = some c' ∧ c'.eq c = true := by
  intro h
  obtain ⟨c', hback, heq⟩ := h loadScalar (fun _ => "") decodeInt rfl decodeInt_repr
    { args := StringMap.empty.insert ("timeout", "5") }
  have hargs : (StringMap.empty.insert ("timeout", "5")).toYaml loadScalar =
      some (map [("timeout", scalar "5")]) := rfl
  rw [fromYaml_toYaml _ rfl decodeInt_repr hargs] at hback
  rw [eq_iff.mp heq] at hback
  exact absurd hback (by decide)

end TcpServerConf

end Captain
