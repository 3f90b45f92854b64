import Captain.Yaml
import Mathlib.Data.List.Basic

/-!
# `Config::LoadFromYaml` (`captain/config.cpp`)

`ListAllMember` lists the nodes of a tree with their dotted paths, each before what is below it. It
drops a node, with all that is below, if its path has a character outside an alphabet of lower-case
letters; the path is made lower-case later, when `LoadFromYaml` looks for the variable. `Lookup`
registers no name outside of the same alphabet.

`loadFromYaml_iff`: `fromString` is called on the variables that the lower-case paths name, with the
nodes' texts and in the order of the document, if and only if no path with an upper-case letter
names a variable.
-/

namespace Captain

namespace YamlNode

/-- The path of the node at `key` of the node at `path`. -/
def member (path key : String) : String :=
  if path.isEmpty then key else path ++ "." ++ key

mutual

/-- The nodes of a tree with their paths, a map before its entries. -/
def nodes (path : String) (node : YamlNode) : List (String × YamlNode) :=
  (path, node) ::
    match node with
    | map entries => entryNodes path entries
    | _ => []

def entryNodes (path : String) : List (String × YamlNode) → List (String × YamlNode)
  | [] => []
  | (key, node) :: entries => nodes (member path key) node ++ entryNodes path entries

end

/-- `keys` lead down from the first node to the second. -/
inductive Descends : YamlNode → List String → YamlNode → Prop
  | here (node : YamlNode) : Descends node [] node
  | entry {entries : List (String × YamlNode)} {key : String} {child node : YamlNode}
      {keys : List String} (hentry : (key, child) ∈ entries) (hdesc : Descends child keys node) :
      Descends (map entries) (key :: keys) node

mutual

theorem descends_of_mem_nodes {path : String} : (root : YamlNode) → ∀ x ∈ root.nodes path,
    ∃ keys, Descends root keys x.2 ∧ x.1 = keys.foldl member path
  | map entries => by
    intro x hx
    rw [nodes, List.mem_cons] at hx
    rcases hx with rfl | hx
    · exact ⟨[], .here _, rfl⟩
    · obtain ⟨key, child, hentry, keys, hdesc, hpath⟩ := descends_of_mem_entryNodes entries x hx
      exact ⟨key :: keys, .entry hentry hdesc, hpath⟩
  | null | scalar _ | seq _ => by
    intro x hx
    unfold nodes at hx
    rw [List.mem_singleton.mp hx]
    exact ⟨[], .here _, rfl⟩

theorem descends_of_mem_entryNodes {path : String} : (entries : List (String × YamlNode)) →
    ∀ x ∈ entryNodes path entries, ∃ key child, (key, child) ∈ entries ∧
      ∃ keys, Descends child keys x.2 ∧ x.1 = keys.foldl member (member path key)
  | [] => by
    intro x hx
    cases hx
  | (key, node) :: entries => by
    intro x hx
    rw [entryNodes, List.mem_append] at hx
    rcases hx with hx | hx
    · exact ⟨key, node, List.mem_cons_self, descends_of_mem_nodes node x hx⟩
    · obtain ⟨key', child, hentry, hdesc⟩ := descends_of_mem_entryNodes entries x hx
      exact ⟨key', child, List.mem_cons_of_mem _ hentry, hdesc⟩

end

theorem nodes_subset_entryNodes {path key : String} {child : YamlNode}
    {entries : List (String × YamlNode)} (h : (key, child) ∈ entries) :
    child.nodes (member path key) ⊆ entryNodes path entries := by
  induction entries with
  | nil => cases h
  | cons e entries ih =>
    intro x hx
    rw [entryNodes, List.mem_append]
    rcases List.mem_cons.mp h with rfl | h
    · exact Or.inl hx
    · exact Or.inr (ih h hx)

theorem mem_nodes_of_descends {root node : YamlNode} {keys : List String} (path : String)
    (h : Descends root keys node) : (keys.foldl member path, node) ∈ root.nodes path := by
  induction h generalizing path with
  | here node => cases node <;> simp [nodes]
  | @entry entries key child node keys hentry hdesc ih =>
    rw [nodes, List.mem_cons]
    exact Or.inr (nodes_subset_entryNodes hentry (ih (member path key)))

end YamlNode

namespace Config

open YamlNode

variable {V : Type}

def alphabet : List Char := "abcdefghikjlmnopqrstuvwxyz._012345678".toList

/-- `name.find_first_not_of(...)` is `npos`. -/
def valid (name : String) : Bool := name.toList.all fun c => alphabet.contains c

/-- `s_datas`. -/
structure Datas (V : Type) where
  entries : List (String × V)
  legal : ∀ e ∈ entries, valid e.1 = true

namespace Datas

/-- `Config::LookupBase`. -/
def lookupBase (datas : Datas V) (name : String) : Option V := datas.entries.lookup name

/-- `Config::Lookup` with a default value, which `v` holds; `cast` tells if a variable has the type
that is asked for. The name is thrown. -/
def lookup (datas : Datas V) (cast : V → Bool) (name : String) (v : V) :
    Except String (Option V × Datas V) :=
  match datas.lookupBase name with
  | some v' => .ok (if cast v' then some v' else none, datas)
  | none =>
    if hname : valid name = true then
      .ok (some v, ⟨(name, v) :: datas.entries, by
        intro e he
        rcases List.mem_cons.mp he with rfl | he
        · exact hname
        · exact datas.legal e he⟩)
    else .error name

/-- A variable that `Lookup` returns is registered under the name. -/
theorem lookupBase_of_lookup {datas datas' : Datas V} {cast : V → Bool} {name : String} {v w : V}
    (h : datas.lookup cast name v = .ok (some w, datas')) : datas'.lookupBase name = some w := by
  unfold lookup at h
  split at h
  · rename_i v' hfound
    obtain ⟨hw, rfl⟩ := Prod.mk.inj (Except.ok.inj h)
    split at hw
    · rw [hfound, hw]
    · cases hw
  · split at h
    · obtain ⟨hw, rfl⟩ := Prod.mk.inj (Except.ok.inj h)
      rw [← hw]
      exact List.lookup_cons_self
    · cases h

theorem valid_of_lookupBase {datas : Datas V} {name : String} {v : V}
    (h : datas.lookupBase name = some v) : valid name = true := by
  obtain ⟨entries, hlegal⟩ := datas
  unfold lookupBase at h
  dsimp only at h
  induction entries with
  | nil => cases h
  | cons e entries ih =>
    rw [List.lookup_cons] at h
    split at h
    · rename_i heq
      rw [eq_of_beq heq]
      exact hlegal e List.mem_cons_self
    · exact ih (fun e he => hlegal e (List.mem_cons_of_mem _ he)) h

end Datas

mutual

/-- `ListAllMember`. -/
def listAllMember (path : String) (node : YamlNode) : List (String × YamlNode) :=
  if valid path then
    (path, node) ::
      match node with
      | map entries => listEntries path entries
      | _ => []
  else []

/-- The loop of `ListAllMember`. -/
def listEntries (path : String) : List (String × YamlNode) → List (String × YamlNode)
  | [] => []
  | (key, node) :: entries => listAllMember (member path key) node ++ listEntries path entries

end

/-- What `fromString` is given for a node; `emit` is `operator<<`. -/
def text (emit : YamlNode → String) : YamlNode → String
  | scalar value => value
  | node => emit node

/-- A turn of the loop of `LoadFromYaml`: the variable with the argument of `fromString`. -/
def call (emit : YamlNode → String) (datas : Datas V) (i : String × YamlNode) :
    Option (V × String) :=
  if i.1.isEmpty then none
  else (datas.lookupBase i.1.toLower).map fun var => (var, text emit i.2)

/-- `Config::LoadFromYaml`: the calls of `fromString`. -/
def loadFromYaml (emit : YamlNode → String) (datas : Datas V) (root : YamlNode) :
    List (V × String) :=
  (listAllMember "" root).filterMap (call emit datas)

/-! ## What is dropped -/

theorem valid_of_member {path key : String} (h : valid (member path key) = true) :
    valid path = true := by
  unfold member at h
  split at h
  · rename_i hempty
    rw [String.isEmpty_iff.mp hempty]
    rfl
  · unfold valid at h ⊢
    rw [String.toList_append, String.toList_append, List.all_append, List.all_append] at h
    simp only [Bool.and_eq_true] at h
    exact h.1.1

theorem valid_of_foldl {keys : List String} {path : String}
    (h : valid (keys.foldl member path) = true) : valid path = true := by
  induction keys generalizing path with
  | nil => exact h
  | cons key keys ih => exact valid_of_member (ih h)

theorem filter_nodes_of_invalid {path : String} (root : YamlNode) (h : ¬valid path = true) :
    (root.nodes path).filter (fun x => valid x.1) = [] := by
  rw [List.filter_eq_nil_iff]
  rintro x hx hvalid
  obtain ⟨keys, -, hpath⟩ := descends_of_mem_nodes root x hx
  rw [hpath] at hvalid
  exact h (valid_of_foldl hvalid)

mutual

/-- `ListAllMember` keeps the nodes with valid paths. -/
theorem listAllMember_eq (path : String) (root : YamlNode) :
    listAllMember path root = (root.nodes path).filter fun x => valid x.1 := by
  by_cases hvalid : valid path = true
  · unfold listAllMember nodes
    rw [if_pos hvalid, List.filter_cons_of_pos (a := (path, root)) hvalid]
    match root with
    | map entries =>
      dsimp only
      rw [listEntries_eq path entries]
    | null | scalar _ | seq _ => rfl
  · rw [filter_nodes_of_invalid root hvalid]
    unfold listAllMember
    rw [if_neg hvalid]

theorem listEntries_eq (path : String) (entries : List (String × YamlNode)) :
    listEntries path entries = (entryNodes path entries).filter fun x => valid x.1 := by
  match entries with
  | [] => rw [listEntries, entryNodes, List.filter_nil]
  | (key, node) :: entries =>
    rw [listEntries, entryNodes, List.filter_append, listAllMember_eq (member path key) node,
      listEntries_eq path entries]

end

/-! ## Letters -/

theorem toLower_eq {c : Char} (h : ¬c.isUpper = true) : c.toLower = c := by
  have hnot : ¬(c.val ≥ 'A'.val ∧ c.val ≤ 'Z'.val) := fun hupper => h (decide_eq_true hupper)
  unfold Char.toLower
  rw [dif_neg hnot]

theorem toList_toLower (s : String) : s.toLower.toList = s.toList.map Char.toLower :=
  String.toList_map

theorem isUpper_of_toLower {c : Char} (hlower : alphabet.contains c.toLower = true)
    (hnot : ¬alphabet.contains c = true) : c.isUpper = true := by
  by_contra hupper
  rw [toLower_eq hupper] at hlower
  exact hnot hlower

theorem not_valid_of_isUpper {name : String} (h : name.toList.any Char.isUpper = true) :
    ¬valid name = true := by
  intro hvalid
  obtain ⟨c, hc, hupper⟩ := List.any_eq_true.mp h
  have hmem := List.all_eq_true.mp hvalid c hc
  have hnone : alphabet.all fun c => !c.isUpper := by decide
  have hlower := List.all_eq_true.mp hnone c (List.contains_iff_mem.mp hmem)
  rw [hupper] at hlower
  cases hlower

/-- A name that is only valid in lower case has an upper-case letter. -/
theorem isUpper_of_valid_toLower {name : String} (h : valid name.toLower = true)
    (hnot : ¬valid name = true) : name.toList.any Char.isUpper = true := by
  unfold valid at h hnot
  rw [Bool.not_eq_true, List.all_eq_false] at hnot
  obtain ⟨c, hc, hcnot⟩ := hnot
  refine List.any_eq_true.mpr ⟨c, hc, isUpper_of_toLower ?_ hcnot⟩
  rw [toList_toLower, List.all_map] at h
  exact List.all_eq_true.mp h c hc

/-! ## The calls -/

theorem filterMap_filter_eq_iff {α β : Type} {f : α → Option β} {p : α → Bool} {l : List α} :
    (l.filter p).filterMap f = l.filterMap f ↔ ∀ x ∈ l, ¬p x = true → f x = none := by
  induction l with
  | nil => simp
  | cons x l ih =>
    rw [List.forall_mem_cons, ← ih, List.filter_cons]
    split
    · rename_i hx
      rw [List.filterMap_cons, List.filterMap_cons]
      cases f x <;> simp [hx]
    · rename_i hx
      cases hf : f x with
      | none => simp [hx, hf]
      | some y =>
        -- what the tail is left with is no longer than the tail
        have hle : ((l.filter p).filterMap f).length ≤ (l.filterMap f).length :=
          (List.filter_sublist.filterMap f).length_le
        have hne : (l.filter p).filterMap f ≠ y :: l.filterMap f := by
          intro heq
          rw [heq, List.length_cons] at hle
          omega
        simp [hx, hf, hne]

/-- **Loading.** For every tree, every set of registered variables and every emitter: `LoadFromYaml`
calls `fromString` on the variable of each node whose lower-case path is a registered name, in the
order of the document, with the text of the node and on no other, if and only if no path that names
a variable has an upper-case letter. -/
theorem loadFromYaml_iff (emit : YamlNode → String) (datas : Datas V) (root : YamlNode) :
    loadFromYaml emit datas root = (root.nodes "").filterMap (call emit datas) ↔
      ∀ keys node, Descends root keys node →
        (keys.foldl member "").toList.any Char.isUpper = true →
        datas.lookupBase (keys.foldl member "").toLower = none := by
  unfold loadFromYaml
  rw [listAllMember_eq, filterMap_filter_eq_iff]
  constructor
  · intro h keys node hdesc hupper
    have hcall := h _ (mem_nodes_of_descends "" hdesc) (not_valid_of_isUpper hupper)
    unfold call at hcall
    split at hcall
    · rename_i hempty
      dsimp only at hempty
      rw [String.isEmpty_iff.mp hempty] at hupper
      cases hupper
    · exact Option.map_eq_none_iff.mp hcall
  · intro h x hx hvalid
    obtain ⟨keys, hdesc, hpath⟩ := descends_of_mem_nodes root x hx
    unfold call
    split
    · rfl
    · rw [Option.map_eq_none_iff]
      by_contra hsome
      obtain ⟨v, hv⟩ := Option.ne_none_iff_exists'.mp hsome
      have hupper := isUpper_of_valid_toLower (Datas.valid_of_lookupBase hv) hvalid
      rw [hpath] at hsome hupper
      exact hsome (h keys x.2 hdesc hupper)

/-- A key that is written with a capital. -/
theorem not_loadFromYaml :
    ¬∀ (emit : YamlNode → String) (datas : Datas Nat) (root : YamlNode),
      loadFromYaml emit datas root = (root.nodes "").filterMap (call emit datas) := by
  intro h
  have hload := h (fun _ => "") ⟨[("log", 0)], by decide⟩ (map [("Log", scalar "x")])
  have hlower : "Log".toLower = "log" := by
    apply String.toList_injective
    rw [toList_toLower]
    decide
  have hnodes : nodes "" (map [("Log", scalar "x")]) =
      [("", map [("Log", scalar "x")]), ("Log", scalar "x")] := rfl
  have hcall : call (fun _ => "") ⟨[("log", 0)], by decide⟩ ("Log", scalar "x") =
      some (0, "x") := by
    unfold call
    rw [if_neg (by decide), hlower]
    rfl
  rw [hnodes, List.filterMap_cons_none rfl, List.filterMap_cons_some hcall] at hload
  have hnil : loadFromYaml (fun _ => "") ⟨[("log", 0)], by decide⟩
      (map [("Log", scalar "x")]) = [] := rfl
  rw [hnil] at hload
  cases hload

end Config

end Captain
