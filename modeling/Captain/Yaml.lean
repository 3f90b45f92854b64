import Mathlib.Tactic.Cases

/-!
# Trees of `YAML::Node`

What a program sees of a document: nulls, scalars, sequences and maps. The text that a node is
written to is not modelled; loading it gives the node back.
-/

namespace Captain

inductive YamlNode
  | null
  | scalar (value : String)
  | seq (items : List YamlNode)
  | map (entries : List (String × YamlNode))

namespace YamlNode

/-- The entries with `key` set to `value`. -/
def setEntry (key : String) (value : YamlNode) : List (String × YamlNode) → List (String × YamlNode)
  | [] => [(key, value)]
  | (k, v) :: entries =>
    if k = key then (k, value) :: entries else (k, v) :: setEntry key value entries

def lookup (key : String) : List (String × YamlNode) → Option YamlNode
  | [] => none
  | (k, v) :: entries => if k = key then some v else lookup key entries

/-- `node[key] = value`, for a node that is null or a map. -/
def set (node : YamlNode) (key : String) (value : YamlNode) : YamlNode :=
  match node with
  | null => map [(key, value)]
  | map entries => map (setEntry key value entries)
  | node => node

/-- `node.push_back(item)`, for a node that is null or a sequence. -/
def pushBack (node item : YamlNode) : YamlNode :=
  match node with
  | null => seq [item]
  | seq items => seq (items ++ [item])
  | node => node

/-- `node[key]`, which may be undefined; a scalar has no subscripts, and throws. -/
def get (node : YamlNode) (key : String) : Option (Option YamlNode) :=
  match node with
  | map entries => some (lookup key entries)
  | scalar _ => none
  | _ => some none

/-- `node.as<std::string>()`, which throws if the node is no scalar. -/
def asString : YamlNode → Option String
  | scalar value => some value
  | _ => none

/-- `node[key].as<std::string>()`, or the empty string if it is not defined. -/
def getString (node : YamlNode) (key : String) : Option String :=
  (node.get key).bind fun value =>
    match value with
    | none => some ""
    | some value => value.asString

/-- `node[i]` for every `i < node.size()`; the keys of a map are not taken for indices. -/
def items : YamlNode → List YamlNode
  | seq items => items
  | _ => []

/-- `node[key].push_back(item)`. -/
def pushAt (key : String) (node item : YamlNode) : YamlNode :=
  node.set key ((((node.get key).getD none).getD null).pushBack item)

/-- What `node[key]` is after `push_back` of all `nodes`. -/
def listed (nodes : List YamlNode) : Option YamlNode :=
  if nodes = [] then none else some (seq nodes)

@[simp] theorem lookup_setEntry (key : String) (value : YamlNode) (k : String)
    (entries : List (String × YamlNode)) :
    lookup k (setEntry key value entries) = if key = k then some value else lookup k entries := by
  induction entries with
  | nil => rfl
  | cons e entries ih =>
    unfold setEntry
    by_cases hk : e.1 = key
    · rw [if_pos hk]
      subst hk
      unfold lookup
      split <;> rfl
    · rw [if_neg hk]
      unfold lookup
      by_cases hek : e.1 = k
      · rw [if_pos hek, if_neg fun h => hk (hek.trans h.symm), if_pos hek]
      · rw [if_neg hek, if_neg hek]
        exact ih

@[simp] theorem lookup_nil (k : String) : lookup k [] = none := rfl

@[simp] theorem set_null (key : String) (value : YamlNode) :
    null.set key value = map (setEntry key value []) := rfl

@[simp] theorem set_map (entries : List (String × YamlNode)) (key : String) (value : YamlNode) :
    (map entries).set key value = map (setEntry key value entries) := rfl

@[simp] theorem get_null (key : String) : null.get key = some none := rfl

@[simp] theorem get_map (entries : List (String × YamlNode)) (key : String) :
    (map entries).get key = some (lookup key entries) := rfl

@[simp] theorem asString_scalar (value : String) : (scalar value).asString = some value := rfl

/-- A node that is built by `push_back`. -/
theorem foldl_pushBack (nodes : List YamlNode) (items : List YamlNode) :
    nodes.foldl pushBack (seq items) = seq (items ++ nodes) := by
  induction nodes generalizing items with
  | nil => rw [List.append_nil]; rfl
  | cons node nodes ih =>
    show nodes.foldl pushBack (seq (items ++ [node])) = _
    rw [ih, List.append_assoc]
    rfl

/-- Pushing to one key leaves the others alone. -/
theorem foldl_pushAt (key : String) (items : List YamlNode) : ∀ (nodes : List YamlNode)
    (entries : List (String × YamlNode)), lookup key entries = listed nodes →
    ∃ entries', items.foldl (pushAt key) (map entries) = map entries' ∧
      (∀ k, k ≠ key → lookup k entries' = lookup k entries) ∧
      lookup key entries' = listed (nodes ++ items) := by
  induction items with
  | nil =>
    intro nodes entries h
    refine ⟨entries, rfl, fun _ _ => rfl, ?_⟩
    rw [h, List.append_nil]
  | cons item items ih =>
    intro nodes entries h
    have hpush : pushAt key (map entries) item =
        map (setEntry key (seq (nodes ++ [item])) entries) := by
      unfold pushAt
      rw [get_map, h, listed]
      split
      · rename_i hnil
        rw [hnil]
        rfl
      · rfl
    obtain ⟨entries', hfold, hkeep, hlisted⟩ :=
      ih (nodes ++ [item]) (setEntry key (seq (nodes ++ [item])) entries) (by simp [listed])
    refine ⟨entries', by rw [List.foldl_cons, hpush, hfold], fun k hk => ?_, ?_⟩
    · rw [hkeep k hk, lookup_setEntry, if_neg (Ne.symm hk)]
    · rw [hlisted, List.append_assoc]
      rfl

theorem items_foldl_pushBack (nodes : List YamlNode) :
    (nodes.foldl pushBack null).items = nodes := by
  cases nodes with
  | nil => rfl
  | cons node nodes =>
    show (nodes.foldl pushBack (seq [node])).items = _
    rw [foldl_pushBack]
    rfl

end YamlNode

end Captain
