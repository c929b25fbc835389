import Sodp.Delta
import Sodp.GoValue

/-!
# Deltas of the Go server

`Diff` and `ApplyOps` of `delta.go`. A range over a map visits the keys in an order that Go leaves
open, so `diff` takes that order as an argument, one for every map on the way. `applyOp` gets the
pieces of its path: the last of them is empty if the path ends with a slash, which stands for the
value arrived at.
-/

namespace Sodp
open Option GoValue

structure KeyOrder (κ : Type*) where
  order : List κ → List κ
  perm : ∀ keys, (order keys).Perm keys

namespace KeyOrder
variable {κ : Type*}

def sorted : KeyOrder κ := ⟨id, fun _ => .refl _⟩

def elems (o : KeyOrder κ) (keys : List κ) : List {k // k ∈ keys} :=
  (o.order keys).attach.map fun k => ⟨k.1, (o.perm keys).mem_iff.mp k.2⟩

theorem mem_elems (o : KeyOrder κ) {keys : List κ} (k : {k // k ∈ keys}) : k ∈ o.elems keys := by
  rw [elems, List.mem_map]
  exact ⟨⟨k.1, (o.perm keys).mem_iff.mpr k.2⟩, List.mem_attach _ _, rfl⟩

end KeyOrder

namespace GoServer
open GoValue (equal)

structure DeltaOp where
  op : DeltaOpKind
  path : String
  value : GoValue

structure DeltaEntry where
  key : String
  version : ℕ
  ops : List DeltaOp

def DeltaOp.under (k : String) (op : DeltaOp) : DeltaOp := { op with path := "/" ++ k ++ op.path }

def diff (range : List String → KeyOrder String) : GoValue → GoValue → List DeltaOp
  | .map ⟨oldKeys, _, oldVal⟩, .map newMap =>
    (((range []).elems oldKeys).flatMap fun k : {k // k ∈ oldKeys} =>
      match newMap.get? k with
      | none => [⟨.remove, "/" ++ k.1, .nil⟩]
      | some newVal =>
        if (oldVal k).isMap && newVal.isMap then
          (diff (fun q => range (k.1 :: q)) (oldVal k) newVal).map (DeltaOp.under k.1)
        else if equal (oldVal k) newVal then []
        else [⟨.update, "/" ++ k.1, newVal⟩]) ++
    (((range []).elems newMap.keys).filter fun k => k.1 ∉ oldKeys).map fun k =>
      ⟨.add, "/" ++ k.1, newMap.val k⟩
  | _, new => [⟨.update, "/", new⟩]

/-- What `diff` reports of two maps at one place. -/
structure FieldChange where
  keys : List String
  before : Option GoValue
  after : Option GoValue

namespace FieldChange

def under (k : String) (c : FieldChange) : FieldChange := { c with keys := k :: c.keys }

def toJson (c : FieldChange) : Delta.Change :=
  ⟨c.keys, c.before.map GoValue.toJson, c.after.map GoValue.toJson⟩

def path (keys : List String) : String := keys.foldr (fun k path => "/" ++ k ++ path) ""

def toOp (c : FieldChange) : DeltaOp := ⟨c.toJson.kind, path c.keys, c.after.getD .nil⟩

theorem path_singleton (k : String) : path [k] = "/" ++ k := by
  simp [path]

theorem toList_path (keys : List String) :
    (path keys).toList = keys.flatMap fun k => '/' :: k.toList := by
  induction keys with
  | nil => rfl
  | cons k keys ih =>
    change ("/" ++ k ++ path keys).toList = _
    simp [String.toList_append, ih]

end FieldChange

def fieldChanges (range : List String → KeyOrder String) : GoValue → GoValue → List FieldChange
  | .map ⟨oldKeys, _, oldVal⟩, .map newMap =>
    (((range []).elems oldKeys).flatMap fun k : {k // k ∈ oldKeys} =>
      match newMap.get? k with
      | none => [⟨[k.1], some (oldVal k), none⟩]
      | some newVal =>
        if (oldVal k).isMap && newVal.isMap then
          (fieldChanges (fun q => range (k.1 :: q)) (oldVal k) newVal).map (FieldChange.under k.1)
        else if equal (oldVal k) newVal then []
        else [⟨[k.1], some (oldVal k), some newVal⟩]) ++
    (((range []).elems newMap.keys).filter fun k => k.1 ∉ oldKeys).map fun k =>
      ⟨[k.1], none, some (newMap.val k)⟩
  | _, _ => []

variable {new old : GoValue} {range : List String → KeyOrder String}

theorem diff_of_not_maps (range : List String → KeyOrder String)
    (h : ¬(old.isMap = true ∧ new.isMap = true)) : diff range old new = [⟨.update, "/", new⟩] := by
  cases old with
  | map =>
    cases new with
    | map => exact absurd ⟨rfl, rfl⟩ h
    | _ => rw [diff]; simp
  | _ => rw [diff]; simp

theorem diff_eq_fieldChanges (range : List String → KeyOrder String) (ho : old.isMap = true)
    (hn : new.isMap = true) :
    diff range old new = (fieldChanges range old new).map FieldChange.toOp := by
  induction old generalizing range new with
  | map o ih =>
    obtain ⟨n, rfl⟩ := (isMap_iff new).mp hn
    obtain ⟨ks, hs, f⟩ := o
    rw [diff, fieldChanges, List.map_append, List.map_flatMap, List.map_map]
    congr 1
    · refine List.flatMap_congr fun k _ => ?_
      cases n.get? k.1 with
      | none => simp [FieldChange.toOp, FieldChange.path_singleton, FieldChange.toJson,
          Delta.Change.kind]
      | some =>
        dsimp only
        split_ifs with hmaps
        · rw [Bool.and_eq_true] at hmaps
          rw [ih k.1 (f k) (OrderedMap.get?_val ⟨ks, hs, f⟩ k) _ hmaps.1 hmaps.2, List.map_map,
            List.map_map]
          rfl
        · rfl
        · simp [FieldChange.toOp, FieldChange.path_singleton, FieldChange.toJson, Delta.Change.kind]
    · refine List.map_congr_left fun k _ => ?_
      simp [FieldChange.toOp, FieldChange.path_singleton, FieldChange.toJson, Delta.Change.kind]
  | _ => cases ho

theorem mem_map_under {k : String} {q : List String} {b a : Option GoValue}
    {l : List FieldChange} :
    ⟨q, b, a⟩ ∈ l.map (FieldChange.under k) ↔ ∃ r, q = k :: r ∧ ⟨r, b, a⟩ ∈ l := by
  rw [List.mem_map]
  constructor
  · rintro ⟨⟨r, _, _⟩, hd, ⟨⟩⟩
    exact ⟨r, rfl, hd⟩
  · rintro ⟨r, rfl, hd⟩
    exact ⟨_, hd, rfl⟩

theorem mem_fieldChanges_map {o n : OrderedMap String GoValue} {q : List String}
    {b a : Option GoValue} :
    ⟨q, b, a⟩ ∈ fieldChanges range (.map o) (.map n) ↔ ∃ k r, q = k :: r ∧
      match o.get? k, n.get? k with
      | none, none => False
      | some v, some w =>
        if v.isMap = true ∧ w.isMap = true then
          ⟨r, b, a⟩ ∈ fieldChanges (fun q => range (k :: q)) v w
        else equal v w = false ∧ r = [] ∧ b = some v ∧ a = some w
      | v, w => r = [] ∧ b = v ∧ a = w := by
  obtain ⟨ks, hs, f⟩ := o
  simp only [fieldChanges, List.mem_append, List.mem_flatMap, List.mem_map, List.mem_filter,
    decide_eq_true_eq, (range []).mem_elems, true_and, Subtype.exists, ← exists_or]
  refine exists_congr fun k => ?_
  by_cases hk : k ∈ ks
  · rw [OrderedMap.get?_val ⟨ks, hs, f⟩ ⟨k, hk⟩]
    cases n.get? k with
    | none => simp [hk]
    | some w =>
      by_cases hmaps : (f ⟨k, hk⟩).isMap = true ∧ w.isMap = true
      · simp [hk, hmaps, mem_map_under, -List.mem_map]
      · cases hequal : equal (f ⟨k, hk⟩) w <;> simp [hk, hmaps, hequal]
  · rw [(OrderedMap.get?_eq_none_iff ⟨ks, hs, f⟩ k).mpr hk]
    cases hn : n.get? k with
    | none => simp [hk, (OrderedMap.get?_eq_none_iff n k).mp hn]
    | some w =>
      obtain ⟨hmem, rfl⟩ := (OrderedMap.get?_eq_some_iff n k w).mp hn
      simp [hk, hmem, @eq_comm _ q, @eq_comm _ a, @eq_comm _ b]

theorem mem_fieldChanges_iff (ho : old.isMap = true) (hn : new.isMap = true) (c : FieldChange) :
    c ∈ fieldChanges range old new ↔
      Delta.Leaf old.toJson new.toJson c.keys ∧ c.before = old.lookup c.keys ∧
        c.after = new.lookup c.keys ∧
        ∀ v w, c.before = some v → c.after = some w → equal v w = false := by
  obtain ⟨q, b, a⟩ := c
  induction q generalizing range old new with
  | nil =>
    obtain ⟨o, rfl⟩ := (isMap_iff old).mp ho
    obtain ⟨n, rfl⟩ := (isMap_iff new).mp hn
    simp [mem_fieldChanges_map, Delta.Leaf, toJson_map]
  | cons k q ih =>
    obtain ⟨o, rfl⟩ := (isMap_iff old).mp ho
    obtain ⟨n, rfl⟩ := (isMap_iff new).mp hn
    simp only [mem_fieldChanges_map, List.cons.injEq, and_assoc, exists_and_left, exists_eq_left',
      Delta.Leaf, isObject_toJson, isMap_map, get?_toJson, get?_map, lookup_cons, true_and]
    cases o.get? k with
    | none => cases n.get? k <;> simp +contextual [GoValue.lookup]
    | some v =>
      cases n.get? k with
      | none => simp +contextual [GoValue.lookup]
      | some w =>
        by_cases hmaps : v.isMap = true ∧ w.isMap = true
        · simp [hmaps, ih hmaps.1 hmaps.2]
        · cases q with
          | nil => simp +contextual [hmaps, Delta.Leaf, isObject_toJson, GoValue.lookup, iff_def]
          | cons j q =>
            have hno : ¬ Delta.Leaf v.toJson w.toJson (j :: q) := fun h => hmaps
              ⟨isObject_toJson v ▸ h.1, isObject_toJson w ▸ h.2.1⟩
            simp [hmaps, hno]

theorem FieldChange.reports (ho : old.isMap = true) (hn : new.isMap = true) {c : FieldChange}
    (hc : c ∈ fieldChanges range old new) : c.toJson.Reports old.toJson new.toJson := by
  obtain ⟨hleaf, -, hafter, -⟩ := (mem_fieldChanges_iff ho hn c).mp hc
  refine ⟨hleaf, ?_⟩
  rw [FieldChange.toJson, hafter, lookup_toJson]

/-! ### Applying ops -/

def fieldsOf : GoValue → OrderedMap String GoValue
  | .map m => m
  | _ => .empty

/-- `applyOp` with the path cut at slashes. A remove on a slice drops the head whatever the index
is, and an op on a value that is no map starts from an empty one. -/
def applyParts (op : DeltaOpKind) (value : GoValue) : List String → GoValue → GoValue
  | [], current => current
  | [last], current =>
    if last = "" then if op = .remove then .nil else value
    else
      match current with
      | .slice xs =>
        if last = "-" ∧ op = .add then .slice (xs ++ [value])
        else if op = .remove ∧ xs ≠ [] then .slice xs.tail
        else .slice xs
      | _ =>
        match op with
        | .add | .update => .map ((fieldsOf current).insert last value)
        | .remove => .map ((fieldsOf current).erase last)
  | field :: next :: rest, current =>
    match current with
    | .slice xs => .slice xs
    | _ =>
      .map ((fieldsOf current).insert field
        (applyParts op value (next :: rest) (((fieldsOf current).get? field).getD .nil)))

def applyOp (current : GoValue) (op : DeltaOp) : GoValue :=
  match op.path.toList with
  | '/' :: rest => applyParts op.op op.value ((rest.splitOn '/').map String.ofList) current
  | _ => current

def applyOps (current : GoValue) (ops : List DeltaOp) : GoValue := ops.foldl applyOp current

/-- An append and at most one removal at the head. -/
def Appended (xs : List GoValue) (element : GoValue) (ys : List GoValue) (ops : List DeltaOp) :
    Prop :=
  ops = [⟨.add, "/-", element⟩] ∧ ys = xs ++ [element] ∨
    xs ≠ [] ∧ ops = [⟨.add, "/-", element⟩, ⟨.remove, "/0", .nil⟩] ∧ ys = (xs ++ [element]).tail

end GoServer

end Sodp
