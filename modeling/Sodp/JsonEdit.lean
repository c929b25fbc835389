import Sodp.JsonValue

/-!
# Editing a stored value

The functions by which the read-modify-write calls of `server.rs` compute the value they store. Each
one is described by what a lookup finds in its result: the edit itself at the positions it names,
and the old value at every position apart from them.
-/

namespace Sodp

namespace Value

def fields : Value → OrderedMap String Value
  | .object m => m
  | _ => .empty

theorem get?_fields (v : Value) (k : String) : v.fields.get? k = v.get? k := by
  cases v with
  | object => rfl
  | _ => exact OrderedMap.get?_empty k

theorem lookup_null {q : List String} (hq : q ≠ []) : Value.null.lookup q = none := by
  cases q with
  | nil => exact absurd rfl hq
  | cons => rfl

theorem lookup_getD_null {v : Option Value} {q : List String} (hq : q ≠ []) :
    (v.getD .null).lookup q = v.bind fun w => w.lookup q := by
  cases v with
  | none => exact lookup_null hq
  | some => rfl

end Value

open Value

def pathParts (path : String) : List String :=
  ((path.toList.dropWhile (· = '/')).splitOn '/').map String.ofList

def dotParts (s : String) : List String := (s.toList.splitOn '.').map String.ofList

def startsWithSlash (path : String) : Bool := path.toList.head? = some '/'

def setInRecursive (val : Value) : Value → List String → Value
  | _, [] => val
  | node, key :: rest =>
    .object (node.fields.insert key
      (setInRecursive val ((node.fields.get? key).getD .null) rest))

def jsonSetIn (root : Value) (path : String) (newVal : Value) : Except String Value :=
  if path = "/" then .ok newVal
  else if ¬ startsWithSlash path then
    .error s!"state.set_in: path must start with '/', got '{path}'"
  else .ok (setInRecursive newVal root (pathParts path))

def removeInRecursive : Value → List String → Value
  | .object map, [key] => .object (map.erase key)
  | .object map, key :: rest =>
    match map.get? key with
    | some child => .object (map.insert key (removeInRecursive child rest))
    | none => .object map
  | node, _ => node

def jsonRemoveIn (root : Value) (path : String) : Value :=
  if path = "" ∨ path = "/" then .null
  else if ¬ startsWithSlash path then root
  else removeInRecursive root (pathParts path)

def jsonMerge : Value → Value → Value
  | .object base, .object ⟨ks, _, f⟩ =>
    .object (ks.attach.foldl
      (fun m k => m.insert k.1 (jsonMerge ((m.get? k.1).getD .null) (f k))) base)
  | _, patch => patch

theorem notMem_of_mem_splitOn {a : Char} {l part : List Char} (h : part ∈ l.splitOn a) :
    a ∉ part := by
  induction l generalizing part with
  | nil =>
    rw [List.splitOn, List.splitOnP_nil, List.mem_singleton] at h
    rw [h]
    exact List.not_mem_nil
  | cons c l ih =>
    rw [List.splitOn, List.splitOnP_cons_eq_if_modifyHead] at h
    split_ifs at h with hc
    · rcases List.mem_cons.mp h with rfl | hrest
      · exact List.not_mem_nil
      · exact ih hrest
    · change part ∈ (l.splitOn a).modifyHead (List.cons c) at h
      cases hparts : l.splitOn a with
      | nil => exact absurd hparts (List.splitOn_ne_nil a l)
      | cons =>
        rw [hparts] at h ih
        rcases List.mem_cons.mp h with rfl | hrest
        · rw [List.mem_cons, not_or]
          exact ⟨fun heq => hc (by simp [heq]), ih List.mem_cons_self⟩
        · exact ih (List.mem_cons_of_mem _ hrest)

theorem pathParts_ne_nil (path : String) : pathParts path ≠ [] := by
  rw [pathParts, ne_eq, List.map_eq_nil_iff]
  exact List.splitOn_ne_nil '/' _

theorem eq_of_get? {v w : Value} (hv : v.isObject = true) (hw : w.isObject = true)
    (h : ∀ k, v.get? k = w.get? k) : v = w := by
  obtain ⟨m, rfl⟩ := (isObject_iff v).mp hv
  obtain ⟨n, rfl⟩ := (isObject_iff w).mp hw
  exact congrArg Value.object (OrderedMap.ext_get? h)

/-! ### Setting a position -/

variable (base val node : Value)

theorem get?_setInRecursive_self (key : String) (rest : List String) :
    (setInRecursive val node (key :: rest)).get? key =
      some (setInRecursive val ((node.get? key).getD .null) rest) := by
  rw [setInRecursive, get?_object, OrderedMap.get?_insert_self, get?_fields]

theorem get?_setInRecursive_of_ne {key k : String} (h : k ≠ key)
    (rest : List String) : (setInRecursive val node (key :: rest)).get? k = node.get? k := by
  rw [setInRecursive, get?_object, OrderedMap.get?_insert_of_ne _ h, get?_fields]

theorem lookup_setInRecursive_self (root : Value) (parts : List String) :
    (setInRecursive val root parts).lookup parts = some val := by
  induction parts generalizing root with
  | nil => rfl
  | cons key rest ih =>
    rw [lookup_cons, get?_setInRecursive_self, Option.bind_some]
    exact ih _

variable {parts q : List String} {patch root : Value}

theorem lookup_setInRecursive_of_apart (root : Value) (h : Apart parts q) :
    (setInRecursive val root parts).lookup q = root.lookup q := by
  induction parts generalizing root q with
  | nil => exact absurd rfl h.ne_nil_left
  | cons key rest ih =>
    cases q with
    | nil => exact absurd rfl h.ne_nil
    | cons k =>
      by_cases hk : k = key
      · subst hk
        have hrest := Apart.cons_iff.mp h
        rw [lookup_cons, get?_setInRecursive_self, Option.bind_some, ih _ hrest,
          lookup_getD_null hrest.ne_nil, lookup_cons]
      · rw [lookup_cons, get?_setInRecursive_of_ne _ _ hk, lookup_cons]

theorem setInRecursive_idem (root : Value) (parts : List String) :
    setInRecursive val (setInRecursive val root parts) parts = setInRecursive val root parts := by
  induction parts generalizing root with
  | nil => rfl
  | cons key rest ih =>
    refine eq_of_get? rfl rfl fun k => ?_
    by_cases hk : k = key
    · subst hk
      rw [get?_setInRecursive_self, get?_setInRecursive_self, Option.getD_some, ih]
    · rw [get?_setInRecursive_of_ne _ _ hk]

theorem jsonSetIn_idem {root val updated : Value} {path : String}
    (h : jsonSetIn root path val = .ok updated) : jsonSetIn updated path val = .ok updated := by
  rw [jsonSetIn] at h ⊢
  split_ifs at h ⊢
  · exact h
  · cases h
    rw [setInRecursive_idem]

/-! ### Removing a position -/

theorem removeInRecursive_of_not_isObject {node : Value} (h : node.isObject = false)
    (parts : List String) : removeInRecursive node parts = node := by
  cases node with
  | object => simp [isObject] at h
  | _ => simp only [removeInRecursive]

theorem get?_removeInRecursive_of_ne {key k : String} (h : k ≠ key)
    (rest : List String) : (removeInRecursive node (key :: rest)).get? k = node.get? k := by
  cases node with
  | object map =>
    cases rest with
    | nil => exact OrderedMap.get?_erase_of_ne map h
    | cons =>
      cases hc : map.get? key with
      | none => simp only [removeInRecursive, hc]
      | some =>
        simp only [removeInRecursive, hc, get?_object]
        exact OrderedMap.get?_insert_of_ne map h _
  | _ => simp only [removeInRecursive]

theorem get?_removeInRecursive_self (key key' : String) (rest : List String) :
    (removeInRecursive node (key :: key' :: rest)).get? key =
      (node.get? key).map fun child => removeInRecursive child (key' :: rest) := by
  cases node with
  | object map =>
    cases hc : map.get? key with
    | none => simp only [removeInRecursive, hc, get?_object, Option.map_none]
    | some =>
      simp only [removeInRecursive, hc, get?_object, Option.map_some]
      exact OrderedMap.get?_insert_self map key _
  | _ => simp only [removeInRecursive, Value.get?, Option.map_none]

theorem lookup_removeInRecursive_self (root : Value) (h : parts ≠ []) :
    (removeInRecursive root parts).lookup parts = none := by
  induction parts generalizing root with
  | nil => exact absurd rfl h
  | cons key rest ih =>
    cases rest with
    | nil =>
      cases root with
      | object => simp [removeInRecursive, lookup_cons]
      | _ => simp [removeInRecursive, lookup_cons, Value.get?]
    | cons key' rest =>
      rw [lookup_cons, get?_removeInRecursive_self]
      cases root.get? key with
      | none => rfl
      | some child => exact ih child (List.cons_ne_nil key' rest)

theorem lookup_removeInRecursive_of_apart (root : Value) (h : Apart parts q) :
    (removeInRecursive root parts).lookup q = root.lookup q := by
  induction parts generalizing root q with
  | nil => exact absurd rfl h.ne_nil_left
  | cons key rest ih =>
    cases q with
    | nil => exact absurd rfl h.ne_nil
    | cons k =>
      by_cases hk : k = key
      · subst hk
        have hrest := Apart.cons_iff.mp h
        cases rest with
        | nil => exact absurd rfl hrest.ne_nil_left
        | cons =>
          rw [lookup_cons, get?_removeInRecursive_self, lookup_cons]
          cases root.get? k with
          | none => rfl
          | some child => exact ih child hrest
      · rw [lookup_cons, get?_removeInRecursive_of_ne _ hk, lookup_cons]

variable {P : String → Prop}

theorem allKeys_removeInRecursive (h : root.AllKeys P) (parts : List String) :
    (removeInRecursive root parts).AllKeys P := by
  fun_induction removeInRecursive root parts with
  | case1 =>
    rw [allKeys_object] at h ⊢
    intro k v hv
    rw [OrderedMap.get?_erase] at hv
    split_ifs at hv
    exact h k v hv
  | case2 map key rest hrest child hchild ih =>
    rw [allKeys_object] at h ⊢
    intro k v hv
    rw [OrderedMap.get?_insert] at hv
    split_ifs at hv with hk
    · obtain ⟨hkey, hkeys⟩ := h key child hchild
      rw [hk, ← Option.some.inj hv]
      exact ⟨hkey, ih hkeys⟩
    · exact h k v hv
  | case3 | case4 => exact h

theorem allKeys_jsonRemoveIn (h : root.AllKeys P) (path : String) :
    (jsonRemoveIn root path).AllKeys P := by
  rw [jsonRemoveIn]
  split_ifs
  · trivial
  · exact allKeys_removeInRecursive h _
  · exact h

theorem lookup_removeInRecursive_none (h : root.lookup q = none) (parts : List String) :
    (removeInRecursive root parts).lookup q = none := by
  induction q generalizing root parts with
  | nil => simp at h
  | cons k q ih =>
    cases parts with
    | nil => cases root <;> simpa only [removeInRecursive] using h
    | cons key rest =>
      by_cases hk : k = key
      · subst hk
        cases rest with
        | nil =>
          have hself := lookup_removeInRecursive_self root (List.cons_ne_nil k [])
          simp only [lookup_cons, lookup_nil, Option.bind_fun_some] at hself
          rw [lookup_cons, hself, Option.bind_none]
        | cons key' rest =>
          rw [lookup_cons] at h
          rw [lookup_cons, get?_removeInRecursive_self]
          cases hc : root.get? k with
          | none => rfl
          | some =>
            rw [hc, Option.bind_some] at h
            exact ih h (key' :: rest)
      · rw [lookup_cons, get?_removeInRecursive_of_ne _ hk, ← lookup_cons, h]

theorem written_path_found (root v : Value) {path : String} (hslash : startsWithSlash path = true)
    (hroot : path ≠ "/") : ∃ updated, jsonSetIn root path v = .ok updated ∧
      updated.lookup (pathParts path) = some v ∧
      (jsonRemoveIn updated path).lookup (pathParts path) = none ∧
      ∀ q, ¬ q <+: pathParts path → ¬ pathParts path <+: q →
        updated.lookup q = root.lookup q ∧
          (jsonRemoveIn updated path).lookup q = root.lookup q := by
  have hempty : path ≠ "" := by
    rintro rfl
    simp [startsWithSlash] at hslash
  rw [jsonSetIn, if_neg hroot, if_neg (not_not.mpr hslash)]
  refine ⟨_, rfl, lookup_setInRecursive_self v root _, ?_⟩
  rw [jsonRemoveIn, if_neg (not_or.mpr ⟨hempty, hroot⟩), if_neg (not_not.mpr hslash)]
  refine ⟨lookup_removeInRecursive_self _ (pathParts_ne_nil path), fun q hq hparts => ?_⟩
  have hapart : Apart (pathParts path) q := ⟨hparts, hq⟩
  rw [lookup_removeInRecursive_of_apart _ hapart]
  exact ⟨lookup_setInRecursive_of_apart v root hapart, lookup_setInRecursive_of_apart v root hapart⟩

theorem double_slash_path_found : ∃ updated,
    jsonSetIn (.object .empty) "/a//b" (.bool true) = .ok updated ∧
      updated.lookup ["a", "", "b"] = some (.bool true) := by
  have hparts : pathParts "/a//b" = ["a", "", "b"] := by decide +kernel
  have hslash : startsWithSlash "/a//b" = true := by decide
  obtain ⟨updated, hset, hfound, -⟩ :=
    written_path_found (.object .empty) (.bool true) hslash (by decide)
  exact ⟨updated, hset, hparts ▸ hfound⟩

/-! ### Merging a patch -/

theorem jsonMerge_of_not_isObject {base : Value} (h : base.isObject = false) (patch : Value) :
    jsonMerge base patch = patch := by
  cases base with
  | object => simp [isObject] at h
  | _ => simp only [jsonMerge]

theorem jsonMerge_scalar (h : patch.isObject = false) :
    jsonMerge base patch = patch := by
  cases patch with
  | object => simp [isObject] at h
  | _ => simp only [jsonMerge]

theorem jsonMerge_null (patch : Value) : jsonMerge .null patch = patch :=
  jsonMerge_of_not_isObject rfl patch

theorem get?_jsonMerge_objects (base patch : OrderedMap String Value) (k : String) :
    (jsonMerge (.object base) (.object patch)).get? k = match patch.get? k with
      | none => base.get? k
      | some w => some (jsonMerge ((base.get? k).getD .null) w) := by
  obtain ⟨ks, hs, f⟩ := patch
  let g : String → Option Value → Value := fun j old =>
    if h : j ∈ ks then jsonMerge (old.getD .null) (f ⟨j, h⟩) else .null
  have hfold : ∀ m : OrderedMap String Value,
      ks.attach.foldl (fun m k => m.insert k.1 (jsonMerge ((m.get? k.1).getD .null) (f k))) m =
        ks.foldl (fun m k => m.insert k (g k (m.get? k))) m := by
    intro m
    have hstep : ∀ (m : OrderedMap String Value) (k : {k // k ∈ ks}),
        jsonMerge ((m.get? k.1).getD .null) (f k) = g k.1 (m.get? k.1) := by
      intro m k
      simp only [g, dif_pos k.2]
    simp only [hstep]
    exact List.foldl_attach (f := fun m k => OrderedMap.insert m k (g k (m.get? k)))
  have hnodup : ks.Nodup := hs.imp fun h => h.ne
  rw [jsonMerge, get?_object, hfold, OrderedMap.get?_foldl_update g hnodup]
  by_cases hk : k ∈ ks
  · rw [if_pos hk, OrderedMap.get?_of_mem ⟨ks, hs, f⟩ hk]
    simp only [g, dif_pos hk]
  · rw [if_neg hk, (OrderedMap.get?_eq_none_iff ⟨ks, hs, f⟩ k).mpr hk]

theorem get?_jsonMerge (hp : patch.isObject = true) (k : String) :
    (jsonMerge base patch).get? k = match patch.get? k with
      | none => base.get? k
      | some w => some (jsonMerge ((base.get? k).getD .null) w) := by
  obtain ⟨pm, rfl⟩ := (isObject_iff patch).mp hp
  cases hb : base.isObject with
  | true =>
    obtain ⟨bm, rfl⟩ := (isObject_iff base).mp hb
    exact get?_jsonMerge_objects bm pm k
  | false =>
    rw [jsonMerge_of_not_isObject hb, get?_of_not_isObject hb, get?_object]
    cases pm.get? k with
    | none => rfl
    | some w => exact congrArg some (jsonMerge_null w).symm

theorem isObject_jsonMerge (hp : patch.isObject = true) :
    (jsonMerge base patch).isObject = true := by
  cases hb : base.isObject with
  | true =>
    obtain ⟨-, rfl⟩ := (isObject_iff base).mp hb
    obtain ⟨-, rfl⟩ := (isObject_iff patch).mp hp
    simp only [jsonMerge, isObject_object]
  | false => rw [jsonMerge_of_not_isObject hb, hp]

theorem get?_ne_jsonMerge (k : String) (v base : Value) : v.get? k ≠ some (jsonMerge base v) := by
  induction v generalizing base with
  | object m ih =>
    intro h
    rw [get?_object] at h
    refine ih k _ h ((base.get? k).getD .null) ?_
    rw [get?_jsonMerge base rfl, get?_object, h]
  | _ => exact fun h => by cases h

theorem jsonMerge_idem (patch : Value) :
    jsonMerge (jsonMerge base patch) patch = jsonMerge base patch := by
  induction patch generalizing base with
  | object m ih =>
    have hobject : (jsonMerge base (.object m)).isObject = true := isObject_jsonMerge base rfl
    refine eq_of_get? (isObject_jsonMerge _ rfl) hobject fun k => ?_
    rw [get?_jsonMerge _ rfl, get?_jsonMerge base rfl, get?_object]
    cases hk : m.get? k with
    | none => rfl
    | some w => exact congrArg some (ih k w hk _)
  | _ => rw [jsonMerge_scalar _ rfl, jsonMerge_scalar _ rfl]

/-- The patch names every field that the base has below it, so nothing of the base is left. -/
def Absorbs : Value → Value → Prop
  | .object base, .object ⟨ks, _, f⟩ =>
    (∀ k ∈ base.keys, k ∈ ks) ∧ ∀ k : {k // k ∈ ks}, Absorbs ((base.get? k.1).getD .null) (f k)
  | _, _ => True

theorem absorbs_iff {base : Value} : Absorbs base patch ↔ jsonMerge base patch = patch := by
  induction patch generalizing base with
  | object patch ih =>
    cases base with
    | object base =>
      have hfield : ∀ k : {k // k ∈ patch.keys},
          Absorbs ((base.get? k.1).getD .null) (patch.val k) ↔
            jsonMerge ((base.get? k.1).getD .null) (patch.val k) = patch.val k :=
        fun k => ih k.1 _ (OrderedMap.get?_val patch k)
      change ((∀ k ∈ base.keys, k ∈ patch.keys) ∧
        ∀ k : {k // k ∈ patch.keys}, Absorbs ((base.get? k.1).getD .null) (patch.val k)) ↔ _
      constructor
      · rintro ⟨hkeys, hfields⟩
        refine eq_of_get? (isObject_jsonMerge _ rfl) rfl fun k => ?_
        rw [get?_jsonMerge_objects, get?_object]
        by_cases hk : k ∈ patch.keys
        · rw [OrderedMap.get?_of_mem patch hk]
          exact congrArg some ((hfield ⟨k, hk⟩).mp (hfields ⟨k, hk⟩))
        · rw [(OrderedMap.get?_eq_none_iff patch k).mpr hk]
          exact (OrderedMap.get?_eq_none_iff base k).mpr (mt (hkeys k) hk)
      · intro heq
        have hget : ∀ k, (jsonMerge (.object base) (.object patch)).get? k = patch.get? k := by
          intro k
          rw [heq, get?_object]
        refine ⟨fun k hk => ?_, fun k => (hfield k).mpr ?_⟩
        · by_contra hnot
          have hnone := hget k
          rw [get?_jsonMerge_objects, (OrderedMap.get?_eq_none_iff patch k).mpr hnot] at hnone
          exact (OrderedMap.get?_eq_none_iff base k).mp hnone hk
        · have hsome := hget k.1
          rw [get?_jsonMerge_objects, OrderedMap.get?_val patch k] at hsome
          exact Option.some.inj hsome
    | _ =>
      rw [jsonMerge_of_not_isObject rfl]
      simp [Absorbs]
  | _ =>
    rw [jsonMerge_scalar base rfl]
    cases base <;> simp [Absorbs]

theorem lookup_jsonMerge {w : Value} (hq : patch.lookup q = some w) :
    ∃ old, (jsonMerge base patch).lookup q = some (jsonMerge old w) := by
  induction q generalizing base patch with
  | nil =>
    have hpatch : patch = w := by simpa using hq
    exact ⟨base, by rw [lookup_nil, hpatch]⟩
  | cons k q ih =>
    obtain ⟨u, hu, hrest⟩ := Option.bind_eq_some_iff.mp hq
    have hp : patch.isObject = true := by
      by_contra hne
      rw [get?_of_not_isObject (by simpa using hne)] at hu
      cases hu
    rw [lookup_cons, get?_jsonMerge base hp, hu, Option.bind_some]
    exact ih _ hrest

/-- Following `q` in `v` reaches an object that lacks the next key of `q`. -/
def Lacks : Value → List String → Prop
  | _, [] => False
  | v, k :: q =>
    v.isObject = true ∧ match v.get? k with
      | none => True
      | some w => Lacks w q

theorem Lacks.ne_nil {v : Value} (h : Lacks v q) : q ≠ [] := by
  intro hq
  rw [hq] at h
  exact h

theorem lookup_jsonMerge_of_lacks (h : Lacks patch q) :
    (jsonMerge base patch).lookup q = base.lookup q := by
  induction q generalizing base patch with
  | nil => exact absurd rfl h.ne_nil
  | cons k q ih =>
    have hrest := h.2
    rw [lookup_cons, get?_jsonMerge base h.1, lookup_cons]
    cases hk : patch.get? k with
    | none => rfl
    | some =>
      rw [hk] at hrest
      have hq : q ≠ [] := Lacks.ne_nil hrest
      rw [Option.bind_some, ih _ hrest, lookup_getD_null hq]

theorem patch_changes_named (b p : Value) (q : List String) :
    (∀ w, p.lookup q = some w → w.isObject = false → (jsonMerge b p).lookup q = some w) ∧
    (Lacks p q → (jsonMerge b p).lookup q = b.lookup q) := by
  refine ⟨fun w hw hleaf => ?_, lookup_jsonMerge_of_lacks b⟩
  obtain ⟨old, hold⟩ := lookup_jsonMerge b hw
  rw [hold, jsonMerge_scalar old hleaf]

def IsLeaf (w : Value) : Prop := w.isObject = false ∨ w = .object .empty

theorem exists_leaf (v : Value) : ∃ q w, v.lookup q = some w ∧ IsLeaf w := by
  induction v with
  | object m ih =>
    by_cases hm : ∃ k w, m.get? k = some w
    · obtain ⟨k, w, hk⟩ := hm
      obtain ⟨q, u, hq, hu⟩ := ih k w hk
      refine ⟨k :: q, u, ?_, hu⟩
      rw [lookup_cons, get?_object, hk, Option.bind_some, hq]
    · have hempty : m = .empty := by
        apply OrderedMap.ext_get?
        intro k
        rw [OrderedMap.get?_empty, Option.eq_none_iff_forall_ne_some]
        exact fun w hw => hm ⟨k, w, hw⟩
      exact ⟨[], .object m, rfl, .inr (congrArg Value.object hempty)⟩
  | null => exact ⟨[], .null, rfl, .inl rfl⟩
  | bool b => exact ⟨[], .bool b, rfl, .inl rfl⟩
  | number n => exact ⟨[], .number n, rfl, .inl rfl⟩
  | string s => exact ⟨[], .string s, rfl, .inl rfl⟩
  | array xs => exact ⟨[], .array xs, rfl, .inl rfl⟩

theorem lacks_of_apart (h : ∀ p w, patch.lookup p = some w → IsLeaf w → Apart p q) :
    Lacks patch q := by
  induction q generalizing patch with
  | nil =>
    obtain ⟨p, w, hp, hw⟩ := exists_leaf patch
    exact absurd rfl (h p w hp hw).ne_nil
  | cons k q ih =>
    have hobject : patch.isObject = true := by
      by_contra hne
      exact absurd rfl (h [] patch rfl (.inl (by simpa using hne))).ne_nil_left
    refine ⟨hobject, ?_⟩
    cases hk : patch.get? k with
    | none => trivial
    | some =>
      refine ih fun p w hp hw => Apart.cons_iff.mp (h (k :: p) w ?_ hw)
      rw [lookup_cons, hk, Option.bind_some, hp]

end Sodp
