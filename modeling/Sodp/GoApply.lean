import Sodp.GoWire

/-!
# Deltas between Go nodes

The ops of `Diff` settle the fields of the old value one after the other, in whatever order the maps
are visited. On the way to another node an empty value is left out and read as `nil`. A number may
come as another Go type, so values are compared without it.
-/

namespace Sodp
open List Option
open OrderedMap hiding keys

theorem KeyOrder.map_val_elems {κ : Type*} (o : KeyOrder κ) (keys : List κ) :
    (o.elems keys).map Subtype.val = o.order keys := by
  rw [elems, List.map_map]
  exact attach_map_subtype_val _

namespace GoServer
open GoValue (equal)
open Delta

/-- Cut at slashes, the path gives the keys back and ends with none of its own. -/
def Named (q : List String) : Prop := (∀ k ∈ q, '/' ∉ k.toList) ∧ q.getLast? ≠ some ""

theorem applyOp_path {keys : List String} (hne : keys ≠ []) (h : Named keys) (kind : DeltaOpKind)
    (value current : GoValue) :
    applyOp current ⟨kind, FieldChange.path keys, value⟩ = applyParts kind value keys current := by
  obtain ⟨k, keys, rfl⟩ := List.exists_cons_of_ne_nil hne
  rw [applyOp]
  simp only [FieldChange.toList_path, List.flatMap_cons, List.cons_append]
  rw [Client.splitOn_keys h.1, List.map_map]
  congr 1
  simp [Function.comp_def, String.ofList_toList]

/-- `Diff` sends the place: one side lacks it, or `equal` takes the values for different. -/
def Sends (old new : GoValue) (q : List String) : Prop :=
  Leaf old.toJson new.toJson q ∧
    ∀ v w, old.lookup q = some v → new.lookup q = some w → equal v w = false

variable {o n m : OrderedMap String GoValue} {k : String} {v w : GoValue} {q : List String}
  {range : List String → KeyOrder String} {old new : GoValue}

theorem sends_cons (hv : o.get? k = some v) (hw : n.get? k = some w) (h : Sends v w q) :
    Sends (.map o) (.map n) (k :: q) := by
  simpa [Sends, Leaf, GoValue.isObject_toJson, GoValue.get?_toJson, GoValue.lookup_cons, hv, hw]
    using h

theorem sends_singleton (hkeys : (o.get? k).isSome = true ∨ (n.get? k).isSome = true)
    (h : ∀ v w, o.get? k = some v → n.get? k = some w →
      ¬(v.isMap = true ∧ w.isMap = true) ∧ equal v w = false) :
    Sends (.map o) (.map n) [k] := by
  cases hv : o.get? k <;> cases hw : n.get? k <;>
    simp_all [Sends, Leaf, GoValue.isObject_toJson, GoValue.get?_toJson, GoValue.lookup]

theorem applyParts_last (hg : ∀ xs, v ≠ .slice xs) (kind : DeltaOpKind) (value : GoValue) :
    applyParts kind value [k] v = if k = "" then if kind = .remove then .nil else value
      else .map (if kind = .remove then (fieldsOf v).erase k else (fieldsOf v).insert k value) := by
  cases v with
  | slice xs => exact absurd rfl (hg xs)
  | _ => cases kind <;> rfl

theorem applyParts_cons {j : String} (hg : ∀ xs, v ≠ .slice xs) (kind : DeltaOpKind)
    (value : GoValue) : applyParts kind value (k :: j :: q) v = .map ((fieldsOf v).insert k
      (applyParts kind value (j :: q) (((fieldsOf v).get? k).getD .nil))) := by
  cases v with
  | slice xs => exact absurd rfl (hg xs)
  | _ => rfl

theorem applyOp_key (hv : ∀ xs, v ≠ .slice xs) (h : Named [k]) (kind : DeltaOpKind)
    (value : GoValue) : applyOp v ⟨kind, "/" ++ k, value⟩ =
      .map (if kind = .remove then (fieldsOf v).erase k else (fieldsOf v).insert k value) := by
  have hk : k ≠ "" := fun he => h.2 (congrArg some he)
  rw [← FieldChange.path_singleton, applyOp_path (cons_ne_nil _ _) h, applyParts_last hv, if_neg hk]

theorem Named.tail (h : Named (k :: q)) (hq : q ≠ []) : Named q := by
  obtain ⟨j, q, rfl⟩ := exists_cons_of_ne_nil hq
  exact ⟨fun i hi => h.1 i (mem_cons_of_mem k hi), getLast?_cons_cons (a := k) ▸ h.2⟩

theorem applyOps_under {cs : List FieldChange} (hget : m.get? k = some v)
    (hcs : ∀ c ∈ cs, c.keys ≠ [] ∧ Named (k :: c.keys)) :
    applyOps (.map m) ((cs.map FieldChange.toOp).map (DeltaOp.under k)) =
      .map (m.insert k (applyOps v (cs.map FieldChange.toOp))) := by
  induction cs generalizing m v with
  | nil => exact congrArg GoValue.map (insert_get? m hget).symm
  | cons c cs ih =>
    obtain ⟨hne, hnamed⟩ := hcs c mem_cons_self
    have hchild : applyOp v c.toOp = applyParts c.toJson.kind (c.after.getD .nil) c.keys v :=
      applyOp_path hne (hnamed.tail hne) ..
    have hone : applyOp (.map m) (c.toOp.under k) = .map (m.insert k (applyOp v c.toOp)) := by
      refine (applyOp_path (cons_ne_nil k c.keys) hnamed ..).trans ?_
      obtain ⟨j, _, heq⟩ := exists_cons_of_ne_nil hne
      rw [hchild, heq, applyParts_cons (by simp)]
      change GoValue.map (m.insert k (applyParts _ _ _ ((m.get? k).getD .nil))) = _
      rw [hget]
      rfl
    have hrest := ih (m := m.insert k (applyOp v c.toOp)) (get?_insert_self m k _)
      fun d hd => hcs d (mem_cons_of_mem c hd)
    rw [map_cons, map_cons, applyOps, foldl_cons, hone]
    refine hrest.trans (congrArg GoValue.map (ext_get? fun j => ?_))
    rw [get?_insert, get?_insert, get?_insert]
    split_ifs <;> rfl

theorem applyOp_root (current : GoValue) (kind : DeltaOpKind) (hkind : kind ≠ .remove)
    (value : GoValue) : applyOp current ⟨kind, "/", value⟩ = value := by
  have hpath : ("/" : String).toList = ['/'] := rfl
  rw [applyOp]
  simp only [hpath, splitOn_nil, map_cons, map_nil]
  exact (if_pos rfl).trans (if_neg hkind)

/-- The ops of `Diff` at one key of two maps. -/
def keyOps (range : List String → KeyOrder String) (o n : OrderedMap String GoValue) (k : String) :
    List DeltaOp :=
  match o.get? k, n.get? k with
  | none, none => []
  | some _, none => [⟨.remove, "/" ++ k, .nil⟩]
  | none, some w => [⟨.add, "/" ++ k, w⟩]
  | some v, some w =>
    if v.isMap && w.isMap then (diff (fun q => range (k :: q)) v w).map (DeltaOp.under k)
    else if equal v w then [] else [⟨.update, "/" ++ k, w⟩]

theorem diff_eq_flatMap (range : List String → KeyOrder String) (o n : OrderedMap String GoValue) :
    diff range (.map o) (.map n) = ((range []).order o.keys ++
      ((range []).order n.keys).filter fun k => k ∉ o.keys).flatMap (keyOps range o n) := by
  obtain ⟨ks, hs, f⟩ := o
  rw [diff, flatMap_append, ← KeyOrder.map_val_elems, ← KeyOrder.map_val_elems, flatMap_map,
    List.filter_map, flatMap_map, map_eq_flatMap]
  congr 1
  · refine flatMap_congr fun k _ => ?_
    rw [keyOps, OrderedMap.get?_val ⟨ks, hs, f⟩ k]
    cases n.get? k.1 <;> rfl
  · refine flatMap_congr fun k hk => ?_
    have hnone := (OrderedMap.get?_eq_none_iff ⟨ks, hs, f⟩ k.1).mpr
      (of_decide_eq_true (mem_filter.mp hk).2)
    rw [keyOps, hnone, OrderedMap.get?_val n k]

theorem ranged_perm (range : KeyOrder String) (o n : OrderedMap String GoValue) :
    (range.order o.keys ++ (range.order n.keys).filter fun k => k ∉ o.keys).Perm
      (o.keys ++ n.keys.filter fun k => k ∉ o.keys) :=
  (range.perm o.keys).append ((range.perm n.keys).filter _)

/-- What the ops make of a field that both maps have. -/
def kept (range : List String → KeyOrder String) (k : String) (v w : GoValue) : GoValue :=
  if v.isMap && w.isMap then applyOps v (diff (fun q => range (k :: q)) v w)
  else if equal v w then v else w

theorem applyOps_keyOps (hnamed : ∀ q, q ≠ [] → Sends (.map o) (.map n) q → Named q)
    (hm : m.get? k = o.get? k) :
    ∃ m', applyOps (.map m) (keyOps range o n k) = .map m' ∧ ∀ j, m'.get? j =
      if j = k then (n.get? k).map fun w => (o.get? k).elim w (kept range k · w)
      else m.get? j := by
  rw [keyOps]
  have hop : Sends (.map o) (.map n) [k] → Named [k] := hnamed [k] (cons_ne_nil k [])
  cases ho : o.get? k with
  | none =>
    cases hn : n.get? k with
    | none =>
      refine ⟨m, rfl, fun j => ?_⟩
      split_ifs with hj
      · rw [hj, hm, ho]
        rfl
      · rfl
    | some w =>
      have hsends : Sends (.map o) (.map n) [k] := sends_singleton (by simp [hn]) (by simp [ho])
      exact ⟨_, applyOp_key (by simp) (hop hsends) .add w, fun j => get?_insert ..⟩
  | some v =>
    cases hn : n.get? k with
    | none =>
      have hsends : Sends (.map o) (.map n) [k] := sends_singleton (by simp [ho]) (by simp [hn])
      exact ⟨_, applyOp_key (by simp) (hop hsends) .remove .nil, fun j => get?_erase ..⟩
    | some w =>
      refine ⟨m.insert k (kept range k v w), ?_, fun j => get?_insert ..⟩
      dsimp only
      rw [kept]
      split_ifs with hmaps hequal
      · rw [Bool.and_eq_true] at hmaps
        rw [diff_eq_fieldChanges _ hmaps.1 hmaps.2]
        refine applyOps_under (hm.trans ho) fun c hc => ?_
        obtain ⟨hleaf, hbefore, hafter, hdiffers⟩ := (mem_fieldChanges_iff hmaps.1 hmaps.2 c).mp hc
        have hsends : Sends v w c.keys := ⟨hleaf, hbefore ▸ hafter ▸ hdiffers⟩
        refine ⟨fun hnil => ?_, hnamed _ (cons_ne_nil _ _) (sends_cons ho hn hsends)⟩
        rw [hnil, Leaf, GoValue.isObject_toJson, GoValue.isObject_toJson] at hleaf
        exact hleaf hmaps
      · rw [insert_get? m (hm.trans ho)]
        rfl
      · have hsends : Sends (.map o) (.map n) [k] := by
          refine sends_singleton (by simp [ho]) fun v' w' hv hw => ?_
          cases ho.symm.trans hv
          cases hn.symm.trans hw
          rw [Bool.and_eq_true] at hmaps
          exact ⟨hmaps, Bool.eq_false_iff.mpr hequal⟩
        exact applyOp_key (by simp) (hop hsends) .update w

theorem applyOps_diff_maps (range : List String → KeyOrder String)
    (hnamed : ∀ q, q ≠ [] → Sends (.map o) (.map n) q → Named q) :
    ∃ t, applyOps (.map o) (diff range (.map o) (.map n)) = .map t ∧
      ∀ k, t.get? k = (n.get? k).map fun w => (o.get? k).elim w (kept range k · w) := by
  rw [diff_eq_flatMap, applyOps, foldl_flatMap]
  obtain ⟨t, ht, hget⟩ := foldl_settles (w := .map)
    (f := fun g k => applyOps g (keyOps range o n k))
    (c := fun k => (n.get? k).map fun w => (o.get? k).elim w (kept range k · w))
    (fun m k hm => applyOps_keyOps hnamed hm)
    ((ranged_perm (range []) o n).nodup_iff.mpr (nodup_union o n))
    fun k _ => rfl
  refine ⟨t, ht, fun k => ?_⟩
  rw [hget]
  split_ifs with hk
  · rfl
  · rw [(ranged_perm (range []) o n).mem_iff, mem_union, not_or] at hk
    rw [(get?_eq_none_iff o k).mpr hk.1, (get?_eq_none_iff n k).mpr hk.2]
    rfl

theorem read_diff_iff {τ : Type*} (read : GoValue → τ) (range : List String → KeyOrder String)
    (hread : ∀ m m', read (.map m) = read (.map m') ↔
      ∀ k, (m.get? k).map read = (m'.get? k).map read)
    (hnamed : ∀ q, q ≠ [] → Sends old new q → Named q) :
    read (applyOps old (diff range old new)) = read new ↔
      ∀ q, q ≠ [] → Leaf old.toJson new.toJson q →
        ∀ v w, old.lookup q = some v → new.lookup q = some w → equal v w = true →
          read v = read w := by
  by_cases hmaps : old.isMap = true ∧ new.isMap = true
  · induction old generalizing new range with
    | map o ih =>
      obtain ⟨n, rfl⟩ := (GoValue.isMap_iff new).mp hmaps.2
      obtain ⟨t, ht, hget⟩ := applyOps_diff_maps range hnamed
      have hcons : ∀ {p : List String → Prop}, (∀ q, q ≠ [] → p q) ↔ ∀ k q, p (k :: q) := by
        refine fun {p} => ⟨fun h k q => h _ (cons_ne_nil k q), fun h q hq => ?_⟩
        obtain ⟨k, q, rfl⟩ := exists_cons_of_ne_nil hq
        exact h k q
      rw [ht, hread, hcons]
      refine forall_congr' fun k => ?_
      rw [hget]
      simp only [Leaf, GoValue.isObject_toJson, GoValue.get?_toJson, GoValue.get?_map,
        GoValue.lookup_cons, GoValue.isMap_map, true_and]
      cases hn : n.get? k with
      | none => simp
      | some w =>
        cases ho : o.get? k with
        | none => simp
        | some v =>
          by_cases hvw : v.isMap = true ∧ w.isMap = true
          · have hroot : ¬ Leaf v.toJson w.toJson [] := by
              rw [Leaf, GoValue.isObject_toJson, GoValue.isObject_toJson]
              exact not_not_intro hvw
            simp only [map_some, elim_some, kept, hvw, Bool.and_self, if_true, bind_some,
              some.injEq]
            have hchild : ∀ q, q ≠ [] → Sends v w q → Named q := fun q hq h =>
              (hnamed _ (cons_ne_nil k q) (sends_cons ho hn h)).tail hq
            rw [ih k v ho _ hchild hvw]
            refine ⟨fun h q hleaf => ?_, fun h q _ => h q⟩
            by_cases hq : q = []
            · exact absurd (hq ▸ hleaf) hroot
            · exact h q hq hleaf
          · have hleaf : ∀ {q}, Leaf v.toJson w.toJson q ↔ q = [] := by
              intro q
              cases q with
              | nil => simp [Leaf, GoValue.isObject_toJson, hvw]
              | cons j q =>
                refine iff_of_false (fun h => hvw ?_) (cons_ne_nil j q)
                simpa [GoValue.isObject_toJson] using And.intro h.1 h.2.1
            simp only [map_some, elim_some, bind_some, hleaf, kept, Bool.and_eq_true, hvw, if_false]
            split_ifs with hequal
            · simp [hequal, GoValue.lookup]
            · simp [hequal, GoValue.lookup]
    | _ => cases hmaps.1
  · rw [diff_of_not_maps range hmaps]
    have hroot := congrArg read (applyOp_root old .update (by decide) new)
    refine iff_of_true hroot fun q hq hleaf => ?_
    obtain ⟨k, q, rfl⟩ := exists_cons_of_ne_nil hq
    rw [Leaf, GoValue.isObject_toJson, GoValue.isObject_toJson] at hleaf
    exact absurd ⟨hleaf.1, hleaf.2.1⟩ hmaps

/-- A value whose keys, at every depth, are not empty and have no slash. -/
abbrev PlainValue := {v : GoValue // v.toJson.AllKeys PathKey}

theorem named_of_leaf {old new : PlainValue} (h : Leaf old.1.toJson new.1.toJson q) :
    Named q := by
  have hkeys := h.allKeys old.2 new.2
  refine ⟨fun k hk => (hkeys k hk).2, fun hlast => ?_⟩
  exact (hkeys "" (mem_of_getLast? hlast)).1 rfl

theorem eq_map_iff (m m' : OrderedMap String GoValue) : GoValue.map m = .map m' ↔
    ∀ k, (m.get? k).map id = (m'.get? k).map id := by
  simp only [Option.map_id, id, GoValue.map.injEq]
  exact ⟨fun h k => h ▸ rfl, ext_get?⟩

/-- Applied to the old value, the delta gives the new one exactly if `equal` sees every
difference. -/
theorem delta_restores_iff (old new : PlainValue) :
    (∀ range, applyOps old.1 (diff range old.1 new.1) = new.1) ↔
      ∀ q, q ≠ [] → Leaf old.1.toJson new.1.toJson q → ∀ v w, old.1.lookup q = some v →
        new.1.lookup q = some w → equal v w = true → v = w := by
  have hiff := fun range => read_diff_iff id range eq_map_iff
    fun q _ (h : Sends old.1 new.1 q) => named_of_leaf h.1
  exact ⟨fun h => (hiff fun _ => .sorted).mp (h _), fun h range => (hiff range).mpr h⟩

/-- The slices `[true]` and `["true"]` are printed alike. -/
theorem printed_alike_not_restored :
    let old := GoValue.ofFields [("a", .slice [.bool true])]
    let new := GoValue.ofFields [("a", .slice [.string "true"])]
    old.toJson.AllKeys PathKey ∧ new.toJson.AllKeys PathKey ∧
      (applyOps old (diff (fun _ => .sorted) old new)).toJson ≠ new.toJson := by
  decide +kernel

/-! ### The way to another node -/

structure Wire where
  value : GoValue → GoValue
  toJson_value : ∀ v, (value v).toJson = v.toJson

def DeltaOp.received (w : Wire) (op : DeltaOp) : DeltaOp :=
  { op with value := if op.value.isEmpty then .nil else w.value op.value }

def DeltaEntry.received (w : Wire) (entry : DeltaEntry) : DeltaEntry :=
  { entry with ops := entry.ops.map (DeltaOp.received w) }

/-- An empty value is not sent, so that `nil` comes out. -/
def Arrives (v : GoValue) : Prop := v.isEmpty = true → v = .nil

theorem arrives_of_not_empty {v : GoValue} (h : v.isEmpty = false) : Arrives v := by
  intro hempty
  rw [h] at hempty
  cases hempty

theorem Arrives.toJson_received {op : DeltaOp} (h : Arrives op.value) (w : Wire) :
    (op.received w).value.toJson = op.value.toJson := by
  rw [DeltaOp.received]
  split_ifs with hempty
  · rw [h hempty]
  · exact w.toJson_value op.value

def Brings (w : Wire) (ops : List DeltaOp) (old new : Value) : Prop :=
  ∀ g : GoValue, g.toJson = old → (applyOps g (ops.map (DeltaOp.received w))).toJson = new

/-- `applyParts` without the types of numbers. -/
def editJson (kind : DeltaOpKind) (value : Value) : List String → Value → Value
  | [], current => current
  | [last], current =>
    if last = "" then if kind = .remove then .null else value
    else
      match current with
      | .array xs =>
        if last = "-" ∧ kind = .add then .array (xs ++ [value])
        else if kind = .remove ∧ xs ≠ [] then .array xs.tail
        else .array xs
      | _ => .object (if kind = .remove then current.fields.erase last
          else current.fields.insert last value)
  | field :: next :: rest, current =>
    match current with
    | .array xs => .array xs
    | _ => .object (current.fields.insert field
        (editJson kind value (next :: rest) ((current.fields.get? field).getD .null)))

theorem toJson_applyParts (kind : DeltaOpKind) (value : GoValue) (parts : List String)
    (g : GoValue) : (applyParts kind value parts g).toJson =
      editJson kind value.toJson parts g.toJson := by
  induction parts generalizing g with
  | nil => rfl
  | cons k parts ih =>
    have hmap : ∀ m, (applyParts kind value (k :: parts) (.map m)).toJson =
        editJson kind value.toJson (k :: parts) (.object (m.map GoValue.toJson)) := by
      intro m
      cases parts with
      | nil =>
        rw [applyParts_last (by simp)]
        simp only [editJson, Value.fields, fieldsOf]
        split_ifs
        · rfl
        · rfl
        · rw [GoValue.toJson_map, OrderedMap.map_erase]
        · rw [GoValue.toJson_map, OrderedMap.map_insert]
      | cons j parts =>
        rw [applyParts_cons (by simp), GoValue.toJson_map, OrderedMap.map_insert, ih]
        simp only [editJson, Value.fields, fieldsOf, OrderedMap.get?_map]
        cases m.get? k <;> rfl
    cases g with
    | slice xs =>
      rw [GoValue.toJson_slice]
      cases parts with
      | nil =>
        simp only [applyParts, editJson, ne_eq, map_eq_nil_iff]
        split_ifs
        · rfl
        · rfl
        · rw [GoValue.toJson_slice, map_append, map_singleton]
        · rw [GoValue.toJson_slice, map_tail]
        · exact GoValue.toJson_slice xs
      | cons => exact GoValue.toJson_slice xs
    | map m => rw [hmap, GoValue.toJson_map]
    | scalar s =>
      have hempty : (OrderedMap.empty : OrderedMap String GoValue).map GoValue.toJson = .empty :=
        ext_get? fun j => by simp
      have hscalar : editJson kind value.toJson (k :: parts) s.toJson =
          editJson kind value.toJson (k :: parts) (.object .empty) := by
        cases s <;> cases parts <;> rfl
      refine Eq.trans ?_ ((hmap .empty).trans (hempty ▸ hscalar.symm))
      cases parts with
      | nil => cases kind <;> rfl
      | cons => rfl

theorem brings_of_applyOps (w : Wire) {ops : List DeltaOp} {old : GoValue} {new : Value}
    (harrives : ∀ op ∈ ops, Arrives op.value) (h : (applyOps old ops).toJson = new) :
    Brings w ops old.toJson new := by
  subst h
  intro g hg
  induction ops generalizing g old with
  | nil => exact hg
  | cons op ops ih =>
    refine ih (fun op' h => harrives op' (mem_cons_of_mem op h)) _ ?_
    have hvalue := (harrives op mem_cons_self).toJson_received w
    rw [applyOp, applyOp, DeltaOp.received]
    generalize op.path.toList = path
    split
    · refine (toJson_applyParts ..).trans (Eq.trans ?_ (toJson_applyParts ..).symm)
      rw [hg]
      exact congrArg (editJson op.op · _ _) hvalue
    · exact hg

/-- Of two maps, `equal` sees every difference, each one sent has a path that says where it is, and
its value arrives. Anything else is sent as a whole. -/
structure HandsOver (old new : GoValue) : Prop where
  whole : ¬(old.isMap = true ∧ new.isMap = true) → Arrives new
  seen : ∀ q v w, q ≠ [] → Leaf old.toJson new.toJson q → old.lookup q = some v →
    new.lookup q = some w → equal v w = true → v.toJson = w.toJson
  named : ∀ q, q ≠ [] → Sends old new q → Named q
  sent : ∀ q w, q ≠ [] → Sends old new q → new.lookup q = some w → Arrives w

theorem handsOver_of_not_maps {old new : GoValue} (h : ¬(old.isMap = true ∧ new.isMap = true))
    (hnew : Arrives new) : HandsOver old new := by
  have hroot : ∀ {q}, q ≠ [] → ¬ Leaf old.toJson new.toJson q := by
    rintro q hq hleaf
    obtain ⟨k, q, rfl⟩ := exists_cons_of_ne_nil hq
    rw [Leaf, GoValue.isObject_toJson, GoValue.isObject_toJson] at hleaf
    exact h ⟨hleaf.1, hleaf.2.1⟩
  exact ⟨fun _ => hnew, fun q v w hq hleaf => absurd hleaf (hroot hq),
    fun q hq hsends => absurd hsends.1 (hroot hq), fun q w hq hsends => absurd hsends.1 (hroot hq)⟩

theorem HandsOver.brings (w : Wire) (h : HandsOver old new)
    (range : List String → KeyOrder String) :
    Brings w (diff range old new) old.toJson new.toJson := by
  refine brings_of_applyOps w (fun op hop => ?_) ?_
  · by_cases hmaps : old.isMap = true ∧ new.isMap = true
    · rw [diff_eq_fieldChanges range hmaps.1 hmaps.2] at hop
      obtain ⟨c, hc, rfl⟩ := mem_map.mp hop
      obtain ⟨hleaf, hbefore, hafter, hdiffers⟩ := (mem_fieldChanges_iff hmaps.1 hmaps.2 c).mp hc
      have hsends : Sends old new c.keys := ⟨hleaf, hbefore ▸ hafter ▸ hdiffers⟩
      have hne : c.keys ≠ [] := by
        intro hnil
        rw [hnil, Leaf, GoValue.isObject_toJson, GoValue.isObject_toJson] at hleaf
        exact hleaf hmaps
      rcases c with ⟨q, _, _ | v⟩
      · exact fun _ => rfl
      · exact h.sent q v hne hsends hafter.symm
    · rw [diff_of_not_maps range hmaps] at hop
      exact mem_singleton.mp hop ▸ h.whole hmaps
  · refine (read_diff_iff _ range (fun m m' => ?_) h.named).mpr fun q hq hleaf v w =>
      h.seen q v w hq hleaf
    rw [GoValue.toJson_map, GoValue.toJson_map, Value.object.injEq]
    refine ⟨fun h k => ?_, fun h => ext_get? fun k => ?_⟩
    · rw [← OrderedMap.get?_map, h, OrderedMap.get?_map]
    · rw [OrderedMap.get?_map, h, OrderedMap.get?_map]

theorem applyOp_field {k : String} (h : Named [k]) (kind : DeltaOpKind) (value : GoValue)
    (xs : List GoValue) : applyOp (.slice xs) ⟨kind, "/" ++ k, value⟩ =
      if k = "-" ∧ kind = .add then .slice (xs ++ [value])
      else if kind = .remove ∧ xs ≠ [] then .slice xs.tail else .slice xs := by
  rw [← FieldChange.path_singleton, applyOp_path (cons_ne_nil _ _) h, applyParts]
  exact if_neg fun he => h.2 (congrArg some he)

theorem applyOp_append (xs : List GoValue) (value : GoValue) :
    applyOp (.slice xs) ⟨.add, "/-", value⟩ = .slice (xs ++ [value]) := by
  have hfield := applyOp_field (k := "-") ⟨by decide, by decide⟩ .add value xs
  rw [if_pos ⟨rfl, rfl⟩] at hfield
  exact hfield

theorem applyOp_dropHead {xs : List GoValue} (hne : xs ≠ []) (value : GoValue) :
    applyOp (.slice xs) ⟨.remove, "/0", value⟩ = .slice xs.tail := by
  have hfield := applyOp_field (k := "0") ⟨by decide, by decide⟩ .remove value xs
  rw [if_neg (by decide), if_pos ⟨rfl, hne⟩] at hfield
  exact hfield

section Appends
variable {xs ys : List GoValue} {element : GoValue} {ops : List DeltaOp}

theorem Appended.applyOps_eq (h : Appended xs element ys ops) :
    applyOps (.slice xs) ops = .slice ys := by
  rcases h with ⟨rfl, rfl⟩ | ⟨-, rfl, rfl⟩
  · exact applyOp_append xs element
  · rw [applyOps, foldl_cons, applyOp_append]
    exact applyOp_dropHead (by simp) .nil

theorem Appended.brings (h : Appended xs element ys ops) (w : Wire) (harrives : Arrives element) :
    Brings w ops (GoValue.slice xs).toJson (GoValue.slice ys).toJson := by
  refine brings_of_applyOps w ?_ (congrArg GoValue.toJson h.applyOps_eq)
  rcases h with ⟨rfl, -⟩ | ⟨-, rfl, -⟩
  · exact forall_mem_singleton.mpr harrives
  · exact forall_mem_cons.mpr ⟨harrives, forall_mem_singleton.mpr fun _ => rfl⟩

/-- On anything but a slice the ops make a map. -/
theorem slice_of_applyOps {v : GoValue} (hops : ops = [⟨.add, "/-", element⟩] ∨
      ops = [⟨.add, "/-", element⟩, ⟨.remove, "/0", .nil⟩])
    (h : applyOps v ops = .slice ys) : ∃ xs, v = .slice xs := by
  by_contra hv
  have hadd : applyOp v ⟨.add, "/-", element⟩ = .map ((fieldsOf v).insert "-" element) :=
    applyOp_key (k := "-") (fun xs hx => hv ⟨xs, hx⟩) ⟨by decide, by decide⟩ .add element
  rcases hops with rfl | rfl
  · cases hadd.symm.trans h
  · rw [applyOps, foldl_cons, hadd] at h
    have hremove := applyOp_key (k := "0") (v := .map ((fieldsOf v).insert "-" element)) (by simp)
      ⟨by decide, by decide⟩ .remove .nil
    cases hremove.symm.trans h

end Appends

end GoServer

end Sodp
