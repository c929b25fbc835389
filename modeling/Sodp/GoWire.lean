import Sodp.DiffAgreement
import Sodp.GoDelta

/-!
# Deltas of the Go server on the wire

The value of an op is tagged `omitempty`, so an empty one is left out, and the TypeScript client
reads `undefined`. The delta between two maps leads the client from one to the other exactly if
every value that is sent arrives, `equal` sees every difference, and no field `__proto__` appears.
-/

namespace Sodp.GoServer
open List Option JsValue GoValue
open GoValue (equal)

def DeltaOp.wire (op : DeltaOp) : Sodp.DeltaOp :=
  ⟨op.op, op.path, if op.value.isEmpty then none else some op.value.toJson⟩

def DeltaOp.Carried (op : DeltaOp) : Prop :=
  op.op ≠ .remove → op.wire.value = some op.value.toJson

instance (op : DeltaOp) : Decidable op.Carried :=
  inferInstanceAs (Decidable (op.op ≠ .remove → op.wire.value = some op.value.toJson))

theorem carried_iff (op : DeltaOp) : op.Carried ↔ (op.op ≠ .remove → op.value.isEmpty = false) := by
  rw [DeltaOp.Carried, DeltaOp.wire]
  refine imp_congr_right fun _ => ?_
  cases op.value.isEmpty <;> simp

theorem FieldChange.path_eq_renderPath {keys : List String} (hne : keys ≠ [])
    (hhead : keys.head? ≠ some "") : path keys = Delta.renderPath "/" keys := by
  cases keys with
  | nil => exact absurd rfl hne
  | cons k keys =>
    have hk : k ≠ "" := fun he => hhead (by rw [he]; rfl)
    have hjoin : Delta.joinPath "/" k ≠ "" := by
      intro he
      have hl := congrArg String.toList he
      rw [Client.joinPath_root_toList] at hl
      cases hl
    rw [← String.toList_inj, toList_path]
    change _ = (Delta.renderPath (Delta.joinPath "/" k) keys).toList
    rw [Client.renderPath_toList (Client.joinPath_root_ne hk) hjoin, Client.joinPath_root_toList]
    rfl

theorem FieldChange.wire_toOp {c : FieldChange} (hne : c.keys ≠ [])
    (hhead : c.keys.head? ≠ some "") (h : c.toOp.Carried) : c.toOp.wire = c.toJson.toOp "/" := by
  obtain ⟨keys, before, after⟩ := c
  have hpath := path_eq_renderPath hne hhead
  cases after with
  | none => simp [toOp, DeltaOp.wire, Delta.Change.toOp, toJson, hpath, GoValue.isEmpty,
      GoValue.Scalar.isEmpty]
  | some w =>
    have hkind : (toOp ⟨keys, before, some w⟩).op ≠ .remove := by
      cases before <;> simp [toOp, toJson, Delta.Change.kind]
    have hempty : w.isEmpty = false := (carried_iff _).mp h hkind
    simp [toOp, DeltaOp.wire, Delta.Change.toOp, toJson, hpath, hempty]

/-- Where the two values meet last, `equal` sees the difference, what is sent is not empty,
and no field `__proto__` appears. -/
structure Transmits (old new : GoValue) : Prop where
  seen : ∀ q v w, Delta.Leaf old.toJson new.toJson q → old.lookup q = some v →
    new.lookup q = some w → equal v w = true → v.toJson = w.toJson
  sent : ∀ q w, Delta.Leaf old.toJson new.toJson q → new.lookup q = some w →
    (∀ v, old.lookup q = some v → equal v w = false) → w.isEmpty = false
  own : ∀ q, Delta.Leaf old.toJson new.toJson q → q.getLast? = some "__proto__" →
    new.lookup q ≠ none → old.lookup q ≠ none

section Maps
variable {old new : GoValue} {range : List String → KeyOrder String}

theorem carried_diff_iff (ho : old.isMap = true) (hn : new.isMap = true) :
    (∀ op ∈ diff range old new, op.Carried) ↔
      ∀ q w, Delta.Leaf old.toJson new.toJson q → new.lookup q = some w →
        (∀ v, old.lookup q = some v → equal v w = false) → w.isEmpty = false := by
  rw [diff_eq_fieldChanges range ho hn]
  simp only [List.forall_mem_map, carried_iff]
  constructor
  · intro h q w hleaf hw hequal
    have hc : (⟨q, old.lookup q, some w⟩ : FieldChange) ∈ fieldChanges range old new := by
      refine (mem_fieldChanges_iff ho hn _).mpr ⟨hleaf, rfl, hw.symm, ?_⟩
      rintro v _ hv ⟨⟩
      exact hequal v hv
    refine h _ hc ?_
    cases hold : old.lookup q <;> simp [FieldChange.toOp, FieldChange.toJson, Delta.Change.kind]
  · intro h c hc hkind
    obtain ⟨hleaf, hbefore, hafter, hequal⟩ := (mem_fieldChanges_iff ho hn c).mp hc
    obtain ⟨keys, before, after⟩ := c
    cases after with
    | none => cases before <;> exact absurd rfl hkind
    | some w =>
      refine h keys w hleaf hafter.symm fun v hv => ?_
      exact hequal v w (hbefore.trans hv) rfl

section Keys
variable (ho : old.isMap = true) (hn : new.isMap = true) (hold : old.toJson.AllKeys PathKey)
  (hnew : new.toJson.AllKeys PathKey)
include ho hn hold hnew

theorem FieldChange.pathKeys {c : FieldChange} (hc : c ∈ fieldChanges range old new) :
    c.keys ≠ [] ∧ ∀ k ∈ c.keys, PathKey k := by
  obtain ⟨hleaf, -, -, -⟩ := (mem_fieldChanges_iff ho hn c).mp hc
  constructor
  · intro hnil
    rw [hnil, Delta.Leaf, isObject_toJson, isObject_toJson] at hleaf
    exact hleaf ⟨ho, hn⟩
  · exact hleaf.allKeys hold hnew

theorem wire_diff (hcarried : ∀ op ∈ diff range old new, op.Carried) :
    (diff range old new).map DeltaOp.wire =
      ((fieldChanges range old new).map FieldChange.toJson).map (Delta.Change.toOp "/") := by
  rw [diff_eq_fieldChanges range ho hn] at hcarried ⊢
  rw [List.map_map, List.map_map]
  refine List.map_congr_left fun c hc => ?_
  obtain ⟨hne, hkeys⟩ := FieldChange.pathKeys ho hn hold hnew hc
  refine FieldChange.wire_toOp hne (fun hhead => ?_) (hcarried _ (List.mem_map_of_mem hc))
  exact (hkeys "" (List.mem_of_mem_head? hhead)).1 rfl

theorem addressed_fieldChanges :
    ∀ c ∈ (fieldChanges range old new).map FieldChange.toJson, Client.Addressed c.keys := by
  intro c hc
  obtain ⟨d, hd, rfl⟩ := mem_map.mp hc
  obtain ⟨-, hkeys⟩ := FieldChange.pathKeys ho hn hold hnew hd
  refine Client.addressed_of_plain (fun k hk => (hkeys k hk).2) fun hhead => ?_
  exact (hkeys "" (mem_of_mem_head? hhead)).1 rfl

end Keys

theorem Transmits.covers (h : Transmits old new) (ho : old.isMap = true) (hn : new.isMap = true) :
    Client.Covers old.toJson new.toJson ((fieldChanges range old new).map FieldChange.toJson) := by
  refine ⟨fun c hc => ?_, fun q hq => ?_⟩
  · obtain ⟨d, hd, rfl⟩ := mem_map.mp hc
    exact FieldChange.reports ho hn hd
  · refine ⟨FieldChange.toJson ⟨q, old.lookup q, new.lookup q⟩, mem_map_of_mem ?_, rfl⟩
    refine (mem_fieldChanges_iff ho hn _).mpr ⟨hq.leaf, rfl, rfl, fun v w hv hw => ?_⟩
    rw [Bool.eq_false_iff]
    intro hequal
    change old.lookup q = some v at hv
    change new.lookup q = some w at hw
    apply hq.lookup_ne
    rw [lookup_toJson, lookup_toJson, hv, hw, map_some, map_some,
      h.seen q v w hq.leaf hv hw hequal]

theorem seen_of_applied (ho : old.isMap = true) (hn : new.isMap = true)
    (haddr : ∀ c ∈ (fieldChanges range old new).map FieldChange.toJson, Client.Addressed c.keys)
    (happ : Client.applyOps (.ofJson old.toJson)
      (((fieldChanges range old new).map FieldChange.toJson).map (Delta.Change.toOp "/")) =
        .ok (.ofJson new.toJson))
    {q : List String} {v w : GoValue} (hleaf : Delta.Leaf old.toJson new.toJson q)
    (hv : old.lookup q = some v) (hw : new.lookup q = some w) (hequal : equal v w = true) :
    v.toJson = w.toJson := by
  have hapart : ∀ c ∈ (fieldChanges range old new).map FieldChange.toJson, Apart c.keys q := by
    intro c hc
    obtain ⟨d, hd, rfl⟩ := mem_map.mp hc
    obtain ⟨hdleaf, hbefore, hafter, hdiffer⟩ := (mem_fieldChanges_iff ho hn d).mp hd
    refine Client.apart_of_leaves hdleaf hleaf fun he => ?_
    change d.keys = q at he
    have hfalse := hdiffer v w (by rw [hbefore, he, hv]) (by rw [hafter, he, hw])
    rw [hequal] at hfalse
    cases hfalse
  have hlook := Client.applyOps_changes_apart haddr happ hapart
  rw [lookup_ofJson, lookup_ofJson, lookup_toJson, lookup_toJson,
    hv, hw] at hlook
  exact (ofJson_injective (some.inj hlook)).symm

theorem own_of_applied (ho : old.isMap = true) (hn : new.isMap = true)
    (haddr : ∀ c ∈ (fieldChanges range old new).map FieldChange.toJson, Client.Addressed c.keys)
    (happ : Client.applyOps (.ofJson old.toJson)
      (((fieldChanges range old new).map FieldChange.toJson).map (Delta.Change.toOp "/")) =
        .ok (.ofJson new.toJson)) {q : List String} (hleaf : Delta.Leaf old.toJson new.toJson q)
    (hlast : q.getLast? = some "__proto__") (hw : new.lookup q ≠ none) : old.lookup q ≠ none := by
  intro hv
  have hq : ∀ c ∈ (fieldChanges range old new).map FieldChange.toJson,
      c.keys = q ∨ Apart c.keys q := by
    intro c hc
    obtain ⟨d, hd, rfl⟩ := mem_map.mp hc
    by_cases he : d.keys = q
    · exact .inl he
    · exact .inr (Client.apart_of_leaves ((mem_fieldChanges_iff ho hn d).mp hd).1 hleaf he)
  have hnone := Client.applyOps_changes_inherited haddr happ hq hlast (by
    rw [lookup_ofJson, lookup_toJson, hv]
    rfl)
  rw [lookup_ofJson, lookup_toJson, map_eq_none_iff, map_eq_none_iff] at hnone
  exact hw hnone

/-- For keys that a path can name, the client gets from one map to the other with every value on
the wire exactly if the maps are transmitted in full, in whatever order the fields are visited. -/
theorem delta_survives_iff (ho : old.isMap = true) (hn : new.isMap = true)
    (hold : old.toJson.AllKeys PathKey) (hnew : new.toJson.AllKeys PathKey)
    (range : List String → KeyOrder String) : ((∀ op ∈ diff range old new, op.Carried) ∧
      Client.applyOps (.ofJson old.toJson) ((diff range old new).map DeltaOp.wire) =
        .ok (.ofJson new.toJson)) ↔ Transmits old new := by
  have haddr : ∀ c ∈ (fieldChanges range old new).map FieldChange.toJson,
      Client.Addressed c.keys := addressed_fieldChanges ho hn hold hnew
  constructor
  · rintro ⟨hcarried, happ⟩
    rw [wire_diff ho hn hold hnew hcarried] at happ
    exact ⟨fun q v w => seen_of_applied ho hn haddr happ, (carried_diff_iff ho hn).mp hcarried,
      fun q => own_of_applied ho hn haddr happ⟩
  · intro h
    have hcarried : ∀ op ∈ diff range old new, op.Carried := (carried_diff_iff ho hn).mpr h.sent
    refine ⟨hcarried, ?_⟩
    rw [wire_diff ho hn hold hnew hcarried]
    refine Client.applyOps_covers (h.covers ho hn) haddr fun c hc hlast hafter => ?_
    obtain ⟨d, hd, rfl⟩ := mem_map.mp hc
    obtain ⟨hleaf, -, hdafter, -⟩ := (mem_fieldChanges_iff ho hn d).mp hd
    rw [lookup_ofJson, lookup_toJson, ne_eq, map_eq_none_iff, map_eq_none_iff]
    refine h.own d.keys hleaf hlast ?_
    rw [← hdafter]
    exact fun hnone => hafter (congrArg (Option.map GoValue.toJson) hnone)

end Maps

theorem delta_survives_rename :
    Transmits (.ofFields [("id", .string "7"), ("user", .ofFields [("name", .string "a")])])
      (.ofFields [("user", .ofFields [("admin", .bool true), ("name", .string "b")])]) :=
  (delta_survives_iff rfl rfl (by decide +kernel) (by decide +kernel) fun _ => .sorted).mp
    ⟨by decide +kernel, by decide +kernel⟩

/-- A switch that is turned off arrives without its value. -/
theorem false_is_left_out :
    (diff (fun _ => .sorted) (.ofFields [("on", .bool true)]) (.ofFields [("on", .bool false)])).map
        DeltaOp.wire = [⟨.update, "/on", none⟩] ∧
      Client.applyOps (.ofJson (GoValue.ofFields [("on", .bool true)]).toJson)
        [⟨.update, "/on", none⟩] =
        .ok (.object (OrderedMap.empty.insert "on" .undefined)) := by
  refine ⟨?_, ?_⟩ <;> decide +kernel

end Sodp.GoServer
