import Sodp.DeltaEffect
import Sodp.GoEdit
import Sodp.ScriptPointer

/-!
# One patch on three servers

Rust merges objects at every depth, the other two servers replace the fields of the top level.

The TypeScript server turns each field into an op of its own, in the order of `Object.entries`. The
field with the empty name becomes an op on the root. A base that is no object keeps what it is, or
makes the op fail; where there is no base, the first field decides between an array and an object.
-/

namespace Sodp
open Value OrderedMap List Option

structure ObjectPatch where
  entries : List (String × Value)
  nodup : (entries.map Prod.fst).Nodup

namespace ObjectPatch
variable (patch : ObjectPatch)

def names : List String := patch.entries.map Prod.fst

def fields : OrderedMap String Value :=
  patch.entries.foldl (fun m field => m.insert field.1 field.2) .empty

variable {k : String}

theorem get?_fields_of_mem {v : Value} (h : (k, v) ∈ patch.entries) :
    patch.fields.get? k = some v :=
  GoServer.get?_foldl_insert_of_mem patch.nodup h _

theorem get?_fields_of_notMem (h : k ∉ patch.names) : patch.fields.get? k = none := by
  rw [fields, GoServer.get?_foldl_insert_of_notMem h]
  exact get?_empty k

theorem get?_fields_eq_some {v : Value} :
    patch.fields.get? k = some v ↔ (k, v) ∈ patch.entries := by
  refine ⟨fun h => ?_, patch.get?_fields_of_mem⟩
  by_cases hk : k ∈ patch.names
  · obtain ⟨⟨j, w⟩, hmem, rfl⟩ := mem_map.mp hk
    rw [patch.get?_fields_of_mem hmem] at h
    rwa [← some.inj h]
  · rw [patch.get?_fields_of_notMem hk] at h
    cases h

end ObjectPatch

def SodpServer.statePatch (current : Option Value) (patch : ObjectPatch) : Value :=
  jsonMerge (current.getD (.object .empty)) (.object patch.fields)

def GoServer.statePatch (current : Option Value) (patch : ObjectPatch) : Value :=
  GoServer.mergeValues (current.getD .null) (.object patch.fields)

namespace ScriptServer
open Client (maxArrayLength)

def decimalValue (name : String) : ℕ :=
  name.toList.foldl (fun n c => 10 * n + (c.toNat - '0'.toNat)) 0

/-- The name of an array index, in its only form. -/
def isIndexName (name : String) : Bool :=
  isArrayLikeSegment name && name ≠ "-" && decimalValue name < maxArrayLength

/-- The order of `Object.entries`: array indices ascending, then the others as they came. -/
def objectEntries (entries : List (String × Value)) : List (String × Value) :=
  (entries.filter fun e => isIndexName e.1).insertionSort
    (fun a b => decimalValue a.1 ≤ decimalValue b.1) ++
  entries.filter fun e => ! isIndexName e.1

def fieldOp (field : String × Value) : DeltaOp :=
  ⟨.update, "/" ++ String.ofList (escape field.1.toList), .ofJson field.2⟩

/-- `handlePatch`: what the key holds afterwards, if it holds anything. -/
def handlePatch (current : Option JsValue) (patch : ObjectPatch) :
    Except PointerFault (Option JsValue) :=
  let ops := (objectEntries patch.entries).map fieldOp
  if ops = [] then .ok current else (applyOps (current.getD .null) ops).map some

theorem objectEntries_perm (entries : List (String × Value)) :
    (objectEntries entries).Perm entries := by
  rw [objectEntries]
  exact ((perm_insertionSort _ _).append_right _).trans (filter_append_perm _ entries)

/-! ### One field after the other -/

variable {field : String × Value} {l : List (String × Value)} {m : OrderedMap String Value}
  {r : JsValue} {patch : ObjectPatch}

theorem applyOne_fieldOp (hname : field.1 ≠ "") (root : JsValue) :
    applyOne root (fieldOp field) = applyLast .update (.ofJson field.2) field.1
      (if root = .null then seed field.1 else cloneShallow root) := by
  rw [applyOne, fieldOp, parsePath_escape hname]
  rfl

theorem applyOne_fieldOp_empty (hname : field.1 = "") (root : JsValue) :
    applyOne root (fieldOp field) = .ok (.ofJson field.2) := by
  rw [applyOne, fieldOp, hname]
  rfl

def assign (m : OrderedMap String JsValue) (field : String × Value) : OrderedMap String JsValue :=
  if field.1 = "__proto__" ∧ m.get? field.1 = none then m
  else m.insert field.1 (.ofJson field.2)

theorem applyOps_object (hl : "" ∉ l.map Prod.fst) (m : OrderedMap String JsValue) :
    applyOps (.object m) (l.map fieldOp) = .ok (.object (l.foldl assign m)) := by
  induction l generalizing m with
  | nil => rfl
  | cons field l ih =>
    rw [map_cons, mem_cons, not_or] at hl
    have hone : applyOne (.object m) (fieldOp field) = .ok (.object (assign m field)) := by
      rw [applyOne_fieldOp (Ne.symm hl.1), if_neg (by simp), assign]
      refine (applyLast_update_object _ _ m).trans ?_
      split_ifs <;> rfl
    rw [map_cons, applyOps, foldlM_cons, hone]
    exact ih hl.2 _

theorem get?_foldl_assign_proto {m : OrderedMap String JsValue} (hm : m.get? "__proto__" = none)
    (l : List (String × Value)) : (l.foldl assign m).get? "__proto__" = none := by
  induction l generalizing m with
  | nil => exact hm
  | cons field l ih =>
    refine ih ?_
    rw [assign]
    split_ifs with hproto
    · exact hm
    · rw [get?_insert_of_ne _ fun h => hproto ⟨h.symm, h ▸ hm⟩]
      exact hm

theorem foldl_assign (hproto : "__proto__" ∈ l.map Prod.fst → "__proto__" ∈ m.keys) :
    l.foldl assign (m.map .ofJson) =
      (l.foldl (fun merged field => merged.insert field.1 field.2) m).map .ofJson := by
  induction l generalizing m with
  | nil => rfl
  | cons field l ih =>
    have hassign : assign (m.map .ofJson) field = (m.insert field.1 field.2).map .ofJson := by
      rw [assign, if_neg, map_insert]
      rintro ⟨hname, hnone⟩
      have hmem := hproto (by simp [hname])
      rw [get?_map, hname] at hnone
      exact (get?_eq_none_iff m _).mp (by simpa using hnone) hmem
    rw [foldl_cons, foldl_cons, hassign]
    refine ih fun hmem => ?_
    rw [mem_keys_insert]
    exact .inr (hproto (mem_cons_of_mem _ hmem))

def Stiff : JsValue → Prop
  | .object _ | .null => False
  | _ => True

theorem applyOne_fieldOp_ok (hname : field.1 ≠ "") {root : JsValue}
    (hr : applyOne root (fieldOp field) = .ok r) :
    (Stiff root → Stiff r) ∧ r.get? "" = root.get? "" := by
  rw [applyOne_fieldOp hname] at hr
  have harray : ∀ elems, applyLast .update (.ofJson field.2) field.1 (.array elems []) = .ok r →
      Stiff r ∧ r.get? "" = none := by
    intro elems h
    rw [applyLast_update_array] at h
    split_ifs at h
    obtain ⟨_, _, heq⟩ := Client.writeIndex_eq_array elems [] (JsNumber.stringToNumber field.1)
      (.ofJson field.2)
    rw [heq] at h
    cases h
    exact ⟨trivial, rfl⟩
  have hobject : ∀ m, applyLast .update (.ofJson field.2) field.1 (.object m) = .ok r →
      r.get? "" = m.get? "" := by
    intro m h
    rw [applyLast_update_object] at h
    split_ifs at h
    · cases h
      rfl
    · cases h
      exact get?_insert_of_ne m (Ne.symm hname) _
  cases root with
  | undefined => cases hr
  | null =>
    rw [if_pos rfl, seed] at hr
    refine ⟨fun h => h.elim, ?_⟩
    split_ifs at hr
    · exact (harray [] hr).2
    · exact (hobject _ hr).trans (get?_empty "")
  | array elems =>
    rw [if_neg (by simp)] at hr
    exact ⟨fun _ => (harray elems hr).1, (harray elems hr).2⟩
  | object m =>
    rw [if_neg (by simp)] at hr
    exact ⟨fun h => h.elim, hobject m hr⟩
  | bool | number | string =>
    rw [if_neg (by simp)] at hr
    simp only [cloneShallow, applyLast] at hr
    split_ifs at hr
    cases hr
    exact ⟨fun h => h, rfl⟩

theorem applyOps_ok (hl : "" ∉ l.map Prod.fst) {root : JsValue}
    (hr : applyOps root (l.map fieldOp) = .ok r) :
    (Stiff root → Stiff r) ∧ r.get? "" = root.get? "" := by
  induction l generalizing root with
  | nil =>
    cases hr
    exact ⟨id, rfl⟩
  | cons field l ih =>
    rw [map_cons, mem_cons, not_or] at hl
    rw [map_cons, applyOps, foldlM_cons] at hr
    cases hone : applyOne root (fieldOp field) with
    | error =>
      rw [hone] at hr
      cases hr
    | ok =>
      rw [hone] at hr
      obtain ⟨hstiff, hempty⟩ := applyOne_fieldOp_ok (Ne.symm hl.1) hone
      obtain ⟨hstiff', hempty'⟩ := ih hl.2 hr
      exact ⟨fun h => hstiff' (hstiff h), hempty'.trans hempty⟩

theorem mem_objectEntries : field ∈ objectEntries patch.entries ↔ field ∈ patch.entries :=
  (objectEntries_perm patch.entries).mem_iff

theorem names_objectEntries (patch : ObjectPatch) :
    ((objectEntries patch.entries).map Prod.fst).Perm patch.names :=
  (objectEntries_perm patch.entries).map Prod.fst

theorem foldl_insert_objectEntries (patch : ObjectPatch) (m : OrderedMap String Value) :
    Value.object ((objectEntries patch.entries).foldl
      (fun merged field => merged.insert field.1 field.2) m) =
      GoServer.mergeValues (.object m) (.object patch.fields) := by
  have hnodup := (names_objectEntries patch).nodup_iff.mpr patch.nodup
  refine eq_of_get? rfl rfl fun k => ?_
  rw [GoServer.get?_mergeValues, get?_object]
  cases hk : patch.fields.get? k with
  | none =>
    refine GoServer.get?_foldl_insert_of_notMem (fun hmem => ?_) m
    obtain ⟨⟨j, v⟩, hfield, rfl⟩ := mem_map.mp hmem
    rw [patch.get?_fields_of_mem (mem_objectEntries.mp hfield)] at hk
    cases hk
  | some =>
    exact GoServer.get?_foldl_insert_of_mem hnodup
      (mem_objectEntries.mpr (patch.get?_fields_eq_some.mp hk)) m

theorem handlePatch_ne_of_empty_name (hname : "" ∈ patch.names) (current : Option JsValue)
    (base : Value) : handlePatch current patch ≠
      .ok (some (.ofJson (jsonMerge base (.object patch.fields)))) := by
  obtain ⟨⟨j, v⟩, hmem, rfl⟩ := mem_map.mp hname
  obtain ⟨before, after, hsplit⟩ := append_of_mem (mem_objectEntries.mpr hmem)
  have hafter : "" ∉ after.map Prod.fst := by
    have hnodup := (names_objectEntries patch).nodup_iff.mpr patch.nodup
    rw [hsplit, map_append, map_cons, nodup_append] at hnodup
    exact (nodup_cons.mp hnodup.2.1).1
  intro h
  rw [handlePatch, hsplit, if_neg (by simp)] at h
  cases hrun : applyOps (current.getD .null) ((before ++ ("", v) :: after).map fieldOp) with
  | error =>
    rw [hrun] at h
    cases h
  | ok r =>
    rw [hrun] at h
    have hr : r = .ofJson (jsonMerge base (.object patch.fields)) :=
      some.inj (Except.ok.inj h)
    rw [map_append, map_cons, applyOps, foldlM_append] at hrun
    cases hbefore : (before.map fieldOp).foldlM applyOne (current.getD .null) with
    | error =>
      rw [hbefore] at hrun
      cases hrun
    | ok middle =>
      rw [hbefore] at hrun
      change ((fieldOp ("", v)) :: after.map fieldOp).foldlM applyOne middle = _ at hrun
      rw [foldlM_cons, applyOne_fieldOp_empty rfl] at hrun
      have hget := (applyOps_ok hafter hrun).2
      rw [hr, JsValue.get?_ofJson, JsValue.get?_ofJson, get?_jsonMerge base rfl, get?_object,
        patch.get?_fields_of_mem hmem, map_some] at hget
      obtain ⟨w, hw, heq⟩ := map_eq_some_iff.mp hget.symm
      rw [JsValue.ofJson_injective heq] at hw
      exact get?_ne_jsonMerge "" v _ hw

theorem applyOps_ofJson (hname : "" ∉ patch.names)
    (hproto : "__proto__" ∈ patch.names → "__proto__" ∈ m.keys) :
    applyOps (.ofJson (.object m)) ((objectEntries patch.entries).map fieldOp) =
      .ok (.ofJson (GoServer.mergeValues (.object m) (.object patch.fields))) := by
  have hnames := names_objectEntries patch
  rw [JsValue.ofJson_object, applyOps_object (mt hnames.mem_iff.mp hname),
    foldl_assign fun h => hproto (hnames.mem_iff.mp h), ← foldl_insert_objectEntries,
    JsValue.ofJson_object]

theorem applyOps_ofJson_proto (hname : "" ∉ patch.names) (hmem : "__proto__" ∈ patch.names)
    (hnot : "__proto__" ∉ m.keys) (base : Value) :
    applyOps (.ofJson (.object m)) ((objectEntries patch.entries).map fieldOp) ≠
      .ok (.ofJson (jsonMerge base (.object patch.fields))) := by
  intro h
  rw [JsValue.ofJson_object, applyOps_object (mt (names_objectEntries patch).mem_iff.mp hname)] at h
  have hnone : ((objectEntries patch.entries).foldl assign (m.map .ofJson)).get? "__proto__" =
      none := by
    refine get?_foldl_assign_proto ?_ _
    rw [get?_map, (get?_eq_none_iff m _).mpr hnot]
    rfl
  have hget := congrArg (fun v => JsValue.get? v "__proto__") (Except.ok.inj h)
  obtain ⟨⟨j, v⟩, hfield, rfl⟩ := mem_map.mp hmem
  rw [JsValue.get?_object, hnone, JsValue.get?_ofJson, get?_jsonMerge base rfl, get?_object,
    patch.get?_fields_of_mem hfield] at hget
  cases hget

theorem applyOps_null (hname : field.1 ≠ "") (hseed : isArrayLikeSegment field.1 = false) :
    applyOps .null ((field :: l).map fieldOp) =
      applyOps (.ofJson (.object .empty)) ((field :: l).map fieldOp) := by
  have hone : applyOne .null (fieldOp field) = applyOne (.object .empty) (fieldOp field) := by
    rw [applyOne_fieldOp hname, applyOne_fieldOp hname, if_pos rfl, if_neg (by simp), seed, hseed]
    rfl
  have hempty : JsValue.ofJson (.object .empty) = .object .empty := by
    rw [JsValue.ofJson_object]
    refine congrArg JsValue.object (ext_get? fun k => ?_)
    rw [get?_map, get?_empty, get?_empty]
    rfl
  rw [hempty, map_cons, applyOps, applyOps, foldlM_cons, foldlM_cons, hone]

theorem stiff_of_seed (hname : "" ∉ (field :: l).map Prod.fst)
    (hseed : isArrayLikeSegment field.1 = true)
    (hr : applyOps .null ((field :: l).map fieldOp) = .ok r) : Stiff r := by
  have hfield : field.1 ≠ "" := fun h => hname (h ▸ mem_cons_self)
  have hone : applyOne .null (fieldOp field) = applyOne (.array [] []) (fieldOp field) := by
    rw [applyOne_fieldOp hfield, applyOne_fieldOp hfield, if_pos rfl, if_neg (by simp), seed, hseed]
    rfl
  have harray : applyOps (.array [] []) ((field :: l).map fieldOp) = .ok r := by
    rw [map_cons, applyOps, foldlM_cons, ← hone, ← foldlM_cons]
    exact hr
  exact (applyOps_ok hname harray).1 trivial

theorem not_stiff_ofJson_jsonMerge (base : Value) (fields : OrderedMap String Value) :
    ¬ Stiff (.ofJson (jsonMerge base (.object fields))) := by
  obtain ⟨m, hm⟩ := (isObject_iff _).mp (isObject_jsonMerge base (isObject_object fields))
  rw [hm, JsValue.ofJson_object]
  exact id

end ScriptServer

/-- What makes the three servers store the same. -/
def PatchAgrees (current : Option Value) (patch : ObjectPatch) : Prop :=
  "" ∉ patch.names ∧
  match current with
  | none | some .null =>
    (∃ field ∈ (ScriptServer.objectEntries patch.entries).head?,
      ScriptServer.isArrayLikeSegment field.1 = false) ∧ "__proto__" ∉ patch.names
  | some (.object m) =>
    ("__proto__" ∈ patch.names → "__proto__" ∈ m.keys) ∧
      ∀ k v w, m.get? k = some v → (k, w) ∈ patch.entries → Absorbs v w
  | some _ => False

theorem mergeValues_eq_jsonMerge_iff (m : OrderedMap String Value) (patch : ObjectPatch) :
    GoServer.mergeValues (.object m) (.object patch.fields) =
        jsonMerge (.object m) (.object patch.fields) ↔
      ∀ k v w, m.get? k = some v → (k, w) ∈ patch.entries → Absorbs v w := by
  constructor
  · intro h k v w hv hw
    have hget := congrArg (fun u => Value.get? u k) h
    rw [GoServer.get?_mergeValues, get?_jsonMerge_objects, patch.get?_fields_of_mem hw, hv] at hget
    exact absorbs_iff.mpr (some.inj hget).symm
  · intro h
    refine eq_of_get? rfl (isObject_jsonMerge _ rfl) fun k => ?_
    rw [GoServer.get?_mergeValues, get?_jsonMerge_objects]
    cases hw : patch.fields.get? k with
    | none => rfl
    | some w =>
      cases hv : m.get? k with
      | none => exact congrArg some (jsonMerge_null w).symm
      | some v =>
        exact congrArg some (absorbs_iff.mp (h k v w hv (patch.get?_fields_eq_some.mp hw))).symm

theorem jsonMerge_empty (fields : OrderedMap String Value) :
    jsonMerge (.object .empty) (.object fields) = .object fields := by
  refine eq_of_get? (isObject_jsonMerge _ rfl) rfl fun k => ?_
  rw [get?_jsonMerge_objects, get?_object, get?_empty]
  cases fields.get? k with
  | none => rfl
  | some w => exact congrArg some (jsonMerge_null w)

namespace ScriptServer
variable {patch : ObjectPatch}

theorem handlePatch_some (root : JsValue) : handlePatch (some root) patch =
    (applyOps root ((objectEntries patch.entries).map fieldOp)).map some := by
  rw [handlePatch]
  split_ifs with hops
  · rw [hops]
    rfl
  · rfl

theorem map_some_eq_ok_iff {x : Except PointerFault JsValue} {r : JsValue} :
    x.map some = .ok (some r) ↔ x = .ok r := by
  cases x <;> simp [Except.map]

theorem applyOps_null_iff (hname : "" ∉ patch.names) :
    applyOps .null ((objectEntries patch.entries).map fieldOp) =
        .ok (.ofJson (.object patch.fields)) ↔
      (∃ field ∈ (objectEntries patch.entries).head?, isArrayLikeSegment field.1 = false) ∧
        "__proto__" ∉ patch.names := by
  have hnames := names_objectEntries patch
  have hmerge : jsonMerge .null (.object patch.fields) = .object patch.fields := jsonMerge_null _
  cases hentries : objectEntries patch.entries with
  | nil =>
    refine iff_of_false (fun h => ?_) ?_
    · have hnull := Except.ok.inj h
      rw [JsValue.ofJson_object] at hnull
      cases hnull
    · rintro ⟨⟨field, hhead, -⟩, -⟩
      cases hhead
  | cons field rest =>
    have hfirst : "" ∉ (field :: rest).map Prod.fst := by
      rw [← hentries]
      exact mt hnames.mem_iff.mp hname
    cases hseed : isArrayLikeSegment field.1 with
    | true =>
      refine iff_of_false (fun h => ?_) ?_
      · refine not_stiff_ofJson_jsonMerge .null patch.fields ?_
        rw [hmerge]
        exact stiff_of_seed hfirst hseed h
      · rintro ⟨⟨_, hhead, hfalse⟩, -⟩
        cases hhead
        rw [hseed] at hfalse
        cases hfalse
    | false =>
      rw [applyOps_null (fun h => hfirst (h ▸ mem_cons_self)) hseed, ← hentries]
      by_cases hproto : "__proto__" ∈ patch.names
      · refine iff_of_false (fun h => ?_) fun h => h.2 hproto
        refine applyOps_ofJson_proto hname hproto (m := .empty) not_mem_nil .null ?_
        rwa [hmerge]
      · refine iff_of_true ?_ ⟨⟨field, by rw [hentries]; rfl, hseed⟩, hproto⟩
        rw [applyOps_ofJson hname fun h => absurd h hproto,
          (mergeValues_eq_jsonMerge_iff .empty patch).mpr fun k v w hv => (by cases hv),
          jsonMerge_empty]

end ScriptServer

/-- The three servers store the same exactly if no field has the empty name and: on an object,
nested objects of the patch name all that they replace and `__proto__` is there already; without
a base, there is a first field and it does not ask for an array, and none is `__proto__`. -/
theorem state_patch_agrees_iff (current : Option Value) (patch : ObjectPatch) :
    (GoServer.statePatch current patch = SodpServer.statePatch current patch ∧
      ScriptServer.handlePatch (current.map .ofJson) patch =
        .ok (some (.ofJson (SodpServer.statePatch current patch)))) ↔
    PatchAgrees current patch := by
  by_cases hname : "" ∈ patch.names
  · refine iff_of_false (fun h => ?_) (fun h => h.1 hname)
    exact ScriptServer.handlePatch_ne_of_empty_name hname _ _ h.2
  have hthree : PatchAgrees current patch ↔ _ := and_iff_right hname
  rw [hthree]
  cases current with
  | none =>
    have hrust : SodpServer.statePatch none patch = .object patch.fields := jsonMerge_empty _
    rw [hrust, map_none]
    refine (and_iff_right rfl).trans (Iff.trans ?_ (ScriptServer.applyOps_null_iff hname))
    rw [ScriptServer.handlePatch]
    split_ifs with hops
    · rw [hops, JsValue.ofJson_object]
      refine iff_of_false (fun h => by cases h) fun h => by cases h
    · exact ScriptServer.map_some_eq_ok_iff
  | some v =>
    rw [map_some, ScriptServer.handlePatch_some, ScriptServer.map_some_eq_ok_iff]
    cases v with
    | null =>
      have hrust : SodpServer.statePatch (some .null) patch = .object patch.fields :=
        jsonMerge_null _
      rw [hrust]
      exact (and_iff_right rfl).trans (ScriptServer.applyOps_null_iff hname)
    | object m =>
      rw [GoServer.statePatch, SodpServer.statePatch, getD_some, getD_some,
        mergeValues_eq_jsonMerge_iff, and_comm]
      refine and_congr_left fun habsorbs => ?_
      by_cases hproto : "__proto__" ∈ patch.names → "__proto__" ∈ m.keys
      · refine iff_of_true ?_ hproto
        rw [ScriptServer.applyOps_ofJson hname hproto,
          (mergeValues_eq_jsonMerge_iff m patch).mpr habsorbs]
      · refine iff_of_false ?_ hproto
        rw [Classical.not_imp] at hproto
        exact ScriptServer.applyOps_ofJson_proto hname hproto.1 hproto.2 _
    | _ =>
      refine iff_of_false (fun h => ?_) id
      refine ScriptServer.not_stiff_ofJson_jsonMerge _ patch.fields
        ((ScriptServer.applyOps_ok (mt (ScriptServer.names_objectEntries patch).mem_iff.mp hname)
          h.2).1 ?_)
      rw [JsValue.ofJson]
      trivial

def nestedBase : Value := .ofFields [("a", .ofFields [("x", .bool true)])]

def nestedPatch : ObjectPatch := ⟨[("a", .ofFields [("y", .bool false)])], by decide⟩

/-- A nested field that the patch does not name is kept by the Rust server only. -/
theorem nested_patch_differs : SodpServer.statePatch (some nestedBase) nestedPatch =
        .ofFields [("a", .ofFields [("x", .bool true), ("y", .bool false)])] ∧
      GoServer.statePatch (some nestedBase) nestedPatch =
        .ofFields [("a", .ofFields [("y", .bool false)])] ∧
      ScriptServer.handlePatch (some (.ofJson nestedBase)) nestedPatch =
        .ok (some (.ofJson (.ofFields [("a", .ofFields [("y", .bool false)])]))) := by
  refine ⟨by decide +kernel, by decide +kernel, ?_⟩
  rw [ScriptServer.handlePatch_some, ScriptServer.map_some_eq_ok_iff]
  decide +kernel

end Sodp
