import Sodp.ClientWalk
import Sodp.GoEdit
import Sodp.UnchangedWrites

/-!
# One path on three servers and a client

What `state.set_in` makes of a value. The Rust server takes the slashes off the front of the path
and splits the rest at slashes, the TypeScript server reads it as a JSON pointer, the TypeScript
client splits it as it stands, and the Go server splits it at dots. The results can only be the same
if the value is already where each of the four looks for it.
-/

namespace Sodp
open Value OrderedMap List Option

/-! ### The first keys -/

variable {key path : String} {v : Value}

theorem slash_notMem_pathParts (h : key ∈ pathParts path) : '/' ∉ key.toList := by
  obtain ⟨_, hpart, rfl⟩ := mem_map.mp h
  rw [String.toList_ofList]
  exact notMem_of_mem_splitOn hpart

theorem dotParts_eq_cons (h : startsWithSlash path = true) :
    ∃ key rest, dotParts path = key :: rest ∧ '/' ∈ key.toList := by
  have hhead : path.toList.head? = some '/' := of_decide_eq_true h
  cases hpath : path.toList with
  | nil => simp [hpath] at hhead
  | cons c l =>
    rw [hpath, head?_cons] at hhead
    cases hhead
    have hsplit : ('/' :: l).splitOn '.' = (l.splitOn '.').modifyHead (List.cons '/') := by
      rw [List.splitOn, splitOnP_cons_eq_if_modifyHead, if_neg (by decide)]
      rfl
    rw [dotParts, hpath, hsplit]
    cases hparts : l.splitOn '.' with
    | nil => exact absurd hparts (splitOn_ne_nil '.' l)
    | cons first rest =>
      refine ⟨String.ofList ('/' :: first), rest.map String.ofList, rfl, ?_⟩
      rw [String.toList_ofList]
      exact mem_cons_self

/-! ### Agreement -/

theorem setInRecursive_eq_self_iff {node : Value} {rest : List String} :
    setInRecursive v node (key :: rest) = node ↔ node.lookup (key :: rest) = some v := by
  induction rest generalizing node key with
  | nil =>
    cases node with
    | object =>
      rw [setInRecursive, fields, Value.object.injEq, insert_eq_self_iff, lookup_cons, get?_object]
      simp [setInRecursive]
    | _ => simp [setInRecursive, lookup_cons, Value.get?]
  | cons next rest ih =>
    cases node with
    | object m =>
      rw [setInRecursive, fields, Value.object.injEq, insert_eq_self_iff, lookup_cons, get?_object]
      cases hchild : m.get? key with
      | none => simp
      | some =>
        rw [getD_some, some.injEq, bind_some, ← ih, eq_comm]
    | _ => simp [setInRecursive, lookup_cons, Value.get?]

/-- The three servers store one value, and the client holds it. An absent value reads as null. -/
def SetInAgrees (current : Value) (path : String) (v : Value) : Prop :=
  ∃ r, jsonSetIn current path v = .ok r ∧ GoServer.setIn current path v = r ∧
    ScriptServer.applyOps (.ofJson current) [⟨.update, path, .ofJson v⟩] = .ok (.ofJson r) ∧
    Client.applyOps (.ofJson current) [.update path v] = .ok (.ofJson r)

def ScriptServer.HoldsAt (v : Value) (path : String) (node : Value) : Prop :=
  ∃ seg rest, ScriptServer.parsePath path = .ok (seg :: rest) ∧
    ScriptServer.Holds v seg rest node

def Client.HoldsAt (v : Value) (path : String) (node : Value) : Prop :=
  ∃ seg rest c, Client.parsePath path = seg :: rest ∧ node.container? = some c ∧
    Client.walker.inert (some v) seg rest c = true

theorem ScriptServer.applyOps_update_eq_self_iff {m : OrderedMap String Value}
    (hpath : startsWithSlash path = true) (hroot : path ≠ "/") :
    applyOps (.ofJson (.object m)) [⟨.update, path, .ofJson v⟩] = .ok (.ofJson (.object m)) ↔
      HoldsAt v path (.object m) := by
  have hparse : parsePath path =
      .ok (((path.toList.drop 1).splitOn '/').map fun seg => String.ofList (unescape seg)) := by
    have hhead : path.toList.head? = some '/' := of_decide_eq_true hpath
    have hempty : path ≠ "" := by
      rintro rfl
      cases hhead
    rw [parsePath, if_neg (not_or.mpr ⟨hempty, hroot⟩), if_neg fun h => h hhead]
  have hone : applyOps (.ofJson (.object m)) [⟨.update, path, .ofJson v⟩] =
      applyOne (.ofJson (.object m)) ⟨.update, path, .ofJson v⟩ := by
    rw [applyOps, foldlM_cons]
    exact bind_pure _
  rw [hone, applyOne, HoldsAt, hparse]
  cases hsegs : ((path.toList.drop 1).splitOn '/').map fun seg => String.ofList (unescape seg) with
  | nil => exact absurd (map_eq_nil_iff.mp hsegs) (splitOn_ne_nil '/' _)
  | cons seg rest =>
    have hwalk : applyAt .update (.ofJson v) (seg :: rest) (.ofJson (.object m)) =
        applyParts .update (.ofJson v) seg rest (.ofJson (.object m)) := by
      rw [applyAt, JsValue.ofJson_object, if_neg (by simp)]
      rfl
    change applyAt .update (.ofJson v) (seg :: rest) (.ofJson (.object m)) = _ ↔ _
    rw [hwalk, applyParts_eq_self_iff (by simp)]
    simp

theorem Client.applyOps_update_eq_self_iff {m : OrderedMap String Value} (hroot : path ≠ "/") :
    applyOps (.ofJson (.object m)) [.update path v] = .ok (.ofJson (.object m)) ↔
      HoldsAt v path (.object m) := by
  have hone : applyOps (.ofJson (.object m)) [.update path v] =
      applyAt .update (.ofJson v) (parsePath path) (.ofJson (.object m)) := by
    rw [applyOps, foldlM_cons]
    exact bind_pure _
  have hcarries : Carries .update (.ofJson v) (some v) := ⟨nofun, rfl⟩
  rw [hone, HoldsAt]
  cases hparts : parsePath path with
  | nil =>
    rw [parsePath, if_neg hroot, map_eq_nil_iff] at hparts
    exact absurd hparts (splitOn_ne_nil '/' _)
  | cons part parts =>
    rw [applyAt_eq_ofJson_iff hcarries]
    constructor
    · rintro ⟨d, hd, hself⟩
      obtain rfl : Container.dict m = d := Container.toValue_injective hself
      exact ⟨part, parts, .dict m, rfl, rfl, Walker.walk_eq_self_iff.mp hd⟩
    · rintro ⟨_, _, c, hseg, hc, hinert⟩
      cases hseg
      cases hc
      exact ⟨.dict m, Walker.walk_eq_self_iff.mpr hinert, rfl⟩

theorem setInRecursive_eq_iff {current : Value} {key' : String} {rest rest' : List String}
    (hkey : key ≠ key') :
    setInRecursive v current (key :: rest) = setInRecursive v current (key' :: rest') ↔
      current.lookup (key :: rest) = some v ∧ current.lookup (key' :: rest') = some v := by
  rw [← setInRecursive_eq_self_iff, ← setInRecursive_eq_self_iff]
  constructor
  · intro h
    have hsome : current.get? key =
        some (setInRecursive v ((current.get? key).getD .null) rest) := by
      have hget := get?_setInRecursive_of_ne v current hkey rest'
      rwa [← h, get?_setInRecursive_self, eq_comm] at hget
    have hobject : current.isObject = true := by
      cases current with
      | object => rfl
      | _ => cases hsome
    have hself : setInRecursive v current (key :: rest) = current := by
      refine eq_of_get? rfl hobject fun k => ?_
      by_cases hk : k = key
      · rw [hk, h, get?_setInRecursive_of_ne v current hkey]
      · exact get?_setInRecursive_of_ne v current hk rest
    exact ⟨hself, h ▸ hself⟩
  · rintro ⟨h, h'⟩
    rw [h, h']

theorem set_in_agrees_iff {path : String} (hpath : startsWithSlash path = true)
    (current v : Value) :
    SetInAgrees current path v ↔ path ≠ "/" ∧ current.lookup (pathParts path) = some v ∧
      current.lookup (dotParts path) = some v ∧ ScriptServer.HoldsAt v path current ∧
      Client.HoldsAt v path current := by
  obtain ⟨key', rest', hgo, hslash⟩ := dotParts_eq_cons hpath
  by_cases hroot : path = "/"
  · subst hroot
    refine iff_of_false ?_ fun h => h.1 rfl
    rintro ⟨r, hr, hset, -⟩
    rw [jsonSetIn, if_pos rfl, Except.ok.injEq] at hr
    subst hr
    have hparts : dotParts "/" = ["/"] := by decide
    have hget := get?_setInRecursive_self v current "/" []
    rw [GoServer.setIn, hparts] at hset
    rw [hset, setInRecursive] at hget
    refine get?_ne_jsonMerge "/" v .null ?_
    simp only [jsonMerge, hget]
  · cases hrust : pathParts path with
    | nil => exact absurd hrust (pathParts_ne_nil path)
    | cons key =>
      have hkey : key ≠ key' := by
        rintro rfl
        exact slash_notMem_pathParts (hrust ▸ mem_cons_self) hslash
      rw [SetInAgrees, jsonSetIn, if_neg hroot, if_neg (not_not.mpr hpath), GoServer.setIn, hrust,
        hgo, and_iff_right hroot, ← and_assoc, ← setInRecursive_eq_iff hkey]
      simp only [Except.ok.injEq, exists_eq_left']
      rw [@eq_comm _ (setInRecursive v current (key' :: rest'))]
      refine and_congr_right fun heq => ?_
      have hself := setInRecursive_eq_self_iff.mpr ((setInRecursive_eq_iff hkey).mp heq).1
      obtain ⟨m, rfl⟩ := (isObject_iff current).mp (hself ▸ rfl)
      rw [hself, ScriptServer.applyOps_update_eq_self_iff hpath hroot,
        Client.applyOps_update_eq_self_iff hroot]

theorem set_in_agrees_both_keys :
    SetInAgrees (.ofFields [("/a", .bool true), ("a", .bool true)]) "/a" (.bool true) :=
  (set_in_agrees_iff (by decide) _ _).mpr ⟨by decide, by decide +kernel, by decide +kernel,
    ⟨"a", [], by decide +kernel, .inl (by decide +kernel)⟩,
    ⟨"a", [], _, by decide +kernel, rfl, by decide +kernel⟩⟩

/-- A stock that is not there yet. -/
theorem set_in_inventory_differs : jsonSetIn .null "/inventory/0" (.bool true) =
        .ok (.ofFields [("inventory", .ofFields [("0", .bool true)])]) ∧
      GoServer.setIn .null "/inventory/0" (.bool true) = .ofFields [("/inventory/0", .bool true)] ∧
      ScriptServer.applyOps .null [⟨.update, "/inventory/0", .bool true⟩] =
        .ok (.ofJson (.ofFields [("inventory", .array [.bool true])])) ∧
      Client.applyOps .null [.update "/inventory/0" (.bool true)] =
        .ok (.ofJson (.ofFields [("inventory", .array [.bool true])])) := by
  refine ⟨?_, ?_, ?_, ?_⟩ <;> decide +kernel

end Sodp
