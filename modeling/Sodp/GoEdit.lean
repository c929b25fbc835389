import Sodp.JsonEdit

/-!
# Editing a stored value on the Go server

`mergeValues` and `setIn` of `server.go`. A patch replaces whole fields of the top level.
A path is split at dots, and the loop over its parts copies the maps on its way and
starts from an empty one where there is none, which is what `set_in_recursive` of the
Rust server does with its own parts.
-/

namespace Sodp.GoServer
open Value OrderedMap List

/-- `mergeValues`: `nil` and any other value that is no map gives way to the patch. -/
def mergeValues : Value → Value → Value
  | .object current, .object patch =>
    .object (patch.toList.foldl (fun merged field => merged.insert field.1 field.2) current)
  | _, patch => patch

def setIn (current : Value) (path : String) (value : Value) : Value :=
  setInRecursive value current (dotParts path)

theorem get?_foldl_insert_of_notMem {k : String} {l : List (String × Value)}
    (hk : k ∉ l.map Prod.fst) (m : OrderedMap String Value) :
    (l.foldl (fun merged field => merged.insert field.1 field.2) m).get? k = m.get? k := by
  induction l generalizing m with
  | nil => rfl
  | cons field l ih =>
    rw [map_cons, mem_cons, not_or] at hk
    rw [foldl_cons, ih hk.2, get?_insert_of_ne _ hk.1]

theorem get?_foldl_insert_of_mem {k : String} {v : Value} {l : List (String × Value)}
    (hl : (l.map Prod.fst).Nodup) (hk : (k, v) ∈ l) (m : OrderedMap String Value) :
    (l.foldl (fun merged field => merged.insert field.1 field.2) m).get? k = some v := by
  induction l generalizing m with
  | nil => cases hk
  | cons field l ih =>
    rw [map_cons, nodup_cons] at hl
    rw [foldl_cons]
    rcases mem_cons.mp hk with rfl | hrest
    · rw [get?_foldl_insert_of_notMem hl.1, get?_insert_self]
    · exact ih hl.2 hrest _

theorem get?_mergeValues (current patch : OrderedMap String Value) (k : String) :
    (mergeValues (.object current) (.object patch)).get? k = match patch.get? k with
      | none => current.get? k
      | some w => some w := by
  have hnodup : (patch.toList.map Prod.fst).Nodup := by
    rw [map_fst_toList]
    exact patch.sorted.imp fun h => h.ne
  rw [mergeValues, get?_object]
  cases hk : patch.get? k with
  | none =>
    refine get?_foldl_insert_of_notMem ?_ current
    rw [map_fst_toList]
    exact (get?_eq_none_iff patch k).mp hk
  | some w =>
    exact get?_foldl_insert_of_mem hnodup ((mem_toList patch k w).mpr hk) current

end Sodp.GoServer
