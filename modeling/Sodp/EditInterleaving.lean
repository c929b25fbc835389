import Mathlib.Logic.Function.Basic
import Sodp.JsonEdit
import Sodp.StateStore
import Sodp.Transition

/-!
# Sessions editing one key at the same time

A read-modify-write call reads the whole value, edits its copy, and writes the whole value back.
The two steps of different sessions interleave freely. A write that finds the value its session
read keeps every edit made before it; one that finds another value writes over it.
-/

namespace Sodp
open Function Transition List Option

inductive Edit where
  | patch (fields : OrderedMap String Value)
  | setIn (path : String) (value : Value)
  | removeIn (path : String)

namespace Edit

/-- The value to apply, from what `get` returned. There is none when `json_set_in`
refuses the path, and when the presence cleanup finds no entry. -/
def updated : Edit → Option Value → Option Value
  | .patch fields, current => some (jsonMerge (current.getD (.object .empty)) (.object fields))
  | .setIn path value, current => (jsonSetIn (current.getD .null) path value).toOption
  | .removeIn path, current => current.map fun value => jsonRemoveIn value path

def Touches : Edit → List String → Prop
  | .patch fields, q => ∃ w, (Value.object fields).lookup q = some w ∧ IsLeaf w
  | .setIn path _, q => if path = "/" then q = [] else startsWithSlash path ∧ q = pathParts path
  | .removeIn path, q =>
    if path = "" ∨ path = "/" then q = [] else startsWithSlash path ∧ q = pathParts path

/-- What a lookup of a touched position finds once the edit is in effect. An empty
object in a patch asks for an object, whatever its fields. -/
def Shows : Edit → List String → Option Value → Prop
  | .patch fields, q, found =>
    match (Value.object fields).lookup q with
    | some (.object _) => ∃ m, found = some (.object m)
    | w => found = w
  | .setIn _ value, _, found => found = some value
  | .removeIn _, q, found => if q = [] then found = some .null else found = none

def InEffect (e : Edit) (value : Value) : Prop := ∀ q, e.Touches q → e.Shows q (value.lookup q)

variable {e : Edit} {root v : Value} {path : String} {current : Option Value}

theorem InEffect.congr {w : Value} (h : e.InEffect v)
    (hsame : ∀ q, e.Touches q → w.lookup q = v.lookup q) : e.InEffect w := by
  intro q hq
  rw [hsame q hq]
  exact h q hq

theorem jsonSetIn_eq_ok {value : Value} (h : (jsonSetIn root path value).toOption = some v) :
    (path = "/" ∧ v = value) ∨
      (path ≠ "/" ∧ startsWithSlash path ∧ v = setInRecursive value root (pathParts path)) := by
  rw [jsonSetIn] at h
  split_ifs at h with hroot hslash
  · exact .inl ⟨hroot, (some.inj h).symm⟩
  · exact .inr ⟨hroot, hslash, (some.inj h).symm⟩
  · exact absurd h (by simp [Except.toOption])

theorem jsonSetIn_refused {value : Value} (h : (jsonSetIn root path value).toOption = none) :
    path ≠ "/" ∧ ¬ startsWithSlash path := by
  rw [jsonSetIn] at h
  split_ifs at h with hroot hslash
  · exact absurd h (by simp [Except.toOption])
  · exact absurd h (by simp [Except.toOption])
  · exact ⟨hroot, hslash⟩

theorem inEffect_patch (base : Value) (fields : OrderedMap String Value) :
    (Edit.patch fields).InEffect (jsonMerge base (.object fields)) := by
  intro q hq
  obtain ⟨w, hw, -⟩ := hq
  obtain ⟨old, hold⟩ := lookup_jsonMerge base hw
  simp only [Shows, hw, hold]
  cases hobject : w.isObject with
  | true =>
    obtain ⟨m, rfl⟩ := (Value.isObject_iff w).mp hobject
    obtain ⟨n, hn⟩ := (Value.isObject_iff _).mp (isObject_jsonMerge old hobject)
    exact ⟨n, congrArg some hn⟩
  | false =>
    rw [jsonMerge_scalar old hobject]
    cases w with
    | object => simp at hobject
    | _ => rfl

theorem inEffect_removeIn (root : Value) (path : String) :
    (Edit.removeIn path).InEffect (jsonRemoveIn root path) := by
  intro q hq
  rw [Touches] at hq
  rw [jsonRemoveIn, Shows]
  split_ifs at hq with hroot
  · rw [if_pos hroot, if_pos hq, hq, Value.lookup_nil]
  · have hne : q ≠ [] := hq.2 ▸ pathParts_ne_nil path
    rw [if_neg hroot, if_neg hne, if_neg (not_not_intro hq.1), hq.2]
    exact lookup_removeInRecursive_self root (pathParts_ne_nil path)

theorem inEffect_updated (h : e.updated current = some v) : e.InEffect v := by
  cases e with
  | patch fields => exact some.inj h ▸ inEffect_patch _ fields
  | setIn path value =>
    intro q hq
    rw [Touches] at hq
    rcases jsonSetIn_eq_ok h with ⟨hroot, hv⟩ | ⟨hroot, -, hv⟩
    · rw [if_pos hroot] at hq
      rw [Shows, hv, hq, Value.lookup_nil]
    · rw [if_neg hroot] at hq
      rw [Shows, hv, hq.2]
      exact lookup_setInRecursive_self value _ _
  | removeIn path =>
    obtain ⟨value, -, hv⟩ := map_eq_some_iff.mp h
    exact hv ▸ inEffect_removeIn value path

theorem inEffect_of_updated_none (h : e.updated current = none) :
    e.InEffect (current.getD .null) := by
  cases e with
  | patch => exact absurd h (some_ne_none _)
  | setIn =>
    intro q hq
    obtain ⟨hroot, hslash⟩ := jsonSetIn_refused h
    rw [Touches, if_neg hroot] at hq
    exact absurd hq.1 hslash
  | removeIn =>
    rw [updated, map_eq_none_iff] at h
    rw [h, getD_none]
    intro q _
    rw [Shows]
    split_ifs with hq
    · rw [hq, Value.lookup_nil]
    · exact Value.lookup_null hq

theorem lookup_updated_of_apart {q : List String} (h : e.updated current = some v)
    (hq : ∀ p, e.Touches p → Apart p q) : v.lookup q = (current.getD .null).lookup q := by
  cases e with
  | patch fields =>
    have hlacks : Lacks (.object fields) q :=
      lacks_of_apart fun p w hp hw => hq p ⟨w, hp, hw⟩
    rw [← some.inj h, lookup_jsonMerge_of_lacks _ hlacks]
    cases current with
    | some => rfl
    | none =>
      -- the handler's default is an empty object, which has no positions either
      rw [getD_none, getD_none, Value.lookup_null hlacks.ne_nil]
      cases q with
      | nil => exact absurd rfl hlacks.ne_nil
      | cons => rw [Value.lookup_cons, Value.get?_object, OrderedMap.get?_empty, bind_none]
  | setIn path =>
    rcases jsonSetIn_eq_ok h with ⟨hroot, -⟩ | ⟨hroot, hslash, hv⟩
    · exact absurd rfl (hq [] (by rw [Touches, if_pos hroot])).ne_nil_left
    · have hapart : Apart (pathParts path) q :=
        hq (pathParts path) (by rw [Touches, if_neg hroot]; exact ⟨hslash, rfl⟩)
      rw [hv, lookup_setInRecursive_of_apart _ _ hapart]
  | removeIn path =>
    obtain ⟨value, hcurrent, hv⟩ := map_eq_some_iff.mp h
    rw [← hv, hcurrent, getD_some, jsonRemoveIn]
    split_ifs with hroot hslash
    · exact absurd rfl (hq [] (by rw [Touches, if_pos hroot])).ne_nil_left
    · have hapart : Apart (pathParts path) q :=
        hq (pathParts path) (by rw [Touches, if_neg hroot]; exact ⟨hslash, rfl⟩)
      exact lookup_removeInRecursive_of_apart value hapart
    · rfl

theorem InEffect.removeIn_removeIn {other : String} (h : (Edit.removeIn path).InEffect root) :
    (Edit.removeIn path).InEffect (jsonRemoveIn root other) := by
  intro q hq
  have hshows := h q hq
  rw [Shows] at hshows ⊢
  split_ifs at hshows ⊢ with hnil
  · rw [hnil, Value.lookup_nil] at hshows
    cases hshows
    rw [hnil, Value.lookup_nil, jsonRemoveIn]
    split_ifs
    · rfl
    · rw [removeInRecursive_of_not_isObject rfl]
    · rfl
  · rw [jsonRemoveIn]
    split_ifs
    · exact Value.lookup_null hnil
    · exact lookup_removeInRecursive_none hshows _
    · exact hshows

end Edit

/-- What one session does to the key: one call, or the cleanup of its presence
entries when it disconnects. -/
inductive Task where
  | patch (fields : OrderedMap String Value)
  | setIn (path : String) (value : Value)
  | presence (path : String) (value : Value)
  | cleanup (paths : List String)

def Task.edits : Task → List Edit
  | .patch fields => [.patch fields]
  | .setIn path value => [.setIn path value]
  | .presence path value => [.setIn path value]
  | .cleanup paths => paths.map Edit.removeIn

theorem Task.removals_of_two {task : Task} {done rest : List Edit} {d e : Edit}
    (h : task.edits = done ++ e :: rest) (hd : d ∈ done) :
    (∃ path, d = .removeIn path) ∧ ∃ path, e = .removeIn path := by
  have hlength : 2 ≤ task.edits.length := by
    have hpos := length_pos_of_mem hd
    rw [h, length_append, length_cons]
    omega
  cases task with
  | cleanup =>
    have hmem : ∀ x ∈ done ++ e :: rest, ∃ path, x = Edit.removeIn path := by
      intro x hx
      rw [← h, Task.edits] at hx
      obtain ⟨path, -, hpath⟩ := mem_map.mp hx
      exact ⟨path, hpath.symm⟩
    exact ⟨hmem d (mem_append_left _ hd), hmem e (by simp)⟩
  | _ => simp [Task.edits] at hlength

/-- Where a session is: the edits it has still to make and, between `get` and
`apply`, what it read and what it is about to write. -/
structure Progress where
  pending : List Edit
  held : Option (Option Value × Value)

structure Editors (ι : Type*) where
  store : StateStore
  progress : ι → Progress

namespace Editors

variable {ι : Type*}

def begin (store : StateStore) (tasks : ι → Task) : Editors ι :=
  ⟨store, fun i => ⟨(tasks i).edits, none⟩⟩

def content (c : Editors ι) (key : String) : Option Value :=
  (c.store.get key).map StateEntry.value

/-- A session that writes finds the value it read. -/
def Fresh (key : String) (c : Editors ι) (i : ι) : Prop :=
  ∀ h ∈ (c.progress i).held, c.content key = h.1

instance decidableFresh (key : String) (c : Editors ι) (i : ι) : Decidable (Fresh key c i) :=
  inferInstanceAs (Decidable (∀ h ∈ (c.progress i).held, c.content key = h.1))

def Disjoint (tasks : ι → Task) : Prop :=
  ∀ i j, i ≠ j → ∀ d ∈ (tasks i).edits, ∀ e ∈ (tasks j).edits,
    ∀ p q, d.Touches p → e.Touches q → Apart p q

structure Kept (key : String) (tasks : ι → Task) (c : Editors ι) : Prop where
  done : ∀ i, ∃ done, (tasks i).edits = done ++ (c.progress i).pending ∧
    ∀ d ∈ done, d.InEffect (c.store.valueOf key)
  held : ∀ i current v, (c.progress i).held = some (current, v) →
    ∃ e rest, (c.progress i).pending = e :: rest ∧ e.updated current = some v

theorem kept_begin (key : String) (tasks : ι → Task) (store : StateStore) :
    Kept key tasks (begin store tasks) where
  done i := ⟨[], rfl, by simp⟩
  held i current v h := by cases h

section Interleaving

variable [DecidableEq ι]

def step (key : String) (c : Editors ι) (i : ι) : Option (Editors ι) :=
  match c.progress i with
  | ⟨[], _⟩ => none
  | ⟨e :: rest, none⟩ =>
    match e.updated (c.content key) with
    | none => some { c with progress := update c.progress i ⟨rest, none⟩ }
    | some v =>
      some { c with progress := update c.progress i ⟨e :: rest, some (c.content key, v)⟩ }
  | ⟨_ :: rest, some (_, v)⟩ =>
    some ⟨(c.store.apply key v).1, update c.progress i ⟨rest, none⟩⟩

variable {key : String} {c c' : Editors ι} {i : ι} {tasks : ι → Task}

theorem step_cases (h : step key c i = some c') : (∀ j ≠ i, c'.progress j = c.progress j) ∧
    ∃ e rest, (c.progress i).pending = e :: rest ∧
      ((c'.store = c.store ∧ e.updated (c.content key) = none ∧ c'.progress i = ⟨rest, none⟩) ∨
       (c'.store = c.store ∧ ∃ v, e.updated (c.content key) = some v ∧
          c'.progress i = ⟨e :: rest, some (c.content key, v)⟩) ∨
       ∃ current v, (c.progress i).held = some (current, v) ∧
          c'.store = (c.store.apply key v).1 ∧ c'.progress i = ⟨rest, none⟩) := by
  rw [step] at h
  split at h
  case h_1 => cases h
  case h_2 e rest hp =>
    split at h
    case h_1 hu =>
      cases h
      refine ⟨fun j hj => update_of_ne hj _ _, e, rest, by rw [hp], ?_⟩
      exact .inl ⟨rfl, hu, update_self ..⟩
    case h_2 v hu =>
      cases h
      refine ⟨fun j hj => update_of_ne hj _ _, e, rest, by rw [hp], ?_⟩
      exact .inr (.inl ⟨rfl, v, hu, update_self ..⟩)
  case h_3 e rest current v hp =>
    cases h
    refine ⟨fun j hj => update_of_ne hj _ _, e, rest, by rw [hp], ?_⟩
    exact .inr (.inr ⟨current, v, by rw [hp], rfl, update_self ..⟩)

theorem Kept.of_same_store (h : Kept key tasks c) (hstore : c'.store = c.store)
    (hothers : ∀ j ≠ i, c'.progress j = c.progress j)
    (hdone : ∃ done, (c.progress i).pending = done ++ (c'.progress i).pending ∧
      ∀ d ∈ done, d.InEffect (c.store.valueOf key))
    (hheld : ∀ current v, (c'.progress i).held = some (current, v) →
      ∃ e rest, (c'.progress i).pending = e :: rest ∧ e.updated current = some v) :
    Kept key tasks c' := by
  constructor
  · intro j
    obtain ⟨before, hbefore, heffect⟩ := h.done j
    rw [hstore]
    by_cases hj : j = i
    · subst hj
      obtain ⟨done, hpending, hnew⟩ := hdone
      refine ⟨before ++ done, by rw [hbefore, hpending, append_assoc], fun d hd => ?_⟩
      rcases mem_append.mp hd with hd | hd
      · exact heffect d hd
      · exact hnew d hd
    · exact ⟨before, by rw [hothers j hj, hbefore], heffect⟩
  · intro j current v hj
    by_cases hji : j = i
    · subst hji
      exact hheld current v hj
    · rw [hothers j hji] at hj ⊢
      exact h.held j current v hj

theorem valueOf_apply (s : StateStore) (key : String) (v : Value) :
    (s.apply key v).1.valueOf key = v := by
  have h := StateStore.content_exec s (.apply key v) key
  rw [StateStore.Call.key, if_pos rfl] at h
  rw [StateStore.valueOf]
  exact congrArg (fun o : Option Value => o.getD .null) h

theorem Kept.of_apply {e : Edit} {rest : List Edit} {v : Value} (h : Kept key tasks c)
    (hdisjoint : Disjoint tasks) (hothers : ∀ j ≠ i, c'.progress j = c.progress j)
    (hpending : (c.progress i).pending = e :: rest) (hv : e.updated (c.content key) = some v)
    (hstore : c'.store = (c.store.apply key v).1) (hnow : c'.progress i = ⟨rest, none⟩) :
    Kept key tasks c' := by
  obtain ⟨before, hbefore, heffect⟩ := h.done i
  rw [hpending] at hbefore
  have he : e ∈ (tasks i).edits := by rw [hbefore]; simp
  constructor
  · intro j
    rw [hstore, valueOf_apply]
    by_cases hj : j = i
    · subst hj
      refine ⟨before ++ [e], by rw [hnow, hbefore, append_assoc]; rfl, fun d hd => ?_⟩
      rcases mem_append.mp hd with hearlier | hlast
      · obtain ⟨⟨_, rfl⟩, ⟨_, rfl⟩⟩ := Task.removals_of_two hbefore hearlier
        obtain ⟨value, hvalue, rfl⟩ := map_eq_some_iff.mp hv
        have hcurrent : c.store.valueOf key = value := by
          rw [StateStore.valueOf, ← content, hvalue, getD_some]
        have hremoved := heffect _ hearlier
        rw [hcurrent] at hremoved
        exact hremoved.removeIn_removeIn
      · rw [mem_singleton.mp hlast]
        exact Edit.inEffect_updated hv
    · obtain ⟨done, hdone, hkept⟩ := h.done j
      refine ⟨done, by rw [hothers j hj, hdone], fun d hd => ?_⟩
      have hmem : d ∈ (tasks j).edits := by
        rw [hdone]
        exact mem_append_left _ hd
      refine (hkept d hd).congr fun q hq => Edit.lookup_updated_of_apart hv fun p hp => ?_
      exact (hdisjoint j i hj d hmem e he q p hq hp).symm
  · intro j current w hj
    by_cases hji : j = i
    · subst hji
      rw [hnow] at hj
      cases hj
    · rw [hothers j hji] at hj ⊢
      exact h.held j current w hj

theorem Kept.step (h : Kept key tasks c) (hdisjoint : Disjoint tasks) (hfresh : Fresh key c i)
    (hstep : step key c i = some c') : Kept key tasks c' := by
  obtain ⟨hothers, e, rest, hpending, hcase⟩ := step_cases hstep
  rcases hcase with ⟨hstore, hnone, hnow⟩ | ⟨hstore, v, hv, hnow⟩ |
    ⟨current, v, hheld, hstore, hnow⟩
  · refine h.of_same_store hstore hothers ⟨[e], by rw [hpending, hnow]; rfl, fun d hd => ?_⟩ ?_
    · rw [mem_singleton.mp hd]
      exact Edit.inEffect_of_updated_none hnone
    · intro current v hv
      rw [hnow] at hv
      cases hv
  · refine h.of_same_store hstore hothers ⟨[], by rw [hpending, hnow]; rfl, by simp⟩ ?_
    intro current w hw
    rw [hnow, some.injEq, Prod.mk.injEq] at hw
    exact ⟨e, rest, by rw [hnow], by rw [← hw.1, ← hw.2, hv]⟩
  · obtain ⟨e', _, hpending', hv⟩ := h.held i current v hheld
    have hsame : e' = e := by
      rw [hpending] at hpending'
      exact (List.cons.inj hpending').1.symm
    have hread : c.content key = current := hfresh (current, v) hheld
    rw [hsame, ← hread] at hv
    exact h.of_apply hdisjoint hothers hpending hv hstore hnow

theorem edits_kept {key : String} {tasks : ι → Task} {initial : StateStore} {c : Editors ι}
    {schedule : List ι} (hdisjoint : Disjoint tasks)
    (hrun : run (Editors.step key) (begin initial tasks) schedule = some c)
    (hfresh : Transition.Along (Editors.step key) (Fresh key) (begin initial tasks) schedule)
    (hdone : ∀ i, (c.progress i).pending = []) (i : ι) :
    ∀ e ∈ (tasks i).edits, e.InEffect (c.store.valueOf key) := by
  have hkept : Kept key tasks c :=
    invariant_along (fun _ _ _ h hok hs => h.step hdisjoint hok hs)
      (kept_begin key tasks initial) hfresh hrun
  obtain ⟨_, hedits, heffect⟩ := hkept.done i
  rw [hdone i, append_nil] at hedits
  rw [hedits]
  exact heffect

def twoFields : Bool → Task
  | false => .setIn "/a" (.bool true)
  | true => .presence "/b" (.bool true)

theorem disjoint_twoFields : Disjoint twoFields := by
  have ha : pathParts "/a" = ["a"] := by decide +kernel
  have hb : pathParts "/b" = ["b"] := by decide +kernel
  intro i j hij d hd e he p q hp hq
  cases i <;> cases j
  case false.false => exact absurd rfl hij
  case true.true => exact absurd rfl hij
  all_goals
    simp only [twoFields, Task.edits, mem_singleton] at hd he
    subst hd
    subst he
    rw [Edit.Touches, if_neg (by decide)] at hp hq
    rw [hp.2, hq.2, ha, hb]
    exact ⟨by decide, by decide⟩

theorem edits_kept_in_turn :
    ∃ c, run (Editors.step "k") (begin .new twoFields) [false, false, true, true] = some c ∧
      ∀ i, ∀ e ∈ (twoFields i).edits, e.InEffect (c.store.valueOf "k") := by
  refine exists_run (fun c => ∀ i, (c.progress i).pending.length = 0) (by decide +kernel)
    fun c hc hdone => ?_
  exact edits_kept disjoint_twoFields hc (by decide +kernel) fun i =>
    length_eq_zero_iff.mp (hdone i)

/-- Both sessions read before either writes, and the second write carries only its own field. -/
theorem edits_lost : ∃ c, run (Editors.step "k") (begin .new twoFields) [false, true, false, true] =
        some c ∧ (∀ i, (c.progress i).pending = []) ∧ Disjoint twoFields ∧
      c.store.valueOf "k" = .ofFields [("b", .bool true)] ∧
      ∃ e ∈ (twoFields false).edits, ¬ e.InEffect (c.store.valueOf "k") := by
  refine exists_run (fun c => (∀ i, (c.progress i).pending.length = 0) ∧
    c.store.valueOf "k" = .ofFields [("b", .bool true)]) (by decide +kernel) ?_
  rintro c - ⟨hdone, hvalue⟩
  refine ⟨fun i => length_eq_zero_iff.mp (hdone i), disjoint_twoFields, hvalue,
    .setIn "/a" (.bool true), mem_singleton_self _, fun h => ?_⟩
  have hshows := h ["a"] (by rw [Edit.Touches, if_neg (by decide)]; decide +kernel)
  have hfound : (Value.ofFields [("b", .bool true)]).lookup ["a"] = none := by decide +kernel
  rw [hvalue, Edit.Shows, hfound] at hshows
  cases hshows

end Interleaving

end Editors

end Sodp
