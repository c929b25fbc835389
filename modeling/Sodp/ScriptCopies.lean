import Sodp.ScriptConvergence
import Sodp.ScriptStoreVersions

/-!
# Copies of the TypeScript store

`persist.ts` writes the keys that are initialized into one JSON object, and loads it through
`loadEntries`, which takes only versions above that of the empty store. `cluster.ts` sends each
change to the other nodes and into a hash, from which a new node loads in the same way. A key that
has been removed is at version 0 on the node that removed it, and a null with a version elsewhere.

`json` is what a value becomes when it is written as JSON and read again.
-/

namespace Sodp.ScriptServer
open Transition Function OrderedMap List Option ScriptServer.StateStore
variable {τ : Type*} (json : JsValue → JsValue)

/-! ### Loading -/

def restored : Option (ℕ × JsValue) → ℕ × JsValue × Bool
  | some (v + 1, x) => (v + 1, x, true)
  | _ => (0, .null, false)

def StateStore.loaded (capacity : ℕ) (entries : OrderedMap String (ℕ × JsValue)) : StateStore τ :=
  (StateStore.new capacity).loadEntries entries.toList

theorem newest_toList (entries : OrderedMap String (ℕ × JsValue)) (key : String) :
    newest entries.toList key = entries.get? key := by
  have hnodup : (entries.toList.filter fun item => item.1 = key).Nodup :=
    (List.Nodup.of_map Prod.fst (entries.map_fst_toList ▸ entries.nodup_keys)).filter _
  rw [newest]
  cases hget : entries.get? key with
  | none =>
    have hnil : (entries.toList.filter fun item => item.1 = key) = [] := by
      refine filter_eq_nil_iff.mpr fun item hitem hkey => ?_
      have hsome := (mem_toList entries item.1 item.2).mp hitem
      rw [of_decide_eq_true hkey, hget] at hsome
      cases hsome
    rw [hnil]
    rfl
  | some e =>
    have hone : (entries.toList.filter fun item => item.1 = key) = [(key, e)] := by
      refine perm_singleton.mp ((perm_ext_iff_of_nodup hnodup (by simp)).mpr ?_)
      rintro ⟨-, item⟩
      rw [List.mem_filter, OrderedMap.mem_toList, List.mem_singleton, decide_eq_true_eq,
        Prod.mk.injEq, and_comm]
      refine and_congr_right fun hother => ?_
      dsimp only at hother
      rw [hother, hget, some.injEq, eq_comm]
    rw [hone]
    rfl

theorem StateStore.snapshot_loaded (capacity : ℕ) (entries : OrderedMap String (ℕ × JsValue))
    (key : String) : (StateStore.loaded capacity entries : StateStore τ).snapshot key =
      restored (entries.get? key) := by
  rw [snapshot_eq, loaded, entry_loadEntries, newest_toList]
  rcases entries.get? key with _ | ⟨_ | v, x⟩ <;> rfl

/-! ### The file -/

/-- The object that `flushSync` writes. To assign the key `__proto__` is not to make a property. -/
def StateStore.flushSync (s : StateStore τ) : OrderedMap String (ℕ × JsValue) :=
  .ofLookup s.keys.keys s.keys.sorted fun key =>
    if (s.snapshot key).2.2 ∧ key ≠ "__proto__" then
      some ((s.snapshot key).1, json (s.snapshot key).2.1)
    else none

def StateStore.Restores (s : StateStore τ) (capacity : ℕ) : Prop :=
  ∀ key, if (s.snapshot key).2.2 then
      (StateStore.loaded capacity (s.flushSync json) : StateStore τ).snapshot key = s.snapshot key
    else ((StateStore.loaded capacity (s.flushSync json) : StateStore τ).snapshot key).2.2 = false

theorem StateStore.get?_flushSync (s : StateStore τ) (key : String) :
    (s.flushSync json).get? key = if (s.snapshot key).2.2 ∧ key ≠ "__proto__" then
      some ((s.snapshot key).1, json (s.snapshot key).2.1) else none := by
  rw [flushSync, get?_ofLookup]
  split_ifs with hmem hinit hinit
  · rfl
  · rfl
  · rw [← get?_eq_none_iff] at hmem
    rw [snapshot, hmem] at hinit
    cases hinit.1
  · rfl

/-- A store with JSON values is restored exactly if each key that is initialized has a version, and
is not the name of the prototype. -/
theorem StateStore.restores_iff {json : JsValue → JsValue} {s : StateStore τ}
    (hjson : ∀ key, (s.snapshot key).2.2 = true → json (s.snapshot key).2.1 = (s.snapshot key).2.1)
    (capacity : ℕ) : s.Restores json capacity ↔
      ∀ key, (s.snapshot key).2.2 = true → 0 < (s.snapshot key).1 ∧ key ≠ "__proto__" := by
  refine forall_congr' fun key => ?_
  rw [snapshot_loaded, get?_flushSync]
  have hvalue := hjson key
  generalize s.snapshot key = snap at hvalue ⊢
  obtain ⟨version, value, initialized⟩ := snap
  cases initialized with
  | false => simp [restored]
  | true =>
    by_cases hproto : key = "__proto__"
    · simp [hproto, restored]
    · have hvalue : json value = value := hvalue rfl
      cases version with
      | zero => simp [hproto, restored]
      | succ => simp [hproto, restored, hvalue]

theorem published_restored : ∃ s : StateStore Unit, run StateStore.perform (.new 10)
        [.publish "k" [⟨.update, "/", .bool true⟩]] = some s ∧ s.Restores id 10 := by
  refine ⟨_, rfl, (restores_iff (fun _ _ => rfl) 10).mpr fun key => ?_⟩
  have hops : applyOps ((StateStore.new 10 : StateStore Unit).entry "k").value
      [⟨.update, "/", .bool true⟩] = .ok (.bool true) := rfl
  rw [snapshot_publish_of_ok hops, update_apply]
  split_ifs with hkey
  · exact fun _ => ⟨Nat.one_pos, by rw [hkey]; decide⟩
  · exact fun hinit => absurd hinit Bool.false_ne_true

/-- A key that is there before the first change is not there after a restart. -/
theorem hydrated_not_restored :
    ∃ s : StateStore Unit, run StateStore.perform (.new 10) [.hydrate "k" (.bool true)] = some s ∧
      s.snapshot "k" = (0, .bool true, true) ∧
      (StateStore.loaded 10 (s.flushSync id) : StateStore Unit).snapshot "k" = (0, .null, false) :=
  ⟨_, rfl, rfl, by decide +kernel⟩

/-! ### The nodes of a cluster -/

/-- The stores of the nodes, and the hash `sodp:state`. -/
structure Cluster (ι τ : Type*) where
  node : ι → StateStore τ
  hash : OrderedMap String (ℕ × JsValue)

inductive Mutation (ι : Type*) where
  | publish (node : ι) (key : String) (ops : List DeltaOp)
  | remove (node : ι) (key : String)

namespace Cluster
variable {ι : Type*} [DecidableEq ι]

/-- `publish` on a node, with what the global subscriber sends and the others do with it. Ops that
throw come before the subscriber. -/
def publish (c : Cluster ι τ) (i : ι) (key : String) (ops : List DeltaOp) : Cluster ι τ :=
  match applyOps ((c.node i).entry key).value ops with
  | .error _ => { c with node := update c.node i ((c.node i).publish key ops) }
  | .ok value =>
    let version := ((c.node i).entry key).version + 1
    { node := fun j => if j = i then (c.node i).publish key ops
        else (c.node j).publishRemote key (ops.map (DeltaOp.received json)) version
      hash := c.hash.insert key (version, json value) }

def remove (c : Cluster ι τ) (i : ι) (key : String) : Cluster ι τ :=
  match (c.node i).keys.get? key with
  | none => c
  | some _ =>
    let c := c.publish json i key [⟨.remove, "/", .undefined⟩]
    { c with node := update c.node i ((c.node i).update key Entry.clear) }

def step (c : Cluster ι τ) : Mutation ι → Option (Cluster ι τ)
  | .publish i key ops => some (c.publish json i key ops)
  | .remove i key => some (c.remove json i key)

/-- All nodes, and a node that starts now, show the same. -/
def Agrees (c : Cluster ι τ) : Prop :=
  ∀ i capacity, (c.node i).snapshot = (StateStore.loaded capacity c.hash : StateStore τ).snapshot

/-- The values of the ops and what they make of the stored value are JSON, and no path leads out of
the document. -/
def Plain (c : Cluster ι τ) : Mutation ι → Prop
  | .publish i key ops => (∀ op ∈ ops, op.kind = .remove ∨ op.value.isJson = true) ∧
      match applyOps ((c.node i).entry key).value ops with
      | .ok next => next.isJson = true
      | .error fault => fault ≠ .builtinReached
  | .remove _ _ => True

def RemovesNothing (c : Cluster ι τ) : Mutation ι → Prop
  | .publish _ _ _ => True
  | .remove i key => (c.node i).keys.get? key = none

variable {json} {c : Cluster ι τ}

omit [DecidableEq ι] in
theorem Agrees.value_eq (h : c.Agrees) (i j : ι) (key : String) :
    ((c.node j).entry key).value = ((c.node i).entry key).value := by
  have hsame := congrFun ((h i 0).trans (h j 0).symm) key
  rw [snapshot_eq, snapshot_eq, Prod.mk.injEq, Prod.mk.injEq] at hsame
  exact hsame.2.1.symm

theorem snapshot_loaded_insert (capacity : ℕ) (hash : OrderedMap String (ℕ × JsValue))
    (key : String) (v : ℕ) (x : JsValue) :
    (StateStore.loaded capacity (hash.insert key (v + 1, x)) : StateStore τ).snapshot =
      update (StateStore.loaded capacity hash : StateStore τ).snapshot key (v + 1, x, true) := by
  funext other
  rw [snapshot_loaded, get?_insert, update_apply]
  split_ifs
  · rfl
  · rw [snapshot_loaded]

variable {ops : List DeltaOp} {s : StateStore τ}

theorem snapshot_publishRemote_of_ok {key : String}
    {next : JsValue} (h : applyOps (s.entry key).value ops = .ok next) (version : ℕ) :
    (s.publishRemote key ops version).snapshot = update s.snapshot key (version, next, true) := by
  rw [StateStore.publishRemote, snapshot_update, Entry.publishAt, h]
  rfl

theorem map_received (hjson : ∀ v : JsValue, v.isJson = true → json v = v)
    (hops : ∀ op ∈ ops, op.kind = .remove ∨ op.value.isJson = true) :
    ops.map (DeltaOp.received json) = ops := by
  refine (map_congr_left fun op hop => ?_).trans (map_id ops)
  rw [DeltaOp.received, id]
  split_ifs with hkind
  · rfl
  · rw [hjson _ ((hops op hop).resolve_left hkind)]

theorem Agrees.publish (hjson : ∀ v : JsValue, v.isJson = true → json v = v) (h : c.Agrees) {i : ι}
    {key : String} (hplain : c.Plain (.publish i key ops)) : (c.publish json i key ops).Agrees := by
  obtain ⟨hops, hvalue⟩ := hplain
  rw [Cluster.publish]
  intro j capacity
  cases happly : applyOps ((c.node i).entry key).value ops with
  | error =>
    dsimp only
    rw [update_apply]
    split_ifs
    · rw [snapshot_publish_of_error happly, h i capacity]
    · exact h j capacity
  | ok value =>
    rw [happly] at hvalue
    dsimp only
    rw [snapshot_loaded_insert, hjson value hvalue, ← h j capacity, map_received hjson hops]
    split_ifs with hj
    · rw [hj, snapshot_publish_of_ok happly]
    · rw [← h.value_eq i j] at happly
      exact snapshot_publishRemote_of_ok happly _

theorem Agrees.remove_iff (h : c.Agrees) (i : ι) (key : String) :
    (c.remove json i key).Agrees ↔ c.RemovesNothing (.remove i key) := by
  rw [remove, RemovesNothing]
  cases hget : (c.node i).keys.get? key with
  | none => exact iff_of_true h rfl
  | some e =>
    refine iff_of_false (fun hagree => ?_) (some_ne_none e)
    have hown := congrFun (hagree i 0) key
    rw [Cluster.publish, applyOps_remove] at hown
    dsimp only at hown
    rw [update_self, snapshot_update, snapshot_loaded_insert,
      update_self, update_self] at hown
    exact Bool.false_ne_true (Prod.mk.inj (Prod.mk.inj hown).2).2

/-- Along every run of mutations on JSON values, each delivered before the next: the nodes and the
hash show the same after each of them, exactly if only keys that are not there are removed. -/
theorem nodes_agree_iff (hjson : ∀ v : JsValue, v.isJson = true → json v = v)
    {last : Cluster ι τ} {mutations : List (Mutation ι)} (hc : c.Agrees)
    (hplain : Along (step json) Plain c mutations)
    (hrun : run (step json) c mutations = some last) :
    (∀ before after m, mutations = before ++ after → run (step json) c before = some m → m.Agrees) ↔
      Along (step json) RemovesNothing c mutations := by
  refine forall_reached_iff_of_side (I := Agrees) (fun _ h => h) (fun c m t h hplain hstep => ?_) hc
    hplain hrun
  cases m with
  | publish i key ops =>
    cases hstep
    exact ⟨fun _ => trivial, fun _ => h.publish hjson hplain⟩
  | remove i key =>
    cases hstep
    exact ⟨(h.remove_iff i key).mp, (h.remove_iff i key).mpr⟩

def start : Cluster Bool Unit := ⟨fun _ => .new 10, .empty⟩

theorem agrees_start : start.Agrees := by
  intro i capacity
  funext key
  rw [snapshot_loaded, start, get?_empty]
  rfl

def changesInTurn : List (Mutation Bool) :=
  [.publish false "k" [⟨.update, "/", .bool true⟩], .publish true "k" [⟨.update, "/", .null⟩]]

theorem changes_in_turn_agree : ∃ c, run (step id) start changesInTurn = some c ∧ c.Agrees := by
  have hplain : Along (step id) Plain start changesInTurn :=
    ⟨⟨by simp [JsValue.isJson], rfl⟩, ⟨by simp [JsValue.isJson], rfl⟩, trivial⟩
  have hagree := (nodes_agree_iff (fun _ _ => rfl) agrees_start hplain rfl).mpr
    ⟨trivial, trivial, trivial⟩
  exact ⟨_, rfl, hagree changesInTurn [] _ (append_nil _).symm rfl⟩

/-- The node that removes a key has it as if it had never been, and the others as a null. -/
theorem removed_key_differs :
    ∃ c, run (step id) start [.publish false "k" [⟨.update, "/", .bool true⟩], .remove false "k"] =
        some c ∧ (c.node false).snapshot "k" = (0, .null, false) ∧
      (c.node true).snapshot "k" = (2, .null, true) ∧
      (StateStore.loaded 10 c.hash : StateStore Unit).snapshot "k" = (2, .null, true) :=
  ⟨_, rfl, rfl, rfl, by decide +kernel⟩

end Cluster

end Sodp.ScriptServer
