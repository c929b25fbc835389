import Sodp.ScriptPointer

/-!
# The store of the TypeScript server

`store.ts`. Versions are counted for each key on its own; a JavaScript number counts exactly up to
2^53. The time of a log entry and the global subscribers are left out. A key that is not in the map
is like one with the initial entry, for every call that asks.
-/

namespace Sodp.ScriptServer
open Function OrderedMap

structure DeltaLogEntry where
  version : ℕ
  ops : List DeltaOp

structure Entry (τ : Type*) where
  value : JsValue
  version : ℕ
  initialized : Bool
  log : List DeltaLogEntry
  subscribers : List τ

structure StateStore (τ : Type*) where
  capacity : ℕ
  keys : OrderedMap String (Entry τ)

variable {τ : Type*}

namespace Entry

def initial : Entry τ := ⟨.null, 0, false, [], []⟩

def snapshot (e : Entry τ) : ℕ × JsValue × Bool := (e.version, e.value, e.initialized)

def pushLog (capacity : ℕ) (log : List DeltaLogEntry) (d : DeltaLogEntry) : List DeltaLogEntry :=
  if capacity < (log ++ [d]).length then (log ++ [d]).tail else log ++ [d]

def deltasSince (e : Entry τ) (sinceVersion : ℕ) : Option (List DeltaLogEntry) :=
  match e.log with
  | [] => none
  | oldest :: _ =>
    if sinceVersion + 1 < oldest.version then none
    else some (e.log.filter fun d => sinceVersion < d.version)

/-- What `publish` and `publishRemote` have in common. Ops that throw leave the entry as it is. -/
def publishAt (capacity : ℕ) (e : Entry τ) (ops : List DeltaOp) (version : ℕ) : Entry τ :=
  match applyOps e.value ops with
  | .error _ => e
  | .ok value =>
    { e with
      value := value
      version := version
      initialized := true
      log := pushLog capacity e.log ⟨version, ops⟩ }

def publish (capacity : ℕ) (e : Entry τ) (ops : List DeltaOp) : Entry τ :=
  e.publishAt capacity ops (e.version + 1)

def load (e : Entry τ) (version : ℕ) (value : JsValue) : Entry τ :=
  if e.version < version then { e with value := value, version := version, initialized := true }
  else e

def hydrate (e : Entry τ) (value : JsValue) : Entry τ :=
  { e with value := value, initialized := true }

def clear (e : Entry τ) : Entry τ :=
  { e with value := .null, version := 0, initialized := false, log := [] }

end Entry

namespace StateStore

def new (capacity : ℕ) : StateStore τ := ⟨capacity, .empty⟩

def entry (s : StateStore τ) (key : String) : Entry τ := (s.keys.get? key).getD .initial

def update (s : StateStore τ) (key : String) (f : Entry τ → Entry τ) : StateStore τ :=
  { s with keys := s.keys.insert key (f (s.entry key)) }

def snapshot (s : StateStore τ) (key : String) : ℕ × JsValue × Bool :=
  match s.keys.get? key with
  | none => (0, .null, false)
  | some e => e.snapshot

def deltasSince (s : StateStore τ) (key : String) (sinceVersion : ℕ) :
    Option (List DeltaLogEntry) :=
  match s.keys.get? key with
  | none => none
  | some e => e.deltasSince sinceVersion

def publish (s : StateStore τ) (key : String) (ops : List DeltaOp) : StateStore τ :=
  s.update key fun e => e.publish s.capacity ops

def publishRemote (s : StateStore τ) (key : String) (ops : List DeltaOp) (version : ℕ) :
    StateStore τ := s.update key fun e => e.publishAt s.capacity ops version

def loadEntry (s : StateStore τ) (key : String) (version : ℕ) (value : JsValue) : StateStore τ :=
  s.update key fun e => e.load version value

def loadEntries (s : StateStore τ) (entries : List (String × ℕ × JsValue)) : StateStore τ :=
  entries.foldl (fun s e => s.loadEntry e.1 e.2.1 e.2.2) s

def hydrate (s : StateStore τ) (key : String) (value : JsValue) : StateStore τ :=
  s.update key fun e => e.hydrate value

def remove (s : StateStore τ) (key : String) : StateStore τ :=
  match s.keys.get? key with
  | none => s
  | some _ => (s.publish key [⟨.remove, "/", .undefined⟩]).update key Entry.clear

def subscribe (s : StateStore τ) (key : String) (sub : τ) : StateStore τ :=
  s.update key fun e => { e with subscribers := e.subscribers ++ [sub] }

def unsubscribe [DecidableEq τ] (s : StateStore τ) (key : String) (sub : τ) : StateStore τ :=
  s.update key fun e => { e with subscribers := e.subscribers.filter (· ≠ sub) }

section Entries
variable {s : StateStore τ} {key : String}

theorem snapshot_eq (s : StateStore τ) (key : String) :
    s.snapshot key = ((s.entry key).version, (s.entry key).value, (s.entry key).initialized) := by
  rw [snapshot, entry]
  cases s.keys.get? key with
  | none | some e => rfl

theorem deltasSince_eq (s : StateStore τ) (key : String) (v : ℕ) :
    s.deltasSince key v = (s.entry key).deltasSince v := by
  rw [deltasSince, entry]
  cases s.keys.get? key with
  | none | some e => rfl

@[simp] theorem entry_update_self (s : StateStore τ) (key : String) (f : Entry τ → Entry τ) :
    (s.update key f).entry key = f (s.entry key) := by
  rw [entry, update, get?_insert_self, Option.getD_some]

variable {key : String}

theorem entry_update_of_ne (s : StateStore τ) {other : String} (h : other ≠ key)
    (f : Entry τ → Entry τ) : (s.update key f).entry other = s.entry other := by
  rw [entry, update, get?_insert_of_ne _ h, entry]

theorem applyOps_remove (v : JsValue) : applyOps v [⟨.remove, "/", .undefined⟩] = .ok .null := rfl

theorem entry_remove (s : StateStore τ) (key : String) :
    (s.remove key).entry key = (s.entry key).clear := by
  rw [remove]
  cases hget : s.keys.get? key with
  | none =>
    rw [entry, hget]
    rfl
  | some =>
    rw [entry_update_self, publish, entry_update_self, Entry.publish, Entry.publishAt,
      applyOps_remove]
    rfl

theorem entry_remove_of_ne (s : StateStore τ) {other : String} (h : other ≠ key) :
    (s.remove key).entry other = s.entry other := by
  rw [remove]
  split
  · rfl
  · rw [entry_update_of_ne _ h, publish, entry_update_of_ne _ h]

theorem subscribers_update (s : StateStore τ) (f : Entry τ → Entry τ)
    (hf : ∀ e, (f e).subscribers = e.subscribers) (key other : String) :
    ((s.update key f).entry other).subscribers = (s.entry other).subscribers := by
  by_cases h : other = key
  · subst h
    rw [entry_update_self, hf]
  · rw [entry_update_of_ne _ h]

theorem subscribers_publish (s : StateStore τ) (key : String) (ops : List DeltaOp)
    (other : String) :
    ((s.publish key ops).entry other).subscribers = (s.entry other).subscribers := by
  refine s.subscribers_update _ (fun e => ?_) key other
  rw [Entry.publish, Entry.publishAt]
  cases applyOps e.value ops with
  | error msg | ok value => rfl

theorem subscribers_hydrate (s : StateStore τ) (key : String) (value : JsValue) (other : String) :
    ((s.hydrate key value).entry other).subscribers = (s.entry other).subscribers :=
  s.subscribers_update (·.hydrate value) (fun _ => rfl) key other

/-! ### Snapshots -/

theorem snapshot_update (s : StateStore τ) (key : String) (f : Entry τ → Entry τ) :
    (s.update key f).snapshot = Function.update s.snapshot key (f (s.entry key)).snapshot := by
  funext other
  rw [snapshot_eq]
  by_cases h : other = key
  · subst h
    rw [entry_update_self, update_self]
    rfl
  · rw [entry_update_of_ne _ h, update_of_ne h, snapshot_eq]

theorem snapshot_update_of_same (s : StateStore τ) (key : String) {f : Entry τ → Entry τ}
    (h : (f (s.entry key)).snapshot = (s.entry key).snapshot) :
    (s.update key f).snapshot = s.snapshot := by
  have hkey : (s.entry key).snapshot = s.snapshot key := (s.snapshot_eq key).symm
  rw [snapshot_update, h, hkey, update_eq_self]

variable {ops : List DeltaOp} {s : StateStore τ}

theorem snapshot_publish_of_error
    {fault : PointerFault} (h : applyOps (s.entry key).value ops = .error fault) :
    (s.publish key ops).snapshot = s.snapshot := by
  refine s.snapshot_update_of_same key ?_
  rw [Entry.publish, Entry.publishAt, h]

theorem snapshot_publish_of_ok
    {next : JsValue} (h : applyOps (s.entry key).value ops = .ok next) :
    (s.publish key ops).snapshot =
      Function.update s.snapshot key ((s.entry key).version + 1, next, true) := by
  rw [publish, snapshot_update, Entry.publish, Entry.publishAt, h]
  rfl

theorem snapshot_unsubscribe [DecidableEq τ] (s : StateStore τ) (key : String) (sub : τ) :
    (s.unsubscribe key sub).snapshot = s.snapshot := s.snapshot_update_of_same key rfl

end Entries

end StateStore

end Sodp.ScriptServer
