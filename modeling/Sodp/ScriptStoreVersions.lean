import Mathlib.Data.List.MinMax
import Sodp.ScriptStore
import Sodp.Transition

/-!
# Versions and replay of the TypeScript store

A record of a run keeps, for each key and each version that `snapshot` reported, the last value it
had at that version. `remove` sets the version of a key back to 0. `loadEntries` raises a version
without an entry in the log, so that a log that is not empty no longer leads to the value.
-/

namespace Sodp.ScriptServer
open Transition Function List Option ScriptServer.StateStore

def replay (value : JsValue) (deltas : List DeltaLogEntry) : Except PointerFault JsValue :=
  deltas.foldlM (fun value d => applyOps value d.ops) value

variable {d : DeltaLogEntry} {deltas : List DeltaLogEntry}

theorem replay_concat {x value next : JsValue}
    (h : replay x deltas = .ok value) (hops : applyOps value d.ops = .ok next) :
    replay x (deltas ++ [d]) = .ok next := by
  rw [replay] at h
  rw [replay, foldlM_append, h]
  change (applyOps value d.ops >>= _) = _
  rw [hops]
  rfl

/-! ### The window of a log -/

def Covers (log : List DeltaLogEntry) (v : ℕ) : Prop :=
  ∃ oldest ∈ log.head?, oldest.version ≤ v + 1

def newer (log : List DeltaLogEntry) (v : ℕ) : List DeltaLogEntry :=
  log.filter fun d => v < d.version

variable {τ : Type*}

variable {v : ℕ} {log : List DeltaLogEntry}

theorem Entry.deltasSince_eq_some_iff {e : Entry τ} :
    e.deltasSince v = some deltas ↔ Covers e.log v ∧ newer e.log v = deltas := by
  rw [Entry.deltasSince, Covers, newer]
  cases e.log with
  | nil => simp
  | cons oldest =>
    by_cases h : v + 1 < oldest.version
    · simp [h]
    · simp [h, Nat.le_of_not_lt h]

theorem newer_eq_nil (h : ∀ d ∈ log, d.version ≤ v) : newer log v = [] :=
  filter_eq_nil_iff.mpr fun d hd => by simpa using h d hd

theorem newer_concat (h : v < d.version) : newer (log ++ [d]) v = newer log v ++ [d] := by
  rw [newer, filter_append, newer, filter_singleton, decide_eq_true h, cond_true]

theorem Covers.of_tail (hsorted : log.Pairwise fun a b => a.version < b.version)
    (h : Covers log.tail v) : Covers log v ∧ newer log v = newer log.tail v := by
  obtain ⟨second, hsecond, _⟩ := h
  cases log with
  | nil => exact absurd hsecond (by simp)
  | cons oldest =>
    have hlt : oldest.version < second.version :=
      rel_of_pairwise_cons hsorted (mem_of_mem_head? hsecond)
    refine ⟨⟨oldest, rfl, by omega⟩, ?_⟩
    exact filter_cons_of_neg (by simp; omega)

structure Window (log : List DeltaLogEntry) (had : ℕ → Option JsValue) (version : ℕ)
    (value : JsValue) : Prop where
  sorted : log.Pairwise fun a b => a.version < b.version
  logged : ∀ d ∈ log, d.version ≤ version
  replays : ∀ v x, had v = some x → Covers log v → replay x (newer log v) = .ok value

namespace Window
variable {log : List DeltaLogEntry} {had : ℕ → Option JsValue} {version : ℕ} {value : JsValue}

theorem nil (had : ℕ → Option JsValue) (version : ℕ) (value : JsValue) :
    Window [] had version value :=
  ⟨List.Pairwise.nil, nofun, fun _ _ _ h => absurd h (by simp [Covers])⟩

section
variable (h : Window log had version value)
include h

theorem tail : Window log.tail had version value where
  sorted := h.sorted.tail
  logged d hd := h.logged d (mem_of_mem_tail hd)
  replays v x hv hcovers := by
    obtain ⟨hcovers, hnewer⟩ := hcovers.of_tail h.sorted
    rw [← hnewer]
    exact h.replays v x hv hcovers

theorem note :
    Window log (update had version (some value)) version value where
  sorted := h.sorted
  logged := h.logged
  replays v x hv hcovers := by
    by_cases hvv : v = version
    · subst hvv
      rw [update_self, some.injEq] at hv
      rw [newer_eq_nil h.logged, hv]
      rfl
    · rw [update_of_ne hvv] at hv
      exact h.replays v x hv hcovers

/-- An entry that is pushed leads one version on. If the log was empty, the new entry covers only
the version just before its own. -/
theorem concat (hcurrent : had version = some value)
    (hbounded : ∀ v x, had v = some x → v ≤ version)
    (hnew : version < d.version) {next : JsValue} (hops : applyOps value d.ops = .ok next) :
    Window (log ++ [d]) had d.version next where
  sorted := by
    refine pairwise_append.mpr ⟨h.sorted, pairwise_singleton _ _, fun a ha b hb => ?_⟩
    rw [mem_singleton.mp hb]
    exact (h.logged a ha).trans_lt hnew
  logged a ha := by
    rcases mem_append.mp ha with ha | ha
    · exact (h.logged a ha).trans hnew.le
    · rw [mem_singleton.mp ha]
  replays v x hv hcovers := by
    have hle := hbounded v x hv
    rw [newer_concat (hle.trans_lt hnew)]
    refine replay_concat ?_ hops
    cases log with
    | nil =>
      obtain ⟨oldest, holdest, _⟩ := hcovers
      obtain rfl : d = oldest := some.inj holdest
      obtain rfl : v = version := by omega
      rw [hcurrent, some.injEq] at hv
      exact congrArg Except.ok hv.symm
    | cons => exact h.replays v x hv hcovers

end

end Window

/-! ### One key -/

def noted (had : ℕ → Option JsValue) (e : Entry τ) : ℕ → Option JsValue :=
  update had e.version (some e.value)

structure Entry.Tracked (e : Entry τ) (had : ℕ → Option JsValue) : Prop where
  current : had e.version = some e.value
  bounded : ∀ v x, had v = some x → v ≤ e.version
  fresh : e.initialized = false → e.version = 0 ∧ e.log = []
  window : Window e.log had e.version e.value

def Entry.Sound (e : Entry τ) (had : ℕ → Option JsValue) : Prop :=
  ∀ v x, had v = some x → v ≤ e.version ∧
    ∀ deltas, e.deltasSince v = some deltas → replay x deltas = .ok e.value

namespace Entry
variable {e : Entry τ} {had : ℕ → Option JsValue}

theorem Tracked.sound (h : e.Tracked had) : e.Sound had := by
  refine fun v x hv => ⟨h.bounded v x hv, fun deltas hdeltas => ?_⟩
  obtain ⟨hcovers, rfl⟩ := deltasSince_eq_some_iff.mp hdeltas
  exact h.window.replays v x hv hcovers

theorem Tracked.noted_self (h : e.Tracked had) : noted had e = had := by
  rw [noted, ← h.current, update_eq_self]

theorem Tracked.bounded_noted (h : e.Tracked had) {e' : Entry τ} (hle : e.version ≤ e'.version)
    (v : ℕ) (x : JsValue) (hv : noted had e' v = some x) : v ≤ e'.version := by
  by_cases hvv : v = e'.version
  · exact hvv.le
  · rw [noted, update_of_ne hvv] at hv
    exact (h.bounded v x hv).trans hle

variable {version : ℕ} {value : JsValue}

theorem window_pushLog {capacity : ℕ} {log : List DeltaLogEntry}
    (h : Window (log ++ [d]) had version value) :
    Window (pushLog capacity log d) had version value := by
  rw [pushLog]
  split
  · exact h.tail
  · exact h

section
variable (h : e.Tracked had)
include h

theorem Tracked.publishAt (capacity : ℕ) (hnew : e.version < version) (ops : List DeltaOp) :
    (e.publishAt capacity ops version).Tracked (noted had (e.publishAt capacity ops version)) := by
  rw [Entry.publishAt]
  cases hops : applyOps e.value ops with
  | error =>
    rwa [h.noted_self]
  | ok =>
    refine ⟨update_self _ _ _, h.bounded_noted hnew.le, Bool.noConfusion, ?_⟩
    have hpushed := h.window.concat h.current h.bounded (d := ⟨version, ops⟩) hnew hops
    exact (window_pushLog hpushed).note

theorem Tracked.hydrate (huninit : e.initialized = false) (value : JsValue) :
    (e.hydrate value).Tracked (noted had (e.hydrate value)) := by
  refine ⟨update_self _ _ _, h.bounded_noted le_rfl, nofun, ?_⟩
  rw [Entry.hydrate, (h.fresh huninit).2]
  exact Window.nil _ _ _

theorem Tracked.clear (hversion : e.version = 0) :
    e.clear.Tracked (noted had e.clear) :=
  ⟨update_self _ _ _, h.bounded_noted hversion.le, fun _ => ⟨rfl, rfl⟩, Window.nil _ _ _⟩

theorem Tracked.of_sound_clear (hsound : e.clear.Sound (noted had e.clear)) :
    e.version = 0 := by
  by_contra hne
  have hnoted : noted had e.clear e.version = some e.value :=
    (update_of_ne hne _ _).trans h.current
  exact hne (Nat.le_zero.mp (hsound e.version e.value hnoted).1)

theorem Tracked.load (hok : e.version < version → e.log = [] ∨ value = e.value) :
    (e.load version value).Tracked (noted had (e.load version value)) := by
  rw [Entry.load]
  split
  next hnew =>
    refine ⟨update_self _ _ _, h.bounded_noted hnew.le, nofun, Window.note ?_⟩
    rcases hok hnew with hlog | rfl
    · dsimp only
      rw [hlog]
      exact Window.nil _ _ _
    · exact ⟨h.window.sorted, fun d hd => (h.window.logged d hd).trans hnew.le, h.window.replays⟩
  next => rwa [h.noted_self]

theorem Tracked.covers_version (hlog : e.log ≠ []) :
    Covers e.log e.version := by
  obtain ⟨oldest, _, heq⟩ := exists_cons_of_ne_nil hlog
  refine ⟨oldest, by rw [heq]; rfl, ?_⟩
  have hle := h.window.logged oldest (by rw [heq]; exact mem_cons_self)
  omega

theorem Tracked.of_sound_load
    (hsound : (e.load version value).Sound (noted had (e.load version value)))
    (hnew : e.version < version) : e.log = [] ∨ value = e.value := by
  by_cases hlog : e.log = []
  · exact .inl hlog
  rw [Entry.load, if_pos hnew] at hsound
  have hnoted : noted had { e with value := value, version := version, initialized := true }
      e.version = some e.value := (update_of_ne hnew.ne _ _).trans h.current
  -- the deltas since the version before the load are none
  have hdeltas := (hsound e.version e.value hnoted).2 [] (deltasSince_eq_some_iff.mpr
    ⟨h.covers_version hlog, newer_eq_nil h.window.logged⟩)
  exact .inr (Except.ok.inj hdeltas).symm

end

theorem le_version_load (e : Entry τ) (v : ℕ) (x : JsValue) : v ≤ (e.load v x).version := by
  rw [load]
  split
  next => exact le_rfl
  next h => exact Nat.le_of_not_lt h

theorem load_load (e : Entry τ) (v w : ℕ) (x y : JsValue) :
    (e.load v x).load w y = if v < w then e.load w y else e.load v x := by
  by_cases h : v < w
  · rw [if_pos h]
    by_cases hv : e.version < v
    · rw [load, load, if_pos hv, if_pos h, load, if_pos (hv.trans h)]
    · rw [load.eq_1 e v, if_neg hv]
  · rw [if_neg h]
    exact if_neg ((Nat.le_of_not_lt h).trans (e.le_version_load v x)).not_gt

end Entry

/-! ### The store -/

inductive StoreCall where
  | publish (key : String) (ops : List DeltaOp)
  | publishRemote (key : String) (ops : List DeltaOp) (version : ℕ)
  | hydrate (key : String) (value : JsValue)
  | loadEntries (entries : List (String × ℕ × JsValue))
  | remove (key : String)

/-- A remote delta comes with a version past the present one, and only an uninitialized key is
hydrated. -/
def StateStore.perform (s : StateStore τ) : StoreCall → Option (StateStore τ)
  | .publish key ops => some (s.publish key ops)
  | .publishRemote key ops version =>
    if (s.snapshot key).1 < version then some (s.publishRemote key ops version) else none
  | .hydrate key value => if (s.snapshot key).2.2 then none else some (s.hydrate key value)
  | .loadEntries entries => some (s.loadEntries entries)
  | .remove key => some (s.remove key)

/-- The item of a load that counts for a key: the first one with the highest version. -/
def newest (entries : List (String × ℕ × JsValue)) (key : String) : Option (ℕ × JsValue) :=
  ((entries.filter fun item => item.1 = key).map Prod.snd).argmax Prod.fst

theorem newest_concat (entries : List (String × ℕ × JsValue)) (key : String) (v : ℕ) (x : JsValue) :
    newest (entries ++ [(key, v, x)]) key = some (match newest entries key with
      | none => (v, x)
      | some item => if item.1 < v then (v, x) else item) := by
  rw [newest, filter_append, map_append, filter_singleton, decide_eq_true rfl,
    cond_true, map_singleton, argmax_concat, ← newest]
  cases newest entries key with
  | none => rfl
  | some =>
    dsimp only
    split <;> rfl

theorem newest_concat_of_ne (entries : List (String × ℕ × JsValue)) {key other : String}
    (h : other ≠ key) (item : ℕ × JsValue) :
    newest (entries ++ [(other, item)]) key = newest entries key := by
  rw [newest, filter_append, filter_singleton, decide_eq_false h, cond_false, append_nil, ← newest]

theorem StateStore.entry_loadEntries (s : StateStore τ) (entries : List (String × ℕ × JsValue))
    (key : String) : (s.loadEntries entries).entry key = match newest entries key with
      | none => s.entry key
      | some item => (s.entry key).load item.1 item.2 := by
  induction entries using List.reverseRecOn with
  | nil => rfl
  | append_singleton entries item ih =>
    obtain ⟨other, v, x⟩ := item
    rw [loadEntries, foldl_append]
    change ((s.loadEntries entries).loadEntry other v x).entry key = _
    rw [loadEntry]
    by_cases hkey : other = key
    · subst hkey
      rw [entry_update_self, ih, newest_concat]
      cases newest entries other with
      | none => rfl
      | some =>
        dsimp only
        rw [Entry.load_load]
        split <;> rfl
    · rw [entry_update_of_ne _ (Ne.symm hkey), ih, newest_concat_of_ne _ hkey]

structure Recorded (τ : Type*) where
  store : StateStore τ
  had : String → ℕ → Option JsValue

namespace Recorded

def start (capacity : ℕ) : Recorded τ :=
  ⟨.new capacity, fun _ => noted (fun _ => none) (Entry.initial : Entry τ)⟩

def step (r : Recorded τ) (call : StoreCall) : Option (Recorded τ) :=
  (r.store.perform call).map fun t => ⟨t, fun key => noted (r.had key) (t.entry key)⟩

/-- No version a key had is above its present one, and the deltas since it lead to the present
value. -/
def Sound (r : Recorded τ) : Prop :=
  ∀ key v x, r.had key v = some x → v ≤ (r.store.snapshot key).1 ∧
    ∀ deltas, r.store.deltasSince key v = some deltas →
      replay x deltas = .ok (r.store.snapshot key).2.1

def Keeps (r : Recorded τ) : StoreCall → Prop
  | .remove key => (r.store.snapshot key).1 = 0
  | .loadEntries entries => ∀ key item, newest entries key = some item →
      (r.store.snapshot key).1 < item.1 →
        (r.store.entry key).log = [] ∨ item.2 = (r.store.snapshot key).2.1
  | _ => True

def Tracked (r : Recorded τ) : Prop := ∀ key, (r.store.entry key).Tracked (r.had key)

theorem sound_iff (r : Recorded τ) : r.Sound ↔ ∀ key, (r.store.entry key).Sound (r.had key) := by
  simp only [Sound, snapshot_eq, deltasSince_eq, Entry.Sound]

theorem tracked_start (capacity : ℕ) : (start capacity : Recorded τ).Tracked := by
  intro key
  refine ⟨rfl, fun v x hv => ?_, fun _ => ⟨rfl, rfl⟩, Window.nil _ _ _⟩
  by_cases h : v = 0
  · exact h.le
  · have hnone : noted (fun _ => none) (Entry.initial : Entry τ) v = none :=
      update_of_ne h _ _
    exact nomatch hnone.symm.trans hv

theorem Tracked.update {r : Recorded τ} (h : r.Tracked) {key : String} {f : Entry τ → Entry τ}
    (hf : (f (r.store.entry key)).Tracked (noted (r.had key) (f (r.store.entry key)))) :
    Tracked ⟨r.store.update key f,
      fun other => noted (r.had other) ((r.store.update key f).entry other)⟩ := by
  intro other
  by_cases hother : other = key
  · subst hother
    dsimp only
    rwa [entry_update_self]
  · dsimp only
    rw [entry_update_of_ne _ hother, (h other).noted_self]
    exact h other

theorem step_spec {r t : Recorded τ} (h : r.Tracked) {call : StoreCall}
    (hstep : r.step call = some t) : (t.Sound → r.Keeps call) ∧ (r.Keeps call → t.Tracked) := by
  obtain ⟨_, hperform, rfl⟩ := map_eq_some_iff.mp hstep
  rw [sound_iff]
  cases call with
  | publish key ops =>
    cases hperform
    exact ⟨fun _ => trivial, fun _ => h.update ((h key).publishAt _ (Nat.lt_succ_self _) ops)⟩
  | publishRemote key ops =>
    rw [StateStore.perform, snapshot_eq] at hperform
    obtain ⟨hnew, hstore⟩ := ite_none_right_eq_some.mp hperform
    cases hstore
    exact ⟨fun _ => trivial, fun _ => h.update ((h key).publishAt _ hnew ops)⟩
  | hydrate key value =>
    rw [StateStore.perform, snapshot_eq] at hperform
    obtain ⟨hinit, hstore⟩ := ite_none_left_eq_some.mp hperform
    cases hstore
    have huninit := Bool.eq_false_of_not_eq_true hinit
    exact ⟨fun _ => trivial, fun _ => h.update ((h key).hydrate huninit value)⟩
  | loadEntries entries =>
    cases hperform
    simp only [Keeps, snapshot_eq, Tracked, entry_loadEntries]
    constructor
    · intro hsound key item hitem hnew
      have hkey := hsound key
      rw [hitem] at hkey
      exact (h key).of_sound_load hkey hnew
    · intro hkeeps key
      cases hitem : newest entries key with
      | none =>
        rw [(h key).noted_self]
        exact h key
      | some item => exact (h key).load (hkeeps key item hitem)
  | remove key =>
    cases hperform
    rw [Keeps, snapshot_eq]
    constructor
    · intro hsound
      have hkey := hsound key
      dsimp only at hkey
      rw [entry_remove] at hkey
      exact (h key).of_sound_clear hkey
    · intro hversion other
      by_cases hother : other = key
      · subst hother
        dsimp only
        rw [entry_remove]
        exact (h other).clear hversion
      · dsimp only
        rw [entry_remove_of_ne _ hother, (h other).noted_self]
        exact h other

theorem versions_and_replay_iff (capacity : ℕ) {calls : List StoreCall} {t : Recorded τ}
    (hrun : run step (start capacity) calls = some t) : (∀ before after m, calls = before ++ after →
      run step (start capacity : Recorded τ) before = some m → m.Sound) ↔
        Along step Keeps (start capacity : Recorded τ) calls :=
  forall_reached_iff (fun _ h => (sound_iff _).mpr fun key => (h key).sound)
    (fun _ _ _ h hstep => step_spec h hstep) (tracked_start capacity) hrun

def restoredThenChanged : List StoreCall :=
  [.loadEntries [("a", 3, .bool true)], .publish "a" [⟨.update, "/", .object .empty⟩],
    .hydrate "b" (.bool true), .remove "c", .publishRemote "a" [⟨.update, "/x", .null⟩] 7]

theorem restored_then_changed_sound :
    ∃ t : Recorded Unit, run step (start 2) restoredThenChanged = some t ∧
      (t.store.snapshot "a").1 = 7 ∧ t.Sound := by
  refine ⟨_, rfl, by decide +kernel, ?_⟩
  have hok : Along step Keeps (start 2 : Recorded Unit) restoredThenChanged :=
    ⟨fun _ _ _ _ => .inl rfl, trivial, trivial, rfl, trivial, trivial⟩
  exact (versions_and_replay_iff 2 rfl).mpr hok _ [] _ (append_nil _).symm rfl

/-- `remove` sets the version back, and after a load the log leads to the value before it. -/
theorem removed_or_loaded_unsound : (∃ t : Recorded Unit,
      run step (start 1024) [.publish "a" [⟨.update, "/", .bool true⟩], .remove "a"] = some t ∧
        t.had "a" 1 = some (.bool true) ∧ (t.store.snapshot "a").1 = 0 ∧ ¬ t.Sound) ∧
    ∃ t : Recorded Unit, run step (start 1024)
        [.publish "a" [⟨.update, "/", .bool true⟩], .loadEntries [("a", 5, .bool false)]] = some t ∧
        t.store.deltasSince "a" 1 = some [] ∧ (t.store.snapshot "a").2.1 = .bool false ∧
        ¬ t.Sound := by
  refine ⟨⟨_, rfl, by decide +kernel, by decide +kernel, fun hsound => ?_⟩,
    ⟨_, rfl, rfl, by decide +kernel, fun hsound => ?_⟩⟩
  · exact absurd (hsound "a" 1 (.bool true) (by decide +kernel)).1 (by decide +kernel)
  · exact absurd ((hsound "a" 1 (.bool true) (by decide +kernel)).2 [] rfl) (by decide +kernel)

end Recorded

end Sodp.ScriptServer
