import Sodp.ClusterSync
import Sodp.StoreVersions

/-!
# The background tasks of a node reach Redis in any order

Every mutation that changed something spawns a task, which sends HSET or HDEL for the field of the
key and then PUBLISH. Nothing orders the tasks and no command compares versions. The field
holds what the last of its hash commands wrote, and a node that starts later loads it.
-/

namespace Sodp
open StateStore Function Transition OrderedMap List Option

variable {s : StateStore} {calls : List Call}

namespace Sync

def entry (sync : Sync) : Option (ℕ × Value) := sync.value.map fun value => (sync.version, value)

theorem get?_store_eq (hash : OrderedMap String (ℕ × Value)) (sync : Sync) (key : String) :
    (store hash sync).get? key = if key = sync.key then sync.entry else hash.get? key := by
  rw [store, entry]
  cases sync.value with
  | none => rw [get?_erase, map_none]
  | some => rw [get?_insert, map_some]

theorem entry_eq_iff {a b : Sync} (h : a.version ≠ b.version) :
    a.entry = b.entry ↔ a.value = none ∧ b.value = none := by
  rw [entry, entry]
  cases a.value <;> cases b.value <;> simp [h]

theorem version_ofCall {call : Call} {sync : Sync} (h : sync ∈ ofCall s call) :
    s.globalVersion < sync.version ∧ sync.version ≤ (s.exec call).1.globalVersion := by
  have hglobal := globalVersion_exec call (s := s)
  rw [ofCall] at h
  rcases exec_returns s call with hnone | ⟨ops, hsome⟩
  · simp [hnone] at h
  · rw [hsome] at h hglobal
    cases ops with
    | nil => simp at h
    | cons =>
      rw [mem_singleton.mp h]
      simp only [map_some, getD_some] at hglobal
      exact ⟨Nat.lt_succ_self _, hglobal.ge⟩

theorem lt_version_ofCalls :
    ∀ sync ∈ ofCalls s calls, s.globalVersion < sync.version := by
  induction calls generalizing s with
  | nil => simp [ofCalls]
  | cons call calls ih =>
    intro sync h
    rcases mem_append.mp h with hfirst | hrest
    · exact (version_ofCall hfirst).1
    · exact (globalVersion_le_exec s call).trans_lt (ih sync hrest)

theorem ofCalls_pairwise (s : StateStore) (calls : List Call) :
    (ofCalls s calls).Pairwise fun a b => a.version < b.version := by
  induction calls generalizing s with
  | nil => exact List.Pairwise.nil
  | cons call calls ih =>
    rw [ofCalls, pairwise_append]
    refine ⟨?_, ih _, fun a ha b hb => (version_ofCall ha).2.trans_lt (lt_version_ofCalls b hb)⟩
    rcases ofCall_cases s call with ⟨-, hnil⟩ | ⟨-, _, _, hone⟩
    · rw [hnil]
      exact List.Pairwise.nil
    · rw [hone]
      exact pairwise_singleton _ _

end Sync

theorem ofCalls_newest {key : String} {newest : Fin (Sync.ofCalls s calls).length}
    (hlast : ∀ i, ((Sync.ofCalls s calls).get i).key = key → i ≤ newest) :
    ∀ i, ((Sync.ofCalls s calls).get i).key = key → i ≠ newest →
      ((Sync.ofCalls s calls).get i).version < ((Sync.ofCalls s calls).get newest).version := by
  intro i hkey hne
  exact pairwise_iff_get.mp (Sync.ofCalls_pairwise s calls) i newest
    (lt_of_le_of_ne (hlast i hkey) hne)

inductive SyncStage where
  | spawned
  | stored
  | finished
  deriving DecidableEq

inductive SyncCommand where
  | hash
  | publish
  deriving DecidableEq

structure SyncRace (ι : Type*) where
  hash : OrderedMap String (ℕ × Value)
  published : List Sync
  stage : ι → SyncStage

namespace SyncRace
variable {ι : Type*}

theorem get?_foldl_store (tasks : ι → Sync) (order : List ι) (hash : OrderedMap String (ℕ × Value))
    (key : String) : (order.foldl (fun hash i => Sync.store hash (tasks i)) hash).get? key =
      match (order.filter fun i => (tasks i).key = key).getLast? with
      | none => hash.get? key
      | some i => (tasks i).entry := by
  induction order using List.reverseRecOn with
  | nil => rfl
  | append_singleton order i ih =>
    rw [foldl_concat, Sync.get?_store_eq, ih, filter_append]
    by_cases hkey : (tasks i).key = key
    · simp [hkey]
    · rw [if_neg (Ne.symm hkey)]
      simp [hkey]

variable [DecidableEq ι]

def start (hash : OrderedMap String (ℕ × Value)) : SyncRace ι := ⟨hash, [], fun _ => .spawned⟩

def step (tasks : ι → Sync) (c : SyncRace ι) : ι × SyncCommand → Option (SyncRace ι)
  | (i, .hash) =>
    if c.stage i = .spawned then
      some { c with
        hash := Sync.store c.hash (tasks i)
        stage := update c.stage i .stored }
    else none
  | (i, .publish) =>
    if c.stage i = .stored then
      some { c with
        published := c.published ++ [tasks i]
        stage := update c.stage i .finished }
    else none

def hashed (events : List (ι × SyncCommand)) : List ι :=
  (events.filter fun e => e.2 = .hash).map Prod.fst

def lastWriter (tasks : ι → Sync) (key : String) (events : List (ι × SyncCommand)) : Option ι :=
  ((hashed events).filter fun i => (tasks i).key = key).getLast?

variable {tasks : ι → Sync} {c c' : SyncRace ι} {events : List (ι × SyncCommand)}

theorem step_cases {e : ι × SyncCommand} (h : step tasks c e = some c') :
    (e.2 = .hash ∧ c.stage e.1 = .spawned ∧ c'.hash = Sync.store c.hash (tasks e.1) ∧
      c'.stage = update c.stage e.1 .stored) ∨
    (e.2 = .publish ∧ c.stage e.1 = .stored ∧ c'.hash = c.hash ∧
      c'.stage = update c.stage e.1 .finished) := by
  obtain ⟨i, command⟩ := e
  cases command with
  | hash =>
    obtain ⟨hstage, hc⟩ := ite_none_right_eq_some.mp h
    cases hc
    exact .inl ⟨rfl, hstage, rfl, rfl⟩
  | publish =>
    obtain ⟨hstage, hc⟩ := ite_none_right_eq_some.mp h
    cases hc
    exact .inr ⟨rfl, hstage, rfl, rfl⟩

theorem hash_run (h : run (step tasks) c events = some c') :
    c'.hash = (hashed events).foldl (fun hash i => Sync.store hash (tasks i)) c.hash := by
  induction events generalizing c with
  | nil =>
    rw [run_nil, some.injEq] at h
    rw [← h]
    rfl
  | cons e events ih =>
    obtain ⟨m, hm, hrest⟩ := run_cons_eq_some.mp h
    rcases step_cases hm with ⟨he, -, hhash, -⟩ | ⟨he, -, hhash, -⟩ <;>
      simp [ih hrest, hashed, he, hhash]

theorem mem_hashed (h : Transition.run (step tasks) c events = some c') {i : ι}
    (hs : c.stage i = .spawned) (hi : c'.stage i ≠ .spawned) : i ∈ hashed events := by
  induction events generalizing c with
  | nil =>
    rw [Transition.run_nil, Option.some.injEq] at h
    exact absurd (h ▸ hs) hi
  | cons e events ih =>
    obtain ⟨m, hm, hrest⟩ := Transition.run_cons_eq_some.mp h
    have hsub : ∀ j ∈ hashed events, j ∈ hashed (e :: events) := by
      intro j hj
      simp only [hashed, List.mem_map, List.mem_filter, List.mem_cons] at hj ⊢
      obtain ⟨x, ⟨hx, hcommand⟩, rfl⟩ := hj
      exact ⟨x, ⟨.inr hx, hcommand⟩, rfl⟩
    rcases step_cases hm with ⟨he, -, -, hstage⟩ | ⟨-, he, -, hstage⟩
    · by_cases hie : i = e.1
      · simp [hashed, he, hie]
      · exact hsub i (ih hrest (by rw [hstage, Function.update_of_ne hie, hs]))
    · have hie : i ≠ e.1 := by
        rintro rfl
        rw [hs] at he
        cases he
      exact hsub i (ih hrest (by rw [hstage, Function.update_of_ne hie, hs]))

/-- Once all tasks are done, the field of a key holds the newest mutation exactly if no
older command came after it, two deletes apart. -/
theorem field_newest_iff {hash : OrderedMap String (ℕ × Value)} {key : String} {newest : ι}
    (hkey : (tasks newest).key = key)
    (hnewest : ∀ i, (tasks i).key = key → i ≠ newest → (tasks i).version < (tasks newest).version)
    (hrun : run (step tasks) (start hash) events = some c) (hdone : ∀ i, c.stage i = .finished) :
    c.hash.get? key = (tasks newest).entry ↔ ∃ last, lastWriter tasks key events = some last ∧
        (last = newest ∨ (tasks last).value = none ∧ (tasks newest).value = none) := by
  have hmem : newest ∈ (hashed events).filter fun i => (tasks i).key = key := by
    rw [mem_filter, decide_eq_true_eq]
    exact ⟨mem_hashed hrun rfl (by rw [hdone newest]; simp), hkey⟩
  have hsome := getLast?_eq_some_getLast (ne_nil_of_mem hmem)
  have hlast := getLast_mem (ne_nil_of_mem hmem)
  generalize List.getLast _ (ne_nil_of_mem hmem) = last at hsome hlast
  rw [mem_filter, decide_eq_true_eq] at hlast
  have hentry : c.hash.get? key = (tasks last).entry := by
    rw [hash_run hrun, get?_foldl_store, hsome]
  rw [hentry, lastWriter, hsome]
  simp only [some.injEq, exists_eq_left']
  by_cases hne : last = newest
  · simp [hne]
  · rw [Sync.entry_eq_iff (hnewest last hlast.2 hne).ne]
    simp [hne]

def twoSets : List Call := [.apply "k" (.number (.int 1)), .apply "k" (.number (.int 2))]

def twoSyncs : List Sync := Sync.ofCalls .new twoSets

def older : Fin twoSyncs.length := ⟨0, by decide +kernel⟩

def newer : Fin twoSyncs.length := ⟨1, by decide +kernel⟩

def crossed : List (Fin twoSyncs.length × SyncCommand) :=
  [(newer, .hash), (older, .hash), (older, .publish), (newer, .publish)]

def inOrder : List (Fin twoSyncs.length × SyncCommand) :=
  [(older, .hash), (newer, .hash), (newer, .publish), (older, .publish)]

/-- The field keeps the older set, and a node that starts now serves it. -/
theorem older_set_stays : ∃ c, run (step twoSyncs.get) (start .empty) crossed = some c ∧
      (∀ i, c.stage i = .finished) ∧ c.hash.get? "k" = some (1, .number (.int 1)) ∧
      (twoSyncs.get newer).entry = some (2, .number (.int 2)) ∧
      (StateStore.new.loadEntries c.hash.toList).content "k" = some (.number (.int 1)) := by
  decide +kernel

/-- Commands that arrive in the order of the versions leave the newer set. -/
theorem newer_set_stays_in_order : ∃ c, run (step twoSyncs.get) (start .empty) inOrder = some c ∧
      (∀ i, c.stage i = .finished) ∧ c.hash.get? "k" = (twoSyncs.get newer).entry := by
  refine exists_run (fun c => ∀ i, c.stage i = .finished) (by decide +kernel) fun c hc hdone => ?_
  have hlast : lastWriter twoSyncs.get "k" inOrder = some newer := by decide +kernel
  have hkey : (twoSyncs.get newer).key = "k" := by decide +kernel
  have hnewest : ∀ i, (twoSyncs.get i).key = "k" → i ≤ newer := by decide +kernel
  exact ⟨hdone, (field_newest_iff hkey (ofCalls_newest hnewest) hc hdone).mpr
    ⟨newer, hlast, .inl rfl⟩⟩

end SyncRace

end Sodp
