import Sodp.GoReplayOrder

/-!
# A compaction among writes

`Compact` copies the entries of the store, renames the new snapshot into place and truncates the
log, and holds no lock from the first step to the last. A record of a change that the snapshot does
not show can be truncated, and a value appended that a deletion has overtaken. If neither happens,
the changes that snapshot and log lack are those that are still to be appended.
-/

namespace Sodp.GoServer
open ByteReader VersionedLog Transition List Option GoServer.StateStore

/-- What a handler has to write about its change. An append has to read its value first, and
`MutateAppend` gives up if there is none. -/
inductive Outcome where
  | deleted
  | value (v : GoValue)
  | unread (recheck : Bool)

namespace Outcome

def isDeleted : Outcome → Bool
  | .deleted => true
  | _ => false

end Outcome

structure PendingWrite where
  key : String
  version : ℕ
  outcome : Outcome

def PendingWrite.record? (p : PendingWrite) : Option WalRecord :=
  match p.outcome with
  | .deleted => some (.delete p.key (.ofNat p.version))
  | .value v => some (.set p.key (.ofNat p.version) v)
  | .unread _ => none

def Mutation.outcome (recheck : Bool) : Mutation → Outcome
  | .apply _ _ value => .value value
  | .append _ _ _ => .unread recheck
  | .delete _ => .deleted

inductive CompactPhase where
  | idle
  | captured (taken : StateStore) (range : KeyOrder String)
  | renamed (taken : StateStore) (range : KeyOrder String)
  | truncated (taken : StateStore) (range : KeyOrder String)

/-- `older` and `wal` make up the log: what it held in the beginning, and what has been appended. -/
structure Writers where
  store : StateStore
  snap : Option (List (String × StateEntry))
  older : List WalRecord
  wal : List WalRecord
  pending : List PendingWrite
  phase : CompactPhase

inductive WriterEvent where
  | update (m : Mutation) (recheck : Bool)
  | read (i : ℕ)
  | append (i : ℕ)
  | entries (range : KeyOrder String)
  | rename
  | truncate

namespace Writers

def start (store : StateStore) (snap : Option (List (String × StateEntry)))
    (older : List WalRecord) : Writers := ⟨store, snap, older, [], [], .idle⟩

def disk (codec : Codec (List GoValue)) (w : Writers) : Disk where
  snap := w.snap.map fun entries => codec.encode (flatten entries)
  tmp := none
  wal := codec.encodeAll ((w.older ++ w.wal).map WalRecord.fields)

def step (w : Writers) : WriterEvent → Option Writers
  | .update m recheck =>
    match m.run w.store with
    | (_, none) => some w
    | (store, some delta) =>
      some { w with
        store := store
        pending := w.pending ++ [⟨m.key, delta.version, m.outcome recheck⟩] }
  | .read i =>
    match w.pending[i]? with
    | some ⟨key, version, .unread recheck⟩ =>
      match recheck, (w.store.get key).1 with
      | true, .nil => some { w with pending := w.pending.eraseIdx i }
      | _, value => some { w with pending := w.pending.set i ⟨key, version, .value value⟩ }
    | _ => none
  | .append i =>
    (w.pending[i]?.bind PendingWrite.record?).map fun r =>
      { w with wal := w.wal ++ [r], pending := w.pending.eraseIdx i }
  | .entries range =>
    match w.phase with
    | .idle => some { w with phase := .captured w.store range }
    | _ => none
  | .rename =>
    match w.phase with
    | .captured taken range =>
      some { w with snap := some (taken.listEntries range), phase := .renamed taken range }
    | _ => none
  | .truncate =>
    match w.phase with
    | .renamed taken range =>
      some { w with older := [], wal := [], phase := .truncated taken range }
    | _ => none

def Numbered (w : Writers) : WriterEvent → Prop
  | .update m _ => m.key ≠ "" ∧ w.store.global + 1 < 2 ^ 64
  | _ => True

/-- A value is appended while its key is stored, or before a newer deletion of the key is. And
when the log is truncated, it has nothing that is newer than the snapshot. -/
def Orderly (w : Writers) : WriterEvent → Prop
  | .append i => ∀ p, w.pending[i]? = some p → p.outcome.isDeleted = true ∨
    w.store.stored p.key ≠ none ∨
      ∃ q ∈ w.pending, q.key = p.key ∧ q.outcome.isDeleted = true ∧ p.version ≤ q.version
  | .truncate => ∀ taken range, w.phase = .renamed taken range →
    ∀ r ∈ w.wal, r.change.version ≤ taken.global
  | _ => True

def Waiting (w : Writers) (key : String) (deleted : Bool) (version : ℕ) : Prop :=
  ∃ p ∈ w.pending, p.key = key ∧ p.outcome.isDeleted = deleted ∧ p.version = version

end Writers

structure StateStore.Counts (s : StateStore) : Prop where
  room : s.global < 2 ^ 64
  stored : ∀ key e, s.stored key = some e → key ≠ "" ∧ 0 < e.1 ∧ e.1 ≤ s.global

def PendingWrite.Fits (p : PendingWrite) (e : ℕ × GoValue) : Prop :=
  p.version < e.1 ∨ p.version = e.1 ∧
    match p.outcome with
    | .deleted => False
    | .value v => v = e.2
    | .unread _ => e.2 ≠ .nil

structure Writers.Traced (w : Writers) : Prop where
  counts : w.store.Counts
  pending : ∀ p ∈ w.pending, p.key ≠ "" ∧ p.version ≤ w.store.global ∧
    ∀ e, w.store.stored p.key = some e → p.Fits e
  wal : ∀ r ∈ w.wal, r.key ≠ "" ∧ r.change.version ≤ w.store.global ∧
    ∀ e, w.store.stored r.key = some e → r.change = .set e.1 e.2 ∨ r.change.version < e.1

structure Writers.Snapped (w : Writers) (taken : StateStore) : Prop where
  counts : taken.Counts
  le : taken.global ≤ w.store.global
  older : ∀ key e f, taken.stored key = some f → w.store.stored key = some e → f = e ∨ f.1 < e.1

/-- Before the log is truncated: as long as it has nothing newer than the snapshot, what the
snapshot lacks waits to be recorded. -/
def Writers.Kept (w : Writers) (taken : StateStore) : Prop :=
  (∀ r ∈ w.wal, r.change.version ≤ taken.global) → ∀ key,
    (∀ e, w.store.stored key = some e →
      taken.stored key = some e ∨ taken.global < e.1 ∧ w.Waiting key false e.1) ∧
    (w.store.stored key = none → ∀ f, taken.stored key = some f →
      ∃ version, taken.global < version ∧ w.Waiting key true version)

/-- After: what snapshot and log lack waits to be recorded. -/
def Writers.Logged (w : Writers) (taken : StateStore) : Prop :=
  ∀ key,
    (∀ e, w.store.stored key = some e → taken.stored key = some e ∨ w.Waiting key false e.1 ∨
      .set e.1 e.2 ∈ changesOf key w.wal) ∧
    (w.store.stored key = none →
      ∀ f ∈ live (snapshot (taken.stored key) ++ changesOf key w.wal),
        ∃ version, f.1 ≤ version ∧ w.Waiting key true version)

def Writers.Staged (w : Writers) : Prop :=
  match w.phase with
  | .idle => True
  | .captured taken _ => w.Snapped taken ∧ w.Kept taken
  | .renamed taken range =>
    w.Snapped taken ∧ w.Kept taken ∧ w.snap = some (taken.listEntries range)
  | .truncated taken range =>
    w.Snapped taken ∧ w.Logged taken ∧ w.snap = some (taken.listEntries range) ∧ w.older = []

/-! ### The store is changed -/

variable {e : ℕ × GoValue} {ops : List DeltaOp}

theorem Mutation.outcome_fits {m : Mutation} {s t : StateStore}
    {recheck : Bool} (hrun : m.run s = (t, some ⟨m.key, s.nextVersion, ops⟩))
    (he : t.stored m.key = some e) :
    PendingWrite.Fits ⟨m.key, s.nextVersion, m.outcome recheck⟩ e := by
  have hrecord : ∀ {value : Option GoValue} {ops' : List DeltaOp},
      s.record m.key value ops' = (t, some ⟨m.key, s.nextVersion, ops⟩) →
        value.map (fun v => (s.nextVersion, v)) = some e := by
    intro value ops' heq
    have hstored := s.stored_record m.key value ops' m.key
    rwa [heq, if_pos rfl, he, eq_comm] at hstored
  cases m with
  | apply =>
    rw [run, StateStore.apply] at hrun
    dsimp only at hrun
    split_ifs at hrun
    · cases hrun
    · cases hrun
    · cases hrecord hrun
      exact .inr ⟨rfl, rfl⟩
  | append =>
    rw [run, StateStore.append] at hrun
    split_ifs at hrun
    · cases hrecord hrun
      exact .inr ⟨rfl, GoValue.noConfusion⟩
    · cases hrecord hrun
      exact .inr ⟨rfl, GoValue.noConfusion⟩
  | delete =>
    rw [run, StateStore.delete] at hrun
    split at hrun
    · cases hrun
    · cases hrecord hrun

theorem PendingWrite.Fits.not_deleted {p : PendingWrite} (h : p.Fits e)
    (hversion : p.version = e.1) : p.outcome.isDeleted = false := by
  rcases h with hlt | ⟨-, houtcome⟩
  · exact absurd hversion (ne_of_lt hlt)
  · cases hp : p.outcome with
    | deleted =>
      rw [hp] at houtcome
      cases houtcome
    | value v | unread recheck => rfl

structure Writers.Updated (w : Writers) (t : StateStore) (p : PendingWrite) : Prop where
  key : p.key ≠ ""
  version : p.version = w.store.global + 1
  global : t.global = w.store.global + 1
  room : t.global < 2 ^ 64
  other : ∀ key, key ≠ p.key → t.stored key = w.store.stored key
  same : ∀ e, t.stored p.key = some e → e.1 = p.version ∧ p.Fits e
  gone : t.stored p.key = none → p.outcome.isDeleted = true

variable {key : String} {version : ℕ}

namespace Writers
variable {w : Writers} {t taken : StateStore} {p : PendingWrite}

theorem updated_of_run {m : Mutation} {recheck : Bool} (hok : w.Numbered (.update m recheck))
    (hrun : m.run w.store = (t, some ⟨m.key, w.store.nextVersion, ops⟩))
    (hrecords : m.Records w.store t (m.walRecord t w.store.nextVersion)) :
    w.Updated t ⟨m.key, w.store.nextVersion, m.outcome recheck⟩ := by
  have hnext : w.store.nextVersion = w.store.global + 1 := Nat.mod_eq_of_lt hok.2
  have hstored := hrecords.stored m.key
  rw [if_pos rfl] at hstored
  refine ⟨hok.1, hnext, hrecords.global.trans hnext, ?_, ?_, ?_, ?_⟩
  · rw [hrecords.global, hnext]
    exact hok.2
  · intro key hkey
    rw [hrecords.stored, if_neg hkey]
  · intro e he
    refine ⟨?_, Mutation.outcome_fits hrun he⟩
    have hversion := hrecords.version
    rw [he] at hstored
    cases hchange : (m.walRecord t w.store.nextVersion).change with
    | set =>
      rw [hchange] at hstored hversion
      cases hstored
      exact hversion
    | delete =>
      rw [hchange] at hstored
      cases hstored
  · intro hnone
    rw [hnone] at hstored
    cases m with
    | delete => rfl
    | apply range key value | append key element maxLen => cases hstored

def updated (w : Writers) (t : StateStore) (p : PendingWrite) : Writers :=
  { w with store := t, pending := w.pending ++ [p] }

theorem Waiting.updated {deleted : Bool} (h : w.Waiting key deleted version) (t : StateStore)
    (p : PendingWrite) : (w.updated t p).Waiting key deleted version := by
  obtain ⟨q, hq, hwaits⟩ := h
  exact ⟨q, mem_append_left _ hq, hwaits⟩

theorem waiting_updated (w : Writers) (t : StateStore) (p : PendingWrite) :
    (w.updated t p).Waiting p.key p.outcome.isDeleted p.version :=
  ⟨p, mem_append_right _ (mem_singleton_self p), rfl, rfl, rfl⟩

theorem Updated.lt (u : w.Updated t p) (h : version ≤ w.store.global)
    (he : t.stored p.key = some e) : version < e.1 := by
  have := (u.same e he).1
  have := u.version
  omega

theorem Updated.counts (u : w.Updated t p) (h : w.store.Counts) : t.Counts := by
  refine ⟨u.room, fun key e he => ?_⟩
  have hglobal := u.global
  by_cases hkey : key = p.key
  · subst hkey
    have := (u.same e he).1
    have := u.version
    exact ⟨u.key, by omega, by omega⟩
  · rw [u.other key hkey] at he
    obtain ⟨hne, hpos, _⟩ := h.stored key e he
    exact ⟨hne, hpos, by omega⟩

theorem Traced.updated (h : w.Traced) (u : w.Updated t p) : (w.updated t p).Traced := by
  have hglobal := u.global
  refine ⟨u.counts h.counts, fun q hq => ?_, fun r hr => ?_⟩
  · rcases mem_append.mp hq with hq | hq
    · obtain ⟨hne, hle, hfits⟩ := h.pending q hq
      refine ⟨hne, (hle.trans (by omega) : q.version ≤ t.global), fun e he => ?_⟩
      change t.stored q.key = some e at he
      by_cases hkey : q.key = p.key
      · rw [hkey] at he
        exact .inl (u.lt hle he)
      · rw [u.other _ hkey] at he
        exact hfits e he
    · rw [mem_singleton.mp hq]
      refine ⟨u.key, ?_, fun e he => (u.same e he).2⟩
      change p.version ≤ t.global
      rw [u.version, u.global]
  · obtain ⟨hne, hle, hwithin⟩ := h.wal r hr
    refine ⟨hne, (hle.trans (by omega) : r.change.version ≤ t.global), fun e he => ?_⟩
    change t.stored r.key = some e at he
    by_cases hkey : r.key = p.key
    · rw [hkey] at he
      exact .inr (u.lt hle he)
    · rw [u.other _ hkey] at he
      exact hwithin e he

theorem Snapped.updated (h : w.Snapped taken) (u : w.Updated t p) :
    (w.updated t p).Snapped taken := by
  have hglobal := u.global
  refine ⟨h.counts, (h.le.trans (by omega) : taken.global ≤ t.global), fun key e f hf he => ?_⟩
  change t.stored key = some e at he
  by_cases hkey : key = p.key
  · subst hkey
    exact .inr (u.lt ((h.counts.stored _ f hf).2.2.trans h.le) he)
  · rw [u.other key hkey] at he
    exact h.older key e f hf he

theorem Kept.updated (h : w.Kept taken) (hle : taken.global ≤ w.store.global)
    (u : w.Updated t p) : (w.updated t p).Kept taken := by
  intro hwal key
  have hversion := u.version
  have hwaiting := waiting_updated w t p
  refine ⟨fun e he => ?_, fun hnone f hf => ?_⟩
  · change t.stored key = some e at he
    by_cases hkey : key = p.key
    · subst hkey
      obtain ⟨heq, hfits⟩ := u.same e he
      rw [hfits.not_deleted heq.symm, ← heq] at hwaiting
      exact .inr ⟨by omega, hwaiting⟩
    · rw [u.other key hkey] at he
      exact ((h hwal key).1 e he).imp_right (And.imp_right fun hw => hw.updated t p)
  · change t.stored key = none at hnone
    by_cases hkey : key = p.key
    · subst hkey
      rw [u.gone hnone] at hwaiting
      exact ⟨p.version, by omega, hwaiting⟩
    · rw [u.other key hkey] at hnone
      obtain ⟨version, hlt, hw⟩ := (h hwal key).2 hnone f hf
      exact ⟨version, hlt, hw.updated t p⟩

theorem le_of_mem_live (hsnapped : w.Snapped taken) (htraced : w.Traced) {f : ℕ × GoValue}
    (hf : f ∈ live (snapshot (taken.stored key) ++ changesOf key w.wal)) :
    f.1 ≤ w.store.global := by
  rcases mem_append.mp (mem_of_mem_live hf) with hmem | hmem
  · cases hstored : taken.stored key with
    | none =>
      rw [hstored] at hmem
      exact absurd hmem not_mem_nil
    | some e =>
      rw [hstored] at hmem
      have heq := mem_singleton.mp hmem
      rw [VersionedLog.Change.set.injEq] at heq
      rw [heq.1]
      exact (hsnapped.counts.stored key e hstored).2.2.trans hsnapped.le
  · obtain ⟨r, hr, -, hchange⟩ := mem_changesOf.mp hmem
    have hle := (htraced.wal r hr).2.1
    rwa [hchange] at hle

theorem Logged.updated (h : w.Logged taken) (hsnapped : w.Snapped taken) (htraced : w.Traced)
    (u : w.Updated t p) : (w.updated t p).Logged taken := by
  intro key
  have hversion := u.version
  have hwaiting := waiting_updated w t p
  refine ⟨fun e he => ?_, fun hnone f hf => ?_⟩
  · change t.stored key = some e at he
    by_cases hkey : key = p.key
    · subst hkey
      obtain ⟨heq, hfits⟩ := u.same e he
      rw [hfits.not_deleted heq.symm, ← heq] at hwaiting
      exact .inr (.inl hwaiting)
    · rw [u.other key hkey] at he
      exact ((h key).1 e he).imp_right (Or.imp_left fun hw => hw.updated t p)
  · change t.stored key = none at hnone
    by_cases hkey : key = p.key
    · subst hkey
      have hle : f.1 ≤ w.store.global := le_of_mem_live hsnapped htraced hf
      rw [u.gone hnone] at hwaiting
      exact ⟨p.version, by omega, hwaiting⟩
    · rw [u.other key hkey] at hnone
      obtain ⟨version, hle, hw⟩ := (h key).2 hnone f hf
      exact ⟨version, hle, hw.updated t p⟩

/-! ### A value is read -/

theorem mem_split {α : Type*} {a b : α} {before after : List α} :
    a ∈ before ++ b :: after ↔ a = b ∨ a ∈ before ++ after := by
  rw [mem_append, mem_cons, or_left_comm, ← mem_append]

theorem split_of_getElem? {α : Type*} {l : List α} {i : ℕ} {a : α} (h : l[i]? = some a) :
    ∃ before after, l = before ++ a :: after ∧ l.eraseIdx i = before ++ after ∧
      ∀ b, l.set i b = before ++ b :: after := by
  obtain ⟨hlt, ha⟩ := List.getElem?_eq_some_iff.mp h
  refine ⟨l.take i, l.drop (i + 1), ?_, List.eraseIdx_eq_take_drop_succ l i, fun b => ?_⟩
  · rw [← ha, List.cons_getElem_drop_succ, List.take_append_drop]
  · rw [List.set_eq_take_append_cons_drop, if_pos hlt]

section Rewriting
variable {before after rest : List PendingWrite}

theorem Waiting.of_split {deleted : Bool} (h : w.Waiting key deleted version)
    (hsplit : w.pending = before ++ p :: after)
    (hrest : ∀ q ∈ before ++ after, q ∈ rest) (wal : List WalRecord) :
    (p.key = key ∧ p.outcome.isDeleted = deleted ∧ p.version = version) ∨
      Waiting { w with wal := wal, pending := rest } key deleted version := by
  obtain ⟨q, hq, hwaits⟩ := h
  rcases mem_split.mp (hsplit ▸ hq) with rfl | hq
  · exact .inl hwaits
  · exact .inr ⟨q, hrest q hq, hwaits⟩

end Rewriting

structure Rewritten (w : Writers) (rest : List PendingWrite) : Prop where
  fits : ∀ q ∈ rest, q.key ≠ "" ∧ q.version ≤ w.store.global ∧
    ∀ e, w.store.stored q.key = some e → q.Fits e
  deletions : ∀ key version, w.Waiting key true version →
    Waiting { w with pending := rest } key true version
  newest : ∀ key e, w.store.stored key = some e → w.Waiting key false e.1 →
    Waiting { w with pending := rest } key false e.1

section Rewritten
variable {rest : List PendingWrite}

theorem Traced.rewritten (h : w.Traced) (hr : w.Rewritten rest) :
    Traced { w with pending := rest } := ⟨h.counts, hr.fits, h.wal⟩

theorem Snapped.of_store {u : Writers} (h : w.Snapped taken) (hstore : u.store = w.store) :
    u.Snapped taken := by
  refine ⟨h.counts, ?_, ?_⟩
  · rw [hstore]
    exact h.le
  · rw [hstore]
    exact h.older

theorem Kept.rewritten (h : w.Kept taken) (hr : w.Rewritten rest) :
    Kept { w with pending := rest } taken := by
  intro hwal key
  obtain ⟨hsome, hnone⟩ := h hwal key
  refine ⟨fun e he => (hsome e he).imp_right (And.imp_right (hr.newest key e he)),
    fun hgone f hf => ?_⟩
  obtain ⟨version, hlt, hw⟩ := hnone hgone f hf
  exact ⟨version, hlt, hr.deletions key version hw⟩

theorem Logged.rewritten (h : w.Logged taken) (hr : w.Rewritten rest) :
    Logged { w with pending := rest } taken := by
  intro key
  obtain ⟨hsome, hnone⟩ := h key
  refine ⟨fun e he => (hsome e he).imp_right (Or.imp_left (hr.newest key e he)),
    fun hgone f hf => ?_⟩
  obtain ⟨version, hle, hw⟩ := hnone hgone f hf
  exact ⟨version, hle, hr.deletions key version hw⟩

end Rewritten

theorem get_of_stored_eq {s : StateStore} (h : s.stored key = some e) : (s.get key).1 = e.2 := by
  obtain ⟨_, hentry, rfl⟩ := map_eq_some_iff.mp h
  rw [StateStore.get, hentry]

theorem read_eq_some (h : w.Traced) {i : ℕ} {u : Writers} (hstep : w.step (.read i) = some u) :
    ∃ rest, u = { w with pending := rest } ∧ w.Rewritten rest := by
  rw [step] at hstep
  split at hstep
  case h_2 => cases hstep
  case h_1 key version recheck hi =>
    obtain ⟨before, after, hsplit, herase, hset⟩ := split_of_getElem? hi
    have hmem : ∀ q ∈ before ++ after, q ∈ w.pending :=
      fun q hq => hsplit ▸ mem_split.mpr (.inr hq)
    obtain ⟨hne, hle, hfits⟩ := h.pending _ (mem_of_getElem? hi)
    split at hstep
    case h_1 hnil =>
      refine ⟨_, (some.inj hstep).symm, ?_⟩
      rw [herase]
      refine ⟨fun q hq => h.pending q (hmem q hq), fun k v hw => ?_, fun k e he hw => ?_⟩
      · rcases hw.of_split hsplit (fun _ => id) w.wal with ⟨-, hdeleted, -⟩ | hw
        · cases hdeleted
        · exact hw
      · rcases hw.of_split hsplit (fun _ => id) w.wal with ⟨hkey, -, hversion⟩ | hw
        · -- the value of the newest change is still there
          obtain rfl : key = k := hkey
          rcases hfits e he with hlt | ⟨-, hvalue⟩
          · exact absurd hversion (ne_of_lt hlt)
          · exact absurd ((get_of_stored_eq he).symm.trans hnil) hvalue
        · exact hw
    case h_2 hnil =>
      refine ⟨_, (some.inj hstep).symm, ?_⟩
      rw [hset]
      have hrest : ∀ q ∈ before ++ after,
          q ∈ before ++ ⟨key, version, .value (w.store.get key).1⟩ :: after :=
        fun q hq => mem_split.mpr (.inr hq)
      have hread : ∀ k v, w.Waiting k false v → Waiting
          { w with pending := before ++ ⟨key, version, .value (w.store.get key).1⟩ :: after }
            k false v := by
        intro k v hw
        rcases hw.of_split hsplit hrest w.wal with ⟨hkey, -, hversion⟩ | hw
        · exact ⟨_, mem_append_right _ mem_cons_self, hkey, rfl, hversion⟩
        · exact hw
      refine ⟨fun q hq => ?_, fun k v hw => ?_, fun k e _ hw => hread k e.1 hw⟩
      · rcases mem_split.mp hq with rfl | hq
        · refine ⟨hne, hle, fun e he => (hfits e he).imp_right fun hnewest => ?_⟩
          exact ⟨hnewest.1, get_of_stored_eq he⟩
        · exact h.pending q (hmem q hq)
      · rcases hw.of_split hsplit hrest w.wal with ⟨-, hdeleted, -⟩ | hw
        · cases hdeleted
        · exact hw

/-! ### A record is appended -/

structure Appends (p : PendingWrite) (r : WalRecord) : Prop where
  key : r.key = p.key
  version : r.change.version = p.version
  within : ∀ e, p.Fits e → r.change = .set e.1 e.2 ∨ r.change.version < e.1
  deleted : p.outcome.isDeleted = true → r.change = .delete p.version

theorem appends_of_record? {r : WalRecord} (h : p.record? = some r) (hroom : p.version < 2 ^ 64) :
    Appends p r := by
  have hnat : (UInt64.ofNat p.version).toNat = p.version := by
    rw [UInt64.toNat_ofNat', Nat.mod_eq_of_lt hroom]
  obtain ⟨_, _, outcome⟩ := p
  cases outcome with
  | unread => cases h
  | deleted =>
    cases h
    refine ⟨rfl, hnat, fun e he => ?_, fun _ => congrArg _ hnat⟩
    rcases he with hlt | ⟨-, habsurd⟩
    · exact .inr (hnat.trans_lt hlt)
    · cases habsurd
  | value =>
    cases h
    refine ⟨rfl, hnat, fun e he => ?_, nofun⟩
    rcases he with hlt | ⟨hversion, hvalue⟩
    · exact .inr (hnat.trans_lt hlt)
    · refine .inl ?_
      rw [WalRecord.change, hnat]
      exact congrArg₂ _ hversion hvalue

def appended (w : Writers) (r : WalRecord) (rest : List PendingWrite) : Writers :=
  { w with wal := w.wal ++ [r], pending := rest }

section Append
variable {before after : List PendingWrite} {r : WalRecord}

theorem Traced.appended (h : w.Traced) (hsplit : w.pending = before ++ p :: after)
    (hr : Appends p r) : (w.appended r (before ++ after)).Traced := by
  have hmem : ∀ q ∈ before ++ after, q ∈ w.pending :=
    fun q hq => hsplit ▸ mem_split.mpr (.inr hq)
  have hp : p ∈ w.pending := hsplit ▸ mem_append_right _ mem_cons_self
  refine ⟨h.counts, fun q hq => h.pending q (hmem q hq), fun q hq => ?_⟩
  rcases mem_append.mp hq with hq | hq
  · exact h.wal q hq
  · obtain ⟨hne, hle, hfits⟩ := h.pending p hp
    rw [mem_singleton.mp hq, hr.key, hr.version]
    refine ⟨hne, hle, fun e he => ?_⟩
    rw [← hr.version]
    exact hr.within e (hfits e he)

theorem Kept.appended (h : w.Kept taken) (hsplit : w.pending = before ++ p :: after)
    (hr : Appends p r) : (w.appended r (before ++ after)).Kept taken := by
  intro hwal key
  obtain ⟨hold, hnew⟩ := forall_mem_append.mp hwal
  have hle : p.version ≤ taken.global := hr.version ▸ hnew r (mem_singleton_self r)
  -- a write that is newer than the snapshot is another one
  have hother : ∀ {deleted version}, taken.global < version → w.Waiting key deleted version →
      (w.appended r (before ++ after)).Waiting key deleted version := by
    intro deleted version hlt hw
    rcases hw.of_split hsplit (fun _ => id) (w.wal ++ [r]) with ⟨-, -, _⟩ | hw
    · omega
    · exact hw
  obtain ⟨hsome, hnone⟩ := h hold key
  refine ⟨fun e he => (hsome e he).imp_right fun hw => ⟨hw.1, hother hw.1 hw.2⟩,
    fun hgone f hf => ?_⟩
  obtain ⟨version, hlt, hw⟩ := hnone hgone f hf
  exact ⟨version, hlt, hother hlt hw⟩

theorem changesOf_singleton (key : String) (r : WalRecord) :
    changesOf key [r] = if r.key = key then [r.change] else [] := changesOf_cons key r []

theorem Logged.appended (h : w.Logged taken) (htraced : w.Traced)
    (hsplit : w.pending = before ++ p :: after) (hr : Appends p r)
    (hok : p.outcome.isDeleted = true ∨ w.store.stored p.key ≠ none ∨
      ∃ version, p.version ≤ version ∧ w.Waiting p.key true version) :
    (w.appended r (before ++ after)).Logged taken := by
  intro key
  obtain ⟨hsome, hnone⟩ := h key
  have hfits := (htraced.pending p (hsplit ▸ mem_append_right _ mem_cons_self)).2.2
  refine ⟨fun e he => ?_, fun hgone f hf => ?_⟩
  · change _ ∨ _ ∨ _ ∈ changesOf key (w.wal ++ [r])
    rw [changesOf_append]
    rcases hsome e he with htaken | hw | hlog
    · exact .inl htaken
    · rcases hw.of_split hsplit (fun _ => id) (w.wal ++ [r]) with ⟨rfl, -, hversion⟩ | hw
      · refine .inr (.inr (mem_append_right _ ?_))
        rw [changesOf_singleton, if_pos hr.key, mem_singleton]
        rcases hr.within e (hfits e he) with heq | hlt
        · exact heq.symm
        · exact absurd (hr.version.trans hversion) (ne_of_lt hlt)
      · exact .inr (.inl hw)
    · exact .inr (.inr (mem_append_left _ hlog))
  · change f ∈ live (_ ++ changesOf key (w.wal ++ [r])) at hf
    rw [changesOf_append, ← append_assoc, changesOf_singleton] at hf
    -- a deletion that waits is another write than `p`, or it has just been appended
    have hother : ∀ {version}, w.Waiting key true version →
        (p.key = key ∧ r.change = .delete version) ∨
          (w.appended r (before ++ after)).Waiting key true version := by
      intro version hw
      refine (hw.of_split hsplit (fun _ => id) (w.wal ++ [r])).imp_left ?_
      rintro ⟨hkey, hdeleted, hversion⟩
      exact ⟨hkey, hversion ▸ hr.deleted hdeleted⟩
    by_cases hkey : p.key = key
    · rw [if_pos (hr.key.trans hkey)] at hf
      rcases mem_live_concat hf with ⟨hf, hlt⟩ | hset
      · obtain ⟨version, hle, hw⟩ := hnone hgone f hf
        rcases hother hw with ⟨-, hchange⟩ | hw
        · exact absurd (hlt version hchange) (not_lt.mpr hle)
        · exact ⟨version, hle, hw⟩
      · have hversion := hr.version
        rw [hset] at hversion
        have hnot : ∀ version, r.change ≠ .delete version := hset ▸ nofun
        rcases hok with hdeleted | hstored | ⟨later, hle, hw⟩
        · exact absurd (hr.deleted hdeleted) (hnot _)
        · exact absurd (hkey ▸ hgone) hstored
        · rcases hother (hkey ▸ hw) with ⟨-, hdelete⟩ | hw
          · exact absurd hdelete (hnot later)
          · exact ⟨later, hversion.trans_le hle, hw⟩
    · rw [if_neg fun heq => hkey (hr.key.symm.trans heq), append_nil] at hf
      obtain ⟨version, hle, hw⟩ := hnone hgone f hf
      rcases hother hw with ⟨heq, -⟩ | hw
      · exact absurd heq hkey
      · exact ⟨version, hle, hw⟩

end Append

/-! ### Runs -/

section Runs
variable {u : Writers}

theorem Staged.of_handler (h : w.Staged) (hphase : u.phase = w.phase) (hsnap : u.snap = w.snap)
    (holder : u.older = w.older) (hsnapped : ∀ taken, w.Snapped taken → u.Snapped taken)
    (hkept : ∀ taken, w.Snapped taken → w.Kept taken → u.Kept taken)
    (hlogged : ∀ taken, w.Snapped taken → w.Logged taken → u.Logged taken) : u.Staged := by
  rw [Staged] at h ⊢
  rw [hphase, hsnap, holder]
  cases hw : w.phase with
  | idle => trivial
  | captured taken =>
    rw [hw] at h
    exact ⟨hsnapped taken h.1, hkept taken h.1 h.2⟩
  | renamed taken =>
    rw [hw] at h
    exact ⟨hsnapped taken h.1, hkept taken h.1 h.2.1, h.2.2⟩
  | truncated taken =>
    rw [hw] at h
    exact ⟨hsnapped taken h.1, hlogged taken h.1 h.2.1, h.2.2⟩

theorem Traced.snapped (h : w.Traced) : w.Snapped w.store where
  counts := h.counts
  le := le_rfl
  older := by
    intro key e f hf he
    rw [hf] at he
    exact .inl (some.inj he)

theorem kept_self (w : Writers) : w.Kept w.store := by
  refine fun _ key => ⟨fun e he => .inl he, fun hnone f hf => ?_⟩
  rw [hnone] at hf
  cases hf

theorem Kept.truncated (h : w.Kept taken) (hsnapped : w.Snapped taken)
    (hwal : ∀ r ∈ w.wal, r.change.version ≤ taken.global) (phase : CompactPhase) :
    Logged { w with older := [], wal := [], phase := phase } taken := by
  intro key
  obtain ⟨hsome, hnone⟩ := h hwal key
  refine ⟨fun e he => (hsome e he).imp_right fun hw => .inl hw.2, fun hgone f hf => ?_⟩
  change f ∈ live (snapshot (taken.stored key) ++ []) at hf
  rw [append_nil] at hf
  have htaken := set_mem_snapshot_iff.mp (mem_of_mem_live hf)
  obtain ⟨version, hlt, hw⟩ := hnone hgone f htaken
  exact ⟨version, ((hsnapped.counts.stored key f htaken).2.2.trans_lt hlt).le, hw⟩

theorem step_update (w : Writers) (m : Mutation) (recheck : Bool) :
    w.step (.update m recheck) = some w ∨ ∃ t ops,
      m.run w.store = (t, some ⟨m.key, w.store.nextVersion, ops⟩) ∧
      m.Records w.store t (m.walRecord t w.store.nextVersion) ∧ w.step (.update m recheck) =
        some (w.updated t ⟨m.key, w.store.nextVersion, m.outcome recheck⟩) := by
  rw [step]
  rcases m.run_records w.store with heq | ⟨t, ops, heq, hrecords⟩
  · rw [heq]
    exact .inl rfl
  · rw [heq]
    exact .inr ⟨t, ops, rfl, hrecords, rfl⟩

theorem staged_step (h : w.Traced ∧ w.Staged) {event : WriterEvent} (hnumbered : w.Numbered event)
    (hok : w.Orderly event) (hstep : w.step event = some u) : u.Traced ∧ u.Staged := by
  obtain ⟨htraced, hstaged⟩ := h
  cases event with
  | update m recheck =>
    rcases w.step_update m recheck with heq | ⟨t, _, hrun, hrecords, heq⟩
    · rw [heq, some.injEq] at hstep
      exact hstep ▸ ⟨htraced, hstaged⟩
    · rw [heq] at hstep
      cases hstep
      have hu := updated_of_run hnumbered hrun hrecords
      exact ⟨htraced.updated hu, hstaged.of_handler rfl rfl rfl (fun _ hs => hs.updated hu)
        (fun _ hs hk => hk.updated hs.le hu) fun _ hs hl => hl.updated hs htraced hu⟩
  | read =>
    obtain ⟨_, rfl, hrest⟩ := read_eq_some htraced hstep
    exact ⟨htraced.rewritten hrest, hstaged.of_handler rfl rfl rfl (fun _ hs => hs.of_store rfl)
      (fun _ _ hk => hk.rewritten hrest) fun _ _ hl => hl.rewritten hrest⟩
  | append =>
    obtain ⟨r, hr, rfl⟩ := map_eq_some_iff.mp hstep
    obtain ⟨p, hi, hrecord⟩ := bind_eq_some_iff.mp hr
    obtain ⟨_, _, hsplit, herase, -⟩ := split_of_getElem? hi
    have hle := (htraced.pending p (mem_of_getElem? hi)).2.1
    have happends := appends_of_record? hrecord (hle.trans_lt htraced.counts.room)
    have hdeletion : p.outcome.isDeleted = true ∨ w.store.stored p.key ≠ none ∨
        ∃ version, p.version ≤ version ∧ w.Waiting p.key true version := by
      refine (hok p hi).imp_right (Or.imp_right ?_)
      rintro ⟨q, hq, hkey, hdeleted, hle⟩
      exact ⟨q.version, hle, q, hq, hkey, hdeleted, rfl⟩
    rw [herase]
    exact ⟨htraced.appended hsplit happends, hstaged.of_handler rfl rfl rfl
      (fun _ hs => hs.of_store rfl) (fun _ _ hk => hk.appended hsplit happends)
      fun _ _ hl => hl.appended htraced hsplit happends hdeletion⟩
  | entries =>
    rw [step] at hstep
    split at hstep
    · cases hstep
      exact ⟨⟨htraced.counts, htraced.pending, htraced.wal⟩, htraced.snapped.of_store rfl,
        w.kept_self⟩
    · cases hstep
  | rename =>
    rw [step] at hstep
    split at hstep
    · next hphase =>
      cases hstep
      rw [Staged, hphase] at hstaged
      exact ⟨⟨htraced.counts, htraced.pending, htraced.wal⟩, hstaged.1.of_store rfl, hstaged.2, rfl⟩
    · cases hstep
  | truncate =>
    rw [step] at hstep
    split at hstep
    · next taken range hphase =>
      cases hstep
      rw [Staged, hphase] at hstaged
      exact ⟨⟨htraced.counts, htraced.pending, nofun⟩, hstaged.1.of_store rfl,
        hstaged.2.1.truncated hstaged.1 (hok taken range hphase) _, hstaged.2.2, rfl⟩
    · cases hstep

theorem Logged.replay (h : w.Logged taken) (htraced : w.Traced) (hsnapped : w.Snapped taken)
    (hquiet : w.pending = []) (key : String) :
    replay none (snapshot (taken.stored key) ++ changesOf key w.wal) = w.store.stored key := by
  have hwaiting : ∀ deleted version, ¬ w.Waiting key deleted version := by
    rintro deleted version ⟨p, hp, -⟩
    rw [hquiet] at hp
    cases hp
  cases hstored : w.store.stored key with
  | none =>
    rw [replay_eq_none_iff, eq_nil_iff_forall_not_mem]
    intro f hf
    obtain ⟨version, -, hw⟩ := (h key).2 hstored f hf
    exact hwaiting true version hw
  | some e =>
    refine replay_of_newest (htraced.counts.stored key e hstored).2.1 ?_ fun change hmem => ?_
    · rcases (h key).1 e hstored with htaken | hw | hlog
      · rw [htaken]
        exact mem_cons_self
      · exact absurd hw (hwaiting false e.1)
      · exact mem_append_right _ hlog
    · rcases mem_append.mp hmem with hsnap | hlog
      · cases htaken : taken.stored key with
        | none =>
          rw [htaken] at hsnap
          cases hsnap
        | some f =>
          rw [htaken] at hsnap
          rw [mem_singleton.mp hsnap]
          refine (hsnapped.older key e f htaken hstored).imp_left fun heq => ?_
          rw [heq]
      · obtain ⟨r, hr, hkey, rfl⟩ := mem_changesOf.mp hlog
        exact (htraced.wal r hr).2.2 e (hkey ▸ hstored)

variable {codec : Codec (List GoValue)} {c : Conversions} {store : StateStore}
  {snap : Option (List (String × StateEntry))} {older : List WalRecord}
  {events : List WriterEvent} {range : KeyOrder String}

/-- Once the compaction and all writes are done, a restart finds the entries of the store. -/
theorem compaction_among_writes (hcodec : codec.Delimited) (hcounts : store.Counts)
    (hnumbered : Along step Numbered (start store snap older) events)
    (hok : Along step Orderly (start store snap older) events)
    (hrun : run step (start store snap older) events = some w)
    (hphase : w.phase = .truncated taken range) (hquiet : w.pending = [])
    (hsnap : codec.Faithful (flatten (taken.listEntries range)))
    (hwal : ∀ r ∈ w.wal, codec.Faithful r.fields) :
    ((w.disk codec).restart codec c).entries = w.store.entries := by
  have hstart : (start store snap older).Traced ∧ (start store snap older).Staged :=
    ⟨⟨hcounts, nofun, nofun⟩, trivial⟩
  obtain ⟨htraced, hstaged⟩ := invariant_along (I := fun w : Writers => w.Traced ∧ w.Staged)
    (fun _ _ _ h hok hstep => staged_step h hok.1 hok.2 hstep) hstart (hnumbered.and hok) hrun
  rw [Staged, hphase] at hstaged
  obtain ⟨hsnapped, hlogged, hentries, holder⟩ := hstaged
  have hlisted : ∀ e ∈ taken.listEntries range, e.1 ≠ "" ∧ e.2.version < 2 ^ 64 := by
    rintro ⟨key, e⟩ he
    have hstored : taken.stored key = some (e.version, e.value) := by
      rw [StateStore.stored, mem_listEntries.mp he]
      rfl
    obtain ⟨hne, -, hle⟩ := hsnapped.counts.stored key _ hstored
    exact ⟨hne, hle.trans_lt hsnapped.counts.room⟩
  refine entries_eq_of_stored fun key => ?_
  rw [stored_restart, disk, hentries, holder, nil_append, map_some,
    changes_of_files hcodec hsnap hlisted fun r hr => ⟨(htraced.wal r hr).1, hwal r hr⟩]
  exact hlogged.replay htraced hsnapped hquiet key

end Runs

/-! ### Two interleavings -/

instance (w : Writers) : (event : WriterEvent) → Decidable (w.Orderly event)
  | .append i =>
    match h : w.pending[i]? with
    | none => isTrue fun p hp => nomatch h.symm.trans hp
    | some p =>
      decidable_of_iff (p.outcome.isDeleted = true ∨ w.store.stored p.key ≠ none ∨
          ∃ q ∈ w.pending, q.key = p.key ∧ q.outcome.isDeleted = true ∧ p.version ≤ q.version)
        (by simp [Orderly, h])
  | .truncate =>
    match h : w.phase with
    | .renamed taken range =>
      decidable_of_iff (∀ r ∈ w.wal, r.change.version ≤ taken.global) (by simp [Orderly, h])
    | .idle => isTrue fun _ _ hphase => nomatch h.symm.trans hphase
    | .captured _ _ => isTrue fun _ _ hphase => nomatch h.symm.trans hphase
    | .truncated _ _ => isTrue fun _ _ hphase => nomatch h.symm.trans hphase
  | .update _ _ | .read _ | .entries _ | .rename => isTrue trivial

instance (w : Writers) (event : WriterEvent) : Decidable (w.Numbered event) := by
  unfold Numbered
  split <;> infer_instance

def lateRecords : List WriterEvent :=
  [.update (setMutation "k" "x") false, .append 0, .entries .sorted, .update (.delete "k") false,
    .rename, .update (setMutation "m" "y") false, .truncate, .append 1, .append 0]

theorem late_records_replayed :
    ∃ w, run step (start .new none []) lateRecords = some w ∧ w.store.entries.keys = ["m"] ∧
      ((w.disk Msgpack.codec).restart Msgpack.codec Journal.noFloats).entries =
        w.store.entries := by
  have hcounts : StateStore.new.Counts := ⟨by decide, fun _ _ h => nomatch h⟩
  have hnumbered : Along step Numbered (start .new none []) lateRecords := by decide +kernel
  have hok : Along step Orderly (start .new none []) lateRecords := by decide +kernel
  refine ⟨_, rfl, rfl, compaction_among_writes Msgpack.delimited_codec hcounts hnumbered hok rfl
    rfl rfl (Msgpack.delimited_codec.faithful rfl) ?_⟩
  change ∀ r ∈ [_, _], _
  simp only [forall_mem_cons, not_mem_nil, false_imp_iff, implies_true, and_true]
  exact ⟨Msgpack.delimited_codec.faithful rfl, Msgpack.delimited_codec.faithful rfl⟩

/-- A record is appended after the entries were taken, and truncated with the old log. -/
theorem truncated_record_is_lost :
    (run step (start .new none []) [.entries .sorted, .update (setMutation "k" "x") false,
        .append 0, .rename, .truncate]).map (fun w =>
          (((w.disk Msgpack.codec).restart Msgpack.codec Journal.noFloats).entries.keys,
            w.store.entries.keys, w.pending.length)) = some ([], ["k"], 0) := by
  decide +kernel

end Writers

end Sodp.GoServer
