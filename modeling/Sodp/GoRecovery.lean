import Sodp.GoWal
import Sodp.VersionedLog

/-!
# Restarts of the Go server

The files of `persist.go` and what `LoadAll` makes of them. A crash in a compaction leaves the files
as they are at that point. For each key, `LoadAll` replays a log of versioned changes, and records
can be replayed on top of a snapshot that already contains them.

`LoadEntry` raises the version counter and `LoadDelete` does not. So the counter falls back if the
newest version belongs to a deletion.
-/

namespace Sodp.GoServer
open ByteReader VersionedLog Transition OrderedMap List Option GoServer.StateStore

/-! ### Loading -/

variable {s : StateStore} {key : String}

namespace StateStore

def receive (s : StateStore) : StoreCall → StateStore
  | .mutate m => (m.run s).1
  | .loadEntry key version value => s.loadEntry key version value
  | .loadDelete key version => s.loadDelete key version
  | .applyClusterDelta entry => (s.applyClusterDelta entry).1

def stored (s : StateStore) (key : String) : Option (ℕ × GoValue) :=
  (s.entries.get? key).map fun e => (e.version, e.value)

theorem entries_eq_of_stored {t : StateStore} (h : ∀ key, s.stored key = t.stored key) :
    s.entries = t.entries := by
  refine ext_get? fun key => ?_
  have hinj : Function.Injective fun e : StateEntry => (e.version, e.value) := by
    rintro ⟨v, n⟩ ⟨w, m⟩ heq
    cases heq
    rfl
  exact map_injective hinj (h key)

theorem get_of_stored :
    (s.get key).2 = ((s.stored key).map Prod.fst).getD 0 := by
  rw [get, stored]
  cases s.entries.get? key with
  | none | some e => rfl

theorem stored_loadEntry (s : StateStore) (key : String) (version : ℕ) (value : GoValue)
    (other : String) : (s.loadEntry key version value).stored other =
      if other = key then load (s.stored key) (.set version value) else s.stored other := by
  have hload : (s.loadEntry key version value).entries =
      if (s.get key).2 < version then s.entries.insert key ⟨value, version⟩ else s.entries := by
    rw [loadEntry]
    split_ifs <;> rfl
  rw [stored, hload, load, ← get_of_stored]
  split_ifs with hlt hother hother
  · rw [hother, get?_insert_self]
    rfl
  · rw [get?_insert_of_ne _ hother]
    rfl
  · rw [hother]
    rfl
  · rfl

theorem stored_loadDelete (s : StateStore) (key : String) (version : ℕ) (other : String) :
    (s.loadDelete key version).stored other =
      if other = key then load (s.stored key) (.delete version) else s.stored other := by
  rw [loadDelete]
  split_ifs with hother
  · subst hother
    cases hkey : s.entries.get? other with
    | none => simp [stored, hkey, load]
    | some =>
      dsimp only
      rw [stored, stored, hkey, map_some, load_delete]
      split_ifs
      · rw [get?_erase_self]
        rfl
      · rw [hkey]
        rfl
  · cases s.entries.get? key with
    | none => rfl
    | some =>
      dsimp only
      split_ifs
      · rw [stored, get?_erase_of_ne _ hother]
        rfl
      · rfl

end StateStore

def StoreCall.isLoad : StoreCall → Bool
  | .loadEntry .. | .loadDelete .. => true
  | _ => false

def StoreCall.change? (key : String) : StoreCall → Option (VersionedLog.Change GoValue)
  | .loadEntry k version value => if k = key then some (.set version value) else none
  | .loadDelete k version => if k = key then some (.delete version) else none
  | _ => none

theorem stored_foldl_receive {calls : List StoreCall} (h : ∀ call ∈ calls, call.isLoad = true)
    (s : StateStore) (key : String) : (calls.foldl StateStore.receive s).stored key =
      replay (s.stored key) (calls.filterMap (StoreCall.change? key)) := by
  induction calls generalizing s with
  | nil => rfl
  | cons call calls ih =>
    obtain ⟨hcall, hcalls⟩ := forall_mem_cons.mp h
    rw [foldl_cons, ih hcalls]
    cases call with
    | mutate m | applyClusterDelta entry => cases hcall
    | loadEntry k version value | loadDelete k version =>
      simp only [StateStore.receive, stored_loadEntry, stored_loadDelete, filterMap_cons,
        StoreCall.change?, eq_comm (a := key)]
      split_ifs with hk
      · rw [hk]
        rfl
      · rfl

theorem le_global_foldl_receive {calls : List StoreCall} (h : ∀ call ∈ calls, call.isLoad = true)
    (s : StateStore) {n : ℕ} : (calls.foldl StateStore.receive s).global ≤ n ↔
      s.global ≤ n ∧ ∀ key version value, .loadEntry key version value ∈ calls → version ≤ n := by
  induction calls generalizing s with
  | nil => simp
  | cons call calls ih =>
    obtain ⟨hcall, hcalls⟩ := forall_mem_cons.mp h
    rw [foldl_cons, ih hcalls]
    cases call with
    | mutate m | applyClusterDelta entry => cases hcall
    | loadEntry k version value =>
      have hglobal : (s.receive (.loadEntry k version value)).global = max s.global version := by
        rw [StateStore.receive, StateStore.loadEntry]
        split_ifs <;> rfl
      simp only [hglobal, max_le_iff, and_assoc, mem_cons, or_imp, forall_and]
      refine and_congr_right fun _ => and_congr_left fun _ =>
        ⟨fun hv key v x heq => ?_, fun hall => ?_⟩
      · cases heq
        exact hv
      · exact hall k version value rfl
    | loadDelete k version =>
      have hglobal : (s.receive (.loadDelete k version)).global = s.global := by
        rw [StateStore.receive, StateStore.loadDelete]
        split
        · rfl
        · split_ifs <;> rfl
      rw [hglobal]
      refine and_congr_right fun _ => forall₃_congr fun key v x => ?_
      rw [mem_cons, or_iff_right (by simp)]

/-! ### The files -/

structure Disk where
  snap : Option Bytes
  tmp : Option Bytes
  wal : Bytes

/-- `Entries`, in the order in which the map is visited. -/
def StateStore.listEntries (s : StateStore) (range : KeyOrder String) :
    List (String × StateEntry) :=
  (range.elems s.entries.keys).map fun k => (k.1, s.entries.val k)

def flatten (entries : List (String × StateEntry)) : List GoValue :=
  entries.flatMap fun e => [.string e.1, WalRecord.uint64 (.ofNat e.2.version), e.2.value]

inductive CompactPoint where
  | started
  | writing (n : ℕ)
  | written
  | renamed
  | truncated

def Disk.compact (d : Disk) (data : Bytes) : CompactPoint → Disk
  | .started => d
  | .writing n => { d with tmp := some (data.take n) }
  | .written => { d with tmp := some data }
  | .renamed => { d with snap := some data, tmp := none }
  | .truncated => ⟨some data, none, []⟩

variable {rs : List WalRecord} {d : Disk}

section Files
variable (codec : Codec (List GoValue)) (c : Conversions)

def Disk.append (d : Disk) (r : WalRecord) : Disk :=
  { d with wal := d.wal ++ codec.encode r.fields }

def Disk.calls (d : Disk) : List StoreCall :=
  loadAll codec c (d.snap.bind fun data => (codec.decode data).map Prod.fst) d.wal

def Disk.restart (d : Disk) : StateStore := (d.calls codec c).foldl StateStore.receive .new

def Disk.changes (d : Disk) (key : String) : List (VersionedLog.Change GoValue) :=
  (d.calls codec c).filterMap (StoreCall.change? key)

variable {codec c}

section
variable {P : StoreCall → Prop}
  (hset : ∀ key version value, key ≠ "" → P (.loadEntry key version value))
include hset

theorem forall_snapshotCalls (flat : List GoValue) : ∀ call ∈ snapshotCalls c flat, P call := by
  fun_induction snapshotCalls c flat with
  | case1 key version value flat rest hkey ih => exact ih
  | case2 key version value flat rest hkey ih =>
    exact forall_mem_cons.mpr ⟨hset _ _ _ hkey, ih⟩
  | case3 => exact fun call hcall => absurd hcall not_mem_nil

theorem forall_calls (hdelete : ∀ key version, key ≠ "" → P (.loadDelete key version)) (d : Disk) :
    ∀ call ∈ d.calls codec c, P call := by
  intro call hcall
  rcases mem_append.mp hcall with hsnap | hwal
  · split at hsnap
    · split_ifs at hsnap
      · exact forall_snapshotCalls hset _ call hsnap
      · exact absurd hsnap not_mem_nil
    · exact absurd hsnap not_mem_nil
  · obtain ⟨e, -, he⟩ := mem_filterMap.mp hwal
    rw [loadRecord] at he
    dsimp only at he
    split_ifs at he with hlen hkey
    · obtain ⟨-, -, rfl⟩ := map_eq_some_iff.mp he
      exact hset _ _ _ hkey
    · cases he
      exact hdelete _ _ hkey

end

theorem isLoad_calls (d : Disk) : ∀ call ∈ d.calls codec c, call.isLoad = true :=
  forall_calls (fun _ _ _ _ => rfl) (fun _ _ _ => rfl) d

theorem stored_restart (d : Disk) (key : String) :
    (d.restart codec c).stored key = replay none (d.changes codec c key) :=
  stored_foldl_receive (isLoad_calls d) .new key

theorem filterMap_readAll (h : codec.Delimited) (hrs : ∀ r ∈ rs, codec.Faithful r.fields) :
    (codec.readAll 0 (codec.encodeAll (rs.map WalRecord.fields))).filterMap
      (fun e => loadRecord c e.2) = rs.filterMap fun r => loadRecord c r.fields := by
  have hread := h.readAll_encodeAll (forall_mem_map.mpr hrs) [] 0
  rw [append_nil, Codec.readAll_none h.atEnd, append_nil] at hread
  change (codec.readAll 0 _).filterMap (loadRecord c ∘ Prod.snd) = _
  rw [hread, ← filterMap_map, Codec.map_snd_placed, filterMap_map]
  rfl

theorem calls_of_records (h : codec.Delimited)
    (hwal : d.wal = codec.encodeAll (rs.map WalRecord.fields))
    (hrs : ∀ r ∈ rs, r.key ≠ "" ∧ codec.Faithful r.fields) :
    d.calls codec c = Disk.calls codec c { d with wal := [] } ++ rs.map WalRecord.call := by
  have hrecords : (rs.filterMap fun r => loadRecord c r.fields) = rs.map WalRecord.call := by
    rw [← filterMap_eq_map]
    exact filterMap_congr fun r hr => loadRecord_fields c (hrs r hr).1
  unfold Disk.calls loadAll
  rw [hwal, filterMap_readAll h fun r hr => (hrs r hr).2, hrecords, Codec.readAll_none h.atEnd,
    filterMap_nil, append_nil]

variable {entries : List (String × StateEntry)}

theorem snapshotCalls_flatten
    (hentries : ∀ e ∈ entries, e.1 ≠ "" ∧ e.2.version < 2 ^ 64) :
    snapshotCalls c (flatten entries) =
      entries.map fun e => .loadEntry e.1 e.2.version e.2.value := by
  induction entries with
  | nil => rfl
  | cons e entries ih =>
    obtain ⟨⟨hkey, hversion⟩, hentries⟩ := forall_mem_cons.mp hentries
    change snapshotCalls c (.string e.1 :: WalRecord.uint64 (.ofNat e.2.version) :: e.2.value ::
      flatten entries) = _
    have hnat : (UInt64.ofNat e.2.version).toNat = e.2.version := by
      rw [UInt64.toNat_ofNat', Nat.mod_eq_of_lt hversion]
    have hstring : asString (some (.string e.1)) = e.1 := rfl
    rw [snapshotCalls, hstring, if_neg hkey, toUint64Any_uint64, hnat, ih hentries, map_cons]

theorem length_flatten (entries : List (String × StateEntry)) :
    (flatten entries).length % 3 = 0 := by
  induction entries with
  | nil => rfl
  | cons e entries =>
    change ((flatten entries).length + 1 + 1 + 1) % 3 = 0
    omega

theorem calls_of_snapshot (h : codec.Delimited) (hfaithful : codec.Faithful (flatten entries))
    (hentries : ∀ e ∈ entries, e.1 ≠ "" ∧ e.2.version < 2 ^ 64) (tmp : Option Bytes) :
    Disk.calls codec c ⟨some (codec.encode (flatten entries)), tmp, []⟩ =
      entries.map fun e => .loadEntry e.1 e.2.version e.2.value := by
  have hdecode : codec.decode (codec.encode (flatten entries)) = some (flatten entries, []) := by
    have := hfaithful []
    rwa [append_nil] at this
  rw [Disk.calls, bind_some, hdecode, map_some, loadAll]
  rw [if_pos (length_flatten entries), snapshotCalls_flatten hentries,
    Codec.readAll_none h.atEnd, filterMap_nil, append_nil]

theorem set_mem_changes {version : ℕ} {value : GoValue} :
    .set version value ∈ d.changes codec c key ↔
      .loadEntry key version value ∈ d.calls codec c := by
  rw [Disk.changes, mem_filterMap]
  constructor
  · rintro ⟨call, hmem, hcall⟩
    cases call with
    | loadEntry =>
      rw [StoreCall.change?] at hcall
      split_ifs at hcall with hk
      cases hcall
      exact hk ▸ hmem
    | loadDelete =>
      rw [StoreCall.change?] at hcall
      split_ifs at hcall
      cases hcall
    | mutate m | applyClusterDelta entry => cases hcall
  · intro hmem
    exact ⟨_, hmem, if_pos rfl⟩

theorem changes_empty (d : Disk) : d.changes codec c "" = [] :=
  filterMap_eq_nil_iff.mpr
    (forall_calls (fun _ _ _ hkey => if_neg hkey) (fun _ _ hkey => if_neg hkey) d)

end Files

/-! ### Files that say the same as the store -/

namespace StateStore
variable {s : StateStore} {range : KeyOrder String}

theorem mem_listEntries {e : StateEntry} :
    (key, e) ∈ s.listEntries range ↔ s.entries.get? key = some e := by
  rw [listEntries, List.mem_map, OrderedMap.get?_eq_some_iff]
  constructor
  · rintro ⟨k, -, hk⟩
    cases hk
    exact ⟨k.2, rfl⟩
  · rintro ⟨hkey, rfl⟩
    exact ⟨⟨key, hkey⟩, range.mem_elems _, rfl⟩

theorem nodup_listEntries (s : StateStore) (range : KeyOrder String) :
    ((s.listEntries range).map Prod.fst).Nodup := by
  have hkeys : (s.listEntries range).map Prod.fst = range.order s.entries.keys := by
    rw [listEntries, KeyOrder.elems, List.map_map, List.map_map]
    exact attach_map_subtype_val _
  rw [hkeys, (range.perm _).nodup_iff]
  exact s.entries.sorted.imp fun h => h.ne

theorem changes_listEntries (s : StateStore) (range : KeyOrder String) (key : String) :
    ((s.listEntries range).map fun e => StoreCall.loadEntry e.1 e.2.version e.2.value).filterMap
      (StoreCall.change? key) = snapshot (s.stored key) := by
  have hnone : ∀ l : List (String × StateEntry), key ∉ l.map Prod.fst →
      (l.map fun e => StoreCall.loadEntry e.1 e.2.version e.2.value).filterMap
        (StoreCall.change? key) = [] := by
    intro l hl
    rw [filterMap_eq_nil_iff]
    intro call hcall
    obtain ⟨e, he, rfl⟩ := mem_map.mp hcall
    exact if_neg fun hk => hl (mem_map.mpr ⟨e, he, hk⟩)
  rw [stored]
  cases hget : s.entries.get? key with
  | none =>
    refine hnone _ fun hmem => ?_
    obtain ⟨⟨k, e⟩, he, rfl⟩ := mem_map.mp hmem
    rw [mem_listEntries, hget] at he
    cases he
  | some e =>
    have hnodup := nodup_listEntries s range
    have hmem : (key, e) ∈ s.listEntries range := mem_listEntries.mpr hget
    obtain ⟨before, after, heq⟩ := append_of_mem hmem
    rw [heq, map_append, map_cons, nodup_append, nodup_cons] at hnodup
    have hbefore : key ∉ before.map Prod.fst := fun hmem =>
      hnodup.2.2 key hmem key mem_cons_self rfl
    rw [heq, map_append, filterMap_append, map_cons, filterMap_cons,
      hnone before hbefore, hnone after hnodup.2.1.1, StoreCall.change?, if_pos rfl]
    rfl

theorem stored_record (s : StateStore) (key : String) (value : Option GoValue)
    (ops : List DeltaOp) (other : String) : (s.record key value ops).1.stored other =
      if other = key then value.map fun v => (s.nextVersion, v) else s.stored other := by
  simp only [stored, record, appendDelta]
  cases value with
  | none =>
    split_ifs with h
    · rw [h, get?_erase_self]
      rfl
    · rw [get?_erase_of_ne _ h]
  | some =>
    split_ifs with h
    · rw [h, get?_insert_self]
      rfl
    · rw [get?_insert_of_ne _ h]

end StateStore

/-- The record that `syncMutation` writes about a change, with the value that is then stored. -/
def Mutation.walRecord (m : Mutation) (s : StateStore) (version : ℕ) : WalRecord :=
  match m with
  | .delete key => .delete key (.ofNat version)
  | m => .set m.key (.ofNat version) (s.get m.key).1

def WalRecord.change : WalRecord → VersionedLog.Change GoValue
  | .set _ version value => .set version.toNat value
  | .delete _ version => .delete version.toNat

theorem WalRecord.change?_call (r : WalRecord) (key : String) :
    r.call.change? key = if r.key = key then some r.change else none := by
  cases r with
  | set k version value | delete k version => rfl

def changesOf (key : String) (rs : List WalRecord) : List (VersionedLog.Change GoValue) :=
  rs.filterMap fun r => if r.key = key then some r.change else none

theorem changesOf_cons (key : String) (r : WalRecord) (rs : List WalRecord) :
    changesOf key (r :: rs) =
      if r.key = key then r.change :: changesOf key rs else changesOf key rs := by
  rw [changesOf, filterMap_cons]
  split_ifs <;> rfl

theorem mem_changesOf {c : VersionedLog.Change GoValue} :
    c ∈ changesOf key rs ↔ ∃ r ∈ rs, r.key = key ∧ r.change = c := by
  rw [changesOf, mem_filterMap]
  refine exists_congr fun r => and_congr_right fun _ => ?_
  split_ifs with hkey <;> simp [hkey]

theorem changesOf_append (key : String) (rs qs : List WalRecord) :
    changesOf key (rs ++ qs) = changesOf key rs ++ changesOf key qs := filterMap_append

theorem filterMap_call (key : String) (rs : List WalRecord) :
    (rs.map WalRecord.call).filterMap (StoreCall.change? key) = changesOf key rs := by
  rw [filterMap_map, changesOf]
  exact filterMap_congr fun r _ => r.change?_call key

theorem changes_of_files {codec : Codec (List GoValue)} {c : Conversions} (h : codec.Delimited)
    {range : KeyOrder String}
    (hfaithful : codec.Faithful (flatten (s.listEntries range)))
    (hlisted : ∀ e ∈ s.listEntries range, e.1 ≠ "" ∧ e.2.version < 2 ^ 64)
    (hrs : ∀ r ∈ rs, r.key ≠ "" ∧ codec.Faithful r.fields) (tmp : Option Bytes) (key : String) :
    Disk.changes codec c ⟨some (codec.encode (flatten (s.listEntries range))), tmp,
      codec.encodeAll (rs.map WalRecord.fields)⟩ key =
        snapshot (s.stored key) ++ changesOf key rs := by
  rw [Disk.changes, calls_of_records h rfl hrs, calls_of_snapshot h hfaithful hlisted,
    filterMap_append, changes_listEntries, filterMap_call]

structure Mutation.Records (m : Mutation) (s t : StateStore) (r : WalRecord) : Prop where
  key : r.key = m.key
  version : r.change.version = s.nextVersion
  global : t.global = s.nextVersion
  stored : ∀ key, t.stored key = if key = m.key then r.change.entry? else s.stored key

theorem Mutation.walRecord_record {m : Mutation} {value : Option GoValue}
    {ops : List DeltaOp} (h : value = none ↔ ∃ key, m = .delete key) (version : ℕ) :
    m.walRecord (s.record m.key value ops).1 version = match value with
      | none => .delete m.key (.ofNat version)
      | some v => .set m.key (.ofNat version) v := by
  cases value with
  | none =>
    obtain ⟨key, rfl⟩ := h.mp rfl
    rfl
  | some v =>
    have hget : ((s.record m.key (some v) ops).1.get m.key).1 = v := by
      have hentry : (s.record m.key (some v) ops).1.entries.get? m.key =
          some ⟨v, s.nextVersion⟩ := get?_insert_self _ _ _
      rw [StateStore.get, hentry]
    cases m with
    | delete key => exact absurd (h.mpr ⟨key, rfl⟩) (some_ne_none v)
    | apply => exact congrArg _ hget
    | append => exact congrArg _ hget

theorem Mutation.run_records (s : StateStore) (m : Mutation) :
    m.run s = (s, none) ∨ ∃ t ops, m.run s = (t, some ⟨m.key, s.nextVersion, ops⟩) ∧
      m.Records s t (m.walRecord t s.nextVersion) := by
  rcases m.run_eq s with h | ⟨value, ops, h, hdelete⟩
  · exact .inl h
  · have hlt : s.nextVersion < 2 ^ 64 := Nat.mod_lt _ (by norm_num)
    have hnat : (UInt64.ofNat s.nextVersion).toNat = s.nextVersion := by
      rw [UInt64.toNat_ofNat', Nat.mod_eq_of_lt hlt]
    refine .inr ⟨(s.record m.key value ops).1, ops, h, ?_⟩
    rw [walRecord_record hdelete]
    refine ⟨?_, ?_, rfl, fun key => ?_⟩
    · cases value <;> rfl
    · cases value with
      | none | some v => exact hnat
    · rw [stored_record]
      cases value with
      | none => rfl
      | some v =>
        refine if_congr Iff.rfl ?_ rfl
        change some (s.nextVersion, v) = some ((UInt64.ofNat s.nextVersion).toNat, v)
        rw [hnat]

/-! ### The server and its files -/

/-- `issued` has the versions that were handed out, in order. -/
structure Journal where
  store : StateStore
  disk : Disk
  issued : List ℕ

inductive JournalEvent where
  | mutate (m : Mutation)
  | compact (range : KeyOrder String)
  | crash (range : KeyOrder String) (point : CompactPoint)
  | restart

namespace Journal

def start : Journal := ⟨.new, ⟨none, none, []⟩, []⟩

section Steps
variable (codec : Codec (List GoValue)) (c : Conversions)

def compacting (j : Journal) (range : KeyOrder String) (point : CompactPoint) : Disk :=
  j.disk.compact (codec.encode (flatten (j.store.listEntries range))) point

def next (j : Journal) : JournalEvent → Journal
  | .mutate m =>
    match m.run j.store with
    | (store, none) => { j with store := store }
    | (store, some delta) =>
      ⟨store, j.disk.append codec (m.walRecord store delta.version), j.issued ++ [delta.version]⟩
  | .compact range => { j with disk := j.compacting codec range .truncated }
  | .crash range point =>
    { j with
      store := (j.compacting codec range point).restart codec c
      disk := j.compacting codec range point }
  | .restart => { j with store := j.disk.restart codec c }

def step (j : Journal) (e : JournalEvent) : Option Journal := some (j.next codec c e)

/-- The key is not empty, the counter has a version left, and what is written can be read back. -/
def Legible (j : Journal) : JournalEvent → Prop
  | .mutate m => m.key ≠ "" ∧ j.store.global + 1 < 2 ^ 64 ∧
    codec.Faithful (m.walRecord (m.run j.store).1 j.store.nextVersion).fields
  | .compact range | .crash range _ => codec.Faithful (flatten (j.store.listEntries range))
  | .restart => True

end Steps

end Journal

structure Saved (codec : Codec (List GoValue)) (c : Conversions) (s : StateStore) (d : Disk) :
    Prop where
  records : ∃ rs : List WalRecord, d.wal = codec.encodeAll (rs.map WalRecord.fields) ∧
    ∀ r ∈ rs, r.key ≠ "" ∧ codec.Faithful r.fields
  held : ∀ key, s.stored key = replay none (d.changes codec c key)
  le : ∀ key version value, .loadEntry key version value ∈ d.calls codec c → version ≤ s.global
  one : ∀ key, OneValue (d.changes codec c key)
  room : s.global < 2 ^ 64

section Saved
variable {codec : Codec (List GoValue)} {c : Conversions} {s t : StateStore} {d : Disk}

theorem Saved.entries (h : Saved codec c s d) : (d.restart codec c).entries = s.entries :=
  entries_eq_of_stored fun key => (stored_restart d key).trans (h.held key).symm

variable {key : String} {range : KeyOrder String} {e : ℕ × GoValue}

section
variable (h : Saved codec c s d)
include h

theorem Saved.mem_calls (he : s.stored key = some e) :
    .loadEntry key e.1 e.2 ∈ d.calls codec c := by
  rw [h.held] at he
  exact set_mem_changes.mp (mem_of_mem_live (leads_of_replay he).mem)

theorem Saved.listed (range : KeyOrder String) :
    ∀ e ∈ s.listEntries range, e.1 ≠ "" ∧ e.2.version < 2 ^ 64 := by
  rintro ⟨key, e⟩ he
  have hstored : s.stored key = some (e.version, e.value) := by
    rw [StateStore.stored, mem_listEntries.mp he]
    rfl
  refine ⟨?_, (h.le _ _ _ (h.mem_calls hstored)).trans_lt h.room⟩
  rintro rfl
  rw [h.held, changes_empty] at hstored
  cases hstored

theorem Saved.lt_nextVersion (hroom : s.global + 1 < 2 ^ 64) {version : ℕ}
    {value : GoValue} (hmem : .set version value ∈ d.changes codec c key) :
    version < s.nextVersion := by
  have hnext : s.nextVersion = s.global + 1 := Nat.mod_eq_of_lt hroom
  have := h.le key version value (set_mem_changes.mp hmem)
  omega

theorem Saved.stored_lt (hroom : s.global + 1 < 2 ^ 64) (key : String) :
    ((s.stored key).map Prod.fst).getD 0 < s.nextVersion := by
  cases hstored : s.stored key with
  | none =>
    rw [StateStore.nextVersion, Nat.mod_eq_of_lt hroom]
    exact Nat.succ_pos _
  | some => exact h.lt_nextVersion hroom (set_mem_changes.mpr (h.mem_calls hstored))

end

theorem Saved.append (hcodec : codec.Delimited) (h : Saved codec c s d) {m : Mutation}
    {r : WalRecord} (hrecords : m.Records s t r) (hkey : m.key ≠ "")
    (hroom : s.global + 1 < 2 ^ 64) (hfaithful : codec.Faithful r.fields) :
    Saved codec c t (d.append codec r) := by
  obtain ⟨rs, hwal, hrs⟩ := h.records
  have hwal' : (d.append codec r).wal = codec.encodeAll ((rs ++ [r]).map WalRecord.fields) := by
    rw [Disk.append, hwal, Codec.encodeAll, Codec.encodeAll, map_append, flatMap_append]
    simp
  have hrs' : ∀ q ∈ rs ++ [r], q.key ≠ "" ∧ codec.Faithful q.fields := by
    rw [forall_mem_append]
    refine ⟨hrs, fun q hq => ?_⟩
    rw [mem_singleton.mp hq]
    exact ⟨hrecords.key ▸ hkey, hfaithful⟩
  have hcalls : (d.append codec r).calls codec c = d.calls codec c ++ [r.call] := by
    rw [calls_of_records hcodec hwal' hrs', calls_of_records hcodec hwal hrs, map_append,
      append_assoc]
    rfl
  have hchanges : ∀ key, (d.append codec r).changes codec c key =
      d.changes codec c key ++ if key = m.key then [r.change] else [] := by
    intro key
    rw [Disk.changes, hcalls, filterMap_append, Disk.changes]
    congr 1
    rw [filterMap_cons, filterMap_nil, WalRecord.change?_call, hrecords.key]
    by_cases hk : key = m.key
    · rw [if_pos hk, if_pos hk.symm]
    · rw [if_neg hk, if_neg (Ne.symm hk)]
  refine ⟨⟨rs ++ [r], hwal', hrs'⟩, fun key => ?_, fun key version value hmem => ?_,
    fun key => ?_, ?_⟩
  · rw [hrecords.stored, hchanges]
    split_ifs with hk
    · subst hk
      rw [replay_append, ← h.held]
      exact (load_of_newer (hrecords.version ▸ h.stored_lt hroom m.key)).symm
    · rw [append_nil, h.held]
  · rw [← set_mem_changes, hchanges] at hmem
    rw [hrecords.global]
    rcases mem_append.mp hmem with hmem | hmem
    · exact (h.lt_nextVersion hroom hmem).le
    · split_ifs at hmem
      · rw [← hrecords.version, ← mem_singleton.mp hmem]
        rfl
      · exact absurd hmem not_mem_nil
  · rw [hchanges]
    split_ifs
    · refine (h.one key).concat fun version value hmem => ?_
      rw [hrecords.version]
      exact h.lt_nextVersion hroom hmem
    · rw [append_nil]
      exact h.one key
  · rw [hrecords.global]
    exact Nat.mod_lt _ (by norm_num)

theorem Saved.of_changes (h : Saved codec c s d) {d' : Disk}
    (hrecords : ∃ rs : List WalRecord, d'.wal = codec.encodeAll (rs.map WalRecord.fields) ∧
      ∀ r ∈ rs, r.key ≠ "" ∧ codec.Faithful r.fields)
    (hheld : ∀ key, replay none (d'.changes codec c key) = replay none (d.changes codec c key))
    (hsub : ∀ key (e : ℕ × GoValue), .set e.1 e.2 ∈ d'.changes codec c key →
      .set e.1 e.2 ∈ d.changes codec c key) : Saved codec c s d' := by
  refine ⟨hrecords, fun key => (h.held key).trans (hheld key).symm,
    fun key version value hmem => ?_, fun key version v w hv hw => ?_, h.room⟩
  · rw [← set_mem_changes] at hmem
    exact h.le key version value (set_mem_changes.mp (hsub key (version, value) hmem))
  · exact h.one key version v w (hsub key (version, v) hv) (hsub key (version, w) hw)

theorem Saved.mem_changes_of_snapshot (h : Saved codec c s d)
    (he : .set e.1 e.2 ∈ snapshot (s.stored key)) : .set e.1 e.2 ∈ d.changes codec c key :=
  set_mem_changes.mpr (h.mem_calls (set_mem_snapshot_iff.mp he))

theorem Saved.renamed (hcodec : codec.Delimited) (h : Saved codec c s d)
    (hfaithful : codec.Faithful (flatten (s.listEntries range))) (tmp : Option Bytes) :
    Saved codec c s ⟨some (codec.encode (flatten (s.listEntries range))), tmp, d.wal⟩ := by
  obtain ⟨rs, hwal, hrs⟩ := h.records
  have hsplit : ∀ key, d.changes codec c key =
      Disk.changes codec c { d with wal := [] } key ++ changesOf key rs := by
    intro key
    rw [Disk.changes, calls_of_records hcodec hwal hrs, filterMap_append, filterMap_call]
    rfl
  have hchanges := changes_of_files hcodec (c := c) hfaithful (h.listed range) hrs tmp
  rw [← hwal] at hchanges
  refine h.of_changes ⟨rs, hwal, hrs⟩ (fun key => ?_) fun key e hmem => ?_
  · have hone := h.one key
    rw [hsplit] at hone
    rw [hchanges, h.held, hsplit]
    exact replay_snapshot_append hone
  -- the snapshot restates what was on disk before
  · rw [hchanges] at hmem
    rcases mem_append.mp hmem with hmem | hmem
    · exact h.mem_changes_of_snapshot hmem
    · rw [hsplit]
      exact mem_append_right _ hmem

theorem Saved.truncated (hcodec : codec.Delimited) (h : Saved codec c s d)
    (hfaithful : codec.Faithful (flatten (s.listEntries range))) (tmp : Option Bytes) :
    Saved codec c s ⟨some (codec.encode (flatten (s.listEntries range))), tmp, []⟩ := by
  have hcalls := calls_of_snapshot hcodec (c := c) hfaithful (h.listed range) tmp
  have hchanges : ∀ key, Disk.changes codec c
      ⟨some (codec.encode (flatten (s.listEntries range))), tmp, []⟩ key =
        snapshot (s.stored key) := by
    intro key
    rw [Disk.changes, hcalls, changes_listEntries]
  refine h.of_changes ⟨[], rfl, nofun⟩ (fun key => ?_) fun key e hmem => ?_
  · rw [hchanges, h.held]
    exact replay_snapshot
  · rw [hchanges] at hmem
    exact h.mem_changes_of_snapshot hmem

theorem Saved.compact (hcodec : codec.Delimited) (h : Saved codec c s d)
    (hfaithful : codec.Faithful (flatten (s.listEntries range))) (point : CompactPoint) :
    Saved codec c s (d.compact (codec.encode (flatten (s.listEntries range))) point) := by
  cases point with
  | started => exact h
  | writing n | written => exact ⟨h.records, h.held, h.le, h.one, h.room⟩
  | renamed => exact h.renamed hcodec hfaithful none
  | truncated => exact h.truncated hcodec hfaithful none

theorem Saved.restart (h : Saved codec c s d) : Saved codec c (d.restart codec c) d := by
  have hglobal : ∀ n, (d.restart codec c).global ≤ n ↔
      ∀ key version value, .loadEntry key version value ∈ d.calls codec c → version ≤ n := by
    intro n
    rw [Disk.restart, le_global_foldl_receive (isLoad_calls d)]
    exact and_iff_right (Nat.zero_le n)
  refine ⟨h.records, stored_restart d, (hglobal _).mp le_rfl, h.one, ?_⟩
  exact ((hglobal _).mpr h.le).trans_lt h.room

end Saved

namespace Journal

section Runs
variable {codec : Codec (List GoValue)} {c : Conversions} {j k : Journal}

theorem saved_start : Saved codec c start.store start.disk where
  records := ⟨[], rfl, nofun⟩
  held := fun _ => rfl
  le := fun _ _ _ hmem => absurd hmem not_mem_nil
  one := fun _ _ _ _ hmem => absurd hmem not_mem_nil
  room := by decide

theorem next_mutate (codec : Codec (List GoValue)) (c : Conversions) (j : Journal) (m : Mutation) :
    ((m.run j.store).1 = j.store ∧ j.next codec c (.mutate m) = j) ∨
      ∃ t, (m.run j.store).1 = t ∧ m.Records j.store t (m.walRecord t j.store.nextVersion) ∧
        j.next codec c (.mutate m) = ⟨t, j.disk.append codec (m.walRecord t j.store.nextVersion),
            j.issued ++ [j.store.nextVersion]⟩ := by
  rw [next]
  rcases m.run_records j.store with heq | ⟨t, _, heq, hrecords⟩
  · rw [heq]
    exact .inl ⟨rfl, rfl⟩
  · rw [heq]
    exact .inr ⟨t, rfl, hrecords, rfl⟩

theorem saved_next (hcodec : codec.Delimited) (h : Saved codec c j.store j.disk)
    {e : JournalEvent} (hok : j.Legible codec e) :
    Saved codec c (j.next codec c e).store (j.next codec c e).disk := by
  cases e with
  | mutate m =>
    obtain ⟨hkey, hroom, hfaithful⟩ := hok
    rcases next_mutate codec c j m with ⟨-, heq⟩ | ⟨t, ht, hrecords, heq⟩
    · rw [heq]
      exact h
    · rw [heq]
      rw [ht] at hfaithful
      exact h.append hcodec hrecords hkey hroom hfaithful
  | compact => exact h.compact hcodec hok .truncated
  | crash range point => exact (h.compact hcodec hok point).restart
  | restart => exact h.restart

variable {events : List JournalEvent}

theorem saved_run (hcodec : codec.Delimited)
    (hok : Along (step codec c) (Legible codec) start events)
    (hrun : run (step codec c) start events = some j) : Saved codec c j.store j.disk := by
  refine invariant_along (I := fun j : Journal => Saved codec c j.store j.disk) ?_ saved_start hok
    hrun
  intro j e k h hok hstep
  exact some.inj hstep ▸ saved_next hcodec h hok

/-- However far a compaction has come, a restart finds the entries of the store. -/
theorem crash_in_compaction_recovers (hcodec : codec.Delimited) {events : List JournalEvent}
    (hok : Along (step codec c) (Legible codec) start events)
    (hrun : run (step codec c) start events = some j) {range : KeyOrder String}
    (hfaithful : codec.Faithful (flatten (j.store.listEntries range))) (point : CompactPoint) :
    ((j.compacting codec range point).restart codec c).entries = j.store.entries :=
  ((saved_run hcodec hok hrun).compact hcodec hfaithful point).entries

/-! ### Versions across restarts -/

/-- The newest version is that of an entry. -/
def NewestStored (j : Journal) : Prop :=
  j.store.global = 0 ∨ ∃ key e, j.store.stored key = some e ∧ e.1 = j.store.global

def Anchored (j : Journal) : JournalEvent → Prop
  | .restart | .crash _ _ => j.NewestStored
  | _ => True

structure Increasing (j : Journal) : Prop where
  sorted : j.issued.Pairwise (· < ·)
  le : ∀ v ∈ j.issued, v ≤ j.store.global

theorem Increasing.of_restart (h : j.Increasing) (hsaved : Saved codec c j.store d)
    (hnewest : j.NewestStored) : Increasing ⟨d.restart codec c, d, j.issued⟩ := by
  refine ⟨h.sorted, fun v hv => (h.le v hv).trans ?_⟩
  rcases hnewest with hzero | ⟨key, e, he, hglobal⟩
  · rw [hzero]
    exact Nat.zero_le _
  · rw [← hglobal]
    exact hsaved.restart.le key e.1 e.2 (hsaved.mem_calls he)

theorem Increasing.next (hcodec : codec.Delimited) (hsaved : Saved codec c j.store j.disk)
    (h : j.Increasing) {e : JournalEvent} (hok : j.Legible codec e) (hanchored : j.Anchored e) :
    (j.next codec c e).Increasing := by
  cases e with
  | mutate m =>
    rcases next_mutate codec c j m with ⟨-, heq⟩ | ⟨t, -, hrecords, heq⟩
    · rw [heq]
      exact h
    · have hnext : j.store.nextVersion = j.store.global + 1 := Nat.mod_eq_of_lt hok.2.1
      have hlt : ∀ v ∈ j.issued, v < j.store.nextVersion := by
        intro v hv
        have := h.le v hv
        omega
      rw [heq]
      refine ⟨pairwise_append.mpr ⟨h.sorted, pairwise_singleton _ _, ?_⟩, ?_⟩
      · intro v hv w hw
        rw [mem_singleton.mp hw]
        exact hlt v hv
      · intro v hv
        rw [hrecords.global]
        rcases mem_append.mp hv with hv | hv
        · exact (hlt v hv).le
        · exact (mem_singleton.mp hv).le
  | compact => exact ⟨h.sorted, h.le⟩
  | crash range point => exact h.of_restart (hsaved.compact hcodec hok point) hanchored
  | restart => exact h.of_restart hsaved hanchored

theorem issued_run (hrun : run (step codec c) j events = some k) :
    j.issued <+: k.issued := by
  refine invariant (I := fun k : Journal => j.issued <+: k.issued) ?_ (prefix_refl _) hrun
  intro s e t h hstep
  cases hstep
  cases e with
  | mutate m =>
    rcases next_mutate codec c s m with ⟨-, heq⟩ | ⟨t, -, -, heq⟩
    · rw [heq]
      exact h
    · rw [heq]
      exact h.trans (prefix_append _ _)
  | compact range | crash range point | restart => exact h

/-- A version that is issued later is greater, whatever happens in between. -/
theorem versions_never_reissued (hcodec : codec.Delimited) {before after : List JournalEvent}
    (hok : Along (step codec c) (fun j e => j.Legible codec e ∧ j.Anchored e) start
      (before ++ after)) (hbefore : run (step codec c) start before = some j)
    (hafter : run (step codec c) j after = some k) :
    ∃ later, k.issued = j.issued ++ later ∧ ∀ v ∈ j.issued, ∀ w ∈ later, v < w := by
  have hrun : run (step codec c) start (before ++ after) = some k := by
    rw [run, foldlM_append]
    exact bind_eq_some_iff.mpr ⟨j, hbefore, hafter⟩
  have hinv : Saved codec c k.store k.disk ∧ k.Increasing := by
    refine invariant_along (I := fun k : Journal => Saved codec c k.store k.disk ∧ k.Increasing)
      ?_ ⟨saved_start, List.Pairwise.nil, fun _ hv => absurd hv not_mem_nil⟩ hok hrun
    intro s e t h hok hstep
    cases hstep
    exact ⟨saved_next hcodec h.1 hok.1, h.2.next hcodec h.1 hok.1 hok.2⟩
  obtain ⟨later, hlater⟩ := issued_run hafter
  refine ⟨later, hlater.symm, ?_⟩
  have hsorted := hinv.2.sorted
  rw [← hlater, pairwise_append] at hsorted
  exact hsorted.2.2

end Runs

end Journal

/-! ### Two histories -/

namespace Journal

def setEvent (key value : String) : JournalEvent :=
  .mutate (.apply (fun _ => .sorted) key (.string value))

def rewritten : List JournalEvent :=
  [setEvent "k" "x", setEvent "m" "y", .mutate (.delete "k"), .compact .sorted, setEvent "k" "z"]

def restarted : List JournalEvent := [.restart, setEvent "m" "x"]

def noFloats : Conversions := ⟨fun _ => 0, fun _ => 0⟩

theorem legible_rewritten :
    Along (step Msgpack.codec noFloats) (fun j e => j.Legible Msgpack.codec e ∧ j.Anchored e) start
      (rewritten ++ restarted) := by
  have hread : ∀ fields, Msgpack.codec.decode (Msgpack.codec.encode fields) = some (fields, []) →
      Msgpack.codec.Faithful fields := fun _ => Msgpack.delimited_codec.faithful
  exact ⟨⟨⟨by decide, by decide, hread _ rfl⟩, trivial⟩,
    ⟨⟨by decide, by decide, hread _ rfl⟩, trivial⟩, ⟨⟨by decide, by decide, hread _ rfl⟩, trivial⟩,
    ⟨hread _ rfl, trivial⟩, ⟨⟨by decide, by decide, hread _ rfl⟩, trivial⟩,
    ⟨trivial, .inr ⟨"k", _, rfl, rfl⟩⟩,
      ⟨⟨by decide, by decide +kernel, hread _ rfl⟩, trivial⟩, trivial⟩

theorem rewritten_crash_safe : ∃ j, run (step Msgpack.codec noFloats) start rewritten = some j ∧
      j.store.stored "k" = some (4, .string "z") ∧
      ((j.compacting Msgpack.codec .sorted .renamed).restart Msgpack.codec noFloats).entries =
        j.store.entries := by
  have hok := (legible_rewritten.append rfl).1.imp fun _ _ h => h.1
  exact ⟨_, rfl, rfl, crash_in_compaction_recovers Msgpack.delimited_codec hok rfl
    (Msgpack.delimited_codec.faithful rfl) .renamed⟩

theorem rewritten_versions_increase :
    ∃ j k, run (step Msgpack.codec noFloats) start rewritten = some j ∧
      run (step Msgpack.codec noFloats) j restarted = some k ∧ j.issued = [1, 2, 3, 4] ∧
      ∃ later, k.issued = j.issued ++ later ∧ ∀ v ∈ j.issued, ∀ w ∈ later, v < w :=
  ⟨_, _, rfl, rfl, rfl, versions_never_reissued Msgpack.delimited_codec legible_rewritten rfl rfl⟩

/-- Version 2 is that of a deletion, and the version after the restart. -/
theorem deletion_version_reissued : (run (step Msgpack.codec noFloats) start
      [setEvent "k" "x", .mutate (.delete "k"), .restart, setEvent "m" "y"]).map issued =
        some [1, 2, 2] := by
  decide +kernel

end Journal

end Sodp.GoServer
