import Sodp.GoStore
import Sodp.Transition

/-!
# Versions of a key in the Go store

A ledger keeps, for each key, the version of its latest change and every version pushed into its
ring. The freshness tests of `LoadEntry` and `ApplyClusterDelta` compare with the stored entry, and
a deletion takes that entry away, so that an older version passes the test.
-/

namespace Sodp.GoServer
open Transition Function OrderedMap List Option GoServer.StateStore

inductive StoreCall where
  | mutate (m : Mutation)
  | loadEntry (key : String) (version : ℕ) (value : GoValue)
  | loadDelete (key : String) (version : ℕ)
  | applyClusterDelta (entry : DeltaEntry)

structure Ledger where
  store : StateStore
  last : String → ℕ
  pushed : String → List ℕ

variable {store : StateStore}

namespace Ledger

def start : Ledger := ⟨.new, fun _ => 0, fun _ => []⟩

def pushes (l : Ledger) (store : StateStore) (entry : DeltaEntry) : Ledger where
  store := store
  last := update l.last entry.key entry.version
  pushed := update l.pushed entry.key (l.pushed entry.key ++ [entry.version])

def sets (l : Ledger) (store : StateStore) (key : String) (version : ℕ) : Ledger :=
  { l with store := store, last := update l.last key version }

def next (l : Ledger) : StoreCall → Ledger
  | .mutate m =>
    match m.run l.store with
    | (store, none) => { l with store := store }
    | (store, some entry) => l.pushes store entry
  | .loadEntry key version value =>
    if (l.store.get key).2 < version then l.sets (l.store.loadEntry key version value) key version
    else { l with store := l.store.loadEntry key version value }
  | .loadDelete key version =>
    if ∃ cur ∈ l.store.entries.get? key, cur.version ≤ version then
      l.sets (l.store.loadDelete key version) key version
    else { l with store := l.store.loadDelete key version }
  | .applyClusterDelta entry =>
    match l.store.applyClusterDelta entry with
    | (store, false) => { l with store := store }
    | (store, true) => l.pushes store entry

def step (l : Ledger) (c : StoreCall) : Option Ledger := some (l.next c)

/-- The counter has a version left, and nothing from before the deletion of a key comes in while
the key is absent. -/
def Fresh (l : Ledger) : StoreCall → Prop
  | .mutate _ => l.store.global + 1 < 2 ^ 64
  | .loadEntry key version _ =>
    l.store.entries.get? key = none → version = 0 ∨ l.last key ≤ version
  | .loadDelete _ _ => True
  | .applyClusterDelta entry =>
    l.store.entries.get? entry.key = none → entry.version = 0 ∨ l.last entry.key < entry.version

/-! ### What a step can do -/

def Passed (l : Ledger) (key : String) (r : ℕ) : Prop := r ≤ l.last key ∧ r ≤ l.store.global

structure Sound (l : Ledger) (key : String) : Prop where
  entry : ∀ cur ∈ l.store.entries.get? key, cur.version = l.last key ∧ l.Passed key cur.version
  sorted : (l.pushed key).Pairwise (· < ·)
  pushed : ∀ v ∈ l.pushed key, l.Passed key v
  ring : (l.store.ring key).entries.map DeltaEntry.version <:+ l.pushed key

/-- All that a call does to one key: nothing, a change that reaches the ring, or one that does not.
The version of a change is never behind a passed one. -/
inductive KeyMove (l m : Ledger) (key : String) : Prop where
  | none (hentry : m.store.entries.get? key = l.store.entries.get? key)
      (hring : m.store.ring key = l.store.ring key) (hlast : m.last key = l.last key)
      (hpushed : m.pushed key = l.pushed key)
  | push (entry : DeltaEntry) (hnew : ∀ r, l.Passed key r → r < entry.version)
      (hcounter : entry.version ≤ m.store.global)
      (hentry : ∀ cur ∈ m.store.entries.get? key, cur.version = entry.version)
      (hring : m.store.ring key = (l.store.ring key).push entry)
      (hlast : m.last key = entry.version)
      (hpushed : m.pushed key = l.pushed key ++ [entry.version])
  | set (version : ℕ) (hnew : ∀ r, l.Passed key r → r ≤ version)
      (hentry : ∀ cur ∈ m.store.entries.get? key, cur.version = version ∧ version ≤ m.store.global)
      (hring : m.store.ring key = l.store.ring key ∨ (m.store.ring key).entries = [])
      (hlast : m.last key = version) (hpushed : m.pushed key = l.pushed key)

section Move
variable {l m : Ledger} {key : String}

theorem Passed.move {r : ℕ} (hr : l.Passed key r) (hglobal : l.store.global ≤ m.store.global)
    (hmove : KeyMove l m key) : m.Passed key r := by
  refine ⟨?_, hr.2.trans hglobal⟩
  cases hmove with
  | none _ _ hlast => exact hlast ▸ hr.1
  | push entry hnew _ _ _ hlast => exact hlast ▸ (hnew r hr).le
  | set version hnew _ _ hlast => exact hlast ▸ hnew r hr

theorem suffix_push {r : RingLog} {vs : List ℕ} (h : r.entries.map DeltaEntry.version <:+ vs)
    (entry : DeltaEntry) :
    (r.push entry).entries.map DeltaEntry.version <:+ vs ++ [entry.version] := by
  have hkept : ∀ es : List DeltaEntry, es <:+ r.entries →
      (es ++ [entry]).map DeltaEntry.version <:+ vs ++ [entry.version] := by
    intro es hes
    obtain ⟨front, hfront⟩ := (hes.map DeltaEntry.version).trans h
    refine ⟨front, ?_⟩
    rw [map_append, map_singleton, ← append_assoc, hfront]
  rw [RingLog.entries_push]
  split_ifs
  · exact hkept _ (suffix_refl _)
  · exact hkept _ (tail_suffix _)

theorem Sound.move (hl : l.Sound key) (hglobal : l.store.global ≤ m.store.global)
    (hmove : KeyMove l m key) : m.Sound key := by
  have hpassed : ∀ r, l.Passed key r → m.Passed key r := fun r hr => hr.move hglobal hmove
  cases hmove with
  | none hentry hring hlast hpushed =>
    refine ⟨?_, ?_, ?_, ?_⟩
    · intro cur hcur
      obtain ⟨heq, hp⟩ := hl.entry cur (hentry ▸ hcur)
      exact ⟨hlast ▸ heq, hpassed _ hp⟩
    · exact hpushed ▸ hl.sorted
    · intro v hv
      exact hpassed v (hl.pushed v (hpushed ▸ hv))
    · rw [hring, hpushed]
      exact hl.ring
  | push entry hnew hcounter hentry hring hlast hpushed =>
    have hself : m.Passed key entry.version := ⟨hlast.ge, hcounter⟩
    refine ⟨?_, ?_, ?_, ?_⟩
    · intro cur hcur
      rw [hentry cur hcur]
      exact ⟨hlast.symm, hself⟩
    · rw [hpushed]
      refine pairwise_append.mpr ⟨hl.sorted, pairwise_singleton _ _, ?_⟩
      intro v hv w hw
      rw [mem_singleton.mp hw]
      exact hnew v (hl.pushed v hv)
    · intro v hv
      rw [hpushed] at hv
      rcases mem_append.mp hv with hv | hv
      · exact hpassed v (hl.pushed v hv)
      · exact mem_singleton.mp hv ▸ hself
    · rw [hring, hpushed]
      exact suffix_push hl.ring entry
  | set version hnew hentry hring hlast hpushed =>
    refine ⟨?_, ?_, ?_, ?_⟩
    · intro cur hcur
      obtain ⟨heq, hle⟩ := hentry cur hcur
      rw [heq]
      exact ⟨hlast.symm, hlast.ge, hle⟩
    · exact hpushed ▸ hl.sorted
    · intro v hv
      exact hpassed v (hl.pushed v (hpushed ▸ hv))
    · rw [hpushed]
      rcases hring with hring | hring
      · exact hring ▸ hl.ring
      · rw [hring]
        exact nil_suffix

end Move

/-! ### The calls -/

section Calls
variable {l : Ledger}

structure Moves (l m : Ledger) : Prop where
  counter : l.store.global ≤ m.store.global
  keys : ∀ key, KeyMove l m key

theorem Moves.of_store (hcounter : l.store.global ≤ store.global)
    (hentries : store.entries = l.store.entries)
    (hdeltas : ∀ key, store.ring key = l.store.ring key) :
    Moves l { l with store := store } :=
  ⟨hcounter, fun key => .none (by rw [hentries]) (hdeltas key) rfl rfl⟩

variable {entry : DeltaEntry}

theorem Moves.pushes (hcounter : l.store.global ≤ store.global)
    (hver : entry.version ≤ store.global) (hnew : ∀ r, l.Passed entry.key r → r < entry.version)
    (hentry : ∀ cur ∈ store.entries.get? entry.key, cur.version = entry.version)
    (hother : ∀ key, key ≠ entry.key → store.entries.get? key = l.store.entries.get? key)
    (hring : ∀ key, store.ring key =
      if key = entry.key then (l.store.ring entry.key).push entry else l.store.ring key) :
    Moves l (l.pushes store entry) := by
  refine ⟨hcounter, fun key => ?_⟩
  by_cases hk : key = entry.key
  · subst hk
    exact .push entry hnew hver hentry ((hring _).trans (if_pos rfl)) (update_self ..)
      (update_self ..)
  · exact .none (hother key hk) ((hring key).trans (if_neg hk)) (update_of_ne hk ..)
      (update_of_ne hk ..)

theorem Moves.sets {target : String} {version : ℕ} (hcounter : l.store.global ≤ store.global)
    (hnew : ∀ r, l.Passed target r → r ≤ version) (hentry : ∀ cur ∈ store.entries.get? target,
      cur.version = version ∧ version ≤ store.global)
    (hother : ∀ key, key ≠ target → store.entries.get? key = l.store.entries.get? key)
    (hring : store.ring target = l.store.ring target ∨ (store.ring target).entries = [])
    (hrings : ∀ key, key ≠ target → store.ring key = l.store.ring key) :
    Moves l (l.sets store target version) := by
  refine ⟨hcounter, fun key => ?_⟩
  by_cases hk : key = target
  · subst hk
    exact .set version hnew hentry hring (update_self ..) rfl
  · exact .none (hother key hk) (hrings key hk) (update_of_ne hk ..) rfl

theorem moves_mutate (m : Mutation) (hfresh : l.Fresh (.mutate m)) :
    Moves l (l.next (.mutate m)) := by
  rw [next]
  rcases m.run_cases l.store with heq | ⟨value, _, heq⟩
  · rw [heq]
    exact Moves.of_store le_rfl rfl fun _ => rfl
  · rw [heq]
    have hver : l.store.nextVersion = l.store.global + 1 := Nat.mod_eq_of_lt hfresh
    simp only [StateStore.record]
    refine Moves.pushes ?_ le_rfl ?_ ?_ ?_ fun key => ring_appendDelta _ _ key _
    · exact hver ▸ Nat.le_succ _
    · intro r hr
      rw [hver]
      exact Nat.lt_succ_of_le hr.2
    · intro cur hcur
      simp only [StateStore.appendDelta] at hcur
      cases value with
      | none => simp at hcur
      | some =>
        simp only [get?_insert_self, mem_some_iff] at hcur
        exact hcur ▸ rfl
    · intro key hk
      simp only [StateStore.appendDelta]
      cases value with
      | none => exact get?_erase_of_ne _ hk
      | some => exact get?_insert_of_ne _ hk _

theorem moves_loadEntry (key : String) (version : ℕ) (value : GoValue)
    (hl : l.Sound key) (hfresh : l.Fresh (.loadEntry key version value)) :
    Moves l (l.next (.loadEntry key version value)) := by
  have hcounter : l.store.global ≤ (l.store.loadEntry key version value).global := by
    rw [StateStore.loadEntry]
    split_ifs <;> exact le_max_left _ _
  rw [next]
  split_ifs with hlt
  · have hstore : l.store.loadEntry key version value =
        ({ l.store with entries := l.store.entries.insert key ⟨value, version⟩ }).advance
          version := by
      rw [StateStore.loadEntry]
      exact congrArg (StateStore.advance · version) (if_pos hlt)
    refine Moves.sets hcounter ?_ ?_ ?_ (.inl ?_) ?_
    · intro r hr
      -- an absent key has version 0 here, so only the ledger knows what was there before
      cases hcur : l.store.entries.get? key with
      | none =>
        rcases hfresh hcur with hzero | hle
        · omega
        · exact hr.1.trans hle
      | some cur =>
        have hget : (l.store.get key).2 = cur.version := by rw [StateStore.get, hcur]
        have hlast := (hl.entry cur hcur).1
        have := hr.1
        omega
    · intro cur hcur
      rw [hstore, StateStore.advance] at hcur ⊢
      simp only [get?_insert_self, mem_some_iff] at hcur
      exact ⟨hcur ▸ rfl, le_max_right _ _⟩
    · intro other hne
      rw [hstore]
      exact get?_insert_of_ne _ hne _
    · rw [hstore]
      rfl
    · intro other _
      rw [hstore]
      rfl
  · have hstore : l.store.loadEntry key version value = l.store.advance version := by
      rw [StateStore.loadEntry]
      exact congrArg (StateStore.advance · version) (if_neg hlt)
    rw [hstore] at hcounter ⊢
    exact Moves.of_store hcounter rfl fun _ => rfl

theorem ring_eq_of_deltas {s t : StateStore} {key : String}
    (hdeltas : s.deltas.get? key = t.deltas.get? key) (hcap : s.logCap = t.logCap) :
    s.ring key = t.ring key := by
  rw [StateStore.ring, StateStore.ring, hdeltas]
  simp only [hcap]

theorem moves_loadDelete (key : String) (version : ℕ) (hl : l.Sound key) :
    Moves l (l.next (.loadDelete key version)) := by
  rw [next]
  split_ifs with hex
  · obtain ⟨cur, hcur, hle⟩ := hex
    have hget : l.store.entries.get? key = some cur := hcur
    have hstore : l.store.loadDelete key version = { l.store with
        entries := l.store.entries.erase key, deltas := l.store.deltas.erase key } := by
      rw [StateStore.loadDelete, hget]
      exact if_pos hle
    rw [hstore]
    refine Moves.sets le_rfl ?_ ?_ ?_ (.inr ?_) ?_
    · intro r hr
      exact hr.1.trans ((hl.entry cur hcur).1 ▸ hle)
    · intro cur hcur
      simp at hcur
    · intro other hne
      exact get?_erase_of_ne _ hne
    · rw [StateStore.ring, get?_erase_self]
      rfl
    · intro other hne
      exact ring_eq_of_deltas (get?_erase_of_ne _ hne) rfl
  · have hstore : l.store.loadDelete key version = l.store := by
      rw [StateStore.loadDelete]
      cases hcur : l.store.entries.get? key with
      | none => rfl
      | some cur => exact if_neg fun hle => hex ⟨cur, hcur, hle⟩
    rw [hstore]
    exact Moves.of_store le_rfl rfl fun _ => rfl

theorem applyClusterDelta_of_le (hl : l.Sound entry.key)
    (hfresh : l.Fresh (.applyClusterDelta entry)) (hle : entry.version ≤ l.last entry.key) :
    l.store.applyClusterDelta entry = (l.store, false) := by
  have hget : entry.version ≤ (l.store.get entry.key).2 := by
    rw [StateStore.get]
    cases hcur : l.store.entries.get? entry.key with
    | none =>
      rcases hfresh hcur with hzero | hlt
      · exact hzero.le
      · omega
    | some cur => exact hle.trans (hl.entry cur hcur).1.ge
  exact if_pos hget

theorem moves_applyClusterDelta (entry : DeltaEntry) (hl : l.Sound entry.key)
    (hfresh : l.Fresh (.applyClusterDelta entry)) :
    Moves l (l.next (.applyClusterDelta entry)) := by
  rw [next]
  by_cases hle : entry.version ≤ (l.store.get entry.key).2
  · have hstale : l.store.applyClusterDelta entry = (l.store, false) := if_pos hle
    rw [hstale]
    exact Moves.of_store le_rfl rfl fun _ => rfl
  · have hlast : l.last entry.key < entry.version := by
      by_contra hold
      have hstale := applyClusterDelta_of_le hl hfresh (not_lt.mp hold)
      rw [StateStore.applyClusterDelta, if_neg hle] at hstale
      simp at hstale
    rw [StateStore.applyClusterDelta, if_neg hle]
    refine Moves.pushes (le_max_left _ _) (le_max_right _ _) ?_ ?_ ?_ ?_
    · intro r hr
      exact hr.1.trans_lt hlast
    · intro cur hcur
      simp only [StateStore.advance, StateStore.appendDelta, get?_insert_self, mem_some_iff] at hcur
      exact hcur ▸ rfl
    · intro key hk
      exact get?_insert_of_ne _ hk _
    · intro key
      exact ring_appendDelta _ _ key _

theorem moves_next (hl : ∀ key, l.Sound key) (c : StoreCall) (hfresh : l.Fresh c) :
    Moves l (l.next c) := by
  cases c with
  | mutate m => exact moves_mutate m hfresh
  | loadEntry key version value => exact moves_loadEntry key version value (hl key) hfresh
  | loadDelete key version => exact moves_loadDelete key version (hl key)
  | applyClusterDelta entry => exact moves_applyClusterDelta entry (hl entry.key) hfresh

end Calls

/-! ### Runs -/

theorem sound_start (key : String) : start.Sound key where
  entry := by
    intro cur hcur
    simp [start, StateStore.new] at hcur
  sorted := List.Pairwise.nil
  pushed := by
    intro v hv
    exact absurd hv not_mem_nil
  ring := suffix_refl _

variable {calls : List StoreCall}

theorem sound_run {l m : Ledger} (hl : ∀ key, l.Sound key)
    (hfresh : Along step Fresh l calls) (hrun : run step l calls = some m) (key : String) :
    m.Sound key := by
  refine invariant_along (I := fun l => ∀ key, l.Sound key) ?_ hl hfresh hrun key
  intro l c m hl hc hstep key
  rw [step, some.injEq] at hstep
  have hmoves := moves_next hl c hc
  exact hstep ▸ (hl key).move hmoves.counter (hmoves.keys key)

theorem passed_run {l m : Ledger} (hl : ∀ key, l.Sound key)
    (hfresh : Along step Fresh l calls) (hrun : run step l calls = some m) {key : String} {r : ℕ}
    (hr : l.Passed key r) : m.Passed key r := by
  refine (invariant_along (I := fun l => (∀ key, l.Sound key) ∧ l.Passed key r) ?_ ⟨hl, hr⟩ hfresh
    hrun).2
  intro l c m hl hc hstep
  rw [step, some.injEq] at hstep
  have hmoves := moves_next hl.1 c hc
  rw [← hstep]
  exact ⟨fun key => (hl.1 key).move hmoves.counter (hmoves.keys key),
    hl.2.move hmoves.counter (hmoves.keys key)⟩

/-- At any point of a run of fresh calls: what the rings have received is increasing, what `Get`
reports later is not older, and a delta that is not newer than the latest change is refused. -/
theorem versions_never_go_back {before after : List StoreCall} {l m : Ledger}
    (hbefore : run step start before = some l) (hafter : run step l after = some m)
    (hfresh : Along step Fresh start (before ++ after)) : (∀ key, (m.pushed key).Pairwise (· < ·) ∧
      (m.store.ring key).entries.map DeltaEntry.version <:+ m.pushed key) ∧
    (∀ key, (m.store.entries.get? key).isSome → (l.store.get key).2 ≤ (m.store.get key).2) ∧
    ∀ entry rest, after = .applyClusterDelta entry :: rest → entry.version ≤ l.last entry.key →
      l.store.applyClusterDelta entry = (l.store, false) := by
  obtain ⟨hfront, hback⟩ := hfresh.append hbefore
  have hl := sound_run sound_start hfront hbefore
  have hm := sound_run hl hback hafter
  refine ⟨fun key => ⟨(hm key).sorted, (hm key).ring⟩, ?_, ?_⟩
  · intro key hpresent
    obtain ⟨later, hlater⟩ := isSome_iff_exists.mp hpresent
    rw [StateStore.get, StateStore.get, hlater]
    cases hcur : l.store.entries.get? key with
    | none => exact Nat.zero_le _
    | some cur =>
      have hpassed := passed_run hl hback hafter ((hl key).entry cur hcur).2
      exact hpassed.1.trans ((hm key).entry later hlater).1.ge
  · intro entry rest heq hle
    rw [heq] at hback
    exact applyClusterDelta_of_le (hl entry.key) hback.1 hle

instance (l : Ledger) (c : StoreCall) : Decidable (l.Fresh c) := by
  unfold Fresh
  split <;> infer_instance

def setSetDelete : List StoreCall :=
  [.mutate (.apply (fun _ => .sorted) "k" (.string "a")),
    .mutate (.apply (fun _ => .sorted) "k" (.string "b")), .mutate (.delete "k")]

def rootUpdate (version : ℕ) : DeltaEntry := ⟨"k", version, [⟨.update, "/", .string "a"⟩]⟩

def laterDeltas : List StoreCall :=
  [.applyClusterDelta (rootUpdate 4), .applyClusterDelta (rootUpdate 3)]

theorem versions_after_deletion :
    ∃ l m, run step start setSetDelete = some l ∧ run step l laterDeltas = some m ∧
      (m.pushed "k").Pairwise (· < ·) ∧ m.pushed "k" = [1, 2, 3, 4] := by
  have hfresh : Along step Fresh start (setSetDelete ++ laterDeltas) := by decide +kernel
  refine ⟨_, _, rfl, rfl, ?_, by decide +kernel⟩
  exact ((versions_never_go_back rfl rfl hfresh).1 "k").1

/-- The deletion removed the version that the staleness test compares with. -/
theorem deleted_key_takes_old_delta :
    (run step start (setSetDelete.take 2)).map (fun l => (l.store.get "k").2) = some 2 ∧
    (run step start setSetDelete).map
      (fun l => (l.last "k", (l.store.applyClusterDelta (rootUpdate 1)).2)) = some (3, true) ∧
    (run step start (setSetDelete ++ [.applyClusterDelta (rootUpdate 1)])).map
      (fun m => (m.pushed "k", (m.store.get "k").2)) = some ([1, 2, 3, 1], 1) := by
  decide +kernel

end Ledger

end Sodp.GoServer
