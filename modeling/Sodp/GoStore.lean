import Mathlib.Data.List.Rotate
import Sodp.GoDelta

/-!
# The state store of the Go server

`state.go`: the entries, one ring of deltas for each key, and the global version. Each function runs
under the lock of the store. A `uint64` version wraps, which is visible because loaded and remote
versions are arbitrary. `RingLog.entries` is what a scan visits, oldest first.
-/

namespace Sodp.GoServer
open List

/-! ### The ring -/

structure RingLog where
  cap : ℕ
  buf : List DeltaEntry
  head : ℕ
  len : ℕ
  length_buf : buf.length = cap
  head_lt : head < cap
  len_le : len ≤ cap
  head_eq : len < cap → head = len

namespace RingLog

def new (cap : ℕ) (h : 0 < cap) : RingLog where
  cap := cap
  buf := List.replicate cap ⟨"", 0, []⟩
  head := 0
  len := 0
  length_buf := length_replicate
  head_lt := h
  len_le := Nat.zero_le _
  head_eq := fun _ => rfl

def push (r : RingLog) (e : DeltaEntry) : RingLog where
  cap := r.cap
  buf := r.buf.set r.head e
  head := (r.head + 1) % r.cap
  len := if r.len < r.cap then r.len + 1 else r.len
  length_buf := by rw [length_set, r.length_buf]
  head_lt := Nat.mod_lt _ (Nat.zero_lt_of_lt r.head_lt)
  len_le := by
    have := r.len_le
    split_ifs <;> omega
  head_eq := by
    intro h
    split_ifs at h ⊢ with hlt
    · rw [r.head_eq hlt]
      exact Nat.mod_eq_of_lt h
    · exact absurd h hlt

def oldest (r : RingLog) : ℕ := if r.len < r.cap then 0 else r.head

def entries (r : RingLog) : List DeltaEntry :=
  (List.range r.len).map fun i => r.buf.getD ((r.oldest + i) % r.cap) ⟨"", 0, []⟩

def oldestVersion (r : RingLog) : ℕ :=
  if r.len = 0 then 0 else (r.buf.getD r.oldest ⟨"", 0, []⟩).version

theorem entries_new (cap : ℕ) (h : 0 < cap) : (new cap h).entries = [] := rfl

theorem length_entries (r : RingLog) : r.entries.length = r.len := by
  rw [entries, length_map, length_range]

theorem entries_eq (r : RingLog) :
    r.entries = if r.len < r.cap then r.buf.take r.len else r.buf.rotate r.head := by
  have hbuf := r.length_buf
  rw [entries, oldest]
  split_ifs with h
  · refine ext_getElem (by simp [hbuf, h.le]) fun i hi _ => ?_
    rw [length_map, length_range] at hi
    simp [Nat.mod_eq_of_lt (hi.trans h), hbuf, hi.trans h]
  · have hlen : r.len = r.cap := r.len_le.antisymm (Nat.not_lt.mp h)
    refine ext_getElem (by simp [hbuf, hlen]) fun i _ hi => ?_
    have hmod : (r.head + i) % r.cap < r.cap := Nat.mod_lt _ (Nat.zero_lt_of_lt r.head_lt)
    simp [getElem_rotate, hbuf, Nat.add_comm i, hmod]

theorem entries_push (r : RingLog) (e : DeltaEntry) : (r.push e).entries =
      (if r.entries.length < r.cap then r.entries else r.entries.tail) ++ [e] := by
  have hlt : r.head < r.buf.length := r.length_buf ▸ r.head_lt
  obtain ⟨a, b, hbuf, hhead, hset⟩ := @exists_of_set _ _ e _ hlt
  generalize r.buf[r.head] = old at hbuf
  rw [append_cons] at hset
  have hcap : (a ++ [e] ++ b).length = r.cap := by
    rw [← r.length_buf, hbuf]
    simp
  have hnext : (a ++ [e]).length = r.head + 1 := by rw [length_append, hhead, length_singleton]
  have hpush : (r.push e).buf.rotate (r.push e).head = b ++ (a ++ [e]) := by
    change (r.buf.set r.head e).rotate ((r.head + 1) % r.cap) = _
    rw [hset, ← hcap, rotate_mod, ← hnext, rotate_append_length_eq]
  rw [length_entries, entries_eq, hpush, entries_eq r]
  by_cases h : r.len < r.cap
  · have hnew : (r.push e).len = r.head + 1 := (if_pos h).trans (by rw [r.head_eq h])
    change (if (r.push e).len < r.cap then (r.buf.set r.head e).take _ else _) = _
    rw [hnew, if_pos h, if_pos h, ← r.head_eq h, hset, hbuf, ← hnext, take_left, ← hhead, take_left]
    split_ifs with hfull
    · rfl
    · simp only [← hcap, length_append] at hfull
      rw [eq_nil_of_length_eq_zero (l := b) (by omega), nil_append]
  · have hnew : (r.push e).len = r.len := if_neg h
    change (if (r.push e).len < r.cap then _ else _) = _
    rw [hnew, if_neg h, if_neg h, if_neg h, hbuf, ← hhead, rotate_append_length_eq, cons_append,
      tail_cons, append_assoc]

theorem oldestVersion_eq (r : RingLog) :
    r.oldestVersion = (r.entries.head?.map DeltaEntry.version).getD 0 := by
  rw [oldestVersion, entries]
  split_ifs with h
  · rw [h]
    rfl
  · obtain ⟨n, hn⟩ := Nat.exists_eq_succ_of_ne_zero h
    have hlt : r.oldest < r.cap := by
      have := r.head_lt
      rw [oldest]
      split_ifs <;> omega
    rw [hn, range_succ_eq_map, map_cons, head?_cons, Nat.add_zero, Nat.mod_eq_of_lt hlt]
    rfl

/-! ### The ring as a list -/

variable {fn : List DeltaEntry → DeltaEntry → Bool} {r : RingLog}

/-- The loop of `scan`: what the callback is called with, in order. Its answer may depend on the
calls before, and `none` is an index out of range. -/
def scanFrom (r : RingLog) (fn : List DeltaEntry → DeltaEntry → Bool) :
    ℕ → ℕ → List DeltaEntry → Option (List DeltaEntry)
  | 0, _, seen => some seen
  | todo + 1, i, seen =>
    match r.buf[(r.oldest + i) % r.cap]? with
    | none => none
    | some e =>
      if fn seen e then scanFrom r fn todo (i + 1) (seen ++ [e]) else some (seen ++ [e])

def scan (r : RingLog) (fn : List DeltaEntry → DeltaEntry → Bool) : Option (List DeltaEntry) :=
  r.scanFrom fn r.len 0 []

/-- The entries of a list in order, up to the first at which the callback stops. -/
def visit (fn : List DeltaEntry → DeltaEntry → Bool) :
    List DeltaEntry → List DeltaEntry → List DeltaEntry
  | seen, [] => seen
  | seen, e :: l => if fn seen e then visit fn (seen ++ [e]) l else seen ++ [e]

theorem visit_prefix (seen l : List DeltaEntry) : visit fn seen l <+: seen ++ l := by
  induction l generalizing seen with
  | nil => rw [visit, append_nil]
  | cons e l ih =>
    rw [visit]
    split_ifs
    · simpa using ih (seen ++ [e])
    · exact ⟨l, by simp⟩

theorem visit_of_all (h : ∀ seen e, fn seen e = true) (seen l : List DeltaEntry) :
    visit fn seen l = seen ++ l := by
  induction l generalizing seen with
  | nil => rw [visit, append_nil]
  | cons e l ih => rw [visit, if_pos (h seen e), ih, append_assoc, singleton_append]

theorem getElem?_buf {i : ℕ} (hi : i < r.len) :
    r.buf[(r.oldest + i) % r.cap]? = r.entries[i]? := by
  have hlt : (r.oldest + i) % r.cap < r.buf.length := by
    rw [r.length_buf]
    exact Nat.mod_lt _ (Nat.zero_lt_of_lt r.head_lt)
  rw [entries, getElem?_map, getElem?_range hi, Option.map_some, getD_eq_getElem?_getD,
    getElem?_eq_getElem hlt]
  rfl

theorem scanFrom_eq (todo i : ℕ) (hi : i + todo = r.len) (seen : List DeltaEntry) :
    r.scanFrom fn todo i seen = some (visit fn seen (r.entries.drop i)) := by
  induction todo generalizing i seen with
  | zero =>
    rw [scanFrom, drop_eq_nil_of_le (by rw [length_entries]; omega)]
    rfl
  | succ todo ih =>
    have hlt : i < r.entries.length := by
      rw [length_entries]
      omega
    rw [scanFrom, getElem?_buf (by omega), getElem?_eq_getElem hlt, drop_eq_getElem_cons hlt, visit]
    dsimp only
    split_ifs
    · exact ih (i + 1) (by omega) _
    · rfl

theorem entries_foldl_push (r : RingLog) (l : List DeltaEntry) :
    (l.foldl push r).entries = (r.entries ++ l).drop (r.len + l.length - r.cap) := by
  induction l generalizing r with
  | nil => simp [Nat.sub_eq_zero_of_le r.len_le]
  | cons e l ih =>
    rw [foldl_cons, ih, entries_push, length_entries, length_cons]
    change drop ((if r.len < r.cap then r.len + 1 else r.len) + l.length - r.cap) _ = _
    have hle := r.len_le
    split_ifs with hlt
    · rw [append_assoc, singleton_append]
      congr 1
      omega
    · have hne : r.entries ≠ [] := by
        intro hnil
        have hzero := length_entries r
        have := r.head_lt
        rw [hnil, length_nil] at hzero
        omega
      obtain ⟨_, _, hrest⟩ := exists_cons_of_ne_nil hne
      have hdrop : r.len + (l.length + 1) - r.cap = r.len + l.length - r.cap + 1 := by omega
      rw [hrest, hdrop]
      simp

/-- The ring after any pushes is a list of bounded length. -/
theorem ring_refines_list {cap : ℕ} (hcap : 0 < cap) (pushes : List DeltaEntry)
    (fn : List DeltaEntry → DeltaEntry → Bool) :
    let r := pushes.foldl push (new cap hcap)
    let last := pushes.drop (pushes.length - cap)
    last.length = min pushes.length cap ∧ r.scan fn = some (visit fn [] last) ∧
      visit fn [] last <+: last ∧ ((∀ seen e, fn seen e = true) → visit fn [] last = last) ∧
      r.oldestVersion = (last.head?.map DeltaEntry.version).getD 0 ∧
      r.head < r.buf.length ∧ r.oldest < r.buf.length := by
  intro r last
  have hlast : r.entries = last := by
    rw [entries_foldl_push, entries_new, nil_append]
    exact congrArg (drop · pushes) (by simp [new])
  refine ⟨?_, ?_, visit_prefix [] last, fun h => visit_of_all h [] last, ?_, ?_, ?_⟩
  · simp only [last, length_drop]
    omega
  · rw [scan, scanFrom_eq r.len 0 (Nat.zero_add _), drop_zero, hlast]
  · rw [oldestVersion_eq, hlast]
  · rw [r.length_buf]
    exact r.head_lt
  · have := r.head_lt
    rw [r.length_buf, oldest]
    split_ifs <;> omega

theorem third_push_overwrites :
    let pushes : List DeltaEntry := [⟨"k", 1, []⟩, ⟨"k", 2, []⟩, ⟨"k", 3, []⟩]
    (pushes.foldl push (new 2 (by decide))).scan (fun _ _ => true) =
      some [⟨"k", 2, []⟩, ⟨"k", 3, []⟩] :=
  (ring_refines_list (by decide) _ _).2.1

end RingLog

/-! ### The store -/

structure StateEntry where
  value : GoValue
  version : ℕ

structure StateStore where
  entries : OrderedMap String StateEntry
  deltas : OrderedMap String RingLog
  global : ℕ
  logCap : ℕ
  logCap_pos : 0 < logCap
  maxKeys : ℕ

namespace StateStore

def new : StateStore where
  entries := .empty
  deltas := .empty
  global := 0
  logCap := 1000
  logCap_pos := by decide
  maxKeys := 100000

/-- `Get`: the value and the version, `nil` and 0 without an entry. -/
def get (s : StateStore) (key : String) : GoValue × ℕ :=
  match s.entries.get? key with
  | none => (.nil, 0)
  | some e => (e.value, e.version)

def nextVersion (s : StateStore) : ℕ := (s.global + 1) % 2 ^ 64

def ring (s : StateStore) (key : String) : RingLog :=
  (s.deltas.get? key).getD (.new s.logCap s.logCap_pos)

def appendDelta (s : StateStore) (key : String) (entry : DeltaEntry) : StateStore :=
  { s with deltas := s.deltas.insert key ((s.ring key).push entry) }

theorem ring_appendDelta (s : StateStore) (key other : String) (entry : DeltaEntry) :
    (s.appendDelta key entry).ring other =
      if other = key then (s.ring key).push entry else s.ring other := by
  rw [ring, appendDelta]
  rw [OrderedMap.get?_insert]
  split_ifs with h <;> rfl

/-- What `Apply`, `Append` and `Delete` do once they have a change: take a version, store the new
value or remove the entry, and append to the log. -/
def record (s : StateStore) (key : String) (value : Option GoValue) (ops : List DeltaOp) :
    StateStore × Option DeltaEntry :=
  let ver := s.nextVersion
  let entry : DeltaEntry := ⟨key, ver, ops⟩
  let entries :=
    match value with
    | none => s.entries.erase key
    | some v => s.entries.insert key ⟨v, ver⟩
  ({ s with entries := entries, global := ver }.appendDelta key entry, some entry)

def apply (s : StateStore) (range : List String → KeyOrder String) (key : String)
    (newValue : GoValue) : StateStore × Option DeltaEntry :=
  if (s.entries.get? key).isNone ∧ s.maxKeys ≤ s.entries.keys.length then (s, none)
  else
    let ops := diff range (s.get key).1 newValue
    if ops.isEmpty then (s, none) else s.record key (some newValue) ops

def sliceOf : GoValue → List GoValue
  | .slice xs => xs
  | _ => []

def append (s : StateStore) (key : String) (element : GoValue) (maxLen : ℤ) :
    StateStore × Option DeltaEntry :=
  let newSlice := sliceOf (s.get key).1 ++ [element]
  let added : DeltaOp := ⟨.add, "/-", element⟩
  if 0 < maxLen ∧ maxLen < newSlice.length then
    s.record key (some (.slice (newSlice.drop (newSlice.length - maxLen.toNat))))
      [added, ⟨.remove, "/0", .nil⟩]
  else s.record key (some (.slice newSlice)) [added]

theorem append_spec {s : StateStore} {key : String} {xs : List GoValue} {maxLen : ℤ}
    (hxs : sliceOf (s.get key).1 = xs) (hlen : 0 < maxLen → xs.length ≤ maxLen)
    (element : GoValue) : ∃ ys ops, Appended xs element ys ops ∧
      s.append key element maxLen = s.record key (some (.slice ys)) ops := by
  subst hxs
  rw [append]
  split_ifs with htrim
  · have hlength := hlen htrim.1
    simp only [length_append, length_singleton] at htrim
    have hone : (sliceOf (s.get key).1).length + 1 - maxLen.toNat = 1 := by omega
    refine ⟨_, _, .inr ⟨fun hnil => ?_, rfl, rfl⟩, ?_⟩
    · rw [hnil, length_nil] at htrim
      omega
    · rw [length_append, length_singleton, hone, drop_one]
  · exact ⟨_, _, .inl ⟨rfl, rfl⟩, rfl⟩

def delete (s : StateStore) (key : String) : StateStore × Option DeltaEntry :=
  match s.entries.get? key with
  | none => (s, none)
  | some _ => s.record key none [⟨.remove, "/", .nil⟩]

/-- `DeltasSince`. A log that reaches back far enough but has nothing newer also gives `nil`. -/
def deltasSince (s : StateStore) (key : String) (sinceVersion : ℕ) : Option (List DeltaEntry) :=
  match s.deltas.get? key with
  | none => none
  | some ring =>
    if ring.len = 0 then none
    else if (sinceVersion + 1) % 2 ^ 64 < ring.oldestVersion then none
    else
      let result := ring.entries.filter fun d => sinceVersion < d.version
      if result.isEmpty then none else some result

def advance (s : StateStore) (version : ℕ) : StateStore :=
  { s with global := max s.global version }

def loadEntry (s : StateStore) (key : String) (version : ℕ) (value : GoValue) : StateStore :=
  let stored :=
    if (s.get key).2 < version then { s with entries := s.entries.insert key ⟨value, version⟩ }
    else s
  stored.advance version

def loadDelete (s : StateStore) (key : String) (version : ℕ) : StateStore :=
  match s.entries.get? key with
  | none => s
  | some cur =>
    if cur.version ≤ version then
      { s with entries := s.entries.erase key, deltas := s.deltas.erase key }
    else s

def applyClusterDelta (s : StateStore) (entry : DeltaEntry) : StateStore × Bool :=
  let cur := s.get entry.key
  if entry.version ≤ cur.2 then (s, false)
  else
    let newValue := applyOps cur.1 entry.ops
    let stored := { s with entries := s.entries.insert entry.key ⟨newValue, entry.version⟩ }
    ((stored.appendDelta entry.key entry).advance entry.version, true)

end StateStore

inductive Mutation where
  | apply (range : List String → KeyOrder String) (key : String) (value : GoValue)
  | append (key : String) (element : GoValue) (maxLen : ℤ)
  | delete (key : String)

namespace Mutation

def key : Mutation → String
  | .apply _ key _ | .append key _ _ | .delete key => key

def run (s : StateStore) : Mutation → StateStore × Option DeltaEntry
  | .apply range key value => s.apply range key value
  | .append key element maxLen => s.append key element maxLen
  | .delete key => s.delete key

theorem run_eq (s : StateStore) (m : Mutation) :
    m.run s = (s, none) ∨ ∃ value ops, m.run s = s.record m.key value ops ∧
      (value = none ↔ ∃ key, m = .delete key) := by
  cases m with
  | apply range key value =>
    rw [run, StateStore.apply]
    dsimp only
    split_ifs
    · exact .inl rfl
    · exact .inl rfl
    · exact .inr ⟨some value, _, rfl, by simp⟩
  | append =>
    rw [run, StateStore.append]
    split_ifs with htrim <;> exact .inr ⟨some _, _, rfl, by simp⟩
  | delete =>
    rw [run, StateStore.delete]
    split
    · exact .inl rfl
    · exact .inr ⟨none, _, rfl, by simp⟩

theorem run_cases (s : StateStore) (m : Mutation) :
    m.run s = (s, none) ∨ ∃ value ops, m.run s = s.record m.key value ops := by
  refine (run_eq s m).imp_right ?_
  rintro ⟨value, ops, hrun, -⟩
  exact ⟨value, ops, hrun⟩

end Mutation

/-! ### What a replay can hold -/

open StateStore

/-- A store and the deltas that it has issued. -/
def issue (acc : StateStore × List DeltaEntry) (m : Mutation) : StateStore × List DeltaEntry :=
  ((m.run acc.1).1, acc.2 ++ (m.run acc.1).2.toList)

def emptyStore (cap : ℕ) (hcap : 0 < cap) : StateStore :=
  { StateStore.new with logCap := cap, logCap_pos := hcap }

structure Issued {cap : ℕ} (hcap : 0 < cap) (acc : StateStore × List DeltaEntry) : Prop where
  counter : acc.1.global = acc.2.length % 2 ^ 64
  versions : acc.2.map DeltaEntry.version = (range acc.2.length).map fun i => (i + 1) % 2 ^ 64
  ring : ∀ key, acc.1.ring key =
    (acc.2.filter fun d => d.key = key).foldl RingLog.push (.new cap hcap)

variable {cap : ℕ} {hcap : 0 < cap} {acc : StateStore × List DeltaEntry}

theorem Issued.issue (h : Issued hcap acc) (m : Mutation) : Issued hcap (issue acc m) := by
  rw [GoServer.issue]
  rcases m.run_cases acc.1 with heq | ⟨_, _, heq⟩
  · rw [heq, Option.toList_none, append_nil]
    exact h
  · have hver : acc.1.nextVersion = (acc.2.length + 1) % 2 ^ 64 := by
      rw [nextVersion, h.counter, Nat.mod_add_mod]
    rw [heq]
    dsimp only [record, Option.toList_some]
    refine ⟨?_, ?_, fun key => ?_⟩
    · rw [length_append]
      exact hver
    · rw [map_append, length_append, length_singleton, range_succ, map_append, h.versions, hver]
      rfl
    · dsimp only
      rw [ring_appendDelta, filter_append, foldl_append, ← h.ring key]
      split_ifs with hkey
      · rw [hkey, filter_cons_of_pos (by simp)]
        rfl
      · rw [filter_cons_of_neg (by simpa using Ne.symm hkey)]
        rfl

theorem issued_foldl (hcap : 0 < cap) (ms : List Mutation) :
    Issued hcap (ms.foldl issue (emptyStore cap hcap, [])) := by
  induction ms using reverseRecOn with
  | nil => exact ⟨rfl, rfl, fun _ => rfl⟩
  | append_singleton ms m ih =>
    rw [foldl_concat]
    exact ih.issue m

theorem length_issued (acc : StateStore × List DeltaEntry) (ms : List Mutation) :
    (ms.foldl issue acc).2.length ≤ acc.2.length + ms.length := by
  induction ms generalizing acc with
  | nil => exact le_rfl
  | cons m ms ih =>
    refine (ih _).trans ?_
    have hlen : (m.run acc.1).2.toList.length ≤ 1 := by cases (m.run acc.1).2 <;> simp
    rw [issue, length_append, length_cons]
    omega

theorem Issued.entries (h : Issued hcap acc) (key : String) : (acc.1.ring key).entries =
    (acc.2.filter fun d => d.key = key).drop
      ((acc.2.filter fun d => d.key = key).length - cap) := by
  rw [h.ring, RingLog.entries_foldl_push]
  simp [RingLog.new, RingLog.entries]

/-- A replay has every delta of the key behind the version, in order, or there is none. -/
theorem replay_complete_or_declined (hcap : 0 < cap) {ms : List Mutation}
    (hfew : ms.length < 2 ^ 64) (key : String) (v : ℕ) :
    let after := ms.foldl issue (emptyStore cap hcap, [])
    let newer := after.2.filter fun d => d.key = key ∧ v < d.version
    (after.1.deltasSince key v = none ∨ after.1.deltasSince key v = some newer) ∧
      newer.Pairwise fun d e => d.version < e.version := by
  intro after newer
  have h : Issued hcap after := issued_foldl hcap ms
  have hsorted : after.2.Pairwise fun d e => d.version < e.version := by
    have hlen : after.2.length ≤ 0 + ms.length := length_issued _ ms
    rw [← pairwise_map (R := (· < ·)), h.versions, pairwise_map]
    refine pairwise_lt_range.imp_of_mem fun hi hj hij => ?_
    rw [mem_range] at hi hj
    rw [Nat.mod_eq_of_lt (by omega), Nat.mod_eq_of_lt (by omega)]
    omega
  refine ⟨?_, hsorted.filter _⟩
  rw [deltasSince]
  split
  · exact .inl rfl
  · next ring hring =>
    dsimp only
    split_ifs with hlen hold
    · exact .inl rfl
    · exact .inl rfl
    · exact .inl rfl
    · refine .inr (congrArg some ?_)
      have hentries : (after.1.ring key).entries = ring.entries := by
        rw [StateStore.ring, hring]
        rfl
      -- what the ring has dropped is older than the oldest delta in it
      have hdrop := h.entries key
      have hlist := hsorted.filter fun d => decide (d.key = key)
      have hnewer : newer =
          (after.2.filter fun d => d.key = key).filter fun d => v < d.version := by
        rw [filter_filter]
        exact filter_congr fun d _ => by rw [Bool.decide_and, Bool.and_comm]
      generalize (after.2.filter fun d => d.key = key).length - cap = n at hdrop
      rw [← take_append_drop n (after.2.filter fun d => d.key = key), ← hdrop, hentries]
        at hnewer hlist
      rw [RingLog.oldestVersion_eq] at hold
      rw [← RingLog.length_entries, length_eq_zero_iff] at hlen
      obtain ⟨first, _, hfirst⟩ := exists_cons_of_ne_nil hlen
      rw [hnewer, filter_append, eq_comm]
      refine append_left_eq_self.mpr (filter_eq_nil_iff.mpr fun d hd hlt => ?_)
      have holder := (pairwise_append.mp hlist).2.2 d hd first (hfirst ▸ mem_cons_self)
      have hle := Nat.mod_le (v + 1) (2 ^ 64)
      simp only [hfirst, head?_cons, Option.map_some, Option.getD_some, decide_eq_true_eq]
        at hold hlt
      omega

theorem first_delta_replayed :
    let after := [Mutation.append "k" .nil 0].foldl issue (emptyStore 1 Nat.one_pos, [])
    after.1.deltasSince "k" 0 = some after.2 := by
  have hfew : [Mutation.append "k" .nil 0].length < 2 ^ 64 := by decide
  obtain ⟨hnone | hsome, -⟩ := replay_complete_or_declined Nat.one_pos hfew "k" 0
  · cases hnone
  · exact hsome

theorem issue_append (acc : StateStore × List DeltaEntry) : ∃ d : DeltaEntry, d.key = "k" ∧
    (issue acc (.append "k" .nil 0)).2 = acc.2 ++ [d] :=
  ⟨_, rfl, rfl⟩

def wrapped : StateStore × List DeltaEntry :=
  (replicate (2 ^ 64 + 1) (.append "k" .nil 0)).foldl issue (emptyStore 1 Nat.one_pos, [])

theorem wrapped_issued : wrapped.2.length = 2 ^ 64 + 1 ∧ ∀ d ∈ wrapped.2, d.key = "k" := by
  rw [wrapped]
  generalize 2 ^ 64 + 1 = n
  induction n with
  | zero => exact ⟨rfl, nofun⟩
  | succ n ih =>
    rw [replicate_succ', foldl_concat]
    obtain ⟨d, hkey, heq⟩ :=
      issue_append ((replicate n _).foldl issue (emptyStore 1 Nat.one_pos, []))
    rw [heq]
    refine ⟨by rw [length_append, ih.1]; rfl, fun e he => ?_⟩
    rcases mem_append.mp he with he | he
    · exact ih.2 e he
    · rw [mem_singleton.mp he, hkey]

/-- After a wrap of the counter the ring has a delta of version 1, and not those before the wrap. -/
theorem replay_after_wrap : ∃ ds, wrapped.1.deltasSince "k" 0 = some ds ∧
    ds ≠ wrapped.2.filter fun d => d.key = "k" ∧ 0 < d.version := by
  have h : Issued Nat.one_pos wrapped := issued_foldl ..
  obtain ⟨hlen, hkeys⟩ := wrapped_issued
  have hall : (wrapped.2.filter fun d => d.key = "k") = wrapped.2 := by
    rw [filter_eq_self]
    simpa using hkeys
  have hentries := h.entries "k"
  rw [hall, hlen, Nat.add_sub_cancel] at hentries
  have hversions := h.versions
  rw [hlen, range_succ, map_append] at hversions
  have hlast : (wrapped.1.ring "k").entries.map DeltaEntry.version = [1] := by
    rw [hentries, map_drop, hversions, drop_left' (by simp)]
    norm_num
  obtain ⟨e, hring, hone⟩ := map_eq_singleton_iff.mp hlast
  have hsome : wrapped.1.deltas.get? "k" = some (wrapped.1.ring "k") := by
    cases hget : wrapped.1.deltas.get? "k" with
    | none =>
      rw [StateStore.ring, hget] at hring
      cases hring
    | some ring => rw [StateStore.ring, hget, Option.getD_some]
  refine ⟨[e], ?_, fun heq => ?_⟩
  · rw [deltasSince, hsome]
    simp [RingLog.oldestVersion_eq, ← RingLog.length_entries, hring, hone]
  · have htwo : 2 ∈ wrapped.2.map DeltaEntry.version := by
      rw [hversions]
      exact mem_append_left _ (mem_map.mpr ⟨1, mem_range.mpr (by norm_num), by norm_num⟩)
    obtain ⟨d, hd, hver⟩ := mem_map.mp htwo
    have hmem : d ∈ [e] := heq ▸ mem_filter.mpr ⟨hd, by simp [hkeys d hd, hver]⟩
    rw [mem_singleton.mp hmem, hone] at hver
    cases hver

end Sodp.GoServer
