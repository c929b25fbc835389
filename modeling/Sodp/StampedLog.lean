import Mathlib.Data.List.DropRight
import Sodp.OrderedMap

/-!
# Logs of stamped, keyed records

Replay puts the records in stamp order; the latest record of a key is the last one of that order. A
record newer than the rest goes to the end of the order, which is all that an appending writer
needs. A bounded log keeps the last `n` records of a list.
-/

namespace Sodp.StampedLog
open List Option

section Order
variable {α : Type*} (stamp : α → ℕ)

def byStamp (l : List α) : List α := l.insertionSort fun a b => stamp a ≤ stamp b

theorem byStamp_perm (l : List α) : (byStamp stamp l).Perm l := perm_insertionSort _ l

variable {l : List α} {a : α}

theorem mem_byStamp : a ∈ byStamp stamp l ↔ a ∈ l :=
  (byStamp_perm stamp l).mem_iff

theorem byStamp_sorted (l : List α) : (byStamp stamp l).Pairwise fun a b => stamp a ≤ stamp b := by
  have : Std.Total fun a b : α => stamp a ≤ stamp b := ⟨fun a b => le_total _ _⟩
  have : IsTrans α fun a b => stamp a ≤ stamp b := ⟨fun a b c => le_trans⟩
  exact pairwise_insertionSort _ l

theorem orderedInsert_append_newest {b : α} (l : List α) (hab : stamp a ≤ stamp b) :
    List.orderedInsert (fun a b => stamp a ≤ stamp b) a (l ++ [b]) =
      List.orderedInsert (fun a b => stamp a ≤ stamp b) a l ++ [b] := by
  induction l with
  | nil => simp [hab]
  | cons c l ih =>
    rw [cons_append, orderedInsert_cons, orderedInsert_cons]
    split_ifs with hac
    · rfl
    · rw [ih, cons_append]

theorem byStamp_append_newest {b : α} (h : ∀ a ∈ l, stamp a ≤ stamp b) :
    byStamp stamp (l ++ [b]) = byStamp stamp l ++ [b] := by
  induction l with
  | nil => rfl
  | cons a l ih =>
    have hl := ih fun c hc => h c (mem_cons_of_mem a hc)
    rw [byStamp] at hl
    rw [byStamp, cons_append, insertionSort_cons, hl,
      orderedInsert_append_newest stamp _ (h a mem_cons_self)]
    rfl

def newest (l : List α) : ℕ := ((byStamp stamp l).getLast?.map stamp).getD 0

theorem le_newest (h : a ∈ l) : stamp a ≤ newest stamp l := by
  have hsorted := byStamp_sorted stamp l
  rw [← mem_byStamp stamp] at h
  rcases eq_nil_or_concat (byStamp stamp l) with hnil | ⟨_, last, hlast⟩
  · rw [hnil] at h
    exact absurd h not_mem_nil
  · rw [concat_eq_append] at hlast
    rw [newest, hlast, getLast?_concat, map_some, getD_some]
    rw [hlast] at h hsorted
    rcases mem_append.mp h with hinit | hin
    · exact (pairwise_append.mp hsorted).2.2 a hinit last mem_cons_self
    · rw [mem_singleton.mp hin]

theorem newest_mem (h : newest stamp l ≠ 0) : ∃ a ∈ l, stamp a = newest stamp l := by
  cases hlast : (byStamp stamp l).getLast? with
  | none => simp [newest, hlast] at h
  | some a =>
    refine ⟨a, (mem_byStamp stamp).mp (mem_of_getLast? hlast), ?_⟩
    rw [newest, hlast, map_some, getD_some]

end Order

section Latest
variable {α κ : Type*} [LinearOrder κ] (key : α → κ) (stamp : α → ℕ)

def lastOf (k : κ) (l : List α) : Option α := (l.filter fun a => key a = k).getLast?

theorem lastOf_append_self (l : List α) (a : α) : lastOf key (key a) (l ++ [a]) = some a := by
  simp [lastOf]

variable {k : κ} {a : α} {l : List α}

theorem lastOf_append_of_ne (l : List α) (h : key a ≠ k) :
    lastOf key k (l ++ [a]) = lastOf key k l := by
  simp [lastOf, h]

theorem lastOf_eq_some (h : lastOf key k l = some a) : a ∈ l ∧ key a = k := by
  have hmem := mem_of_getLast? h
  simpa using mem_filter.mp hmem

theorem lastOf_eq_none_iff : lastOf key k l = none ↔ ∀ a ∈ l, key a ≠ k := by
  simp [lastOf]

theorem lastOf_of_nodup (hnodup : (l.map key).Nodup) (ha : a ∈ l) :
    lastOf key (key a) l = some a := by
  cases hlast : lastOf key (key a) l with
  | none => exact absurd rfl ((lastOf_eq_none_iff key).mp hlast a ha)
  | some =>
    obtain ⟨hb, hkey⟩ := lastOf_eq_some key hlast
    rw [inj_on_of_nodup_map hnodup hb ha hkey]

theorem get?_foldl_insert {β : Type*} (f : α → β) (l : List α) (m : OrderedMap κ β) (k : κ) :
    (l.foldl (fun m a => m.insert (key a) (f a)) m).get? k =
      ((lastOf key k l).map f).or (m.get? k) := by
  induction l using List.reverseRecOn with
  | nil => simp [lastOf]
  | append_singleton l a ih =>
    rw [foldl_append, foldl_cons, foldl_nil, OrderedMap.get?_insert]
    by_cases hk : k = key a
    · rw [hk, lastOf_append_self]
      simp
    · rw [if_neg hk, ih, lastOf_append_of_ne key l (Ne.symm hk)]

theorem le_lastOf {b : α} (hs : l.Pairwise fun a b => stamp a ≤ stamp b)
    (ha : lastOf key k l = some a) (hb : b ∈ l) (hk : key b = k) : stamp b ≤ stamp a := by
  have hof : b ∈ l.filter fun a => key a = k := mem_filter.mpr ⟨hb, decide_eq_true hk⟩
  have hsorted := hs.filter fun a => decide (key a = k)
  obtain ⟨_, hinit⟩ := getLast?_eq_some_iff.mp ha
  rw [hinit] at hof hsorted
  rcases mem_append.mp hof with hof | hof
  · exact (pairwise_append.mp hsorted).2.2 b hof a mem_cons_self
  · rw [mem_singleton.mp hof]

theorem map_lastOf_eq {β : Type*} (f : α → β) {order : List α} (hp : order.Perm l)
    (hs : order.Pairwise fun a b => stamp a ≤ stamp b) (ha : a ∈ l) (hk : key a = k)
    (hsame : ∀ b ∈ l, key b = k → stamp a ≤ stamp b → f b = f a) :
    (lastOf key k order).map f = some (f a) := by
  have hin : a ∈ order := hp.mem_iff.mpr ha
  cases hlast : lastOf key k order with
  | none => exact absurd hk ((lastOf_eq_none_iff key).mp hlast a hin)
  | some b =>
    obtain ⟨hb, hbk⟩ := lastOf_eq_some key hlast
    have hle := le_lastOf key stamp hs hlast hin hk
    rw [map_some, hsame b (hp.mem_iff.mp hb) hbk hle]

def latest (k : κ) (l : List α) : Option α := lastOf key k (byStamp stamp l)

section
variable {l : List α}

variable {a : α} {k : κ}

theorem latest_eq_some (h : latest key stamp k l = some a) : a ∈ l ∧ key a = k := by
  obtain ⟨ha, hk⟩ := lastOf_eq_some key h
  exact ⟨(mem_byStamp stamp).mp ha, hk⟩

theorem latest_eq_none_iff : latest key stamp k l = none ↔ ∀ a ∈ l, key a ≠ k := by
  simp only [latest, lastOf_eq_none_iff, mem_byStamp]

theorem le_latest {b : α} (h : latest key stamp k l = some a) (hb : b ∈ l) (hk : key b = k) :
    stamp b ≤ stamp a :=
  le_lastOf key stamp (byStamp_sorted stamp l) h ((mem_byStamp stamp).mpr hb) hk

theorem latest_append_self (h : ∀ b ∈ l, stamp b ≤ stamp a) :
    latest key stamp (key a) (l ++ [a]) = some a := by
  rw [latest, byStamp_append_newest stamp h, lastOf_append_self]

theorem latest_append_of_ne (h : ∀ b ∈ l, stamp b ≤ stamp a) (hk : key a ≠ k) :
    latest key stamp k (l ++ [a]) = latest key stamp k l := by
  rw [latest, byStamp_append_newest stamp h, lastOf_append_of_ne key _ hk, latest]

theorem latest_of_nodup (hnodup : (l.map key).Nodup) (ha : a ∈ l) :
    latest key stamp (key a) l = some a :=
  lastOf_of_nodup key (((byStamp_perm stamp l).map key).nodup_iff.mpr hnodup)
    ((mem_byStamp stamp).mpr ha)

end

end Latest

section Bounded
variable {α : Type*}

theorem rtake_append_rtake (n : ℕ) (l : List α) (a : α) :
    (l.rtake n ++ [a]).rtake n = (l ++ [a]).rtake n := by
  cases n with
  | zero => simp
  | succ =>
    rw [rtake_concat_succ, rtake_concat_succ, List.rtake, List.rtake, List.rtake,
      drop_drop, length_drop]
    congr 2
    omega

theorem rtake_of_length_le {n : ℕ} {l : List α} (h : l.length ≤ n) : l.rtake n = l := by
  rw [List.rtake, Nat.sub_eq_zero_of_le h, drop_zero]

theorem length_rtake (n : ℕ) (l : List α) : (l.rtake n).length = min n l.length := by
  rw [List.rtake, length_drop]
  omega

theorem filter_rtake (stamp : α → ℕ) (bound n : ℕ) {l : List α}
    (hs : l.Pairwise fun a b => stamp a < stamp b) : (l.rtake n).filter (fun a => bound < stamp a) =
      (l.filter fun a => bound < stamp a).rtake n := by
  induction l using List.reverseRecOn generalizing n with
  | nil => simp
  | append_singleton l a ih =>
    obtain ⟨hl, -, hla⟩ := pairwise_append.mp hs
    cases n with
    | zero => simp
    | succ n =>
      rw [rtake_concat_succ, filter_append, filter_append, ih n hl]
      by_cases ha : bound < stamp a
      · simp only [ha, filter_singleton, decide_true, cond_true, rtake_concat_succ]
      · have hnone : (l.filter fun b => bound < stamp b) = [] := by
          rw [filter_eq_nil_iff]
          intro b hb
          have hba := hla b hb a mem_cons_self
          rw [decide_eq_true_eq]
          omega
        simp [hnone, ha]

end Bounded

end Sodp.StampedLog
