import Mathlib.Data.List.Sort
import Mathlib.Order.Basic
import Mathlib.Tactic.Ext

/-!
# Finite maps with a canonical key order

A map is a strictly increasing list of keys with one value for each of them, so
neither an unordered nor a duplicate key can be written down and two maps with
the same lookups are equal. Every operation is an instance of `ofLookup`, which
tabulates a lookup function on a sorted list of candidate keys.
-/

namespace Sodp
open List

structure OrderedMap (κ : Type*) [LinearOrder κ] (α : Type*) where
  keys : List κ
  sorted : keys.Pairwise (· < ·)
  val : {k // k ∈ keys} → α

namespace OrderedMap
variable {κ : Type*} [LinearOrder κ] {α β : Type*}

def get? (m : OrderedMap κ α) (k : κ) : Option α :=
  if h : k ∈ m.keys then some (m.val ⟨k, h⟩) else none

variable {k : κ} {ks : List κ} {m : OrderedMap κ α}

theorem get?_of_mem (m : OrderedMap κ α) (h : k ∈ m.keys) :
    m.get? k = some (m.val ⟨k, h⟩) := dif_pos h

theorem get?_eq_none_iff (m : OrderedMap κ α) (k : κ) : m.get? k = none ↔ k ∉ m.keys := by
  by_cases h : k ∈ m.keys <;> simp [get?, h]

theorem mem_keys_iff (m : OrderedMap κ α) (k : κ) : k ∈ m.keys ↔ ∃ v, m.get? k = some v := by
  by_cases h : k ∈ m.keys <;> simp [get?, h]

theorem get?_val (m : OrderedMap κ α) (k : {k // k ∈ m.keys}) : m.get? k.1 = some (m.val k) :=
  get?_of_mem m k.2

theorem get?_eq_some_iff (m : OrderedMap κ α) (k : κ) (v : α) :
    m.get? k = some v ↔ ∃ h : k ∈ m.keys, m.val ⟨k, h⟩ = v := by
  by_cases h : k ∈ m.keys <;> simp [get?, h]

theorem ext_get? {n : OrderedMap κ α} (h : ∀ k, m.get? k = n.get? k) : m = n := by
  have hkeys : m.keys = n.keys := m.sorted.eq_of_mem_iff n.sorted fun k => by
    rw [mem_keys_iff, mem_keys_iff, h]
  obtain ⟨ks, hs, f⟩ := m
  obtain ⟨ls, ht, g⟩ := n
  obtain rfl : ks = ls := hkeys
  congr
  funext k
  have hk := h k.1
  simpa [get?, k.2] using hk

theorem fields_beq_iff {n : OrderedMap κ α} {eq : α → α → Bool}
    (ih : ∀ k w, m.get? k = some w → ∀ v, eq w v = true ↔ w = v) :
    (decide (m.keys = n.keys) && m.keys.attach.all fun k =>
      if h : k.1 ∈ n.keys then eq (m.val k) (n.val ⟨k.1, h⟩) else false) = true ↔ m = n := by
  obtain ⟨ks, hs, f⟩ := m
  obtain ⟨ls, -, g⟩ := n
  have hf := fun k => ih k.1 (f k) (get?_val ⟨ks, hs, f⟩ k)
  simp only [Bool.and_eq_true, decide_eq_true_eq, all_eq_true, mem_attach, true_implies, mk.injEq]
  constructor
  · rintro ⟨rfl, h⟩
    refine ⟨rfl, heq_of_eq (funext fun k => ?_)⟩
    have hk := h k
    rw [dif_pos k.2] at hk
    exact (hf k _).mp hk
  · rintro ⟨rfl, h⟩
    obtain rfl := eq_of_heq h
    refine ⟨rfl, fun k => ?_⟩
    rw [dif_pos k.2]
    exact (hf k _).mpr rfl

def ofLookup (ks : List κ) (hs : ks.Pairwise (· < ·)) (f : κ → Option α) : OrderedMap κ α where
  keys := ks.filter fun k => (f k).isSome
  sorted := hs.filter _
  val := fun k => (f k.1).get (mem_filter.mp k.2).2

theorem get?_ofLookup (ks : List κ) (hs : ks.Pairwise (· < ·)) (f : κ → Option α) (k : κ) :
    (ofLookup ks hs f).get? k = if k ∈ ks then f k else none := by
  by_cases hk : k ∈ ks
  · cases hf : f k with
    | none | some v => simp [get?, ofLookup, hk, hf]
  · simp [get?, ofLookup, hk]

def empty : OrderedMap κ α := ⟨[], List.Pairwise.nil, fun k => absurd k.2 not_mem_nil⟩

@[simp] theorem get?_empty (k : κ) : (empty : OrderedMap κ α).get? k = none := by
  simp [get?, empty]

def insertKey (k : κ) : List κ → List κ
  | [] => [k]
  | x :: xs => if k < x then k :: x :: xs else if k = x then x :: xs else x :: insertKey k xs

theorem mem_insertKey (k j : κ) (ks : List κ) : j ∈ insertKey k ks ↔ j = k ∨ j ∈ ks := by
  induction ks with
  | nil => simp [insertKey]
  | cons x xs ih =>
    simp only [insertKey]
    split_ifs with hlt heq
    · simp
    · subst heq
      simp
    · simp only [mem_cons, ih]
      tauto

theorem insertKey_sorted (k : κ) (hs : ks.Pairwise (· < ·)) :
    (insertKey k ks).Pairwise (· < ·) := by
  induction ks with
  | nil => simp [insertKey]
  | cons x xs ih =>
    obtain ⟨hx, hxs⟩ := pairwise_cons.mp hs
    simp only [insertKey]
    split_ifs with hlt heq
    · refine pairwise_cons.mpr ⟨?_, hs⟩
      intro y hy
      rcases mem_cons.mp hy with rfl | hy
      · exact hlt
      · exact hlt.trans (hx y hy)
    · exact hs
    · refine pairwise_cons.mpr ⟨?_, ih hxs⟩
      intro y hy
      rcases (mem_insertKey k y xs).mp hy with rfl | hy
      · exact lt_of_le_of_ne (not_lt.mp hlt) (Ne.symm heq)
      · exact hx y hy

def insert (m : OrderedMap κ α) (k : κ) (v : α) : OrderedMap κ α :=
  ofLookup (insertKey k m.keys) (insertKey_sorted k m.sorted)
    fun j => if j = k then some v else m.get? j

theorem get?_insert (m : OrderedMap κ α) (k j : κ) (v : α) :
    (m.insert k v).get? j = if j = k then some v else m.get? j := by
  rw [insert, get?_ofLookup]
  by_cases hj : j = k
  · simp [mem_insertKey, hj]
  · by_cases hm : j ∈ m.keys
    · simp [mem_insertKey, hj, hm]
    · simp [mem_insertKey, hj, hm, (get?_eq_none_iff m j).mpr hm]

@[simp] theorem get?_insert_self (m : OrderedMap κ α) (k : κ) (v : α) :
    (m.insert k v).get? k = some v := by simp [get?_insert]

theorem get?_insert_of_ne (m : OrderedMap κ α) {j : κ} (h : j ≠ k) (v : α) :
    (m.insert k v).get? j = m.get? j := by simp [get?_insert, h]

theorem insert_get? (m : OrderedMap κ α) {v : α} (h : m.get? k = some v) : m.insert k v = m := by
  apply ext_get?
  intro j
  rw [get?_insert]
  split_ifs with hj
  · rw [hj, h]
  · rfl

theorem insert_eq_self_iff {v : α} : m.insert k v = m ↔ m.get? k = some v := by
  refine ⟨fun h => ?_, m.insert_get?⟩
  rw [← h]
  exact get?_insert_self m k v

theorem mem_keys_insert (m : OrderedMap κ α) (k j : κ) (v : α) :
    j ∈ (m.insert k v).keys ↔ j = k ∨ j ∈ m.keys := by
  rw [mem_keys_iff, mem_keys_iff, get?_insert]
  split_ifs with h <;> simp [h]

theorem keys_insert_of_mem (h : k ∈ m.keys) (v : α) : (m.insert k v).keys = m.keys := by
  refine (m.insert k v).sorted.eq_of_mem_iff m.sorted fun j => ?_
  rw [mem_keys_insert]
  exact or_iff_right_of_imp fun hj => hj ▸ h

theorem keys_insert_of_lt (h : ∀ j ∈ m.keys, j < k) (v : α) :
    (m.insert k v).keys = m.keys ++ [k] := by
  have hs : (m.keys ++ [k]).Pairwise (· < ·) := by
    rw [pairwise_append]
    refine ⟨m.sorted, pairwise_singleton _ _, fun j hj i hi => ?_⟩
    rw [mem_singleton.mp hi]
    exact h j hj
  refine (m.insert k v).sorted.eq_of_mem_iff hs fun j => ?_
  rw [mem_keys_insert, mem_append, mem_singleton, or_comm]

theorem nodup_keys (m : OrderedMap κ α) : m.keys.Nodup := m.sorted.imp fun h => h.ne

theorem length_keys_insert_of_notMem (h : k ∉ m.keys) (v : α) :
    (m.insert k v).keys.length = m.keys.length + 1 := by
  have hperm : (m.insert k v).keys.Perm (k :: m.keys) := by
    refine (perm_ext_iff_of_nodup (m.insert k v).nodup_keys
      (nodup_cons.mpr ⟨h, m.nodup_keys⟩)).mpr fun j => ?_
    rw [mem_keys_insert, mem_cons]
  exact hperm.length_eq

def erase (m : OrderedMap κ α) (k : κ) : OrderedMap κ α :=
  ofLookup m.keys m.sorted fun j => if j = k then none else m.get? j

theorem get?_erase (m : OrderedMap κ α) (k j : κ) :
    (m.erase k).get? j = if j = k then none else m.get? j := by
  rw [erase, get?_ofLookup]
  by_cases hm : j ∈ m.keys
  · simp [hm]
  · simp [hm, (get?_eq_none_iff m j).mpr hm]

@[simp] theorem get?_erase_self (m : OrderedMap κ α) (k : κ) : (m.erase k).get? k = none := by
  simp [get?_erase]

theorem get?_erase_of_ne (m : OrderedMap κ α) {j : κ} (h : j ≠ k) :
    (m.erase k).get? j = m.get? j := by simp [get?_erase, h]

theorem erase_of_get?_eq_none (h : m.get? k = none) : m.erase k = m := by
  apply ext_get?
  intro j
  rw [get?_erase]
  split_ifs with hj
  · rw [hj, h]
  · rfl

theorem length_keys_erase_le (m : OrderedMap κ α) (k : κ) :
    (m.erase k).keys.length ≤ m.keys.length := length_filter_le _ _

theorem get?_foldl_erase (ks : List κ) (m : OrderedMap κ α) (j : κ) :
    (ks.foldl erase m).get? j = if j ∈ ks then none else m.get? j := by
  induction ks generalizing m with
  | nil => simp
  | cons k ks ih =>
    rw [foldl_cons, ih, get?_erase]
    by_cases hjk : j = k <;> simp [hjk]

theorem mem_union (a b : OrderedMap κ α) (k : κ) :
    k ∈ a.keys ++ b.keys.filter (fun k => k ∉ a.keys) ↔ k ∈ a.keys ∨ k ∈ b.keys := by
  simp only [mem_append, mem_filter, decide_eq_true_eq]
  tauto

theorem nodup_union (a b : OrderedMap κ α) :
    (a.keys ++ b.keys.filter fun k => k ∉ a.keys).Nodup := by
  refine a.nodup_keys.append (b.nodup_keys.filter _) fun k hk hk' => ?_
  exact of_decide_eq_true (mem_filter.mp hk').2 hk

/-- A loop over the keys that gives each of them its new content. -/
theorem foldl_settles {σ : Type*} {w : OrderedMap κ α → σ} {f : σ → κ → σ} {c : κ → Option α}
    {old : OrderedMap κ α}
    (hf : ∀ m k, m.get? k = old.get? k → ∃ m', f (w m) k = w m' ∧
      ∀ j, m'.get? j = if j = k then c k else m.get? j)
    (hks : ks.Nodup) (hm : ∀ k ∈ ks, m.get? k = old.get? k) :
    ∃ t, ks.foldl f (w m) = w t ∧ ∀ j, t.get? j = if j ∈ ks then c j else m.get? j := by
  induction ks generalizing m with
  | nil => exact ⟨m, rfl, fun j => rfl⟩
  | cons k ks ih =>
    obtain ⟨hk, hks⟩ := nodup_cons.mp hks
    obtain ⟨m', hw, hget⟩ := hf m k (hm k mem_cons_self)
    have hm' : ∀ j ∈ ks, m'.get? j = old.get? j := by
      intro j hj
      have hne : j ≠ k := fun h => hk (h ▸ hj)
      rw [hget, if_neg hne, hm j (mem_cons_of_mem k hj)]
    obtain ⟨t, ht, hc⟩ := ih hks hm'
    refine ⟨t, by rw [foldl_cons, hw, ht], fun j => ?_⟩
    rw [hc, hget]
    by_cases hj : j = k <;> simp [hj, hk]

theorem get?_foldl_update (g : κ → Option α → α) (hks : ks.Nodup) (m : OrderedMap κ α) (j : κ) :
    (ks.foldl (fun m k => m.insert k (g k (m.get? k))) m).get? j =
      if j ∈ ks then some (g j (m.get? j)) else m.get? j := by
  obtain ⟨t, ht, hget⟩ := foldl_settles (w := id) (c := fun k => some (g k (m.get? k)))
    (f := fun m k => m.insert k (g k (m.get? k))) (fun n k hk => by
      refine ⟨_, rfl, fun j => ?_⟩
      rw [← hk]
      exact get?_insert ..) hks fun k _ => rfl
  rw [show foldl _ m ks = t from ht, hget]

def map (f : α → β) (m : OrderedMap κ α) : OrderedMap κ β :=
  ⟨m.keys, m.sorted, fun k => f (m.val k)⟩

@[simp] theorem get?_map (f : α → β) (m : OrderedMap κ α) (k : κ) :
    (m.map f).get? k = (m.get? k).map f := by
  by_cases h : k ∈ m.keys <;> simp [get?, map, h]

theorem map_injective {f : α → β} (hf : Function.Injective f) :
    Function.Injective (map f : OrderedMap κ α → OrderedMap κ β) := by
  intro m n h
  apply ext_get?
  intro k
  have hk : (m.map f).get? k = (n.map f).get? k := by rw [h]
  rw [get?_map, get?_map] at hk
  exact Option.map_injective hf hk

theorem map_insert (f : α → β) (m : OrderedMap κ α) (k : κ) (v : α) :
    (m.insert k v).map f = (m.map f).insert k (f v) := by
  apply ext_get?
  intro j
  simp only [get?_map, get?_insert]
  split_ifs <;> rfl

theorem map_erase (f : α → β) (m : OrderedMap κ α) (k : κ) :
    (m.erase k).map f = (m.map f).erase k := by
  apply ext_get?
  intro j
  simp only [get?_map, get?_erase]
  split_ifs <;> rfl

def toList (m : OrderedMap κ α) : List (κ × α) := m.keys.attach.map fun k => (k.1, m.val k)

theorem mem_toList (m : OrderedMap κ α) (k : κ) (v : α) :
    (k, v) ∈ m.toList ↔ m.get? k = some v := by
  simp [toList, get?_eq_some_iff]

theorem map_fst_toList (m : OrderedMap κ α) : m.toList.map Prod.fst = m.keys := by
  simp [toList, Function.comp_def]

theorem eq_toList {l : List (κ × α)} (hs : (l.map Prod.fst).Pairwise (· < ·))
    (h : ∀ k v, (k, v) ∈ l ↔ m.get? k = some v) : l = m.toList := by
  have ht : (m.toList.map Prod.fst).Pairwise (· < ·) := by
    rw [map_fst_toList]
    exact m.sorted
  rw [pairwise_map] at hs ht
  have hp : l.Perm m.toList := by
    rw [perm_ext_iff_of_nodup (hs.imp fun hab he => absurd (he ▸ hab) (lt_irrefl _))
      (ht.imp fun hab he => absurd (he ▸ hab) (lt_irrefl _))]
    intro kv
    rw [h, mem_toList]
  exact hp.eq_of_pairwise (fun a b _ _ hab hba => absurd hba (not_lt.mpr hab.le)) hs ht

theorem toList_insert_of_le (hk : ∀ j ∈ m.keys, j ≤ k) (v : α) :
    (m.insert k v).toList = (m.toList.filter fun kv => kv.1 ≠ k) ++ [(k, v)] := by
  refine (eq_toList ?_ fun j w => ?_).symm
  · rw [map_append, pairwise_append]
    refine ⟨?_, pairwise_singleton _ _, fun a ha b hb => ?_⟩
    · have hsub := (filter_sublist (p := fun kv : κ × α => decide (kv.1 ≠ k))
        (l := m.toList)).map Prod.fst
      rw [map_fst_toList] at hsub
      exact m.sorted.sublist hsub
    · rw [map_singleton, mem_singleton] at hb
      obtain ⟨⟨j, w⟩, hjw, rfl⟩ := mem_map.mp ha
      rw [mem_filter, mem_toList] at hjw
      have hj : j ∈ m.keys := (mem_keys_iff m j).mpr ⟨w, hjw.1⟩
      rw [hb]
      exact lt_of_le_of_ne (hk j hj) (by simpa using hjw.2)
  · rw [get?_insert, mem_append, mem_filter, mem_toList]
    by_cases hj : j = k
    · simp [hj, eq_comm]
    · simp [hj]

end OrderedMap
end Sodp
