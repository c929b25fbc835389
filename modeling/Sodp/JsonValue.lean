import Mathlib.Data.List.Infix
import Mathlib.Data.Rat.Defs
import Mathlib.Data.String.Basic
import Sodp.OrderedMap

/-!
# JSON values

`Value` follows `serde_json::Value`: an object is a map sorted by key, so equality is the `==` of
the source. A number is either an integer or a finite float and is never converted between the two.
Strings are ordered by code point as Rust orders them by byte.
-/

namespace Sodp

theorem bind_eq_ok_iff {ε α β : Type} {x : Except ε α} {f : α → Except ε β} {b : β} :
    (x >>= f) = .ok b ↔ ∃ a, x = .ok a ∧ f a = .ok b := by
  cases x <;> simp [bind, Except.bind]

theorem bind_pure_eq_ok_iff {ε α β : Type} {x : Except ε α} {f : α → β} {b : β} :
    (x >>= fun a => pure (f a)) = .ok b ↔ ∃ a, x = .ok a ∧ f a = b := by
  simp [bind_eq_ok_iff, pure, Except.pure]

inductive Number where
  | int (i : ℤ)
  | float (q : ℚ)
deriving DecidableEq

inductive Value where
  | null
  | bool (b : Bool)
  | number (n : Number)
  | string (s : String)
  | array (xs : List Value)
  | object (m : OrderedMap String Value)

variable {k : String}

namespace Value

@[elab_as_elim, induction_eliminator]
theorem fieldInduction {motive : Value → Prop} (null : motive .null) (bool : ∀ b, motive (.bool b))
    (number : ∀ n, motive (.number n)) (string : ∀ s, motive (.string s))
    (array : ∀ xs, (∀ x ∈ xs, motive x) → motive (.array xs))
    (object : ∀ m : OrderedMap String Value,
      (∀ k w, m.get? k = some w → motive w) → motive (.object m)) (v : Value) : motive v := by
  apply @Value.rec motive (fun xs => ∀ x ∈ xs, motive x)
    (fun m => ∀ k w, m.get? k = some w → motive w) null bool number string array object
  · intro x hx
    exact absurd hx List.not_mem_nil
  · intro x xs hx hxs
    exact List.forall_mem_cons.mpr ⟨hx, hxs⟩
  · intro ks hs f hf k w hw
    obtain ⟨hk, rfl⟩ := (OrderedMap.get?_eq_some_iff _ k w).mp hw
    exact hf ⟨k, hk⟩

mutual
def beq : Value → Value → Bool
  | .null, .null => true
  | .bool a, .bool b => a == b
  | .number a, .number b => a == b
  | .string a, .string b => a == b
  | .array xs, .array ys => beqList xs ys
  | .object ⟨ks, _, f⟩, .object ⟨ls, _, g⟩ =>
      decide (ks = ls) &&
        ks.attach.all fun k => if h : k.1 ∈ ls then beq (f k) (g ⟨k.1, h⟩) else false
  | _, _ => false
def beqList : List Value → List Value → Bool
  | [], [] => true
  | x :: xs, y :: ys => beq x y && beqList xs ys
  | _, _ => false
end

theorem beqList_iff {xs : List Value} (ih : ∀ x ∈ xs, ∀ w, beq x w = true ↔ x = w)
    (ys : List Value) : beqList xs ys = true ↔ xs = ys := by
  induction xs generalizing ys with
  | nil => cases ys <;> simp [beqList]
  | cons x xs hxs =>
    cases ys with
    | nil => simp [beqList]
    | cons y ys =>
      have hx := ih x List.mem_cons_self y
      have ht := hxs (fun z hz => ih z (List.mem_cons_of_mem x hz)) ys
      simp [beqList, hx, ht]

theorem beq_iff_eq (v w : Value) : beq v w = true ↔ v = w := by
  induction v generalizing w with
  | null | bool b | number n | string s => cases w <;> simp [beq]
  | array xs ih =>
    cases w with
    | array => simp [beq, beqList_iff ih]
    | _ => simp [beq]
  | object m ih =>
    cases w with
    | object =>
      rw [beq, Value.object.injEq]
      exact OrderedMap.fields_beq_iff ih
    | _ => simp [beq]

instance : DecidableEq Value := fun v w => decidable_of_iff (beq v w = true) (beq_iff_eq v w)

instance : Inhabited Value := ⟨.null⟩

def get? : Value → String → Option Value
  | .object m, k => m.get? k
  | _, _ => none

def isObject : Value → Bool
  | .object _ => true
  | _ => false

def asStr : Value → Option String
  | .string s => some s
  | _ => none

def asArray : Value → Option (List Value)
  | .array xs => some xs
  | _ => none

def asU64 : Value → Option ℕ
  | .number (.int (.ofNat n)) => if n < 2 ^ 64 then some n else none
  | _ => none

@[simp] theorem get?_object (m : OrderedMap String Value) (k : String) :
    (Value.object m).get? k = m.get? k := rfl

@[simp] theorem isObject_object (m : OrderedMap String Value) :
    (Value.object m).isObject = true := rfl

theorem isObject_iff (v : Value) : v.isObject = true ↔ ∃ m, v = .object m := by
  cases v <;> simp [isObject]

variable {v : Value} {P : String → Prop}

theorem get?_of_not_isObject (h : v.isObject = false) (k : String) : v.get? k = none := by
  cases v with
  | object => simp [isObject] at h
  | _ => rfl

/-- The value below a sequence of field names. Arrays are leaves. -/
def lookup : Value → List String → Option Value
  | v, [] => some v
  | v, k :: ks => (v.get? k).bind fun w => w.lookup ks

@[simp] theorem lookup_nil (v : Value) : v.lookup [] = some v := rfl

theorem lookup_cons (v : Value) (k : String) (ks : List String) :
    v.lookup (k :: ks) = (v.get? k).bind fun w => w.lookup ks := rfl

theorem lookup_append (v : Value) (p q : List String) :
    v.lookup (p ++ q) = (v.lookup p).bind fun w => w.lookup q := by
  induction p generalizing v with
  | nil => rfl
  | cons k p ih =>
    rw [List.cons_append, lookup_cons, lookup_cons, Option.bind_assoc]
    congr 1
    funext w
    exact ih w

def AllKeys (P : String → Prop) : Value → Prop
  | .object ⟨ks, _, f⟩ => ∀ k : {k // k ∈ ks}, P k.1 ∧ AllKeys P (f k)
  | _ => True

theorem allKeys_object {m : OrderedMap String Value} :
    AllKeys P (.object m) ↔ ∀ k v, m.get? k = some v → P k ∧ AllKeys P v := by
  obtain ⟨ks, hs, f⟩ := m
  constructor
  · intro h k v hv
    obtain ⟨hk, rfl⟩ := (OrderedMap.get?_eq_some_iff _ k v).mp hv
    exact h ⟨k, hk⟩
  · intro h k
    exact h k.1 (f k) (OrderedMap.get?_val ⟨ks, hs, f⟩ k)

def allKeys (p : String → Bool) : Value → Bool
  | .object ⟨ks, _, f⟩ => ks.attach.all fun k => p k.1 && allKeys p (f k)
  | _ => true

theorem allKeys_iff (p : String → Bool) (v : Value) :
    allKeys p v = true ↔ AllKeys (fun k => p k = true) v := by
  induction v with
  | object m ih =>
    obtain ⟨ks, hs, f⟩ := m
    simp only [allKeys, List.all_eq_true, List.mem_attach, true_implies, Bool.and_eq_true, AllKeys]
    refine forall_congr' fun k => and_congr Iff.rfl ?_
    exact ih k.1 (f k) (OrderedMap.get?_val ⟨ks, hs, f⟩ k)
  | _ => simp [allKeys, AllKeys]

instance decidableAllKeys (P : String → Prop) [DecidablePred P] (v : Value) :
    Decidable (AllKeys P v) :=
  decidable_of_iff (allKeys (fun k => decide (P k)) v = true)
    ((allKeys_iff _ v).trans (by simp only [decide_eq_true_eq]))

theorem AllKeys.get? {w : Value} (h : AllKeys P v) (hw : v.get? k = some w) :
    P k ∧ AllKeys P w := by
  cases v with
  | object => exact allKeys_object.mp h k w hw
  | _ => simp [Value.get?] at hw

theorem AllKeys.mono {Q : String → Prop} (hPQ : ∀ k, P k → Q k) (h : AllKeys P v) :
    AllKeys Q v := by
  induction v with
  | object m ih =>
    rw [allKeys_object] at h ⊢
    exact fun k w hw => ⟨hPQ k (h k w hw).1, ih k w hw (h k w hw).2⟩
  | _ => trivial

theorem AllKeys.lookup {w : Value} {p : List String} (h : AllKeys P v) (hw : v.lookup p = some w) :
    (∀ k ∈ p, P k) ∧ AllKeys P w := by
  induction p generalizing v with
  | nil =>
    rw [lookup_nil] at hw
    cases hw
    exact ⟨fun k hk => absurd hk List.not_mem_nil, h⟩
  | cons k p ih =>
    rw [lookup_cons, Option.bind_eq_some_iff] at hw
    obtain ⟨u, hu, hw⟩ := hw
    obtain ⟨hk, hku⟩ := h.get? hu
    obtain ⟨hp, hw'⟩ := ih hku hw
    refine ⟨?_, hw'⟩
    intro j hj
    rcases List.mem_cons.mp hj with rfl | hj
    · exact hk
    · exact hp j hj

end Value

/-! ### Positions -/

def Apart (p q : List String) : Prop := ¬ p <+: q ∧ ¬ q <+: p

namespace Apart

variable {p q : List String}

theorem symm (h : Apart p q) : Apart q p := ⟨h.2, h.1⟩

theorem cons_iff : Apart (k :: p) (k :: q) ↔ Apart p q := by
  simp only [Apart, List.prefix_cons_inj]

theorem ne_nil (h : Apart p q) : q ≠ [] := by
  rintro rfl
  exact h.2 List.nil_prefix

theorem ne_nil_left (h : Apart p q) : p ≠ [] := h.symm.ne_nil

theorem exists_cons {ks : List String} (h : Apart (k :: ks) p) :
    ∃ j p', p = j :: p' ∧ (j ≠ k ∨ j = k ∧ Apart ks p') := by
  cases p with
  | nil => exact absurd rfl h.ne_nil
  | cons j p' =>
    refine ⟨j, p', rfl, ?_⟩
    by_cases hj : j = k
    · subst hj
      exact .inr ⟨rfl, cons_iff.mp h⟩
    · exact .inl hj

theorem append_right (h : Apart p q) (t : List String) : Apart p (q ++ t) := by
  refine ⟨fun hp => ?_, fun hq => h.2 ((List.prefix_append q t).trans hq)⟩
  rcases List.prefix_or_prefix_of_prefix hp (List.prefix_append q t) with hpq | hqp
  · exact h.1 hpq
  · exact h.2 hqp

end Apart

def Value.ofFields (fields : List (String × Value)) : Value :=
  .object (fields.foldl (fun m kv => m.insert kv.1 kv.2) .empty)

end Sodp
