import Sodp.JsonValue
import Sodp.ScriptNumber

/-!
# Values held by the TypeScript client

A client document is what MessagePack decoding and the client's own writes can
build: an object is its own enumerable fields, and an array also carries holes
and the extra properties that an assignment under a non-index key leaves on it.
Number tokens are not converted. `JsValue.ofJson` is the lossless decoding of a
server value.
-/

namespace Sodp
open OrderedMap List Option

/-- The name of an own array property that is not an element: a number that is
no array index, or a text that does not convert to a number. -/
inductive ArrayKey where
  | number (n : JsNumber)
  | name (s : String)
deriving DecidableEq

inductive JsValue where
  | undefined
  | null
  | bool (b : Bool)
  | number (n : Number)
  | string (s : String)
  | array (elems : List (Option JsValue)) (props : List (ArrayKey × JsValue))
  | object (m : OrderedMap String JsValue)

namespace JsValue

@[elab_as_elim, induction_eliminator]
theorem fieldInduction {motive : JsValue → Prop} (undefined : motive .undefined)
    (null : motive .null) (bool : ∀ b, motive (.bool b)) (number : ∀ n, motive (.number n))
    (string : ∀ s, motive (.string s))
    (array : ∀ elems props, (∀ v, some v ∈ elems → motive v) → (∀ kv ∈ props, motive kv.2) →
      motive (.array elems props)) (object : ∀ m : OrderedMap String JsValue,
      (∀ k w, m.get? k = some w → motive w) → motive (.object m)) (v : JsValue) : motive v := by
  apply @JsValue.rec motive (fun elems => ∀ v, some v ∈ elems → motive v)
    (fun props => ∀ kv ∈ props, motive kv.2) (fun m => ∀ k w, m.get? k = some w → motive w)
    (fun o => ∀ v, o = some v → motive v) (fun kv => motive kv.2)
    undefined null bool number string array object
  · intro v hv
    exact absurd hv not_mem_nil
  · intro o elems ho helems v hv
    rcases mem_cons.mp hv with hv | hv
    · exact ho v hv.symm
    · exact helems v hv
  · intro kv hkv
    exact absurd hkv not_mem_nil
  · intro kv props hkv hprops
    exact forall_mem_cons.mpr ⟨hkv, hprops⟩
  · intro ks hs f hf k w hw
    obtain ⟨hk, rfl⟩ := (get?_eq_some_iff _ k w).mp hw
    exact hf ⟨k, hk⟩
  · intro v hv
    simp at hv
  · intro w hw v hv
    exact some.inj hv ▸ hw
  · intro k w hw
    exact hw

mutual
def beq : JsValue → JsValue → Bool
  | .undefined, .undefined => true
  | .null, .null => true
  | .bool a, .bool b => a == b
  | .number a, .number b => a == b
  | .string a, .string b => a == b
  | .array xs ps, .array ys qs => beqElems xs ys && beqProps ps qs
  | .object ⟨ks, _, f⟩, .object ⟨ls, _, g⟩ =>
      decide (ks = ls) &&
        ks.attach.all fun k => if h : k.1 ∈ ls then beq (f k) (g ⟨k.1, h⟩) else false
  | _, _ => false
def beqElems : List (Option JsValue) → List (Option JsValue) → Bool
  | [], [] => true
  | none :: xs, none :: ys => beqElems xs ys
  | some x :: xs, some y :: ys => beq x y && beqElems xs ys
  | _, _ => false
def beqProps : List (ArrayKey × JsValue) → List (ArrayKey × JsValue) → Bool
  | [], [] => true
  | (k, x) :: ps, (l, y) :: qs => decide (k = l) && beq x y && beqProps ps qs
  | _, _ => false
end

theorem beqElems_iff {xs : List (Option JsValue)}
    (ih : ∀ v, some v ∈ xs → ∀ w, beq v w = true ↔ v = w) (ys : List (Option JsValue)) :
    beqElems xs ys = true ↔ xs = ys := by
  induction xs generalizing ys with
  | nil => cases ys <;> simp [beqElems]
  | cons x xs hxs =>
    have ht := hxs fun v hv => ih v (mem_cons_of_mem x hv)
    cases ys with
    | nil => cases x <;> simp [beqElems]
    | cons y =>
      cases x with
      | none => cases y <;> simp [beqElems, ht]
      | some v =>
        have hv := ih v mem_cons_self
        cases y <;> simp [beqElems, ht, hv]

theorem beqProps_iff {ps : List (ArrayKey × JsValue)}
    (ih : ∀ kv ∈ ps, ∀ w, beq kv.2 w = true ↔ kv.2 = w) (qs : List (ArrayKey × JsValue)) :
    beqProps ps qs = true ↔ ps = qs := by
  induction ps generalizing qs with
  | nil => cases qs <;> simp [beqProps]
  | cons p ps hps =>
    have ht := hps fun kv hkv => ih kv (mem_cons_of_mem p hkv)
    have hp := ih p mem_cons_self
    cases qs with
    | nil => simp [beqProps]
    | cons q =>
      obtain ⟨k, v⟩ := p
      obtain ⟨l, w⟩ := q
      simp [beqProps, ht, hp, and_assoc]

theorem beq_iff_eq (v w : JsValue) : beq v w = true ↔ v = w := by
  induction v generalizing w with
  | array xs ps hxs hps =>
    cases w with
    | array => simp [beq, beqElems_iff hxs, beqProps_iff hps]
    | _ => simp [beq]
  | object m ih =>
    cases w with
    | object =>
      rw [beq, JsValue.object.injEq]
      exact OrderedMap.fields_beq_iff ih
    | _ => simp [beq]
  | _ => cases w <;> simp [beq]

instance : DecidableEq JsValue := fun v w => decidable_of_iff (beq v w = true) (beq_iff_eq v w)

mutual
def ofJson : Value → JsValue
  | .null => .null
  | .bool b => .bool b
  | .number n => .number n
  | .string s => .string s
  | .array xs => .array (ofJsonList xs) []
  | .object ⟨ks, hs, f⟩ => .object ⟨ks, hs, fun k => ofJson (f k)⟩
def ofJsonList : List Value → List (Option JsValue)
  | [] => []
  | x :: xs => some (ofJson x) :: ofJsonList xs
end

theorem ofJson_object (m : OrderedMap String Value) :
    ofJson (.object m) = .object (m.map ofJson) := by
  obtain ⟨-, -, f⟩ := m
  rw [ofJson]
  rfl

theorem ofJsonList_eq_map (xs : List Value) : ofJsonList xs = xs.map fun x => some (ofJson x) := by
  induction xs with
  | nil => rfl
  | cons x xs ih => rw [ofJsonList, map_cons, ih]

theorem length_ofJsonList (xs : List Value) : (ofJsonList xs).length = xs.length := by
  rw [ofJsonList_eq_map, length_map]

theorem ofJsonList_injective {xs : List Value}
    (ih : ∀ x ∈ xs, ∀ w, ofJson x = ofJson w → x = w) (ys : List Value)
    (h : ofJsonList xs = ofJsonList ys) : xs = ys := by
  induction xs generalizing ys with
  | nil =>
    cases ys with
    | nil => rfl
    | cons => simp [ofJsonList] at h
  | cons x xs hxs =>
    cases ys with
    | nil => simp [ofJsonList] at h
    | cons y ys =>
      simp only [ofJsonList, List.cons.injEq, some.injEq] at h
      rw [ih x mem_cons_self y h.1, hxs (fun z hz => ih z (mem_cons_of_mem x hz)) ys h.2]

theorem ofJson_injective : Function.Injective ofJson := by
  intro v
  induction v with
  | array xs ih =>
    intro w h
    cases w with
    | array ys =>
      simp only [ofJson, JsValue.array.injEq, and_true] at h
      rw [ofJsonList_injective (fun x hx w hw => ih x hx hw) ys h]
    | _ => simp [ofJson] at h
  | object m ih =>
    intro w h
    cases w with
    | object n =>
      rw [ofJson_object, ofJson_object, JsValue.object.injEq] at h
      congr 1
      apply ext_get?
      intro k
      have hk : (m.get? k).map ofJson = (n.get? k).map ofJson := by
        rw [← get?_map, ← get?_map, h]
      cases hm : m.get? k with
      | none =>
        rw [hm, map_none] at hk
        exact (map_eq_none_iff.mp hk.symm).symm
      | some a =>
        rw [hm, map_some] at hk
        obtain ⟨b, hb, hab⟩ := map_eq_some_iff.mp hk.symm
        rw [hb, ih k a hm hab.symm]
    | _ => simp [ofJson] at h
  | _ =>
    intro w h
    cases w with
    | object => simp [ofJson] at h
    | _ => simp_all [ofJson]

def get? : JsValue → String → Option JsValue
  | .object m, k => m.get? k
  | _, _ => none

def lookup : JsValue → List String → Option JsValue
  | v, [] => some v
  | v, k :: ks => (v.get? k).bind fun w => w.lookup ks

@[simp] theorem get?_object (m : OrderedMap String JsValue) (k : String) :
    (JsValue.object m).get? k = m.get? k := rfl

@[simp] theorem lookup_nil (v : JsValue) : v.lookup [] = some v := rfl

theorem lookup_cons (v : JsValue) (k : String) (ks : List String) :
    v.lookup (k :: ks) = (v.get? k).bind fun w => w.lookup ks := rfl

theorem get?_ofJson (v : Value) (k : String) : (ofJson v).get? k = (v.get? k).map ofJson := by
  cases v with
  | object => rw [ofJson_object, get?_object, get?_map, Value.get?_object]
  | _ => simp [ofJson, get?, Value.get?]

theorem lookup_ofJson (v : Value) (p : List String) :
    (ofJson v).lookup p = (v.lookup p).map ofJson := by
  induction p generalizing v with
  | nil => rfl
  | cons k p ih =>
    rw [lookup_cons, Value.lookup_cons, get?_ofJson]
    cases v.get? k with
    | none => rfl
    | some w => exact ih w

def Agree (a b : Option JsValue) : Prop :=
  a = b ∨ (∃ m, a = some (.object m)) ∧ ∃ n, b = some (.object n)

theorem Agree.trans {a b c : Option JsValue} (hab : Agree a b) (hbc : Agree b c) : Agree a c := by
  rcases hab with rfl | ⟨ha, n, rfl⟩
  · exact hbc
  · rcases hbc with rfl | ⟨-, hc⟩
    · exact .inr ⟨ha, n, rfl⟩
    · exact .inr ⟨ha, hc⟩

theorem eq_of_agree (v : Value) (s : JsValue)
    (h : ∀ p, Agree (s.lookup p) ((ofJson v).lookup p)) : s = ofJson v := by
  induction v generalizing s with
  | object m ih =>
    have hroot := h []
    rw [ofJson_object] at hroot ⊢
    rcases hroot with heq | ⟨⟨n, hn⟩, -⟩
    · exact some.inj heq
    · rw [lookup_nil] at hn
      cases hn
      congr 1
      apply ext_get?
      intro k
      have hk : ∀ p, Agree ((n.get? k).bind fun w => w.lookup p)
          ((m.get? k).bind fun w => (ofJson w).lookup p) := by
        intro p
        have hp := h (k :: p)
        rw [ofJson_object, lookup_cons, lookup_cons, get?_object, get?_object, get?_map] at hp
        cases hm : m.get? k <;> simpa [hm] using hp
      rw [get?_map]
      cases hm : m.get? k with
      | none =>
        have h0 := hk []
        rw [hm] at h0
        cases hn : n.get? k with
        | none => rfl
        | some => simp [hn, Agree] at h0
      | some w =>
        cases hn : n.get? k with
        | none =>
          have h0 := hk []
          simp [hm, hn, Agree] at h0
        | some s =>
          rw [map_some, ih k w hm s]
          intro p
          have hp := hk p
          rwa [hm, hn, bind_some, bind_some] at hp
  | array =>
    rcases h [] with heq | ⟨-, n, hn⟩
    · exact some.inj heq
    · simp [ofJson] at hn
  | _ =>
    rcases h [] with heq | ⟨-, n, hn⟩
    · exact some.inj heq
    · simp [ofJson] at hn

def isContainer : JsValue → Bool
  | .array _ _ | .object _ => true
  | _ => false

/-- `ToNumber` of a value whose text is the concatenation of at most one element,
which is how an array converts. -/
def elementNumber : JsValue → JsNumber
  | .undefined | .null => .finite 0
  | .number (.int i) => JsNumber.roundToDouble i
  | .number (.float q) => .finite q
  | .string s => JsNumber.stringToNumber s
  | .array [] _ | .array [none] _ => .finite 0
  | .array [some v] _ => elementNumber v
  | _ => .nan

def toNumber : JsValue → JsNumber
  | .undefined => .nan
  | .bool b => .finite (if b then 1 else 0)
  | v => elementNumber v

end JsValue
end Sodp
