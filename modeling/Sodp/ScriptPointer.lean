import Sodp.DeltaApply

/-!
# The delta applier of the TypeScript server

`jsonpointer.ts` applies an op to a copy of the value: each container on the way is copied one level
deep, and a missing one is made an array or an object by the segment that follows. An op can fail: a
property of a scalar cannot be assigned, an array takes `-` for an append only, and a name inherited
from `Object.prototype` leads out of the document. A copy of an array keeps its elements only.
-/

namespace Sodp.ScriptServer
open List
open Client (readIndex writeIndex spliceStart maxArrayLength)
open JsNumber (stringToNumber)

inductive PointerFault where
  | invalidPointer
  | notAnObject
  | appendOnly
  | invalidArrayLength
  /-- The source goes on in a function of `Object.prototype`, which is no document. -/
  | builtinReached
deriving DecidableEq

instance : DecidableEq (Except PointerFault JsValue)
  | .ok v, .ok w => decidable_of_iff (v = w) (by rw [Except.ok.injEq])
  | .error e, .error f => decidable_of_iff (e = f) (by rw [Except.error.injEq])
  | .ok _, .error _ => isFalse nofun
  | .error _, .ok _ => isFalse nofun

/-! ### Paths -/

def replacePair (a b c : Char) : List Char → List Char
  | x :: y :: rest =>
    if x = a ∧ y = b then c :: replacePair a b c rest else x :: replacePair a b c (y :: rest)
  | l => l

def unescape (seg : List Char) : List Char :=
  replacePair '~' '0' '~' (replacePair '~' '1' '/' seg)

def escape (key : List Char) : List Char :=
  (key.flatMap fun c => if c = '~' then ['~', '0'] else [c]).flatMap fun c =>
    if c = '/' then ['~', '1'] else [c]

def parsePath (pointer : String) : Except PointerFault (List String) :=
  if pointer = "" ∨ pointer = "/" then .ok []
  else if pointer.toList.head? ≠ some '/' then .error .invalidPointer
  else .ok (((pointer.toList.drop 1).splitOn '/').map fun seg => String.ofList (unescape seg))

/-- `/^(0|[1-9][0-9]*)$/`, or `-` -/
def isArrayLikeSegment (seg : String) : Bool :=
  seg = "-" || seg = "0" ||
    (seg.toList.head?.any fun c => c ≠ '0') && seg.toList.all Char.isDigit

def seed (segment : String) : JsValue :=
  if isArrayLikeSegment segment then .array [] [] else .object .empty

def cloneShallow : JsValue → JsValue
  | .array elems _ => .array elems []
  | v => v

theorem replacePair_cons_of_ne {a b c x : Char} (hx : x ≠ a) (l : List Char) :
    replacePair a b c (x :: l) = x :: replacePair a b c l := by
  cases l with
  | nil => rfl
  | cons => rw [replacePair, if_neg fun h => hx h.1]

theorem unescape_escape (key : List Char) : unescape (escape key) = key := by
  have hslash : ∀ key, replacePair '~' '1' '/' (escape key) =
      key.flatMap fun c => if c = '~' then ['~', '0'] else [c] := by
    intro key
    rw [escape]
    induction key with
    | nil => rfl
    | cons c key ih =>
      rw [flatMap_cons, flatMap_append]
      by_cases htilde : c = '~'
      · subst htilde
        simp only [if_true, flatMap_cons, flatMap_nil, append_nil]
        rw [if_neg (by decide), if_neg (by decide)]
        simp only [cons_append, nil_append]
        rw [replacePair, if_neg (by decide), replacePair_cons_of_ne (by decide), ih]
      · rw [if_neg htilde]
        by_cases hc : c = '/'
        · subst hc
          simp only [flatMap_cons, flatMap_nil, if_true, append_nil, cons_append, nil_append]
          rw [replacePair, if_pos ⟨rfl, rfl⟩, ih]
        · simp only [flatMap_cons, flatMap_nil, if_neg hc, append_nil, cons_append, nil_append]
          rw [replacePair_cons_of_ne htilde, ih]
  have htilde : ∀ key : List Char, replacePair '~' '0' '~'
      (key.flatMap fun c => if c = '~' then ['~', '0'] else [c]) = key := by
    intro key
    induction key with
    | nil => rfl
    | cons c key ih =>
      rw [flatMap_cons]
      by_cases hc : c = '~'
      · subst hc
        simp only [if_true, cons_append, nil_append]
        rw [replacePair, if_pos ⟨rfl, rfl⟩, ih]
      · rw [if_neg hc, singleton_append, replacePair_cons_of_ne hc, ih]
  rw [unescape, hslash, htilde]

theorem slash_notMem_escape (key : List Char) : '/' ∉ escape key := by
  rw [escape, mem_flatMap]
  rintro ⟨c, -, hc⟩
  split_ifs at hc with hslash
  · simp at hc
  · exact hslash (mem_singleton.mp hc).symm

theorem parsePath_escape {key : String} (hkey : key ≠ "") :
    parsePath ("/" ++ String.ofList (escape key.toList)) = .ok [key] := by
  have hchars : ("/" ++ String.ofList (escape key.toList)).toList = '/' :: escape key.toList := by
    simp
  have hne : escape key.toList ≠ [] := by
    intro hnil
    have hback := unescape_escape key.toList
    rw [hnil] at hback
    exact hkey (String.toList_eq_nil_iff.mp hback.symm)
  have hroot : ¬ ("/" ++ String.ofList (escape key.toList) = "" ∨
      "/" ++ String.ofList (escape key.toList) = "/") := by
    rintro (h | h)
    · have hnil := congrArg String.toList h
      rw [hchars] at hnil
      cases hnil
    · have hsingle := congrArg String.toList h
      rw [hchars] at hsingle
      exact hne (List.cons.inj hsingle).2
  have hsplit : (escape key.toList).splitOn '/' = [escape key.toList] := by
    refine splitOnP_eq_singleton fun c hc => beq_eq_false_iff_ne.mpr ?_
    rintro rfl
    exact slash_notMem_escape _ hc
  rw [parsePath, if_neg hroot, hchars, if_neg (by simp), drop_one, tail_cons, hsplit,
    map_singleton, unescape_escape, String.ofList_toList]

/-! ### One op -/

/-- The functions that every object inherits. -/
def inheritedFunctions : List String :=
  ["constructor", "hasOwnProperty", "isPrototypeOf", "propertyIsEnumerable", "toLocaleString",
    "toString", "valueOf", "__defineGetter__", "__defineSetter__", "__lookupGetter__",
    "__lookupSetter__"]

/-- `last` names a property of a string that cannot be deleted. -/
def ownStringKey (s last : String) : Bool :=
  last = "length" || last ∈ (List.range (s.toList.map fun c =>
    if c.toNat < 65536 then 1 else 2).sum).map toString

def applyLast (kind : DeltaOpKind) (value : JsValue) (last : String) :
    JsValue → Except PointerFault JsValue
  | .array elems props =>
    if last = "-" then
      match kind with
      | .add =>
        if elems.length < maxArrayLength then .ok (.array (elems ++ [some value]) props)
        else .error .invalidArrayLength
      | _ => .error .appendOnly
    else
      let idx := stringToNumber last
      match kind with
      | .add =>
        if elems.length < maxArrayLength then
          .ok (.array (elems.insertIdx (spliceStart idx elems.length) (some value)) props)
        else .error .invalidArrayLength
      | .update => .ok (writeIndex elems props idx value)
      | .remove => .ok (.array (elems.eraseIdx (spliceStart idx elems.length)) props)
  | .object m =>
    match kind with
    | .add | .update =>
      if last = "__proto__" ∧ m.get? last = none then .ok (.object m)
      else .ok (.object (m.insert last value))
    | .remove => .ok (.object (m.erase last))
  | .undefined | .null => .error .notAnObject
  | node =>
    match kind, node with
    | .remove, .string s => if ownStringKey s last then .error .notAnObject else .ok node
    | .remove, _ => .ok node
    | _, _ => if last = "__proto__" then .ok node else .error .notAnObject

section Update
variable (value : JsValue) (last : String)

theorem applyLast_update_array (elems : List (Option JsValue)) (props : List (ArrayKey × JsValue)) :
    applyLast .update value last (.array elems props) = if last = "-" then .error .appendOnly
      else .ok (writeIndex elems props (stringToNumber last) value) := rfl

theorem applyLast_update_object (m : OrderedMap String JsValue) :
    applyLast .update value last (.object m) =
      if last = "__proto__" ∧ m.get? last = none then .ok (.object m)
      else .ok (.object (m.insert last value)) := rfl

end Update

def childFor (next : String) : Option JsValue → JsValue
  | none | some .null | some .undefined => seed next
  | some v => cloneShallow v

def applyParts (kind : DeltaOpKind) (value : JsValue) :
    String → List String → JsValue → Except PointerFault JsValue
  | last, [], parent => applyLast kind value last parent
  | seg, next :: rest, .array elems props => do
    let idx := if seg = "-" then .finite (elems.length - 1) else stringToNumber seg
    let child ← applyParts kind value next rest (childFor next (readIndex elems props idx))
    pure (writeIndex elems props idx child)
  | seg, next :: rest, .object m =>
    match m.get? seg with
    | some v => do
      let child ← applyParts kind value next rest (childFor next (some v))
      pure (.object (m.insert seg child))
    | none =>
      if seg = "__proto__" then do
        -- the copy of the prototype becomes the new prototype, outside of the fields
        let _ ← applyParts kind value next rest (.object .empty)
        pure (.object m)
      else if seg ∈ inheritedFunctions then .error .builtinReached
      else do
        let child ← applyParts kind value next rest (seed next)
        pure (.object (m.insert seg child))
  | _, _ :: _, .undefined => .error .notAnObject
  | _, _ :: _, .null => .error .notAnObject
  | seg, next :: rest, parent =>
    if seg = "__proto__" then do
      let _ ← applyParts kind value next rest (.object .empty)
      pure parent
    else .error .notAnObject

def applyAt (kind : DeltaOpKind) (value : JsValue) : List String → JsValue →
    Except PointerFault JsValue
  | [], _ => if kind = .remove then .ok .null else .ok value
  | seg :: rest, root =>
    applyParts kind value seg rest (if root = .null then seed seg else cloneShallow root)

structure DeltaOp where
  kind : DeltaOpKind
  path : String
  value : JsValue

def applyOne (root : JsValue) (op : DeltaOp) : Except PointerFault JsValue := do
  let segments ← parsePath op.path
  applyAt op.kind op.value segments root

def applyOps (value : JsValue) (ops : List DeltaOp) : Except PointerFault JsValue :=
  ops.foldlM applyOne value

end Sodp.ScriptServer
