import Sodp.Delta
import Sodp.ScriptValue

/-!
# The TypeScript client's delta applier

`applyOps` runs a list of ops on a client document. A path is split at `/`, the walk creates
missing containers, and the last segment is assigned or deleted. An array refuses a length it
cannot take, its `length` cannot be deleted, and a walk through a `__proto__` that is no own field
reaches `Object.prototype`, which belongs to no document. `structuredClone` keeps holes and extra
array properties.
-/

namespace Sodp

inductive Fault where
  | invalidArrayLength
  | undeletableLength
  | prototypeReached
deriving DecidableEq

instance : DecidableEq (Except Fault JsValue)
  | .ok v, .ok w => decidable_of_iff (v = w) (by rw [Except.ok.injEq])
  | .error e, .error f => decidable_of_iff (e = f) (by rw [Except.error.injEq])
  | .ok _, .error _ => isFalse nofun
  | .error _, .ok _ => isFalse nofun

namespace Client
open JsNumber (stringToNumber)

def parsePath (path : String) : List String :=
  if path = "/" then [] else ((path.toList.drop 1).splitOn '/').map String.ofList

def containerFor (nextSegment : String) : JsValue :=
  if nextSegment = "-" then .array [] []
  else if 0 < nextSegment.length ∧ nextSegment.toList.all Char.isDigit then .array [] []
  else .object .empty

def maxArrayLength : ℕ := 4294967295

def arrayIndex? : JsNumber → Option ℕ
  | .finite q => if q.den = 1 ∧ 0 ≤ q.num ∧ q.num < maxArrayLength then some q.num.toNat else none
  | _ => none

def setProp (props : List (ArrayKey × JsValue)) (key : ArrayKey) (v : JsValue) :
    List (ArrayKey × JsValue) :=
  match props with
  | [] => [(key, v)]
  | (k, w) :: rest => if k = key then (k, v) :: rest else (k, w) :: setProp rest key v

def readIndex (elems : List (Option JsValue)) (props : List (ArrayKey × JsValue))
    (idx : JsNumber) : Option JsValue :=
  match arrayIndex? idx with
  | some i => (elems[i]?).join
  | none => props.lookup (.number idx)

def writeIndex (elems : List (Option JsValue)) (props : List (ArrayKey × JsValue))
    (idx : JsNumber) (v : JsValue) : JsValue :=
  match arrayIndex? idx with
  | some i =>
    .array ((elems ++ List.replicate (i + 1 - elems.length) none).set i (some v)) props
  | none => .array elems (setProp props (.number idx) v)

/-- `0 ≤ idx && idx < length`; false for `NaN` and the infinities. -/
def inRange (idx : JsNumber) (length : ℕ) : Bool :=
  match idx with
  | .finite q => decide (0 ≤ q) && decide (q < length)
  | _ => false

def spliceStart (idx : JsNumber) (length : ℕ) : ℕ :=
  match idx with
  | .nan | .infinity true => 0
  | .infinity false => length
  | .finite q =>
    let start : ℤ := if 0 ≤ q then ⌊q⌋ else ⌈q⌉
    if start < 0 then (max (length + start) 0).toNat else min start.toNat length

def setLength (elems : List (Option JsValue)) (props : List (ArrayKey × JsValue))
    (v : JsValue) : Except Fault JsValue :=
  match v.toNumber with
  | .finite q =>
    if q.den = 1 ∧ 0 ≤ q.num ∧ q.num ≤ maxArrayLength then
      let n := q.num.toNat
      .ok (.array (elems.take n ++ List.replicate (n - elems.length) none) props)
    else .error .invalidArrayLength
  | _ => .error .invalidArrayLength

/-- `parent[name] = v` on an array, for a name that is no number. Assigning to
`__proto__` replaces the prototype and leaves the own properties as they are. -/
def assignName (elems : List (Option JsValue)) (props : List (ArrayKey × JsValue))
    (name : String) (v : JsValue) : Except Fault JsValue :=
  if name = "length" then setLength elems props v
  else if name = "__proto__" then .ok (.array elems props)
  else .ok (.array elems (setProp props (.name name) v))

def deleteName (elems : List (Option JsValue)) (props : List (ArrayKey × JsValue))
    (name : String) : Except Fault JsValue :=
  if name = "length" then .error .undeletableLength
  else .ok (.array elems (props.filter fun kv => kv.1 ≠ .name name))

def push (elems : List (Option JsValue)) (props : List (ArrayKey × JsValue)) (v : JsValue) :
    Except Fault JsValue :=
  if elems.length < maxArrayLength then .ok (.array (elems ++ [some v]) props)
  else .error .invalidArrayLength

def applyLast (kind : DeltaOpKind) (value : JsValue) (last : String) :
    JsValue → Except Fault JsValue
  | .array elems props =>
    if last = "-" then
      match kind with
      | .add | .update => push elems props value
      | .remove => .ok (.array elems.dropLast props)
    else
      match kind with
      | .add | .update =>
        if stringToNumber last ≠ .nan then .ok (writeIndex elems props (stringToNumber last) value)
        else assignName elems props last value
      | .remove =>
        if stringToNumber last ≠ .nan then
          .ok (.array (elems.eraseIdx (spliceStart (stringToNumber last) elems.length)) props)
        else deleteName elems props last
  | .object m =>
    match kind with
    | .add | .update =>
      -- An inherited `__proto__` is a setter, so no own field appears.
      if last = "__proto__" ∧ m.get? last = none then .ok (.object m)
      else .ok (.object (m.insert last value))
    | .remove => .ok (.object (m.erase last))
  | node => .ok node

def orContainer (next : String) (child : Option JsValue) : JsValue :=
  match child with
  | some v => if v.isContainer then v else containerFor next
  | none => containerFor next

def applyParts (kind : DeltaOpKind) (value : JsValue) :
    String → List String → JsValue → Except Fault JsValue
  | last, [], node => applyLast kind value last node
  | key, next :: rest, .array elems props =>
    let idx := stringToNumber key
    if inRange idx elems.length then do
      let child ← applyParts kind value next rest (orContainer next (readIndex elems props idx))
      pure (writeIndex elems props idx child)
    else .ok (.array elems props)
  | key, next :: rest, .object m =>
    if key = "__proto__" ∧ m.get? key = none then .error .prototypeReached
    else do
      let child ← applyParts kind value next rest (orContainer next (m.get? key))
      pure (.object (m.insert key child))
  | _, _ :: _, node => .ok node

def applyAt (kind : DeltaOpKind) (value : JsValue) : List String → JsValue → Except Fault JsValue
  | [], _ => if kind = .remove then .ok .null else .ok value
  | part :: parts, state => applyParts kind value part parts (orContainer part (some state))

def opValue (op : DeltaOp) : JsValue :=
  match op.value with
  | some v => .ofJson v
  | none => .undefined

def applyOp (state : JsValue) (op : DeltaOp) : Except Fault JsValue :=
  applyAt op.op (opValue op) (parsePath op.path) state

def applyOps (state : JsValue) (ops : List DeltaOp) : Except Fault JsValue :=
  ops.foldlM applyOp state

theorem applyOps_nil (state : JsValue) : applyOps state [] = .ok state := rfl

theorem applyOps_cons (state : JsValue) (op : DeltaOp) (ops : List DeltaOp) :
    applyOps state (op :: ops) = (applyOp state op).bind fun s => applyOps s ops := rfl

end Client
end Sodp
