import Sodp.Delta
import Sodp.PathWalk

/-!
# The Python and the Java client's delta appliers

`delta.py` and `DeltaApplier.java` are one algorithm with two ways to read a segment as an index.
A list ignores an index beyond its end, and a segment that is no index.

Python takes every Unicode digit for one and then asks `int` for the number, which refuses those
that are no decimal digits, and more than 4300 of them. Java reads UTF-16 units one by one, so
digits outside of the basic plane are none, and gives up beyond the range of an `int`.
-/

namespace Sodp
open Option

/-! ### Digits -/

/-- The zeros of the decimal digits of Unicode 14. The other nine follow each of them. -/
def decimalZeros : List ℕ :=
  [0x30, 0x660, 0x6f0, 0x7c0, 0x966, 0x9e6, 0xa66, 0xae6, 0xb66, 0xbe6, 0xc66, 0xce6, 0xd66,
    0xde6, 0xe50, 0xed0, 0xf20, 0x1040, 0x1090, 0x17e0, 0x1810, 0x1946, 0x19d0, 0x1a80, 0x1a90,
    0x1b50, 0x1bb0, 0x1c40, 0x1c50, 0xa620, 0xa8d0, 0xa900, 0xa9d0, 0xa9f0, 0xaa50, 0xabf0,
    0xff10, 0x104a0, 0x10d30, 0x11066, 0x110f0, 0x11136, 0x111d0, 0x112f0, 0x11450, 0x114d0,
    0x11650, 0x116c0, 0x11730, 0x118e0, 0x11950, 0x11c50, 0x11d50, 0x11da0, 0x16a60, 0x16ac0,
    0x16b50, 0x1d7ce, 0x1d7d8, 0x1d7e2, 0x1d7ec, 0x1d7f6, 0x1e140, 0x1e2f0, 0x1e950, 0x1fbf0]

/-- First and last of the other digits, such as superscripts and circled ones. -/
def otherDigits : List (ℕ × ℕ) :=
  [(0xb2, 0xb3), (0xb9, 0xb9), (0x1369, 0x1371), (0x19da, 0x19da), (0x2070, 0x2070),
    (0x2074, 0x2079), (0x2080, 0x2089), (0x2460, 0x2468), (0x2474, 0x247c), (0x2488, 0x2490),
    (0x24ea, 0x24ea), (0x24f5, 0x24fd), (0x24ff, 0x24ff), (0x2776, 0x277e), (0x2780, 0x2788),
    (0x278a, 0x2792), (0x10a40, 0x10a43), (0x10e60, 0x10e68), (0x11052, 0x1105a),
    (0x1f100, 0x1f10a)]

def decimalDigit? (c : Char) : Option ℕ :=
  (decimalZeros.find? fun z => z ≤ c.toNat && c.toNat < z + 10).map (c.toNat - ·)

def ofDecimalDigits (digits : List ℕ) : ℕ := digits.foldl (fun n d => 10 * n + d) 0

/-! ### The algorithm -/

def DeltaOp.edit (op : DeltaOp) : Option Value :=
  if op.op = .remove then none else some (op.value.getD .null)

structure Applier (ε : Type) where
  asIndex : String → Except ε (Option ℕ)
  isList : String → Bool

namespace Applier
variable {ε : Type} (a : Applier ε)

def containerFor (segment : String) : Container := .fresh (a.isList segment)

def writeLeaf (edit : Option Value) (last : String) : Container → Except ε Container
  | .list xs =>
    if last = "-" then
      match edit with
      | some v => pure (.list (xs ++ [v]))
      | none => pure (.list xs.dropLast)
    else do
      match ← a.asIndex last with
      | none => pure (.list xs)
      | some idx =>
        match edit with
        | some v =>
          if idx < xs.length then pure (.list (xs.set idx v))
          else if idx = xs.length then pure (.list (xs ++ [v]))
          else pure (.list xs)
        | none => if idx < xs.length then pure (.list (xs.eraseIdx idx)) else pure (.list xs)
  | .dict m =>
    match edit with
    | some v => pure (.dict (m.insert last v))
    | none => pure (.dict (m.erase last))

def setAt (a : Applier ε) (edit : Option Value) :
    String → List String → Container → Except ε Container
  | last, [], node => a.writeLeaf edit last node
  | key, next :: rest, .list xs => do
    match ← a.asIndex key with
    | none => pure (.list xs)
    | some idx =>
      if idx < xs.length then do
        let child ← a.setAt edit next rest
          ((xs[idx]?.bind Value.container?).getD (a.containerFor next))
        pure (.list (xs.set idx child.toValue))
      else pure (.list xs)
  | key, next :: rest, .dict m => do
    let child ← a.setAt edit next rest
      (((m.get? key).bind Value.container?).getD (a.containerFor next))
    pure (.dict (m.insert key child.toValue))

def applyOne (state : Value) (edit : Option Value) : List String → Except ε Value
  | [] => pure (edit.getD .null)
  | part :: parts => do
    let root ← a.setAt edit part parts (state.container?.getD (a.containerFor part))
    pure root.toValue

end Applier

/-! ### Python -/

namespace Python

inductive ValueError where
  | invalidLiteral
  | tooManyDigits
deriving DecidableEq

def isdigit (s : String) : Bool :=
  s ≠ "" && s.toList.all fun c => (decimalDigit? c).isSome ||
    otherDigits.any fun range => range.1 ≤ c.toNat && c.toNat ≤ range.2

def int (s : String) : Except ValueError ℕ :=
  match s.toList.mapM decimalDigit? with
  | none => .error .invalidLiteral
  | some digits =>
    if 4300 < digits.length then .error .tooManyDigits else .ok (ofDecimalDigits digits)

def asIndex (seg : String) : Except ValueError (Option ℕ) :=
  if isdigit seg then some <$> int seg else .ok none

def applier : Applier ValueError := ⟨asIndex, fun segment => segment = "-" || isdigit segment⟩

def parsePath (path : String) : List String :=
  if path = "/" then [] else ((path.toList.drop 1).splitOn '/').map String.ofList

def applyOne (state : Value) (op : DeltaOp) : Except ValueError Value :=
  applier.applyOne state op.edit (parsePath op.path)

def applyOps (state : Value) (ops : List DeltaOp) : Except ValueError Value :=
  ops.foldlM applyOne state

end Python

/-! ### Java -/

namespace Java

def maxInt : ℕ := 2147483647

/-- Only a character of the basic plane is one `char`. -/
def parseIndex (s : String) : Option ℕ :=
  if s = "" then none
  else (s.toList.mapM fun c => if c.toNat < 65536 then decimalDigit? c else none).bind fun digits =>
    if ofDecimalDigits digits ≤ maxInt then some (ofDecimalDigits digits) else none

def applier : Applier Empty :=
  ⟨fun s => .ok (parseIndex s), fun segment => segment = "-" || (parseIndex segment).isSome⟩

def parts (path : String) : List String :=
  if path = "/" ∨ path = "" then [] else ((path.toList.drop 1).splitOn '/').map String.ofList

def applyOne (state : Value) (op : DeltaOp) : Except Empty Value :=
  applier.applyOne state op.edit (parts op.path)

def applyOps (state : Value) (ops : List DeltaOp) : Except Empty Value := ops.foldlM applyOne state

end Java

/-! ### The appliers as walkers -/

namespace Applier
variable {ε : Type} (a : Applier ε)

def walker : Walker where
  target key n := (a.asIndex key).toOption.map fun idx => idx.filter (· < n)
  place edit last n :=
    match edit with
    | some _ =>
      if last = "-" then some (.index n)
      else (a.asIndex last).toOption.map fun idx => (idx.filter (· ≤ n)).elim .keep .index
    | none =>
      if last = "-" then some (if n = 0 then .keep else .index (n - 1))
      else (a.asIndex last).toOption.map fun idx => (idx.filter (· < n)).elim .keep .index
  enters _ _ := true
  assigns _ _ := true
  isList := a.isList
  target_lt := by
    intro key n i h
    obtain ⟨idx, -, hidx⟩ := map_eq_some_iff.mp h
    exact of_decide_eq_true (filter_eq_some_iff.mp hidx).2
  fits := by
    intro edit last n p h
    cases edit with
    | some =>
      dsimp only at h
      split_ifs at h
      · cases h
        exact le_rfl
      · obtain ⟨idx, -, rfl⟩ := map_eq_some_iff.mp h
        cases hidx : idx.filter (· ≤ n) with
        | none => trivial
        | some i =>
          have hi : i ≤ n := of_decide_eq_true (filter_eq_some_iff.mp hidx).2
          exact hi
    | none =>
      dsimp only at h
      split_ifs at h with hlast hn
      · cases h
        trivial
      · cases h
        exact Nat.sub_lt (Nat.pos_of_ne_zero hn) Nat.one_pos
      · obtain ⟨idx, -, rfl⟩ := map_eq_some_iff.mp h
        cases hidx : idx.filter (· < n) with
        | none => trivial
        | some i =>
          have hi : i < n := of_decide_eq_true (filter_eq_some_iff.mp hidx).2
          exact hi

theorem toOption_writeLeaf_assign (v : Value) (last : String) (xs : List Value) :
    (a.writeLeaf (some v) last (.list xs)).toOption =
      (a.walker.place (some v) last xs.length).map fun p => .list (Walker.write (some v) xs p) := by
  dsimp only [writeLeaf, walker]
  split_ifs
  · simp [Walker.write]
    rfl
  · cases a.asIndex last with
    | error => rfl
    | ok idx =>
      cases idx with
      | none => rfl
      | some i =>
        change (if i < xs.length then _ else _ : Except ε Container).toOption = some _
        dsimp only
        rw [filter_some]
        rcases lt_trichotomy i xs.length with hi | hi | hi
        · simp [hi, hi.le, Walker.write]
          rfl
        · simp [hi, Walker.write]
          rfl
        · simp [hi.not_gt, hi.ne', hi.not_ge, Walker.write]
          rfl

theorem toOption_writeLeaf_remove (last : String) (xs : List Value) :
    (a.writeLeaf none last (.list xs)).toOption =
      (a.walker.place none last xs.length).map fun p => .list (Walker.write none xs p) := by
  dsimp only [writeLeaf, walker]
  split_ifs with hlast hn
  · rw [List.length_eq_zero_iff.mp hn]
    rfl
  · rw [@List.dropLast_eq_eraseIdx _ xs (xs.length - 1) (by omega)]
    rfl
  · cases a.asIndex last with
    | error => rfl
    | ok idx =>
      cases idx with
      | none => rfl
      | some i =>
        change (if i < xs.length then _ else _ : Except ε Container).toOption = some _
        dsimp only
        rw [filter_some]
        by_cases hi : i < xs.length <;> simp [hi, Walker.write] <;> rfl

theorem toOption_setAt (edit : Option Value) (seg : String) (rest : List String) (c : Container) :
    (a.setAt edit seg rest c).toOption = a.walker.walk edit seg rest c := by
  have hbind : ∀ {x : Except ε Container} {f : Container → Container},
      (x >>= fun child => pure (f child)).toOption = x.toOption.map f := by
    intro x f
    cases x <;> rfl
  induction rest generalizing seg c with
  | nil =>
    cases c with
    | list xs =>
      cases edit with
      | some v => exact a.toOption_writeLeaf_assign v seg xs
      | none => exact a.toOption_writeLeaf_remove seg xs
    | dict => cases edit <;> rfl
  | cons next rest ih =>
    cases c with
    | list xs =>
      have htarget : a.walker.target seg xs.length =
          (a.asIndex seg).toOption.map fun idx => idx.filter (· < xs.length) := rfl
      rw [setAt, Walker.walk, htarget]
      cases a.asIndex seg with
      | error => rfl
      | ok idx =>
        cases idx with
        | none => rfl
        | some i =>
          by_cases hi : i < xs.length
          · change (if i < xs.length then _ else _ : Except ε Container).toOption = _
            rw [if_pos hi, hbind, ih]
            simp [Except.toOption, filter_some, hi]
            rfl
          · change (if i < xs.length then _ else _ : Except ε Container).toOption = _
            rw [if_neg hi]
            simp [Except.toOption, filter_some, hi]
            rfl
    | dict =>
      rw [setAt, hbind, ih]
      exact (if_pos rfl).symm

end Applier

end Sodp
