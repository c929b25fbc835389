import Mathlib.Algebra.Group.Nat.Defs
import Mathlib.Data.List.Basic
import Mathlib.Data.List.TakeDrop
import Mathlib.Tactic.Common

/-!
# Files of length-prefixed records

A record is a payload with its length, as four little-endian bytes, in front of it. A reader takes
records off the front of a file until something is not one, and the rest is cut off. So whole
records with the beginning of another one behind them are read back as the whole records. The header
has room for the low 32 bits of the length only.
-/

namespace Sodp.RecordFile
open List

abbrev Bytes := List UInt8

/-- `to_le_bytes` of the low 32 bits. -/
def leBytes (n : ℕ) : Bytes :=
  [UInt8.ofNat n, UInt8.ofNat (n / 256), UInt8.ofNat (n / 65536), UInt8.ofNat (n / 16777216)]

def fromLeBytes (a b c d : UInt8) : ℕ :=
  a.toNat + 256 * (b.toNat + 256 * (c.toNat + 256 * d.toNat))

theorem fromLeBytes_leBytes (n : ℕ) :
    fromLeBytes (UInt8.ofNat n) (UInt8.ofNat (n / 256)) (UInt8.ofNat (n / 65536))
      (UInt8.ofNat (n / 16777216)) = n % 2 ^ 32 := by
  simp only [fromLeBytes, UInt8.toNat_ofNat']
  omega

structure Codec (α : Type*) where
  encode : α → Bytes
  decode : Bytes → Option α

inductive ReadResult (α : Type*) where
  | endOfFile
  | corrupt
  | entry (e : α) (rest : Bytes)

variable {α : Type*} (codec : Codec α)

def writeEntry (e : α) : Bytes := leBytes (codec.encode e).length ++ codec.encode e

def readEntry : Bytes → ReadResult α
  | a :: b :: c :: d :: r =>
    if r.length < fromLeBytes a b c d then .corrupt
    else match codec.decode (r.take (fromLeBytes a b c d)) with
      | none => .corrupt
      | some e => .entry e (r.drop (fromLeBytes a b c d))
  | _ => .endOfFile

def replayLoop : ℕ → Bytes → List α × ℕ
  | 0, _ => ([], 0)
  | fuel + 1, r =>
    match readEntry codec r with
    | .entry e rest =>
      (e :: (replayLoop fuel rest).1, r.length - rest.length + (replayLoop fuel rest).2)
    | _ => ([], 0)

def replay (file : Bytes) : List α × ℕ := replayLoop codec file.length file

def truncated (file : Bytes) : Bytes := file.take (replay codec file).2

def writeAll (l : List α) : Bytes := l.flatMap (writeEntry codec)

/-- What is written for the record is read back, and nothing else with it. -/
def Lossless (e : α) : Prop := ∀ rest, readEntry codec (writeEntry codec e ++ rest) = .entry e rest

def Torn (r : Bytes) : Prop := ∀ e rest, readEntry codec r ≠ .entry e rest

variable {codec}

theorem readEntry_leBytes (n : ℕ) (r : Bytes) : readEntry codec (leBytes n ++ r) =
      if r.length < n % 2 ^ 32 then .corrupt else match codec.decode (r.take (n % 2 ^ 32)) with
        | none => .corrupt
        | some e => .entry e (r.drop (n % 2 ^ 32)) := by
  rw [← fromLeBytes_leBytes n]
  rfl

theorem length_writeEntry (e : α) : (writeEntry codec e).length = 4 + (codec.encode e).length := by
  rw [writeEntry, length_append]
  rfl

theorem lossless_iff {e : α} : Lossless codec e ↔
      codec.decode (codec.encode e) = some e ∧ (codec.encode e).length < 2 ^ 32 := by
  constructor
  · intro h
    have hrest := h []
    rw [writeEntry, append_nil, readEntry_leBytes] at hrest
    have hle := Nat.mod_le (codec.encode e).length (2 ^ 32)
    rw [if_neg (Nat.not_lt.mpr hle)] at hrest
    cases hdecode : codec.decode ((codec.encode e).take ((codec.encode e).length % 2 ^ 32)) with
    | none =>
      rw [hdecode] at hrest
      cases hrest
    | some =>
      rw [hdecode] at hrest
      simp only [ReadResult.entry.injEq, drop_eq_nil_iff] at hrest
      have hmod : (codec.encode e).length % 2 ^ 32 = (codec.encode e).length :=
        Nat.le_antisymm hle hrest.2
      rw [hmod, take_length, hrest.1] at hdecode
      exact ⟨hdecode, hmod ▸ Nat.mod_lt _ (by decide)⟩
  · intro h rest
    rw [writeEntry, append_assoc, readEntry_leBytes, Nat.mod_eq_of_lt h.2, if_neg (by simp),
      take_left', drop_left', h.1] <;> rfl

theorem torn_take {e : α} (he : (codec.encode e).length < 2 ^ 32) {n : ℕ}
    (hn : n < (writeEntry codec e).length) : Torn codec ((writeEntry codec e).take n) := by
  intro d rest h
  rw [length_writeEntry] at hn
  by_cases hheader : n < 4
  · have hshort : ((writeEntry codec e).take n).length < 4 := by
      rw [length_take]
      omega
    match hr : (writeEntry codec e).take n with
    | [] | [_] | [_, _] | [_, _, _] => simp [hr, readEntry] at h
    | _ :: _ :: _ :: _ :: _ =>
      rw [hr] at hshort
      simp at hshort
      omega
  · have htake : (writeEntry codec e).take n =
        leBytes (codec.encode e).length ++ (codec.encode e).take (n - 4) := by
      rw [writeEntry, take_append, take_of_length_le]
      · rfl
      · exact Nat.not_lt.mp hheader
    rw [htake, readEntry_leBytes, Nat.mod_eq_of_lt he, if_pos] at h
    · exact absurd h (by simp)
    · rw [length_take]
      omega

theorem torn_nil : Torn codec [] := by
  intro e rest h
  simp [readEntry] at h

theorem writeAll_cons (e : α) (l : List α) :
    writeAll codec (e :: l) = writeEntry codec e ++ writeAll codec l := rfl

theorem writeAll_append (l m : List α) :
    writeAll codec (l ++ m) = writeAll codec l ++ writeAll codec m := flatMap_append

variable {l : List α} {torn : Bytes}

section
variable (hl : ∀ e ∈ l, Lossless codec e)
include hl

theorem replayLoop_writeAll (htorn : Torn codec torn) {fuel : ℕ}
    (hfuel : (writeAll codec l ++ torn).length ≤ fuel) :
    replayLoop codec fuel (writeAll codec l ++ torn) = (l, (writeAll codec l).length) := by
  induction l generalizing fuel with
  | nil =>
    cases fuel with
    | zero => rfl
    | succ =>
      rw [replayLoop]
      split
      · rename_i e rest h
        exact absurd h (htorn e rest)
      · rfl
  | cons e l ih =>
    rw [writeAll_cons, append_assoc] at hfuel ⊢
    rw [length_append, length_writeEntry] at hfuel
    cases fuel with
    | zero => omega
    | succ fuel =>
      have hrest := ih (fun d hd => hl d (mem_cons_of_mem e hd))
        (show (writeAll codec l ++ torn).length ≤ fuel by omega)
      rw [replayLoop, hl e mem_cons_self]
      simp only [hrest, Prod.mk.injEq, true_and, length_append]
      omega

theorem replay_writeAll (htorn : Torn codec torn) :
    replay codec (writeAll codec l ++ torn) = (l, (writeAll codec l).length) :=
  replayLoop_writeAll hl htorn (Nat.le_refl _)

theorem truncated_writeAll (htorn : Torn codec torn) :
    truncated codec (writeAll codec l ++ torn) = writeAll codec l := by
  rw [truncated, replay_writeAll hl htorn]
  exact take_left

theorem take_writeAll (n : ℕ) :
    ∃ whole torn, whole <+: l ∧ Torn codec torn ∧
      (writeAll codec l).take n = writeAll codec whole ++ torn := by
  induction l generalizing n with
  | nil => exact ⟨[], [], nil_prefix, torn_nil, by simp [writeAll]⟩
  | cons e l ih =>
    have he := lossless_iff.mp (hl e mem_cons_self)
    rw [writeAll_cons]
    by_cases hn : n < (writeEntry codec e).length
    · refine ⟨[], (writeEntry codec e).take n, nil_prefix, torn_take he.2 hn, ?_⟩
      rw [take_append_of_le_length (Nat.le_of_lt hn)]
      rfl
    · obtain ⟨whole, torn, hwhole, htorn, htake⟩ :=
        ih (fun d hd => hl d (mem_cons_of_mem e hd)) (n - (writeEntry codec e).length)
      refine ⟨e :: whole, torn, (prefix_cons_inj e).mpr hwhole, htorn, ?_⟩
      rw [take_append, take_of_length_le (Nat.not_lt.mp hn), htake, writeAll_cons, append_assoc]

end

end Sodp.RecordFile
