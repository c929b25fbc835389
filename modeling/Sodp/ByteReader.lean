import Mathlib.Data.List.Basic
import Mathlib.Tactic.Common

/-!
# Readers of byte streams

A reader takes one value off the front of a stream, and is local if it does not look past the
bytes it takes. Values that are written one behind the other are read back at their places. Behind
the beginning of a value that breaks off, what is written next is not read at its place.
-/

namespace Sodp.ByteReader
open List Option

abbrev Bytes := List UInt8

abbrev Reader (α : Type*) := Bytes → Option (α × Bytes)

variable {α β : Type*} {rest : Bytes}

namespace Reader

def byte : Reader UInt8
  | [] => none
  | b :: rest => some (b, rest)

def value (x : α) : Reader α := fun b => some (x, b)

def bind (r : Reader α) (f : α → Reader β) : Reader β := fun b =>
  match r b with
  | none => none
  | some (x, rest) => f x rest

def times (r : Reader α) : ℕ → Reader (List α)
  | 0 => value []
  | n + 1 => r.bind fun x => (r.times n).bind fun xs => value (x :: xs)

def Local (r : Reader α) : Prop :=
  ∀ b x rest, r b = some (x, rest) → ∃ used, b = used ++ rest ∧ ∀ t, r (used ++ t) = some (x, t)

variable {r : Reader α} {f : α → Reader β}

theorem bind_eq_some {b : Bytes} {y : β} :
    r.bind f b = some (y, rest) ↔ ∃ x mid, r b = some (x, mid) ∧ f x mid = some (y, rest) := by
  rw [bind]
  cases r b with
  | none => simp
  | some p =>
    obtain ⟨x, mid⟩ := p
    simp

theorem local_none : Local (fun _ => none : Reader α) := by
  intro b x rest h
  cases h

theorem local_byte : Local byte := by
  intro b x rest h
  cases b with
  | nil => cases h
  | cons c =>
    rw [byte, some.injEq, Prod.mk.injEq] at h
    exact ⟨[c], by rw [h.2]; rfl, fun t => by rw [← h.1]; rfl⟩

theorem local_value (x : α) : Local (value x) := by
  intro b y rest h
  rw [value, some.injEq, Prod.mk.injEq] at h
  exact ⟨[], h.2, fun t => by rw [← h.1]; rfl⟩

theorem Local.bind (hr : r.Local) (hf : ∀ x, (f x).Local) :
    (r.bind f).Local := by
  intro b y rest h
  obtain ⟨x, mid, hx, hy⟩ := bind_eq_some.mp h
  obtain ⟨used, hused, hread⟩ := hr b x mid hx
  obtain ⟨more, hmore, hread'⟩ := hf x mid y rest hy
  refine ⟨used ++ more, by rw [hused, hmore, append_assoc], fun t => ?_⟩
  rw [append_assoc]
  exact bind_eq_some.mpr ⟨x, more ++ t, hread _, hread' t⟩

theorem Local.times (hr : r.Local) (n : ℕ) : (r.times n).Local := by
  induction n with
  | zero => exact local_value []
  | succ n ih => exact hr.bind fun x => ih.bind fun xs => local_value _

end Reader

/-! ### Streams -/

structure Codec (α : Type*) where
  encode : α → Bytes
  decode : Reader α

namespace Codec
variable (codec : Codec α)

structure Delimited : Prop where
  atEnd : codec.decode [] = none
  isLocal : codec.decode.Local

def Faithful (x : α) : Prop := ∀ rest, codec.decode (codec.encode x ++ rest) = some (x, rest)

def encodeAll (xs : List α) : Bytes := xs.flatMap codec.encode

/-- The values of a stream that starts at `place`, each with its own place. Reading a value takes
bytes off the stream, so its length is fuel enough. -/
def readLoop : ℕ → ℕ → Bytes → List (ℕ × α)
  | 0, _, _ => []
  | fuel + 1, place, b =>
    match codec.decode b with
    | none => []
    | some (x, rest) => (place, x) :: readLoop fuel (place + (b.length - rest.length)) rest

def readAll (place : ℕ) (b : Bytes) : List (ℕ × α) := codec.readLoop b.length place b

def placed : ℕ → List α → List (ℕ × α)
  | _, [] => []
  | place, x :: xs => (place, x) :: placed (place + (codec.encode x).length) xs

variable {codec}

theorem encodeAll_cons (x : α) (xs : List α) :
    codec.encodeAll (x :: xs) = codec.encode x ++ codec.encodeAll xs := rfl

theorem map_snd_placed (place : ℕ) (xs : List α) : (codec.placed place xs).map Prod.snd = xs := by
  induction xs generalizing place with
  | nil => rfl
  | cons x xs ih => rw [placed, map_cons, ih]

variable {b : Bytes} {x : α}

theorem Delimited.shorter (h : codec.Delimited) (hread : codec.decode b = some (x, rest)) :
    rest.length < b.length := by
  obtain ⟨used, rfl, hused⟩ := h.isLocal b x rest hread
  cases used with
  | nil =>
    have hend := hused []
    rw [append_nil, h.atEnd] at hend
    cases hend
  | cons =>
    rw [length_append, length_cons]
    omega

theorem Delimited.readLoop_eq (h : codec.Delimited) {fuel fuel' : ℕ} (hfuel : b.length ≤ fuel)
    (hfuel' : b.length ≤ fuel') (place : ℕ) :
    codec.readLoop fuel place b = codec.readLoop fuel' place b := by
  induction fuel generalizing fuel' b place with
  | zero =>
    obtain rfl := length_eq_zero_iff.mp (Nat.le_zero.mp hfuel)
    cases fuel' with
    | zero => rfl
    | succ =>
      rw [readLoop, readLoop, h.atEnd]
  | succ fuel ih =>
    cases hread : codec.decode b with
    | none =>
      cases fuel' with
      | zero => rw [readLoop, readLoop, hread]
      | succ => rw [readLoop, readLoop, hread]
    | some p =>
      obtain ⟨x, rest⟩ := p
      have hlt := h.shorter hread
      cases fuel' with
      | zero => omega
      | succ fuel' =>
        rw [readLoop, readLoop, hread]
        dsimp only
        rw [ih (show rest.length ≤ fuel by omega) (show rest.length ≤ fuel' by omega)]

theorem Delimited.readAll_some (h : codec.Delimited) (hread : codec.decode b = some (x, rest))
    (place : ℕ) : codec.readAll place b =
      (place, x) :: codec.readAll (place + (b.length - rest.length)) rest := by
  have hlt := h.shorter hread
  obtain ⟨n, hn⟩ := Nat.exists_eq_succ_of_ne_zero (Nat.ne_zero_of_lt hlt)
  rw [readAll, hn, readLoop, hread]
  dsimp only
  rw [← hn, readAll, h.readLoop_eq (show rest.length ≤ n by omega) (Nat.le_refl _)]

theorem readAll_none (hread : codec.decode b = none) (place : ℕ) : codec.readAll place b = [] := by
  rw [readAll]
  cases b.length with
  | zero => rfl
  | succ => rw [readLoop, hread]

section
variable (h : codec.Delimited)
include h

theorem Delimited.readAll_encodeAll {xs : List α}
    (hxs : ∀ x ∈ xs, codec.Faithful x) (tail : Bytes) (place : ℕ) :
    codec.readAll place (codec.encodeAll xs ++ tail) =
      codec.placed place xs ++ codec.readAll (place + (codec.encodeAll xs).length) tail := by
  induction xs generalizing place with
  | nil => rfl
  | cons x xs ih =>
    obtain ⟨hx, hxs⟩ := forall_mem_cons.mp hxs
    rw [encodeAll_cons, append_assoc, h.readAll_some (hx _), ih hxs, placed, cons_append,
      length_append, Nat.add_sub_cancel, length_append, Nat.add_assoc]

theorem le_of_mem_readAll {place n : ℕ} (hmem : (n, x) ∈ codec.readAll place b) : place ≤ n := by
  induction hlen : b.length using Nat.strongRecOn generalizing b place with
  | ind len ih =>
    cases hread : codec.decode b with
    | none =>
      rw [readAll_none hread] at hmem
      cases hmem
    | some p =>
      obtain ⟨y, rest⟩ := p
      rw [h.readAll_some hread] at hmem
      rcases mem_cons.mp hmem with heq | hmem
      · exact Nat.le_of_eq (congrArg Prod.fst heq).symm
      · have := ih rest.length (hlen ▸ h.shorter hread) hmem rfl
        omega

/-- On a given value a codec is faithful if it is so at the end of the stream. -/
theorem Delimited.faithful (hx : codec.decode (codec.encode x) = some (x, [])) :
    codec.Faithful x := by
  intro rest
  obtain ⟨_, heq, hread⟩ := h.isLocal _ x [] hx
  rw [append_nil] at heq
  rw [heq]
  exact hread rest

theorem Delimited.encode_pos (hx : codec.Faithful x) :
    0 < (codec.encode x).length := by
  refine length_pos_iff.mpr fun hnil => ?_
  have hread := hx []
  rw [hnil, append_nil, h.atEnd] at hread
  cases hread

theorem Delimited.lt_of_mem_placed {xs : List α}
    (hxs : ∀ x ∈ xs, codec.Faithful x) {place n : ℕ} (hmem : (n, x) ∈ codec.placed place xs) :
    n < place + (codec.encodeAll xs).length := by
  induction xs generalizing place with
  | nil => cases hmem
  | cons y ys ih =>
    obtain ⟨hy, hys⟩ := forall_mem_cons.mp hxs
    have hpos := h.encode_pos hy
    rw [encodeAll_cons, length_append]
    rcases mem_cons.mp hmem with heq | hmem
    · rw [Prod.mk.injEq] at heq
      omega
    · have := ih hys hmem
      omega

end

section Torn
variable {y : α} {torn missing : Bytes}

theorem Delimited.takes_more (h : codec.Delimited) (hy : codec.Faithful y)
    (htorn : codec.encode y = torn ++ missing) (hmissing : missing ≠ []) {t : Bytes} {x : α}
    (hread : codec.decode (torn ++ t) = some (x, rest)) : rest.length < t.length := by
  obtain ⟨used, heq, hused⟩ := h.isLocal _ x rest hread
  by_contra hlong
  have hlen := congrArg List.length heq
  rw [length_append, length_append] at hlen
  -- the value is read from the beginning alone, but the whole of `y` follows there
  obtain ⟨_, hfront⟩ : used <+: torn :=
    prefix_of_prefix_length_le ⟨rest, heq.symm⟩ (prefix_append _ _) (by omega)
  have hwhole := hy []
  rw [htorn, ← hfront, append_nil, append_assoc, hused, some.injEq,
    Prod.mk.injEq, append_eq_nil_iff] at hwhole
  exact hmissing hwhole.2.2

theorem Delimited.readAll_torn (h : codec.Delimited) (hy : codec.Faithful y)
    (htorn : codec.encode y = torn ++ missing) (hmissing : missing ≠ []) (place : ℕ) :
    codec.readAll place torn = [] := by
  refine readAll_none ?_ place
  cases hread : codec.decode torn with
  | none => rfl
  | some p =>
    obtain ⟨x, _⟩ := p
    rw [← append_nil torn] at hread
    exact absurd (h.takes_more hy htorn hmissing hread) (Nat.not_lt_zero _)

theorem Delimited.not_mem_readAll (h : codec.Delimited) (hy : codec.Faithful y)
    (htorn : codec.encode y = torn ++ missing) (hmissing : missing ≠ []) (hne : torn ≠ [])
    (t : Bytes) (place : ℕ) (x : α) :
    (place + torn.length, x) ∉ codec.readAll place (torn ++ t) := by
  have hpos := length_pos_iff.mpr hne
  intro hmem
  cases hread : codec.decode (torn ++ t) with
  | none =>
    rw [readAll_none hread] at hmem
    cases hmem
  | some p =>
    obtain ⟨z, _⟩ := p
    have hmore := h.takes_more hy htorn hmissing hread
    rw [h.readAll_some hread] at hmem
    rcases mem_cons.mp hmem with heq | hmem
    · have := congrArg Prod.fst heq
      omega
    · have := le_of_mem_readAll h hmem
      rw [length_append] at this
      omega

end Torn

end Codec

end Sodp.ByteReader
