import Sodp.ByteReader
import Sodp.GoSession
import Sodp.GoStoreVersions

/-!
# The write-ahead log of the Go server

`Append` and `AppendDelete` write a MessagePack array to the end of the file, with nothing around
it. `LoadAll` reads arrays until one cannot be read, and the file is opened for appending as it is.
So the bytes of a record that a crash has cut off stay in the file, and what is appended later is
read as the rest of that record.
-/

namespace Sodp.GoServer
open ByteReader List

inductive WalRecord where
  | set (key : String) (version : UInt64) (value : GoValue)
  | delete (key : String) (version : UInt64)

namespace WalRecord

def uint64 (n : UInt64) : GoValue :=
  .scalar (.int ⟨.uint64, n.toNat, by
    have := n.toNat_lt
    simp only [IntKind.Holds, IntKind.signed, IntKind.bits]
    norm_num
    omega⟩)

def fields : WalRecord → List GoValue
  | .set key version value => [.string "s", .string key, uint64 version, value]
  | .delete key version => [.string "d", .string key, uint64 version]

def key : WalRecord → String
  | .set key _ _ | .delete key _ => key

def call : WalRecord → StoreCall
  | .set key version value => .loadEntry key version.toNat value
  | .delete key version => .loadDelete key version.toNat

end WalRecord

/-- `toUint64Any`: an `int` or `uint` is none of the types it knows. -/
def toUint64Any (c : Conversions) : Option GoValue → ℕ
  | some (.scalar (.int i)) =>
    if i.kind = .int ∨ i.kind = .uint then 0 else (i.val % 2 ^ 64).toNat
  | some (.scalar (.float .float64 q)) => c.uint64 q
  | _ => 0

def loadRecord (c : Conversions) (rec : List GoValue) : Option StoreCall :=
  if rec.length < 3 then none
  else
    let op := asString rec[0]?
    let key := asString rec[1]?
    let version := toUint64Any c rec[2]?
    if key = "" then none
    else if op = "s" then rec[3]?.map fun value => .loadEntry key version value
    else if op = "d" then some (.loadDelete key version)
    else none

theorem toUint64Any_uint64 (c : Conversions) (n : UInt64) :
    toUint64Any c (some (WalRecord.uint64 n)) = n.toNat := by
  have := n.toNat_lt
  rw [WalRecord.uint64, toUint64Any, if_neg (by simp)]
  dsimp only
  omega

theorem loadRecord_fields (c : Conversions) {r : WalRecord} (hkey : r.key ≠ "") :
    loadRecord c r.fields = some r.call := by
  cases r with
  | set key version value | delete key version =>
    have hkey : key ≠ "" := hkey
    simp [loadRecord, WalRecord.fields, asString, hkey, toUint64Any_uint64, WalRecord.call]

/-! ### The file -/

structure Persist where
  wal : Bytes
  count : ℕ

section Persist
variable (codec : Codec (List GoValue))

def openPersist (wal : Bytes) : Persist := ⟨wal, (codec.readAll 0 wal).length⟩

def Persist.append (p : Persist) (r : WalRecord) : Persist :=
  ⟨p.wal ++ codec.encode r.fields, p.count + 1⟩

def Persist.crash (p : Persist) (r : WalRecord) (n : ℕ) : Bytes :=
  p.wal ++ (codec.encode r.fields).take n

def snapshotCalls (c : Conversions) : List GoValue → List StoreCall
  | key :: version :: value :: flat =>
    let rest := snapshotCalls c flat
    if asString (some key) = "" then rest
    else .loadEntry (asString (some key)) (toUint64Any c (some version)) value :: rest
  | _ => []

/-- The calls of `LoadAll`. A snapshot that cannot be read, or is not made of triples, is passed
over. -/
def loadAll (c : Conversions) (snap : Option (List GoValue)) (wal : Bytes) : List StoreCall :=
  (match snap with
    | some flat => if flat.length % 3 = 0 then snapshotCalls c flat else []
    | none => []) ++
  (codec.readAll 0 wal).filterMap fun e => loadRecord c e.2

/-- The file after some records, a crash within one more, a restart, and further records. -/
def survived (before : List WalRecord) (torn : WalRecord) (n : ℕ)
    (after : List WalRecord) : Bytes :=
  let p := before.foldl (Persist.append codec) (openPersist codec [])
  let q := openPersist codec (p.crash codec torn n)
  (after.foldl (Persist.append codec) q).wal

def restartAt (before : List WalRecord) (torn : WalRecord) (n : ℕ) : ℕ :=
  (codec.encodeAll (before.map WalRecord.fields)).length +
    ((codec.encode torn.fields).take n).length

structure Replays (before : List WalRecord) (torn : WalRecord) (n : ℕ) (after : List WalRecord) :
    Prop where
  written : ∀ e ∈ codec.placed 0 (before.map WalRecord.fields),
    e ∈ codec.readAll 0 (survived codec before torn n after)
  appended : ∀ e ∈ codec.placed (restartAt codec before torn n) (after.map WalRecord.fields),
    e ∈ codec.readAll 0 (survived codec before torn n after)

variable {codec}

theorem wal_append (rs : List WalRecord) (p : Persist) : (rs.foldl (Persist.append codec) p).wal =
      p.wal ++ codec.encodeAll (rs.map WalRecord.fields) := by
  induction rs generalizing p with
  | nil => exact (append_nil _).symm
  | cons r rs ih =>
    rw [foldl_cons, ih, map_cons, Codec.encodeAll_cons, ← append_assoc]
    rfl

theorem survived_eq (before : List WalRecord) (torn : WalRecord) (n : ℕ) (after : List WalRecord) :
    survived codec before torn n after = codec.encodeAll (before.map WalRecord.fields) ++
      ((codec.encode torn.fields).take n ++ codec.encodeAll (after.map WalRecord.fields)) := by
  rw [survived, wal_append, openPersist, Persist.crash, wal_append, openPersist, nil_append,
    append_assoc]

section Crash
variable {before after : List WalRecord} {torn : WalRecord} {n : ℕ}

theorem readAll_survived (h : codec.Delimited) (hbefore : ∀ r ∈ before, codec.Faithful r.fields) :
    codec.readAll 0 (survived codec before torn n after) =
      codec.placed 0 (before.map WalRecord.fields) ++
        codec.readAll (codec.encodeAll (before.map WalRecord.fields)).length
          ((codec.encode torn.fields).take n ++ codec.encodeAll (after.map WalRecord.fields)) := by
  rw [survived_eq, h.readAll_encodeAll (forall_mem_map.mpr hbefore), Nat.zero_add]

theorem missing_ne_nil (hn : n < (codec.encode torn.fields).length) :
    (codec.encode torn.fields).drop n ≠ [] := by
  intro h
  exact absurd (drop_eq_nil_iff.mp h) (Nat.not_le.mpr hn)

theorem readAll_of_intact (h : codec.Delimited)
    (hbefore : ∀ r ∈ before, codec.Faithful r.fields) (htorn : codec.Faithful torn.fields)
    (hafter : ∀ r ∈ after, codec.Faithful r.fields) (hn : n < (codec.encode torn.fields).length)
    (hintact : n = 0 ∨ after = []) : codec.readAll 0 (survived codec before torn n after) =
      codec.placed 0 (before.map WalRecord.fields) ++
        codec.placed (restartAt codec before torn n) (after.map WalRecord.fields) := by
  rw [readAll_survived h hbefore]
  congr 1
  rcases hintact with rfl | rfl
  · have hread := h.readAll_encodeAll (forall_mem_map.mpr hafter) []
      (codec.encodeAll (before.map WalRecord.fields)).length
    rw [append_nil, Codec.readAll_none h.atEnd, append_nil] at hread
    exact hread
  · change codec.readAll _ ((codec.encode torn.fields).take n ++ []) = []
    rw [append_nil]
    exact h.readAll_torn htorn (take_append_drop n _).symm (missing_ne_nil hn) _

/-- For every place at which the record of the crash can break off: all whole records are replayed
if and only if it has left nothing behind, or nothing has been appended to it. -/
theorem replays_iff (h : codec.Delimited)
    (hfaithful : ∀ r ∈ before ++ torn :: after, codec.Faithful r.fields)
    (hn : n < (codec.encode torn.fields).length) :
    Replays codec before torn n after ↔ n = 0 ∨ after = [] := by
  rw [forall_mem_append, forall_mem_cons] at hfaithful
  obtain ⟨hbefore, htorn, hafter⟩ := hfaithful
  constructor
  · intro hreplays
    by_contra hnot
    rw [not_or] at hnot
    obtain ⟨r, _, hrest⟩ := exists_cons_of_ne_nil hnot.2
    have hfirst : (restartAt codec before torn n, r.fields) ∈
        codec.placed (restartAt codec before torn n) (after.map WalRecord.fields) := by
      rw [hrest]
      exact mem_cons_self
    have hmem := hreplays.appended _ hfirst
    rw [readAll_survived h hbefore] at hmem
    rcases mem_append.mp hmem with hmem | hmem
    · have := h.lt_of_mem_placed (forall_mem_map.mpr hbefore) hmem
      rw [restartAt] at this
      omega
    · have hpos : (codec.encode torn.fields).take n ≠ [] := by
        rw [ne_eq, take_eq_nil_iff]
        rintro (hzero | hnil)
        · exact hnot.1 hzero
        · rw [hnil] at hn
          exact absurd hn (Nat.not_lt_zero n)
      exact h.not_mem_readAll htorn (take_append_drop n _).symm (missing_ne_nil hn) hpos _ _ _ hmem
  · intro hintact
    have hread := readAll_of_intact h hbefore htorn hafter hn hintact
    refine ⟨fun e he => ?_, fun e he => ?_⟩
    · rw [hread]
      exact mem_append_left _ he
    · rw [hread]
      exact mem_append_right _ he

end Crash

end Persist

/-! ### A piece of MessagePack -/

namespace Msgpack
open Reader

def element : Reader GoValue := byte.bind fun tag =>
  if 0xa0 ≤ tag.toNat ∧ tag.toNat ≤ 0xbf then
    (byte.times (tag.toNat - 0xa0)).bind fun text =>
      if text.all fun b => b.toNat < 128 then
        value (.string (String.ofList (text.map fun b => Char.ofNat b.toNat)))
      else fun _ => none
  else if tag.toNat = 0xcf then
    (byte.times 8).bind fun digits =>
      value (WalRecord.uint64 (.ofNat (digits.foldl (fun n b => 256 * n + b.toNat) 0)))
  else fun _ => none

def array : Reader (List GoValue) := byte.bind fun tag =>
  if 0x90 ≤ tag.toNat ∧ tag.toNat ≤ 0x9f then element.times (tag.toNat - 0x90) else fun _ => none

def bigEndian (n : ℕ) : Bytes :=
  [7, 6, 5, 4, 3, 2, 1, 0].map fun i => UInt8.ofNat (n / 256 ^ i)

def encodeElement : GoValue → Bytes
  | .string s => UInt8.ofNat (0xa0 + s.length) :: s.toList.map fun c => UInt8.ofNat c.toNat
  | .scalar (.int i) => if i.kind = .uint64 then 0xcf :: bigEndian i.val.toNat else [0xc1]
  | _ => [0xc1]

def codec : Codec (List GoValue) where
  encode fields := UInt8.ofNat (0x90 + fields.length) :: fields.flatMap encodeElement
  decode := array

theorem local_element : element.Local := by
  refine local_byte.bind fun tag => ?_
  split_ifs
  · refine (local_byte.times _).bind fun text => ?_
    split_ifs
    · exact local_value _
    · exact local_none
  · exact (local_byte.times _).bind fun digits => local_value _
  · exact local_none

theorem delimited_codec : codec.Delimited where
  atEnd := rfl
  isLocal := by
    refine local_byte.bind fun tag => ?_
    split_ifs
    · exact local_element.times _
    · exact local_none

/-! ### Two crashes -/

def first : WalRecord := .set "k" 1 (.string "x")

def second : WalRecord := .set "k" 2 (.string "y")

def third : WalRecord := .delete "k" 3

theorem faithful_records : ∀ r ∈ [first, second, third], codec.Faithful r.fields := by
  simp only [forall_mem_cons, not_mem_nil, false_imp_iff, implies_true, and_true]
  exact ⟨delimited_codec.faithful rfl, delimited_codec.faithful rfl, delimited_codec.faithful rfl⟩

theorem whole_records_replayed :
    Replays codec [first] second 0 [third] ∧ Replays codec [first] second 9 [] := by
  constructor
  · exact (replays_iff delimited_codec faithful_records (by decide)).mpr (.inl rfl)
  · refine (replays_iff delimited_codec (fun r hr => ?_) (by decide)).mpr (.inr rfl)
    exact faithful_records r (mem_append_left [third] hr)

/-- A crash after nine bytes, in the middle of the version. The next record is read as the rest of
the version and as the value, and is not read itself. -/
theorem torn_record_swallows_next :
    (codec.readAll 0 (survived codec [first] second 9 [third])).map (fun e =>
        (e.1, asString e.2[1]?, toUint64Any ⟨fun _ => 0, fun _ => 0⟩ e.2[2]?)) =
      [(0, "k", 1), (16, "k", 0x93a164a16b)] ∧ ¬ Replays codec [first] second 9 [third] := by
  refine ⟨by decide +kernel, fun hreplays => ?_⟩
  have hplaces : (codec.readAll 0 (survived codec [first] second 9 [third])).map Prod.fst =
      [0, 16] := by decide +kernel
  have hplace : restartAt codec [first] second 9 = 25 := by decide +kernel
  have hmem := hreplays.appended (25, third.fields) (by rw [hplace]; exact mem_cons_self)
  have hfst := mem_map_of_mem (f := Prod.fst) hmem
  rw [hplaces] at hfst
  exact absurd hfst (by decide)

end Msgpack

end Sodp.GoServer
