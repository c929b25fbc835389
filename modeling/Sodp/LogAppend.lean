import Sodp.CompactionCrash

/-!
# Appending a record

An op without a value is written as an array of two items, and the derived reader asks for three;
the value null is written as nil, which the reader of an optional field takes for no value.

`append` can fail when it rotates, and while it writes. `apply` and `delete` have changed the map
and the delta log by then, log the error and return as if there had been none.
-/

namespace Sodp
open RecordFile List Option

/-! ### The payload -/

/-- MessagePack as the derived code meets it. Whatever JSON value is not null is an item of its own
type, which is read as it was written. -/
inductive Item where
  | nil
  | uint (n : ℕ)
  | str (s : String)
  | json (v : Value)
  | array (items : List Item)

namespace Item

def ofValue (v : Value) : Item := if v = .null then .nil else .json v

def toValue : Item → Option Value
  | .nil => some .null
  | .json v => some v
  | _ => none

/-- A field of type `Option<Value>`. -/
def toOption : Item → Option (Option Value)
  | .nil => some none
  | item => item.toValue.map some

def toStr : Item → Option String
  | .str s => some s
  | _ => none

theorem toValue_ofValue (v : Value) : (ofValue v).toValue = some v := by
  rw [ofValue]
  split_ifs with hnull
  · rw [hnull]
    rfl
  · rfl

theorem toOption_ofValue (v : Value) :
    (ofValue v).toOption = some (if v = .null then none else some v) := by
  rw [ofValue]
  split_ifs <;> rfl

end Item

def DeltaOpKind.name : DeltaOpKind → String
  | .add => "ADD"
  | .update => "UPDATE"
  | .remove => "REMOVE"

def DeltaOpKind.deserialize (item : Item) : Option DeltaOpKind :=
  item.toStr.bind fun s => [add, update, remove].find? fun kind => kind.name = s

/-- A value that is `None` is skipped, and not counted. -/
def DeltaOp.serialize (op : DeltaOp) : Item :=
  .array ([.str op.op.name, .str op.path] ++ (op.value.map Item.ofValue).toList)

def DeltaOp.deserialize : Item → Option DeltaOp
  | .array [op, path, value] => do
    let op ← DeltaOpKind.deserialize op
    let path ← path.toStr
    let value ← value.toOption
    some ⟨op, path, value⟩
  | _ => none

def LogEntry.serialize (e : LogEntry) : Item :=
  .array [.uint e.version, .str e.key, .array (e.ops.map DeltaOp.serialize), .ofValue e.value]

def LogEntry.deserialize : Item → Option LogEntry
  | .array [.uint version, .str key, .array ops, value] => do
    let ops ← ops.mapM DeltaOp.deserialize
    let value ← value.toValue
    some ⟨version, key, ops, value⟩
  | _ => none

/-- `rmp_serde`, over the bytes that it makes of an item. -/
def payloadCodec (format : Codec Item) : Codec LogEntry where
  encode e := format.encode e.serialize
  decode payload := (format.decode payload).bind LogEntry.deserialize

theorem DeltaOpKind.deserialize_name (kind : DeltaOpKind) :
    DeltaOpKind.deserialize (.str kind.name) = some kind := by
  cases kind with
  | _ => rfl

theorem DeltaOp.deserialize_serialize_iff (op : DeltaOp) :
    DeltaOp.deserialize op.serialize = some op ↔ ∃ v, op.value = some v ∧ v ≠ .null := by
  obtain ⟨-, -, value⟩ := op
  cases value with
  | none => simp [serialize, deserialize]
  | some v =>
    by_cases hnull : v = .null
    · simp [serialize, deserialize, DeltaOpKind.deserialize_name, Item.toStr, Item.toOption_ofValue,
        hnull]
    · simp [serialize, deserialize, DeltaOpKind.deserialize_name, Item.toStr, Item.toOption_ofValue,
        hnull]

theorem mapM_deserialize_iff (ops : List DeltaOp) :
    (ops.map DeltaOp.serialize).mapM DeltaOp.deserialize = some ops ↔
      ∀ op ∈ ops, DeltaOp.deserialize op.serialize = some op := by
  induction ops with
  | nil => simp
  | cons op ops ih =>
    rw [List.forall_mem_cons, ← ih, List.map_cons, List.mapM_cons]
    simp only [Option.bind_eq_bind, Option.bind_eq_some_iff, Option.pure_def, Option.some.injEq,
      List.cons.injEq]
    constructor
    · rintro ⟨_, hop, _, hops, rfl, rfl⟩
      exact ⟨hop, hops⟩
    · rintro ⟨hop, hops⟩
      exact ⟨op, hop, ops, hops, rfl, rfl⟩

theorem LogEntry.deserialize_serialize_iff (e : LogEntry) :
    LogEntry.deserialize e.serialize = some e ↔ ∀ op ∈ e.ops, ∃ v, op.value = some v ∧
      v ≠ .null := by
  obtain ⟨-, -, ops, -⟩ := e
  have hops := mapM_deserialize_iff ops
  simp only [DeltaOp.deserialize_serialize_iff] at hops
  rw [← hops]
  simp [serialize, deserialize, Item.toValue_ofValue, bind_eq_some_iff]

section Format
variable {format : Codec Item} {e : LogEntry}

theorem payload_read (hformat : format.decode (format.encode e.serialize) = some e.serialize) :
    (payloadCodec format).decode ((payloadCodec format).encode e) =
      LogEntry.deserialize e.serialize := by
  change (format.decode (format.encode e.serialize)).bind LogEntry.deserialize = _
  rw [hformat, bind_some]

/-- A record whose payload `rmp_serde` carries, and whose length fits into its header, is read back
exactly if each op has a value other than null. -/
theorem record_read_back_iff
    (hformat : format.decode (format.encode e.serialize) = some e.serialize)
    (hlen : (format.encode e.serialize).length < 2 ^ 32) :
    Lossless (payloadCodec format) e ↔ ∀ op ∈ e.ops, ∃ v, op.value = some v ∧ v ≠ .null := by
  rw [lossless_iff, payload_read hformat, LogEntry.deserialize_serialize_iff]
  exact and_iff_left hlen

/-- The record is read back. -/
structure LogEntry.ReadBack (format : Codec Item) (e : LogEntry) : Prop where
  carried : format.decode (format.encode e.serialize) = some e.serialize
  short : (format.encode e.serialize).length < 2 ^ 32
  values : ∀ op ∈ e.ops, ∃ v, op.value = some v ∧ v ≠ .null

theorem LogEntry.ReadBack.lossless (h : e.ReadBack format) :
    Lossless (payloadCodec format) e := by
  rw [lossless_iff, payload_read h.carried, LogEntry.deserialize_serialize_iff]
  exact ⟨h.values, h.short⟩

end Format

mutual
/-- MessagePack of numbers below 128, strings shorter than 32 bytes, arrays of fewer than 16 items
and booleans. -/
def Item.shortBytes : Item → Bytes
  | .nil => [0xc0]
  | .uint n => [UInt8.ofNat n]
  | .str s => UInt8.ofNat (0xa0 + s.utf8ByteSize) :: s.toUTF8.data.toList
  | .json v => [if v = .bool true then 0xc3 else 0xc2]
  | .array items => UInt8.ofNat (0x90 + items.length) :: Item.shortBytesList items
def Item.shortBytesList : List Item → Bytes
  | [] => []
  | item :: items => item.shortBytes ++ Item.shortBytesList items
end

/-- The format on the records of a list. -/
def shortFormat (l : List LogEntry) : Codec Item where
  encode := Item.shortBytes
  decode payload := (l.map LogEntry.serialize).find? fun item => item.shortBytes = payload

theorem shortFormat_carries {l : List LogEntry} {e : LogEntry} (he : e ∈ l)
    (hl : (l.map fun r => r.serialize.shortBytes).Nodup) :
    (shortFormat l).decode ((shortFormat l).encode e.serialize) = some e.serialize := by
  rw [← Function.comp_def Item.shortBytes, ← List.map_map] at hl
  cases hfind : (shortFormat l).decode ((shortFormat l).encode e.serialize) with
  | none =>
    have hno := find?_eq_none.mp hfind _ (List.mem_map_of_mem he)
    simp [shortFormat] at hno
  | some item =>
    have hsame := find?_some hfind
    rw [decide_eq_true_eq] at hsame
    rw [inj_on_of_nodup_map hl (mem_of_find?_eq_some hfind) (List.mem_map_of_mem he) hsame]

def addedRecord : LogEntry := ⟨1, "k", [.add "/" (.bool true)], .bool true⟩

theorem added_record_read_back : StateStore.new.recordOf (.apply "k" (.bool true)) =
      some addedRecord ∧
    (shortFormat [addedRecord]).encode addedRecord.serialize = [0x94, 0x01, 0xa1, 0x6b, 0x91, 0x93,
      0xa3, 0x41, 0x44, 0x44, 0xa1, 0x2f, 0xc3, 0xc3] ∧
    Lossless (payloadCodec (shortFormat [addedRecord])) addedRecord := by
  refine ⟨rfl, by decide +kernel, ?_⟩
  refine (record_read_back_iff (shortFormat_carries mem_cons_self (by decide +kernel))
    (by decide +kernel)).mpr fun op hop => ?_
  exact ⟨.bool true, by rw [mem_singleton.mp hop]; rfl, Value.noConfusion⟩

def deletedRecord : LogEntry := ⟨2, "k", [.remove "/"], .null⟩

/-- What `delete` writes cannot be read, whatever follows it in the segment. -/
theorem deleted_record_not_read :
    (StateStore.new.apply "k" (.bool true)).1.recordOf (.delete "k") = some deletedRecord ∧
      (shortFormat [deletedRecord]).encode deletedRecord.serialize = [0x94, 0x02, 0xa1, 0x6b, 0x91,
        0x92, 0xa6, 0x52, 0x45, 0x4d, 0x4f, 0x56, 0x45, 0xa1, 0x2f, 0xc0] ∧
      ∀ rest, readEntry (payloadCodec (shortFormat [deletedRecord]))
        (writeEntry (payloadCodec (shortFormat [deletedRecord])) deletedRecord ++ rest) =
          .corrupt := by
  have hlen : ((payloadCodec (shortFormat [deletedRecord])).encode deletedRecord).length = 16 := by
    decide +kernel
  refine ⟨by decide +kernel, by decide +kernel, fun rest => ?_⟩
  have hread := payload_read (e := deletedRecord)
    (shortFormat_carries (l := [deletedRecord]) mem_cons_self (by decide +kernel))
  rw [writeEntry, append_assoc, readEntry_leBytes, Nat.mod_eq_of_lt (by rw [hlen]; decide),
    if_neg (by simp), take_left, hread]
  rfl

/-! ### An append that fails -/

/-- Where `append` returns with an error: at the flush of a full segment, at the file of the next
one, or after `n` bytes of the record have reached the file. -/
inductive AppendFault where
  | flush
  | create
  | write (n : ℕ)
deriving DecidableEq

/-- `append` with its error. The faults of a rotation only meet a segment that is full. -/
def FileLog.tryAppend (codec : Codec LogEntry) (log : FileLog) (entry : LogEntry) :
    Option AppendFault → FileLog × Option AppendFault
  | some (.write n) => (log.rotateIfFull.write ((writeEntry codec entry).take n), some (.write n))
  | some fault =>
    if SegmentedLog.maxEntriesPerSegment ≤ log.entryCount then
      match fault with
      | .create => ({ log with currentSeg := log.currentSeg + 1 }, some fault)
      | _ => (log, some fault)
    else (log.append codec entry, none)
  | none => (log.append codec entry, none)

theorem FileLog.tryAppend_of_ok {codec : Codec LogEntry} {log : FileLog} {entry : LogEntry}
    {fault : Option AppendFault} (h : (log.tryAppend codec entry fault).2 = none) :
    (log.tryAppend codec entry fault).1 = log.append codec entry := by
  rw [tryAppend.eq_def] at h ⊢
  split at h
  · cases h
  · split_ifs at h ⊢
    · split at h <;> cases h
    · rfl
  · rfl

/-- A persistent store: what it has in memory, and the files of its log. What a failed write leaves
in the buffer of the writer is not part of it. -/
structure FileStore where
  memory : StateStore
  plog : FileLog

namespace FileStore
open StateStore (Call)
variable (codec : Codec LogEntry)

/-- `StateStore::open` -/
def openStore (files : Files) : FileStore :=
  ⟨{ StateStore.openDir (FileLog.readDir codec files) with plog := none },
    (FileLog.openFiles codec files).1⟩

def tryAppend (d : FileStore) (c : Call) (fault : Option AppendFault) :
    FileLog × Option AppendFault :=
  match d.memory.recordOf c with
  | none => (d.plog, none)
  | some entry => d.plog.tryAppend codec entry fault

/-- `apply` or `delete`, with what the caller is given. The error of the append is only logged. -/
def exec (d : FileStore) (c : Call) (fault : Option AppendFault) :
    FileStore × Option (ℕ × List DeltaOp) :=
  let called := d.memory.exec c
  let plog := (d.tryAppend codec c fault).1
  let plog := if (d.memory.recordOf c).isSome ∧
      SegmentedLog.maxSegmentsBeforeCompact < plog.segmentCount then
    plog.compact codec called.1.snapshot else plog
  (⟨called.1, plog⟩, called.2)

def Fails (d : FileStore) (c : Call) (fault : Option AppendFault) : Prop :=
  (d.tryAppend codec c fault).2 ≠ none
deriving Decidable

structure Rejected (d : FileStore) (c : Call) (fault : Option AppendFault) : Prop where
  entries : (d.exec codec c fault).1.memory.entries = d.memory.entries
  log : (d.exec codec c fault).1.memory.log = d.memory.log
  reply : (d.exec codec c fault).2 = none

variable {codec} {d : FileStore} {c : Call} {fault : Option AppendFault}

theorem reply_of_fails (h : d.Fails codec c fault) : ∃ entry, d.memory.recordOf c = some entry ∧
      (d.exec codec c fault).2 = some (entry.version, entry.ops) := by
  cases hrecord : d.memory.recordOf c with
  | none => simp [Fails, tryAppend, hrecord] at h
  | some entry =>
    refine ⟨entry, rfl, ?_⟩
    change (d.memory.exec c).2 = _
    rw [StateStore.exec_of_record hrecord]

/-- A failed append rejects the mutation exactly if there is none. -/
theorem failed_append_rejects_iff :
    (d.Fails codec c fault → d.Rejected codec c fault) ↔ ¬d.Fails codec c fault := by
  refine ⟨fun hrejects hfails => ?_, fun hnot hfails => absurd hfails hnot⟩
  obtain ⟨_, -, hreply⟩ := reply_of_fails hfails
  rw [(hrejects hfails).reply] at hreply
  cases hreply

def recordCodec : Codec LogEntry := payloadCodec (shortFormat [addedRecord])

/-- A value of which no byte is in the log, and that the store has all the same. -/
theorem failed_append_applied :
    (openStore recordCodec .empty).Fails recordCodec (.apply "k" (.bool true)) (some (.write 0)) ∧
      ∃ d, (openStore recordCodec .empty).exec recordCodec (.apply "k" (.bool true))
          (some (.write 0)) = (d, some (1, [.add "/" (.bool true)])) ∧
        d.memory.valueOf "k" = .bool true ∧ d.plog.logDir.get? 0 = some [] :=
  ⟨by decide +kernel, _, rfl, by decide +kernel, by decide +kernel⟩

end FileStore

end Sodp
