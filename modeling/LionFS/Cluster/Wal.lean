import LionFS.Data.Machine
import LionFS.Data.Words
import Mathlib.Data.List.Basic

/-!
# The log of the cluster engine

The framing and the replay of `wal.rs`. A batch is a frame for each record and
one for its commit marker, appended together; a frame is a length, a checksum and
a serialized record. `replay` reads frames until one is short, fails its checksum
or does not decode, and returns the records between markers.

`open` appends behind whatever a crash left. What a crash left before the marker
goes into the next transaction, and what is behind a torn frame is not read.
-/
namespace LionFS.Cluster.Wal
open LionFS Machine List Option Words

/-- `WalRecord`: what is journaled, and the marker of a transaction. -/
inductive Entry (Record : Type) where
  /-- A journaled record. -/
  | record (body : Record)
  | commit (txn : Nat)
  deriving DecidableEq, Repr

/-- Whether an entry is a journaled record. -/
def Entry.isRecord {Record : Type} : Entry Record → Bool
  | .record _ => true
  | .commit _ => false

/-- What `wal.rs` takes from `bincode` and `crc32fast`. -/
structure Codec (Record : Type) where
  /-- `bincode::serialize`. -/
  serialize : Entry Record → Option (List UInt8)
  /-- `bincode::deserialize`. -/
  deserialize : List UInt8 → Option (Entry Record)
  /-- `crc32fast::hash`. -/
  crc : List UInt8 → UInt32

/-- What was serialized is read back. -/
def Codec.Inverts {Record : Type} (codec : Codec Record) : Prop :=
  ∀ entry payload, codec.serialize entry = some payload → codec.deserialize payload = some entry

variable {Record : Type} (codec : Codec Record)

/-- A frame: length, checksum, payload. The length is cut to 32 bits. -/
def frame (payload : List UInt8) : List UInt8 :=
  encodeBig 4 payload.length ++ encodeBig 4 (codec.crc payload).toNat ++ payload

/-- The frames of a list of entries. -/
def frames : List (Entry Record) → Option (List UInt8)
  | [] => some []
  | entry :: rest =>
    match codec.serialize entry with
    | none => none
    | some payload => (frames rest).map (frame codec payload ++ ·)

/-- One pass of the loop of `replay`: the entry at the front, and the bytes behind it. -/
def readFrame (raw : List UInt8) : Option (Entry Record × List UInt8) :=
  if raw.length < 8 then none
  else
    let frameLen := decodeBig (raw.take 4)
    let frameCrc := decodeBig ((raw.drop 4).take 4)
    let body := (raw.drop 8).take frameLen
    if (raw.drop 8).length < frameLen then none
    else if (codec.crc body).toNat ≠ frameCrc then none
    else (codec.deserialize body).map fun entry => (entry, (raw.drop 8).drop frameLen)

/-- Where the loop of `replay` stands: `txns`, `current`, and the bytes from `pos` on. -/
structure Scan (Record : Type) where
  txns : List (Nat × List (Entry Record))
  current : List (Entry Record)
  /-- The bytes from `pos` on. -/
  rest : List UInt8

/-- The loop of `replay`, over at most a number of frames. -/
def scanFrames : Nat → List (Nat × List (Entry Record)) → List (Entry Record) → List UInt8 →
    Scan Record
  | 0, txns, current, raw => ⟨txns, current, raw⟩
  | count + 1, txns, current, raw =>
    match readFrame codec raw with
    | none => ⟨txns, current, raw⟩
    | some (.commit txn, rest) => scanFrames count (txns ++ [(txn, current)]) [] rest
    | some (.record body, rest) => scanFrames count txns (current ++ [.record body]) rest

/-- The loop of `replay`. A frame is not empty, so there are no more frames than bytes. -/
def scan (txns : List (Nat × List (Entry Record))) (current : List (Entry Record))
    (raw : List UInt8) : Scan Record :=
  scanFrames codec raw.length txns current raw

/-- `Wal::replay`. -/
def replay (raw : List UInt8) : List (Nat × List (Entry Record)) := (scan codec [] [] raw).txns

/-- A log, and the batches that were acknowledged since it was created or reset. -/
structure Log (Record : Type) where
  /-- The bytes of `file`. -/
  file : List UInt8
  nextTxn : Nat
  /-- The batches for which `commit_batch` returned, with the ids it returned. -/
  acked : List (Nat × List (Entry Record))
  deriving DecidableEq

/-- `Wal::create`. -/
def Log.create : Log Record where
  file := []
  nextTxn := 1
  acked := []

variable (log : Log Record) (records : List (Entry Record))

/-- The bytes that `commit_batch` appends. -/
def appended : Option (List UInt8) :=
  frames codec (records ++ [.commit log.nextTxn])

/-- `commit_batch`. A record that does not serialize makes it fail before anything is written. -/
def commitBatch : Log Record :=
  match appended codec log records with
  | none => { log with nextTxn := log.nextTxn + 1 }
  | some bytes =>
    { file := log.file ++ bytes
      nextTxn := log.nextTxn + 1
      acked := log.acked ++ [(log.nextTxn, records)] }

/-- `Wal::open`: the file stays as it is. -/
def openLog : Log Record :=
  { log with nextTxn := ((replay codec log.file).map Prod.fst).foldl max 0 + 1 }

/-- What a crash in `commit_batch` leaves of its append. -/
def leftover (cut : Nat) : List UInt8 :=
  ((appended codec log records).getD []).take cut

/-- What happens to a log. -/
inductive Event (Record : Type) where
  /-- `commit_batch` to its end. -/
  | commit (records : List (Entry Record))
  /-- A crash in `commit_batch` that leaves some of its bytes, and `open`. -/
  | crash (records : List (Entry Record)) (cut : Nat)
  | reset

/-- The machine of the log. -/
def step : Event Record → Option (Log Record)
  | .commit records => some (commitBatch codec log records)
  | .crash records cut =>
    some (openLog codec { log with file := log.file ++ leftover codec log records cut })
  | .reset => some Log.create

variable {raw : List UInt8} {cut : Nat}
section Frames
variable {codec} {entry : Entry Record}

/-- A whole frame is read, whatever follows it. -/
theorem readFrame_append {rest : List UInt8} (read : readFrame codec raw = some (entry, rest))
    (more : List UInt8) : readFrame codec (raw ++ more) = some (entry, rest ++ more) := by
  unfold readFrame at read ⊢
  dsimp only at read ⊢
  split_ifs at read with short long wrong
  have header : ¬ (raw ++ more).length < 8 := by
    rw [length_append]
    omega
  have first : (raw ++ more).take 4 = raw.take 4 := take_append_of_le_length (by omega)
  have second : ((raw ++ more).drop 4).take 4 = (raw.drop 4).take 4 := by
    rw [drop_append_of_le_length (by omega), take_append_of_le_length]
    rw [length_drop]
    omega
  have behind : (raw ++ more).drop 8 = raw.drop 8 ++ more :=
    drop_append_of_le_length (by omega)
  rw [if_neg header, first, second, behind, take_append_of_le_length (by omega),
    drop_append_of_le_length (by omega), length_append, if_neg (by omega), if_neg wrong]
  obtain ⟨decoded, found, same⟩ := map_eq_some_iff.mp read
  rw [found, map_some]
  cases same
  rfl

theorem length_of_readFrame {rest : List UInt8} (read : readFrame codec raw = some (entry, rest)) :
    rest.length + 8 ≤ raw.length := by
  unfold readFrame at read
  dsimp only at read
  split_ifs at read with short long wrong
  obtain ⟨decoded, found, same⟩ := map_eq_some_iff.mp read
  cases same
  rw [length_drop, length_drop]
  omega

theorem header_frame (payload more : List UInt8) :
    decodeBig ((frame codec payload ++ more).take 4) = payload.length % 2 ^ 32 ∧
      decodeBig (((frame codec payload ++ more).drop 4).take 4) = (codec.crc payload).toNat ∧
      (frame codec payload ++ more).drop 8 = payload ++ more := by
  have bound := (codec.crc payload).toNat_lt
  obtain ⟨first, second⟩ :=
    decodeBig_front payload.length (codec.crc payload).toNat (payload ++ more)
  rw [Nat.mod_eq_of_lt bound] at second
  unfold frame
  rw [append_assoc, append_assoc]
  refine ⟨first, second, ?_⟩
  rw [← append_assoc, drop_left' (by simp)]

variable {payload : List UInt8}

/-- The frame of a payload that its length field can tell is read, whatever is behind it. -/
theorem readFrame_frame (decoded : codec.deserialize payload = some entry)
    (small : payload.length < 2 ^ 32) (more : List UInt8) :
    readFrame codec (frame codec payload ++ more) = some (entry, more) := by
  obtain ⟨first, second, behind⟩ := @header_frame _ codec payload more
  rw [Nat.mod_eq_of_lt small] at first
  have long : ¬ (frame codec payload ++ more).length < 8 := by
    simp only [frame, length_append, length_encodeBig]
    omega
  unfold readFrame
  rw [if_neg long]
  dsimp only
  rw [first, second, behind, take_left, drop_left, if_neg (by simp), if_neg (by simp),
    decoded, map_some]

/-- The frame of a payload that its length field cannot tell is refused, if the part of the
payload that the field tells has another checksum. -/
theorem readFrame_oversize
    (rejected : codec.crc (payload.take (payload.length % 2 ^ 32)) ≠ codec.crc payload)
    (more : List UInt8) : readFrame codec (frame codec payload ++ more) = none := by
  obtain ⟨first, second, behind⟩ := @header_frame _ codec payload more
  have within : payload.length % 2 ^ 32 ≤ payload.length := Nat.mod_le _ _
  have ne : (codec.crc (payload.take (payload.length % 2 ^ 32))).toNat ≠
      (codec.crc payload).toNat := fun same => rejected (UInt32.toNat_inj.mp same)
  unfold readFrame
  dsimp only
  rw [first, second, behind, take_append_of_le_length within, if_pos ne]
  split_ifs <;> rfl

theorem readFrame_torn (small : payload.length < 2 ^ 32)
    (short : cut < (frame codec payload).length) :
    readFrame codec ((frame codec payload).take cut) = none := by
  have total : (frame codec payload).length = 8 + payload.length := by
    simp only [frame, length_append, length_encodeBig]
  have kept : ((frame codec payload).take cut).length = cut := by
    rw [length_take]
    omega
  unfold readFrame
  dsimp only
  by_cases header : cut < 8
  · rw [if_pos (by omega)]
  · have first : decodeBig (((frame codec payload).take cut).take 4) = payload.length := by
      have whole := (@header_frame _ codec payload []).1
      rw [append_nil, Nat.mod_eq_of_lt small] at whole
      rw [take_take, Nat.min_eq_left (by omega), whole]
    rw [if_neg (by omega), first, if_pos]
    rw [length_drop, kept]
    omega

end Frames

section Scanning
variable {codec}

/-- How many frames are allowed does not matter, if they are as many as there are bytes. -/
theorem scanFrames_eq {count other : Nat} {txns : List (Nat × List (Entry Record))}
    {current : List (Entry Record)} (enough : raw.length ≤ count) (covers : raw.length ≤ other) :
    scanFrames codec count txns current raw = scanFrames codec other txns current raw := by
  induction count generalizing other txns current raw with
  | zero =>
    obtain rfl := length_eq_zero_iff.mp (Nat.le_zero.mp enough)
    cases other <;> rfl
  | succ count ih =>
    cases read : readFrame codec raw with
    | none => cases other <;> simp only [scanFrames, read]
    | some pair =>
      obtain ⟨entry, rest⟩ := pair
      have shorter := length_of_readFrame read
      obtain ⟨more, rfl⟩ : ∃ more, other = more + 1 := ⟨other - 1, by omega⟩
      cases entry <;> simp only [scanFrames, read] <;> exact ih (by omega) (by omega)

variable {txns : List (Nat × List (Entry Record))} {current : List (Entry Record)}
  {raw rest more : List UInt8}

theorem scan_stop (read : readFrame codec raw = none) :
    scan codec txns current raw = ⟨txns, current, raw⟩ := by
  unfold scan
  cases raw.length with
  | zero => rfl
  | succ count => simp only [scanFrames, read]

theorem scan_record {body : Record} (read : readFrame codec raw = some (.record body, rest)) :
    scan codec txns current raw = scan codec txns (current ++ [.record body]) rest := by
  have shorter := length_of_readFrame read
  unfold scan
  rw [scanFrames_eq le_rfl (Nat.le_succ raw.length)]
  simp only [scanFrames, read]
  exact scanFrames_eq (by omega) le_rfl

/-- The loop ends a transaction at a marker. -/
theorem scan_commit {txn : Nat} (read : readFrame codec raw = some (.commit txn, rest)) :
    scan codec txns current raw = scan codec (txns ++ [(txn, current)]) [] rest := by
  have shorter := length_of_readFrame read
  unfold scan
  rw [scanFrames_eq le_rfl (Nat.le_succ raw.length)]
  simp only [scanFrames, read]
  exact scanFrames_eq (by omega) le_rfl

/-- Bytes are read as the loop reads them: none, a record and what is behind it, or a marker and
what is behind it. -/
theorem scan_induction {motive : List (Nat × List (Entry Record)) → List (Entry Record) →
      List UInt8 → Prop}
    (stop : ∀ txns current raw, readFrame codec raw = none → motive txns current raw)
    (record : ∀ txns current raw body rest, readFrame codec raw = some (.record body, rest) →
      motive txns (current ++ [.record body]) rest → motive txns current raw)
    (commit : ∀ txns current raw txn rest, readFrame codec raw = some (.commit txn, rest) →
      motive (txns ++ [(txn, current)]) [] rest → motive txns current raw)
    (txns : List (Nat × List (Entry Record))) (current : List (Entry Record))
    (raw : List UInt8) : motive txns current raw := by
  induction length : raw.length using Nat.strong_induction_on generalizing txns current raw with
  | _ size ih =>
    cases read : readFrame codec raw with
    | none => exact stop txns current raw read
    | some pair =>
      obtain ⟨entry, rest⟩ := pair
      have shorter := length_of_readFrame read
      cases entry with
      | record body => exact record _ _ _ _ _ read (ih rest.length (by omega) _ _ rest rfl)
      | commit txn => exact commit _ _ _ _ _ read (ih rest.length (by omega) _ _ rest rfl)

theorem scan_append (more : List UInt8) :
    scan codec txns current (raw ++ more) =
      scan codec (scan codec txns current raw).txns (scan codec txns current raw).current
        ((scan codec txns current raw).rest ++ more) := by
  induction txns, current, raw using @scan_induction _ codec with
  | stop txns current raw read => rw [scan_stop read]
  | record txns current raw body rest read ih =>
    rw [scan_record (readFrame_append read more), ih, scan_record read]
  | commit txns current raw txn rest read ih =>
    rw [scan_commit (readFrame_append read more), ih, scan_commit read]

/-- Transactions hold records only. -/
theorem isRecord_of_scan (before : ∀ txn ∈ txns, ∀ entry ∈ txn.2, entry.isRecord = true)
    (here : ∀ entry ∈ current, entry.isRecord = true) :
    ∀ txn ∈ (scan codec txns current raw).txns, ∀ entry ∈ txn.2, entry.isRecord = true := by
  induction txns, current, raw using @scan_induction _ codec with
  | stop txns current raw read =>
    rw [scan_stop read]
    exact before
  | record txns current raw body rest read ih =>
    rw [scan_record read]
    exact ih before (forall_mem_append.mpr ⟨here, forall_mem_singleton.mpr rfl⟩)
  | commit txns current raw txn rest read ih =>
    rw [scan_commit read]
    refine ih (forall_mem_append.mpr ⟨before, forall_mem_singleton.mpr ?_⟩) (forall_mem_nil _)
    exact here

/-- Transactions found before stay in front. -/
theorem scan_behind (before : List (Nat × List (Entry Record))) :
    (scan codec (before ++ txns) current raw).txns =
      before ++ (scan codec txns current raw).txns := by
  induction txns, current, raw using @scan_induction _ codec with
  | stop txns current raw read => rw [scan_stop read, scan_stop read]
  | record txns current raw body rest read ih => rw [scan_record read, ih, scan_record read]
  | commit txns current raw txn rest read ih =>
    rw [scan_commit read, append_assoc, ih, scan_commit read]

/-- Whether the loop finds a transaction does not depend on what it has. -/
theorem scan_txns_eq_iff : (scan codec txns current raw).txns = txns ↔ replay codec raw = [] := by
  have either : ∀ other, (scan codec [] other raw).txns = [] ↔
      (scan codec [] current raw).txns = [] := by
    induction txns, current, raw using @scan_induction _ codec with
    | stop txns current raw read =>
      intro other
      rw [scan_stop read, scan_stop read]
    | record txns current raw body rest read ih =>
      intro other
      rw [scan_record read, ih, ← ih, scan_record read]
    | commit txns current raw txn rest read ih =>
      intro other
      rw [scan_commit read, scan_commit read, nil_append, nil_append, ← append_nil [(txn, other)],
        ← append_nil [(txn, current)], scan_behind, scan_behind]
      simp
  have split := @scan_behind _ codec [] current raw txns
  rw [append_nil] at split
  rw [split, append_right_eq_self, ← either []]
  rfl

end Scanning

section Batches
variable {codec}

/-- The payloads of entries are as long as a length field can tell. -/
def Fits (codec : Codec Record) (entries : List (Entry Record)) : Prop :=
  ∀ entry ∈ entries, ∀ payload ∈ codec.serialize entry, payload.length < 2 ^ 32

variable {bytes : List UInt8}

theorem frames_cons {entry : Entry Record} {rest : List (Entry Record)}
    (framed : frames codec (entry :: rest) = some bytes) :
    ∃ payload later, codec.serialize entry = some payload ∧ frames codec rest = some later ∧
      bytes = frame codec payload ++ later := by
  unfold frames at framed
  cases serialized : codec.serialize entry with
  | none =>
    rw [serialized] at framed
    cases framed
  | some payload =>
    rw [serialized] at framed
    obtain ⟨later, found, same⟩ := map_eq_some_iff.mp framed
    exact ⟨payload, later, rfl, found, same.symm⟩

variable {records current : List (Entry Record)} {txn : Nat}
  {txns : List (Nat × List (Entry Record))}

theorem scan_frame (inverts : codec.Inverts) {entry : Entry Record} {payload : List UInt8}
    (serialized : codec.serialize entry = some payload) (small : payload.length < 2 ^ 32)
    (record : entry.isRecord = true) (more : List UInt8) :
    scan codec txns current (frame codec payload ++ more) =
      scan codec txns (current ++ [entry]) more := by
  have read := readFrame_frame (inverts _ _ serialized) small more
  cases entry with
  | commit other => cases record
  | record body => exact scan_record read

theorem scan_batch (inverts : codec.Inverts)
    (framed : frames codec (records ++ [.commit txn]) = some bytes)
    (plain : ∀ entry ∈ records, entry.isRecord = true)
    (fits : Fits codec (records ++ [.commit txn])) :
    scan codec txns current bytes = ⟨txns ++ [(txn, current ++ records)], [], []⟩ := by
  induction records generalizing current bytes with
  | nil =>
    obtain ⟨payload, later, serialized, last, same⟩ := frames_cons framed
    have small := fits _ mem_cons_self payload serialized
    have read := readFrame_frame (inverts _ _ serialized) small later
    cases last
    rw [same, scan_commit read, scan_stop (by rfl), append_nil]
  | cons entry rest ih =>
    obtain ⟨payload, later, serialized, framedRest, same⟩ := frames_cons framed
    have small := fits _ mem_cons_self payload serialized
    rw [same, scan_frame inverts serialized small (plain entry mem_cons_self),
      ih framedRest (forall_mem_cons.mp plain).2 (forall_mem_cons.mp fits).2,
      append_assoc, singleton_append]

/-- Entries that no length field tells are refused where they are read. -/
def Refused (codec : Codec Record) (entries : List (Entry Record)) : Prop :=
  ∀ entry ∈ entries, ∀ payload ∈ codec.serialize entry, 2 ^ 32 ≤ payload.length →
    codec.crc (payload.take (payload.length % 2 ^ 32)) ≠ codec.crc payload

variable (inverts : codec.Inverts) (framed : frames codec (records ++ [.commit txn]) = some bytes)
  (plain : ∀ entry ∈ records, entry.isRecord = true)
include inverts framed plain

/-- The loop finds no transaction in a batch of records with a payload that no length field
tells. -/
theorem scan_batch_oversize (refused : Refused codec (records ++ [.commit txn]))
    (oversize : ¬ Fits codec (records ++ [.commit txn])) :
    (scan codec txns current bytes).txns = txns := by
  induction records generalizing current bytes with
  | nil =>
    obtain ⟨payload, later, serialized, last, same⟩ := frames_cons framed
    by_cases small : payload.length < 2 ^ 32
    · refine absurd (fun entry mem other found => ?_) oversize
      rw [mem_singleton.mp mem, serialized] at found
      rwa [← some.inj found]
    · have rejected := refused _ mem_cons_self payload serialized (by omega)
      rw [same, scan_stop (readFrame_oversize rejected later)]
  | cons entry rest ih =>
    obtain ⟨payload, later, serialized, framedRest, same⟩ := frames_cons framed
    by_cases small : payload.length < 2 ^ 32
    · rw [same, scan_frame inverts serialized small (plain entry mem_cons_self)]
      refine ih framedRest (forall_mem_cons.mp plain).2
        (forall_mem_cons.mp refused).2 fun fits => ?_
      refine oversize (forall_mem_cons.mpr ⟨fun found serializes => ?_, fits⟩)
      rw [serialized] at serializes
      rwa [← some.inj serializes]
    · have rejected := refused _ mem_cons_self payload serialized (by omega)
      rw [same, scan_stop (readFrame_oversize rejected later)]

/-- The loop over what a crash leaves of a batch of records, unless it is the whole batch. -/
theorem scan_cut (fits : Fits codec (records ++ [.commit txn])) (short : cut < bytes.length) :
    (scan codec txns current (bytes.take cut)).txns = txns := by
  induction records generalizing current bytes cut with
  | nil =>
    obtain ⟨payload, later, serialized, last, same⟩ := frames_cons framed
    have small := fits _ mem_cons_self payload serialized
    cases last
    rw [append_nil] at same
    rw [same] at short ⊢
    rw [scan_stop (readFrame_torn small short)]
  | cons entry rest ih =>
    obtain ⟨payload, later, serialized, framedRest, same⟩ := frames_cons framed
    have small := fits _ mem_cons_self payload serialized
    rw [same] at short ⊢
    by_cases torn : cut < (frame codec payload).length
    · rw [take_append_of_le_length (by omega), scan_stop (readFrame_torn small torn)]
    · have left : (frame codec payload ++ later).take cut =
          frame codec payload ++ later.take (cut - (frame codec payload).length) := by
        rw [take_append, take_of_length_le (by omega)]
      rw [left, scan_frame inverts serialized small (plain entry mem_cons_self)]
      rw [length_append] at short
      exact ih framedRest (forall_mem_cons.mp plain).2 (forall_mem_cons.mp fits).2 (by omega)

end Batches

section Runs

/-- `replay` returns the acknowledged batches, in order, each with its own records. -/
def Exact : Prop := replay codec log.file = log.acked

/-- The checksum refuses a truncated frame: the torn frame that a log ends in, read on into what
is appended behind it, and a payload cut to what its length field tells. -/
def Rejects : Event Record → Prop
  | .commit records =>
    ((scan codec [] [] log.file).rest ≠ [] → ∀ bytes ∈ appended codec log records,
        readFrame codec ((scan codec [] [] log.file).rest ++ bytes) = none) ∧
      Refused codec (records ++ [.commit log.nextTxn])
  | .crash records cut =>
    (scan codec [] [] log.file).rest ≠ [] →
      readFrame codec ((scan codec [] [] log.file).rest ++ leftover codec log records cut) = none
  | .reset => True

/-- A batch is appended behind a marker, and is of records that a length field can tell; a crash
leaves no marker, unless behind a torn frame. -/
def Allowed : Event Record → Prop
  | .commit records => ∀ _ ∈ appended codec log records,
      (scan codec [] [] log.file).current = [] ∧ (scan codec [] [] log.file).rest = [] ∧
        (∀ entry ∈ records, entry.isRecord = true) ∧
        Fits codec (records ++ [.commit log.nextTxn])
  | .crash records cut => (scan codec [] [] log.file).rest = [] →
      replay codec (leftover codec log records cut) = []
  | .reset => True

variable {codec} {records : List (Entry Record)} {log : Log Record}

/-- A crash that does not leave the whole of a batch of records is allowed. -/
theorem allowed_crash (inverts : codec.Inverts) (plain : ∀ entry ∈ records, entry.isRecord = true)
    (fits : Fits codec (records ++ [.commit log.nextTxn]))
    (short : ∀ bytes ∈ appended codec log records, cut < bytes.length) :
    Allowed codec log (.crash records cut) := by
  intro _
  unfold leftover
  cases framed : appended codec log records with
  | none =>
    rw [getD_none, take_nil]
    rfl
  | some bytes => exact scan_cut inverts framed plain fits (short bytes framed)

theorem replay_append (file more : List UInt8) :
    replay codec (file ++ more) =
      (scan codec (replay codec file) (scan codec [] [] file).current
        ((scan codec [] [] file).rest ++ more)).txns :=
  congrArg Scan.txns (scan_append more)

/-- Wherever a crash cuts the append of a batch behind whole frames, `replay` returns the whole
batch or nothing of it. -/
theorem replay_torn (inverts : codec.Inverts) (plain : ∀ entry ∈ records, entry.isRecord = true)
    (fits : Fits codec (records ++ [.commit log.nextTxn])) {bytes : List UInt8}
    (framed : appended codec log records = some bytes)
    (clean : (scan codec [] [] log.file).rest = []) (cut : Nat) :
    replay codec (log.file ++ bytes.take cut) = replay codec log.file ++
      if cut < bytes.length then []
      else [(log.nextTxn, (scan codec [] [] log.file).current ++ records)] := by
  rw [replay_append, clean, nil_append]
  split_ifs with short
  · rw [scan_cut inverts framed plain fits short, append_nil]
  · rw [take_of_length_le (by omega), scan_batch inverts framed plain fits]

/-- A batch behind a log is returned exactly when it is allowed. -/
theorem replay_commit_iff (inverts : codec.Inverts) {bytes : List UInt8} (exact : Exact codec log)
    (rejects : Rejects codec log (.commit records))
    (framed : appended codec log records = some bytes) :
    replay codec (log.file ++ bytes) = log.acked ++ [(log.nextTxn, records)] ↔
      Allowed codec log (.commit records) := by
  have found := @replay_append _ codec log.file bytes
  unfold Exact at exact
  rw [exact] at found
  constructor
  · intro returned other _
    have mem : (log.nextTxn, records) ∈ replay codec (log.file ++ bytes) := by
      rw [returned]
      exact mem_append_right _ mem_cons_self
    have plain : ∀ entry ∈ records, entry.isRecord = true :=
      isRecord_of_scan (forall_mem_nil _) (forall_mem_nil _) _ mem
    have more : replay codec (log.file ++ bytes) ≠ log.acked := by
      rw [returned]
      simp
    by_cases clean : (scan codec [] [] log.file).rest = []
    · rw [clean, nil_append] at found
      by_cases fits : Fits codec (records ++ [.commit log.nextTxn])
      · rw [scan_batch inverts framed plain fits, returned] at found
        have same := append_cancel_left found
        simp only [cons.injEq, Prod.mk.injEq, and_true, true_and] at same
        exact ⟨append_left_eq_self.mp same.symm, clean, plain, fits⟩
      · rw [scan_batch_oversize inverts framed plain rejects.2 fits] at found
        exact absurd found more
    · rw [scan_stop (rejects.1 clean bytes framed)] at found
      exact absurd found more
  · intro allowed
    obtain ⟨none, clean, plain, fits⟩ := allowed bytes framed
    rw [found, none, clean, nil_append, scan_batch inverts framed plain fits, nil_append]

/-- What a crash leaves behind a log changes nothing exactly when it is allowed. -/
theorem replay_crash_iff (exact : Exact codec log)
    (rejects : Rejects codec log (.crash records cut)) :
    replay codec (log.file ++ leftover codec log records cut) = log.acked ↔
      Allowed codec log (.crash records cut) := by
  have found := @replay_append _ codec log.file (leftover codec log records cut)
  unfold Exact at exact
  rw [exact] at found
  by_cases clean : (scan codec [] [] log.file).rest = []
  · rw [clean, nil_append] at found
    rw [found, scan_txns_eq_iff]
    exact ⟨fun none _ => none, fun allowed => allowed clean⟩
  · rw [scan_stop (rejects clean)] at found
    exact ⟨fun _ whole => absurd whole clean, fun _ => found⟩

/-- Over every history of batches, crashes with reopening, and resets in which the checksum
refuses truncated frames, `replay` returns exactly the acknowledged batches throughout if and only
if every batch is appended behind a marker and no crash leaves a marker. -/
theorem replay_exact_iff (inverts : codec.Inverts) (events : List (Event Record))
    (rejects : Along (step codec) (Rejects codec) events Log.create) :
    Always (step codec) (Exact codec) events Log.create ↔
      Along (step codec) (Allowed codec) events Log.create := by
  refine always_iff_along_of (fun _ => id) (fun log event next exact rejected taken => ?_)
    (fun _ event _ none => by cases event <;> cases none) rfl rejects
  cases event with
  | commit records =>
    cases taken
    unfold commitBatch
    cases framed : appended codec log records with
    | none =>
      refine ⟨fun _ => exact, fun _ bytes mem => ?_⟩
      rw [framed] at mem
      cases mem
    | some bytes =>
      have whole := replay_commit_iff inverts exact rejected framed
      exact ⟨whole.mpr, whole.mp⟩
  | crash records cut =>
    cases taken
    have whole := replay_crash_iff exact rejected
    exact ⟨whole.mpr, whole.mp⟩
  | reset =>
    cases taken
    exact ⟨fun _ => rfl, fun _ => trivial⟩

end Runs

section Examples

/-- Records of one byte, in two bytes with a tag. -/
def tagged : Codec UInt8 where
  serialize
    | .record body => some [0, body]
    | .commit txn => if txn < 256 then some [1, UInt8.ofNat txn] else none
  deserialize
    | [0, body] => some (.record body)
    | [1, txn] => some (.commit txn.toNat)
    | _ => none
  crc bytes := bytes.foldl (fun sum byte => 31 * sum + byte.toUInt32) 7

theorem tagged_inverts : tagged.Inverts := by
  intro entry payload serialized
  cases entry with
  | record body =>
    cases serialized
    rfl
  | commit txn =>
    change (if txn < 256 then some [1, UInt8.ofNat txn] else none) = some payload at serialized
    split_ifs at serialized with small
    cases serialized
    change some (Entry.commit (UInt8.ofNat txn).toNat) = some (.commit txn)
    rw [UInt8.toNat_ofNat', Nat.mod_eq_of_lt small]

instance (entries : List (Entry UInt8)) : Decidable (Refused tagged entries) :=
  inferInstanceAs (Decidable (∀ entry ∈ _, ∀ payload ∈ _, _ → _ ≠ _))

instance (entries : List (Entry UInt8)) : Decidable (Fits tagged entries) :=
  inferInstanceAs (Decidable (∀ entry ∈ _, ∀ payload ∈ _, _ < _))

instance (log : Log UInt8) : (event : Event UInt8) → Decidable (Rejects tagged log event)
  | .commit _ => inferInstanceAs (Decidable ((_ ≠ _ → ∀ bytes ∈ _, _ = _) ∧ Refused tagged _))
  | .crash _ _ => inferInstanceAs (Decidable (_ ≠ _ → _ = _))
  | .reset => .isTrue trivial

instance (log : Log UInt8) : (event : Event UInt8) → Decidable (Allowed tagged log event)
  | .commit _ => inferInstanceAs (Decidable (∀ bytes ∈ _, _ = _ ∧ _ = _ ∧ _ ∧ Fits tagged _))
  | .crash _ _ => inferInstanceAs (Decidable (_ = _ → _ = _))
  | .reset => .isTrue trivial

/-- A crash leaves all but the last byte of the first batch. -/
theorem replay_torn_first : replay tagged (leftover tagged .create [.record 5] 19) = [] :=
  @replay_torn _ tagged [.record 5] .create tagged_inverts (by decide) (by decide +kernel) _ rfl
    rfl 19

/-- A batch, a crash that leaves the first of two records of the next one, and another batch. -/
def absorbing : List (Event UInt8) :=
  [.commit [.record 5], .crash [.record 6, .record 7] 10, .commit [.record 8]]

/-- The record that the crash left is returned with the batch after it. -/
theorem replay_absorbs_leftover :
    ¬ ∀ (codec : Codec UInt8) (events : List (Event UInt8)) (last : Log UInt8), codec.Inverts →
      Along (step codec) (Rejects codec) events Log.create →
      run (step codec) events Log.create = some last → replay codec last.file = last.acked := by
  intro all
  have ran : run (step tagged) absorbing Log.create =
      some (reach (step tagged) absorbing Log.create) := run_eq_reach (by decide +kernel)
  have same := all tagged absorbing _ tagged_inverts (by decide +kernel) ran
  have differ : replay tagged (reach (step tagged) absorbing Log.create).file ≠
      (reach (step tagged) absorbing Log.create).acked := by decide +kernel
  exact differ same

/-- Batches with a reset after the crash. -/
def resetting : List (Event UInt8) :=
  [.commit [.record 5], .crash [.record 6, .record 7] 13, .crash [.record 6] 1, .reset,
    .commit [.record 8, .record 9]]

/-- A history that meets the condition. -/
theorem replay_exact_resetting : Always (step tagged) (Exact tagged) resetting Log.create :=
  (replay_exact_iff tagged_inverts resetting (by decide +kernel)).mpr (by decide +kernel)

end Examples
end LionFS.Cluster.Wal
