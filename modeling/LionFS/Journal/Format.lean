import LionFS.Data.Words
import LionFS.Data.Writes

/-!
# On-disk journal blocks

`ondisk::serialization` lays the journal's three block kinds out as whole blocks
of plain fields. `bytes_of` writes the fields in order, little-endian, and
`pod_read_unaligned` reads any block as any of the three kinds: nothing in a
block says which kind was written there. Reading back what was written returns
it; reading a block as another kind returns whatever its bytes spell.
-/
namespace LionFS
open List Nat Words

/-- `BLOCK_SIZE`. -/
def blockSize : Nat := 4096

/-- One device block, exactly `BLOCK_SIZE` bytes. -/
structure Block where
  /-- The bytes in device order. -/
  bytes : List UInt8
  /-- A block is never short. -/
  size : bytes.length = blockSize
  deriving DecidableEq

theorem Block.ext' {left right : Block} (same : left.bytes = right.bytes) : left = right := by
  cases left
  cases right
  cases same
  rfl

/-- The block of one repeated byte. -/
def Block.fill (byte : UInt8) : Block := ⟨replicate blockSize byte, by simp⟩

/-- Blocks of different repeated bytes differ. -/
theorem Block.fill_inj {left right : UInt8} (same : Block.fill left = Block.fill right) :
    left = right := by
  have first : (Block.fill left).bytes.head? = (Block.fill right).bytes.head? := by rw [same]
  exact Option.some.inj first

/-- The block device below the filesystem: block numbers to contents. -/
abbrev Disk := Nat → Block

namespace Journal

/-- `JOURNAL_MAGIC`, the text `JOURNAL1`. -/
def journalMagic : UInt64 := 0x4A4F55524E414C31

/-- The bytes of a block after its fields. -/
abbrev Padding (used : Nat) := { bytes : List UInt8 // bytes.length = blockSize - used }

/-- The zero bytes written after the fields of a journal block. -/
def zeroPadding (used : Nat) : Padding used := ⟨replicate (blockSize - used) 0, by simp⟩

/-- `JournalHeader`, the first block of a journal record. -/
structure JournalHeader where
  /-- `JOURNAL_MAGIC` in a written header. -/
  magic : UInt64
  /-- Format version, always one. -/
  version : UInt32
  /-- Number of journaled blocks in the record. -/
  entryCount : UInt32
  /-- Transaction the record belongs to. -/
  txId : UInt64
  /-- Time of the transaction. -/
  timestamp : UInt64
  /-- Checksum of the header with this field zero. -/
  checksum : UInt32
  /-- Alignment of the checksum. -/
  paddingCsum : UInt32
  /-- Rest of the block. -/
  padding : Padding 40

/-- `JournalRecordHeader`, the block before each journaled block. -/
structure JournalRecordHeader where
  /-- Transaction the record belongs to. -/
  txId : UInt64
  /-- Where the journaled block belongs. -/
  physicalBlock : UInt64
  /-- Checksum of the journaled block that follows. -/
  checksum : UInt32
  /-- Alignment of the checksum. -/
  padding : UInt32
  /-- Rest of the block. -/
  padding2 : Padding 24

/-- `JournalFooter`, the last block of a journal record. -/
structure JournalFooter where
  /-- `JOURNAL_MAGIC` in a written footer. -/
  magic : UInt64
  /-- Transaction the record belongs to. -/
  txId : UInt64
  /-- Number of journaled blocks in the record. -/
  totalRecords : UInt32
  /-- Checksum of the footer with this field zero. -/
  checksum : UInt32
  /-- Rest of the block. -/
  padding : Padding 24

/-- `bytes_of` a header. -/
def JournalHeader.toBlock (header : JournalHeader) : Block where
  bytes := encode 8 header.magic.toNat ++ (encode 4 header.version.toNat ++
    (encode 4 header.entryCount.toNat ++ (encode 8 header.txId.toNat ++
    (encode 8 header.timestamp.toNat ++ (encode 4 header.checksum.toNat ++
    (encode 4 header.paddingCsum.toNat ++ header.padding.val))))))
  size := by simp [header.padding.property, blockSize]

variable (header : JournalRecordHeader)

/-- `bytes_of` a record header. -/
def JournalRecordHeader.toBlock : Block where
  bytes := encode 8 header.txId.toNat ++ (encode 8 header.physicalBlock.toNat ++
    (encode 4 header.checksum.toNat ++ (encode 4 header.padding.toNat ++
    header.padding2.val)))
  size := by simp [header.padding2.property, blockSize]

variable (footer : JournalFooter)

/-- `bytes_of` a footer. -/
def JournalFooter.toBlock : Block where
  bytes := encode 8 footer.magic.toNat ++ (encode 8 footer.txId.toNat ++
    (encode 4 footer.totalRecords.toNat ++ (encode 4 footer.checksum.toNat ++
    footer.padding.val)))
  size := by simp [footer.padding.property, blockSize]

/-- `pod_read_unaligned::<JournalHeader>` of any block. -/
def JournalHeader.read (block : Block) : JournalHeader :=
  let magic := Words.take 8 block.bytes
  let version := Words.take 4 magic.2
  let entryCount := Words.take 4 version.2
  let txId := Words.take 8 entryCount.2
  let timestamp := Words.take 8 txId.2
  let checksum := Words.take 4 timestamp.2
  let paddingCsum := Words.take 4 checksum.2
  { magic := .ofNat magic.1, version := .ofNat version.1, entryCount := .ofNat entryCount.1
    txId := .ofNat txId.1, timestamp := .ofNat timestamp.1, checksum := .ofNat checksum.1
    paddingCsum := .ofNat paddingCsum.1
    padding := ⟨paddingCsum.2, by simp [paddingCsum, checksum, timestamp, txId, entryCount,
      version, magic, Words.take, block.size, blockSize]⟩ }

/-- `pod_read_unaligned::<JournalRecordHeader>` of any block. -/
def JournalRecordHeader.read (block : Block) : JournalRecordHeader :=
  let txId := Words.take 8 block.bytes
  let physicalBlock := Words.take 8 txId.2
  let checksum := Words.take 4 physicalBlock.2
  let padding := Words.take 4 checksum.2
  { txId := .ofNat txId.1, physicalBlock := .ofNat physicalBlock.1, checksum := .ofNat checksum.1
    padding := .ofNat padding.1
    padding2 := ⟨padding.2, by simp [padding, checksum, physicalBlock, txId, Words.take,
      block.size, blockSize]⟩ }

/-- `pod_read_unaligned::<JournalFooter>` of any block. -/
def JournalFooter.read (block : Block) : JournalFooter :=
  let magic := Words.take 8 block.bytes
  let txId := Words.take 8 magic.2
  let totalRecords := Words.take 4 txId.2
  let checksum := Words.take 4 totalRecords.2
  { magic := .ofNat magic.1, txId := .ofNat txId.1, totalRecords := .ofNat totalRecords.1
    checksum := .ofNat checksum.1
    padding := ⟨checksum.2, by simp [checksum, totalRecords, txId, magic, Words.take,
      block.size, blockSize]⟩ }

theorem ofNat_word64 (word : UInt64) : UInt64.ofNat (word.toNat % 256 ^ 8) = word := by
  rw [mod_eq_of_lt (lt_of_lt_of_eq word.toNat_lt (by norm_num))]
  exact UInt64.ofNat_toNat

theorem ofNat_word32 (word : UInt32) : UInt32.ofNat (word.toNat % 256 ^ 4) = word := by
  rw [mod_eq_of_lt (lt_of_lt_of_eq word.toNat_lt (by norm_num))]
  exact UInt32.ofNat_toNat

@[simp] theorem JournalHeader.read_toBlock (header : JournalHeader) :
    JournalHeader.read header.toBlock = header := by
  simp only [read, toBlock, Words.take_encode, ofNat_word64, ofNat_word32]

/-- Writing a block read as a header restores the block: every block spells a header. -/
theorem JournalHeader.toBlock_read (block : Block) :
    (JournalHeader.read block).toBlock = block := by
  have long := block.size
  have word (width : Nat) (bytes : List UInt8) (wide : width ≤ bytes.length) :
      (Words.take width bytes).1 < 256 ^ width := by
    have bound := Words.decode_lt (bytes.take width)
    rwa [length_take, min_eq_left wide] at bound
  have rest (width : Nat) (bytes : List UInt8) :
      (Words.take width bytes).2.length = bytes.length - width := by simp [Words.take]
  apply Block.ext'
  simp only [read, toBlock, UInt64.toNat_ofNat', UInt32.toNat_ofNat']
  rw [blockSize] at long
  rw [mod_eq_of_lt, mod_eq_of_lt, mod_eq_of_lt, mod_eq_of_lt, mod_eq_of_lt,
    mod_eq_of_lt, mod_eq_of_lt]
  · iterate 7 rw [Words.encode_take _ _ (by simp only [rest, long]; omega)]
  all_goals
    refine lt_of_lt_of_eq (word _ _ (by simp only [rest, long]; omega)) (by norm_num)

@[simp] theorem JournalRecordHeader.read_toBlock :
    JournalRecordHeader.read header.toBlock = header := by
  simp only [read, toBlock, Words.take_encode, ofNat_word64, ofNat_word32]

@[simp] theorem JournalFooter.read_toBlock : JournalFooter.read footer.toBlock = footer := by
  simp only [read, toBlock, Words.take_encode, ofNat_word64, ofNat_word32]

theorem JournalRecordHeader.magic_asHeader :
    (JournalHeader.read header.toBlock).magic = header.txId := by
  simp only [JournalHeader.read, toBlock, Words.take_encode, ofNat_word64]

theorem JournalRecordHeader.magic_asFooter :
    (JournalFooter.read header.toBlock).magic = header.txId := by
  simp only [JournalFooter.read, toBlock, Words.take_encode, ofNat_word64]

theorem JournalFooter.checksum_asRecordHeader :
    (JournalRecordHeader.read footer.toBlock).checksum = footer.totalRecords := by
  simp only [JournalRecordHeader.read, toBlock, Words.take_encode, ofNat_word32]

theorem JournalFooter.checksum_asHeader (zero : footer.padding = zeroPadding 24) :
    (JournalHeader.read footer.toBlock).checksum = 0 := by
  have field : (JournalHeader.read footer.toBlock).checksum =
      .ofNat (Words.decode ((footer.toBlock.bytes.drop 32).take 4)) := by
    simp [JournalHeader.read, Words.take]
  have padding : footer.toBlock.bytes.drop 32 = (zeroPadding 24).val.drop 8 := by
    simp only [toBlock, zero, drop_append, length_encode]
    iterate 4 rw [drop_eq_nil_of_le (by simp)]
    rfl
  rw [field, padding, zeroPadding, drop_replicate, take_replicate]
  rfl

end Journal
end LionFS
