import PotatoNode.Lib.LittleEndian
import PotatoNode.Chain.ForkDatabase

/-!
# The block log (`block_log.cpp`)

The log is a file of packed blocks, each followed by its own position, after a header: the
version, the number of the first block, the genesis state or the chain id, and a totem in place
of a position. The index is a file of the positions alone. Both are lists of bytes here; closing
and opening the C files that hold them is left out, and a file ends at the largest offset the
system has, where a write fails.
-/

namespace PotatoNode.Chain

open Lib

/-! ## Files -/

/-- The largest size of a file: the largest `off_t`. -/
def maxFileSize : Nat := 2 ^ 63 - 1

namespace Cfile

def write (file data : Bytes) : Result Bytes :=
  if file.length + data.length ≤ maxFileSize then .ok (file ++ data)
  else .error (.stdException "cfile: unable to write")

def readNumber (file : Bytes) (pos n : Nat) : Result Nat :=
  if pos + n ≤ file.length then .ok (leValue ((file.drop pos).take n))
  else .error (.stdException "cfile: unable to read")

/-- `cfile::seek_end( -sizeof(uint64_t) )` and `cfile::read` of a `uint64_t`. -/
def readLast (file : Bytes) : Result Nat :=
  if 8 ≤ file.length then readNumber file (file.length - 8) 8
  else .error (.stdException "cfile: unable to seek")

/-- `fseek` and `fwrite` in a file open for writing: a gap before the bytes is filled with zeros. -/
def writeAt (file : Bytes) (pos : Nat) (data : Bytes) : Bytes :=
  file.take pos ++ List.replicate (pos - file.length) 0 ++ data ++ file.drop (pos + data.length)

end Cfile

/-- `a - b` on `uint64_t`. -/
def u64Sub (a b : Nat) : Nat :=
  if b ≤ a then a - b else 2 ^ 64 + a - b

/-- What the block log takes from `fc::raw`: a block as bytes, and the block or the header that
the bytes from a position on begin with. Unpacking throws where they begin with none. -/
structure BlockCodec where
  pack : SignedBlock → Bytes
  unpack : Bytes → Option SignedBlock
  unpackHeader : Bytes → Option BlockHeader

/-- The bytes of the block are read back as the block, whatever follows them. -/
structure BlockCodec.Faithful (codec : BlockCodec) (b : SignedBlock) : Prop where
  unpack : ∀ rest, codec.unpack (codec.pack b ++ rest) = some b
  unpackHeader : ∀ rest, codec.unpackHeader (codec.pack b ++ rest) = some b.toBlockHeader

namespace BlockLog

def npos : Nat := 2 ^ 64 - 1

def minSupportedVersion : Nat := 1

def maxSupportedVersion : Nat := 3

def isSupportedVersion (version : Nat) : Prop :=
  max minSupportedVersion (min version maxSupportedVersion) = version

instance (version : Nat) : Decidable (isSupportedVersion version) :=
  inferInstanceAs (Decidable (_ = _))

/-! ## Reading the log backwards -/

def bufLen : Nat := 2 ^ 24

/-- `trim_data::blknum_offset`: where a packed block has the id of the previous block. -/
def blknumOffset : Nat := 14

def fread (file : Bytes) (pos n : Nat) (message : String) : Result Nat := do
  eosAssert (pos + n ≤ file.length) .blockLogException message
  .ok (leValue ((file.drop pos).take n))

/-- `reverse_iterator`, with the bytes of the file that it has last read into its buffer. -/
structure ReverseIterator where
  version : Nat
  firstBlockNum : Nat
  lastBlockNum : Nat := 0
  blocksFound : Nat := 0
  blocksExpected : Nat := 0
  currentPositionInFile : Nat
  startOfBufferPosition : Nat := 0
  buffer : Bytes := []
deriving DecidableEq, Repr

namespace ReverseIterator

variable (blockFile : Bytes)

section

variable (it : ReverseIterator)

def updateBuffer : Result ReverseIterator := do
  eosAssert (it.currentPositionInFile ≠ npos) .blockLogException
    "Block log file not setup properly"
  let endOfBufferPosition := (it.currentPositionInFile + 8) % 2 ^ 64
  let startOfBufferPosition :=
    if endOfBufferPosition < bufLen then 0 else endOfBufferPosition - bufLen
  eosAssert (endOfBufferPosition ≤ blockFile.length) .blockLogException "blocks.log read fails"
  .ok { it with
    startOfBufferPosition
    buffer := (blockFile.drop startOfBufferPosition).take
      (endOfBufferPosition - startOfBufferPosition) }

/-- `n` bytes of the buffer. Past those last read it holds older ones, and then it ends. -/
def inBuffer (offset n : Nat) : Result Bytes :=
  if offset + n ≤ it.buffer.length then .ok ((it.buffer.drop offset).take n)
  else .error .undefinedBehaviour

/-- The number of the first block, as `reverse_iterator::open` reads it. -/
def freadFirstBlockNum (version : Nat) : Result Nat :=
  if version = 1 then .ok 1
  else fread blockFile 4 4
    "Block log file at '${blocks_log}' not formatted consistently with version ${v}."

def previousNum (blockPos : Nat) : Result Bytes :=
  if it.startOfBufferPosition ≤ blockPos then
    it.inBuffer ((blockPos - it.startOfBufferPosition) % 2 ^ 32 + blknumOffset) 4
  else do
    eosAssert (blockPos + blknumOffset + 4 ≤ blockFile.length) .blockLogException
      "Could not read in '${blocks_log}' at position: ${pos}"
    .ok ((blockFile.drop (blockPos + blknumOffset)).take 4)

def countTo (lastBlockNum : Nat) : ReverseIterator :=
  { it with
    lastBlockNum
    blocksExpected := (u32Sub lastBlockNum it.firstBlockNum + 1) % 2 ^ 32 }

end

def «open» : Result ReverseIterator := do
  let version ← fread blockFile 0 4 "Block log file at '${blocks_log}' could not be read."
  eosAssert (isSupportedVersion version) .blockLogUnsupportedVersion
    "block log version ${v} is not supported"
  let firstBlockNum ← freadFirstBlockNum blockFile version
  eosAssert (0 < blockFile.length) .blockLogException
    "Block log file at '${blocks_log}' could not be read."
  let it ← updateBuffer blockFile
    { version, firstBlockNum, currentPositionInFile := u64Sub blockFile.length 8 }
  let blockPos ← it.inBuffer (it.currentPositionInFile - it.startOfBufferPosition) 8
  if leValue blockPos = npos then .ok it
  else do
    let bnum ← it.previousNum blockFile (leValue blockPos)
    .ok (it.countTo ((leValue bnum.reverse + 1) % 2 ^ 32))

def toCurrent (it : ReverseIterator) : Result ReverseIterator :=
  if it.currentPositionInFile < it.startOfBufferPosition then it.updateBuffer blockFile
  else .ok it

def previous (it : ReverseIterator) : Result (Nat × ReverseIterator) := do
  eosAssert (it.currentPositionInFile ≠ npos) .blockLogException
    ("Block log file at '${blocks_log}' first block already returned by former call to " ++
      "previous(), it is no longer valid to call this function.")
  if it.version = 1 ∧ it.blocksFound = it.blocksExpected then
    .ok (npos, { it with currentPositionInFile := npos })
  else do
    let it ← it.toCurrent blockFile
    let location ← it.inBuffer (it.currentPositionInFile - it.startOfBufferPosition) 8
    let blocksFound := (it.blocksFound + 1) % 2 ^ 32
    if leValue location = npos then do
      eosAssert (blocksFound ≠ it.blocksExpected) .blockLogException
        ("Block log file at '${blocks_log}' formatting indicated last block: " ++
          "${last_block_num}, first block: ${first_block_num}, but found ${num} blocks")
      .ok (npos, { it with currentPositionInFile := npos, blocksFound })
    else do
      let currentPositionInFile := u64Sub (leValue location) 8
      eosAssert (currentPositionInFile < it.currentPositionInFile) .blockLogException
        ("Block log file at '${blocks_log}' formatting is incorrect, indicates position later " ++
          "location in file: ${pos}, which was retrieved at: ${orig_pos}.")
      .ok (leValue location, { it with currentPositionInFile, blocksFound })

end ReverseIterator

/-! ## Writing the index backwards -/

/-- The shift is one of 32 bits. -/
def bufferLocationToFileLocation (bufferLocation : Nat) : Nat :=
  bufferLocation % 2 ^ 32 * 8 % 2 ^ 32

def fileLocationToBufferLocation (fileLocation : Nat) : Nat := fileLocation % 2 ^ 32 / 8

def maxBufferLength : Nat := fileLocationToBufferLocation (2 ^ 22)

/-- `index_writer`; positions are counted in entries. The file is opened by the first write. -/
structure IndexWriter where
  blocksExpected : Nat
  file : Option Bytes := none
  buffer : List Nat := List.replicate maxBufferLength 0
  currentPosition : Int := 0
  startOfBufferPosition : Int := 0
  endOfBufferPosition : Int := 0

namespace IndexWriter

variable (w : IndexWriter)

def updateBufferPosition : IndexWriter :=
  let endOfBufferPosition := w.currentPosition + 1
  { w with
    endOfBufferPosition
    startOfBufferPosition :=
      if endOfBufferPosition < maxBufferLength then 0 else endOfBufferPosition - maxBufferLength }

/-- The entries of the buffer written to the file, if the next one comes before them. Of no bytes
`fwrite` writes no item. -/
def shiftBuffer : Result (Bool × IndexWriter) :=
  if w.startOfBufferPosition ≤ w.currentPosition then .ok (false, w)
  else do
    let fileLocationStart := bufferLocationToFileLocation w.startOfBufferPosition.toNat
    let fileSize := bufferLocationToFileLocation
      (w.endOfBufferPosition - w.startOfBufferPosition).toNat
    eosAssert (fileSize ≠ 0) .blockLogException
      "Writing Block Index file '${file}' failed at location: ${loc}"
    let file := Cfile.writeAt (w.file.getD []) fileLocationStart
      ((w.buffer.flatMap (leBytes 8)).take fileSize)
    .ok (true, { w with file := some file }.updateBufferPosition)

/-- The file opened and the last entry found, in a 32 bit number. -/
def openFile : IndexWriter :=
  if w.file.isNone then
    let fullFileSize := bufferLocationToFileLocation w.blocksExpected
    let blockEnd := fileLocationToBufferLocation fullFileSize
    { w with file := some [], currentPosition := u32Sub blockEnd 1 }.updateBufferPosition
  else w

def prepareBuffer : Result IndexWriter := do
  let (_, w) ← w.openFile.shiftBuffer
  .ok w

def write (pos : Nat) : Result IndexWriter := do
  let w ← w.prepareBuffer
  let i := w.currentPosition - w.startOfBufferPosition
  if 0 ≤ i ∧ i < maxBufferLength then
    .ok { w with buffer := w.buffer.set i.toNat pos, currentPosition := w.currentPosition - 1 }
  else .error .undefinedBehaviour

def complete : Result IndexWriter := do
  let (shifted, w) ← w.shiftBuffer
  eosAssert (shifted = true) .blockLogException "Failed to write buffer to '${blocks_index}'"
  eosAssert (w.currentPosition = -1) .blockLogException
    ("Should have written buffer, starting at the 0 index block position, to " ++
      "'${blocks_index}' but instead writing ${pos} position")
  .ok w

end IndexWriter

/-- The loop of `construct_index`. -/
def writePositions (blockFile : Bytes) :
    (fuel : Nat) → ReverseIterator → IndexWriter → Result IndexWriter
  | 0, _, _ => .error .divergence
  | fuel + 1, it, index => do
    let (position, it) ← it.previous blockFile
    if position ≠ npos then do
      let index ← index.write position
      writePositions blockFile fuel it index
    else .ok index

def constructIndex (blockFile : Bytes) : Result Bytes := do
  let it ← ReverseIterator.open blockFile
  if it.blocksExpected = 0 then .ok []
  else do
    -- each position lies below the one before
    let index ← writePositions blockFile (blockFile.length + 1) it
      { blocksExpected := it.blocksExpected }
    let index ← index.complete
    .ok (index.file.getD [])

end BlockLog

/-! ## The log -/

/-- `block_log_impl`: the files and what it remembers of them. -/
structure BlockLogImpl where
  head : Option SignedBlock := none
  headId : BlockId := 0
  blockFile : Bytes := []
  indexFile : Bytes := []
  genesisWrittenToBlockLog : Bool := false
  version : Nat := 0
  firstBlockNum : Nat := 0
deriving DecidableEq

namespace BlockLog

def readBlock (codec : BlockCodec) (blockFile : Bytes) (pos : Nat) : Result SignedBlock :=
  match codec.unpack (blockFile.drop pos) with
  | some b => .ok b
  | none => .error (.stdException "unable to unpack a block")

def readBlockHeader (codec : BlockCodec) (blockFile : Bytes) (pos : Nat) : Result BlockHeader :=
  match codec.unpackHeader (blockFile.drop pos) with
  | some h => .ok h
  | none => .error (.stdException "unable to unpack a block header")

def readHead (codec : BlockCodec) (blockFile : Bytes) : Result (Option SignedBlock) :=
  if blockFile.length ≤ 8 then .ok none
  else do
    let pos ← Cfile.readLast blockFile
    if pos ≠ npos then do
      let b ← readBlock codec blockFile pos
      .ok (some b)
    else .ok none

def readFirstBlockNum (blockFile : Bytes) (version : Nat) : Result Nat :=
  if 1 < version then do
    let firstBlockNum ← Cfile.readNumber blockFile 4 4
    eosAssert (0 < firstBlockNum) .blockLogException
      ("Block log is malformed, first recorded block number is 0 but must be greater than or " ++
        "equal to 1")
    .ok firstBlockNum
  else .ok 1

/-- The index after `block_log::open` has compared its last position with that of the log. -/
def checkIndex (blockFile indexFile : Bytes) : Result Bytes :=
  if indexFile.length ≠ 0 then do
    let blockPos ← Cfile.readLast blockFile
    let indexPos ← Cfile.readLast indexFile
    if blockPos < indexPos then constructIndex blockFile
    else if indexPos < blockPos then constructIndex blockFile
    else .ok indexFile
  else constructIndex blockFile

/-- `block_log::open`, on the files that an earlier log has left. -/
def openLog (fc : Fc) (codec : BlockCodec) (blockFile indexFile : Bytes) : Result BlockLogImpl :=
  if blockFile.length ≠ 0 then do
    let version ← Cfile.readNumber blockFile 0 4
    eosAssert (0 < version) .blockLogException "Block log was not setup properly"
    eosAssert (isSupportedVersion version) .blockLogUnsupportedVersion
      ("Unsupported version of block log. Block log version is ${version} while code supports " ++
        "version(s) [${min},${max}]")
    let firstBlockNum ← readFirstBlockNum blockFile version
    let head ← readHead codec blockFile
    let indexFile ← checkIndex blockFile indexFile
    .ok { head, headId := (head.map (·.id fc)).getD 0, blockFile, indexFile,
          genesisWrittenToBlockLog := true, version, firstBlockNum }
  else .ok {}

end BlockLog

namespace BlockLogImpl

open BlockLog

variable (fc : Fc) (codec : BlockCodec)

def append (s : BlockLogImpl) (b : SignedBlock) : Result BlockLogImpl := do
  eosAssert (s.genesisWrittenToBlockLog = true) .blockLogAppendFail
    "Cannot append to block log until the genesis is first written"
  eosAssert (s.indexFile.length = 8 * u32Sub b.blockNum s.firstBlockNum) .blockLogAppendFail
    "Append to index file occuring at wrong position."
  let blockFile ← Cfile.write s.blockFile (codec.pack b)
  let blockFile ← Cfile.write blockFile (leBytes 8 s.blockFile.length)
  let indexFile ← Cfile.write s.indexFile (leBytes 8 s.blockFile.length)
  .ok { s with head := some b, headId := b.id fc, blockFile, indexFile }

/-- The header of a log whose version is not yet written, as `block_log_impl::reset` leaves it
before the first block. -/
def startLog (context : Bytes) (firstBlockNum : Nat) : Result BlockLogImpl := do
  let blockFile ← Cfile.write [] (leBytes 4 0)
  let blockFile ← Cfile.write blockFile (leBytes 4 firstBlockNum)
  let blockFile ← Cfile.write blockFile context
  let blockFile ← Cfile.write blockFile (leBytes 8 npos)
  .ok { blockFile, genesisWrittenToBlockLog := true, firstBlockNum }

def appendFirst (s : BlockLogImpl) :
    Option SignedBlock → Result BlockLogImpl
  | some b => s.append fc codec b
  | none => .ok { s with head := none, headId := 0 }

def writeVersion (s : BlockLogImpl) : BlockLogImpl :=
  { s with
    version := maxSupportedVersion
    blockFile := leBytes 4 maxSupportedVersion ++ s.blockFile.drop 4 }

def reset (context : Bytes) (firstBlock : Option SignedBlock)
    (firstBnum : Nat) : Result BlockLogImpl := do
  let s ← startLog context firstBnum
  let s ← s.appendFirst fc codec firstBlock
  .ok s.writeVersion

def resetGenesis (gs : Bytes) (firstBlock : Option SignedBlock) : Result BlockLogImpl :=
  reset fc codec gs firstBlock 1

def resetChainId (chainId : Bytes) (firstBlockNum : Nat) : Result BlockLogImpl := do
  eosAssert (1 < firstBlockNum) .blockLogException
    ("Block log version ${ver} needs to be created with a genesis state if starting from block " ++
      "number 1.")
  reset fc codec chainId none firstBlockNum

variable (s : BlockLogImpl)

def getBlockPos (blockNum : Nat) : Result Nat :=
  if s.head.isSome ∧ blockNum ≤ numFromId s.headId ∧ s.firstBlockNum ≤ blockNum then
    Cfile.readNumber s.indexFile (8 * u32Sub blockNum s.firstBlockNum) 8
  else .ok npos

def readBlockByNum (blockNum : Nat) : Result (Option SignedBlock) := do
  let pos ← s.getBlockPos blockNum
  if pos ≠ npos then do
    let b ← readBlock codec s.blockFile pos
    eosAssert (b.blockNum = blockNum) .reversibleBlocksException
      "Wrong block was read from block log."
    .ok (some b)
  else .ok none

def readBlockIdByNum (blockNum : Nat) : Result BlockId := do
  let pos ← s.getBlockPos blockNum
  if pos ≠ npos then do
    let h ← readBlockHeader codec s.blockFile pos
    eosAssert (h.blockNum = blockNum) .reversibleBlocksException
      "Wrong block header was read from block log."
    .ok (h.id fc)
  else .ok 0

/-- The log destroyed and opened again on the files it leaves. -/
def reopen : Result BlockLogImpl :=
  openLog fc codec s.blockFile s.indexFile

end BlockLogImpl

end PotatoNode.Chain
