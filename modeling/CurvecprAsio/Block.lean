import CurvecprAsio.Word
import CurvecprAsio.Lib.Ring
import CurvecprAsio.Lib.SearchTree

set_option autoImplicit false

namespace CurvecprAsio

/-- CURVECPR_BLOCK_STREAM, CURVECPR_BLOCK_EOF_SUCCESS, CURVECPR_BLOCK_EOF_FAILURE. -/
inductive BlockEof where
  | stream
  | eofSuccess
  | eofFailure
  deriving DecidableEq, Repr

/-- `curvecpr_block`. Only the first `data_len` bytes of its data array are
kept; `offset` and `data_len` are unsigned values of at most 64 bits. -/
structure Block where
  id : Nat := 0
  eof : BlockEof := .stream
  clock : Int := 0
  offset : Nat := 0
  data : List UInt8 := []
  offset_lt : offset < 2 ^ 64 := by decide
  data_lt : data.length < 2 ^ 64 := by decide
  deriving DecidableEq, Repr

namespace Block

/-- `curvecpr_bytes_zero` of a whole block. -/
def zero : Block := {}

def dataLen (block : Block) : Nat := block.data.length

/-- The expression `offset + data_len` of the source, in 64-bit arithmetic. -/
def endOffset (block : Block) : Nat := add64 block.offset block.dataLen

/-- `eof != CURVECPR_BLOCK_STREAM`. -/
def marked (block : Block) : Bool := block.eof ≠ .stream

/-- The test both range removals make:
`offset >= start && offset + data_len <= end`. -/
def inRange (block : Block) (start stop : Nat) : Bool :=
  start ≤ block.offset ∧ block.endOffset ≤ stop

/-- The block holds byte `value` of the stream at `position`. -/
def Carries (block : Block) (position : Nat) (value : UInt8) : Prop :=
  block.offset ≤ position ∧ block.data[position - block.offset]? = some value

/-- The positions of the stream that the block holds. -/
def Covers (block : Block) (position : Nat) : Prop :=
  block.offset ≤ position ∧ position < block.offset + block.dataLen

theorem dataLen_lt (block : Block) : block.dataLen < 2 ^ 64 := block.data_lt

theorem endOffset_le (block : Block) : block.endOffset ≤ block.offset + block.dataLen :=
  Nat.mod_le _ _

theorem endOffset_eq (block : Block) (fits : block.offset + block.dataLen < 2 ^ 64) :
    block.endOffset = block.offset + block.dataLen := add64_eq fits

/-- An end that wraps lies below the offset. -/
theorem endOffset_wraps (block : Block) (overflow : 2 ^ 64 ≤ block.offset + block.dataLen) :
    block.endOffset + 2 ^ 64 = block.offset + block.dataLen :=
  add64_wraps block.offset_lt block.dataLen_lt overflow

theorem inRange_iff (block : Block) (start stop : Nat) :
    block.inRange start stop = true ↔ start ≤ block.offset ∧ block.endOffset ≤ stop := by
  simp [inRange]

/-- A copy of a block differs from it in its id and clock at most. -/
structure Same (first second : Block) : Prop where
  offset : first.offset = second.offset
  data : first.data = second.data
  eof : first.eof = second.eof

theorem Same.refl (block : Block) : block.Same block := ⟨rfl, rfl, rfl⟩

theorem Same.trans {first second third : Block} (left : first.Same second)
    (right : second.Same third) : first.Same third :=
  ⟨left.offset.trans right.offset, left.data.trans right.data, left.eof.trans right.eof⟩

theorem Same.dataLen {first second : Block} (same : first.Same second) :
    first.dataLen = second.dataLen := congrArg List.length same.data

theorem Same.endOffset {first second : Block} (same : first.Same second) :
    first.endOffset = second.endOffset := by
  simp only [Block.endOffset, same.offset, same.dataLen]

theorem Same.marked {first second : Block} (same : first.Same second) :
    first.marked = second.marked := by
  simp only [Block.marked, same.eof]

theorem Same.covers {first second : Block} (same : first.Same second) {position : Nat}
    (covers : first.Covers position) : second.Covers position := by
  simpa only [Covers, same.offset, same.dataLen] using covers

end Block

/-- `curvecpr_block_status`; the two bits of its status byte are
RECVMARKQ_ELEMENT_DISTRIBUTED and RECVMARKQ_ELEMENT_ACKNOWLEDGED. -/
structure BlockStatus where
  block : Block
  distributed : Bool := false
  acknowledged : Bool := false
  deriving DecidableEq, Repr

/-- RECVMARKQ_ELEMENT_DONE. -/
def BlockStatus.done (element : BlockStatus) : Bool :=
  element.distributed && element.acknowledged

/-- The order of `recvmarkq_`. -/
def blockRangeCompare (a b : BlockStatus) : Bool :=
  if a.block.offset = b.block.offset then a.block.dataLen < b.block.dataLen
  else a.block.offset < b.block.offset

/-- A block allocated for `sendmarkq_`, with the pointer that identifies it. -/
structure SentBlock where
  pointer : Nat
  block : Block
  deriving DecidableEq, Repr

/-- The order of `sendmarkq_`. -/
def blockClockCompare (a b : SentBlock) : Bool := a.block.clock < b.block.clock

theorem blockClockCompare_eq_false (a b : SentBlock) :
    blockClockCompare a b = false ↔ b.block.clock ≤ a.block.clock := by
  simp [blockClockCompare]

theorem blockClockCompare_weakOrder : SearchTree.WeakOrder blockClockCompare where
  asymm first second before := by
    simp only [blockClockCompare, decide_eq_true_eq, decide_eq_false_iff_not] at *
    omega
  trans first second third left right := by
    simp only [blockClockCompare_eq_false] at *
    omega

theorem blockRangeCompare_weakOrder : SearchTree.WeakOrder blockRangeCompare where
  asymm first second before := by
    simp only [blockRangeCompare] at *
    grind
  trans first second third left right := by
    simp only [blockRangeCompare] at *
    grind

/-- The memory a read or a write is given: its size is a std::size_t. -/
structure Buffer where
  bytes : List UInt8
  fits : bytes.length < 2 ^ 64 := by decide
  deriving DecidableEq, Repr

namespace Buffer

def length (buffer : Buffer) : Nat := buffer.bytes.length

/-- `memcpy` into the buffer. -/
def overwrite (buffer : Buffer) (position : Nat) (items : List UInt8) : Buffer where
  bytes := Ring.overwrite buffer.bytes position items
  fits := by
    rw [Ring.length_overwrite]
    exact buffer.fits

@[simp] theorem length_overwrite (buffer : Buffer) (position : Nat) (items : List UInt8) :
    (buffer.overwrite position items).length = buffer.length :=
  Ring.length_overwrite _ _ _

theorem length_lt (buffer : Buffer) : buffer.length < 2 ^ 64 := buffer.fits

end Buffer

end CurvecprAsio
