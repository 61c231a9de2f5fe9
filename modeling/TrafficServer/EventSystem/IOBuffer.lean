/-
`MIOBuffer`, `IOBufferReader` and `IOBufferBlock` (`iocore/eventsystem/I_IOBuffer.h`, `P_IOBuffer.h`, `IOBuffer.cc`).

The blocks of all buffers live in one heap and are linked by `next`. A buffer has a write block and five slots for readers; a reader has a
block and an offset that may lie beyond the end of it. A block keeps the bytes from `_start` to `_end` and the room up to `_buf_end`; the
bytes that stand in the room become part of the block by `fill`. A loop `while (b) … b = b->next` is a recursion over the blocks that it
visits (`Heap.follow`). An assertion that fails and a null pointer that is followed are `none`.
-/
import Mathlib
import TrafficServer.Lib.LinkSeg

namespace TrafficServer.IOBuffer

abbrev Bytes := List UInt8

/-! ## Blocks -/

structure IOBufferBlock where
  /-- from `_start` to `_end` -/
  data : Bytes
  /-- `write_avail()`: from `_end` to `_buf_end` -/
  space : ℕ
  next : Option ℕ
deriving Inhabited

/-- `read_avail()`, and `size()` -/
def IOBufferBlock.readAvail (b : IOBufferBlock) : ℕ := b.data.length

/-- The blocks that have been allocated are those below `fresh`. -/
structure Heap where
  block : ℕ → IOBufferBlock
  fresh : ℕ

namespace Heap

def next (h : Heap) (i : ℕ) : Option ℕ := (h.block i).next

def set (h : Heap) (i : ℕ) (b : IOBufferBlock) : Heap := { h with block := Function.update h.block i b }

/-- `new_IOBufferBlock` -/
def alloc (h : Heap) (b : IOBufferBlock) : Heap := ⟨Function.update h.block h.fresh b, h.fresh + 1⟩

/-- `IOBufferBlock::fill`, with the bytes that stand behind `_end` -/
def fill (h : Heap) (i : ℕ) (bytes : Bytes) : Heap :=
  h.set i { h.block i with data := (h.block i).data ++ bytes, space := (h.block i).space - bytes.length }

def setNext (h : Heap) (i n : ℕ) : Heap := h.set i { h.block i with next := some n }

/-- the blocks from `o` on, along `next` -/
def follow (h : Heap) : ℕ → Option ℕ → List ℕ
  | 0, _ => []
  | _, none => []
  | k + 1, some i => i :: h.follow k (h.next i)

/-- all of them: no more than there are in the heap -/
def chain (h : Heap) (o : Option ℕ) : List ℕ := h.follow h.fresh o

def chainBlocks (h : Heap) (o : Option ℕ) : List IOBufferBlock := (h.chain o).map h.block

end Heap

/-! ## Readers -/

/-- `IOBufferReader`, with `size_limit` at `INT64_MAX` -/
structure IOBufferReader where
  block : Option ℕ
  startOffset : ℕ
deriving DecidableEq

namespace IOBufferReader

/-- `skip_empty_blocks` from the block `b` with the offset `s`; `l` are the blocks behind it -/
def skipLoop (h : Heap) (b s : ℕ) : List ℕ → IOBufferReader
  | [] => ⟨some b, s⟩
  | c :: l => if (h.block c).readAvail ≠ 0 ∧ (h.block b).readAvail ≤ s then skipLoop h c (s - (h.block b).readAvail) l else ⟨some b, s⟩

def skipEmptyBlocks (h : Heap) (r : IOBufferReader) : IOBufferReader :=
  match r.block with
  | none => r
  | some b => skipLoop h b r.startOffset (h.chain (h.next b))

/-- `consume`; its loop goes on under the condition of `skip_empty_blocks` -/
def consume (h : Heap) (r : IOBufferReader) (n : ℕ) : IOBufferReader := skipEmptyBlocks h { r with startOffset := r.startOffset + n }

/-- `block_read_avail` of a reader whose empty blocks have been skipped -/
def blockReadAvail (h : Heap) (r : IOBufferReader) : ℤ :=
  match r.block with
  | none => 0
  | some b => (h.block b).readAvail - r.startOffset

/-- `read_avail` -/
def readAvail (h : Heap) (r : IOBufferReader) : ℤ :=
  ((h.chainBlocks r.block).map fun b => (b.readAvail : ℤ)).sum - r.startOffset

/-- the loop of `is_read_avail_more_than` -/
def moreLoop (size : ℤ) : List IOBufferBlock → ℤ → Bool
  | [], _ => false
  | b :: l, t => if t + b.readAvail > size then true else moreLoop size l (t + b.readAvail)

def isReadAvailMoreThan (h : Heap) (r : IOBufferReader) (size : ℤ) : Bool := moreLoop size (h.chainBlocks r.block) (-r.startOffset)

/-- the loop of `operator[]`; `none` is the assertion at its end -/
def indexLoop : List IOBufferBlock → ℕ → Option UInt8
  | [], _ => none
  | b :: l, i => if i < b.readAvail then b.data[i]? else indexLoop l (i - b.readAvail)

def index (h : Heap) (r : IOBufferReader) (i : ℕ) : Option UInt8 := indexLoop (h.chainBlocks r.block) (i + r.startOffset)

/-- the number of bytes of a block behind the offset that a `len` allows; a negative `len` allows all -/
def bytesOf (len : ℤ) (maxBytes : ℕ) : ℕ := if len < 0 ∨ len ≥ maxBytes then maxBytes else len.toNat

/-- the loop of `memcpy`: what is written to the memory of the caller -/
def memcpyLoop : List IOBufferBlock → ℤ → ℕ → Bytes
  | [], _, _ => []
  | b :: l, len, offset =>
    if len = 0 then []
    else if b.readAvail ≤ offset then memcpyLoop l len (offset - b.readAvail)
    else
      let bytes := bytesOf len (b.readAvail - offset)
      (b.data.drop offset).take bytes ++ memcpyLoop l (len - bytes) 0

def memcpy (h : Heap) (r : IOBufferReader) (len : ℤ) (offset : ℕ) : Bytes :=
  memcpyLoop (h.chainBlocks r.block) len (offset + r.startOffset)

/-- the loop of `memchr` -/
def memchrLoop (c : UInt8) (startOffset : ℕ) : List IOBufferBlock → ℤ → ℕ → ℕ → ℤ
  | [], _, _, _ => -1
  | b :: l, len, offset, o =>
    if len = 0 then -1
    else if b.readAvail ≤ offset then memchrLoop c startOffset l len (offset - b.readAvail) o
    else
      let bytes := bytesOf len (b.readAvail - offset)
      match ((b.data.drop offset).take bytes).idxOf? c with
      | some p => (o : ℤ) - startOffset + p
      | none => memchrLoop c startOffset l (len - bytes) 0 (o + bytes)

def memchr (h : Heap) (r : IOBufferReader) (c : UInt8) (len : ℤ) (offset : ℕ) : ℤ :=
  memchrLoop c r.startOffset (h.chainBlocks r.block) len (offset + r.startOffset) (offset + r.startOffset)

/-- the loop of `read`; every round reads a byte at least -/
def readLoop (h : Heap) : ℕ → IOBufferReader → ℕ → Bytes × IOBufferReader
  | 0, r, _ => ([], r)
  | fuel + 1, r, n =>
    let r := skipEmptyBlocks h r
    let l := blockReadAvail h r
    if n = 0 ∨ l = 0 then ([], r)
    else
      let l := if n < l then n else l.toNat
      let bytes := r.block.elim [] fun b => ((h.block b).data.drop r.startOffset).take l
      let (rest, r) := readLoop h fuel (consume h r l) (n - l)
      (bytes ++ rest, r)

def read (h : Heap) (r : IOBufferReader) (len : ℕ) : Bytes × IOBufferReader := readLoop h (len + 1) r len

end IOBufferReader

/-! ## Buffers -/

def MAX_MIOBUFFER_READERS : ℕ := 5

def DEFAULT_BUFFER_SIZES : ℤ := 15

/-- `BUFFER_SIZE_ALLOCATED`: an index of a size that is allocated fast, or a negative size -/
def bufferSizeAllocated (i : ℤ) : Bool := i < DEFAULT_BUFFER_SIZES

/-- `index_to_buffer_size` -/
def indexToBufferSize (i : ℤ) : ℕ :=
  if i < 0 then (-i).toNat else if i < DEFAULT_BUFFER_SIZES then 128 * 2 ^ i.toNat else (i - DEFAULT_BUFFER_SIZES).toNat

structure MIOBuffer where
  sizeIndex : ℤ
  writer : Option ℕ
  /-- a slot that is not allocated is `none` -/
  readers : Fin MAX_MIOBUFFER_READERS → Option IOBufferReader

namespace MIOBuffer

/-- `new_empty_MIOBuffer` -/
def empty (sizeIndex : ℤ) : MIOBuffer := ⟨sizeIndex, none, fun _ => none⟩

/-- `init_readers` -/
def initReaders (b : MIOBuffer) : MIOBuffer :=
  { b with readers := fun s => (b.readers s).map fun r => if r.block.isNone then { r with block := b.writer } else r }

/-- the blocks with data from the new block on; the last of them becomes the write block -/
def writerLoop (h : Heap) (w : ℕ) : List ℕ → ℕ
  | [] => w
  | i :: l => if (h.block i).readAvail ≠ 0 then writerLoop h i l else w

/-- the write block moves on while it is full and the next one has data -/
def advanceLoop (h : Heap) (w : ℕ) : List ℕ → ℕ
  | [] => w
  | i :: l => if (h.block w).space = 0 ∧ (h.block i).readAvail ≠ 0 then advanceLoop h i l else w

/-- `append_block_internal` -/
def appendBlockInternal (h : Heap) (b : MIOBuffer) (i : ℕ) : Option (Heap × MIOBuffer) :=
  match b.writer with
  | none =>
    let b := { b with writer := some i }.initReaders
    some (h, { b with writer := some (advanceLoop h i (h.chain (h.next i))) })
  | some w =>
    if (h.next w).all fun n => (h.block n).readAvail = 0 then
      let h := h.setNext w i
      let w := writerLoop h w (h.chain (some i))
      some (h, { b with writer := some (advanceLoop h w (h.chain (h.next w))) })
    else none

/-- `append_block` of a block that is not linked to others -/
def appendBlock (h : Heap) (b : MIOBuffer) (data : Bytes) (space : ℕ) : Option (Heap × MIOBuffer) :=
  if data = [] then none else appendBlockInternal (h.alloc ⟨data, space, none⟩) b h.fresh

/-- `append_block` of a fresh block -/
def appendFresh (h : Heap) (b : MIOBuffer) (sizeIndex : ℤ) : Option (Heap × MIOBuffer) :=
  if bufferSizeAllocated sizeIndex then appendBlockInternal (h.alloc ⟨[], indexToBufferSize sizeIndex, none⟩) b h.fresh else none

def addBlock (h : Heap) (b : MIOBuffer) : Option (Heap × MIOBuffer) := appendFresh h b b.sizeIndex

/-- the loop of `write`; a round without a byte is followed by a new block or a move -/
def writeLoop : ℕ → Heap → MIOBuffer → Bytes → Option (Heap × MIOBuffer)
  | 0, _, _, _ => none
  | fuel + 1, h, b, buf =>
    if buf = [] then some (h, b)
    else do
      let (h, b) ← if b.writer.isNone then addBlock h b else some (h, b)
      let w ← b.writer
      let f := min (h.block w).space buf.length
      let h := h.fill w (buf.take f)
      if buf.drop f = [] then writeLoop fuel h b (buf.drop f)
      else
        match h.next w with
        | none => do
          let (h, b) ← addBlock h b
          writeLoop fuel h b (buf.drop f)
        | some n => writeLoop fuel h { b with writer := some n } (buf.drop f)

/-- `write` of bytes -/
def write (h : Heap) (b : MIOBuffer) (buf : Bytes) : Option (Heap × MIOBuffer) := writeLoop (2 * buf.length + 3) h b buf

/-- the loop of `write` from a reader: the blocks from `o` on are cloned, as long as `len` bytes are wanted -/
def writeReaderLoop : ℕ → Heap → MIOBuffer → Option ℕ → ℕ → ℕ → Option (Heap × MIOBuffer × ℕ)
  | 0, _, _, _, _, _ => none
  | fuel + 1, h, b, o, len, offset =>
    match o with
    | none => some (h, b, len)
    | some i =>
      if len = 0 then some (h, b, len)
      else if (h.block i).readAvail ≤ offset then writeReaderLoop fuel h b (h.next i) len (offset - (h.block i).readAvail)
      else do
        let bytes := min len ((h.block i).readAvail - offset)
        -- the clone ends where its bytes end
        let (h, b) ← appendBlock h b (((h.block i).data.drop offset).take bytes) 0
        writeReaderLoop fuel h b (h.next i) (len - bytes) 0

/-- `write` from a reader; the number of bytes written -/
def writeReader (h : Heap) (b : MIOBuffer) (r : IOBufferReader) (alen offset : ℕ) : Option (Heap × MIOBuffer × ℕ) :=
  (writeReaderLoop (h.fresh + 1) h b r.block alen (offset + r.startOffset)).map fun (h, b, len) => (h, b, alen - len)

/-- the loop of `fill` -/
def fillLoop : ℕ → Heap → MIOBuffer → Bytes → Option (Heap × MIOBuffer)
  | 0, _, _, _ => none
  | fuel + 1, h, b, buf => do
    let w ← b.writer
    let f := (h.block w).space
    if f < buf.length then
      let h := h.fill w (buf.take f)
      let n ← h.next w
      fillLoop fuel h { b with writer := some n } (buf.drop f)
    else some (h.fill w buf, b)

/-- `fill`, with the bytes that stand in the room -/
def fill (h : Heap) (b : MIOBuffer) (buf : Bytes) : Option (Heap × MIOBuffer) := fillLoop (h.fresh + 1) h b buf

/-- `current_write_avail` -/
def currentWriteAvail (h : Heap) (b : MIOBuffer) : ℕ := ((h.chainBlocks b.writer).map IOBufferBlock.space).sum

/-- the first slot that is not allocated -/
def freeSlot (b : MIOBuffer) : Option (Fin MAX_MIOBUFFER_READERS) :=
  (List.finRange MAX_MIOBUFFER_READERS).find? fun s => (b.readers s).isNone

def setReader (b : MIOBuffer) (s : Fin MAX_MIOBUFFER_READERS) (r : IOBufferReader) : MIOBuffer :=
  { b with readers := Function.update b.readers s (some r) }

/-- `alloc_reader` -/
def allocReader (b : MIOBuffer) : Option MIOBuffer := b.freeSlot.map fun s => b.setReader s ⟨b.writer, 0⟩

/-- `clone_reader` -/
def cloneReader (b : MIOBuffer) (r : IOBufferReader) : Option MIOBuffer := b.freeSlot.map fun s => b.setReader s r

end MIOBuffer

end TrafficServer.IOBuffer
