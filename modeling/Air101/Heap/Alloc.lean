import Air101.Storage.Words

/-!
# Heap.Alloc

`src/os/rtos/source/heap_4.c`: the allocator of the system, and `platform/common/mem/wm_mem2.c`,
through which the drivers and the network code call it.

The heap is the RAM between two symbols of the linker. A block begins with a `BlockLink_t`: the
address of the next free block and the size of this one, header included; the top bit of the size
says that the block belongs to the application. The free blocks hang on `xStart` in the order of
their addresses and end in `pxEnd`. All of this is read from and stored to the bytes of the RAM.

A call is `none` when it does not return: an assertion fails, or a walk over the list takes more
steps than the heap has bytes.
-/

namespace Air101
namespace Heap

open Storage

/-- `sizeof( BlockLink_t )` rounded up to `portBYTE_ALIGNMENT`. -/
def xHeapStructSize : Nat := 8

/-- Blocks must not get too small. -/
def heapMinimumBlockSize : Nat := xHeapStructSize <<< 1

/-- Where the linker puts the heap and the list head `xStart`. -/
structure Linker where
  heapStart : Nat
  heapEnd : Nat
  xStart : Nat
  /-- The heap is in RAM, which ends below the addresses that need the top bit. -/
  start_pos : 0 < heapStart
  room : heapStart + 23 ≤ heapEnd
  top : heapEnd ≤ 2 ^ 31
  /-- `xStart` is a variable of its own. -/
  head_word : xStart % 4 = 0
  head_apart : xStart + 8 ≤ heapStart ∨ heapEnd ≤ xStart

/-- The RAM and the variables of the allocator; a pointer that is `NULL` is 0. -/
structure State where
  ram : Nat → Byte
  pxEnd : Nat
  xFreeBytesRemaining : Nat
  xMinimumEverFreeBytesRemaining : Nat
  xNumberOfSuccessfulAllocations : Nat
  xNumberOfSuccessfulFrees : Nat
  xBlockAllocatedBit : Nat
  xTotalHeapSize : Nat

/-- The variables before the first call; the RAM holds anything. -/
def State.reset (ram : Nat → Byte) : State where
  ram := ram
  pxEnd := 0
  xFreeBytesRemaining := 0
  xMinimumEverFreeBytesRemaining := 0
  xNumberOfSuccessfulAllocations := 0
  xNumberOfSuccessfulFrees := 0
  xBlockAllocatedBit := 0
  xTotalHeapSize := 12 * 1024

/-- `p->pxNextFreeBlock` -/
def pxNextFreeBlock (ram : Nat → Byte) (p : Nat) : Nat := ldw ram p

/-- `p->xBlockSize` -/
def xBlockSize (ram : Nat → Byte) (p : Nat) : Nat := ldw ram (p + 4)

/-- `p->pxNextFreeBlock = v` -/
def setNext (ram : Nat → Byte) (p v : Nat) : Nat → Byte := stw ram p v

/-- `p->xBlockSize = v` -/
def setSize (ram : Nat → Byte) (p v : Nat) : Nat → Byte := stw ram (p + 4) v

/-- The heap's first address rounded up to the alignment. -/
def Linker.pucAlignedHeap (L : Linker) : Nat :=
  if L.heapStart % 8 ≠ 0 then (L.heapStart + 7) / 8 * 8 else L.heapStart

/-- `xTotalHeapSize` as `prvHeapInit` computes it. -/
def Linker.totalHeapSize (L : Linker) : Nat :=
  if L.heapStart % 8 ≠ 0 then L.heapEnd - L.heapStart - (L.pucAlignedHeap - L.heapStart)
  else L.heapEnd - L.heapStart

/-- The address of the end marker. -/
def Linker.endMarker (L : Linker) : Nat :=
  (L.pucAlignedHeap + L.totalHeapSize - xHeapStructSize) / 8 * 8

def prvHeapInit (L : Linker) (s : State) : State :=
  let pxFirstFreeBlock := L.pucAlignedHeap
  let pxEnd := L.endMarker
  let ram := setNext s.ram L.xStart pxFirstFreeBlock
  let ram := setSize ram L.xStart 0
  let ram := setSize ram pxEnd 0
  let ram := setNext ram pxEnd 0
  let ram := setSize ram pxFirstFreeBlock (pxEnd - pxFirstFreeBlock)
  let ram := setNext ram pxFirstFreeBlock pxEnd
  { s with
    ram
    pxEnd
    xMinimumEverFreeBytesRemaining := xBlockSize ram pxFirstFreeBlock
    xFreeBytesRemaining := xBlockSize ram pxFirstFreeBlock
    xBlockAllocatedBit := 1 <<< 31
    xTotalHeapSize := L.totalHeapSize }

/-- The loop of `prvInsertBlockIntoFreeList`: the last block in front of the one inserted. -/
def insertionPoint (ram : Nat → Byte) (pxBlockToInsert : Nat) : Nat → Nat → Option Nat
  | 0, _ => none
  | fuel + 1, pxIterator =>
    if pxNextFreeBlock ram pxIterator < pxBlockToInsert then
      insertionPoint ram pxBlockToInsert fuel (pxNextFreeBlock ram pxIterator)
    else some pxIterator

/-- The second half of `prvInsertBlockIntoFreeList`: the block takes in the one behind it if it ends
where that one begins. -/
def joinNext (ram : Nat → Byte) (pxEnd block next : Nat) : Nat → Byte :=
  if block + xBlockSize ram block = next then
    if next ≠ pxEnd then
      let ram := setSize ram block (xBlockSize ram block + xBlockSize ram next)
      setNext ram block (pxNextFreeBlock ram next)
    else setNext ram block pxEnd
  else setNext ram block next

/-- The stores of `prvInsertBlockIntoFreeList` once the place is found. -/
def insertAt (ram : Nat → Byte) (pxEnd pxIterator pxBlockToInsert : Nat) : Nat → Byte :=
  -- the block in front takes this one in if it ends where this one begins
  let touches := pxIterator + xBlockSize ram pxIterator = pxBlockToInsert
  let ram := if touches then
      setSize ram pxIterator (xBlockSize ram pxIterator + xBlockSize ram pxBlockToInsert)
    else ram
  let block := if touches then pxIterator else pxBlockToInsert
  let ram := joinNext ram pxEnd block (pxNextFreeBlock ram pxIterator)
  if pxIterator ≠ block then setNext ram pxIterator block else ram

def prvInsertBlockIntoFreeList (L : Linker) (s : State) (pxBlockToInsert : Nat) : Option State := do
  let pxIterator ← insertionPoint s.ram pxBlockToInsert L.heapEnd L.xStart
  return { s with ram := insertAt s.ram s.pxEnd pxIterator pxBlockToInsert }

/-- The wanted size with its header, rounded up to the alignment. -/
def adjustedSize (xWantedSize : Nat) : Nat :=
  if 0 < xWantedSize then
    let size := xWantedSize + xHeapStructSize
    if size % 8 ≠ 0 then size + (8 - size % 8) else size
  else 0

/-- The walk of `pvPortMalloc`: the first block that is large enough, or the last one, with the
block in front of it. -/
def firstFit (ram : Nat → Byte) (wanted : Nat) : Nat → Nat → Nat → Option (Nat × Nat)
  | 0, _, _ => none
  | fuel + 1, pxPreviousBlock, pxBlock =>
    if xBlockSize ram pxBlock < wanted ∧ pxNextFreeBlock ram pxBlock ≠ 0 then
      firstFit ram wanted fuel pxBlock (pxNextFreeBlock ram pxBlock)
    else some (pxPreviousBlock, pxBlock)

/-- `pvPortMalloc` on a block larger than wanted: what is left of it goes back into the list. -/
def splitBlock (L : Linker) (s : State) (wanted pxBlock : Nat) : Option State :=
  if xBlockSize s.ram pxBlock - wanted > heapMinimumBlockSize then do
    let pxNewBlockLink := pxBlock + wanted
    guard (pxNewBlockLink % 8 = 0)
    let ram := setSize s.ram pxNewBlockLink (xBlockSize s.ram pxBlock - wanted)
    let ram := setSize ram pxBlock wanted
    prvInsertBlockIntoFreeList L { s with ram } pxNewBlockLink
  else some s

/-- The end of `pvPortMalloc`: the counters, and the mark of the block. -/
def handOut (s : State) (pxBlock : Nat) : State :=
  let free := s.xFreeBytesRemaining - xBlockSize s.ram pxBlock
  let ram := setSize s.ram pxBlock (xBlockSize s.ram pxBlock ||| s.xBlockAllocatedBit)
  { s with
    ram := setNext ram pxBlock 0
    xFreeBytesRemaining := free
    xMinimumEverFreeBytesRemaining :=
      if free < s.xMinimumEverFreeBytesRemaining then free else s.xMinimumEverFreeBytesRemaining
    xNumberOfSuccessfulAllocations := (s.xNumberOfSuccessfulAllocations + 1) % 2 ^ 32 }

/-- `pvPortMalloc` once a block is found: it is taken out of the list and cut if it is too large. -/
def takeBlock (L : Linker) (s : State) (wanted pxPreviousBlock pxBlock : Nat) :
    Option (Nat × State) := do
  let pvReturn := pxNextFreeBlock s.ram pxPreviousBlock + xHeapStructSize
  let s := { s with ram := setNext s.ram pxPreviousBlock (pxNextFreeBlock s.ram pxBlock) }
  let s ← splitBlock L s wanted pxBlock
  return (pvReturn, handOut s pxBlock)

def pvPortMalloc (L : Linker) (s : State) (xWantedSize : Nat) : Option (Nat × State) := do
  let s := if s.pxEnd = 0 then prvHeapInit L s else s
  let (pvReturn, s) ←
    if xWantedSize &&& s.xBlockAllocatedBit = 0 then
      let wanted := adjustedSize xWantedSize
      if 0 < wanted ∧ wanted ≤ s.xFreeBytesRemaining then do
        let (pxPreviousBlock, pxBlock) ←
          firstFit s.ram wanted L.heapEnd L.xStart (pxNextFreeBlock s.ram L.xStart)
        if pxBlock ≠ s.pxEnd then takeBlock L s wanted pxPreviousBlock pxBlock else some (0, s)
      else some (0, s)
    else some (0, s)
  guard (pvReturn % 8 = 0)
  return (pvReturn, s)

def vPortFree (L : Linker) (s : State) (pv : Nat) : Option State := do
  if pv ≠ 0 then
    let pxLink := pv - xHeapStructSize
    if xBlockSize s.ram pxLink &&& s.xBlockAllocatedBit = 0 then
      return s
    guard (pxNextFreeBlock s.ram pxLink = 0)
    let size := xBlockSize s.ram pxLink &&& (2 ^ 32 - 1 - s.xBlockAllocatedBit)
    let s := { s with
      ram := setSize s.ram pxLink size
      xFreeBytesRemaining := s.xFreeBytesRemaining + size }
    let s ← prvInsertBlockIntoFreeList L s pxLink
    return { s with xNumberOfSuccessfulFrees := (s.xNumberOfSuccessfulFrees + 1) % 2 ^ 32 }
  else return s

def pvPortRealloc (L : Linker) (s : State) (pv xWantedSize : Nat) : Option (Nat × State) := do
  if xWantedSize > 0 then
    if pv ≠ 0 then
      let pxLink := pv - xHeapStructSize
      if xBlockSize s.ram pxLink &&& s.xBlockAllocatedBit ≠ 0 then
        let blockSize :=
          (xBlockSize s.ram pxLink &&& (2 ^ 32 - 1 - s.xBlockAllocatedBit)) - xHeapStructSize
        let (pvReturn, s) ← pvPortMalloc L s xWantedSize
        if pvReturn ≠ 0 then
          let moveSize := if blockSize < xWantedSize then blockSize else xWantedSize
          let s := { s with ram := overlay s.ram pvReturn (slice s.ram pv moveSize) }
          let s ← vPortFree L s pv
          return (pvReturn, s)
        else return (pvReturn, s)
      else pvPortMalloc L s xWantedSize
    else pvPortMalloc L s xWantedSize
  else return (0, s)

/-! ## vPortGetHeapStats -/

structure HeapStats where
  xAvailableHeapSpaceInBytes : Nat
  xSizeOfLargestFreeBlockInBytes : Nat
  xSizeOfSmallestFreeBlockInBytes : Nat
  xNumberOfFreeBlocks : Nat
  xMinimumEverFreeBytesRemaining : Nat
  xNumberOfSuccessfulAllocations : Nat
  xNumberOfSuccessfulFrees : Nat
  deriving DecidableEq, Repr

/-- The walk of `vPortGetHeapStats`: the number of blocks with the largest and the smallest size. It
looks for the end only behind a block, and there is nothing to read at `NULL`. -/
def statsWalk (ram : Nat → Byte) (pxEnd : Nat) : Nat → Nat → Nat × Nat × Nat → Option (Nat × Nat × Nat)
  | 0, _, _ => none
  | fuel + 1, pxBlock, (xBlocks, xMaxSize, xMinSize) =>
    if pxBlock = 0 then none
    else
      let size := xBlockSize ram pxBlock
      let acc := (xBlocks + 1, if size > xMaxSize then size else xMaxSize,
        if size < xMinSize then size else xMinSize)
      if pxNextFreeBlock ram pxBlock ≠ pxEnd then
        statsWalk ram pxEnd fuel (pxNextFreeBlock ram pxBlock) acc
      else some acc

def vPortGetHeapStats (L : Linker) (s : State) : Option HeapStats := do
  let pxBlock := pxNextFreeBlock s.ram L.xStart
  let (xBlocks, xMaxSize, xMinSize) ←
    if pxBlock ≠ 0 then statsWalk s.ram s.pxEnd L.heapEnd pxBlock (0, 0, 2 ^ 32 - 1)
    else some (0, 0, 2 ^ 32 - 1)
  return {
    xAvailableHeapSpaceInBytes := s.xFreeBytesRemaining
    xSizeOfLargestFreeBlockInBytes := xMaxSize
    xSizeOfSmallestFreeBlockInBytes := xMinSize
    xNumberOfFreeBlocks := xBlocks
    xMinimumEverFreeBytesRemaining := s.xMinimumEverFreeBytesRemaining
    xNumberOfSuccessfulAllocations := s.xNumberOfSuccessfulAllocations
    xNumberOfSuccessfulFrees := s.xNumberOfSuccessfulFrees }

/-! ## wm_mem2.c -/

def memAllocDebug (L : Linker) (s : State) (size : Nat) : Option (Nat × State) := do
  let (ptr, s) ← pvPortMalloc L s size
  if ptr ≠ 0 then
    return (ptr, { s with ram := overlay s.ram ptr (List.replicate size 0#8) })
  else return (ptr, s)

def memFreeDebug (L : Linker) (s : State) (ptr : Nat) : Option State :=
  if ptr ≠ 0 then vPortFree L s ptr else some s

def memReallocDebug (L : Linker) (s : State) (memAddress size : Nat) : Option (Nat × State) :=
  pvPortRealloc L s memAddress size

/-- `length * size` is computed in 32 bits. -/
def memCallocDebug (L : Linker) (s : State) (length size : Nat) : Option (Nat × State) := do
  let (ptr, s) ← pvPortMalloc L s (length * size % 2 ^ 32)
  if ptr ≠ 0 then
    return (ptr, { s with ram := overlay s.ram ptr (List.replicate (length * size % 2 ^ 32) 0#8) })
  else return (ptr, s)

end Heap
end Air101
