import Rphp.Lib.BitLanes

namespace Rphp.Heap
set_option autoImplicit true

/-- Addresses and sizes, as 64-bit words. -/
abbrev Usize := BitVec 64

def smallPageSize : Usize := 1 <<< 16

def smallPageMask : Usize := ~~~(smallPageSize - 1)

def mediumPageSize : Usize := 1 <<< 20

def mediumPageMask : Usize := ~~~(mediumPageSize - 1)

def pageHeader : Usize := 128

def stackUnitShift : Nat := 16

def headerShift : Nat := 7

def headerSize : Usize := 1 <<< headerShift

def largeUnit : Usize := 1 <<< stackUnitShift

def largeBuckets : Usize := 64

def largeMax : Usize := largeBuckets * largeUnit - pageHeader

def stackIndexMask : Usize := (1 <<< 24) - 1

/-- The reserved address range and the offsets at which its parts begin. -/
structure Range where
  base : Usize
  half : Usize
  reserve : Usize
  largeStart : Usize
  smallStart : Usize
deriving DecidableEq, Repr

def nextMultipleOf (a b : Usize) : Usize := if a % b = 0 then a else a + (b - a % b)

/-- The parts of a mapping of `size` bytes at `raw`. -/
def Range.ofMapping (raw size : Usize) : Range :=
  let base := (raw + largeUnit - 1) &&& ~~~(largeUnit - 1)
  let reserve := (raw + size - base) &&& ~~~(largeUnit - 1)
  let half := (reserve / 2) &&& mediumPageMask
  let largeStart := half + ((reserve / 4) &&& ~~~(largeUnit - 1))
  let smallStart := nextMultipleOf ((largeStart >>> stackUnitShift) <<< headerShift) smallPageSize
  ⟨base, half, reserve, largeStart, smallStart⟩

/-- The regions that pages and blocks are carved from. -/
inductive Region where
  | small
  | medium
  | large
deriving DecidableEq, Repr

namespace Range

/-- The next address of each region that was never used, right after the reservation. -/
def cursor (r : Range) : Region → Usize
  | .small => r.base + r.smallStart
  | .medium => (r.base + r.half + mediumPageSize - 1) &&& mediumPageMask
  | .large => r.base + r.largeStart

def limit (r : Range) : Region → Usize
  | .small => r.base + r.half
  | .medium => r.base + r.largeStart
  | .large => r.base + r.reserve

def poolOffset (r : Range) (ptr : Usize) : Usize := ptr - r.base

def headerOf (r : Range) (page : Usize) : Usize :=
  r.base + ((page - r.base) >>> stackUnitShift) <<< headerShift

def smallHeader (base offset : Usize) : Usize :=
  base + (offset >>> stackUnitShift) <<< headerShift

def pageStartAt (r : Range) (ptr offset : Usize) : Usize :=
  ptr &&& (if offset < r.half then smallPageMask else mediumPageMask)

def pageHeaderAt (r : Range) (ptr offset : Usize) : Usize := r.headerOf (r.pageStartAt ptr offset)

def isLargeOffset (r : Range) (offset : Usize) : Bool := r.largeStart ≤ offset

/-- The header that freeing a block of the pool reaches: the fast path for small pages, the slow
path for medium pages and large blocks. -/
def freedHeader (r : Range) (ptr : Usize) : Option Usize :=
  let offset := r.poolOffset ptr
  if offset < r.half then some (smallHeader r.base offset)
  else if r.reserve ≤ offset then none
  else if r.isLargeOffset offset then some (ptr - pageHeader)
  else some (r.pageHeaderAt ptr offset)

/-- The index under which an entry of the reservation sits in a page stack. -/
def stackIndex (r : Range) (entry : Usize) : Usize := ((entry - r.base) >>> stackUnitShift) + 1

/-- The entry at an index of a page stack. -/
def stackEntry (r : Range) (index : Usize) : Usize := r.base + ((index - 1) <<< stackUnitShift)

end Range

/-- The sizes that are tried for the reservation, with the address of the first mapping granted. -/
def reserveFrom (mmap : Usize → Option Usize) (size : Usize) : Option (Usize × Usize) :=
  if _h : 256 <<< 20 ≤ size then
    match mmap size with
    | some raw => some (raw, size)
    | none => reserveFrom mmap (size / 2)
  else none
termination_by size.toNat
decreasing_by
  have hlt : (256 <<< 20 : Usize).toNat ≤ size.toNat := _h
  have hval : (256 <<< 20 : Usize).toNat = 268435456 := rfl
  rw [BitVec.toNat_udiv]
  exact Nat.div_lt_self (by omega) (by decide)

def reserveRange (mmap : Usize → Option Usize) : Option (Usize × Usize) :=
  reserveFrom mmap (64 <<< 30)

/-- A page or a large block, as carved from its region. -/
structure Page where
  region : Region
  start : Usize
  bytes : Usize
deriving DecidableEq, Repr

structure Pool where
  cursor : Region → Usize
  carved : List Page

def Pool.ofRange (r : Range) : Pool := ⟨r.cursor, []⟩

/-- What is asked of the reservation: a page of one of the classes, or a large block. -/
inductive Request where
  | small
  | medium
  | large (size : Usize)
deriving DecidableEq, Repr

def largeUnits (size : Usize) : Usize := (size + pageHeader + (largeUnit - 1)) / largeUnit

def Request.region : Request → Region
  | .small => .small
  | .medium => .medium
  | .large _ => .large

def Request.bytes : Request → Usize
  | .small => smallPageSize
  | .medium => mediumPageSize
  | .large size => largeUnits size * largeUnit

/-- Whether the request goes to the reservation and not to the system allocator. -/
def Request.pooled : Request → Bool
  | .large size => size ≤ largeMax
  | _ => true

/-- Claim bytes below the limit: the claimed address and the new cursor, or nothing. -/
def carve (cursor bytes limit : Usize) : Option (Usize × Usize) :=
  if cursor + bytes > limit then none else some (cursor, cursor + bytes)

/-- One request that finds no free page or block. -/
def Pool.carve (r : Range) (p : Pool) (request : Request) : Pool :=
  if request.pooled then
    match Heap.carve (p.cursor request.region) request.bytes (r.limit request.region) with
    | none => p
    | some (start, next) =>
      { cursor := fun region => if region = request.region then next else p.cursor region
        carved := ⟨request.region, start, request.bytes⟩ :: p.carved }
  else p

def Pool.carveAll (r : Range) (requests : List Request) : Pool :=
  requests.foldl (Pool.carve r) (Pool.ofRange r)

end Rphp.Heap
