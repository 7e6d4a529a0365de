import ServerKit.Lib.Loops
import ServerKit.Lib.Memory

/-! The memory pool of `threadpool/src4/mempool/memorypool.cpp`. The free blocks are chained through
their own first eight bytes. An address is a number, and `0` is NULL. -/
namespace ServerKit.Mempool
open ServerKit.Lib

def MEM_PAGE_SIZE : ℕ := 0x1000

structure MempoolT where
  blockSize : ℤ
  freeCount : ℤ
  mem : ℕ
  ptr : ℕ

/-- What an `int` keeps of a number, and what a `size_t` does. -/
def toInt (n : ℤ) : ℤ := Int.bmod n (2^32)
def toSize (n : ℤ) : ℕ := (n % 2^64).toNat

/-- The loop of `memp_init`: the memory, and `ptr2`. -/
def linkBlocks (blockSize count : ℕ) (m : Mem) (ptr2 : ℕ) : Mem × ℕ :=
  forUp 0 count (fun _ s => (storeWord s.1 s.2 (s.2+blockSize),s.2+blockSize)) (m,ptr2)

/-- Here `mem` is what `malloc` returns, and the last component is the returned status. -/
def mempInit (m : Mem) (mem : ℕ) (blockSize : ℕ) : MempoolT × Mem × ℤ :=
  let mp : MempoolT := ⟨toInt blockSize,toInt (MEM_PAGE_SIZE/blockSize : ℕ),mem,0⟩
  if mem = 0 then (mp,m,-1)
  else
    let mp := { mp with ptr := mp.mem }
    let s := linkBlocks blockSize mp.freeCount.toNat m mp.ptr
    (mp,storeWord s.1 s.2 0,0)

/-- This is `_malloc`, which only reads the memory. -/
def malloc (mp : MempoolT) (m : Mem) (size : ℕ) : MempoolT × ℕ :=
  if mp.freeCount = 0 then (mp,0)
  else if toSize mp.blockSize < size then (mp,0)
  else ({ mp with ptr := loadWord m mp.ptr, freeCount := mp.freeCount-1 },mp.ptr)

/-- This is `_free`. -/
def free (mp : MempoolT) (m : Mem) (ptr : ℕ) : MempoolT × Mem :=
  ({ mp with ptr := ptr, freeCount := mp.freeCount+1 },storeWord m ptr mp.ptr)

/-- The pool, the memory, and the blocks that a client has got and not given back. -/
structure State where
  mp : MempoolT
  m : Mem
  outstanding : List ℕ

def start (m : Mem) (mem : ℕ) (blockSize : ℕ) : State :=
  let r := mempInit m mem blockSize
  ⟨r.1,r.2.1,[]⟩

/-- What a client may do. -/
inductive Action
  | malloc (size : ℕ)
  | free (ptr : ℕ)
  | write (a : ℕ) (byte : UInt8)

inductive Step (s : State) : Action → State → Prop
  | null {size} (h : (malloc s.mp s.m size).2 = 0) :
      Step s (.malloc size) { s with mp := (malloc s.mp s.m size).1 }
  | malloc {size} (h : (malloc s.mp s.m size).2 ≠ 0) :
      Step s (.malloc size)
        { s with
          mp := (malloc s.mp s.m size).1
          outstanding := (malloc s.mp s.m size).2 :: s.outstanding }
  | free {ptr} (h : ptr ∈ s.outstanding) :
      Step s (.free ptr)
        ⟨(free s.mp s.m ptr).1,(free s.mp s.m ptr).2,s.outstanding.erase ptr⟩
  | write {ptr a byte} (h : ptr ∈ s.outstanding) (hle : ptr ≤ a) (hlt : a < ptr+toSize s.mp.blockSize) :
      Step s (.write a byte) { s with m := Function.update s.m a byte }

end ServerKit.Mempool
