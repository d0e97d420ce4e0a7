/-
  tls.c. A call runs without interruption (its mutex is then free), and is a function of the
  state: `none` is a call whose behaviour is undefined or that does not return, because it
  dereferences NULL or freed memory, reads past an array, overflows an int, faults, or ends the
  process in tls_protect or tls_unprotect.

  Items and Pages live in two heaps of numbered cells; a cell is `none` once it is freed, and no
  number is used twice, so that a pointer to a freed cell stays recognisable. A bucket of the
  table is the list of its items in the order of their next pointers: Add pushes at the front
  and nothing else writes a next field. ref_count is unbounded.
-/
import EC440.Lib.Loop
import EC440.Tls.Memory

namespace EC440.Tls

open EC440.Lib

/-- refCount is an int. It counts the threads that share the page, so it stays below 2^31 as long as there
    are fewer threads than that. -/
structure Page where
  address : Nat
  refCount : Int
  deriving DecidableEq, Repr

/-- page_num is the length of `pages`, as calloc made it. -/
structure ThreadLocalStorage where
  size : UInt32
  pages : List Nat
  deriving DecidableEq, Repr

structure Item where
  tid : UInt64
  tls : ThreadLocalStorage
  deriving DecidableEq, Repr

structure State where
  table : Nat → List Nat := fun _ => []
  items : Nat → Option Item := fun _ => none
  nextItem : Nat := 0
  pages : Nat → Option Page := fun _ => none
  nextPage : Nat := 0
  mem : Memory := {}
  pageSize : Nat := 0
  isFirstCall : Bool := true

def hashFunction (tid : UInt64) : Nat := tid.toNat % 2 ^ 32 % 23

namespace State

/-! ## The table -/

/-- The walk of Find along a bucket: `some none` is NULL. -/
def walk (s : State) (tid : UInt64) : List Nat → Option (Option Nat)
  | [] => some none
  | element :: rest =>
      (s.items element).bind fun it => if it.tid = tid then some (some element) else s.walk tid rest

def find (s : State) (tid : UInt64) : Option (Option Nat) := s.walk tid (s.table (hashFunction tid))

/-- Add links an item the caller has filled in; `tid` is pthread_self(). -/
def add (tid : UInt64) (newElement : Item) (s : State) : State :=
  { s with
    items := Function.update s.items s.nextItem (some newElement)
    nextItem := s.nextItem + 1
    table := Function.update s.table (hashFunction tid) (s.nextItem :: s.table (hashFunction tid)) }

/-- The walk of Remove: where `temp` and `current` stand when it ends. -/
def removeWalk (s : State) (tid : UInt64) : Option Nat → List Nat → Option (Option Nat × Option Nat)
  | temp, [] => some (temp, none)
  | temp, current :: rest =>
      (s.items current).bind fun it =>
        if it.tid = tid then some (temp, some current) else s.removeWalk tid (some current) rest

/-- Remove reads `current->next` into the local `temp` and unlinks nothing. -/
def remove (s : State) (tid : UInt64) : Option (Option Nat) :=
  match s.table (hashFunction tid) with
  | [] => some none
  | bucket => do
      let (temp, current) ← s.removeWalk tid none bucket
      if temp ≠ none then
        let element ← current
        let _ ← s.items element
      return current

/-! ## Pages -/

/-- tls_init, on the first tls_create. -/
def tlsInit (k : Kernel) (s : State) : State :=
  if s.isFirstCall then { s with pageSize := k.getpagesize, isFirstCall := false } else s

/-- malloc, mmap and `ref_count = 1`; `none` when mmap fails. -/
def newPage (k : Kernel) (prot : Prot) (s : State) : Option Nat × State :=
  match s.mem.mmap k s.pageSize prot with
  | (none, mem) => (none, { s with mem := mem })
  | (some address, mem) => (some s.nextPage,
      { s with
        pages := Function.update s.pages s.nextPage (some { address := address, refCount := 1 })
        nextPage := s.nextPage + 1
        mem := mem })

def setRefCount (page : Nat) (p : Page) (refCount : Int) (s : State) : State :=
  { s with pages := Function.update s.pages page (some { p with refCount := refCount }) }

/-- tls_unprotect, and tls_protect with PROT_NONE. -/
def tlsUnprotect (protect : Prot) (s : State) (page : Nat) : Option State := do
  let p ← s.pages page
  let mem ← s.mem.mprotect p.address protect
  return { s with mem := mem }

def tlsProtect (s : State) (page : Nat) : Option State := s.tlsUnprotect .none page

/-! ## The calls -/

/-- The pages of a new LSA. -/
def createPages (k : Kernel) : Nat → State → Option (List Nat) × State
  | 0, s => (some [], s)
  | n + 1, s =>
      match s.newPage k .none with
      | (none, s) => (none, s)
      | (some page, s) =>
          match createPages k n s with
          | (none, s) => (none, s)
          | (some pages, s) => (some (page :: pages), s)

def pageNum (size : UInt32) (pageSize : Nat) : Nat :=
  size.toNat / pageSize + if size.toNat % pageSize ≠ 0 then 1 else 0

def tlsCreate (k : Kernel) (tid : UInt64) (size : UInt32) (s : State) : Option (Int × State) :=
  let s := s.tlsInit k
  if size.toNat ≤ 0 then some (-1, s)
  else
    match s.find tid with
    | none => none
    | some (some _) => some (-1, s)
    | some none =>
        match s.createPages k (pageNum size s.pageSize) with
        | (none, s) => some (-1, s)
        | (some pages, s) => some (0, s.add tid { tid := tid, tls := { size := size, pages := pages } })

/-- One round of the loop of tls_destroy. -/
def destroyPage (s : State) (page : Nat) : Option State := do
  let p ← s.pages page
  if p.refCount = 1 then
    return { s with mem := s.mem.munmap p.address, pages := Function.update s.pages page none }
  else
    return s.setRefCount page p (p.refCount - 1)

def tlsDestroy (tid : UInt64) (s : State) : Option (Int × State) := do
  match ← s.remove tid with
  | none => return (-1, s)
  | some element =>
      let it ← s.items element
      let s ← it.tls.pages.foldlM destroyPage s
      return (0, { s with items := Function.update s.items element none })

/-- `index / page_size`, with `index` as an unsigned long and the quotient as an unsigned int. -/
def pageNumber (pageSize : Nat) (index : Int) : Nat := (index % 2 ^ 64).toNat / pageSize % 2 ^ 32

def pageOffset (pageSize : Nat) (index : Int) : Nat := (index % 2 ^ 64).toNat % pageSize % 2 ^ 32

/-- The private copy of a shared page: `pages[page_number]` of the caller's LSA is replaced. An
    mmap that fails is not noticed before memcpy. -/
def copyPage (k : Kernel) (element : Nat) (it : Item) (pageNumber page : Nat) (p : Page) (s : State) :
    Option (Nat × State) := do
  let (copy, s) := s.newPage k .write
  let copy ← copy
  let c ← s.pages copy
  let mem ← s.mem.memcpy s.pageSize c.address p.address
  let tls := { it.tls with pages := it.tls.pages.set pageNumber copy }
  let s := { s with mem := mem, items := Function.update s.items element (some { it with tls := tls }) }
  let s ← (s.setRefCount page p (p.refCount - 1)).tlsProtect page
  return (copy, s)

def storeByte (page : Nat) (index : Int) (b : UInt8) (s : State) : Option State := do
  let p ← s.pages page
  let mem ← s.mem.store s.pageSize (p.address + pageOffset s.pageSize index) b
  return { s with mem := mem }

/-- One round of the byte loop of tls_write. -/
def writeByte (k : Kernel) (element : Nat) (buffer : Nat → UInt8) (s : State) (count : Nat) (index : Int) :
    Option State := do
  let it ← s.items element
  let page ← it.tls.pages[pageNumber s.pageSize index]?
  let p ← s.pages page
  let (page, s) ← if p.refCount > 1 then s.copyPage k element it (pageNumber s.pageSize index) page p
    else some (page, s)
  s.storeByte page index (buffer count)

def tlsWrite (k : Kernel) (tid : UInt64) (offset length : UInt32) (buffer : Nat → UInt8) (s : State) :
    Option (Int × State) := do
  match ← s.find tid with
  | none => return (-1, s)
  | some element =>
      let it ← s.items element
      if offset + length > it.tls.size then return (-1, s)
      let s ← it.tls.pages.foldlM (tlsUnprotect .write) s
      let s ← forInt (writeByte k element buffer) offset (offset + length) s
      let it ← s.items element
      let s ← it.tls.pages.foldlM tlsProtect s
      return (0, s)

/-- One round of the byte loop of tls_read; `buffer` are the bytes stored so far. -/
def readByte (s : State) (element : Nat) (buffer : List UInt8) (_count : Nat) (index : Int) :
    Option (List UInt8) := do
  let it ← s.items element
  let page ← it.tls.pages[pageNumber s.pageSize index]?
  let p ← s.pages page
  let b ← s.mem.load s.pageSize (p.address + pageOffset s.pageSize index)
  return buffer ++ [b]

def tlsRead (tid : UInt64) (offset length : UInt32) (s : State) : Option ((Int × List UInt8) × State) := do
  match ← s.find tid with
  | none => return ((-1, []), s)
  | some element =>
      let it ← s.items element
      if offset + length > it.tls.size then return ((-1, []), s)
      let s ← it.tls.pages.foldlM (tlsUnprotect .read) s
      let buffer ← forInt (s.readByte element) offset (offset + length) []
      let s ← it.tls.pages.foldlM tlsProtect s
      return ((0, buffer), s)

/-- One round of the loop of tls_clone. -/
def sharePage (s : State) (page : Nat) : Option State := do
  let p ← s.pages page
  return s.setRefCount page p (p.refCount + 1)

def tlsClone (cloneTid tid : UInt64) (s : State) : Option (Int × State) := do
  let cloneElement ← s.find cloneTid
  let targetElement ← s.find tid
  match cloneElement, targetElement with
  | none, some target =>
      let targetTLS := (← s.items target).tls
      let s ← targetTLS.pages.foldlM sharePage s
      return (0, s.add cloneTid { tid := cloneTid, tls := targetTLS })
  | _, _ => return (-1, s)

end State

inductive Call
  | create (size : UInt32)
  | destroy
  | write (offset length : UInt32) (buffer : Nat → UInt8)
  | read (offset length : UInt32)
  | clone (tid : UInt64)

/-- The return value, and the bytes tls_read stored into the caller's buffer. -/
structure Ret where
  code : Int
  bytes : List UInt8 := []
  deriving DecidableEq, Repr

/-- A call by a thread. -/
def State.step (k : Kernel) (s : State) : UInt64 × Call → Option (Ret × State)
  | (tid, .create size) => (s.tlsCreate k tid size).map fun (r, s) => ({ code := r }, s)
  | (tid, .destroy) => (s.tlsDestroy tid).map fun (r, s) => ({ code := r }, s)
  | (tid, .write offset length buffer) =>
      (s.tlsWrite k tid offset length buffer).map fun (r, s) => ({ code := r }, s)
  | (tid, .read offset length) =>
      (s.tlsRead tid offset length).map fun ((r, bytes), s) => ({ code := r, bytes := bytes }, s)
  | (tid, .clone target) => (s.tlsClone tid target).map fun (r, s) => ({ code := r }, s)

end EC440.Tls
