import Mathlib.Algebra.Group.Int.Defs
import Mathlib.Algebra.Group.Nat.Defs
import Mathlib.Logic.Function.Basic
import Xv6.Library.Total

/-!
# Page tables and physical memory

kernel/kalloc.c and kernel/vm.c. A page table is a tree of three levels in which every page of
the table has its physical address, as have the pages that its leaves map; leaves are the words of
the lowest level. Virtual addresses are numbers below 2^64 and sums of them are cut to 64 bits;
physical addresses are numbers too. Bytes of pages that are not part of a page table are in
`byte`. The list `fails` lets any call of `kalloc` fail. A loop over pages that would go on for
ever ends in the fault `loops`.
-/
namespace Xv6.Source.Vm

def PGSIZE : Nat := 4096

def MAXVA : Nat := 2 ^ (9 + 9 + 9 + 12 - 1)

def TRAMPOLINE : Nat := MAXVA - PGSIZE

def TRAPFRAME : Nat := TRAMPOLINE - PGSIZE

def KERNBASE : Nat := 0x80000000

def PHYSTOP : Nat := KERNBASE + 128 * 1024 * 1024

/-- Sums of 64-bit words. -/
def word (n : Nat) : Nat := n % 2 ^ 64

def PGROUNDUP (sz : Nat) : Nat := word (sz + PGSIZE - 1) / PGSIZE * PGSIZE

def PGROUNDDOWN (a : Nat) : Nat := a / PGSIZE * PGSIZE

def PTE_V : UInt64 := 1
def PTE_R : UInt64 := 2
def PTE_W : UInt64 := 4
def PTE_X : UInt64 := 8
def PTE_U : UInt64 := 16

def PA2PTE (pa : Nat) : UInt64 := (UInt64.ofNat pa >>> 12) <<< 10

def PTE2PA (pte : UInt64) : Nat := ((pte >>> 10) <<< 12).toNat

def PTE_FLAGS (pte : UInt64) : UInt64 := pte &&& 0x3FF

def PX (level va : Nat) : Fin 512 := Fin.ofNat 512 (va / 2 ^ (12 + 9 * level))

/-- A page of a page table, and the physical address of the page. -/
structure Table (α : Type) where
  page : Nat
  entry : Fin 512 → α

def Table.set {α : Type} (t : Table α) (i : Fin 512) (a : α) : Table α :=
  { t with entry := Function.update t.entry i a }

/-- The lowest level holds the PTEs that map pages; above it an entry that is valid points to a
page of the next level. -/
abbrev Leaves := Table UInt64
abbrev Middle := Table (Option Leaves)
abbrev Pagetable := Table (Option Middle)

/-- Where a PTE of the lowest level is, from the top. -/
structure Index where
  two : Fin 512
  one : Fin 512
  zero : Fin 512
  deriving DecidableEq

def index (va : Nat) : Index := ⟨PX 2 va, PX 1 va, PX 0 va⟩

/-- `*pte` -/
def Pagetable.get (t : Pagetable) (i : Index) : UInt64 :=
  match t.entry i.two with
  | none => 0
  | some m =>
    match m.entry i.one with
    | none => 0
    | some l => l.entry i.zero

/-- `*pte = pte` -/
def Pagetable.put (t : Pagetable) (i : Index) (pte : UInt64) : Pagetable :=
  match t.entry i.two with
  | none => t
  | some m =>
    match m.entry i.one with
    | none => t
    | some l => t.set i.two (some (m.set i.one (some (l.set i.zero pte))))

/-- The physical memory for pages, and the code that is mapped in every page table. -/
structure Ram where
  /-- `end` -/
  first : Nat
  /-- `PHYSTOP` -/
  stop : Nat
  trampoline : Nat
  first_pos : 0 < first
  stop_le : stop ≤ 2 ^ 64

structure Mem where
  ram : Ram
  freelist : List Nat
  byte : Nat → UInt8
  fails : List Bool

inductive Fault where
  | panic (msg : String)
  /-- The code would go on for ever. -/
  | loops
  /-- `freewalk` takes a page for a page of a page table that is none. -/
  | wild
  deriving DecidableEq

abbrev Prog := StateT Mem (Except Fault)

def panic {α : Type} (msg : String) : Prog α := throw (.panic msg)

/-! ## kernel/kalloc.c -/

/-- Memory after `memset(pa, v, PGSIZE)`. -/
def fill (pa : Nat) (v : UInt8) (byte : Nat → UInt8) (x : Nat) : UInt8 :=
  if pa ≤ x ∧ x < pa + PGSIZE then v else byte x

def memset (pa : Nat) (v : UInt8) : Prog Unit := fun m => .ok ((), { m with byte := fill pa v m.byte })

/-- Memory after the bytes have been moved to address `pa`. -/
def write (pa : Nat) (bytes : List UInt8) (byte : Nat → UInt8) (x : Nat) : UInt8 :=
  if pa ≤ x then bytes.getD (x - pa) (byte x) else byte x

def memmove (pa : Nat) (bytes : List UInt8) : Prog Unit := fun m => .ok ((), { m with byte := write pa bytes m.byte })

/-- Bytes of physical memory. -/
def bytesAt (byte : Nat → UInt8) (pa n : Nat) : List UInt8 := (List.range n).map fun k => byte (pa + k)

def kfree (pa : Nat) : Prog Unit := fun m =>
  if pa % PGSIZE ≠ 0 ∨ pa < m.ram.first ∨ m.ram.stop ≤ pa then .error (.panic "kfree")
  else .ok ((), { m with freelist := pa :: m.freelist, byte := fill pa 1 m.byte })

def kalloc : Prog (Option Nat) := fun m =>
  if m.fails.head? = some true then .ok (none, { m with fails := m.fails.tail })
  else
    match m.freelist with
    | [] => .ok (none, { m with fails := m.fails.tail })
    | pa :: freelist =>
      .ok (some pa, { m with freelist := freelist, byte := fill pa 5 m.byte, fails := m.fails.tail })

/-! ## kernel/vm.c -/

/-- The next level of `walk`: it is there, or is made if `alloc` says so. -/
def nextLevel {α : Type} (alloc : Bool) (fresh : Nat → α) : Option α → Prog (Option α)
  | some a => pure (some a)
  | none =>
    if alloc then do
      match ← kalloc with
      | none => pure none
      | some pa =>
        memset pa 0
        pure (some (fresh pa))
    else pure none

/-- `walk`, with the table it leaves. -/
def walk (t : Pagetable) (va : Nat) (alloc : Bool) : Prog (Option Index × Pagetable) := do
  if MAXVA ≤ va then panic "walk"
  else
    match ← nextLevel alloc (fun pa => ⟨pa, fun _ => none⟩) (t.entry (PX 2 va)) with
    | none => pure (none, t)
    | some m =>
      match ← nextLevel alloc (fun pa => ⟨pa, fun _ => 0⟩) (m.entry (PX 1 va)) with
      | none => pure (none, t.set (PX 2 va) (some m))
      | some l => pure (some (index va), t.set (PX 2 va) (some (m.set (PX 1 va) (some l))))

/-- The physical address, or 0. -/
def walkaddr (t : Pagetable) (va : Nat) : Prog Nat := do
  if MAXVA ≤ va then pure 0
  else
    match ← walk t va false with
    | (none, _) => pure 0
    | (some i, t) =>
      if t.get i &&& PTE_V = 0 then pure 0
      else if t.get i &&& PTE_U = 0 then pure 0
      else pure (PTE2PA (t.get i))

/-- More rounds than there are pages below `MAXVA`, at which `walk` panics. -/
def rounds : Nat := MAXVA / PGSIZE + 1

def mapLoop (perm : UInt64) (last : Nat) : Nat → Pagetable → Nat → Nat → Prog (Int × Pagetable)
  | 0, _, _, _ => throw .loops
  | n + 1, t, a, pa => do
    match ← walk t a true with
    | (none, t) => pure (-1, t)
    | (some i, t) =>
      if t.get i &&& PTE_V ≠ 0 then panic "mappages: remap"
      else if a = last then pure (0, t.put i (PA2PTE pa ||| perm ||| PTE_V))
      else mapLoop perm last n (t.put i (PA2PTE pa ||| perm ||| PTE_V)) (word (a + PGSIZE)) (word (pa + PGSIZE))

def mappages (t : Pagetable) (va size pa : Nat) (perm : UInt64) : Prog (Int × Pagetable) :=
  if size = 0 then panic "mappages: size"
  else mapLoop perm (PGROUNDDOWN (word (va + size - 1))) rounds t (PGROUNDDOWN va) pa

def unmapLoop (stop : Nat) (doFree : Bool) : Nat → Pagetable → Nat → Prog Pagetable
  | 0, _, _ => throw .loops
  | n + 1, t, a =>
    if a < stop then do
      match ← walk t a false with
      | (none, _) => panic "uvmunmap: walk"
      | (some i, t) =>
        if t.get i &&& PTE_V = 0 then panic "uvmunmap: not mapped"
        else if PTE_FLAGS (t.get i) = PTE_V then panic "uvmunmap: not a leaf"
        else
          if doFree then kfree (PTE2PA (t.get i))
          unmapLoop stop doFree n (t.put i 0) (word (a + PGSIZE))
    else pure t

def uvmunmap (t : Pagetable) (va npages : Nat) (doFree : Bool) : Prog Pagetable :=
  if va % PGSIZE ≠ 0 then panic "uvmunmap: not aligned"
  else unmapLoop (word (va + npages * PGSIZE)) doFree rounds t va

def uvmcreate : Prog (Option Pagetable) := do
  match ← kalloc with
  | none => pure none
  | some pa =>
    memset pa 0
    pure (some ⟨pa, fun _ => none⟩)

def uvmdealloc (t : Pagetable) (oldsz newsz : Nat) : Prog (Nat × Pagetable) :=
  if oldsz ≤ newsz then pure (oldsz, t)
  else if PGROUNDUP newsz < PGROUNDUP oldsz then do
    let t ← uvmunmap t (PGROUNDUP newsz) ((PGROUNDUP oldsz - PGROUNDUP newsz) / PGSIZE) true
    pure (newsz, t)
  else pure (newsz, t)

def allocLoop (oldsz newsz : Nat) (xperm : UInt64) : Nat → Pagetable → Nat → Prog (Nat × Pagetable)
  | 0, _, _ => throw .loops
  | n + 1, t, a =>
    if a < newsz then do
      match ← kalloc with
      | none =>
        let (_, t) ← uvmdealloc t a oldsz
        pure (0, t)
      | some mem =>
        memset mem 0
        match ← mappages t a PGSIZE mem (PTE_R ||| PTE_U ||| xperm) with
        | (0, t) => allocLoop oldsz newsz xperm n t (word (a + PGSIZE))
        | (_, t) =>
          kfree mem
          let (_, t) ← uvmdealloc t a oldsz
          pure (0, t)
    else pure (newsz, t)

def uvmalloc (t : Pagetable) (oldsz newsz : Nat) (xperm : UInt64) : Prog (Nat × Pagetable) :=
  if newsz < oldsz then pure (oldsz, t)
  else allocLoop (PGROUNDUP oldsz) newsz xperm rounds t (PGROUNDUP oldsz)

/-- `freewalk` of a page of the lowest level, from entry to entry. -/
def checkLeaves (l : Leaves) : List (Fin 512) → Prog Unit
  | [] => pure ()
  | i :: is => do
    if l.entry i &&& PTE_V ≠ 0 then
      if l.entry i &&& (PTE_R ||| PTE_W ||| PTE_X) = 0 then throw .wild else panic "freewalk: leaf"
    checkLeaves l is

/-- `freewalk` of the pages below entries that are valid. -/
def freeChildren {α : Type} (free : α → Prog Unit) (entry : Fin 512 → Option α) : List (Fin 512) → Prog Unit
  | [] => pure ()
  | i :: is => do
    match entry i with
    | some a => free a
    | none => pure ()
    freeChildren free entry is

def freewalkLeaves (l : Leaves) : Prog Unit := do
  checkLeaves l (List.finRange 512)
  kfree l.page

def freewalkMiddle (m : Middle) : Prog Unit := do
  freeChildren freewalkLeaves m.entry (List.finRange 512)
  kfree m.page

def freewalk (t : Pagetable) : Prog Unit := do
  freeChildren freewalkMiddle t.entry (List.finRange 512)
  kfree t.page

def uvmfree (t : Pagetable) (sz : Nat) : Prog Unit :=
  if 0 < sz then do
    let t ← uvmunmap t 0 (PGROUNDUP sz / PGSIZE) true
    freewalk t
  else freewalk t

def copyLoop (old : Pagetable) (sz : Nat) : Nat → Pagetable → Nat → Prog (Int × Pagetable)
  | 0, _, _ => throw .loops
  | n + 1, new, i =>
    if i < sz then do
      match ← walk old i false with
      | (none, _) => panic "uvmcopy: pte should exist"
      | (some ix, _) =>
        if old.get ix &&& PTE_V = 0 then panic "uvmcopy: page not present"
        else
          match ← kalloc with
          | none =>
            let new ← uvmunmap new 0 (i / PGSIZE) true
            pure (-1, new)
          | some mem =>
            let m ← get
            memmove mem (bytesAt m.byte (PTE2PA (old.get ix)) PGSIZE)
            match ← mappages new i PGSIZE mem (PTE_FLAGS (old.get ix)) with
            | (0, new) => copyLoop old sz n new (word (i + PGSIZE))
            | (_, new) =>
              kfree mem
              let new ← uvmunmap new 0 (i / PGSIZE) true
              pure (-1, new)
    else pure (0, new)

def uvmcopy (old new : Pagetable) (sz : Nat) : Prog (Int × Pagetable) := copyLoop old sz rounds new 0

def uvmclear (t : Pagetable) (va : Nat) : Prog Pagetable := do
  match ← walk t va false with
  | (none, _) => panic "uvmclear"
  | (some i, t) => pure (t.put i (t.get i &&& ~~~PTE_U))

/-! ## Page tables of processes (kernel/proc.c) -/

/-- `proc_pagetable`, for a process whose trapframe is at `trapframe`. -/
def procPagetable (trapframe : Nat) : Prog (Option Pagetable) := do
  match ← uvmcreate with
  | none => pure none
  | some t =>
    let m ← get
    match ← mappages t TRAMPOLINE PGSIZE m.ram.trampoline (PTE_R ||| PTE_X) with
    | (0, t) =>
      match ← mappages t TRAPFRAME PGSIZE trapframe (PTE_R ||| PTE_W) with
      | (0, t) => pure (some t)
      | (_, t) =>
        let t ← uvmunmap t TRAMPOLINE 1 false
        uvmfree t 0
        pure none
    | (_, t) =>
      uvmfree t 0
      pure none

def procFreepagetable (t : Pagetable) (sz : Nat) : Prog Unit := do
  let t ← uvmunmap t TRAMPOLINE 1 false
  let t ← uvmunmap t TRAPFRAME 1 false
  uvmfree t sz

/-- `sz + n`, for an `int`. -/
def addInt (sz : Nat) (n : Int32) : Nat := ((sz + n.toInt) % 2 ^ 64).toNat

/-- Grow or shrink user memory by n bytes; the size and the table that it leaves. -/
def growproc (t : Pagetable) (sz : Nat) (n : Int32) : Prog (Int × Nat × Pagetable) :=
  if 0 < n then do
    match ← uvmalloc t sz (addInt sz n) PTE_W with
    | (0, t) => pure (-1, sz, t)
    | (sz', t) => pure (0, sz', t)
  else if n < 0 then do
    let (sz', t) ← uvmdealloc t sz (addInt sz n)
    pure (0, sz', t)
  else pure (0, sz, t)

/-! ## Copies between the kernel and the user -/

def copyoutLoop (t : Pagetable) : Nat → Nat → List UInt8 → Prog Int
  | _, _, [] => pure 0
  | 0, _, _ => throw .loops
  | n + 1, dstva, src => do
    let va0 := PGROUNDDOWN dstva
    let pa0 ← walkaddr t va0
    if pa0 = 0 then pure (-1)
    else
      let k := min (PGSIZE - (dstva - va0)) src.length
      memmove (pa0 + (dstva - va0)) (src.take k)
      copyoutLoop t n (word (va0 + PGSIZE)) (src.drop k)

/-- `copyout` of the bytes of `src`; each round copies at least one. -/
def copyout (t : Pagetable) (dstva : Nat) (src : List UInt8) : Prog Int := copyoutLoop t src.length dstva src

def copyinLoop (t : Pagetable) : Nat → Nat → Nat → Prog (Int × List UInt8)
  | _, _, 0 => pure (0, [])
  | 0, _, _ => throw .loops
  | n + 1, srcva, len + 1 => do
    let va0 := PGROUNDDOWN srcva
    let pa0 ← walkaddr t va0
    if pa0 = 0 then pure (-1, [])
    else
      let k := min (PGSIZE - (srcva - va0)) (len + 1)
      let m ← get
      let (r, rest) ← copyinLoop t n (word (va0 + PGSIZE)) (len + 1 - k)
      pure (r, bytesAt m.byte (pa0 + (srcva - va0)) k ++ rest)

/-- `copyin`, with the bytes that it has copied. -/
def copyin (t : Pagetable) (srcva len : Nat) : Prog (Int × List UInt8) := copyinLoop t len srcva len

def copyinstrLoop (t : Pagetable) : Nat → Nat → Nat → Prog (Int × List UInt8)
  | _, _, 0 => pure (-1, [])
  | 0, _, _ => throw .loops
  | n + 1, srcva, max + 1 => do
    let va0 := PGROUNDDOWN srcva
    let pa0 ← walkaddr t va0
    if pa0 = 0 then pure (-1, [])
    else
      let k := min (PGSIZE - (srcva - va0)) (max + 1)
      let m ← get
      let page := bytesAt m.byte (pa0 + (srcva - va0)) k
      if (0 : UInt8) ∈ page then pure (0, page.takeWhile (· ≠ 0))
      else
        let (r, rest) ← copyinstrLoop t n (word (va0 + PGSIZE)) (max + 1 - k)
        pure (r, page ++ rest)

/-- `copyinstr`, with the bytes before the NUL. -/
def copyinstr (t : Pagetable) (srcva max : Nat) : Prog (Int × List UInt8) := copyinstrLoop t max srcva max

end Xv6.Source.Vm
