import Xv6.Source.System

/-!
# exec

kernel/exec.c and `sys_exec` of kernel/sysfile.c. The file that the path names is given by its bytes;
`namei` is what it finds. Sums and casts keep the widths of the source: addresses have 64 bits, `off`
and the arguments of `loadseg` and `readi` 32.
-/
namespace Xv6.Source.Exec

open Xv6.Source.Vm (Pagetable PGSIZE PGROUNDUP PTE_W PTE_X word)
open Xv6.Source.Ptable (Slot)
open Xv6.Source.System

def MAXARG : Nat := 32

def ELF_MAGIC : Nat := 0x464C457F

def ELF_PROG_LOAD : Nat := 1

/-- Sums of 32-bit words. -/
def word32 (n : Nat) : Nat := n % 2 ^ 32

/-- The number that bytes stand for. -/
def le : List UInt8 → Nat
  | [] => 0
  | b :: bs => b.toNat + 256 * le bs

/-- A field of a record, of `n` bytes. -/
def field (bytes : List UInt8) (off n : Nat) : Nat := le ((bytes.drop off).take n)

/-- The bytes that `readi` reads of a file without holes. -/
def readi (content : List UInt8) (off n : Nat) : List UInt8 :=
  if content.length < off ∨ word32 (off + n) < off then [] else (content.drop off).take n

structure Elfhdr where
  magic : Nat
  entry : Nat
  phoff : Nat
  phnum : Nat

def elfhdrSize : Nat := 64

def elfhdr (bytes : List UInt8) : Elfhdr := ⟨field bytes 0 4, field bytes 24 8, field bytes 32 8, field bytes 56 2⟩

structure Proghdr where
  type : Nat
  flags : Nat
  off : Nat
  vaddr : Nat
  filesz : Nat
  memsz : Nat

def proghdrSize : Nat := 56

def proghdr (bytes : List UInt8) : Proghdr :=
  ⟨field bytes 0 4, field bytes 4 4, field bytes 8 8, field bytes 16 8, field bytes 32 8, field bytes 40 8⟩

def flags2perm (flags : Nat) : UInt64 :=
  (if flags.testBit 0 then PTE_X else 0) ||| (if flags.testBit 1 then PTE_W else 0)

/-- The loop of `loadseg`. After `2^20` rounds `i` is where it began. -/
def loadLoop (t : Pagetable) (va : Nat) (content : List UInt8) (offset sz : Nat) : Nat → Nat → Vm.Prog Int
  | 0, _ => throw .loops
  | n + 1, i =>
    if i < sz then do
      let pa ← Vm.walkaddr t (word (va + i))
      if pa = 0 then Vm.panic "loadseg: address should exist"
      else
        let n' := if sz - i < PGSIZE then sz - i else PGSIZE
        let bytes := readi content (word32 (offset + i)) n'
        Vm.memmove pa bytes
        if bytes.length ≠ n' then pure (-1)
        else loadLoop t va content offset sz n (word32 (i + PGSIZE))
    else pure 0

/-- Load a program segment into pagetable at virtual address va. -/
def loadseg (t : Pagetable) (va : Nat) (content : List UInt8) (offset sz : Nat) : Vm.Prog Int :=
  loadLoop t va content offset sz (2 ^ 20 + 1) 0

/-- The loop over the program headers: the table and the size that it ends with, and whether it has
come to its end. `n` headers are left. -/
def loadHeaders (content : List UInt8) : Nat → Nat → Pagetable → Nat → Vm.Prog (Bool × Pagetable × Nat)
  | 0, _, t, sz => pure (true, t, sz)
  | n + 1, off, t, sz =>
    let bytes := readi content off proghdrSize
    let ph := proghdr bytes
    if bytes.length ≠ proghdrSize then pure (false, t, sz)
    else if ph.type ≠ ELF_PROG_LOAD then loadHeaders content n (word32 (off + proghdrSize)) t sz
    else if ph.memsz < ph.filesz then pure (false, t, sz)
    else if word (ph.vaddr + ph.memsz) < ph.vaddr then pure (false, t, sz)
    else if ph.vaddr % PGSIZE ≠ 0 then pure (false, t, sz)
    else do
      match ← Vm.uvmalloc t sz (word (ph.vaddr + ph.memsz)) (flags2perm ph.flags) with
      | (0, t) => pure (false, t, sz)
      | (sz1, t) =>
        let r ← loadseg t ph.vaddr content (word32 ph.off) (word32 ph.filesz)
        if r < 0 then pure (false, t, sz1)
        else loadHeaders content n (word32 (off + proghdrSize)) t sz1

/-- `sp -= n; sp -= sp % 16` -/
def push (sp n : Nat) : Nat :=
  let sp := word (sp + 2 ^ 64 - n)
  sp - sp % 16

/-- Push argument strings; `ustack` has the addresses of those that are there. -/
def pushStrings (t : Pagetable) (stackbase : Nat) : List (List UInt8) → Nat → List Nat → Vm.Prog (Option (Nat × List Nat))
  | [], sp, ustack => pure (some (sp, ustack))
  | arg :: argv, sp, ustack =>
    if MAXARG ≤ ustack.length then pure none
    else
      let sp := push sp (arg.length + 1)
      if sp < stackbase then pure none
      else do
        let r ← Vm.copyout t sp (arg ++ [0])
        if r < 0 then pure none else pushStrings t stackbase argv sp (ustack ++ [sp])

/-- The bytes of the vector of pointers, with a null pointer at its end. -/
def vector (ustack : List Nat) : List UInt8 := (ustack ++ [0]).flatMap (leBytes 8)

/-- Push the strings and the vector; the stack pointer. The null pointer goes to `ustack[argc]`, and
`ustack` has MAXARG entries. -/
def pushArgs (t : Pagetable) (sz : Nat) (argv : List (List UInt8)) : Vm.Prog (Option Nat) := do
  let stackbase := sz - PGSIZE
  match ← pushStrings t stackbase argv sz [] with
  | none => pure none
  | some (sp, ustack) =>
    let sp := push sp ((argv.length + 1) * 8)
    if MAXARG ≤ ustack.length then throw .wild
    else if sp < stackbase then pure none
    else do
      let r ← Vm.copyout t sp (vector ustack)
      if r < 0 then pure none else pure (some sp)

/-- The last element of a path. -/
def baseName (path : List UInt8) : List UInt8 := (path.reverse.takeWhile (· ≠ 47)).reverse

/-- From `bad` on: the new page table is freed, if there is one. -/
def badTable (t : Pagetable) (sz : Nat) : Prog Int := do
  onMem (Vm.procFreepagetable t sz)
  pure (-1)

/-- From `bad` on, with the inode still locked. -/
def badInode (ip : Nat) : Prog Int := do
  iunlockput ip
  endOp
  pure (-1)

/-- Commit to the user image. -/
def commit (p : Slot) (t : Pagetable) (sz sp entry : Nat) (path : List UInt8) (argc : Nat) : Prog Int := do
  let old ← getProc p
  let tf ← deref old.trapframe
  onMem (Vm.memmove (tf + a1Offset) (leBytes 8 sp))
  setProc p fun q => { q with name := safestrcpy q.name (baseName path ++ [0]) 16 }
  let oldpagetable ← deref old.pagetable
  setProc p fun q => { q with pagetable := some t, sz := sz }
  onMem (Vm.memmove (tf + epcOffset) (leBytes 8 entry))
  onMem (Vm.memmove (tf + spOffset) (leBytes 8 sp))
  onMem (Vm.procFreepagetable oldpagetable old.sz)
  pure argc

/-- Two pages at the next page boundary: the first is a guard, the second the stack. -/
def setupStack (p : Slot) (t : Pagetable) (sz entry : Nat) (path : List UInt8) (argv : List (List UInt8)) : Prog Int := do
  let sz := PGROUNDUP sz
  match ← onMem (Vm.uvmalloc t sz (word (sz + 2 * PGSIZE)) PTE_W) with
  | (0, t) => badTable t sz
  | (sz1, t) =>
    let t ← onMem (Vm.uvmclear t (word (sz1 + 2 ^ 64 - 2 * PGSIZE)))
    match ← onMem (pushArgs t sz1 argv) with
    | none => badTable t sz1
    | some sp => commit p t sz1 sp entry path argv.length

/-- `exec` by process `p`; `found` is the inode that `namei` finds, and `content` its bytes. -/
def exec (p : Slot) (found : Option Nat) (content path : List UInt8) (argv : List (List UInt8)) : Prog Int := do
  beginOp
  match found with
  | none =>
    endOp
    pure (-1)
  | some ip =>
    idup ip
    ilock ip
    let header := readi content 0 elfhdrSize
    let elf := elfhdr header
    if header.length ≠ elfhdrSize then badInode ip
    else if elf.magic ≠ ELF_MAGIC then badInode ip
    else do
      let q ← getProc p
      match ← onMem (Vm.procPagetable (← deref q.trapframe)) with
      | none => badInode ip
      | some t =>
        match ← onMem (loadHeaders content elf.phnum (word32 elf.phoff) t 0) with
        | (false, t, sz) =>
          let _ ← badTable t sz
          badInode ip
        | (true, t, sz) =>
          iunlockput ip
          endOp
          setupStack p t sz elf.entry path argv

/-! ## sys_exec -/

/-- The next argument: its address and its string, which goes to a page of its own. -/
def fetchArg (t : Pagetable) (sz addr : Nat) : Vm.Prog (Option Nat) :=
  if sz ≤ addr ∨ sz < word (addr + 8) then pure none
  else do
    let (r, bytes) ← Vm.copyin t addr 8
    if r = 0 then pure (some (le bytes)) else pure none

/-- `for(i = 0; i < NELEM(argv) && argv[i] != 0; i++) kfree(argv[i])` -/
def freeArgs : List Nat → Vm.Prog Unit
  | [] => pure ()
  | pa :: pas => do
    Vm.kfree pa
    freeArgs pas

/-- The loop over the user's argument vector. The strings that it has read are in the pages `pas`;
`none` stands for `goto bad`. -/
def fetchArgs (t : Pagetable) (sz uargv : Nat) : Nat → List Nat → List (List UInt8) → Vm.Prog (List Nat × Option (List (List UInt8)))
  | 0, pas, _ => pure (pas, none)
  | n + 1, pas, argv => do
    match ← fetchArg t sz (word (uargv + 8 * argv.length)) with
    | none => pure (pas, none)
    | some uarg =>
      if uarg = 0 then pure (pas, some argv)
      else do
        match ← Vm.kalloc with
        | none => pure (pas, none)
        | some pa =>
          let (r, bytes) ← Vm.copyinstr t uarg PGSIZE
          if r < 0 then
            Vm.memmove pa bytes
            pure (pas ++ [pa], none)
          else
            Vm.memmove pa (bytes ++ [0])
            fetchArgs t sz uargv n (pas ++ [pa]) (argv ++ [bytes])

/-- `sys_exec` by process `p`, after it has read the path. -/
def sysExec (p : Slot) (found : Option Nat) (content path : List UInt8) (uargv : Nat) : Prog Int := do
  let q ← getProc p
  let (pas, argv) ← onMem (fetchArgs (← deref q.pagetable) q.sz uargv MAXARG [] [])
  match argv with
  | none =>
    onMem (freeArgs pas)
    pure (-1)
  | some argv =>
    let r ← exec p found content path argv
    onMem (freeArgs pas)
    pure r

end Xv6.Source.Exec
