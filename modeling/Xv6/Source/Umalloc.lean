import Mathlib.Algebra.Group.Int.Defs
import Mathlib.Algebra.Group.Nat.Defs
import Mathlib.Logic.Function.Basic

/-!
# user/umalloc.c

`malloc` and `free`. A heap is the two fields of the headers at all addresses, `freep`, and what
`sbrk` has given out. An address is a number of bytes, and pointer arithmetic counts headers. Loops
are given a number of rounds; `none` is a loop that has not come to its end in these. Up to `malloc`
requests whose rounded size does not fit into the `int` of `sbrk` are not considered; the functions
behind it are the same with this conversion.
-/
namespace Xv6.Source.Umalloc

/-- `sizeof(Header)` -/
def HEADER : Nat := 16

/-- A number stored in a `uint`. -/
def uint (n : Nat) : Nat := n % 2 ^ 32

structure Heap where
  /-- `s.ptr` and `s.size` of the header at an address. -/
  ptr : Nat → Nat
  size : Nat → Nat
  freep : Nat
  /-- The end of the memory that `sbrk` has given out, how often it has been called, and the units
  that it has given. -/
  brk : Nat
  calls : Nat
  supplied : Nat

/-- What `sbrk` does at each of its calls: it fails, or it returns memory so far behind the end of
what it has given out before. -/
abbrev Sbrk := Nat → Option Nat

/-- `sbrk(nu * sizeof(Header))` -/
def sbrk (answer : Sbrk) (nu : Nat) (h : Heap) : Option Nat × Heap :=
  match answer h.calls with
  | none => (none, { h with calls := h.calls + 1 })
  | some gap => (some (h.brk + gap), { h with
      brk := h.brk + gap + nu * HEADER
      calls := h.calls + 1
      supplied := h.supplied + nu })

/-- The loop of `free`: where to insert `bp`. -/
def place (h : Heap) (bp : Nat) : Nat → Nat → Option Nat
  | 0, _ => none
  | rounds + 1, p =>
    if bp > p ∧ bp < h.ptr p then some p
    else if p ≥ h.ptr p ∧ (bp > p ∨ bp < h.ptr p) then some p
    else place h bp rounds (h.ptr p)

/-- Join `bp` to the block behind it, or link it. -/
def joinNext (bp p : Nat) (h : Heap) : Heap :=
  if bp + h.size bp * HEADER = h.ptr p then { h with
    size := Function.update h.size bp (uint (h.size bp + h.size (h.ptr p)))
    ptr := Function.update h.ptr bp (h.ptr (h.ptr p)) }
  else { h with ptr := Function.update h.ptr bp (h.ptr p) }

/-- Join `bp` to the block before it, or link it. -/
def joinPrev (bp p : Nat) (h : Heap) : Heap :=
  if p + h.size p * HEADER = bp then { h with
    size := Function.update h.size p (uint (h.size p + h.size bp))
    ptr := Function.update h.ptr p (h.ptr bp) }
  else { h with ptr := Function.update h.ptr p bp }

def free (rounds : Nat) (h : Heap) (ap : Nat) : Option Heap :=
  let bp := ap - HEADER
  (place h bp rounds h.freep).map fun p => { joinPrev bp p (joinNext bp p h) with freep := p }

/-- The result is false if `sbrk` has failed. -/
def morecore (answer : Sbrk) (rounds : Nat) (h : Heap) (nu : Nat) : Option (Bool × Heap) :=
  let nu := if nu < 4096 then 4096 else nu
  match sbrk answer nu h with
  | (none, h) => some (false, h)
  | (some hp, h) =>
    (free rounds { h with size := Function.update h.size hp nu } (hp + HEADER)).map fun h => (true, h)

/-- The allocation from the block `p` behind `prevp`. -/
def take (nunits prevp p : Nat) (h : Heap) : Nat × Heap :=
  if h.size p = nunits then (p + HEADER, { h with
    ptr := Function.update h.ptr prevp (h.ptr p)
    freep := prevp })
  else
    let rest := h.size p - nunits
    let q := p + rest * HEADER
    (q + HEADER, { h with
      size := Function.update (Function.update h.size p rest) q nunits
      freep := prevp })

/-- The loop of `malloc`; the result is the null pointer if `sbrk` fails. -/
def scan (answer : Sbrk) (nunits : Nat) : Nat → Heap → Nat → Nat → Option (Nat × Heap)
  | 0, _, _, _ => none
  | rounds + 1, h, prevp, p =>
    if h.size p ≥ nunits then some (take nunits prevp p h)
    else if p = h.freep then
      match morecore answer rounds h nunits with
      | none => none
      | some (false, h) => some (0, h)
      | some (true, h) => scan answer nunits rounds h h.freep (h.ptr h.freep)
    else scan answer nunits rounds h p (h.ptr p)

def unitsFor (nbytes : Nat) : Nat := uint ((nbytes + HEADER - 1) / HEADER + 1)

/-- The list of free blocks at the first call: `base` alone. -/
def ready (base : Nat) (h : Heap) : Heap :=
  if h.freep = 0 then { h with
    ptr := Function.update h.ptr base base
    freep := base
    size := Function.update h.size base 0 }
  else h

def malloc (base : Nat) (answer : Sbrk) (rounds : Nat) (h : Heap) (nbytes : Nat) : Option (Nat × Heap) :=
  let h := ready base h
  scan answer (unitsFor nbytes) rounds h h.freep (h.ptr h.freep)

/-! ## The int of sbrk -/

/-- A `size_t` passed as an `int`. -/
def narrow (n : Nat) : Int := if n % 2 ^ 32 < 2 ^ 31 then (n % 2 ^ 32 : Nat) else (n % 2 ^ 32 : Nat) - 2 ^ 32

/-- `sbrk(n)`, with `growproc` of kernel/proc.c: shrinking does not fail, and a size below zero wraps,
which leaves the old one. -/
def sbrkInt (answer : Sbrk) (n : Int) (h : Heap) : Option Nat × Heap :=
  if 0 < n then
    match answer h.calls with
    | none => (none, { h with calls := h.calls + 1 })
    | some gap => (some (h.brk + gap), { h with
        brk := h.brk + gap + n.toNat
        calls := h.calls + 1
        supplied := h.supplied + n.toNat / HEADER })
  else
    let sz := h.brk + (answer h.calls).getD 0
    (some sz, { h with
      brk := if 0 ≤ (sz : Int) + n then ((sz : Int) + n).toNat else sz
      calls := h.calls + 1 })

def morecoreInt (answer : Sbrk) (rounds : Nat) (h : Heap) (nu : Nat) : Option (Bool × Heap) :=
  let nu := if nu < 4096 then 4096 else nu
  match sbrkInt answer (narrow (nu * HEADER)) h with
  | (none, h) => some (false, h)
  | (some hp, h) =>
    (free rounds { h with size := Function.update h.size hp nu } (hp + HEADER)).map fun h => (true, h)

def scanInt (answer : Sbrk) (nunits : Nat) : Nat → Heap → Nat → Nat → Option (Nat × Heap)
  | 0, _, _, _ => none
  | rounds + 1, h, prevp, p =>
    if h.size p ≥ nunits then some (take nunits prevp p h)
    else if p = h.freep then
      match morecoreInt answer rounds h nunits with
      | none => none
      | some (false, h) => some (0, h)
      | some (true, h) => scanInt answer nunits rounds h h.freep (h.ptr h.freep)
    else scanInt answer nunits rounds h p (h.ptr p)

def mallocInt (base : Nat) (answer : Sbrk) (rounds : Nat) (h : Heap) (nbytes : Nat) : Option (Nat × Heap) :=
  let h := ready base h
  scanInt answer (unitsFor nbytes) rounds h h.freep (h.ptr h.freep)

end Xv6.Source.Umalloc
