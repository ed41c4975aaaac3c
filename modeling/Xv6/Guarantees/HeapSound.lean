import Mathlib.Logic.Relation
import Xv6.Heap.Rounds

/-!
# The heap of a user program

A program calls `malloc` and `free` in any order, and frees what it holds. As long as `sbrk` has
supplied fewer than `2 ^ 32` units the heap is sound: the free list is one cycle in address order
with a gap behind each block, the allocations hold what was asked for, and nothing overlaps or is
lost. Behind that bound the `uint` size of a joined block wraps around.
-/
namespace Xv6.Guarantees.HeapSound

open Xv6.Library.Chain Xv6.Source.Umalloc Xv6.Heap

/-- What a program holds: a pointer from `malloc`, and the bytes that it has asked for. -/
structure Alloc where
  ptr : Nat
  bytes : Nat
  deriving DecidableEq, Repr

structure Sys where
  heap : Heap
  live : List Alloc

inductive Call where
  | malloc (nbytes : Nat)
  | free (ap : Nat)
  deriving DecidableEq, Repr

/-- A request is a `uint` whose rounded size fits into an `int`; what is freed is live. -/
def Legal (s : Sys) : Call → Prop
  | .malloc nbytes => nbytes < 2 ^ 32 ∧ unitsFor nbytes * HEADER < 2 ^ 31
  | .free ap => ∃ a ∈ s.live, a.ptr = ap

instance (s : Sys) : (c : Call) → Decidable (Legal s c)
  | .malloc nbytes => inferInstanceAs (Decidable (nbytes < 2 ^ 32 ∧ unitsFor nbytes * HEADER < 2 ^ 31))
  | .free ap => inferInstanceAs (Decidable (∃ a ∈ s.live, a.ptr = ap))

def call (base : Nat) (answer : Sbrk) (rounds : Nat) (s : Sys) : Call → Option Sys
  | .malloc nbytes => (malloc base answer rounds s.heap nbytes).map fun x =>
      ⟨x.2, if x.1 = 0 then s.live else ⟨x.1, nbytes⟩ :: s.live⟩
  | .free ap => (free rounds s.heap ap).map fun h => ⟨h, s.live.eraseP (·.ptr = ap)⟩

def Step (base : Nat) (answer : Sbrk) (s t : Sys) : Prop :=
  ∃ c rounds, Legal s c ∧ call base answer rounds s c = some t

abbrev Run (base : Nat) (answer : Sbrk) : Sys → Sys → Prop := Relation.ReflTransGen (Step base answer)

/-- Before the first call. The static `base` is below the memory from `sbrk`. -/
structure Initial (base : Nat) (s : Sys) : Prop where
  base_pos : 0 < base
  above : base + HEADER ≤ s.heap.brk
  freep : s.heap.freep = 0
  supplied : s.heap.supplied = 0
  live : s.live = []

/-- The block of an allocation: it holds the header and at least the bytes asked for. -/
def Holds (a : Alloc) (b : Block) : Prop := a.ptr = b.addr + HEADER ∧ a.bytes + HEADER ≤ b.size * HEADER

/-- The free list and the blocks of the allocations share out the memory. -/
def Sound (base : Nat) (s : Sys) : Prop :=
  ∃ fs bs, Shares base s.heap fs bs ∧ List.Forall₂ Holds s.live bs

variable {base : Nat} {answer : Sbrk} {s t : Sys}

/-! ## The list at a call of malloc -/

theorem unitsFor_spec {nbytes : Nat} (h : nbytes < 2 ^ 32) :
    0 < unitsFor nbytes ∧ nbytes + HEADER ≤ unitsFor nbytes * HEADER := by
  have hlt : (nbytes + HEADER - 1) / HEADER + 1 < 2 ^ 32 := by
    rw [HEADER]
    omega
  rw [unitsFor, uint, Nat.mod_eq_of_lt hlt, HEADER]
  omega

/-- Before the first call, or with a list. -/
def Good (base : Nat) (s : Sys) : Prop := Initial base s ∨ 0 < base ∧ Sound base s

theorem Initial.ready (hs : Initial base s) : Shares base (ready base s.heap) [] [] := by
  have hready : Source.Umalloc.ready base s.heap = { s.heap with
      ptr := Function.update s.heap.ptr base base
      freep := base
      size := Function.update s.heap.size base 0 } := if_pos hs.freep
  rw [hready]
  refine ⟨⟨?_, List.mem_cons_self, Function.update_self .., nofun, nofun, nofun, .nil⟩, nofun, nofun, nofun, .nil, nofun,
    nofun, hs.above, hs.supplied.symm⟩
  exact List.isChain_cons_cons.2 ⟨Function.update_self .., .singleton _⟩

theorem Good.ready (hs : Good base s) :
    ∃ fs bs, Shares base (ready base s.heap) fs bs ∧ List.Forall₂ Holds s.live bs := by
  rcases hs with hs | ⟨hbase, fs, bs, hshares, hlive⟩
  · refine ⟨[], [], hs.ready, ?_⟩
    rw [hs.live]
    exact .nil
  · refine ⟨fs, bs, ?_, hlive⟩
    have hfreep : s.heap.freep ≠ 0 := by
      rcases List.mem_cons.1 hshares.list.freep with heq | hin
      · omega
      · obtain ⟨c, hc, heq⟩ := List.mem_map.1 hin
        have := hshares.list.above c hc
        omega
    rwa [Source.Umalloc.ready, if_neg hfreep]

theorem Good.base_pos (hs : Good base s) : 0 < base := by
  rcases hs with hs | hs
  · exact hs.base_pos
  · exact hs.1

theorem Good.supplied_ready (base : Nat) (h : Heap) :
    (Source.Umalloc.ready base h).supplied = h.supplied ∧ (Source.Umalloc.ready base h).calls = h.calls := by
  rw [Source.Umalloc.ready]
  split <;> exact ⟨rfl, rfl⟩

/-! ## What a call keeps -/

theorem Good.malloc (hs : Good base s) {nbytes rounds : Nat} (hlegal : Legal s (.malloc nbytes))
    (hcall : call base answer rounds s (.malloc nbytes) = some t) (hroom : t.heap.supplied < 2 ^ 32) : Good base t := by
  obtain ⟨x, hscan, rfl⟩ := Option.map_eq_some_iff.1 hcall
  obtain ⟨fs, bs, hshares, hlive⟩ := hs.ready
  obtain ⟨hpos, hbytes⟩ := unitsFor_spec hlegal.1
  refine .inr ⟨hs.base_pos, ?_⟩
  rcases hshares.scan_sound hpos hscan hroom with ⟨hnull, fs', hres⟩ | ⟨a, fs', hptr, hsize, hres⟩
  · refine ⟨fs', bs, hres, ?_⟩
    show List.Forall₂ Holds (if x.1 = 0 then s.live else _) bs
    rwa [if_pos hnull]
  · refine ⟨fs', a :: bs, hres, ?_⟩
    have hne : x.1 ≠ 0 := by
      have := header_pos
      omega
    show List.Forall₂ Holds (if x.1 = 0 then s.live else _) (a :: bs)
    rw [if_neg hne]
    exact .cons ⟨hptr, hsize ▸ hbytes⟩ hlive

/-- The block of one of the allocations. -/
theorem holds_split {u v : List Alloc} {a : Alloc} {bs : List Block} (h : List.Forall₂ Holds (u ++ a :: v) bs) :
    ∃ u' b v', bs = u' ++ b :: v' ∧ Holds a b ∧ List.Forall₂ Holds (u ++ v) (u' ++ v') := by
  induction u generalizing bs with
  | nil =>
    obtain ⟨b, v', hab, hv, rfl⟩ := List.forall₂_cons_left_iff.1 h
    exact ⟨[], b, v', rfl, hab, hv⟩
  | cons x u ih =>
    obtain ⟨y, ys, hxy, hys, rfl⟩ := List.forall₂_cons_left_iff.1 h
    obtain ⟨u', b, v', rfl, hab, hrest⟩ := ih hys
    exact ⟨y :: u', b, v', rfl, hab, .cons hxy hrest⟩

theorem Good.free (hs : Good base s) {ap : Nat} (hlegal : Legal s (.free ap)) (hroom : s.heap.supplied < 2 ^ 32)
    (answer : Sbrk) :
    ∃ rounds t, call base answer rounds s (.free ap) = some t ∧ Good base t := by
  obtain ⟨a₀, ha₀, hptr₀⟩ := hlegal
  rcases hs with hs | ⟨hbase, fs, bs, hshares, hlive⟩
  · rw [hs.live] at ha₀
    exact nomatch ha₀
  obtain ⟨a, u, v, -, hptr, hsplit, herase⟩ := List.exists_of_eraseP ha₀ (p := (·.ptr = ap)) (by simpa using hptr₀)
  rw [hsplit] at hlive
  obtain ⟨u', b, v', rfl, ⟨haddr, -⟩, hrest⟩ := holds_split hlive
  have hb : b ∈ u' ++ b :: v' := by simp
  have hnot : b ∉ u' := by
    intro hin
    have hself := (List.pairwise_append.1 hshares.live_apart).2.2 b hin b List.mem_cons_self
    have := Block.lt_stop (hshares.live_pos b hb)
    rw [Apart] at hself
    omega
  obtain ⟨h', fs', hfree, hres, -⟩ := hshares.free_spec hroom hb (Nat.lt_succ_self fs.length)
  rw [List.erase_append_right _ hnot, List.erase_cons_head] at hres
  have hap : ap = b.addr + HEADER := (of_decide_eq_true hptr).symm.trans haddr
  refine ⟨fs.length + 1, ⟨h', s.live.eraseP (·.ptr = ap)⟩, ?_, .inr ⟨hbase, fs', u' ++ v', hres, ?_⟩⟩
  · rw [call, hap, hfree]
    rfl
  · rw [herase]
    exact hrest

theorem call_mono {rounds : Nat} {c : Call} (h : call base answer rounds s c = some t) (k : Nat) :
    call base answer (rounds + k) s c = some t := by
  cases c with
  | malloc nbytes =>
    obtain ⟨x, hscan, heq⟩ := Option.map_eq_some_iff.1 h
    exact Option.map_eq_some_iff.2 ⟨x, scan_mono hscan k, heq⟩
  | free ap =>
    obtain ⟨x, hfree, heq⟩ := Option.map_eq_some_iff.1 h
    exact Option.map_eq_some_iff.2 ⟨x, free_mono hfree k, heq⟩

theorem supplied_le_step (h : Step base answer s t) : s.heap.supplied ≤ t.heap.supplied := by
  obtain ⟨c, rounds, -, hcall⟩ := h
  cases c with
  | malloc nbytes =>
    obtain ⟨x, hscan, rfl⟩ := Option.map_eq_some_iff.1 hcall
    exact (Good.supplied_ready base s.heap).1 ▸ supplied_le_scan hscan
  | free ap =>
    obtain ⟨h', hfree, rfl⟩ := Option.map_eq_some_iff.1 hcall
    exact Nat.le_of_eq (free_supplied hfree).symm

theorem Good.step (hs : Good base s) (h : Step base answer s t) (hroom : t.heap.supplied < 2 ^ 32) : Good base t := by
  have hle := supplied_le_step h
  obtain ⟨c, rounds, hlegal, hcall⟩ := h
  cases c with
  | malloc nbytes => exact hs.malloc hlegal hcall hroom
  | free ap =>
    obtain ⟨n, t', hfree, hgood⟩ := hs.free hlegal (by omega) answer
    have heq := call_mono hfree rounds
    rw [Nat.add_comm, call_mono hcall n, Option.some.injEq] at heq
    rwa [heq]

theorem Good.run (hs : Good base s) (h : Run base answer s t) (hroom : t.heap.supplied < 2 ^ 32) : Good base t := by
  induction h with
  | refl => exact hs
  | tail _ hstep ih => exact (ih (Nat.lt_of_le_of_lt (supplied_le_step hstep) hroom)).step hstep hroom

/-- `sbrk` stays below `2 ^ 32` units at this call, if it is asked and succeeds. -/
def Room (answer : Sbrk) (s : Sys) : Call → Prop
  | .malloc nbytes => ∀ gap, answer s.heap.calls = some gap → s.heap.supplied + grain (unitsFor nbytes) < 2 ^ 32
  | .free _ => True

/-- The loops of a call come to their end. -/
theorem Good.returns (hs : Good base s) (hsupplied : s.heap.supplied < 2 ^ 32) {c : Call} (hlegal : Legal s c)
    (hroom : Room answer s c) : ∃ rounds t, call base answer rounds s c = some t := by
  cases c with
  | malloc nbytes =>
    obtain ⟨fs, bs, hshares, -⟩ := hs.ready
    obtain ⟨hkeep, hcalls⟩ := Good.supplied_ready base s.heap
    obtain ⟨x, hscan, -⟩ := hshares.scan_spec answer (unitsFor nbytes) (2 * fs.length + 4) (unitsFor_spec hlegal.1).1
      (fun _ gap hgap => by
        rw [hkeep]
        exact hroom gap (hcalls ▸ hgap)) (by omega)
    exact ⟨2 * fs.length + 4, _, Option.map_eq_some_iff.2 ⟨x, hscan, rfl⟩⟩
  | free ap =>
    obtain ⟨rounds, t, hcall, -⟩ := hs.free hlegal hsupplied answer
    exact ⟨rounds, t, hcall⟩

/-! ## Runs -/

/-- Legal calls, one after the other. -/
def calls (base : Nat) (answer : Sbrk) (rounds : Nat) : List Call → Sys → Option Sys
  | [], s => some s
  | c :: cs, s => if Legal s c then (call base answer rounds s c).bind (calls base answer rounds cs) else none

theorem run_of_calls {rounds : Nat} {cs : List Call} (h : calls base answer rounds cs s = some t) : Run base answer s t := by
  induction cs generalizing s with
  | nil =>
    rw [calls, Option.some.injEq] at h
    exact h ▸ .refl
  | cons c cs ih =>
    rw [calls] at h
    split at h
    · obtain ⟨s₁, hcall, hrest⟩ := Option.bind_eq_some_iff.1 h
      exact .head ⟨c, rounds, by assumption, hcall⟩ (ih hrest)
    · exact nomatch h

/-- A program whose `base` is at 16 and whose memory begins at 32. -/
def start : Sys := ⟨⟨fun _ => 0, fun _ => 0, 0, 32, 0, 0⟩, []⟩

theorem start_initial : Initial 16 start := ⟨by decide, by decide, rfl, rfl, rfl⟩

/-! ## The heap -/

/-- In every run in which `sbrk` supplies fewer than `2 ^ 32` units the heap is sound, and the loops
of every further call come to their end unless it takes `sbrk` to that bound. -/
theorem heap_sound (hs : Initial base s) (hrun : Run base answer s t) (hsupplied : t.heap.supplied < 2 ^ 32) :
    (Initial base t ∨ Sound base t) ∧
      ∀ c, Legal t c → Room answer t c → ∃ rounds t', call base answer rounds t c = some t' := by
  have hgood : Good base t := Good.run (.inl hs) hrun hsupplied
  refine ⟨hgood.imp id And.right, fun c hlegal hroom => hgood.returns hsupplied hlegal hroom⟩

/-- Two allocations, the first of which is freed. -/
theorem heap_sound_after_free :
    ∃ t, Run 16 (fun _ => some 0) start t ∧ t.live.length = 1 ∧ (Initial 16 t ∨ Sound 16 t) := by
  have hcalls : (calls 16 (fun _ => some 0) 10 [.malloc 100, .malloc 5, .free (32 + 4096 * HEADER - 112)] start).map
      (fun t => (t.heap.supplied, t.live.length)) = some (4096, 1) := by decide +kernel
  obtain ⟨t, hcalls, heq⟩ := Option.map_eq_some_iff.1 hcalls
  obtain ⟨hsupplied, hlive⟩ := Prod.mk.inj heq
  refine ⟨t, run_of_calls hcalls, hlive, (heap_sound start_initial (run_of_calls hcalls) ?_).1⟩
  rw [hsupplied]
  decide

/-! ## Sixty-four gigabytes -/

/-- The units of the largest request: two gigabytes. -/
def largest : Nat := 2 ^ 27 - 1

/-- 33 of these requests, and what they return freed in the order of the addresses. -/
def everything : List Call :=
  List.replicate 33 (.malloc ((largest - 1) * HEADER)) ++
    (List.range 33).map fun i => .free (32 + i * largest * HEADER + HEADER)

/-- The one block of the list has lost `2 ^ 32` units. -/
theorem everything_joined :
    (calls 16 (fun _ => some 0) 70 everything start).map
        (fun t => (t.heap.ptr 16, t.heap.ptr 32, t.heap.size 32, t.heap.supplied, t.live)) =
      some (32, 16, 33 * largest - 2 ^ 32, 33 * largest, []) := by
  decide +kernel

/-- Only one list goes around through two cells. -/
theorem cycle_pair {next : Nat → Nat} {a b : Nat} {l : List Nat} (hcycle : Cycle next a l) (ha : next a = b) (hb : next b = a)
    (hne : b ≠ a) (hout : a ∉ l) : l = [b] := by
  match l, hcycle with
  | [], hcycle => exact absurd (ha.symm.trans (List.isChain_cons_cons.1 hcycle).1) hne
  | [c], hcycle =>
    rw [ha.symm.trans (List.isChain_cons_cons.1 hcycle).1]
  | c :: d :: l, hcycle =>
    obtain ⟨hc, hcycle⟩ := List.isChain_cons_cons.1 hcycle
    have hd : next c = d := (List.isChain_cons_cons.1 hcycle).1
    have had : d = a := by rw [← hd, ← hc, ha, hb]
    exact absurd (by simp [had]) hout

theorem joined_size_wraps :
    ∃ t, Run 16 (fun _ => some 0) start t ∧ t.live = [] ∧ ¬ Initial 16 t ∧ ¬ Sound 16 t := by
  obtain ⟨t, hcalls, heq⟩ := Option.map_eq_some_iff.1 everything_joined
  obtain ⟨hbase, hnext, hsize, hsupplied, hlive⟩ : t.heap.ptr 16 = 32 ∧ t.heap.ptr 32 = 16 ∧
      t.heap.size 32 = 33 * largest - 2 ^ 32 ∧ t.heap.supplied = 33 * largest ∧ t.live = [] := by
    simpa using heq
  refine ⟨t, run_of_calls hcalls, hlive, fun hinit => ?_, ?_⟩
  · have := hinit.supplied
    rw [hsupplied] at this
    exact absurd this (by decide)
  · rintro ⟨fs, bs, hshares, hholds⟩
    have hlist : addrs fs = [32] := by
      refine cycle_pair hshares.list.cycle hbase hnext (by decide) fun hin => ?_
      have := List.rel_of_pairwise_cons hshares.list.sorted hin
      omega
    obtain ⟨b, rfl, haddr⟩ := List.map_eq_singleton_iff.1 hlist
    rw [hlive, List.forall₂_nil_left_iff] at hholds
    have htotal := hshares.total
    have hb := hshares.list.size b List.mem_cons_self
    rw [hholds, hsupplied, units_cons, ← hb, haddr, hsize] at htotal
    exact absurd htotal (by decide)

end Xv6.Guarantees.HeapSound
