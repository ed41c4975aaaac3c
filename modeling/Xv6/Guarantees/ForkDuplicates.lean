import Xv6.Process.Fork

/-!
# fork duplicates and isolates memory

A fork that succeeds gives the child the parent's bytes and permissions in pages of its own, its
registers but for `a0`, and its open files and working directory with one more reference each. A fork
that fails leaves everything as it was but for the pid counter and the context of the slot it tried,
which is UNUSED again.
-/
namespace Xv6.Guarantees.ForkDuplicates

open Xv6.Source.System Xv6.Vm Xv6.Process
open Xv6.Source.Vm (Mem Pagetable PGSIZE PTE_FLAGS index)
open Xv6.Source.Ptable (Slot)
open Xv6.Source.Proc (NOFILE)
open Xv6.Source.Tables (NFILE)

variable {s : Sys} {p np : Slot} {t : Pagetable} {tf cwd : Nat} {own : Multiset Nat} {a b : UInt64}

/-! ## What the caller sees -/

/-- Nothing has changed but the pid counter, the contexts of slots that are UNUSED, and what free
pages hold. -/
structure Unchanged (s s' : Sys) : Prop where
  slots : ∀ i, { s'.proc i with context := (s.proc i).context } = s.proc i
  used : ∀ i, (s.proc i).state ≠ .unused → s'.proc i = s.proc i
  free : memory.free s'.mem = memory.free s.mem
  bytes : ∀ x, (∀ pa ∈ memory.free s.mem, ¬ InPage pa x) → s'.mem.byte x = s.mem.byte x
  file : s'.file = s.file
  iref : s'.iref = s.iref

/-- The process in slot `np` is a copy of process `p`, in pages that nobody else has. -/
structure Duplicated (s : Sys) (p : Slot) (t : Pagetable) (tf cwd : Nat) (own : Multiset Nat) (r : Int) (s' : Sys) (np : Slot)
    (t' : Pagetable) (tf' : Nat) : Prop where
  unused : (s.proc np).state = .unused
  others : ∀ i, i ≠ np → s'.proc i = s.proc i
  child : (s'.proc np).pagetable = some t' ∧ (s'.proc np).trapframe = some tf' ∧ (s'.proc np).sz = (s.proc p).sz ∧
    (s'.proc np).state = .runnable ∧ (s'.proc np).parent = some p ∧ (s'.proc np).pid = s.nextpid ∧ r = s.nextpid.toInt
  bytes : ∀ va < (s.proc p).sz, s'.mem.byte (translate t' va) = s.mem.byte (translate t va)
  permissions : ∀ va < (s.proc p).sz, PTE_FLAGS (t'.get (index va)) = PTE_FLAGS (t.get (index va))
  apart : Apart s'.mem (processPages t' (s.proc p).sz tf' + (processPages t (s.proc p).sz tf + own))
  kept : ∀ pa ∈ processPages t (s.proc p).sz tf + own, ∀ x, InPage pa x → s'.mem.byte x = s.mem.byte x
  registers : ∀ i < trapframeSize, s'.mem.byte (tf' + i) = if a0Offset ≤ i ∧ i < a0Offset + 8 then 0 else s.mem.byte (tf + i)
  ofile : (s'.proc np).ofile = (s.proc p).ofile
  directory : (s'.proc np).cwd = (s.proc p).cwd
  file : ∀ f, s'.file f = File.more (s.file f) (uses (s.proc p).ofile (List.finRange NOFILE) f)
  iref : ∀ ip, s'.iref ip = s.iref ip + if ip = cwd then 1 else 0

theorem unchanged_of_gaveUp {s' : Sys} (h : GaveUp s s') : Unchanged s s' := by
  cases h with
  | full => exact ⟨fun _ => rfl, fun _ _ => rfl, rfl, fun _ _ => rfl, rfl, rfl⟩
  | freed unused moves =>
    rename_i np m' c
    have hother : ∀ i, i ≠ np → (during s np ⟨m', { s.proc np with context := c }, s.file, s.iref⟩).proc i = s.proc i :=
      fun i hi => Function.update_of_ne hi _ _
    have hself : (during s np ⟨m', { s.proc np with context := c }, s.file, s.iref⟩).proc np = { s.proc np with context := c } :=
      Function.update_self ..
    refine ⟨fun i => ?_, fun i hi => hother i ?_, moves.free_eq, fun x hx => ?_, rfl, rfl⟩
    · by_cases hi : i = np
      · rw [hi, hself]
      · rw [hother i hi]
    · rintro rfl
      exact hi unused
    · exact moves.kept x (by rwa [add_zero])

theorem page_lt_count {va sz : Nat} (h : va < sz) : va / PGSIZE < pageCount sz := by
  refine Nat.lt_of_not_le fun hle => ?_
  exact Nat.not_le.2 h (Nat.le_trans (pageCount_le.1 hle) (Nat.div_mul_le_self va PGSIZE))

theorem translate_eq (t : Pagetable) (va : Nat) : translate t va = frame t (va / PGSIZE) + va % PGSIZE := by
  rw [Vm.translate, index_eq]
  rfl

theorem duplicated_of_child (h : Parent s p t tf cwd own a b) {t' : Pagetable} {tf' : Nat} {m' : Mem} {file' : Fin NFILE → File}
    (hunused : (s.proc np).state = .unused) (hchild : ChildMemory s.mem t (s.proc p).sz tf m' t' tf')
    (hcounted : ∀ f, file' f = File.more (s.file f) (uses (s.proc p).ofile (List.finRange NOFILE) f)) :
    Duplicated s p t tf cwd own s.nextpid.toInt
      (during s np ⟨m', forked s p np t' tf' cwd, file', Function.update s.iref cwd (s.iref cwd + 1)⟩) np t' tf' := by
  have hself : (during s np ⟨m', forked s p np t' tf' cwd, file', Function.update s.iref cwd (s.iref cwd + 1)⟩).proc np =
      forked s p np t' tf' cwd := Function.update_self ..
  have hmoves := (hchild.moves.frame (processPages t (s.proc p).sz tf + own)).congr (zero_add _) rfl
  refine ⟨hunused, fun i hi => Function.update_of_ne hi _ _, ?_, fun va hva => ?_, fun va hva => ?_,
    h.memory.apart.moves hmoves, fun pa hpa x hx => ?_, hchild.registers, ?_, ?_, hcounted, fun ip => ?_⟩
  · rw [hself]
    exact ⟨rfl, rfl, rfl, rfl, rfl, rfl, rfl⟩
  · rw [translate_eq, translate_eq]
    exact hchild.bytes _ (page_lt_count hva) _ (Nat.mod_lt _ pgsize_pos)
  · rw [index_eq]
    exact hchild.flags _ (page_lt_count hva)
  · have hle : {pa} ≤ processPages t (s.proc p).sz tf + own := Multiset.singleton_le.2 hpa
    exact kept_of_free hchild.moves (h.memory.sound.mono hle) (h.memory.apart.mono hle) hx
  · rw [hself]
    rfl
  · rw [hself, h.cwd]
    rfl
  · show Function.update s.iref cwd (s.iref cwd + 1) ip = _
    rw [Function.update_apply]
    split_ifs with hip
    · rw [hip]
    · rw [add_zero]

end Xv6.Guarantees.ForkDuplicates
