import Xv6.Process.SysExec

/-!
# exec is all or nothing

Whatever the file holds and wherever memory runs out, `exec` and `sys_exec` return. A call that fails
leaves the system as it was, but for what free pages hold and their order; one that succeeds has put the
new image in the place of the old one, whose pages are free.
-/
namespace Xv6.Guarantees.ExecAllOrNothing

open Xv6.Source Xv6.Source.System Xv6.Source.Exec Xv6.Vm Xv6.Process
open Xv6.Source.Vm (Pagetable PGSIZE)
open Xv6.Source.Ptable (Slot)

variable {s s' : Sys} {p : Slot} {t t' : Pagetable} {tf sz' : Nat} {own : Multiset Nat} {content path : List UInt8}
  {argv : List (List UInt8)} {entry : Nat} {r : Int}

/-- Only free pages have changed. -/
structure Untouched (s s' : Sys) : Prop where
  system : s' = { s with mem := s'.mem }
  free : memory.free s'.mem = memory.free s.mem
  bytes : ∀ x, (∀ pa ∈ memory.free s.mem, ¬ InPage pa x) → s'.mem.byte x = s.mem.byte x

/-- A new image for process `p`, with the table `t'`. The pages of the new image were free, or are those
of the old one. -/
structure Installed (s : Sys) (p : Slot) (t : Pagetable) (tf : Nat) (own : Multiset Nat) (path : List UInt8) (s' : Sys) (t' : Pagetable)
    (sz' : Nat) : Prop where
  system : s' = { s with mem := s'.mem, proc := Function.update s.proc p (replaced (s.proc p) t' sz' path) }
  image : InMemory s'.mem t' sz' tf own (trampolinePte s.mem.ram) (trapframePte tf)
  freed : memory.free s'.mem + space t' (pageCount sz') = memory.free s.mem + space t (pageCount (s.proc p).sz)
  others : ∀ pa ∈ own, ∀ x, InPage pa x → s'.mem.byte x = s.mem.byte x

/-- The outcomes of a call that has read the arguments `argv`. -/
def AllOrNothing (s : Sys) (p : Slot) (t : Pagetable) (tf : Nat) (own : Multiset Nat) (path : List UInt8) (argv : List (List UInt8))
    (r : Int) (s' : Sys) : Prop :=
  r = -1 ∧ Untouched s s' ∨ r = argv.length ∧ ∃ t' sz', Installed s p t tf own path s' t' sz'

theorem allOrNothing_of_execs (hc : Caller s p t tf own) (h : Execs s p t tf path argv entry r s') :
    AllOrNothing s p t tf own path argv r s' := by
  cases h with
  | failed moves =>
    refine .inl ⟨rfl, rfl, moves.free_eq, fun x hx => moves.kept x ?_⟩
    rw [add_zero]
    exact hx
  | @done t' k sp m' maps guarded stack moves laidOut registers =>
    have hall := moves.frame own
    refine .inr ⟨rfl, t', (k + 2) * PGSIZE, rfl, ⟨?_, hc.memory.sound.moves hall, hc.memory.apart.moves hall⟩, ?_, fun pa hpa x hx => ?_⟩
    · rw [page_count_two]
      exact maps
    · have hbalance := moves.balance
      rw [processPages, processPages, ← add_assoc, ← add_assoc] at hbalance
      exact add_right_cancel hbalance
    · have hle : processPages t (s.proc p).sz tf + {pa} ≤ processPages t (s.proc p).sz tf + own :=
        add_le_add_right (Multiset.singleton_le.2 hpa) _
      exact byte_kept moves (hc.memory.sound.mono hle) (hc.memory.apart.mono hle) hx

/-- exec and `sys_exec` return, and are all or nothing. -/
theorem exec_all_or_nothing (hc : Caller s p t tf own) (hroom : (memory.free s.mem + (processPages t (s.proc p).sz tf + own)).card < userPages)
    (hcontent : content.length ≤ MAXFILE * BSIZE) {found : Option Nat} (hfound : ∀ ip, found = some ip → Unheld s ip) (path : List UInt8) :
    (∀ argv : List (List UInt8), argv.length ≤ MAXARG - 1 →
      ∃ r s', exec p found content path argv s = .ok (r, s') ∧ AllOrNothing s p t tf own path argv r s') ∧
    ∀ uargv, ∃ r s' argv, sysExec p found content path uargv s = .ok (r, s') ∧ argv.length ≤ MAXARG - 1 ∧
      AllOrNothing s p t tf own path argv r s' := by
  have hfree : (memory.free s.mem).card ≤ userPages := by
    rw [Multiset.card_add] at hroom
    omega
  have hsmall : content.length < 2 ^ 31 := Nat.lt_of_le_of_lt hcontent (by decide)
  refine ⟨fun argv hargc => ?_, fun uargv => ?_⟩
  · obtain ⟨r, s', hrun, hexecs⟩ := exec_ends hc hfree (Nat.lt_of_le_of_lt hargc (by decide)) hsmall hfound path
    exact ⟨r, s', hrun, allOrNothing_of_execs hc hexecs⟩
  · obtain ⟨r, s', hrun, argv, hargc, hexecs⟩ := sysExec_ends hc hfree hsmall hfound uargv
    exact ⟨r, s', argv, hrun, Nat.le_sub_one_of_lt hargc, allOrNothing_of_execs hc hexecs⟩

/-- A file that is no program leaves the first process as it was. -/
theorem exec_all_or_nothing_garbage : ∃ t m s', Caller (oneProcess t m) 0 t lastPage 0 ∧
    exec 0 (some 1) [1, 2, 3] [101] [] (oneProcess t m) = .ok (-1, s') ∧ Untouched (oneProcess t m) s' := by
  obtain ⟨t, m, hfirst, hpage⟩ := first_page (show 20 ≤ 100 by decide) (by decide +kernel)
  have hc := caller_oneProcess (by decide) hpage
  have hroom : (memory.free m + (processPages t 4096 lastPage + 0)).card < userPages := by
    have hcard : (memory.free m).card + (space t (pageCount 4096)).card = 20 + 0 := hpage.moves.card
    rw [Multiset.card_add, add_zero, processPages, Multiset.card_add, Multiset.card_singleton, userPages_eq]
    omega
  have hfound : ∀ ip, some 1 = some ip → Unheld (oneProcess t m) ip := by
    rintro ip ⟨⟩
    exact unheld_oneProcess t m (by decide)
  obtain ⟨r, s', hrun, hr⟩ := (exec_all_or_nothing hc hroom (show [1, 2, 3].length ≤ MAXFILE * BSIZE by decide) hfound [101]).1 [] (by decide)
  have heval : (exec 0 (some 1) [1, 2, 3] [101] [] (oneProcess t m)).toOption.map (fun o => o.1) = some (-1) := rfl
  rw [hrun] at heval
  obtain rfl : r = -1 := Option.some.inj heval
  rcases hr with ⟨-, huntouched⟩ | ⟨hargc, -⟩
  · exact ⟨t, m, s', hc, hrun, huntouched⟩
  · exact absurd hargc (by decide)

end Xv6.Guarantees.ExecAllOrNothing
