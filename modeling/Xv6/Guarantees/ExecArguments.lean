import Xv6.Process.Exec

/-!
# exec lays out arguments faithfully

When exec succeeds the vector at `sp` and the strings that it points to are in the stack page of the
new image, one after the other, and the registers say where. The pushes write to the stack page only,
and arguments that do not fit in it make exec fail.
-/
namespace Xv6.Guarantees.ExecArguments

open Xv6.Source Xv6.Source.System Xv6.Source.Exec Xv6.Vm Xv6.Process
open Xv6.Source.Vm (Pagetable PGSIZE PHYSTOP bytesAt)
open Xv6.Source.Ptable (Slot)

variable {s : Sys} {p : Slot} {t : Pagetable} {tf : Nat} {own : Multiset Nat} {content path : List UInt8}
  {argv : List (List UInt8)}

/-- A register of the trapframe at `tf`. -/
def register (byte : Nat → UInt8) (tf off : Nat) : Nat := le (bytesAt byte (tf + off) 8)

/-- The user has the top page of memory of `sz` bytes, and not the page below it. -/
structure Stack (t : Pagetable) (sz : Nat) : Prop where
  size : 2 * PGSIZE ≤ sz
  page : ∀ va, sz - PGSIZE ≤ va → va < sz → Accessible t va
  guarded : ∀ va, sz - 2 * PGSIZE ≤ va → va < sz - PGSIZE → ¬ Accessible t va

/-- A process that is about to run `main(argc, argv)`. -/
structure Started (s' : Sys) (p : Slot) (tf : Nat) (argv : List (List UInt8)) (t' : Pagetable) (sz' sp : Nat)
    (addr : Fin argv.length → Nat) : Prop where
  pagetable : (s'.proc p).pagetable = some t'
  size : (s'.proc p).sz = sz'
  stack : Stack t' sz'
  arguments : Arguments t' s'.mem.byte argv (sz' - PGSIZE) sz' sp addr
  stackPointer : register s'.mem.byte tf spOffset = sp
  a1 : register s'.mem.byte tf a1Offset = sp

theorem bytesAt_write {pa n : Nat} {bytes : List UInt8} (h : bytes.length = n) (byte : Nat → UInt8) :
    bytesAt (Xv6.Source.Vm.write pa bytes byte) pa n = bytes := by
  subst h
  refine List.ext_getElem (by simp [bytesAt]) fun i hi hi' => ?_
  simp only [bytesAt, List.getElem_map, List.getElem_range]
  exact write_inside hi' byte

theorem bytesAt_congr {byte byte' : Nat → UInt8} {pa n : Nat} (h : ∀ i < n, byte' (pa + i) = byte (pa + i)) :
    bytesAt byte' pa n = bytesAt byte pa n :=
  List.map_congr_left fun i hi => h i (List.mem_range.1 hi)

theorem register_sp {sp : Nat} (hsp : sp < 2 ^ 64) (tf entry : Nat) (byte : Nat → UInt8) :
    register (setRegisters tf sp entry byte) tf spOffset = sp := by
  rw [register, setRegisters, bytesAt_write (length_leBytes 8 sp)]
  exact le_leBytes hsp

theorem register_a1 {sp : Nat} (hsp : sp < 2 ^ 64) (tf entry : Nat) (byte : Nat → UInt8) :
    register (setRegisters tf sp entry byte) tf a1Offset = sp := by
  have hlast : ∀ off v f, off + 8 ≤ a1Offset →
      bytesAt (Xv6.Source.Vm.write (tf + off) (leBytes 8 v) f) (tf + a1Offset) 8 = bytesAt f (tf + a1Offset) 8 := by
    intro off v f hoff
    refine bytesAt_congr fun i hi => write_outside (.inr ?_) f
    rw [length_leBytes]
    omega
  rw [register, setRegisters, hlast spOffset _ _ (by decide), hlast epcOffset _ _ (by decide), bytesAt_write (length_leBytes 8 sp)]
  exact le_leBytes hsp

theorem stack_of_page {t' : Pagetable} {k : Nat} (hpage : StackPage t' k) (hguard : pte t' k &&& Xv6.Source.Vm.PTE_U = 0) :
    Stack t' ((k + 2) * PGSIZE) := by
  have hbase : (k + 2) * PGSIZE - PGSIZE = (k + 1) * PGSIZE := by
    simp only [PGSIZE]
    omega
  have hlow : (k + 2) * PGSIZE - 2 * PGSIZE = k * PGSIZE := by
    simp only [PGSIZE]
    omega
  refine ⟨Nat.mul_le_mul_right _ (by omega), ?_, ?_⟩
  · rw [hbase]
    exact fun va hva hlt => (hpage.accessible va hva).2 hlt
  · rw [hbase, hlow]
    intro va hva hlt hacc
    have hv : va / PGSIZE = k :=
      Nat.le_antisymm (Nat.lt_succ_iff.1 ((Nat.div_lt_iff_lt_mul pgsize_pos).2 hlt)) ((Nat.le_div_iff_mul_le pgsize_pos).2 hva)
    have huser := hacc.2.2.1
    rw [index_eq, hv] at huser
    exact huser hguard

/-- A success of exec, seen from the new process. -/
theorem started_of_execs {r : Int} {s' : Sys} {entry : Nat} (h : Execs s p t tf path argv entry r s') (hr : r ≠ -1) :
    r = argv.length ∧ stackBytes argv ≤ PGSIZE ∧ ∃ t' sz' sp addr, Started s' p tf argv t' sz' sp addr := by
  cases h with
  | failed => exact absurd rfl hr
  | @done t' k sp m' maps guarded stack moves laidOut registers =>
    have hbase : (k + 2) * PGSIZE - PGSIZE = (k + 1) * PGSIZE := by
      simp only [PGSIZE]
      omega
    have hsp : sp < 2 ^ 64 := by
      have htop := laidOut.top
      have hsmall := stack.small
      simp only [PGSIZE, userPages_eq] at htop hsmall
      omega
    have hregs : ∀ off, off + 8 ≤ PGSIZE →
        register m'.byte tf off = register (setRegisters tf sp entry s.mem.byte) tf off := by
      intro off hoff
      refine congrArg le (bytesAt_congr fun i hi => registers _ ?_)
      rw [Nat.add_assoc]
      exact inPage_add (by omega)
    have hargs := laidOut.arguments
    rw [← hbase] at hargs
    have hproc : (withSlot s p m' (replaced (s.proc p) t' ((k + 2) * PGSIZE) path)).proc p = replaced (s.proc p) t' ((k + 2) * PGSIZE) path :=
      Function.update_self ..
    refine ⟨rfl, laidOut.fits, t', (k + 2) * PGSIZE, sp, _, ?_, ?_, stack_of_page stack guarded, hargs, ?_, ?_⟩
    · rw [hproc]
      rfl
    · rw [hproc]
      rfl
    · exact (hregs spOffset (by decide)).trans (register_sp hsp tf entry _)
    · exact (hregs a1Offset (by decide)).trans (register_a1 hsp tf entry _)

/-- exec lays out the arguments in the stack page or fails, and fails if they do not fit; nothing but the
stack page is written to. -/
theorem exec_lays_out_arguments (hc : Caller s p t tf own) (hram : s.mem.ram.stop = PHYSTOP) (hcontent : content.length ≤ MAXFILE * BSIZE)
    {found : Option Nat} (hfound : ∀ ip, found = some ip → Unheld s ip) (path : List UInt8) {argv : List (List UInt8)} (hargc : argv.length ≤ MAXARG - 1) :
    (∃ r s', exec p found content path argv s = .ok (r, s') ∧
      (r = -1 ∨ r = argv.length ∧ ∃ t' sz' sp addr, Started s' p tf argv t' sz' sp addr) ∧
      (PGSIZE < stackBytes argv → r = -1)) ∧
    ∀ t' k m, StackPage t' k → ∃ r m', pushArgs t' ((k + 2) * PGSIZE) argv m = .ok (r, m') ∧
      ∀ x, ¬ InPage (frame t' (k + 1)) x → m'.byte x = m.byte x := by
  have hargc' : argv.length < MAXARG := Nat.lt_of_le_of_lt hargc (by decide)
  refine ⟨?_, fun t' k m hstack => ?_⟩
  · have hroom : (memory.free s.mem).card ≤ userPages := by
      have hall := room_of_phystop hc.memory.sound hc.memory.apart hram
      rw [Multiset.card_add] at hall
      omega
    have hsmall : content.length < 2 ^ 31 := Nat.lt_of_le_of_lt hcontent (by decide)
    obtain ⟨r, s', hrun, hexecs⟩ := exec_ends hc hroom hargc' hsmall hfound path
    refine ⟨r, s', hrun, ?_⟩
    by_cases hr : r = -1
    · exact ⟨.inl hr, fun _ => hr⟩
    · obtain ⟨hargc, hfits, hstarted⟩ := started_of_execs hexecs hr
      exact ⟨.inr ⟨hargc, hstarted⟩, fun hlarge => absurd hfits (Nat.not_le_of_lt hlarge)⟩
  · obtain ⟨r, m', hrun, hwrites, -⟩ := pushArgs_spec hstack hargc' m
    exact ⟨r, m', hrun, hwrites.outside⟩

/-- A program without segments. -/
def emptyProgram : List UInt8 := [0x7f, 0x45, 0x4c, 0x46] ++ List.replicate 60 0

/-- The first process runs `e a bc`. -/
theorem exec_lays_out_arguments_two : ∃ t m s', Caller (oneProcess t m) 0 t lastPage 0 ∧
    exec 0 (some 1) emptyProgram [101] [[97], [98, 99]] (oneProcess t m) = .ok (2, s') ∧
      ∃ t' sz' sp addr, Started s' 0 lastPage [[97], [98, 99]] t' sz' sp addr := by
  obtain ⟨t, m, hfirst, hpage⟩ := first_page (show 20 ≤ 100 by decide) (by decide +kernel)
  have hram : m.ram = (boot 20).ram := hpage.moves.fixed
  have hc := caller_oneProcess (by decide) hpage
  have hstop : (oneProcess t m).mem.ram.stop = PHYSTOP := by
    show m.ram.stop = PHYSTOP
    rw [hram]
    rfl
  have hfound : ∀ ip, some 1 = some ip → Unheld (oneProcess t m) ip := by
    rintro ip ⟨⟩
    exact unheld_oneProcess t m (by decide)
  obtain ⟨⟨r, s', hrun, hr, -⟩, -⟩ := exec_lays_out_arguments hc hstop (show emptyProgram.length ≤ MAXFILE * BSIZE by decide) hfound [101]
    (show [[97], [98, 99]].length ≤ MAXARG - 1 by decide)
  have heval : ((firstSpace 4096 (boot 20)).toOption.bind fun o => o.1.bind fun q =>
      (exec 0 (some 1) emptyProgram [101] [[97], [98, 99]] (oneProcess q.2.2 o.2)).toOption.map fun o => o.1) = some 2 := by
    decide +kernel
  rw [hfirst] at heval
  have hvalue : (exec 0 (some 1) emptyProgram [101] [[97], [98, 99]] (oneProcess t m)).toOption.map (fun o => o.1) = some 2 := heval
  rw [hrun] at hvalue
  obtain rfl : r = 2 := Option.some.inj hvalue
  exact ⟨t, m, s', hc, hrun, (hr.resolve_left (by decide)).2⟩

end Xv6.Guarantees.ExecArguments
