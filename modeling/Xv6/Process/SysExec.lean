import Xv6.Process.Exec

/-!
# sys_exec

The strings of the user's vector go to pages that `sys_exec` takes and frees again, whatever becomes of
the call.
-/
namespace Xv6.Process

open Xv6.Library.Total Xv6.Source.System Xv6.Source.Exec Xv6.Vm
open Xv6.Source.Vm (Mem Pagetable PGSIZE)
open Xv6.Source.Ptable (Slot)

variable {s s₂ : Sys} {p : Slot} {t : Pagetable} {tf sz : Nat} {own : Multiset Nat} {m m' m₁ : Mem} {pas : List Nat}
  {content path : List UInt8} {argv : List (List UInt8)} {entry : Nat} {r : Int}

theorem fetchArg_ends (t : Pagetable) (sz addr : Nat) (m : Mem) : Ends (fetchArg t sz addr) m fun _ m' => m' = m := by
  rw [fetchArg]
  split_ifs with hout
  · exact .ret rfl
  · obtain ⟨k, -, hrun⟩ := copyin_eq t addr 8 m
    refine .step hrun ?_
    by_cases hall : (if k = 8 then (0 : Int) else -1) = 0
    · dsimp only
      rw [if_pos hall]
      exact .ret rfl
    · dsimp only
      rw [if_neg hall]
      exact .ret rfl

theorem coe_append_page (pas : List Nat) (pa : Nat) : (↑(pas ++ [pa]) : Multiset Nat) = {pa} + ↑pas := by
  rw [← Multiset.coe_add, add_comm, Multiset.coe_singleton]

/-- What the strings take is in the list. -/
theorem fetchArgs_ends (t : Pagetable) (sz uargv : Nat) (argv : List (List UInt8)) {n : Nat} (hcount : argv.length + n ≤ MAXARG)
    (pas : List Nat) (m : Mem) :
    Ends (fetchArgs t sz uargv n pas argv) m fun r m' => memory.Moves m pas m' r.1 ∧
      ∀ argv', r.2 = some argv' → argv'.length < MAXARG := by
  induction n generalizing argv pas m with
  | zero => exact .ret ⟨.refl _ _, by rintro _ ⟨⟩⟩
  | succ n ih =>
    rw [fetchArgs]
    refine .bind (fetchArg_ends t sz _ m) ?_
    rintro (_ | uarg) m hm
    · subst hm
      exact .ret ⟨.refl _ _, by rintro _ ⟨⟩⟩
    subst hm
    dsimp only
    by_cases hnull : uarg = 0
    · rw [if_pos hnull]
      refine .ret ⟨.refl _ _, ?_⟩
      rintro _ ⟨⟩
      omega
    rw [if_neg hnull]
    refine .bind (kalloc_spec m) ?_
    rintro (_ | pa) m₁ htaken
    · exact .ret ⟨(htaken.frame _).congr (zero_add _) (zero_add _), by rintro _ ⟨⟩⟩
    obtain ⟨k, r, hreach, hrun⟩ := copyinstr_eq t uarg PGSIZE m₁
    have hlen : (bytesVa t m₁.byte uarg k).length = k := by rw [bytesVa, List.length_map, List.length_range]
    refine .step hrun ?_
    have hstored : ∀ bytes : List UInt8, bytes.length ≤ PGSIZE → Ends (Xv6.Source.Vm.memmove pa bytes) m₁ fun _ m₂ =>
        memory.Moves m (↑pas) m₂ ↑(pas ++ [pa]) := fun bytes hbytes =>
      (memmove_spec hbytes m₁ pa).mono fun _ m₂ hm₂ => ((htaken.trans hm₂).frame ↑pas).congr (zero_add _) (coe_append_page pas pa).symm
    dsimp only
    cases hreach with
    | stops reach text =>
      rw [if_pos (by decide)]
      refine .bind (hstored _ (by rw [hlen]; exact reach.le)) fun _ m₂ hm₂ => ?_
      exact .ret ⟨hm₂, by rintro _ ⟨⟩⟩
    | ends lt accessible text nul =>
      rw [if_neg (by decide)]
      refine .bind (hstored _ (by rw [List.length_append, hlen]; exact lt)) fun _ m₂ hm₂ => ?_
      have hnext : (argv ++ [bytesVa t m₁.byte uarg k]).length + n ≤ MAXARG := by
        rw [List.length_append, List.length_singleton]
        omega
      exact (ih _ hnext _ m₂).mono fun r m₃ hr => ⟨hm₂.trans hr.1, hr.2⟩

theorem freeArgs_ends (pas : List Nat) (h : ∀ pa ∈ pas, IsPage m.ram pa) :
    Ends (freeArgs pas) m fun _ m' => memory.Moves m pas m' 0 := by
  induction pas generalizing m with
  | nil => exact .ret (.refl _ _)
  | cons pa pas ih =>
    refine .bind (kfree_spec (h pa List.mem_cons_self)) fun _ m₁ hm₁ => ?_
    have hram : m₁.ram = m.ram := hm₁.fixed
    refine (ih fun pa' hpa' => hram ▸ h pa' (List.mem_cons_of_mem _ hpa')).mono fun _ m₂ hm₂ => ?_
    refine ((hm₁.frame ↑pas).congr ?_ (zero_add _)).trans hm₂
    rw [Multiset.singleton_add, Multiset.cons_coe]

/-- Pages that were taken before exec and are freed after it make no difference. -/
theorem Execs.freeArgs (hc : Caller s p t tf own) (htaken : memory.Moves s.mem 0 m₁ pas)
    (h : Execs { s with mem := m₁ } p t tf path argv entry r s₂) :
    Ends (onMem (freeArgs pas)) s₂ fun _ s₃ => Execs s p t tf path argv entry r s₃ := by
  have hall : memory.Moves s.mem (processPages t (s.proc p).sz tf + own) m₁ (↑pas + (processPages t (s.proc p).sz tf + own)) :=
    (htaken.frame _).congr (zero_add _) rfl
  have hsound := hc.memory.sound.moves hall
  have hapart := hc.memory.apart.moves hall
  cases h with
  | @failed m₂ moves =>
    have hsound₂ : Sound m₂ ↑pas := (hsound.mono (Multiset.le_add_right _ _)).moves ((moves.frame ↑pas).congr (zero_add _) (zero_add _))
    refine (onMem_ends (s := { s with mem := m₂ }) (freeArgs_ends pas fun pa hpa => hsound₂.own hpa)).mono ?_
    rintro - _ ⟨m₃, rfl, hfreed⟩
    exact .failed ((htaken.trans ((moves.frame ↑pas).congr (zero_add _) (zero_add _))).trans hfreed)
  | @done t' k sp m₂ maps guarded stack moves laidOut registers =>
    have hmoves₂ : memory.Moves m₁ (↑pas + (processPages t (s.proc p).sz tf + own)) m₂
        (↑pas + (processPages t' ((k + 2) * PGSIZE) tf + own)) := (moves.frame own).frame_left ↑pas
    have hsound₂ := hsound.moves hmoves₂
    have hapart₂ := hapart.moves hmoves₂
    refine (onMem_withSlot _ (freeArgs_ends pas fun pa hpa => hsound₂.own (Multiset.mem_add.2 (.inl hpa)))).mono ?_
    rintro - _ ⟨m₃, rfl, hfreed⟩
    have hkept : ∀ pa ∈ processPages t' ((k + 2) * PGSIZE) tf, ∀ x, InPage pa x → m₃.byte x = m₂.byte x := by
      intro pa hpa x hx
      have hle : (↑pas : Multiset Nat) + {pa} ≤ ↑pas + (processPages t' ((k + 2) * PGSIZE) tf + own) :=
        add_le_add_right ((Multiset.singleton_le.2 hpa).trans (Multiset.le_add_right _ _)) _
      exact byte_kept hfreed (hsound₂.mono hle) (hapart₂.mono hle) hx
    have htf : {tf} ≤ processPages t (s.proc p).sz tf + own :=
      Multiset.singleton_le.2 (Multiset.mem_add.2 (.inl (Multiset.mem_add.2 (.inr (Multiset.mem_singleton_self tf)))))
    have hram : m₁.ram = s.mem.ram := htaken.fixed
    refine .done (hram ▸ maps) guarded stack ?_ (laidOut.congr fun x hx => hkept _ ?_ x hx) fun x hx => ?_
    · have hstart := (htaken.frame (processPages t (s.proc p).sz tf)).congr (zero_add _) rfl
      exact (hstart.trans (moves.frame_left ↑pas)).trans ((hfreed.frame _).congr rfl (zero_add _))
    · rw [processPages, page_count_two]
      exact Multiset.mem_add.2 (.inl (mem_space.2 (.inr (mem_frames.2 ⟨k + 1, Nat.zero_le _, by omega, rfl⟩))))
    · rw [hkept tf (Multiset.mem_add.2 (.inr (Multiset.mem_singleton_self tf))) x hx, registers x hx]
      exact setRegisters_congr (kept_of_free htaken (hc.memory.sound.mono htf) (hc.memory.apart.mono htf) hx) tf sp entry

/-- `sys_exec` does what exec does, for some strings. -/
theorem sysExec_ends (hc : Caller s p t tf own) (hroom : (memory.free s.mem).card ≤ userPages) (hcontent : content.length < 2 ^ 31)
    {found : Option Nat} (hfound : ∀ ip, found = some ip → Unheld s ip) (uargv : Nat) :
    Ends (sysExec p found content path uargv) s fun r s' =>
      ∃ argv, argv.length < MAXARG ∧ Execs s p t tf path argv (entryOf content) r s' := by
  refine .step (show getProc p s = .ok (s.proc p, s) from rfl) ?_
  rw [hc.pagetable]
  refine .step (show deref (some t) s = .ok (t, s) from rfl) ?_
  refine .bind (onMem_ends (fetchArgs_ends t _ uargv [] (Nat.le_refl _) [] s.mem)) ?_
  rintro ⟨pas, o⟩ _ ⟨m₁, rfl, hfetched, hargs⟩
  have htaken : memory.Moves s.mem 0 m₁ ↑pas := hfetched
  have hall : memory.Moves s.mem (processPages t (s.proc p).sz tf + own) m₁ (processPages t (s.proc p).sz tf + (own + ↑pas)) :=
    (htaken.frame _).congr (zero_add _) (by abel)
  have hsound := hc.memory.sound.moves hall
  have hapart := hc.memory.apart.moves hall
  cases o with
  | none =>
    have hpas : ∀ pa ∈ pas, IsPage m₁.ram pa := fun pa hpa =>
      hsound.own (Multiset.mem_add.2 (.inr (Multiset.mem_add.2 (.inr hpa))))
    refine .bind (onMem_ends (s := { s with mem := m₁ }) (freeArgs_ends pas hpas)) ?_
    rintro - _ ⟨m₂, rfl, hfreed⟩
    exact .ret ⟨[], by decide, .failed (htaken.trans hfreed)⟩
  | some argv =>
    have hargc := hargs argv rfl
    have hram : m₁.ram = s.mem.ram := htaken.fixed
    have hc₁ : Caller { s with mem := m₁ } p t tf (own + ↑pas) := by
      refine ⟨hc.pagetable, hc.trapframe, ?_, hsound, hapart⟩
      show Maps t (pageCount (s.proc p).sz) (trampolinePte m₁.ram) (trapframePte tf)
      rw [hram]
      exact hc.memory.maps
    have hroom₁ : (memory.free m₁).card ≤ userPages := by
      have hcard := htaken.card
      rw [Multiset.card_zero] at hcard
      omega
    have hfound₁ : ∀ ip, found = some ip → Unheld { s with mem := m₁ } ip := fun ip hip => ⟨(hfound ip hip).1, (hfound ip hip).2⟩
    refine .bind (exec_ends hc₁ hroom₁ hargc hcontent hfound₁ path) fun r s₂ hexecs => ?_
    refine .bind (hexecs.freeArgs hc htaken) fun _ s₃ hdone => ?_
    exact .ret ⟨argv, hargc, hdone⟩

end Xv6.Process
