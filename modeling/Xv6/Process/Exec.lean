import Xv6.Process.Fork
import Xv6.Vm.Stack

/-!
# exec

What `exec` leaves, for every file and every point at which memory runs out: the new image in place of
the old one, or the system as it was. The new page table is built from free pages only, so the caller's
memory is not touched before the commit, and on each way out all pages of one of the two tables are freed.
-/
namespace Xv6.Process

open Xv6.Library.Total Xv6.Source.System Xv6.Source.Exec Xv6.Vm
open Xv6.Source.Vm (Mem Ram Pagetable PGSIZE PGROUNDUP PTE_U word write TRAPFRAME)
open Xv6.Source.Ptable (Slot)

variable {s : Sys} {p : Slot} {t t' : Pagetable} {tf sz k sp entry ip : Nat} {own : Multiset Nat} {m m' : Mem}
  {a b : UInt64} {content path : List UInt8} {argv : List (List UInt8)}

/-- The system with another memory and another process in slot `p`. -/
def withSlot (s : Sys) (p : Slot) (m : Mem) (q : Proc) : Sys := { s with mem := m, proc := Function.update s.proc p q }

theorem withSlot_self (s : Sys) (p : Slot) (m : Mem) : withSlot s p m (s.proc p) = { s with mem := m } := by
  rw [withSlot, Function.update_eq_self]

theorem getProc_withSlot (s : Sys) (p : Slot) (m : Mem) (q : Proc) : getProc p (withSlot s p m q) = .ok (q, withSlot s p m q) := by
  simp only [getProc, withSlot, Function.update_self]

theorem setProc_withSlot (s : Sys) (p : Slot) (m : Mem) (q : Proc) (f : Proc → Proc) :
    setProc p f (withSlot s p m q) = .ok ((), withSlot s p m (f q)) := by
  simp only [setProc, withSlot, Function.update_self, Function.update_idem]

theorem memmove_withSlot (s : Sys) (p : Slot) (m : Mem) (q : Proc) (pa : Nat) (bytes : List UInt8) :
    onMem (Xv6.Source.Vm.memmove pa bytes) (withSlot s p m q) = .ok ((), withSlot s p { m with byte := write pa bytes m.byte } q) :=
  rfl

theorem onMem_withSlot {α : Type} {prog : Xv6.Source.Vm.Prog α} {post : α → Mem → Prop} (q : Proc) (h : Ends prog m post) :
    Ends (onMem prog) (withSlot s p m q) fun r s' => ∃ m', s' = withSlot s p m' q ∧ post r m' :=
  onMem_ends (s := withSlot s p m q) h

/-- A process with its memory; `own` are the pages of everybody else. -/
structure Caller (s : Sys) (p : Slot) (t : Pagetable) (tf : Nat) (own : Multiset Nat) : Prop where
  pagetable : (s.proc p).pagetable = some t
  trapframe : (s.proc p).trapframe = some tf
  memory : InMemory s.mem t (s.proc p).sz tf own (trampolinePte s.mem.ram) (trapframePte tf)

/-- Nobody holds the lock of the inode. -/
structure Unheld (s : Sys) (ip : Nat) : Prop where
  unlocked : s.ilocked ip = false
  counted : 0 ≤ s.iref ip

/-- The trapframe after the commit. -/
def setRegisters (tf sp entry : Nat) (byte : Nat → UInt8) : Nat → UInt8 :=
  write (tf + spOffset) (leBytes 8 sp) (write (tf + epcOffset) (leBytes 8 entry) (write (tf + a1Offset) (leBytes 8 sp) byte))

/-- The process after the commit. -/
def replaced (q : Proc) (t : Pagetable) (sz : Nat) (path : List UInt8) : Proc :=
  { q with
    name := safestrcpy q.name (baseName path ++ [0]) 16
    pagetable := some t
    sz := sz }

/-- What exec does: nothing that stays, or a new image with a guard page and a stack at its top. -/
inductive Execs (s : Sys) (p : Slot) (t : Pagetable) (tf : Nat) (path : List UInt8) (argv : List (List UInt8)) (entry : Nat) :
    Int → Sys → Prop where
  | failed {m' : Mem} (moves : memory.Moves s.mem 0 m' 0) : Execs s p t tf path argv entry (-1) { s with mem := m' }
  | done {t' : Pagetable} {k sp : Nat} {m' : Mem} (maps : Maps t' (k + 2) (trampolinePte s.mem.ram) (trapframePte tf))
    (guarded : pte t' k &&& PTE_U = 0) (stack : StackPage t' k)
    (moves : memory.Moves s.mem (processPages t (s.proc p).sz tf) m' (processPages t' ((k + 2) * PGSIZE) tf))
    (laidOut : LaidOut t' k argv m'.byte sp)
    (registers : ∀ x, InPage tf x → m'.byte x = setRegisters tf sp entry s.mem.byte x) :
    Execs s p t tf path argv entry argv.length (withSlot s p m' (replaced (s.proc p) t' ((k + 2) * PGSIZE) path))

/-! ## Giving up -/

theorem badTable_ends {ram : Ram} (hmaps : Maps t (pageCount sz) (trampolinePte ram) (trapframePte tf))
    (hsound : Sound s.mem (space t (pageCount sz))) :
    Ends (badTable t sz) s fun r s' => r = -1 ∧ ∃ m', s' = { s with mem := m' } ∧
      memory.Moves s.mem (space t (pageCount sz)) m' 0 := by
  refine .bind (onMem_ends (procFreepagetable_spec hmaps (trampolinePte_leaf _) (trapframePte_leaf tf) fun pa hpa => hsound.own hpa)) ?_
  rintro - _ ⟨m', rfl, hmoves⟩
  exact .ret ⟨rfl, m', rfl, hmoves⟩

/-- The system while exec holds the inode. -/
def holding (s : Sys) (ip : Nat) (m : Mem) : Sys :=
  { s with
    mem := m
    outstanding := s.outstanding + 1
    iref := Function.update s.iref ip (s.iref ip + 1)
    ilocked := Function.update s.ilocked ip true }

theorem release_eq (h : Unheld s ip) (m : Mem) :
    iunlockput ip (holding s ip m) = .ok ((), { s with mem := m, outstanding := s.outstanding + 1 }) := by
  have hcounted := h.counted
  have hlock : ¬ (Function.update s.ilocked ip true ip = false ∨ Function.update s.iref ip (s.iref ip + 1) ip < 1) := by
    rw [Function.update_self, Function.update_self]
    rintro (hfalse | hneg)
    · cases hfalse
    · omega
  have hunlock : iunlock ip (holding s ip m) =
      .ok ((), { holding s ip m with ilocked := Function.update (holding s ip m).ilocked ip false }) := if_neg hlock
  refine (bind_ok hunlock).trans ?_
  simp only [iput, holding, Function.update_self, Function.update_idem, add_sub_cancel_right, Function.update_eq_self]
  rw [← h.unlocked, Function.update_eq_self]

theorem endOp_eq (s : Sys) (m : Mem) : endOp { s with mem := m, outstanding := s.outstanding + 1 } = .ok ((), { s with mem := m }) := by
  rw [endOp, add_sub_cancel_right]

theorem badInode_eq (h : Unheld s ip) (m : Mem) : badInode ip (holding s ip m) = .ok (-1, { s with mem := m }) :=
  (bind_ok (release_eq h m)).trans (bind_ok (endOp_eq s m))

/-! ## The commit -/

/-- Memory after the registers have been set. -/
def registered (m : Mem) (tf sp entry : Nat) : Mem := { m with byte := setRegisters tf sp entry m.byte }

theorem moves_registered (m : Mem) (tf sp entry : Nat) : memory.Moves m {tf} (registered m tf sp entry) {tf} := by
  have hreg : ∀ off v, off + 8 ≤ PGSIZE → ∀ m : Mem, Writes tf m { m with byte := write (tf + off) (leBytes 8 v) m.byte } :=
    fun off v hoff m => writes_write (by rwa [length_leBytes]) m tf
  exact (((hreg a1Offset sp (by decide) m).trans (hreg epcOffset entry (by decide) _)).trans (hreg spOffset sp (by decide) _)).moves

/-- What the registers are set to does not depend on other bytes. -/
theorem setRegisters_congr {byte byte' : Nat → UInt8} {x : Nat} (h : byte' x = byte x) (tf sp entry : Nat) :
    setRegisters tf sp entry byte' x = setRegisters tf sp entry byte x := by
  have hwrite : ∀ pa bytes (f g : Nat → UInt8), f x = g x → write pa bytes f x = write pa bytes g x := by
    intro pa bytes f g hfg
    rw [write, write, hfg]
  exact hwrite _ _ _ _ (hwrite _ _ _ _ (hwrite _ _ _ _ h))

section Commit

variable (hc : Caller s p t tf own) (hmoves : memory.Moves s.mem 0 m (space t' (k + 2)))
include hc hmoves

/-- Every page has one owner while there are two images. -/
theorem pages_of_taken : Sound m (space t' (k + 2) + (processPages t (s.proc p).sz tf + own)) ∧
    Apart m (space t' (k + 2) + (processPages t (s.proc p).sz tf + own)) := by
  have hall : memory.Moves s.mem (processPages t (s.proc p).sz tf + own) m
      (space t' (k + 2) + (processPages t (s.proc p).sz tf + own)) := (hmoves.frame _).congr (zero_add _) rfl
  exact ⟨hc.memory.sound.moves hall, hc.memory.apart.moves hall⟩

theorem pages_of_registered (sp entry : Nat) :
    Sound (registered m tf sp entry) (space t (pageCount (s.proc p).sz) + (space t' (k + 2) + {tf} + own)) ∧
      Apart (registered m tf sp entry) (space t (pageCount (s.proc p).sz) + (space t' (k + 2) + {tf} + own)) := by
  obtain ⟨hsound, hapart⟩ := pages_of_taken hc hmoves
  have hall : memory.Moves m (space t' (k + 2) + (processPages t (s.proc p).sz tf + own)) (registered m tf sp entry)
      (space t (pageCount (s.proc p).sz) + (space t' (k + 2) + {tf} + own)) := by
    refine ((moves_registered m tf sp entry).frame (space t (pageCount (s.proc p).sz) + (space t' (k + 2) + own))).congr ?_ ?_
    · rw [processPages]
      abel
    · abel
  exact ⟨hsound.moves hall, hapart.moves hall⟩

/-- The pages of the old image are freed, and the new image and the registers stay. -/
theorem done_of_freed (hmaps : Maps t' (k + 2) (trampolinePte s.mem.ram) (trapframePte tf)) (hguard : pte t' k &&& PTE_U = 0)
    (hstack : StackPage t' k) (hlaid : LaidOut t' k argv m.byte sp)
    (hfreed : memory.Moves (registered m tf sp entry) (space t (pageCount (s.proc p).sz)) m' 0) :
    Execs s p t tf path argv entry argv.length (withSlot s p m' (replaced (s.proc p) t' ((k + 2) * PGSIZE) path)) := by
  obtain ⟨hsound, hapart⟩ := pages_of_taken hc hmoves
  obtain ⟨hsound₃, hapart₃⟩ := pages_of_registered hc hmoves sp entry
  have hlast : ∀ pa ∈ space t' (k + 2) + {tf}, ∀ x, InPage pa x → m'.byte x = (registered m tf sp entry).byte x := by
    intro pa hpa x hx
    have hle : space t (pageCount (s.proc p).sz) + {pa} ≤ space t (pageCount (s.proc p).sz) + (space t' (k + 2) + {tf} + own) :=
      add_le_add_right ((Multiset.singleton_le.2 hpa).trans (Multiset.le_add_right _ _)) _
    exact byte_kept hfreed (hsound₃.mono hle) (hapart₃.mono hle) hx
  have hframe : frame t' (k + 1) ∈ space t' (k + 2) := mem_space.2 (.inr (mem_frames.2 ⟨k + 1, Nat.zero_le _, by omega, rfl⟩))
  have htf : tf ∈ processPages t (s.proc p).sz tf + own :=
    Multiset.mem_add.2 (.inl (Multiset.mem_add.2 (.inr (Multiset.mem_singleton_self tf))))
  refine .done hmaps hguard hstack ?_ (hlaid.congr fun x hx => ?_) fun x hx => ?_
  · rw [processPages, processPages, page_count_two]
    have htaken := hmoves.frame (space t (pageCount (s.proc p).sz) + {tf})
    have hregs := (moves_registered m tf sp entry).frame (space t (pageCount (s.proc p).sz) + space t' (k + 2))
    have hgone := hfreed.frame (space t' (k + 2) + {tf})
    refine ((htaken.congr (zero_add _) ?_).trans (hregs.congr rfl ?_)).trans (hgone.congr rfl (zero_add _))
    · abel
    · abel
  · have hle : {tf} + {frame t' (k + 1)} ≤ space t' (k + 2) + (processPages t (s.proc p).sz tf + own) := by
      rw [add_comm]
      exact add_le_add (Multiset.singleton_le.2 hframe) (Multiset.singleton_le.2 htf)
    rw [hlast _ (Multiset.mem_add.2 (.inl hframe)) x hx]
    exact byte_kept (moves_registered m tf sp entry) (hsound.mono hle) (hapart.mono hle) hx
  · rw [hlast tf (Multiset.mem_add.2 (.inr (Multiset.mem_singleton_self tf))) x hx]
    refine setRegisters_congr (kept_of_free hmoves ?_ ?_ hx) tf sp entry
    · exact hc.memory.sound.mono (Multiset.singleton_le.2 htf)
    · exact hc.memory.apart.mono (Multiset.singleton_le.2 htf)

theorem commit_ends (hmaps : Maps t' (k + 2) (trampolinePte s.mem.ram) (trapframePte tf)) (hguard : pte t' k &&& PTE_U = 0)
    (hstack : StackPage t' k) (hlaid : LaidOut t' k argv m.byte sp) :
    Ends (commit p t' ((k + 2) * PGSIZE) sp entry path argv.length) { s with mem := m } (Execs s p t tf path argv entry) := by
  have hold : Ends (Xv6.Source.Vm.procFreepagetable t (s.proc p).sz) (registered m tf sp entry) fun _ m' =>
      memory.Moves (registered m tf sp entry) (space t (pageCount (s.proc p).sz)) m' 0 :=
    procFreepagetable_spec hc.memory.maps (trampolinePte_leaf _) (trapframePte_leaf tf) fun pa hpa =>
      (pages_of_registered hc hmoves sp entry).1.own (Multiset.mem_add.2 (.inl hpa))
  rw [← withSlot_self s p m]
  refine .step (getProc_withSlot s p m _) ?_
  rw [hc.trapframe, hc.pagetable]
  refine .step (show deref (some tf) _ = .ok (tf, _) from rfl) ?_
  refine .step (memmove_withSlot s p m _ _ _) (.step (setProc_withSlot s p _ _ _) ?_)
  refine .step (show deref (some t) _ = .ok (t, _) from rfl) (.step (setProc_withSlot s p _ _ _) ?_)
  refine .step (memmove_withSlot s p _ _ _ _) (.step (memmove_withSlot s p _ _ _ _) ?_)
  refine .bind (onMem_withSlot (replaced (s.proc p) t' ((k + 2) * PGSIZE) path) hold) ?_
  rintro - _ ⟨m', rfl, hfreed⟩
  exact .ret (done_of_freed hc hmoves hmaps hguard hstack hlaid hfreed)

end Commit

/-! ## The stack -/

theorem Image.round (h : Image m t sz a b) : Image m t (pageCount sz * PGSIZE) a b where
  owns := ⟨by rw [pageCount_mul]; exact h.owns.maps, by rw [pageCount_mul]; exact h.owns.sound, by rw [pageCount_mul]; exact h.owns.apart⟩
  user := by rw [pageCount_mul]; exact h.user
  room := by rw [pageCount_mul]; exact h.room

theorem setupStack_ends (hc : Caller s p t tf own) (hargc : argv.length < MAXARG)
    (himage : Image m t' sz (trampolinePte s.mem.ram) (trapframePte tf)) (hmoves : memory.Moves s.mem 0 m (space t' (pageCount sz))) :
    Ends (setupStack p t' sz entry path argv) { s with mem := m } (Execs s p t tf path argv entry) := by
  have hround : PGROUNDUP sz = pageCount sz * PGSIZE := roundup_eq himage.size_le
  have hsmall := himage.owns.maps.small
  generalize hn : pageCount sz = n at hround hmoves hsmall
  have himage' : Image m t' (n * PGSIZE) (trampolinePte s.mem.ram) (trapframePte tf) := hn ▸ Image.round himage
  have hgrow : word (n * PGSIZE + 2 * PGSIZE) = (n + 2) * PGSIZE := by
    simp only [word, PGSIZE, userPages_eq] at hsmall ⊢
    omega
  rw [setupStack, hround, hgrow]
  refine .bind (onMem_ends (s := { s with mem := m }) (uvmalloc_image (by decide) himage')) ?_
  rintro ⟨r, t₁⟩ _ ⟨m₁, rfl, sz₁, himage₁, hmoves₁, hsize⟩
  have htaken₁ : memory.Moves s.mem 0 m₁ (space t₁ (pageCount sz₁)) := by
    rw [ImageMoves, pageCount_mul] at hmoves₁
    exact hmoves.trans hmoves₁
  cases r with
  | zero =>
    have hsz : sz₁ = n * PGSIZE := by
      simp only [PGSIZE] at hsize ⊢
      omega
    subst hsz
    refine (badTable_ends himage₁.owns.maps himage₁.owns.sound).mono ?_
    rintro r _ ⟨rfl, m₂, rfl, hfreed⟩
    exact .failed (htaken₁.trans hfreed)
  | succ j =>
    have hsz : j + 1 = (n + 2) * PGSIZE ∧ sz₁ = (n + 2) * PGSIZE := by
      simp only [PGSIZE] at hsize ⊢
      omega
    obtain ⟨hj, rfl⟩ := hsz
    have hguard : word (j + 1 + 2 ^ 64 - 2 * PGSIZE) = n * PGSIZE := by
      have hle := himage₁.size_le
      have htop : TRAPFRAME < 2 ^ 38 := by decide
      simp only [word, PGSIZE] at hj hle ⊢
      omega
    show Ends (onMem (Xv6.Source.Vm.uvmclear t₁ (word (j + 1 + 2 ^ 64 - 2 * PGSIZE))) >>= _) _ _
    rw [hguard, hj]
    refine .bind (onMem_ends (s := { s with mem := m₁ }) (uvmclear_spec himage₁ (trampolinePte_not_user _) (trapframePte_not_user tf))) ?_
    rintro t₂ _ ⟨m₁, rfl, rfl, hspace, hcleared⟩
    have htaken₂ : memory.Moves s.mem 0 m₁ (space t₂ (n + 2)) := by
      rw [hspace]
      rwa [page_count_two] at htaken₁
    have hstack := hcleared.stack
    refine .bind (onMem_ends (s := { s with mem := m₁ }) (pushArgs_spec hstack hargc m₁)) ?_
    rintro o _ ⟨m₂, rfl, hpushed, hlaid⟩
    have hframe : {frame t₂ (n + 1)} ≤ space t₂ (n + 2) :=
      Multiset.singleton_le.2 (mem_space.2 (.inr (mem_frames.2 ⟨n + 1, Nat.zero_le _, by omega, rfl⟩)))
    have htaken₃ := htaken₂.trans (hpushed.moves.within hframe)
    have hmaps := hcleared.owns.maps
    cases o with
    | none =>
      have hsound : Sound m₂ (space t₂ (pageCount ((n + 2) * PGSIZE))) := by
        refine hcleared.owns.sound.moves (hpushed.moves.within ?_)
        rwa [page_count_two]
      refine (badTable_ends hmaps hsound).mono ?_
      rintro r _ ⟨rfl, m₃, rfl, hfreed⟩
      rw [page_count_two] at hfreed
      exact .failed (htaken₃.trans hfreed)
    | some sp =>
      rw [page_count_two] at hmaps
      exact commit_ends hc htaken₃ hmaps hcleared.guarded hstack (hlaid sp rfl)

/-! ## exec -/

/-- What exec jumps to. -/
def entryOf (content : List UInt8) : Nat := (elfhdr (readi content 0 elfhdrSize)).entry

theorem exec_ends (hc : Caller s p t tf own) (hroom : (memory.free s.mem).card ≤ userPages) (hargc : argv.length < MAXARG)
    (hcontent : content.length < 2 ^ 31) {found : Option Nat} (hfound : ∀ ip, found = some ip → Unheld s ip) (path : List UInt8) :
    Ends (exec p found content path argv) s (Execs s p t tf path argv (entryOf content)) := by
  refine .step rfl ?_
  cases found with
  | none =>
    refine .step (endOp_eq s s.mem) (.ret ?_)
    exact .failed (.refl _ _)
  | some ip =>
    have hip := hfound ip rfl
    have hlock : ¬ Function.update s.iref ip (s.iref ip + 1) ip < 1 := by
      have := hip.counted
      rw [Function.update_self]
      omega
    have hbad : ∀ m', memory.Moves s.mem 0 m' 0 → Ends (badInode ip) (holding s ip m') (Execs s p t tf path argv (entryOf content)) :=
      fun m' hm' => .of_eq (badInode_eq hip m') (.failed hm')
    refine .step rfl (.step (show _ = Except.ok ((), holding s ip s.mem) from if_neg hlock) ?_)
    dsimp only
    split_ifs with hlen hmagic
    · exact hbad s.mem (.refl _ _)
    · exact hbad s.mem (.refl _ _)
    refine .step (show getProc p (holding s ip s.mem) = .ok (s.proc p, holding s ip s.mem) from rfl) ?_
    rw [hc.trapframe]
    refine .step (show deref (some tf) _ = .ok (tf, _) from rfl) ?_
    have hsound : Sound s.mem 0 := hc.memory.sound.mono (Multiset.zero_le _)
    have hapart : Apart s.mem 0 := hc.memory.apart.mono (Multiset.zero_le _)
    refine .bind (onMem_ends (s := holding s ip s.mem) (procPagetable_spec tf hsound)) ?_
    rintro (_ | t₁) _ ⟨m₁, rfl, htaken, hmaps⟩
    · exact hbad m₁ htaken
    have hspace : space t₁ (pageCount 0) = tables t₁ := (congrArg (tables t₁ + ·) (frames_self t₁ 0)).trans (add_zero _)
    have htaken₁ : memory.Moves s.mem 0 m₁ (space t₁ (pageCount 0)) := by
      rw [hspace]
      exact htaken
    have himage : Image m₁ t₁ 0 (trampolinePte s.mem.ram) (trapframePte tf) := by
      refine ⟨⟨hmaps t₁ rfl, hsound.moves htaken₁, hapart.moves htaken₁⟩, fun v hv => absurd hv (Nat.not_lt_zero v), ?_⟩
      rw [htaken₁.balance, add_zero]
      exact hroom
    refine .bind (onMem_ends (s := holding s ip m₁) (loadHeaders_spec hcontent _ himage)) ?_
    rintro ⟨done, t₂, sz₂⟩ _ ⟨m₂, rfl, himage₂, hmoves₂⟩
    have htaken₂ := htaken₁.trans hmoves₂
    cases done with
    | false =>
      refine .bind (badTable_ends himage₂.owns.maps himage₂.owns.sound) ?_
      rintro r _ ⟨rfl, m₃, rfl, hfreed⟩
      exact hbad m₃ (htaken₂.trans hfreed)
    | true =>
      refine .step (release_eq hip m₂) (.step (endOp_eq s m₂) ?_)
      exact setupStack_ends hc hargc himage₂ htaken₂

/-! ## The first process -/

theorem caller_oneProcess {n : Nat} (hn : n ≤ 100) (h : First n t 4096 m) : Caller (oneProcess t m) 0 t lastPage 0 := by
  have hparent := parent_oneProcess hn h
  refine ⟨rfl, rfl, ?_, hparent.memory.sound, hparent.memory.apart⟩
  show Maps t (pageCount 4096) (trampolinePte m.ram) (trapframePte lastPage)
  rw [show m.ram = (boot n).ram from h.moves.fixed]
  exact h.maps

theorem unheld_oneProcess (t : Pagetable) (m : Mem) (hip : 0 < ip) : Unheld (oneProcess t m) ip :=
  ⟨rfl, le_of_eq (if_neg (Nat.ne_of_gt hip)).symm⟩

end Xv6.Process
