import Xv6.Vm.Forking

/-!
# Making and freeing processes

`freeproc`, `allocproc` and `fork`, each with the state it leaves. A call that fails has freed all pages
that it took.
-/
namespace Xv6.Process

open Xv6.Library.Total Xv6.Source.System Xv6.Vm
open Xv6.Source.Vm (Mem Pagetable PGSIZE)
open Xv6.Source.Ptable (ProcState Slot)
open Xv6.Source.Proc (NOFILE)
open Xv6.Source.Tables (NFILE)

variable {s : Sys} {p np : Slot}

/-! ## The state during a call -/

/-- What a call changes: the memory, the child's slot and the reference counts. -/
structure Work where
  mem : Mem
  child : Proc
  file : Fin NFILE → File
  iref : Nat → Int

/-- The system after `allocpid`, while the slot `np` is worked on. -/
def during (s : Sys) (np : Slot) (w : Work) : Sys :=
  { s with
    mem := w.mem
    proc := Function.update s.proc np w.child
    nextpid := s.nextpid + 1
    file := w.file
    iref := w.iref }

variable {w : Work}

theorem getProc_during (s : Sys) (np : Slot) (w : Work) : getProc np (during s np w) = .ok (w.child, during s np w) := by
  simp only [getProc, during, Function.update_self]

theorem getProc_other (h : p ≠ np) (w : Work) : getProc p (during s np w) = .ok (s.proc p, during s np w) := by
  simp only [getProc, during, Function.update_of_ne h]

theorem setProc_during (s : Sys) (np : Slot) (w : Work) (f : Proc → Proc) :
    setProc np f (during s np w) = .ok ((), during s np { w with child := f w.child }) := by
  simp only [setProc, during, Function.update_self, Function.update_idem]

theorem idup_during (s : Sys) (np : Slot) (w : Work) (ip : Nat) :
    idup ip (during s np w) = .ok ((), during s np { w with iref := Function.update w.iref ip (w.iref ip + 1) }) := rfl

theorem onMem_ends {α : Type} {q : Xv6.Source.Vm.Prog α} {post : α → Mem → Prop} (h : Ends q s.mem post) :
    Ends (onMem q) s fun r s' => ∃ m', s' = { s with mem := m' } ∧ post r m' := by
  obtain ⟨r, m', hrun, hpost⟩ := h
  refine ⟨r, { s with mem := m' }, ?_, m', rfl, hpost⟩
  rw [onMem, hrun]

theorem onMem_during {α : Type} {q : Xv6.Source.Vm.Prog α} {post : α → Mem → Prop} (h : Ends q w.mem post) :
    Ends (onMem q) (during s np w) fun a s' => ∃ m', s' = during s np { w with mem := m' } ∧ post a m' :=
  onMem_ends (s := during s np w) h

/-! ## Giving up -/

/-- The pages of a process that is not complete. -/
def partPages (q : Proc) : Multiset Nat :=
  q.trapframe.elim 0 (fun tf => {tf}) + q.pagetable.elim 0 fun t => space t (pageCount q.sz)

/-- A slot after `freeproc`. -/
def cleared (q : Proc) : Proc :=
  { q with
    trapframe := none
    pagetable := none
    sz := 0
    pid := 0
    parent := none
    name := q.name.set 0 0
    chan := .null
    killed := false
    xstate := 0
    state := .unused }

theorem freeproc_ends (hsound : Sound w.mem (partPages w.child))
    (hmaps : ∀ t, w.child.pagetable = some t → ∃ a b, Maps t (pageCount w.child.sz) a b ∧ Leaf a ∧ Leaf b) :
    Ends (freeproc np) (during s np w) fun _ s' => ∃ m', s' = during s np { w with mem := m', child := cleared w.child } ∧
      memory.Moves w.mem (partPages w.child) m' 0 := by
  have htf : Ends (freeTrapframe w.child.trapframe) (during s np w) fun _ s' => ∃ m', s' = during s np { w with mem := m' } ∧
      memory.Moves w.mem (w.child.trapframe.elim 0 fun tf => {tf}) m' 0 := by
    cases htf : w.child.trapframe with
    | none => exact .ret ⟨w.mem, rfl, .refl _ _⟩
    | some tf =>
      refine onMem_during ((kfree_spec (hsound.own ?_)).mono fun _ m' hm => hm)
      rw [partPages, htf]
      exact Multiset.mem_add.2 (.inl (Multiset.mem_singleton_self tf))
  refine .step (getProc_during s np w) (.bind htf ?_)
  rintro - _ ⟨m₁, rfl, hm₁⟩
  refine .step (setProc_during s np _ _) ?_
  have hmoves₁ : memory.Moves w.mem (partPages w.child) m₁ (w.child.pagetable.elim 0 fun t => space t (pageCount w.child.sz)) :=
    (hm₁.frame _).congr rfl (zero_add _)
  have hpt : Ends (freePagetable w.child.sz w.child.pagetable)
      (during s np { w with mem := m₁, child := { w.child with trapframe := none } }) fun _ s' =>
        ∃ m', s' = during s np { w with mem := m', child := { w.child with trapframe := none } } ∧
          memory.Moves m₁ (w.child.pagetable.elim 0 fun t => space t (pageCount w.child.sz)) m' 0 := by
    cases hpt : w.child.pagetable with
    | none => exact .ret ⟨m₁, rfl, .refl _ _⟩
    | some t =>
      obtain ⟨a, b, hmaps, ha, hb⟩ := hmaps t hpt
      have hsound₁ := hsound.moves hmoves₁
      rw [hpt] at hsound₁
      refine onMem_during (w := { w with mem := m₁, child := { w.child with trapframe := none } }) ?_
      exact procFreepagetable_spec hmaps ha hb fun pa hpa => hsound₁.own hpa
  refine .bind hpt ?_
  rintro - _ ⟨m₂, rfl, hm₂⟩
  exact .of_eq (setProc_during s np _ _) ⟨m₂, rfl, hmoves₁.trans hm₂⟩

/-! ## A slot for the child -/

/-- A slot as it is before its first use and after `exit` and `freeproc`. -/
structure Clean (q : Proc) : Prop where
  state : q.state = .unused
  trapframe : q.trapframe = none
  pagetable : q.pagetable = none
  sz : q.sz = 0
  pid : q.pid = 0
  parent : q.parent = none
  name : q.name.set 0 0 = q.name
  chan : q.chan = .null
  killed : q.killed = false
  xstate : q.xstate = 0
  ofile : q.ofile = fun _ => none
  cwd : q.cwd = none

/-- `freeproc` undoes what `allocproc` has done to a slot, but for its context. -/
theorem cleared_clean {q : Proc} (h : Clean q) (pid : Int32) (st : ProcState) (tf : Option Nat) (t : Option Pagetable) (c : Context) :
    cleared { q with pid := pid, state := st, trapframe := tf, pagetable := t, context := c } = { q with context := c } := by
  obtain ⟨state, chan, killed, xstate, qpid, parent, kstack, sz, pagetable, trapframe, context, ofile, cwd, name⟩ := q
  obtain ⟨rfl, rfl, rfl, rfl, rfl, rfl, hname, rfl, rfl, rfl, -, -⟩ := h
  simp only [cleared] at hname ⊢
  rw [hname]

/-- What a failed fork leaves: nothing has changed but the pid counter and the context of a slot that
is UNUSED; all pages that were free are free, and no other memory has changed. -/
inductive GaveUp (s : Sys) : Sys → Prop where
  | full : GaveUp s s
  | freed {np : Slot} {m' : Mem} {c : Context} (unused : (s.proc np).state = .unused) (moves : memory.Moves s.mem 0 m' 0) :
    GaveUp s (during s np ⟨m', { s.proc np with context := c }, s.file, s.iref⟩)

/-- A slot on the way to a new process. -/
def unfinished (s : Sys) (np : Slot) (tf : Option Nat) (t : Option Pagetable) (c : Context) : Proc :=
  { s.proc np with pid := s.nextpid, state := .used, trapframe := tf, pagetable := t, context := c }

theorem unfinished_clean (hq : Clean (s.proc np)) :
    { s.proc np with pid := s.nextpid, state := .used } = unfinished s np none none (s.proc np).context := by
  have hsame : { s.proc np with pid := s.nextpid, state := .used } =
      unfinished s np (s.proc np).trapframe (s.proc np).pagetable (s.proc np).context := rfl
  rwa [hq.trapframe, hq.pagetable] at hsame

/-- Giving up with the pages that have been taken so far. -/
theorem giveUp_ends {m : Mem} {tf : Option Nat} {t : Option Pagetable} {c : Context} (hq : Clean (s.proc np)) (hsound : Sound s.mem 0)
    (hmoves : memory.Moves s.mem 0 m (tf.elim 0 (fun tf => {tf}) + t.elim 0 tables))
    (hmaps : ∀ t', t = some t' → ∃ a b, Maps t' 0 a b ∧ Leaf a ∧ Leaf b) :
    Ends (freeproc np) (during s np ⟨m, unfinished s np tf t c, s.file, s.iref⟩) fun _ s' => GaveUp s s' := by
  have hsz : (unfinished s np tf t c).sz = 0 := hq.sz
  have hcount : pageCount (unfinished s np tf t c).sz = 0 := by
    rw [hsz]
    rfl
  have hpages : partPages (unfinished s np tf t c) = tf.elim 0 (fun tf => {tf}) + t.elim 0 tables := by
    rw [partPages, hcount]
    show tf.elim 0 _ + t.elim 0 _ = _
    cases t with
    | none => rfl
    | some t => rw [Option.elim_some, Option.elim_some, space, frames_self, add_zero]
  have hfree : Ends (freeproc np) (during s np ⟨m, unfinished s np tf t c, s.file, s.iref⟩) _ := freeproc_ends (by
    rw [hpages]
    exact hsound.moves hmoves) fun t' ht' => by
      rw [hcount]
      exact hmaps t' ht'
  refine hfree.mono ?_
  rintro - _ ⟨m', rfl, hm'⟩
  rw [hpages] at hm'
  rw [show cleared (unfinished s np tf t c) = { s.proc np with context := c } from cleared_clean hq _ _ _ _ _]
  exact .freed hq.state (hmoves.trans hm')

/-- The context that `allocproc` makes. -/
def newContext (s : Sys) (np : Slot) : Context := ⟨s.forkret, (s.proc np).kstack + UInt64.ofNat PGSIZE, fun _ => 0⟩

/-- What `allocproc` does. -/
inductive Allocates (s : Sys) : Option Slot → Sys → Prop where
  | failed {s' : Sys} (h : GaveUp s s') : Allocates s none s'
  | found {np : Slot} {t : Pagetable} {tf : Nat} {m' : Mem} (unused : (s.proc np).state = .unused)
    (moves : memory.Moves s.mem 0 m' (tables t + {tf})) (maps : Maps t 0 (trampolinePte s.mem.ram) (trapframePte tf)) :
    Allocates s (some np) (during s np ⟨m', unfinished s np (some tf) (some t) (newContext s np), s.file, s.iref⟩)

theorem allocproc_ends (hclean : ∀ i, (s.proc i).state = .unused → Clean (s.proc i)) (hsound : Sound s.mem 0) :
    Ends allocproc s (Allocates s) := by
  refine .step (show (get : Prog Sys) s = .ok (s, s) from rfl) ?_
  cases hfind : findUnused s with
  | none => exact .ret (.failed .full)
  | some np =>
    have hunused : (s.proc np).state = .unused := by simpa using List.find?_some hfind
    have hq := hclean np hunused
    refine .step (show allocpid s = .ok (s.nextpid, { s with nextpid := s.nextpid + 1 }) from rfl) ?_
    refine .step (show setProc np _ { s with nextpid := s.nextpid + 1 } =
      .ok ((), during s np ⟨s.mem, { s.proc np with pid := s.nextpid, state := .used }, s.file, s.iref⟩) from rfl) ?_
    rw [unfinished_clean hq]
    refine .bind (onMem_during (kalloc_spec s.mem)) ?_
    rintro (_ | tf) _ ⟨m₁, rfl, hm₁⟩
    · refine .step (setProc_during s np _ _) (.bind (giveUp_ends (t := none) hq hsound ?_ nofun) ?_)
      · exact hm₁.congr rfl (add_zero _).symm
      · rintro - s' hgave
        exact .ret (.failed hgave)
    · have hm₁ : memory.Moves s.mem 0 m₁ {tf} := hm₁
      refine .step (setProc_during s np _ _) (.bind (onMem_during (procPagetable_spec tf ?_)) ?_)
      · exact (hsound.moves hm₁).mono (Multiset.zero_le _)
      rintro (_ | t) _ ⟨m₂, rfl, hm₂, hmaps⟩
      · refine .step (setProc_during s np _ _) (.bind (giveUp_ends (t := none) hq hsound ?_ nofun) ?_)
        · exact (hm₁.trans ((hm₂.frame_left {tf}).congr (add_zero _) rfl))
        · rintro - s' hgave
          exact .ret (.failed hgave)
      · have hram : m₁.ram = s.mem.ram := hm₁.fixed
        have hmaps := hmaps t rfl
        dsimp only at hmaps
        rw [hram] at hmaps
        refine .step (show (get : Prog Sys) _ = .ok (_, _) from rfl) (.step (setProc_during s np _ _) (.ret (.found hunused ?_ hmaps)))
        refine hm₁.trans ((hm₂.frame {tf}).congr (zero_add _) rfl)

/-! ## Files -/

/-- How many of the descriptors `is` refer to the file `f`. -/
def uses (ofile : Fin NOFILE → Option (Fin NFILE)) (is : List (Fin NOFILE)) (f : Fin NFILE) : Nat :=
  is.countP fun i => ofile i = some f

/-- A file with `n` more references. -/
def File.more (g : File) (n : Nat) : File := { g with ref := g.ref + n }

section Gives

variable {ofile old new : Fin NOFILE → Option (Fin NFILE)} {is : List (Fin NOFILE)} {file file' : Fin NFILE → File}
  {i : Fin NOFILE} {f : Fin NFILE}

/-- The descriptors `is` are given to the child, and each counts. -/
structure Gives (ofile : Fin NOFILE → Option (Fin NFILE)) (is : List (Fin NOFILE)) (old new : Fin NOFILE → Option (Fin NFILE))
    (file file' : Fin NFILE → File) : Prop where
  given : ∀ i f, i ∈ is → ofile i = some f → new i = some f
  kept : ∀ i, (i ∈ is → ofile i = none) → new i = old i
  counted : ∀ f, file' f = File.more (file f) (uses ofile is f)

theorem Gives.nil (ofile old : Fin NOFILE → Option (Fin NFILE)) (file : Fin NFILE → File) : Gives ofile [] old old file file := by
  refine ⟨nofun, fun _ _ => rfl, fun f => ?_⟩
  rw [File.more, uses, List.countP_nil, Int.natCast_zero, add_zero]

theorem Gives.skip (h : Gives ofile is old new file file') (hi : ofile i = none) : Gives ofile (i :: is) old new file file' := by
  refine ⟨fun j f hj hf => ?_, fun j hj => h.kept j fun hmem => hj (List.mem_cons_of_mem i hmem), fun f => ?_⟩
  · rcases List.mem_cons.1 hj with rfl | hmem
    · rw [hi] at hf
      cases hf
    · exact h.given j f hmem hf
  · rw [uses, List.countP_cons_of_neg (by rw [hi]; simp)]
    exact h.counted f

theorem Gives.cons (h : Gives ofile is (Function.update old i (some f)) new (Function.update file f (File.more (file f) 1)) file')
    (hi : ofile i = some f) : Gives ofile (i :: is) old new file file' := by
  refine ⟨fun j g hj hg => ?_, fun j hj => ?_, fun g => ?_⟩
  · by_cases hmem : j ∈ is
    · exact h.given j g hmem hg
    · obtain rfl : j = i := (List.mem_cons.1 hj).resolve_right hmem
      rw [h.kept j fun hmem' => absurd hmem' hmem, Function.update_self, ← hi, hg]
  · rw [h.kept j fun hmem => hj (List.mem_cons_of_mem i hmem), Function.update_of_ne]
    rintro rfl
    rw [hj List.mem_cons_self] at hi
    cases hi
  · rw [h.counted g, uses, uses]
    by_cases hg : g = f
    · subst hg
      rw [Function.update_self, List.countP_cons_of_pos (by rw [hi]; simp), File.more, File.more, File.more]
      push_cast
      ring_nf
    · rw [Function.update_of_ne hg, List.countP_cons_of_neg (by rw [hi]; simpa using fun h => hg h.symm)]

end Gives

theorem filedup_during {f : Fin NFILE} (h : 1 ≤ (w.file f).ref) :
    filedup f (during s np w) = .ok ((), during s np { w with file := Function.update w.file f (File.more (w.file f) 1) }) := by
  refine (bind_ok (show getFile f (during s np w) = .ok (w.file f, during s np w) from rfl)).trans ?_
  rw [if_neg (not_lt.2 h)]
  rfl

theorem dupFiles_ends (ofile : Fin NOFILE → Option (Fin NFILE)) (is : List (Fin NOFILE))
    (hopen : ∀ i f, ofile i = some f → 1 ≤ (w.file f).ref) :
    Ends (dupFiles np ofile is) (during s np w) fun _ s' => ∃ new file',
      s' = during s np { w with child := { w.child with ofile := new }, file := file' } ∧
        Gives ofile is w.child.ofile new w.file file' := by
  induction is generalizing w with
  | nil => exact .ret ⟨w.child.ofile, w.file, rfl, .nil _ _ _⟩
  | cons i is ih =>
    rw [dupFiles]
    cases hi : ofile i with
    | none =>
      refine .step (show dupFile np i none _ = .ok ((), _) from rfl) ((ih hopen).mono ?_)
      rintro - _ ⟨new, file', rfl, hgives⟩
      exact ⟨new, file', rfl, hgives.skip hi⟩
    | some f =>
      have hstep : dupFile np i (some f) (during s np w) = .ok ((), during s np { w with
          child := { w.child with ofile := Function.update w.child.ofile i (some f) }
          file := Function.update w.file f (File.more (w.file f) 1) }) :=
        (bind_ok (filedup_during (hopen i f hi))).trans (setProc_during s np _ _)
      refine .step hstep ((ih fun j g hg => ?_).mono ?_)
      · show 1 ≤ (Function.update w.file f (File.more (w.file f) 1) g).ref
        have hf := hopen i f hi
        by_cases hgf : g = f
        · rw [hgf, Function.update_self, File.more]
          push_cast
          omega
        · rw [Function.update_of_ne hgf]
          exact hopen j g hg
      · rintro - _ ⟨new, file', rfl, hgives⟩
        exact ⟨new, file', rfl, hgives.cons hi⟩

/-! ## fork -/

/-- A process that can fork: a table `t`, a trapframe at `tf` and a working directory; `own` are the
pages of everybody else. Slots that are UNUSED are as `freeproc` leaves them. -/
structure Parent (s : Sys) (p : Slot) (t : Pagetable) (tf cwd : Nat) (own : Multiset Nat) (a b : UInt64) : Prop where
  used : (s.proc p).state ≠ .unused
  pagetable : (s.proc p).pagetable = some t
  trapframe : (s.proc p).trapframe = some tf
  cwd : (s.proc p).cwd = some cwd
  memory : InMemory s.mem t (s.proc p).sz tf own a b
  files : ∀ i f, (s.proc p).ofile i = some f → 1 ≤ (s.file f).ref
  clean : ∀ i, (s.proc i).state = .unused → Clean (s.proc i)

variable {t : Pagetable} {tf cwd : Nat} {own : Multiset Nat} {a b : UInt64}

/-- The child when fork returns. -/
def forked (s : Sys) (p np : Slot) (t' : Pagetable) (tf' cwd : Nat) : Proc :=
  { unfinished s np (some tf') (some t') (newContext s np) with
    sz := (s.proc p).sz
    ofile := (s.proc p).ofile
    cwd := some cwd
    name := safestrcpy (s.proc np).name (s.proc p).name 16
    parent := some p
    state := .runnable }

/-- What fork does. -/
inductive Outcome (s : Sys) (p : Slot) (t : Pagetable) (tf cwd : Nat) : Int → Sys → Prop where
  | failed {s' : Sys} (h : GaveUp s s') : Outcome s p t tf cwd (-1) s'
  | forked {np : Slot} {t' : Pagetable} {tf' : Nat} {m' : Mem} {file' : Fin NFILE → File} (unused : (s.proc np).state = .unused)
    (memory : ChildMemory s.mem t (s.proc p).sz tf m' t' tf')
    (counted : ∀ f, file' f = File.more (s.file f) (uses (s.proc p).ofile (List.finRange NOFILE) f)) :
    Outcome s p t tf cwd s.nextpid.toInt
      (during s np ⟨m', forked s p np t' tf' cwd, file', Function.update s.iref cwd (s.iref cwd + 1)⟩)

theorem ofile_of_gives {ofile new : Fin NOFILE → Option (Fin NFILE)} {file file' : Fin NFILE → File}
    (h : Gives ofile (List.finRange NOFILE) (fun _ => none) new file file') : new = ofile := by
  funext i
  cases hi : ofile i with
  | none => exact h.kept i fun _ => hi
  | some f => exact h.given i f (List.mem_finRange i) hi

theorem fork_ends (h : Parent s p t tf cwd own a b) : Ends (fork p) s (Outcome s p t tf cwd) := by
  have hsound : Sound s.mem 0 := h.memory.sound.mono (Multiset.zero_le _)
  refine .bind (allocproc_ends h.clean hsound) ?_
  rintro _ _ (⟨hgave⟩ | ⟨hunused, htaken, hmaps⟩)
  · exact .ret (.failed hgave)
  rename_i np new tf' m₁
  have hne : p ≠ np := by
    rintro rfl
    exact h.used hunused
  have hq := h.clean np hunused
  refine .step (getProc_other hne _) (.step (getProc_during s np _) ?_)
  rw [h.pagetable]
  refine .step (show deref (some t) _ = .ok (t, _) from rfl) (.step (show deref (some new) _ = .ok (new, _) from rfl) ?_)
  have hpages : memory.Moves s.mem (processPages t (s.proc p).sz tf + own) m₁
      (tables new + {tf'} + (processPages t (s.proc p).sz tf + own)) := (htaken.frame _).congr (zero_add _) rfl
  have hle : tables new + frames t 0 (pageCount (s.proc p).sz) ≤
      tables new + {tf'} + (processPages t (s.proc p).sz tf + own) := by
    refine add_le_add (Multiset.le_add_right _ _) ?_
    exact (frames_le_process t _ tf).trans (Multiset.le_add_right _ _)
  refine .bind (onMem_during (uvmcopy_spec h.memory.maps hmaps ((h.memory.sound.moves hpages).mono hle)
    ((h.memory.apart.moves hpages).mono hle))) ?_
  rintro ⟨r, t'⟩ _ ⟨m₂, rfl, hcopied⟩
  have hr : r = 0 ∨ r = -1 ∧ Maps t' 0 (trampolinePte s.mem.ram) (trapframePte tf') ∧
      memory.Moves m₁ (space new 0) m₂ (tables t') := by
    cases hcopied with
    | copied => exact .inl rfl
    | failed maps moves => exact .inr ⟨rfl, maps, moves⟩
  refine .step (setProc_during s np _ _) ?_
  rcases hr with rfl | ⟨rfl, hmaps', hfreed⟩
  · rw [if_neg (lt_irrefl 0), h.trapframe]
    refine .step (setProc_during s np _ _) ?_
    refine .step (show deref (some tf') _ = .ok (tf', _) from rfl) (.step (show deref (some tf) _ = .ok (tf, _) from rfl) ?_)
    refine .bind (onMem_during (copyTrapframe_spec m₂ tf' tf)) ?_
    rintro - _ ⟨m₃, rfl, hmoves, hregs⟩
    refine .bind (dupFiles_ends (s.proc p).ofile (List.finRange NOFILE) h.files) ?_
    rintro - _ ⟨ofile, file', rfl, hgives⟩
    rw [h.cwd]
    refine .step (show deref (some cwd) _ = .ok (cwd, _) from rfl) ?_
    refine .step (idup_during s np _ cwd) ?_
    refine .step (setProc_during s np _ _) (.step (setProc_during s np _ _) ?_)
    refine .step (getProc_during s np _) (.step (setProc_during s np _ _) (.step (setProc_during s np _ _) (.ret ?_)))
    have hnew : ofile = (s.proc p).ofile := ofile_of_gives (hq.ofile ▸ hgives)
    subst hnew
    exact .forked hunused (childMemory_of_copies h.memory htaken hcopied hmoves hregs) hgives.counted
  · rw [if_pos (by decide)]
    refine .bind (giveUp_ends (t := some t') hq hsound ?_ ?_) ?_
    · rw [space, frames_self, add_zero] at hfreed
      exact (htaken.trans (hfreed.frame {tf'})).congr rfl (add_comm _ _)
    · rintro _ ⟨⟩
      exact ⟨_, _, hmaps', trampolinePte_leaf _, trapframePte_leaf tf'⟩
    · rintro - s' hgave
      exact .ret (.failed hgave)

/-! ## A first process -/

/-- A slot that has never been used. -/
def emptySlot : Proc where
  state := .unused
  chan := .null
  killed := false
  xstate := 0
  pid := 0
  parent := none
  kstack := 0
  sz := 0
  pagetable := none
  trapframe := none
  context := ⟨0, 0, fun _ => 0⟩
  ofile := fun _ => none
  cwd := none
  name := List.replicate 16 0

theorem nfile_pos : 0 < NFILE := by decide

/-- One process, of one page, with an open file. -/
def oneProcess (t : Pagetable) (m : Mem) : Sys where
  mem := m
  proc := Function.update (fun _ => emptySlot) 0 { emptySlot with
    state := .running
    pid := 1
    sz := 4096
    pagetable := some t
    trapframe := some lastPage
    ofile := fun i => if i.val = 0 then some ⟨0, nfile_pos⟩ else none
    cwd := some 0 }
  nextpid := 2
  file := fun f => if f.val = 0 then ⟨1, .inode, true, false, none, some 0⟩ else ⟨0, .none, false, false, none, none⟩
  pipe := fun _ => ⟨false, false⟩
  iref := fun ip => if ip = 0 then 2 else 0
  ilocked := fun _ => false
  outstanding := 0
  forkret := 0x80001000

theorem clean_emptySlot : Clean emptySlot := ⟨rfl, rfl, rfl, rfl, rfl, rfl, rfl, rfl, rfl, rfl, rfl, rfl⟩

theorem parent_oneProcess {n : Nat} {m : Mem} (hn : n ≤ 100) (h : First n t 4096 m) :
    Parent (oneProcess t m) 0 t lastPage 0 0 (trampolinePte (boot n).ram) (trapframePte lastPage) where
  used := show ProcState.running ≠ .unused by decide
  pagetable := rfl
  trapframe := rfl
  cwd := rfl
  memory := by
    have hmoves := (h.moves.frame {lastPage}).congr (zero_add _) rfl
    refine ⟨h.maps, ?_, ?_⟩
    · rw [add_zero]
      exact (sound_boot hn).moves hmoves
    · rw [add_zero]
      exact (apart_boot hn).moves hmoves
  files i f hf := by
    have hf : (if i.val = 0 then some ⟨0, by decide⟩ else none) = some f := hf
    split_ifs at hf
    cases hf
    exact le_refl 1
  clean i hi := by
    by_cases hzero : i = 0
    · subst hzero
      exact absurd hi (show ProcState.running ≠ .unused by decide)
    · have hempty : (oneProcess t m).proc i = emptySlot := Function.update_of_ne hzero _ (fun _ => emptySlot)
      rw [hempty]
      exact clean_emptySlot

end Xv6.Process
