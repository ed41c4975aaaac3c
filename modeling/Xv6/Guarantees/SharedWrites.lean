import Xv6.Guarantees.FileArray
import Xv6.Source.Sysfile

/-!
# Writes through a shared file

Processes write through descriptors that name the same `struct file`. Each chunk is stored at the
offset that is read under the inode's lock, and the offset is moved before the lock is released. So
the chunks of all processes follow one another in the file, in any interleaving.
-/
namespace Xv6.Guarantees.SharedWrites

open Xv6.Library Xv6.Library.Thread Xv6.Source Xv6.Source.Fs Xv6.Source.Tables Xv6.Source.Sysfile Xv6.Inode
  Xv6.Guarantees.FileArray

/-! ## Chunks -/

/-- The bytes of the chunks, in the order in which they were written. -/
def written (chunks : List Chunk) : List UInt8 := chunks.flatMap Chunk.bytes

/-- The bytes that one process has written. -/
def bytesOf (t : Pid) (chunks : List Chunk) : List UInt8 := written (chunks.filter (·.pid = t))

/-- Each chunk starts where the one before it ends, the first at `off`. -/
def Consecutive (off : Nat) : List Chunk → Prop
  | [] => True
  | ch :: chs => ch.off = off ∧ Consecutive (off + ch.bytes.length) chs

theorem written_append (chunks : List Chunk) (ch : Chunk) : written (chunks ++ [ch]) = written chunks ++ ch.bytes := by
  simp [written]

theorem bytesOf_append (t : Pid) (chunks : List Chunk) (ch : Chunk) :
    bytesOf t (chunks ++ [ch]) = bytesOf t chunks ++ if ch.pid = t then ch.bytes else [] := by
  simp only [bytesOf, List.filter_append, List.filter_cons, List.filter_nil, decide_eq_true_eq]
  split
  · exact written_append _ _
  · simp

theorem Consecutive.append {off : Nat} {chunks : List Chunk} {ch : Chunk} (h : Consecutive off chunks)
    (hoff : ch.off = off + (written chunks).length) : Consecutive off (chunks ++ [ch]) := by
  induction chunks generalizing off with
  | nil => exact ⟨hoff, trivial⟩
  | cons c cs ih =>
    refine ⟨h.1, ih h.2 ?_⟩
    rw [hoff, written, List.flatMap_cons, List.length_append, written]
    omega

theorem Consecutive.le {off : Nat} {chunks : List Chunk} (h : Consecutive off chunks) :
    ∀ ch ∈ chunks, off ≤ ch.off := by
  induction chunks generalizing off with
  | nil => exact nofun
  | cons c cs ih =>
    intro ch hch
    rcases List.mem_cons.mp hch with rfl | hch
    · exact Nat.le_of_eq h.1.symm
    · have := ih h.2 ch hch
      omega

/-- Consecutive chunks are disjoint. -/
theorem Consecutive.disjoint {off : Nat} {chunks : List Chunk} (h : Consecutive off chunks) :
    chunks.Pairwise fun a b => a.off + a.bytes.length ≤ b.off := by
  induction chunks generalizing off with
  | nil => exact .nil
  | cons c cs ih =>
    refine .cons (fun b hb => ?_) (ih h.2)
    have := h.2.le b hb
    rwa [← h.1] at this

/-- Bytes laid over a file one behind the other. -/
theorem overlay_overlay {old a b : List UInt8} {off : Nat} (hend : off + a.length ≤ (overlay old off a).length) :
    overlay (overlay old off a) (off + a.length) b = overlay old off (a ++ b) := by
  have h : off ≤ old.length := by
    simp only [overlay, List.length_append, List.length_take, List.length_drop] at hend
    omega
  have hlen : (old.take off ++ a).length = off + a.length := by
    rw [List.length_append, List.length_take, Nat.min_eq_left h]
  have htake : (overlay old off a).take (off + a.length) = old.take off ++ a := by
    rw [overlay, ← hlen, List.take_left']
    rfl
  have hdrop : (overlay old off a).drop (off + a.length + b.length) = old.drop (off + (a ++ b).length) := by
    rw [overlay, ← hlen, List.drop_append, List.drop_eq_nil_of_le (by omega), List.nil_append, List.drop_drop, hlen]
    congr 1
    rw [List.length_append]
    omega
  rw [overlay, htake, hdrop, overlay, List.append_assoc _ a b]

theorem overlay_nil (old : List UInt8) (off : Nat) : overlay old off [] = old := by
  simp [overlay]

/-! ## The processes and what they share -/

/-- A call of `write`: the descriptor, the bytes that can be read at the address, and the length. -/
structure Job where
  fd : Int
  src : List UInt8
  n : Int

def Job.bytes (j : Job) : List UInt8 := j.src.take j.n.toNat

/-- A process makes its calls one after the other. -/
def writeAll : List Job → Code Unit
  | [] => return ()
  | j :: js => do
    let _ ← sysWrite j.fd j.src j.n 0
    writeAll js

/-- The descriptor of process `t` names the file. -/
def Names (s : State) (t : Pid) (f : FileId) (fd : Int) : Prop :=
  ∃ h : 0 ≤ fd ∧ fd.toNat < Proc.NOFILE, s.ofile t ⟨fd.toNat, fd_lt h⟩ = some f

/-- A call of `writei` writes all that it is given. -/
def NoChunkFails (sb : Superblock) (t : Pid) (op : Op) (s : State) : Prop :=
  match op with
  | .writei ip src off n => ∀ r s', exec sb t (.writei ip src off n) s = .ok (r, s') → r = n
  | _ => True

/-- A file open for writing before anybody writes: its inode is allocated and not locked, and what is
in memory of it is what is on the disk. -/
structure Ready (sb : Superblock) (f : FileId) (o : Open) (s : State) : Prop where
  file : s.file f = some o
  inode : o.device = false
  writable : o.writable = true
  held : 1 ≤ s.ref o.ip
  unlocked : s.lock o.ip = none
  consistent : Consistent sb s.disk
  live : Live sb (dinode sb s.disk) (s.inum o.ip)
  cached : s.valid o.ip = true → s.din o.ip = dinode sb s.disk (s.inum o.ip)
  nothing : s.chunks = []

/-- The moves of processes that write from the state `s₀` on. -/
def Writing (sb : Superblock) (s₀ : State) (jobs : Pid → List Job) (tr : List (Move Pid Op Unit))
    (c : Config Pid State Op Ret Unit) : Prop :=
  Transition.Run (Thread.Step (exec sb) (NoChunkFails sb) fun _ _ _ => False)
    ⟨s₀, fun t => some (writeAll (jobs t))⟩ tr c

/-! ## The invariant -/

/-- Where a process is: it does not hold the inode's lock, or it does, and `behind` bytes are stored
from the offset `off` on by which the file's offset has not been moved yet. -/
inductive Phase where
  | idle
  | holds (off : UInt32) (behind : Nat)

/-- What a process knows: the bytes it has still to write, and where it is. -/
structure Part where
  left : List UInt8
  phase : Phase

section invariant
variable {sb : Superblock} {s₀ s s' : State} {f : FileId} {o : Open} {all : Pid → List UInt8} {g : Pid → Part}

/-- What no writer changes. -/
structure Fixed (s₀ s : State) : Prop where
  file : s.file = s₀.file
  ofile : s.ofile = s₀.ofile
  ref : s.ref = s₀.ref
  inum : s.inum = s₀.inum

/-- The inode in memory and on the disk. -/
structure Stored (sb : Superblock) (o : Open) (i : Nat) (data : List UInt8) (s : State) : Prop where
  consistent : Consistent sb s.disk
  live : Live sb (dinode sb s.disk) i
  cached : s.valid o.ip = true → s.din o.ip = dinode sb s.disk i
  locked : s.lock o.ip ≠ none → s.valid o.ip = true
  data : (node sb s.disk i).data = data

/-- The offset of the file counts the bytes that are stored, but for those of the lock's holder. -/
structure Offset (f : FileId) (o : Open) (stored : Nat) (s : State) (g : Pid → Part) : Prop where
  holder : ∀ t, (g t).phase ≠ .idle ↔ s.lock o.ip = some t
  free : s.lock o.ip = none → (s.off f).toNat = stored
  held : ∀ t off behind, (g t).phase = .holds off behind →
    s.off f = off ∧ off.toNat + behind = stored ∧ stored < 2 ^ 32

/-- The chunks so far: where they lie, and whose bytes they are. -/
structure Written (start inum : Nat) (all : Pid → List UInt8) (chunks : List Chunk) (g : Pid → Part) : Prop where
  consecutive : Consecutive start chunks
  inode : ∀ ch ∈ chunks, ch.inum = inum
  order : ∀ t, bytesOf t chunks ++ (g t).left = all t

structure Inv (sb : Superblock) (f : FileId) (o : Open) (s₀ : State) (all : Pid → List UInt8) (s : State)
    (g : Pid → Part) : Prop where
  fixed : Fixed s₀ s
  stored : Stored sb o (s₀.inum o.ip) (overlay (node sb s₀.disk (s₀.inum o.ip)).data (s₀.off f).toNat
    (written s.chunks)) s
  offset : Offset f o ((s₀.off f).toNat + (written s.chunks).length) s g
  chunks : Written (s₀.off f).toNat (s₀.inum o.ip) all s.chunks g

def logic (sb : Superblock) (f : FileId) (o : Open) (s₀ : State) (all : Pid → List UInt8) :
    Logic Pid State Op (Pid → Part) Part where
  loc t g := g t
  inv := Inv sb f o s₀ all
  guard := NoChunkFails sb
  panics _ := False
  step _ _ _ _ := True

theorem Offset.lock_of_holds {stored : Nat} (h : Offset f o stored s g) {t : Pid} {off : UInt32} {behind : Nat}
    (hphase : (g t).phase = .holds off behind) : s.lock o.ip = some t :=
  (h.holder t).mp (by rw [hphase]; exact nofun)

theorem Offset.idle_of_ne {stored : Nat} (h : Offset f o stored s g) {t t' : Pid} {off : UInt32} {behind : Nat}
    (hphase : (g t).phase = .holds off behind) (hne : t' ≠ t) : (g t').phase = .idle := by
  by_contra hidle
  have hlock := (h.holder t').mp hidle
  rw [h.lock_of_holds hphase] at hlock
  exact hne (Option.some.inj hlock).symm

theorem Offset.idle_of_free {stored : Nat} (h : Offset f o stored s g) (hfree : s.lock o.ip = none) (t : Pid) :
    (g t).phase = .idle := by
  by_contra hidle
  have hlock := (h.holder t).mp hidle
  rw [hfree] at hlock
  exact nomatch hlock

/-- Only process `t` holds the lock, behind the stored bytes by `behind`. -/
theorem Offset.of_holds {stored behind : Nat} {t : Pid} {off : UInt32} {left : List UInt8}
    (hlock : s.lock o.ip = some t) (hidle : ∀ t', t' ≠ t → (g t').phase = .idle) (hoff : s.off f = off)
    (hbehind : off.toNat + behind = stored) (hlt : stored < 2 ^ 32) :
    Offset f o stored s (Function.update g t ⟨left, .holds off behind⟩) where
  holder t' := by
    by_cases htt : t' = t
    · subst htt
      rw [Function.update_self]
      exact ⟨fun _ => hlock, fun _ => nofun⟩
    · rw [Function.update_of_ne htt, hidle t' htt, hlock]
      exact ⟨fun h => absurd rfl h, fun h => absurd (Option.some.inj h).symm htt⟩
  free h := by
    rw [hlock] at h
    exact nomatch h
  held t' off' behind' h := by
    by_cases htt : t' = t
    · subst htt
      rw [Function.update_self] at h
      cases h
      exact ⟨hoff, hbehind, hlt⟩
    · rw [Function.update_of_ne htt, hidle t' htt] at h
      exact nomatch h

theorem Offset.of_free {stored : Nat} {t : Pid} {left : List UInt8} (hlock : s.lock o.ip = none)
    (hidle : ∀ t', t' ≠ t → (g t').phase = .idle) (hoff : (s.off f).toNat = stored) :
    Offset f o stored s (Function.update g t ⟨left, .idle⟩) := by
  have hall : ∀ t', (Function.update g t ⟨left, .idle⟩ t').phase = .idle := by
    intro t'
    by_cases htt : t' = t
    · subst htt
      rw [Function.update_self]
    · rw [Function.update_of_ne htt, hidle t' htt]
  refine ⟨fun t' => ?_, fun _ => hoff, fun t' off behind h => ?_⟩
  · rw [hall, hlock]
    exact ⟨fun h => absurd rfl h, nofun⟩
  · rw [hall] at h
    exact nomatch h

/-- A process that writes nothing leaves the chunks. -/
theorem Written.move {start inum : Nat} {chunks : List Chunk} {t : Pid} (h : Written start inum all chunks g)
    (phase : Phase) : Written start inum all chunks (Function.update g t ⟨(g t).left, phase⟩) where
  consecutive := h.consecutive
  inode := h.inode
  order t' := by
    by_cases htt : t' = t
    · subst htt
      rw [Function.update_self]
      exact h.order t'
    · rw [Function.update_of_ne htt]
      exact h.order t'

/-- A process has written the first of its bytes behind the chunks. -/
theorem Written.write {start inum : Nat} {chunks : List Chunk} {t : Pid} {bytes rest : List UInt8}
    (h : Written start inum all chunks g) (hleft : (g t).left = bytes ++ rest) (phase : Phase) :
    Written start inum all (chunks ++ [⟨t, inum, start + (written chunks).length, bytes⟩])
      (Function.update g t ⟨rest, phase⟩) where
  consecutive := h.consecutive.append rfl
  inode ch hch := by
    rcases List.mem_append.mp hch with hch | hch
    · exact h.inode ch hch
    · rw [List.mem_singleton.mp hch]
  order t' := by
    rw [bytesOf_append]
    by_cases htt : t' = t
    · subst htt
      rw [Function.update_self, if_pos rfl, List.append_assoc, ← hleft]
      exact h.order t'
    · rw [Function.update_of_ne htt, if_neg (Ne.symm htt), List.append_nil]
      exact h.order t'

/-- The log does not matter. -/
theorem Inv.logged (h : Inv sb f o s₀ all s g) (outstanding : Nat) (blocks : List Nat) :
    Inv sb f o s₀ all { s with outstanding, disk := { s.disk with logged := blocks } } g where
  fixed := ⟨h.fixed.file, h.fixed.ofile, h.fixed.ref, h.fixed.inum⟩
  stored := ⟨h.stored.consistent.block rfl, h.stored.live, h.stored.cached, h.stored.locked, h.stored.data⟩
  offset := ⟨h.offset.holder, h.offset.free, h.offset.held⟩
  chunks := h.chunks

end invariant

/-! ## The steps -/

section steps
variable {sb : Superblock} {s₀ : State} {f : FileId} {o : Open} {all : Pid → List UInt8} {t : Pid} {ℓ : Part}
  {left : List UInt8} {off : UInt32} {behind : Nat}

/-- An operation that returns or has to wait. -/
theorem rule {op : Op} {post : Ret op → Part → Prop}
    (h : ∀ s g, Inv sb f o s₀ all s g → g t = ℓ → NoChunkFails sb t op s → exec sb t op s = .blocked ∨
      ∃ r s' ℓ', exec sb t op s = .ok (r, s') ∧ Inv sb f o s₀ all s' (Function.update g t ℓ') ∧ post r ℓ') :
    Does (exec sb) (logic sb f o s₀ all) t op ℓ post := by
  refine Does.local (fun _ _ => rfl) fun s g hinv hg hguard => ?_
  rcases h s g hinv hg hguard with hblocked | ⟨r, s', ℓ', hok, hinv', hpost⟩
  · exact .inl hblocked
  · exact .inr ⟨r, s', ℓ', hok, trivial, hinv', hpost⟩

theorem does_getFd (fd : Fd) : Does (exec sb) (logic sb f o s₀ all) t (.getFd fd) ℓ fun r ℓ' =>
    r = s₀.ofile t fd ∧ ℓ' = ℓ := by
  refine rule fun s g hinv hg _ => .inr ⟨s.ofile t fd, s, ℓ, rfl, ?_, by rw [hinv.fixed.ofile], rfl⟩
  rwa [← hg, Function.update_eq_self]

theorem does_getFile : Does (exec sb) (logic sb f o s₀ all) t (.getFile f) ℓ fun r ℓ' =>
    r.1 = s₀.file f ∧ (∀ off behind, ℓ.phase = .holds off behind → r.2 = off) ∧ ℓ' = ℓ := by
  refine rule fun s g hinv hg _ => .inr ⟨(s.file f, s.off f), s, ℓ, rfl, ?_, by rw [hinv.fixed.file], ?_, rfl⟩
  · rwa [← hg, Function.update_eq_self]
  · intro off behind hphase
    rw [← hg] at hphase
    exact (hinv.offset.held t off behind hphase).1

theorem does_beginOp : Does (exec sb) (logic sb f o s₀ all) t .beginOp ℓ fun _ ℓ' => ℓ' = ℓ := by
  refine rule fun s g hinv hg _ => .inr ⟨(), _, ℓ, rfl, ?_, rfl⟩
  rw [← hg, Function.update_eq_self]
  exact hinv.logged _ s.disk.logged

theorem does_endOp : Does (exec sb) (logic sb f o s₀ all) t .endOp ℓ fun _ ℓ' => ℓ' = ℓ := by
  refine rule fun s g hinv hg _ => .inr ?_
  by_cases hlast : s.outstanding = 1
  · refine ⟨(), _, ℓ, if_pos hlast, ?_, rfl⟩
    rw [← hg, Function.update_eq_self]
    exact hinv.logged _ _
  · refine ⟨(), _, ℓ, if_neg hlast, ?_, rfl⟩
    rw [← hg, Function.update_eq_self]
    exact hinv.logged _ s.disk.logged

theorem does_ilock (hheld : 1 ≤ s₀.ref o.ip) : Does (exec sb) (logic sb f o s₀ all) t (.ilock o.ip) ⟨left, .idle⟩
    fun _ ℓ' => ∃ off, ℓ' = ⟨left, .holds off 0⟩ := by
  refine rule fun s g hinv hg _ => ?_
  have href : ¬ s.ref o.ip < 1 := by rw [hinv.fixed.ref]; omega
  cases hlock : s.lock o.ip with
  | some u => exact .inl (by simp [exec, href, hlock])
  | none =>
    have hoff := hinv.offset.free hlock
    have hlt : (s₀.off f).toNat + (written s.chunks).length < 2 ^ 32 := hoff ▸ (s.off f).toNat_lt
    have hchunks := hinv.chunks.move (t := t) (.holds (s.off f) 0)
    rw [hg] at hchunks
    have hidle : ∀ t', t' ≠ t → (g t').phase = .idle := fun t' _ => hinv.offset.idle_of_free hlock t'
    have hinum := congrFun hinv.fixed.inum o.ip
    refine .inr ?_
    by_cases hvalid : s.valid o.ip = true
    · refine ⟨(), { s with lock := Function.update s.lock o.ip (some t) }, ⟨left, .holds (s.off f) 0⟩,
        by simp [exec, href, hlock, hvalid], ⟨?_, ?_, ?_, hchunks⟩, ⟨_, rfl⟩⟩
      · exact ⟨hinv.fixed.file, hinv.fixed.ofile, hinv.fixed.ref, hinv.fixed.inum⟩
      · exact ⟨hinv.stored.consistent, hinv.stored.live, hinv.stored.cached, fun _ => hvalid, hinv.stored.data⟩
      · exact .of_holds (Function.update_self ..) hidle rfl hoff hlt
    · have htype : (dinode sb s.disk (s.inum o.ip)).type ≠ 0 := hinum ▸ hinv.stored.live.2
      refine ⟨(), { s with
          lock := Function.update s.lock o.ip (some t)
          valid := Function.update s.valid o.ip true
          din := Function.update s.din o.ip (dinode sb s.disk (s.inum o.ip)) }, ⟨left, .holds (s.off f) 0⟩,
        by simp [exec, href, hlock, hvalid, htype], ⟨?_, ?_, ?_, hchunks⟩, ⟨_, rfl⟩⟩
      · exact ⟨hinv.fixed.file, hinv.fixed.ofile, hinv.fixed.ref, hinv.fixed.inum⟩
      · refine ⟨hinv.stored.consistent, hinv.stored.live, fun _ => ?_, fun _ => Function.update_self ..,
          hinv.stored.data⟩
        show Function.update s.din o.ip _ o.ip = _
        rw [Function.update_self, hinum]
      · exact .of_holds (Function.update_self ..) hidle rfl hoff hlt

theorem does_iunlock (hheld : 1 ≤ s₀.ref o.ip) : Does (exec sb) (logic sb f o s₀ all) t (.iunlock o.ip)
    ⟨left, .holds off 0⟩ fun _ ℓ' => ℓ' = ⟨left, .idle⟩ := by
  refine rule fun s g hinv hg _ => .inr ?_
  have hphase : (g t).phase = .holds off 0 := by rw [hg]
  have hlock := hinv.offset.lock_of_holds hphase
  have href : ¬ s.ref o.ip < 1 := by rw [hinv.fixed.ref]; omega
  obtain ⟨hoff, hsum, -⟩ := hinv.offset.held t off 0 hphase
  have hchunks := hinv.chunks.move (t := t) .idle
  rw [hg] at hchunks
  refine ⟨(), { s with lock := Function.update s.lock o.ip none }, ⟨left, .idle⟩, by simp [exec, hlock, href],
    ⟨?_, ?_, ?_, hchunks⟩, rfl⟩
  · exact ⟨hinv.fixed.file, hinv.fixed.ofile, hinv.fixed.ref, hinv.fixed.inum⟩
  · exact ⟨hinv.stored.consistent, hinv.stored.live, hinv.stored.cached,
      fun h => absurd (Function.update_self ..) h, hinv.stored.data⟩
  · refine .of_free (Function.update_self ..) (fun t' => hinv.offset.idle_of_ne hphase) ?_
    rw [← hsum, ← hoff]
    rfl

/-- `f->off += r` makes up for the bytes that are stored. -/
theorem does_setOff : Does (exec sb) (logic sb f o s₀ all) t (.setOff f (off + UInt32.ofNat behind))
    ⟨left, .holds off behind⟩ fun _ ℓ' => ℓ' = ⟨left, .holds (off + UInt32.ofNat behind) 0⟩ := by
  refine rule fun s g hinv hg _ => .inr ?_
  have hphase : (g t).phase = .holds off behind := by rw [hg]
  obtain ⟨-, hsum, hlt⟩ := hinv.offset.held t off behind hphase
  have hchunks := hinv.chunks.move (t := t) (.holds (off + UInt32.ofNat behind) 0)
  rw [hg] at hchunks
  refine ⟨(), { s with off := Function.update s.off f (off + UInt32.ofNat behind) }, _, rfl, ⟨?_, ?_, ?_, hchunks⟩, rfl⟩
  · exact ⟨hinv.fixed.file, hinv.fixed.ofile, hinv.fixed.ref, hinv.fixed.inum⟩
  · exact ⟨hinv.stored.consistent, hinv.stored.live, hinv.stored.cached, hinv.stored.locked, hinv.stored.data⟩
  · refine .of_holds (hinv.offset.lock_of_holds hphase) (fun t' => hinv.offset.idle_of_ne hphase)
      (Function.update_self ..) ?_ hlt
    have hbehind : behind < 2 ^ 32 := by omega
    rw [UInt32.toNat_add, UInt32.toNat_ofNat_of_lt' hbehind, Nat.mod_eq_of_lt (by omega)]
    exact hsum

theorem exec_writei {s : State} {ip : Entry} {src : List UInt8} {m n : Nat} {w : WriteResult}
    (h : writei sb s.disk (s.inum ip) (s.din ip) src m n = .ok w) :
    exec sb t (.writei ip src m n) s = .ok (w.ret, { s with
      disk := w.disk
      din := Function.update s.din ip w.din
      chunks := s.chunks ++ [⟨t, s.inum ip, m, src.take w.ret.toNat⟩] }) := by
  rw [exec, h]

/-- A call of `writei` that does not fail lays all of its bytes over the file. -/
theorem writei_whole {s : State} {i m n : Nat} {data src : List UInt8} (hgeo : Geometry sb) (h : Stored sb o i data s)
    (hinum : s.inum o.ip = i) (hlock : s.lock o.ip = some t) (hpos : 0 < n) (hn : n < 2 ^ 32)
    (hguard : NoChunkFails sb t (.writei o.ip src m n) s) :
    ∃ d' din', writei sb s.disk (s.inum o.ip) (s.din o.ip) src m n = .ok ⟨n, d', din'⟩ ∧ (src.take n).length = n ∧
      m ≤ data.length ∧ m + n < 2 ^ 32 ∧ Consistent sb d' ∧ Live sb (dinode sb d') i ∧ dinode sb d' i = din' ∧
      (node sb d' i).data = overlay data m (src.take n) := by
  have hdin := h.cached (h.locked (by rw [hlock]; exact nofun))
  have hwhole : ∀ w, writei sb s.disk (s.inum o.ip) (s.din o.ip) src m n = .ok w → w.ret = n :=
    fun w hw => hguard _ _ (exec_writei hw)
  rw [hinum, hdin] at hwhole ⊢
  have hfits : m ≤ (dinode sb s.disk i).size.toNat ∧ m + n ≤ MAXFILE * BSIZE := by
    by_contra hrefused
    exact nomatch hwhole _ (writei_refused hrefused hn)
  obtain ⟨tot, w, d', din', new, hwritei, hc', hdin', -, hwrote, hnode⟩ :=
    writei_node hgeo h.consistent h.live src hfits.1 hfits.2
  obtain rfl : tot = n := Int.ofNat.inj (hwhole _ hwritei)
  have hnew : node sb d' i = new := by rw [hnode, Function.update_self]
  have hM : MAXFILE * BSIZE = 274432 := rfl
  refine ⟨d', din', hwritei, ?_, ?_, by omega, hc', ?_, hdin', ?_⟩
  · rw [List.length_take, Nat.min_eq_left hwrote.tot_src]
  · rw [← h.data]
    exact hwrote.off_le
  · rw [live_iff, hnew, hwrote.node]
    exact live_iff.1 h.live
  · rw [hnew, Wrote.data_of_all hwrote, h.data]

theorem does_writei (hgeo : Geometry sb) {src rest : List UInt8} {n : Nat} (hpos : 0 < n) (hn : n < 2 ^ 32) :
    Does (exec sb) (logic sb f o s₀ all) t (.writei o.ip src off.toNat n) ⟨src.take n ++ rest, .holds off 0⟩
      fun r ℓ' => r = n ∧ ℓ' = ⟨rest, .holds off n⟩ := by
  refine rule fun s g hinv hpart hguard => .inr ?_
  have hphase : (g t).phase = .holds off 0 := by rw [hpart]
  obtain ⟨hoff, hsum, -⟩ := hinv.offset.held t off 0 hphase
  have hlock := hinv.offset.lock_of_holds hphase
  have hinum := congrFun hinv.fixed.inum o.ip
  obtain ⟨d', din', hwritei, hlen, hend, hlt, hc', hlive', hdin', hdata⟩ :=
    writei_whole hgeo hinv.stored hinum hlock hpos hn hguard
  rw [Nat.add_zero] at hsum
  rw [hsum] at hend hlt hdata
  rw [overlay_overlay hend] at hdata
  have hwrote : written (s.chunks ++ [⟨t, s₀.inum o.ip, off.toNat, src.take n⟩]) = written s.chunks ++ src.take n :=
    written_append _ _
  have htotal : (written s.chunks ++ src.take n).length = (written s.chunks).length + n := by
    rw [List.length_append, hlen]
  refine ⟨n, { s with
      disk := d'
      din := Function.update s.din o.ip din'
      chunks := s.chunks ++ [⟨t, s₀.inum o.ip, off.toNat, src.take n⟩] }, ⟨rest, .holds off n⟩,
    (exec_writei hwritei).trans (by rw [hinum]; rfl), ⟨?_, ?_, ?_, ?_⟩, rfl, rfl⟩
  · exact ⟨hinv.fixed.file, hinv.fixed.ofile, hinv.fixed.ref, hinv.fixed.inum⟩
  · refine ⟨hc', hlive', fun _ => ?_, hinv.stored.locked, by rw [hwrote]; exact hdata⟩
    rw [hdin']
    exact Function.update_self ..
  · show Offset f o ((s₀.off f).toNat + (written (s.chunks ++ [_])).length) _ _
    rw [hwrote, htotal]
    exact .of_holds hlock (fun t' => hinv.offset.idle_of_ne hphase) hoff (by omega) (by omega)
  · rw [hsum]
    exact hinv.chunks.write (by rw [hpart]) _

/-! ## The calls -/

/-- The bytes of a job from `i` on are those of the next chunk and the others. -/
theorem take_chunk (src : List UInt8) {i n n1 : Nat} (h : n1 ≤ n - i) :
    (src.drop i).take (n - i) = (src.drop i).take n1 ++ (src.drop (i + n1)).take (n - (i + n1)) := by
  rw [← List.drop_drop, ← List.take_add]
  congr 1
  omega

theorem safe_filewriteLoop (hgeo : Geometry sb) (hheld : 1 ≤ s₀.ref o.ip) (src rest : List UInt8) {n : Nat}
    (rounds i : Nat) (hrounds : n - i ≤ rounds) :
    Safe (exec sb) (logic sb f o s₀ all) t (filewriteLoop f o.ip src n rounds i)
      ⟨(src.drop i).take (n - i) ++ rest, .idle⟩ fun _ ℓ' => ℓ' = ⟨rest, .idle⟩ := by
  induction rounds generalizing i with
  | zero =>
    refine Safe.ret ?_
    rw [Nat.le_zero.mp hrounds, List.take_zero, List.nil_append]
  | succ rounds ih =>
    rw [filewriteLoop]
    split
    swap
    · refine Safe.ret ?_
      rw [show n - i = 0 by omega, List.take_zero, List.nil_append]
    rename_i hi
    have hle : min (n - i) maxWrite ≤ n - i := Nat.min_le_left ..
    have hmax : maxWrite = 3072 := by decide
    have hpos : 0 < min (n - i) maxWrite := by omega
    have hlt : min (n - i) maxWrite < 2 ^ 32 := by omega
    rw [take_chunk src hle, List.append_assoc]
    dsimp only
    generalize min (n - i) maxWrite = n1 at hle hpos hlt
    refine Safe.bind (Safe.op does_beginOp) ?_
    rintro _ ℓ' rfl
    refine Safe.bind (Safe.op (does_ilock hheld)) ?_
    rintro _ ℓ' ⟨off, rfl⟩
    refine Safe.bind (Safe.op does_getFile) ?_
    rintro ⟨o', off'⟩ ℓ' ⟨-, hoff, rfl⟩
    obtain rfl := hoff off 0 rfl
    refine Safe.bind (Safe.op (does_writei hgeo hpos hlt)) ?_
    rintro r ℓ' ⟨rfl, rfl⟩
    have hr : (0 : Int) < n1 := by omega
    rw [if_pos hr, Int.toNat_natCast]
    refine Safe.bind (Safe.op does_getFile) ?_
    rintro ⟨o'', off''⟩ ℓ' ⟨-, hoff, rfl⟩
    obtain rfl := hoff off' n1 rfl
    refine Safe.bind (Safe.op does_setOff) ?_
    rintro _ ℓ' rfl
    refine Safe.bind (Safe.op (does_iunlock hheld)) ?_
    rintro _ ℓ' rfl
    refine Safe.bind (Safe.op does_endOp) ?_
    rintro _ ℓ' rfl
    rw [if_neg (by simp)]
    exact ih (i + n1) (by omega)

theorem safe_argfd {fd : Int} (hfd : Names s₀ t f fd) :
    Safe (exec sb) (logic sb f o s₀ all) t (argfd fd) ℓ fun r ℓ' => (∃ i, r = some (i, f)) ∧ ℓ' = ℓ := by
  obtain ⟨hrange, hname⟩ := hfd
  rw [argfd, dif_pos hrange]
  refine Safe.bind (Safe.op (does_getFd _)) ?_
  rintro r ℓ' ⟨rfl, rfl⟩
  exact Safe.ret ⟨⟨_, by rw [hname]; rfl⟩, rfl⟩

theorem safe_sysWrite (hgeo : Geometry sb) (h : Ready sb f o s₀) (j : Job) (hfd : Names s₀ t f j.fd)
    (rest : List UInt8) : Safe (exec sb) (logic sb f o s₀ all) t (sysWrite j.fd j.src j.n 0)
      ⟨j.bytes ++ rest, .idle⟩ fun _ ℓ' => ℓ' = ⟨rest, .idle⟩ := by
  refine Safe.bind (safe_argfd hfd) ?_
  rintro r ℓ' ⟨⟨i, rfl⟩, rfl⟩
  dsimp only
  rw [filewrite]
  refine Safe.bind (Safe.op does_getFile) ?_
  rintro ⟨o', off⟩ ℓ' ⟨ho', -, rfl⟩
  obtain rfl : o' = some o := ho'.trans h.file
  dsimp only
  rw [h.writable, h.inode, if_neg nofun, if_neg nofun]
  split
  · refine Safe.ret ?_
    rw [Job.bytes, Int.toNat_of_nonpos (by omega), List.take_zero, List.nil_append]
  refine Safe.bind (safe_filewriteLoop hgeo h.held j.src rest j.n.toNat 0 (Nat.le_refl _)) ?_
  rintro r ℓ' rfl
  exact Safe.ret rfl

theorem safe_writeAll (hgeo : Geometry sb) (h : Ready sb f o s₀) (jobs : List Job)
    (hfd : ∀ j ∈ jobs, Names s₀ t f j.fd) :
    Safe (exec sb) (logic sb f o s₀ all) t (writeAll jobs) ⟨jobs.flatMap Job.bytes, .idle⟩
      fun _ ℓ' => ℓ' = ⟨[], .idle⟩ := by
  induction jobs with
  | nil => exact Safe.ret rfl
  | cons j js ih =>
    rw [List.flatMap_cons]
    refine Safe.bind (safe_sysWrite hgeo h j (hfd j (List.mem_cons_self ..)) _) ?_
    rintro _ ℓ' rfl
    exact ih fun j' hj' => hfd j' (List.mem_cons_of_mem _ hj')

end steps

/-! ## Every run -/

section run
variable {sb : Superblock} {s₀ : State} {f : FileId} {o : Open} {jobs : Pid → List Job}

theorem inv_start (h : Ready sb f o s₀) :
    Inv sb f o s₀ (fun t => (jobs t).flatMap Job.bytes) s₀ fun t => ⟨(jobs t).flatMap Job.bytes, .idle⟩ where
  fixed := ⟨rfl, rfl, rfl, rfl⟩
  stored := by
    refine ⟨h.consistent, h.live, h.cached, fun hlock => absurd h.unlocked hlock, ?_⟩
    rw [h.nothing]
    exact (overlay_nil _ _).symm
  offset := by
    rw [h.nothing]
    refine ⟨fun t => ?_, fun _ => rfl, nofun⟩
    rw [h.unlocked]
    exact ⟨fun hidle => absurd rfl hidle, nofun⟩
  chunks := by
    rw [h.nothing]
    exact ⟨trivial, nofun, fun _ => rfl⟩

theorem good_run (hgeo : Geometry sb) (h : Ready sb f o s₀) (hfd : ∀ t, ∀ j ∈ jobs t, Names s₀ t f j.fd)
    {tr : List (Move Pid Op Unit)} {c : Config Pid State Op Ret Unit} (hrun : Writing sb s₀ jobs tr c) :
    ∃ g, Good (exec sb) (logic sb f o s₀ fun t => (jobs t).flatMap Job.bytes) (fun ℓ => ℓ = ⟨[], .idle⟩) c g := by
  have hstart : Good (exec sb) (logic sb f o s₀ fun t => (jobs t).flatMap Job.bytes) (fun ℓ => ℓ = ⟨[], .idle⟩)
      ⟨s₀, fun t => some (writeAll (jobs t))⟩ fun t => ⟨(jobs t).flatMap Job.bytes, .idle⟩ := by
    refine ⟨inv_start h, fun t hnone => (nomatch hnone), fun t p hp => ?_⟩
    cases hp
    exact safe_writeAll hgeo h (jobs t) (hfd t)
  exact hstart.run (fun _ _ _ _ h => h.elim) hrun

/-- Processes write through one file, each any calls with any lengths, in any interleaving in which no
chunk fails. -/
theorem shared_writes_consecutive (hgeo : Geometry sb) (h : Ready sb f o s₀)
    (hfd : ∀ t, ∀ j ∈ jobs t, Names s₀ t f j.fd) {tr : List (Move Pid Op Unit)}
    {c : Config Pid State Op Ret Unit} (hrun : Writing sb s₀ jobs tr c) :
    Consecutive (s₀.off f).toNat c.state.chunks ∧
    (c.state.chunks.Pairwise fun a b => a.off + a.bytes.length ≤ b.off) ∧
    (∀ ch ∈ c.state.chunks, ch.inum = s₀.inum o.ip) ∧
    (∀ t, bytesOf t c.state.chunks <+: (jobs t).flatMap Job.bytes ∧
      (c.prog t = none → bytesOf t c.state.chunks = (jobs t).flatMap Job.bytes)) ∧
    ((∀ t, c.prog t = none) ∨ c.state.lock o.ip = none →
      (c.state.off f).toNat = (s₀.off f).toNat + (written c.state.chunks).length) ∧
    (node sb c.state.disk (s₀.inum o.ip)).data =
      overlay (node sb s₀.disk (s₀.inum o.ip)).data (s₀.off f).toNat (written c.state.chunks) := by
  obtain ⟨g, hgood⟩ := good_run hgeo h hfd hrun
  have hinv : Inv sb f o s₀ _ c.state g := hgood.inv
  have hidle : ∀ t, c.prog t = none → g t = ⟨[], .idle⟩ := hgood.idle
  refine ⟨hinv.chunks.consecutive, hinv.chunks.consecutive.disjoint, hinv.chunks.inode, fun t => ⟨?_, fun hdone => ?_⟩,
    fun hrest => hinv.offset.free ?_, hinv.stored.data⟩
  · exact ⟨_, hinv.chunks.order t⟩
  · rw [← hinv.chunks.order t, hidle t hdone, List.append_nil]
  · rcases hrest with hdone | hfree
    · cases hlock : c.state.lock o.ip with
      | none => rfl
      | some t =>
        have hphase := (hinv.offset.holder t).mpr hlock
        rw [hidle t (hdone t)] at hphase
        exact absurd rfl hphase
    · exact hfree

end run

/-- A process that writes one byte through descriptor 0. -/
def oneByte (t : Pid) : List Job := if t = 0 then [⟨0, [9], 1⟩] else []

def firstFile : FileId := ⟨0, by decide⟩

def firstOpen : Open := ⟨false, true, true, ⟨0, by decide⟩, 0⟩

/-- Every descriptor names one file, on inode 1, of which one byte has been passed. -/
def onePassed (d : Disk) : State :=
  ⟨d, fun _ => 1, fun _ => 1, fun _ => none, fun _ => true, fun _ => dinode Mkfs.sb d 1, fun _ => some firstOpen,
    fun _ => 1, fun _ _ => some firstFile, 0, []⟩

/-- The second of two bytes is overwritten. -/
theorem shared_writes_consecutive_one : ∃ s₀ tr c, (node Mkfs.sb s₀.disk 1).data = [7, 8] ∧
    Writing Mkfs.sb s₀ oneByte tr c ∧ bytesOf 0 c.state.chunks = [9] ∧ (c.state.off firstFile).toNat = 2 ∧
    (node Mkfs.sb c.state.disk 1).data = [7, 9] := by
  obtain ⟨d, d', din', hc, hi, hcontent, hwritei⟩ := one_byte_over_two
  have hready : Ready Mkfs.sb firstFile firstOpen (onePassed d) :=
    ⟨rfl, rfl, rfl, Nat.le_refl 1, rfl, hc, hi, fun _ => rfl, rfl⟩
  have hfd : ∀ t, ∀ j ∈ oneByte t, Names (onePassed d) t firstFile j.fd := by
    intro t j hj
    unfold oneByte at hj
    split at hj
    · rw [List.mem_singleton.mp hj]
      exact ⟨by decide, rfl⟩
    · exact nomatch hj
  have hdata : (node Mkfs.sb d 1).data = [7, 8] := by rw [← content_eq_data hi, hcontent]
  have hstart : Writing Mkfs.sb (onePassed d) oneByte [] ⟨onePassed d, fun t => some (writeAll (oneByte t))⟩ := .nil
  have hrun₁ := (((((hstart.snoc (.act (t := 0) rfl trivial rfl)).snoc (.act (t := 0) rfl trivial rfl)).snoc
    (.act (t := 0) rfl trivial rfl)).snoc (.act (t := 0) rfl trivial rfl)).snoc (.act (t := 0) rfl trivial rfl))
  let s₁ : State := { onePassed d with
    outstanding := 1, lock := Function.update (onePassed d).lock firstOpen.ip (some 0) }
  have hcall : writei Mkfs.sb s₁.disk (s₁.inum firstOpen.ip) (s₁.din firstOpen.ip) [9] 1 1 = .ok ⟨1, d', din'⟩ := hwritei
  have hexec := exec_writei (t := 0) hcall
  have hwhole : NoChunkFails Mkfs.sb 0 (.writei firstOpen.ip [9] 1 1) s₁ := by
    intro r s' hok
    rw [hexec] at hok
    cases hok
    rfl
  have hrun := ((((((hrun₁.snoc (.act (t := 0) rfl hwhole hexec)).snoc (.act (t := 0) rfl trivial rfl)).snoc
    (.act (t := 0) rfl trivial rfl)).snoc (.act (t := 0) rfl trivial rfl)).snoc (.act (t := 0) rfl trivial rfl)).snoc
    (.finish (t := 0) rfl))
  obtain ⟨-, -, -, horder, hoff, hend⟩ := shared_writes_consecutive geometry_mkfs hready hfd hrun
  refine ⟨onePassed d, _, _, hdata, hrun, ?_, ?_, ?_⟩
  · exact (horder 0).2 rfl
  · exact hoff (.inr rfl)
  · refine hend.trans ?_
    show overlay (node Mkfs.sb d 1).data 1 [9] = [7, 9]
    rw [hdata]
    rfl

end Xv6.Guarantees.SharedWrites
