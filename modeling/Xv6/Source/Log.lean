import Xv6.Source.Block

/-!
# kernel/log.c

The in-memory log and the text of `commit` and `recover_from_log`. The functions
that run under `log.lock` (`begin_op`, `end_op`, `log_write`) are functions on the
log. The functions that run without it and sleep in the buffer cache (`write_log`,
`write_head`, `install_trans`, `read_head`) are given by their program points:
`code` names the next call of each point and where control goes after it, reading
`log.lh` again at every loop test and operand as the C code does.
-/
namespace Xv6.Source

/-- `lh->n` as the loops of `read_head` and `install_trans` use it: a negative
`int` runs no iteration. -/
def headCount (d : Block) : Nat :=
  if (d.getInt 0).toNat < 2 ^ 31 then (d.getInt 0).toNat else 0

/-- The loop of `read_head`. -/
def getHead (d : Block) : List UInt32 := (List.range (headCount d)).map fun i => d.getInt (i + 1)

/-- The loop of `write_head` from index `i` on. -/
def setBlocks (d : Block) (i : Nat) : List UInt32 → Block
  | [] => d
  | b :: rest => setBlocks (d.setInt (i + 1) b) (i + 1) rest

/-- `hb->n = log.lh.n` and the loop of `write_head`; the other bytes stay. -/
def setHead (d : Block) (lh : List UInt32) : Block :=
  setBlocks (d.setInt 0 (UInt32.ofNat lh.length)) 0 lh

theorem setBlocks_getInt (lh : List UInt32) (d : Block) (i k : Nat)
    (hfit : i + lh.length < BSIZE / 4) (hk : k < BSIZE / 4) :
    (setBlocks d i lh).getInt k =
      if i < k ∧ k ≤ i + lh.length then lh.getD (k - (i + 1)) 0 else d.getInt k := by
  induction lh generalizing d i with
  | nil =>
    rw [if_neg (by simp only [List.length_nil]; omega)]
    rfl
  | cons b rest ih =>
    simp only [List.length_cons] at hfit ⊢
    rw [setBlocks, ih _ _ (by omega)]
    by_cases hin : i + 1 < k ∧ k ≤ i + 1 + rest.length
    · rw [if_pos hin, if_pos (by omega)]
      obtain ⟨j, rfl⟩ : ∃ j, k = i + 1 + 1 + j := ⟨k - (i + 2), by omega⟩
      rw [show i + 1 + 1 + j - (i + 1) = j + 1 by omega,
        show i + 1 + 1 + j - (i + 1 + 1) = j by omega, List.getD_cons_succ]
    · rw [if_neg hin]
      by_cases hfirst : k = i + 1
      · subst hfirst
        rw [if_pos (by omega), Block.getInt_setInt _ _ _ (by omega), Nat.sub_self,
          List.getD_cons_zero]
      · rw [if_neg (by omega), Block.getInt_setInt_ne _ _ _ _ hk hfirst]

/-- The header on disk reads back as the list it was written from. -/
theorem getHead_setHead (d : Block) (lh : List UInt32) (hfit : lh.length ≤ LOGSIZE) :
    getHead (setHead d lh) = lh := by
  have hL : LOGSIZE = 30 := rfl
  have hB : BSIZE / 4 = 256 := rfl
  have hn : (UInt32.ofNat lh.length).toNat = lh.length := by
    rw [UInt32.toNat_ofNat']
    omega
  have hcount : headCount (setHead d lh) = lh.length := by
    have h0 : (setHead d lh).getInt 0 = UInt32.ofNat lh.length := by
      rw [setHead, setBlocks_getInt _ _ _ _ (by omega) (by omega), if_neg (by omega),
        Block.getInt_setInt _ _ _ (by omega)]
    rw [headCount, h0, hn, if_pos (by omega)]
  apply List.ext_getElem
  · simp [getHead, hcount]
  · intro i hi hi'
    simp only [getHead, List.getElem_map, List.getElem_range]
    rw [setHead, setBlocks_getInt _ _ _ _ (by omega) (by omega), if_pos (by omega)]
    simp [hi']

theorem getInt_setHead_nil (d : Block) : (setHead d []).getInt 0 = 0 :=
  Block.getInt_setInt _ _ _ (by decide)

theorem getHead_eq_nil {d : Block} (h : d.getInt 0 = 0) : getHead d = [] := by
  simp [getHead, headCount, h]

/-- Clearing a header that is already clear writes the same bytes. -/
theorem setHead_nil_eq {d : Block} (h : d.getInt 0 = 0) : setHead d [] = d := by
  have hs := Block.setInt_getInt d 0
  rw [h] at hs
  exact hs

/-- What `initlog` takes from the superblock: `sb->logstart` and `sb->nlog`. -/
structure Geometry where
  start : UInt32
  size : Nat
  deriving DecidableEq, Repr

/-- The log that `mkfs` makes: `sb.logstart = xint(2)` and `nlog = LOGSIZE`. -/
def Geometry.mkfs : Geometry := ⟨2, LOGSIZE⟩

/-- The header block and the `size - 1` log blocks behind it. -/
def Geometry.area (g : Geometry) (b : UInt32) : Prop := (b - g.start).toNat < g.size

instance (g : Geometry) (b : UInt32) : Decidable (g.area b) :=
  inferInstanceAs (Decidable (_ < _))

/-- `log.start+tail+1`. -/
def Geometry.logBlock (g : Geometry) (tail : Nat) : UInt32 := g.start + UInt32.ofNat tail + 1

theorem Geometry.logBlock_sub (g : Geometry) (tail : Nat) (h : tail + 1 < 2 ^ 32) :
    (g.logBlock tail - g.start).toNat = tail + 1 := by
  have e : g.logBlock tail - g.start = UInt32.ofNat (tail + 1) := by
    rw [Geometry.logBlock, UInt32.ofNat_add, UInt32.add_assoc, UInt32.add_comm, UInt32.add_sub_cancel]
    rfl
  rw [e, UInt32.toNat_ofNat']
  omega

theorem Geometry.area_logBlock (g : Geometry) (tail : Nat) (h : tail + 1 < g.size)
    (hb : tail < LOGSIZE) : g.area (g.logBlock tail) := by
  have hL : LOGSIZE = 30 := rfl
  unfold Geometry.area
  rw [g.logBlock_sub tail (by omega)]
  exact h

theorem Geometry.logBlock_inj (g : Geometry) {i j : Nat} (hi : i < LOGSIZE) (hj : j < LOGSIZE)
    (h : g.logBlock i = g.logBlock j) : i = j := by
  have hL : LOGSIZE = 30 := rfl
  have e := g.logBlock_sub i (by omega)
  rw [h, g.logBlock_sub j (by omega)] at e
  omega

theorem Geometry.logBlock_ne_start (g : Geometry) {i : Nat} (hi : i < LOGSIZE) :
    g.logBlock i ≠ g.start := by
  have hL : LOGSIZE = 30 := rfl
  intro h
  have e := g.logBlock_sub i (by omega)
  rw [h] at e
  simp at e

theorem Geometry.area_start (g : Geometry) (h : 0 < g.size) : g.area g.start := by
  simpa [Geometry.area] using h

/-- The calls of `panic` in `log.c` and `bio.c`. -/
inductive Panic where
  | tooBig | outsideOfTrans | logCommitting | noBuffers | bwrite | brelse
  deriving DecidableEq, Repr

def Panic.text : Panic → String
  | .tooBig => "too big a transaction"
  | .outsideOfTrans => "log_write outside of trans"
  | .logCommitting => "log.committing"
  | .noBuffers => "bget: no buffers"
  | .bwrite => "bwrite"
  | .brelse => "brelse"

/-- The test of `begin_op`: not while committing, and only with MAXOPBLOCKS free
blocks for this and for every outstanding operation. -/
def admits (committing : Bool) (lh : List UInt32) (outstanding : Int) : Bool :=
  !committing && !decide ((lh.length : Int) + (outstanding + 1) * MAXOPBLOCKS > LOGSIZE)

/-- The two checks at the start of `log_write`. -/
def logWriteCheck (g : Geometry) (lh : List UInt32) (outstanding : Int) : Option Panic :=
  if lh.length ≥ LOGSIZE ∨ (lh.length : Int) ≥ (g.size : Int) - 1 then some .tooBig
  else if outstanding < 1 then some .outsideOfTrans
  else none

/-- The search loop of `log_write` and the store behind it. The flag says that
the block was new and has to be pinned. -/
def absorb (lh : List UInt32) (b : UInt32) : List UInt32 × Bool :=
  let i := lh.findIdx (· == b)
  if i = lh.length then (lh ++ [b], true) else (lh.set i b, false)

theorem absorb_of_mem {lh : List UInt32} {b : UInt32} (h : b ∈ lh) : absorb lh b = (lh, false) := by
  have hlt : lh.findIdx (· == b) < lh.length := List.findIdx_lt_length_of_exists ⟨b, h, by simp⟩
  have hval : lh[lh.findIdx (· == b)] = b := by
    simpa using List.findIdx_getElem (w := hlt)
  have hset := List.set_getElem_self hlt
  rw [hval] at hset
  simp only [absorb, if_neg (Nat.ne_of_lt hlt), hset]

theorem absorb_of_not_mem {lh : List UInt32} {b : UInt32} (h : b ∉ lh) :
    absorb lh b = (lh ++ [b], true) := by
  have he : lh.findIdx (· == b) = lh.length := by
    apply List.findIdx_eq_length_of_false
    intro x hx
    simp only [beq_eq_false_iff_ne]
    rintro rfl
    exact h hx
  simp [absorb, he]

/-- Program points of the loop body of `write_log`, named by what has been done. -/
inductive WritePoint where
  | test | gotTo | gotFrom | moved | written | releasedFrom
  deriving DecidableEq, Repr

/-- Program points of the loop body of `install_trans`. -/
inductive InstallPoint where
  | test | gotLbuf | gotDbuf | moved | written | unpinned | releasedLbuf
  deriving DecidableEq, Repr

/-- Program points of `write_head`. -/
inductive HeadPoint where
  | entry | gotBuf | stored | written
  deriving DecidableEq, Repr

/-- Program points of `read_head`. -/
inductive ReadPoint where
  | entry | gotBuf | loaded
  deriving DecidableEq, Repr

/-- The three calls of `write_head`: the commit point and the erasure in `commit`,
and the erasure in `recover_from_log`. -/
inductive HeadCall where
  | commit | erase | recover
  deriving DecidableEq, Repr

inductive LogPc where
  | commit
  | writeLog (tail : Nat) (pt : WritePoint)
  | writeHead (call : HeadCall) (pt : HeadPoint)
  | installTrans (recovering : Bool) (tail : Nat) (pt : InstallPoint)
  | clear (recovering : Bool)
  | finish
  | readHead (pt : ReadPoint)
  | recovered
  deriving DecidableEq, Repr

/-- What the log code does next. The buffers returned by `bread` stand on a stack,
the latest first; an operand is a position on it. -/
inductive Instr where
  | skip
  | bread (b : UInt32)
  | memmove (dst src : Nat)
  | bwrite (k : Nat)
  | bunpin (k : Nat)
  | brelse (k : Nat)
  | storeHead (k : Nat)
  | loadHead (k : Nat)
  | clear
  | finish
  | recovered
  deriving DecidableEq, Repr

/-- The text of `commit` (with the end of `end_op`) and of `recover_from_log`. -/
def code (g : Geometry) (lh : List UInt32) : LogPc → Instr × LogPc
  | .commit => (.skip, if 0 < lh.length then .writeLog 0 .test else .finish)
  | .writeLog tail .test =>
    if tail < lh.length then (.bread (g.logBlock tail), .writeLog tail .gotTo)
    else (.skip, .writeHead .commit .entry)
  | .writeLog tail .gotTo => (.bread (lh.getD tail 0), .writeLog tail .gotFrom)
  | .writeLog tail .gotFrom => (.memmove 1 0, .writeLog tail .moved)
  | .writeLog tail .moved => (.bwrite 1, .writeLog tail .written)
  | .writeLog tail .written => (.brelse 0, .writeLog tail .releasedFrom)
  | .writeLog tail .releasedFrom => (.brelse 0, .writeLog (tail + 1) .test)
  | .writeHead call .entry => (.bread g.start, .writeHead call .gotBuf)
  | .writeHead call .gotBuf => (.storeHead 0, .writeHead call .stored)
  | .writeHead call .stored => (.bwrite 0, .writeHead call .written)
  | .writeHead call .written => (.brelse 0,
    match call with
    | .commit => .installTrans false 0 .test
    | .erase => .finish
    | .recover => .recovered)
  | .installTrans recovering tail .test =>
    if tail < lh.length then (.bread (g.logBlock tail), .installTrans recovering tail .gotLbuf)
    else (.skip, .clear recovering)
  | .installTrans recovering tail .gotLbuf =>
    (.bread (lh.getD tail 0), .installTrans recovering tail .gotDbuf)
  | .installTrans recovering tail .gotDbuf => (.memmove 0 1, .installTrans recovering tail .moved)
  | .installTrans recovering tail .moved => (.bwrite 0, .installTrans recovering tail .written)
  | .installTrans recovering tail .written =>
    (if recovering then .skip else .bunpin 0, .installTrans recovering tail .unpinned)
  | .installTrans recovering tail .unpinned =>
    (.brelse 1, .installTrans recovering tail .releasedLbuf)
  | .installTrans recovering tail .releasedLbuf =>
    (.brelse 0, .installTrans recovering (tail + 1) .test)
  | .clear recovering => (.clear, .writeHead (if recovering then .recover else .erase) .entry)
  | .finish => (.finish, .finish)
  | .readHead .entry => (.bread g.start, .readHead .gotBuf)
  | .readHead .gotBuf => (.loadHead 0, .readHead .loaded)
  | .readHead .loaded => (.brelse 0, .installTrans true 0 .test)
  | .recovered => (.recovered, .recovered)

end Xv6.Source
