import Mathlib.Algebra.GroupWithZero.Nat
import Mathlib.Algebra.Order.BigOperators.Group.List
import Xv6.Library.Chain
import Xv6.Source.Umalloc

/-!
# The list of free blocks

The blocks of the free list in address order, behind `base`. Between two of them there is a gap, so
that no two could be joined. `free` puts a block at its place, joined to its neighbours where it
touches them.
-/
namespace Xv6.Heap

open Xv6.Library.Chain Xv6.Source.Umalloc

/-- The header at `addr` and the units that begin with it. -/
structure Block where
  addr : Nat
  size : Nat
  deriving DecidableEq, Repr

def Block.stop (b : Block) : Nat := b.addr + b.size * HEADER

def Apart (a b : Block) : Prop := a.stop ≤ b.addr ∨ b.stop ≤ a.addr

def addrs (fs : List Block) : List Nat := fs.map Block.addr

def units (fs : List Block) : Nat := (fs.map Block.size).sum

structure FreeList (base : Nat) (h : Heap) (fs : List Block) : Prop where
  cycle : Cycle h.ptr base (addrs fs)
  freep : h.freep ∈ base :: addrs fs
  base_size : h.size base = 0
  size : ∀ b ∈ fs, h.size b.addr = b.size
  pos : ∀ b ∈ fs, 0 < b.size
  above : ∀ b ∈ fs, base + HEADER ≤ b.addr
  gapped : fs.Pairwise fun a b => a.stop < b.addr

variable {base : Nat} {h : Heap} {fs l r : List Block} {b c : Block}

theorem header_pos : 0 < HEADER := by decide

theorem Block.lt_stop (hpos : 0 < b.size) : b.addr < b.stop := by
  have := Nat.mul_pos hpos header_pos
  rw [Block.stop]
  omega

theorem FreeList.sorted (hf : FreeList base h fs) : (base :: addrs fs).Pairwise (· < ·) := by
  have hpos := header_pos
  refine List.pairwise_cons.2 ⟨fun x hx => ?_, ?_⟩
  · obtain ⟨b, hb, rfl⟩ := List.mem_map.1 hx
    have := hf.above b hb
    omega
  · refine List.pairwise_map.2 (hf.gapped.imp_of_mem fun hb _ hlt => ?_)
    have := Block.lt_stop (hf.pos _ hb)
    omega

/-- A heap with the same pointers, and the same sizes where it matters. -/
theorem FreeList.congr {h' : Heap} (hf : FreeList base h fs) (hptr : h'.ptr = h.ptr) (hfreep : h'.freep = h.freep)
    (hsize : ∀ x ∈ base :: addrs fs, h'.size x = h.size x) : FreeList base h' fs where
  cycle := hptr ▸ hf.cycle
  freep := hfreep ▸ hf.freep
  base_size := (hsize base List.mem_cons_self).trans hf.base_size
  size b hb := (hsize b.addr (List.mem_cons_of_mem base (List.mem_map_of_mem hb))).trans (hf.size b hb)
  pos := hf.pos
  above := hf.above
  gapped := hf.gapped

theorem addrs_append (l r : List Block) : addrs (l ++ r) = addrs l ++ addrs r := List.map_append

theorem units_append (l r : List Block) : units (l ++ r) = units l + units r := by
  rw [units, List.map_append, List.sum_append]
  rfl

theorem units_cons (b : Block) (l : List Block) : units (b :: l) = b.size + units l := List.sum_cons

/-- A block that overlaps none has those below it and those above it. -/
theorem exists_split (hg : fs.Pairwise fun a b => a.stop < b.addr) (hpos : ∀ c ∈ fs, 0 < c.size)
    (hapart : ∀ c ∈ fs, Apart b c) :
    ∃ l r, fs = l ++ r ∧ (∀ c ∈ l, c.stop ≤ b.addr) ∧ ∀ c ∈ r, b.stop ≤ c.addr := by
  induction fs with
  | nil => exact ⟨[], [], rfl, nofun, nofun⟩
  | cons c fs ih =>
    rw [List.pairwise_cons] at hg
    rcases hapart c List.mem_cons_self with hlow | hhigh
    · refine ⟨[], c :: fs, rfl, nofun, fun d hd => ?_⟩
      rcases List.mem_cons.1 hd with rfl | hd
      · exact hlow
      · have hgap := hg.1 d hd
        have := Block.lt_stop (hpos c List.mem_cons_self)
        omega
    · obtain ⟨l, r, rfl, hl, hr⟩ := ih hg.2 (fun d hd => hpos d (List.mem_cons_of_mem c hd))
        fun d hd => hapart d (List.mem_cons_of_mem c hd)
      refine ⟨c :: l, r, rfl, fun d hd => ?_, hr⟩
      rcases List.mem_cons.1 hd with rfl | hd
      · exact hhigh
      · exact hl d hd

/-! ## Where a block is inserted -/

/-- The condition under which the loop of `free` ends. -/
def Stops (h : Heap) (bp p : Nat) : Prop :=
  bp > p ∧ bp < h.ptr p ∨ p ≥ h.ptr p ∧ (bp > p ∨ bp < h.ptr p)

instance (h : Heap) (bp : Nat) : DecidablePred (Stops h bp) := fun _ =>
  inferInstanceAs (Decidable (_ ∧ _ ∨ _ ∧ _))

theorem place_eq_search (h : Heap) (bp n p : Nat) : place h bp n p = search h.ptr (Stops h bp) n p := by
  induction n generalizing p with
  | zero => rfl
  | succ n ih =>
    rw [place, search, ih]
    by_cases h₁ : bp > p ∧ bp < h.ptr p
    · rw [if_pos h₁, if_pos (.inl h₁)]
    · rw [if_neg h₁]
      by_cases h₂ : p ≥ h.ptr p ∧ (bp > p ∨ bp < h.ptr p)
      · rw [if_pos h₂, if_pos (.inr h₂)]
      · have hno : ¬ Stops h bp p := not_or_intro h₁ h₂
        rw [if_neg h₂, if_neg hno]

section place

variable {bp p : Nat} {u v : List Nat}

/-- In a cycle in address order, it ends at the last cell below `bp` only. -/
theorem stops_iff (hchain : Linked h.ptr (u ++ p :: (v ++ [base]))) (hsorted : (u ++ p :: v).Pairwise (· < ·))
    (hbase : ∀ x ∈ u ++ p :: v, base ≤ x) (hlow : p < bp) (hhigh : ∀ x ∈ v, bp < x) {x : Nat}
    (hx : x ∈ u ++ p :: v) : Stops h bp x ↔ x = p := by
  obtain ⟨hu, hv, huv⟩ := List.pairwise_append.1 hsorted
  rw [List.pairwise_cons] at hv
  have hbp : base ≤ p := hbase p (by simp)
  rcases List.mem_append.1 hx with hin | hin
  · -- its successor is at most `p`
    obtain ⟨u₁, u₂, rfl⟩ := List.append_of_mem hin
    have hlt : x < p := huv x hin p List.mem_cons_self
    obtain ⟨-, hnext⟩ := linked_split.1 (List.append_assoc u₁ (x :: u₂) _ ▸ hchain)
    have hy : x < h.ptr x ∧ h.ptr x ≤ p := by
      cases u₂ with
      | nil =>
        rw [(List.isChain_cons_cons.1 hnext).1]
        exact ⟨hlt, Nat.le_refl p⟩
      | cons y u₂ =>
        rw [(List.isChain_cons_cons.1 hnext).1]
        have hmem : y ∈ u₁ ++ x :: y :: u₂ := by simp
        exact ⟨(List.pairwise_cons.1 (List.pairwise_append.1 hu).2.1).1 y (by simp),
          Nat.le_of_lt (huv y hmem p List.mem_cons_self)⟩
    rw [Stops]
    omega
  · rcases List.mem_cons.1 hin with rfl | hin
    · refine iff_of_true ?_ rfl
      obtain ⟨-, hnext⟩ := linked_split.1 hchain
      cases v with
      | nil =>
        rw [Stops, (List.isChain_cons_cons.1 hnext).1]
        omega
      | cons y v =>
        have := hhigh y List.mem_cons_self
        rw [Stops, (List.isChain_cons_cons.1 hnext).1]
        omega
    · have hxv := hhigh x hin
      obtain ⟨v₁, v₂, rfl⟩ := List.append_of_mem hin
      have hcut : Linked h.ptr ((u ++ p :: v₁) ++ x :: (v₂ ++ [base])) := by
        simpa only [List.append_assoc, List.cons_append] using hchain
      obtain ⟨-, hnext⟩ := linked_split.1 hcut
      cases v₂ with
      | nil =>
        rw [Stops, (List.isChain_cons_cons.1 hnext).1]
        omega
      | cons y v₂ =>
        have hlt : x < y := (List.pairwise_cons.1 (List.pairwise_append.1 hv.2).2.1).1 y (by simp)
        rw [Stops, (List.isChain_cons_cons.1 hnext).1]
        omega

/-- So the loop finds that cell from wherever it starts. -/
theorem place_found (hchain : Cycle h.ptr base v) (hsorted : (base :: v).Pairwise (· < ·)) (u' v' : List Nat)
    (hsplit : base :: v = u' ++ p :: v') (hlow : p < bp) (hhigh : ∀ x ∈ v', bp < x) {n start : Nat}
    (hstart : start ∈ base :: v) (hn : v.length < n) : place h bp n start = some p := by
  have hiff : ∀ x ∈ base :: v, Stops h bp x ↔ x = p := by
    have hcut : Linked h.ptr (u' ++ p :: (v' ++ [base])) := by
      have hall : Linked h.ptr ((base :: v) ++ [base]) := hchain
      rwa [hsplit, List.append_assoc, List.cons_append] at hall
    have hle : ∀ x ∈ base :: v, base ≤ x := by
      intro x hx
      rcases List.mem_cons.1 hx with rfl | hx
      · exact Nat.le_refl _
      · exact Nat.le_of_lt ((List.pairwise_cons.1 hsorted).1 x hx)
    rw [hsplit] at hle hsorted ⊢
    exact fun x hx => stops_iff hcut hsorted hle hlow hhigh hx
  obtain ⟨w, hcycle, hperm⟩ := hchain.start hstart
  have hp : p ∈ base :: v := by
    rw [hsplit]
    simp
  have hlen : w.length = v.length := Nat.succ_injective hperm.length_eq
  have hex : ∃ x ∈ start :: w, Stops h bp x := ⟨p, hperm.mem_iff.2 hp, (hiff p hp).2 rfl⟩
  obtain ⟨x, hx, hstop, hfound⟩ := search_found hcycle hex (n := n) (by omega)
  rw [place_eq_search, hfound, (hiff x (hperm.mem_iff.1 hx)).1 hstop]

end place

/-! ## Joining blocks -/

/-- `b` with the block that it touches at its end, and the blocks that are left. -/
def attach (b : Block) : List Block → Block × List Block
  | [] => (b, [])
  | c :: r => if b.stop = c.addr then (⟨b.addr, b.size + c.size⟩, r) else (b, c :: r)

/-- The blocks below, with `b` at their end or joined to the last one. -/
def glue : List Block → Block → List Block
  | [], b => [b]
  | [d], b => if d.stop = b.addr then [⟨d.addr, d.size + b.size⟩] else [d, b]
  | d :: e :: l, b => d :: glue (e :: l) b

theorem glue_concat (l : List Block) (d b : Block) :
    glue (l ++ [d]) b = l ++ if d.stop = b.addr then [⟨d.addr, d.size + b.size⟩] else [d, b] := by
  induction l with
  | nil => rfl
  | cons c l ih =>
    have hcons : glue (c :: (l ++ [d])) b = c :: glue (l ++ [d]) b := by
      cases l <;> rfl
    rw [List.cons_append, hcons, ih, List.cons_append]

theorem joined_stop {d : Block} (htouch : d.stop = b.addr) : (⟨d.addr, d.size + b.size⟩ : Block).stop = b.stop := by
  rw [Block.stop, Block.stop, ← htouch, Block.stop, Nat.add_mul, Nat.add_assoc]

theorem attach_addr (b : Block) (r : List Block) : (attach b r).1.addr = b.addr := by
  cases r with
  | nil => rfl
  | cons c r =>
    rw [attach]
    split <;> rfl

theorem attach_units (b : Block) (r : List Block) :
    (attach b r).1.size + units (attach b r).2 = b.size + units r := by
  cases r with
  | nil => rfl
  | cons c r =>
    rw [attach]
    split
    · rw [units_cons, Nat.add_assoc]
    · rfl

theorem attach_suffix (b : Block) (r : List Block) : (attach b r).2 <:+ r := by
  cases r with
  | nil => exact List.suffix_rfl
  | cons c r =>
    rw [attach]
    split
    · exact List.suffix_cons c r
    · exact List.suffix_rfl

theorem attach_size_le (b : Block) (r : List Block) : b.size ≤ (attach b r).1.size := by
  cases r with
  | nil => exact Nat.le_refl _
  | cons c r =>
    rw [attach]
    split
    · exact Nat.le_add_right _ _
    · exact Nat.le_refl _

theorem attach_gap (hhigh : ∀ c ∈ r, b.stop ≤ c.addr) (hpos : ∀ c ∈ r, 0 < c.size)
    (hg : r.Pairwise fun a b => a.stop < b.addr) : ∀ c ∈ (attach b r).2, (attach b r).1.stop < c.addr := by
  cases r with
  | nil => exact nofun
  | cons c r =>
    rw [List.pairwise_cons] at hg
    have hc := hhigh c List.mem_cons_self
    rw [attach]
    split
    · next htouch =>
      have hstop := joined_stop htouch
      intro d hd
      show (⟨b.addr, b.size + c.size⟩ : Block).stop < d.addr
      rw [hstop]
      exact hg.1 d hd
    · next htouch =>
      intro d hd
      rcases List.mem_cons.1 hd with rfl | hd
      · exact Nat.lt_of_le_of_ne hc htouch
      · have := hg.1 d hd
        have := Block.lt_stop (hpos c List.mem_cons_self)
        show b.stop < d.addr
        omega

theorem attach_apart {a : Block} (ha : 0 < a.size) (hb : Apart a b) (hr : ∀ c ∈ r, Apart a c) :
    Apart a (attach b r).1 := by
  cases r with
  | nil => exact hb
  | cons c r =>
    rw [attach]
    split
    · next htouch =>
      have hc := hr c List.mem_cons_self
      have := Block.lt_stop ha
      have hstop := joined_stop htouch
      show a.stop ≤ b.addr ∨ (⟨b.addr, b.size + c.size⟩ : Block).stop ≤ a.addr
      rw [hstop]
      rw [Apart] at hb hc
      omega
    · exact hb

theorem units_glue (l : List Block) (b : Block) : units (glue l b) = units l + b.size := by
  rcases List.eq_nil_or_concat' l with rfl | ⟨l, d, rfl⟩
  · rw [glue, units_cons, Nat.add_comm]
  · rw [glue_concat, units_append, units_append, Nat.add_assoc]
    split
    · rw [units_cons, units_cons, Nat.add_right_comm]
    · rw [units_cons, units_cons, units_cons, Nat.add_right_comm d.size, Nat.add_assoc]

/-- What the joined blocks cover was covered before. -/
theorem glue_forall {P : Block → Prop} (hl : ∀ c ∈ l, P c) (hb : P b)
    (hjoin : ∀ d ∈ l, d.stop = b.addr → P ⟨d.addr, d.size + b.size⟩) : ∀ c ∈ glue l b, P c := by
  rcases List.eq_nil_or_concat' l with rfl | ⟨l, d, rfl⟩
  · exact fun c hc => List.mem_singleton.1 hc ▸ hb
  · rw [glue_concat]
    intro c hc
    rcases List.mem_append.1 hc with hc | hc
    · exact hl c (List.mem_append_left _ hc)
    · split at hc
      · next htouch =>
        rw [List.mem_singleton.1 hc]
        exact hjoin d (by simp) htouch
      · rcases List.mem_cons.1 hc with rfl | hc
        · exact hl c (by simp)
        · exact List.mem_singleton.1 hc ▸ hb

theorem glue_apart {a : Block} (ha : 0 < a.size) (hb : Apart a b) (hl : ∀ c ∈ l, Apart a c) :
    ∀ c ∈ glue l b, Apart a c := by
  refine glue_forall hl hb fun d hd htouch => ?_
  have := Block.lt_stop ha
  have hd := hl d hd
  show a.stop ≤ d.addr ∨ (⟨d.addr, d.size + b.size⟩ : Block).stop ≤ a.addr
  rw [joined_stop htouch]
  rw [Apart] at hb hd
  omega

/-- The block that came in is part of one in the list. -/
theorem exists_mem_glue (l : List Block) (b : Block) : ∃ c ∈ glue l b, b.size ≤ c.size := by
  rcases List.eq_nil_or_concat' l with rfl | ⟨l, d, rfl⟩
  · exact ⟨b, List.mem_singleton_self b, Nat.le_refl _⟩
  · rw [glue_concat]
    split
    · exact ⟨_, List.mem_append_right l (List.mem_singleton_self _), Nat.le_add_left _ _⟩
    · exact ⟨b, by simp, Nat.le_refl _⟩

theorem length_glue_le (l : List Block) (b : Block) : (glue l b).length ≤ l.length + 1 := by
  rcases List.eq_nil_or_concat' l with rfl | ⟨l, d, rfl⟩
  · exact Nat.le_refl 1
  · rw [glue_concat, List.length_append, List.length_append]
    split <;> simp

/-- The state in which `free` has found the place of `b`, between `l` and `r`. -/
structure Between (base : Nat) (h : Heap) (l r : List Block) (b : Block) : Prop where
  list : FreeList base h (l ++ r)
  size : h.size b.addr = b.size
  pos : 0 < b.size
  above : base + HEADER ≤ b.addr
  low : ∀ c ∈ l, c.stop ≤ b.addr
  high : ∀ c ∈ r, b.stop ≤ c.addr
  room : units (l ++ r) + b.size < 2 ^ 32

theorem uint_eq {n : Nat} (hn : n < 2 ^ 32) : uint n = n := Nat.mod_eq_of_lt hn

section join

variable {p : Nat} {u : List Nat}

/-- The pointers of the list, before and behind a place. -/
theorem FreeList.split (hf : FreeList base h (l ++ r)) (hp : base :: addrs l = u ++ [p]) :
    Linked h.ptr (u ++ [p]) ∧ h.ptr p = (addrs r).headD base ∧ Linked h.ptr (addrs r ++ [base]) := by
  have hall : Linked h.ptr ((base :: addrs l) ++ (addrs r ++ [base])) := by
    have hcycle := hf.cycle
    rw [Library.Chain.Cycle, addrs, List.map_append, List.append_assoc] at hcycle
    exact hcycle
  rw [hp, List.append_assoc] at hall
  obtain ⟨hu, hrest⟩ := linked_split.1 hall
  exact ⟨hu, linked_cons_iff.1 hrest⟩

theorem Between.joinNext_eq (hb : Between base h l r b) (hp : base :: addrs l = u ++ [p]) :
    joinNext b.addr p h = { h with
      size := Function.update h.size b.addr (attach b r).1.size
      ptr := Function.update h.ptr b.addr ((addrs (attach b r).2).headD base) } := by
  obtain ⟨-, hnext, hlinks⟩ := hb.list.split hp
  have hstop := Block.lt_stop hb.pos
  have habove := hb.above
  rw [joinNext, hb.size]
  cases r with
  | nil =>
    have hsame : Function.update h.size b.addr b.size = h.size := by
      rw [← hb.size, Function.update_eq_self]
    have hno : b.addr + b.size * HEADER ≠ h.ptr p := by
      rw [hnext]
      show b.stop ≠ base
      omega
    rw [if_neg hno, hnext, attach, hsame]
  | cons c r =>
    have hc : h.size c.addr = c.size := hb.list.size c (by simp)
    have hcnext : h.ptr c.addr = (addrs r).headD base := (linked_cons_iff.1 hlinks).1
    have hhead : h.ptr p = c.addr := hnext
    rw [hhead, attach]
    by_cases htouch : b.stop = c.addr
    · have hlt : b.size + c.size < 2 ^ 32 := by
        have := hb.room
        rw [units_append, units_cons] at this
        omega
      have htouch' : b.addr + b.size * HEADER = c.addr := htouch
      rw [if_pos htouch', if_pos htouch, hc, hcnext, uint_eq hlt]
    · have hsame : Function.update h.size b.addr b.size = h.size := by
        rw [← hb.size, Function.update_eq_self]
      have htouch' : ¬ b.addr + b.size * HEADER = c.addr := htouch
      rw [if_neg htouch', if_neg htouch, hsame]
      rfl

/-- The cells around the place. -/
theorem Between.addr_lt (hb : Between base h l r b) : base < b.addr ∧ (∀ x ∈ base :: addrs l, x < b.addr) ∧
    ∀ x ∈ addrs r, b.addr < x := by
  have hpos := header_pos
  have habove := hb.above
  have hbase : base < b.addr := by omega
  refine ⟨hbase, fun x hx => ?_, fun x hx => ?_⟩
  · rcases List.mem_cons.1 hx with rfl | hx
    · exact hbase
    · obtain ⟨c, hc, rfl⟩ := List.mem_map.1 hx
      have := hb.low c hc
      have := Block.lt_stop (hb.list.pos c (List.mem_append_left r hc))
      omega
  · obtain ⟨c, hc, rfl⟩ := List.mem_map.1 hx
    have := hb.high c hc
    have := Block.lt_stop hb.pos
    omega

/-- The list of the blocks below, a block and those above it, if the pointers lead that way. -/
theorem FreeList.of_parts {h' : Heap} {b₁ : Block} {r₁ : List Block} (hl : FreeList base h (l ++ r)) (hsub : r₁ <:+ r)
    (hpos : 0 < b₁.size) (habove : base + HEADER ≤ b₁.addr) (hlow : ∀ c ∈ l, c.stop < b₁.addr)
    (hhigh : ∀ c ∈ r₁, b₁.stop < c.addr) (hsize : h'.size b₁.addr = b₁.size)
    (hframe : ∀ x ∈ base :: addrs (l ++ r₁), h'.size x = h.size x)
    (hcycle : Cycle h'.ptr base (addrs (l ++ b₁ :: r₁))) (hfreep : h'.freep ∈ base :: addrs (l ++ b₁ :: r₁)) :
    FreeList base h' (l ++ b₁ :: r₁) := by
  have hmem : ∀ {P : Block → Prop}, (∀ c ∈ l ++ r, P c) → P b₁ → ∀ c ∈ l ++ b₁ :: r₁, P c := by
    intro P hall hone c hc
    rcases List.mem_append.1 hc with hc | hc
    · exact hall c (List.mem_append_left r hc)
    · rcases List.mem_cons.1 hc with rfl | hc
      · exact hone
      · exact hall c (List.mem_append_right l (hsub.subset hc))
  obtain ⟨hgl, hgr, hglr⟩ := List.pairwise_append.1 hl.gapped
  refine ⟨hcycle, hfreep, (hframe base List.mem_cons_self).trans hl.base_size, fun c hc => ?_, hmem hl.pos hpos,
    hmem hl.above habove, List.pairwise_append.2 ⟨hgl, List.pairwise_cons.2 ⟨hhigh, hgr.sublist hsub.sublist⟩, ?_⟩⟩
  · have hold : ∀ c ∈ l ++ r₁, h'.size c.addr = c.size := by
      intro c hc
      rw [hframe c.addr (List.mem_cons_of_mem base (List.mem_map_of_mem hc))]
      refine hl.size c ?_
      rcases List.mem_append.1 hc with hc | hc
      · exact List.mem_append_left r hc
      · exact List.mem_append_right l (hsub.subset hc)
    rcases List.mem_append.1 hc with hc | hc
    · exact hold c (List.mem_append_left r₁ hc)
    · rcases List.mem_cons.1 hc with rfl | hc
      · exact hsize
      · exact hold c (List.mem_append_right l hc)
  · intro c hc d hd
    rcases List.mem_cons.1 hd with rfl | hd
    · exact hlow c hc
    · exact hglr c hc d (hsub.subset hd)

/-- The pointers around the place, and which cells they belong to. -/
structure Around (base : Nat) (h : Heap) (u : List Nat) (p : Nat) (b : Block) (v : List Nat) : Prop where
  before : Linked h.ptr (u ++ [p])
  behind : Linked h.ptr (v ++ [base])
  p_before : p ∉ u
  p_behind : p ∉ v
  b_before : b.addr ∉ u
  b_behind : b.addr ∉ v
  p_ne : p ≠ b.addr

theorem Between.around (hb : Between base h l r b) (hp : base :: addrs l = u ++ [p]) :
    Around base h u p b (addrs (attach b r).2) := by
  obtain ⟨hu, hnext, hr⟩ := hb.list.split hp
  obtain ⟨hbase, hlow, hhigh⟩ := hb.addr_lt
  obtain ⟨t, ht⟩ := attach_suffix b r
  have hbehind : Linked h.ptr (addrs (attach b r).2 ++ [base]) := by
    rw [← ht, addrs, List.map_append, List.append_assoc] at hr
    exact hr.right_of_append
  have hhigh' : ∀ x ∈ addrs (attach b r).2, b.addr < x := by
    intro x hx
    refine hhigh x ?_
    rw [← ht, addrs, List.map_append]
    exact List.mem_append_right _ hx
  have hsorted : (u ++ [p]).Pairwise (· < ·) := by
    rw [← hp]
    have hall := hb.list.sorted
    rw [addrs_append, ← List.cons_append] at hall
    exact (List.pairwise_append.1 hall).1
  rw [hp] at hlow
  have hpb : p < b.addr := hlow p (by simp)
  refine ⟨hu, hbehind, fun hin => ?_, fun hin => ?_, fun hin => ?_, fun hin => ?_, Nat.ne_of_lt hpb⟩
  · exact Nat.lt_irrefl p ((List.pairwise_append.1 hsorted).2.2 p hin p (by simp))
  · exact Nat.lt_asymm hpb (hhigh' p hin)
  · exact Nat.lt_irrefl _ (hlow _ (List.mem_append_left _ hin))
  · exact Nat.lt_irrefl _ (hhigh' _ hin)

theorem Between.linked (hb : Between base h l r b) (hp : base :: addrs l = u ++ [p])
    (hgap : ∀ c ∈ l, c.stop < b.addr) : FreeList base { h with
      size := Function.update h.size b.addr (attach b r).1.size
      ptr := Function.update (Function.update h.ptr b.addr ((addrs (attach b r).2).headD base)) p b.addr
      freep := p } (l ++ (attach b r).1 :: (attach b r).2) := by
  have haround := hb.around hp
  have haddr := attach_addr b r
  obtain ⟨hbase, hlow, hhigh⟩ := hb.addr_lt
  have hpos : 0 < (attach b r).1.size := Nat.lt_of_lt_of_le hb.pos (attach_size_le b r)
  have hgr : r.Pairwise fun a b => a.stop < b.addr := (List.pairwise_append.1 hb.list.gapped).2.1
  have hcells : base :: addrs (l ++ (attach b r).1 :: (attach b r).2) = u ++ p :: b.addr :: addrs (attach b r).2 := by
    rw [addrs, List.map_append, ← List.cons_append]
    show (base :: addrs l) ++ (attach b r).1.addr :: addrs (attach b r).2 = _
    rw [hp, haddr, List.append_assoc]
    rfl
  refine hb.list.of_parts (attach_suffix b r) hpos (by rw [haddr]; exact hb.above) (by rw [haddr]; exact hgap)
    (attach_gap hb.high (fun c hc => hb.list.pos c (List.mem_append_right l hc)) hgr)
    (by rw [haddr]; exact Function.update_self ..) (fun x hx => ?_) ?_ ?_
  · refine Function.update_of_ne (fun heq => ?_) _ _
    subst heq
    rw [addrs, List.map_append, ← List.cons_append] at hx
    rcases List.mem_append.1 hx with hin | hin
    · exact Nat.lt_irrefl _ (hlow _ hin)
    · exact haround.b_behind hin
  · have hlinks := haround.before.insert haround.behind haround.p_before haround.p_behind haround.b_before
      haround.b_behind haround.p_ne
    rw [Library.Chain.Cycle, ← List.cons_append, hcells, List.append_assoc]
    exact hlinks
  · rw [hcells]
    simp

theorem Between.joined {d : Block} (hb : Between base h (l ++ [d]) r b) (htouch : d.stop = b.addr) :
    FreeList base { h with
      size := Function.update (Function.update h.size b.addr (attach b r).1.size) d.addr (d.size + (attach b r).1.size)
      ptr := Function.update (Function.update h.ptr b.addr ((addrs (attach b r).2).headD base)) d.addr
        ((addrs (attach b r).2).headD base)
      freep := d.addr } (l ++ ⟨d.addr, d.size + (attach b r).1.size⟩ :: (attach b r).2) := by
  have hp : base :: addrs (l ++ [d]) = (base :: addrs l) ++ [d.addr] := by
    rw [addrs, List.map_append]
    rfl
  have haround := hb.around hp
  have haddr := attach_addr b r
  have hd : d ∈ l ++ [d] := by simp
  have hgr : r.Pairwise fun a b => a.stop < b.addr := (List.pairwise_append.1 hb.list.gapped).2.1
  have hgl := (List.pairwise_append.1 (List.pairwise_append.1 hb.list.gapped).1).2.2
  have hlist : FreeList base h (l ++ (d :: r)) := by
    have := hb.list
    rwa [List.append_assoc] at this
  have hstop : (⟨d.addr, d.size + (attach b r).1.size⟩ : Block).stop = (attach b r).1.stop :=
    joined_stop (htouch.trans haddr.symm)
  refine hlist.of_parts ((attach_suffix b r).trans (List.suffix_cons d r)) ?_ (hlist.above d (by simp))
    (fun c hc => hgl c hc d (by simp)) ?_ (Function.update_self ..) (fun x hx => ?_) ?_ ?_
  · exact Nat.lt_of_lt_of_le (hb.list.pos d (List.mem_append_left r hd)) (Nat.le_add_right _ _)
  · intro c hc
    rw [hstop]
    exact attach_gap hb.high (fun c hc => hb.list.pos c (List.mem_append_right _ hc)) hgr c hc
  · rw [addrs, List.map_append, ← List.cons_append] at hx
    have hne : x ≠ d.addr ∧ x ≠ b.addr := by
      rcases List.mem_append.1 hx with hin | hin
      · exact ⟨fun heq => haround.p_before (heq ▸ hin), fun heq => haround.b_before (heq ▸ hin)⟩
      · exact ⟨fun heq => haround.p_behind (heq ▸ hin), fun heq => haround.b_behind (heq ▸ hin)⟩
    show Function.update (Function.update h.size b.addr (attach b r).1.size) d.addr _ x = h.size x
    rw [Function.update_of_ne hne.1, Function.update_of_ne hne.2]
  · have hlinks := (haround.before.update haround.b_before ((addrs (attach b r).2).headD base)).relink
      (haround.behind.update haround.b_behind _) haround.p_before haround.p_behind
    rw [Library.Chain.Cycle, addrs_append, List.append_assoc]
    exact hlinks
  · simp [addrs]

theorem Between.unchanged_base (hb : Between base h [] r b) :
    joinPrev b.addr base (joinNext b.addr base h) = { h with
      size := Function.update h.size b.addr (attach b r).1.size
      ptr := Function.update (Function.update h.ptr b.addr ((addrs (attach b r).2).headD base)) base b.addr } := by
  have hbase := hb.addr_lt.1
  have hsize : Function.update h.size b.addr (attach b r).1.size base = 0 := by
    rw [Function.update_of_ne (Nat.ne_of_lt hbase)]
    exact hb.list.base_size
  have hno : base + Function.update h.size b.addr (attach b r).1.size base * HEADER ≠ b.addr := by
    rw [hsize, Nat.zero_mul]
    exact Nat.ne_of_lt hbase
  rw [hb.joinNext_eq (u := []) rfl, joinPrev]
  exact if_neg hno

theorem Between.joinPrev_eq {d : Block} (hb : Between base h (l ++ [d]) r b) :
    joinPrev b.addr d.addr (joinNext b.addr d.addr h) =
      if d.stop = b.addr then { h with
        size := Function.update (Function.update h.size b.addr (attach b r).1.size) d.addr (d.size + (attach b r).1.size)
        ptr := Function.update (Function.update h.ptr b.addr ((addrs (attach b r).2).headD base)) d.addr
          ((addrs (attach b r).2).headD base) }
      else { h with
        size := Function.update h.size b.addr (attach b r).1.size
        ptr := Function.update (Function.update h.ptr b.addr ((addrs (attach b r).2).headD base)) d.addr b.addr } := by
  have hp : base :: addrs (l ++ [d]) = (base :: addrs l) ++ [d.addr] := by
    rw [addrs, List.map_append]
    rfl
  have hne := (hb.around hp).p_ne
  have hsize : Function.update h.size b.addr (attach b r).1.size d.addr = d.size := by
    rw [Function.update_of_ne hne]
    exact hb.list.size d (by simp)
  have hlt : d.size + (attach b r).1.size < 2 ^ 32 := by
    have hroom := hb.room
    have hunits := attach_units b r
    rw [units_append, units_append, units_cons] at hroom
    omega
  rw [hb.joinNext_eq hp, joinPrev]
  dsimp only
  by_cases htouch : d.stop = b.addr
  · have htouch' : d.addr + Function.update h.size b.addr (attach b r).1.size d.addr * HEADER = b.addr := by
      rw [hsize]
      exact htouch
    rw [if_pos htouch', if_pos htouch, hsize, Function.update_self, Function.update_self, uint_eq hlt]
  · have htouch' : ¬ d.addr + Function.update h.size b.addr (attach b r).1.size d.addr * HEADER = b.addr := by
      rw [hsize]
      exact htouch
    rw [if_neg htouch', if_neg htouch]

end join

/-- `free` returns, with the block in the list; no other header changes its size. -/
theorem Between.free_eq (hb : Between base h l r b) {rounds : Nat} (hrounds : (l ++ r).length < rounds) :
    ∃ h', free rounds h (b.addr + HEADER) = some h' ∧ FreeList base h' (glue l (attach b r).1 ++ (attach b r).2) ∧
      h'.brk = h.brk ∧ h'.calls = h.calls ∧ h'.supplied = h.supplied ∧
      ∀ x, x ≠ b.addr → x ∉ base :: addrs (l ++ r) → h'.size x = h.size x := by
  have hfound : ∀ u p, base :: addrs l = u ++ [p] → place h b.addr rounds h.freep = some p := by
    intro u p hp
    obtain ⟨-, hlow, hhigh⟩ := hb.addr_lt
    refine place_found hb.list.cycle hb.list.sorted u (addrs r) ?_ (hlow p (by rw [hp]; simp)) hhigh
      hb.list.freep (by rwa [addrs, List.length_map])
    rw [addrs_append, ← List.cons_append, hp, List.append_assoc]
    rfl
  have hfree : ∀ u p, base :: addrs l = u ++ [p] → free rounds h (b.addr + HEADER) =
      some { joinPrev b.addr p (joinNext b.addr p h) with freep := p } := by
    intro u p hp
    rw [free, Nat.add_sub_cancel, hfound u p hp]
    rfl
  rcases List.eq_nil_or_concat' l with rfl | ⟨l, d, rfl⟩
  · refine ⟨_, hfree [] base rfl, ?_⟩
    rw [hb.unchanged_base]
    exact ⟨hb.linked (u := []) rfl nofun, rfl, rfl, rfl, fun x hx _ => Function.update_of_ne hx _ _⟩
  · have hp : base :: addrs (l ++ [d]) = (base :: addrs l) ++ [d.addr] := by
      rw [addrs, List.map_append]
      rfl
    refine ⟨_, hfree _ d.addr hp, ?_⟩
    rw [hb.joinPrev_eq, glue_concat, attach_addr]
    by_cases htouch : d.stop = b.addr
    · rw [if_pos htouch, if_pos htouch, List.append_assoc]
      refine ⟨hb.joined htouch, rfl, rfl, rfl, fun x hx hout => ?_⟩
      have hxd : x ≠ d.addr := fun heq => hout (by simp [addrs, heq])
      show Function.update (Function.update h.size b.addr (attach b r).1.size) d.addr _ x = h.size x
      rw [Function.update_of_ne hxd, Function.update_of_ne hx]
    · rw [if_neg htouch, if_neg htouch]
      have hgap : ∀ c ∈ l ++ [d], c.stop < b.addr := by
        intro c hc
        rcases List.mem_append.1 hc with hc | hc
        · have hgl := (List.pairwise_append.1 (List.pairwise_append.1 hb.list.gapped).1).2.2 c hc d (by simp)
          have := hb.low d (by simp)
          have := Block.lt_stop (hb.list.pos d (by simp))
          omega
        · rw [List.mem_singleton.1 hc]
          exact Nat.lt_of_le_of_ne (hb.low d (by simp)) htouch
      have hlinked := hb.linked hp hgap
      rw [List.append_assoc] at hlinked ⊢
      exact ⟨hlinked, rfl, rfl, rfl, fun x hx _ => Function.update_of_ne hx _ _⟩

/-- The list after a block has been freed, as far as other blocks see it. -/
structure Freed (base : Nat) (h : Heap) (fs : List Block) (b : Block) (h' : Heap) (fs' : List Block) : Prop where
  list : FreeList base h' fs'
  units : units fs' = units fs + b.size
  apart : ∀ a, 0 < a.size → Apart a b → (∀ c ∈ fs, Apart a c) → ∀ c ∈ fs', Apart a c
  size : ∀ a, base < a.addr → 0 < a.size → Apart a b → (∀ c ∈ fs, Apart a c) → h'.size a.addr = h.size a.addr
  below : ∀ top, b.stop ≤ top → (∀ c ∈ fs, c.stop ≤ top) → ∀ c ∈ fs', c.stop ≤ top
  mem : ∃ c ∈ fs', b.size ≤ c.size
  length : fs'.length ≤ fs.length + 1
  brk : h'.brk = h.brk
  calls : h'.calls = h.calls
  supplied : h'.supplied = h.supplied

theorem Apart.addr_ne {a : Block} (ha : 0 < a.size) (hb : 0 < b.size) (h : Apart a b) : a.addr ≠ b.addr := by
  have := Block.lt_stop ha
  have := Block.lt_stop hb
  rw [Apart] at h
  omega

theorem FreeList.free_spec (hf : FreeList base h fs) (hsize : h.size b.addr = b.size) (hpos : 0 < b.size)
    (habove : base + HEADER ≤ b.addr) (hapart : ∀ c ∈ fs, Apart b c) (hroom : units fs + b.size < 2 ^ 32)
    {rounds : Nat} (hrounds : fs.length < rounds) :
    ∃ h' fs', free rounds h (b.addr + HEADER) = some h' ∧ Freed base h fs b h' fs' := by
  obtain ⟨l, r, rfl, hlow, hhigh⟩ := exists_split hf.gapped hf.pos hapart
  have hb : Between base h l r b := ⟨hf, hsize, hpos, habove, hlow, hhigh, hroom⟩
  obtain ⟨h', hfree, hlist, hbrk, hcalls, hsupplied, hframe⟩ := hb.free_eq hrounds
  have hsub := attach_suffix b r
  refine ⟨h', _, hfree, hlist, ?_, ?_, ?_, ?_, ?_, ?_, hbrk, hcalls, hsupplied⟩
  · have := attach_units b r
    rw [units_append, units_glue, units_append]
    omega
  · intro a ha hab hac c hc
    have hab' := attach_apart ha hab fun c hc => hac c (List.mem_append_right l hc)
    rcases List.mem_append.1 hc with hc | hc
    · exact glue_apart ha hab' (fun c hc => hac c (List.mem_append_left r hc)) c hc
    · exact hac c (List.mem_append_right l (hsub.subset hc))
  · intro a hbase ha hab hac
    refine hframe a.addr (hab.addr_ne ha hpos) fun hin => ?_
    rcases List.mem_cons.1 hin with heq | hin
    · omega
    · obtain ⟨c, hc, heq⟩ := List.mem_map.1 hin
      exact (hac c hc).addr_ne ha (hf.pos c hc) heq.symm
  · intro top hb' hall
    have hone : (attach b r).1.stop ≤ top := by
      cases r with
      | nil => exact hb'
      | cons c r =>
        rw [attach]
        split
        · next htouch =>
          have hc := hall c (by simp)
          rwa [← joined_stop htouch] at hc
        · exact hb'
    intro c hc
    rcases List.mem_append.1 hc with hc | hc
    · refine glue_forall (fun c hc => hall c (List.mem_append_left r hc)) hone (fun d _ htouch => ?_) c hc
      rwa [joined_stop htouch]
    · exact hall c (List.mem_append_right l (hsub.subset hc))
  · obtain ⟨c, hc, hle⟩ := exists_mem_glue l (attach b r).1
    exact ⟨c, List.mem_append_left _ hc, Nat.le_trans (attach_size_le b r) hle⟩
  · have := length_glue_le l (attach b r).1
    have := hsub.length_le
    rw [List.length_append, List.length_append]
    omega

end Xv6.Heap
