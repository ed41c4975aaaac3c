import Xv6.Kernel.CrashLog
import Xv6.Kernel.Refinement
import Xv6.Kernel.Schedule

/-!
# Crash atomicity of the log

The block layer with crashes at any step. What recovery restores is computed from the
stores of the processes alone: the transactions whose first `write_head` reached the
disk, applied in order and whole, and nothing of any other.
-/
namespace Xv6.Guarantees.CrashAtomicity
open Xv6.Source Xv6.Library.Transition Xv6.Kernel Xv6.Kernel.BlockLayer
open Xv6.Kernel.FlatLog (History Label Fresh Inv)

variable {n : Nat} {g : Geometry}

/-- Runs of the block layer with crashes. A crash keeps the disk and nothing else, and
is followed by `recover_from_log`, which may be interrupted itself. -/
abbrev Crashes (g : Geometry) (p₀ : Fin n) (d₀ : UInt32 → Block) : State n → History → Prop :=
  Epochs (Step g) (fun s => boot p₀ s.disk) (Label.Outside g) History.step History.lose
    (boot p₀ d₀) ⟨[], []⟩

theorem Crashes.flat {p₀ : Fin n} {d₀ : UInt32 → Block} {s : State n} {h : History}
    (run : Crashes g p₀ d₀ s h) :
    ∃ a, FlatLog.Crashes g p₀ d₀ a h ∧ Inv g a ∧ Sim g s a := by
  refine Epochs.simulation (R := fun s a => Inv g a ∧ Sim g s a)
    ⟨FlatLog.boot_inv p₀ d₀, boot_sim p₀ d₀⟩ ?_ ?_ run
  · rintro s a l s' ⟨inv, sim⟩ hstep
    obtain ⟨a', hstep', hsim⟩ := sim.step inv hstep
    exact ⟨a', hstep', FlatLog.step_inv inv hstep', hsim⟩
  · rintro s a ⟨-, sim⟩
    rw [sim.disk]
    exact ⟨FlatLog.boot_inv p₀ s.disk, boot_sim p₀ s.disk⟩

/-- Wherever the crashes fell, a completed `recover_from_log` leaves every block outside
the log area with the contents after the committed transactions, and another recovery
leaves the whole disk as it is. -/
theorem recovery_restores_committed (hg : 0 < g.size) {p₀ : Fin n} {d₀ : UInt32 → Block}
    (empty : Fresh g d₀) {s s' : State n} {h : History} (run : Crashes g p₀ d₀ s h)
    (completes : Step g s .recovered s') :
    (∀ b, ¬ g.area b → s'.disk b = h.committed d₀ b) ∧
    ∀ tr t t', Run (Step g) (boot p₀ s'.disk) tr t → Step g t .recovered t' →
      t'.disk = s'.disk := by
  obtain ⟨a, flat, inv, sim⟩ := run.flat
  obtain ⟨a', hstep, sim'⟩ := sim.step inv completes
  obtain ⟨p, hpc, -, hdisk⟩ := hstep.of_recovered inv
  -- at the last program point the header is erased and every block is home
  obtain ⟨home, -, fresh⟩ := (flat.inv hg empty).phase p _ hpc
  rw [← hdisk, sim'.disk] at home fresh
  refine ⟨home, ?_⟩
  intro tr t t' again completes'
  obtain ⟨b, hrun, hinv, hsim⟩ := run_sim again
  obtain ⟨b', hstep', hsim'⟩ := hsim.step hinv completes'
  obtain ⟨-, -, hboot, hdisk'⟩ := hstep'.of_recovered hinv
  rw [← hsim'.disk, hdisk', ((FlatLog.recovery_of_fresh fresh hrun).2 hboot).1]

/-- One operation writes block 100; the power fails behind the first `write_head`. -/
def commits : List (Action 1) := List.flatten
  [recoversEmpty .mkfs 0, [.beginOp 0], breads 0 100, [.store 0 0 (fun _ => 7), .logWrite 0 0],
    brelses 0 0, [.endOp 0, .log 0], breads 0 3, breads 0 100,
    [.log 0, .log 0, .log 0, .unref 0, .log 0, .unref 0, .log 0], breads 0 2, [.log 0, .log 0]]

/-- Recovery up to its last program point, with block 100 to install. -/
def recovers : List (Action 1) := List.flatten
  [breads 0 2, [.log 0, .log 0, .unref 0], breads 0 3, breads 0 100,
    [.log 0, .log 0, .log 0, .log 0, .unref 0, .log 0, .unref 0, .log 0, .log 0],
    breads 0 2, [.log 0, .log 0, .log 0, .unref 0]]

def interrupted : Option (List (Label 1) × State 1 × List (Label 1) × State 1) := do
  let (tr, t) ← perform .mkfs (boot 0 fun _ _ => 0) commits
  let (tr', s) ← perform .mkfs (boot 0 t.disk) recovers
  if (∀ l ∈ tr ++ tr', l.Outside .mkfs) ∧ s.Ready 0 ∧ (s.proc 0).pc = .log .recovered ∧
    (tr.foldl History.step ⟨[], []⟩).done.length = 1 then some (tr, t, tr', s) else none

theorem recovery_restores_committed_interrupted : ∃ (s s' : State 1) (h : History),
    Crashes .mkfs 0 (fun _ _ => 0) s h ∧ Step .mkfs s .recovered s' ∧
    ((∀ b, ¬ Geometry.mkfs.area b → s'.disk b = h.committed (fun _ _ => 0) b) ∧
    ∀ tr t t', Run (Step .mkfs) (boot (0 : Fin 1) s'.disk) tr t → Step .mkfs t .recovered t' →
      t'.disk = s'.disk) := by
  have hsome : interrupted.isSome = true := by decide +kernel
  obtain ⟨r, hrun⟩ := Option.isSome_iff_exists.mp hsome
  simp only [interrupted, Option.bind_eq_bind, Option.bind_eq_some_iff, Prod.exists] at hrun
  obtain ⟨tr, t, hcommits, tr', s, hrecovers, hrun⟩ := hrun
  split at hrun
  · next hok =>
    obtain ⟨houtside, hready, hpc, -⟩ := hok
    have hstart : Crashes .mkfs (0 : Fin 1) (fun _ _ => 0) (boot 0 fun _ _ => 0) ⟨[], []⟩ := .start
    have hbefore := hstart.run (perform_run hcommits)
      (fun l hl => houtside l (List.mem_append_left _ hl))
    have hafter := hbefore.fail.run (perform_run hrecovers)
      (fun l hl => houtside l (List.mem_append_right _ hl))
    have hdone : Step .mkfs s .recovered ({ s with booting := false }.goto 0 .out) :=
      .log s _ 0 .recovered .recovered .recovered .recovered hready hpc rfl rfl
    exact ⟨s, _, _, hafter, hdone, recovery_restores_committed (by decide) (by decide) hafter hdone⟩
  · cases hrun

end Xv6.Guarantees.CrashAtomicity
