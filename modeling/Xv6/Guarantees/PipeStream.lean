import Xv6.Pipe.Calls

/-!
# A pipe is a stream of bytes

Whatever processes write, read and close in whatever order, and however often the counters
wrap: what reads return is a prefix of what writes have stored, the rest is in the buffer,
and the bytes of one write stay in order. A read of a positive number of bytes returns
nothing only at the end of the stream.
-/
namespace Xv6.Guarantees.PipeStream

open Xv6.Library Xv6.Library.Thread Xv6.Source.Pipe Xv6.Pipe

/-- A pipe between its first use and any later point of a run. -/
structure IsStream (c : Config Slot State Op Ret Int) : Prop where
  pre : c.state.returned <+: c.state.accepted.map Stored.byte
  /-- With nobody in the middle of a call, what has not been returned is in the buffer. -/
  rest : c.state.lock = none → ∃ q, c.state.accepted.map Stored.byte = c.state.returned ++ q ∧
    Fifo.Holds c.state.data c.state.fields.nread c.state.fields.nwrite q
  bound : (c.state.fields.nwrite - c.state.fields.nread).toNat ≤ PIPESIZE
  /-- The bytes stored by a call are the first ones it was given, in order. -/
  order : ∀ call src, c.state.calls[call]? = some src →
    (storedBy c.state call).map (fun e => some e.byte) =
      (List.range (storedBy c.state call).length).map src
  eof : ∀ t n k, c.prog t = some (.call (.report n []) k) → 0 < n →
    c.state.fields.nread = c.state.fields.nwrite ∧ c.state.fields.writeopen = false

theorem pipe_is_stream {c₀ c : Config Slot State Op Ret Int} (hfresh : Fresh c₀.state)
    (hidle : ∀ t, c₀.prog t = none) {tr : List (Move Slot Op Int)}
    (hrun : Transition.Run (Machine (fun _ _ _ => True) True) c₀ tr c) : IsStream c := by
  have hrun' : Transition.Run (Machine (logic ⟨True, False⟩).guard True) c₀ tr c :=
    hrun.mono fun _ _ _ => Step.mono perform (fun _ _ _ _ => False.elim) fun _ _ _ => id
  obtain ⟨g, hgood⟩ := good_of_run (m := ⟨True, False⟩) hfresh hidle hrun'
  have hstream := hgood.inv.2.2 trivial
  obtain ⟨got, q, -, hfree, hq, hbytes⟩ := hstream.bytes
  refine ⟨?_, fun hlock => ⟨q, ?_, hq⟩, ?_, hstream.order, fun t n k hprog hn => ?_⟩
  · rw [hbytes, List.append_assoc]
    exact List.prefix_append _ _
  · rw [hbytes, hfree hlock, List.append_nil]
  · rw [hq.sub_eq pipesize_lt]
    exact hq.length
  · have hstep := hgood.safe t _ hprog _ g hgood.inv rfl False.elim
    exact (hstep.2 () _ rfl).1 trivial n rfl hn

/-- Process 0 writes one byte and process 1 reads one. -/
def working : Config Slot State Op Ret Int where
  state := start.state
  prog := Function.update (Function.update start.prog 0 (some (pipewrite 0 (fun _ => some 97) 1 2)))
    1 (some (piperead 1 (fun _ => true) 1 1))

/-- The write, with a `wakeup` that looks at 63 processes, and then the read. -/
def finished : Option (Config Slot State Op Ret Int) :=
  schedule perform (fun _ _ _ => true) (List.replicate 198 0 ++ List.replicate 5 1) working

theorem pipe_is_stream_of_one_byte : ∃ c tr,
    Transition.Run (Machine (fun _ _ _ => True) True) start tr c ∧
    c.state.returned = [97] ∧ IsStream c := by
  have hsome : finished.isSome = true := by decide +kernel
  obtain ⟨c, hc⟩ := Option.isSome_iff_exists.mp hsome
  obtain ⟨tr, hrun⟩ := schedule_run perform (fun _ _ _ => True) (fun _ t p => Call True t p)
    (fun _ _ _ _ => trivial) hc
  have hall := Transition.Run.nil.snoc (Step.start (c := start) (t := 0) rfl
      (Call.write (fun _ => some 97) 1 2 fun _ _ _ => rfl))
    |>.snoc (.start (t := 1) rfl (Call.read (fun _ => true) 1 1 fun _ _ _ => rfl))
    |>.append hrun
  refine ⟨c, _, hall, ?_, pipe_is_stream start_fresh (fun _ => rfl) hall⟩
  have hreturned : finished.map (fun c => c.state.returned) = some [97] := by decide +kernel
  rw [hc] at hreturned
  exact Option.some.inj hreturned

end Xv6.Guarantees.PipeStream
