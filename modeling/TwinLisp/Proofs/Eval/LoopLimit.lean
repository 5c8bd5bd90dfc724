import TwinLisp.Proofs.Eval.Fuel

/-! A limit on loops only cuts runs short: it changes nothing that happens before it is reached. -/

namespace TwinLisp.Eval

variable {config config' : Config} {program : List Expr} {w : World}
  {result result' : EStateM.Result Halt World Value}

/-- With the same fuel, a limit that is not reached makes no difference, and one that is reached
leaves the first of the lines. -/
theorem runWith_of_limitLe (le : LimitLe config.loopLimit config'.loopLimit) (fuel : Nat)
    (program : List Expr) (w : World) :
    runWith config fuel program w = runWith config' fuel program w ∨
      LimitReached (runWith config fuel program w) ∧
        (after (runWith config fuel program) w).lines
          <+: (after (runWith config' fuel program) w).lines := by
  let stop (reason : Option Fault) : Prop := ∃ n, reason = some (.loopLimit n)
  have bounds : Bounds stop config.loopLimit config'.loopLimit fuel fuel :=
    ⟨le, .inr fun n => ⟨n, rfl⟩, Nat.le_refl fuel, .inl rfl⟩
  rcases (cutShort_runWith bounds program).runs w with same | ⟨halt, u, cut, ⟨n, reason⟩, begun⟩
  · exact .inl same
  · obtain ⟨span, rfl⟩ := Halt.eq_failed_of_fault? reason
    refine .inr ⟨⟨n, span, u, cut⟩, ?_⟩
    rwa [after_of_error cut]

/-- A program that ends without reaching the limit ends in the same way under a higher one. If it
reaches the limit and ends under the higher one too, it has printed the first of the lines that it
prints there. -/
theorem ends_of_limitLe (le : LimitLe config.loopLimit config'.loopLimit)
    (ends : Ends config program w result) :
    (¬LimitReached result → Ends config' program w result) ∧
      (LimitReached result → ∀ result', Ends config' program w result' →
        (finalWorld result).lines <+: (finalWorld result').lines) := by
  obtain ⟨finished, fuel, run⟩ := ends
  constructor
  · intro unreached
    refine ⟨finished, fuel, ?_⟩
    -- a run that has not reached the limit is the same under the higher one
    rcases runWith_of_limitLe le fuel program w with same | ⟨reached, -⟩
    · exact same.symm.trans run
    · exact absurd (run ▸ reached) unreached
  · intro _ result' ends'
    obtain ⟨finished', fuel', run'⟩ := ends'
    -- both runs are taken with the fuel of the one that needs more
    have first := runWith_of_le run finished (Nat.le_max_left fuel fuel')
    have second := runWith_of_le run' finished' (Nat.le_max_right fuel fuel')
    rw [← first, ← second]
    rcases runWith_of_limitLe le (max fuel fuel') program w with same | ⟨-, begun⟩
    · exact ⟨[], by rw [same, List.append_nil]⟩
    · exact begun

/-- `(set i 0) (while (< i 3) (print i) (set i (+ i 1)))` -/
def countToThree : List Expr := [
  .list [.ident "set" ⟨1, 4⟩, .ident "i" ⟨5, 6⟩, .int 0 ⟨7, 8⟩] ⟨0, 9⟩,
  .list [.ident "while" ⟨11, 16⟩,
    .list [.ident "<" ⟨18, 19⟩, .ident "i" ⟨20, 21⟩, .int 3 ⟨22, 23⟩] ⟨17, 24⟩,
    .list [.ident "print" ⟨26, 31⟩, .ident "i" ⟨32, 33⟩] ⟨25, 34⟩,
    .list [.ident "set" ⟨36, 39⟩, .ident "i" ⟨40, 41⟩,
      .list [.ident "+" ⟨43, 44⟩, .ident "i" ⟨45, 46⟩, .int 1 ⟨47, 48⟩] ⟨42, 49⟩] ⟨35, 50⟩] ⟨10, 51⟩]

/-- Under the limit 4 the loop ends as it does without one, under the limit 2 it is stopped. -/
theorem ends_of_limitLe_countToThree : ∃ result cut,
    Ends ⟨some 4⟩ countToThree (.initial .buffer) result ∧ ¬LimitReached result ∧
    Ends ⟨none⟩ countToThree (.initial .buffer) result ∧
    Ends ⟨some 2⟩ countToThree (.initial .buffer) cut ∧ LimitReached cut ∧
    (finalWorld cut).lines = ["0", "1"] ∧ (finalWorld cut).lines <+: (finalWorld result).lines := by
  let run (limit : Option Nat) := runWith ⟨limit⟩ 9 countToThree (.initial .buffer)
  have ends : Ends ⟨some 4⟩ countToThree (.initial .buffer) (run (some 4)) := ⟨nofun, 9, rfl⟩
  have unreached : ¬LimitReached (run (some 4)) := nofun
  have cut : Ends ⟨some 2⟩ countToThree (.initial .buffer) (run (some 2)) := ⟨nofun, 9, rfl⟩
  have reached : LimitReached (run (some 2)) := ⟨2, some ⟨10, 51⟩, _, rfl⟩
  have le (n : Nat) : LimitLe (Config.mk (some n)).loopLimit (Config.mk none).loopLimit := trivial
  have unlimited := (ends_of_limitLe (le 4) ends).1 unreached
  have begun := (ends_of_limitLe (le 2) cut).2 reached _ unlimited
  exact ⟨_, _, ends, unreached, unlimited, cut, reached, rfl, begun⟩

end TwinLisp.Eval
