import TwinLisp.Proofs.Eval.CutShort

/-! More fuel changes nothing in a run that has ended, so every program ends in one way only. -/

namespace TwinLisp.Eval

/-- What has ended with less fuel has not been cut short. -/
theorem CutShort.eq_of_finished {α : Type} {act act' : EvalM α} (cut : CutShort (· = none) act act')
    {w : World} (finished : Finished (act w)) : act' w = act w := by
  rcases cut.runs w with same | ⟨halt, u, stopped, unplaced, -⟩
  · exact same.symm
  · obtain rfl := Halt.eq_outOfFuel_of_fault? unplaced
    exact absurd stopped (finished u)

/-- More fuel is a further bound, with the same limit on loops. -/
theorem bounds_of_le (config : Config) {fuel fuel' : Nat} (le : fuel ≤ fuel') :
    Bounds (· = none) config.loopLimit config.loopLimit fuel fuel' :=
  ⟨limitLe_refl _, .inl rfl, le, .inr rfl⟩

/-- A run that has ended ends in the same way with more fuel. -/
theorem runWith_of_le {config : Config} {program : List Expr} {w : World}
    {result : EStateM.Result Halt World Value} {fuel fuel' : Nat}
    (run : runWith config fuel program w = result) (finished : Finished result)
    (le : fuel ≤ fuel') : runWith config fuel' program w = result := by
  subst run
  exact (cutShort_runWith (bounds_of_le config le) program).eq_of_finished finished

/-- A program ends in at most one way. -/
theorem Ends.unique {config : Config} {program : List Expr} {w : World}
    {result result' : EStateM.Result Halt World Value} (h : Ends config program w result)
    (h' : Ends config program w result') : result = result' := by
  obtain ⟨finished, fuel, run⟩ := h
  obtain ⟨finished', fuel', run'⟩ := h'
  have first := runWith_of_le run finished (Nat.le_max_left fuel fuel')
  have second := runWith_of_le run' finished' (Nat.le_max_right fuel fuel')
  exact first.symm.trans second

end TwinLisp.Eval
