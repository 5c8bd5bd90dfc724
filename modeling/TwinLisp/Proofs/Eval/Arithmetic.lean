import Mathlib.Algebra.BigOperators.Group.List.Basic
import Mathlib.Algebra.Ring.Int.Defs
import TwinLisp.Eval.Arithmetic
import TwinLisp.Proofs.Eval.Fuel
import TwinLisp.Proofs.Eval.Stamps

/-!
Arithmetic forms. The results of the steps wrap around; a whole sum, difference or product is the exact
one, wrapped around once, and only one quotient of all is not exact.
-/

namespace TwinLisp

/-! Folds of the steps of an operator. -/

namespace ArithOp

variable (acc : Int64) (ns : List Int64)

theorem foldlM_add :
    ns.foldlM add.step? acc = some (.ofInt (acc.toInt + (ns.map (·.toInt)).sum)) := by
  induction ns generalizing acc with
  | nil => simp
  | cons n ns ih =>
    rw [List.foldlM_cons]
    -- `ofInt` keeps sums, so that to wrap around at each step is to do so once at the end
    change ns.foldlM add.step? (acc + n) = _
    rw [ih, List.map_cons, List.sum_cons, ← Int.add_assoc]
    simp only [Int64.ofInt_add, Int64.ofInt_toInt]

theorem foldlM_sub :
    ns.foldlM sub.step? acc = some (.ofInt (acc.toInt - (ns.map (·.toInt)).sum)) := by
  induction ns generalizing acc with
  | nil => simp
  | cons n ns ih =>
    rw [List.foldlM_cons]
    change ns.foldlM sub.step? (acc - n) = _
    rw [ih, List.map_cons, List.sum_cons, ← Int.sub_sub]
    simp only [Int64.ofInt_sub, Int64.ofInt_toInt]

theorem foldlM_mul :
    ns.foldlM mul.step? acc = some (.ofInt (acc.toInt * (ns.map (·.toInt)).prod)) := by
  induction ns generalizing acc with
  | nil => simp
  | cons n ns ih =>
    rw [List.foldlM_cons]
    change ns.foldlM mul.step? (acc * n) = _
    rw [ih, List.map_cons, List.prod_cons, ← Int.mul_assoc]
    simp only [Int64.ofInt_mul, Int64.ofInt_toInt]

/-- Only the smallest integer over `-1` has a quotient that is too large. -/
theorem toInt_div (a b : Int64) : (a / b).toInt = Eval.quotient a.toInt b.toInt := by
  unfold Eval.quotient
  by_cases smallest : a = Int64.minValue
  · by_cases negated : b = -1
    · subst smallest negated
      rfl
    · rw [Int64.toInt_div_of_ne_right a b negated, if_neg]
      rintro ⟨-, same⟩
      exact negated (Int64.toInt_inj.mp same)
  · rw [Int64.toInt_div_of_ne_left a b smallest, if_neg]
    rintro ⟨same, -⟩
    exact smallest (Int64.toInt_inj.mp same)

/-- Quotients are exact, one after the other, where no divisor is zero. -/
theorem foldlM_div (nonzero : 0 ∉ ns) : ∃ q, ns.foldlM div.step? acc = some q ∧
    q.toInt = (ns.map (·.toInt)).foldl Eval.quotient acc.toInt := by
  induction ns generalizing acc with
  | nil => exact ⟨acc, rfl, rfl⟩
  | cons n ns ih =>
    obtain ⟨first, rest⟩ := not_or.mp fun h => nonzero (List.mem_cons.mpr h)
    obtain ⟨q, run, exact⟩ := ih (acc / n) rest
    refine ⟨q, ?_, ?_⟩
    · rw [List.foldlM_cons, step?, if_neg (Ne.symm first)]
      exact run
    · rw [List.map_cons, List.foldl_cons, ← toInt_div]
      exact exact

end ArithOp

namespace Eval

variable {config : Config} {e z : Expr} {es post : List Expr} {n : Int64} {ns : List Int64}
  {w u u' : World} {op : ArithOp} {hs span : Span}

/-! Operands that have all the fuel they need. -/

/-- A program of one expression is that expression. -/
theorem runWith_singleton (config : Config) (fuel : Nat) (e : Expr) :
    runWith config fuel [e] = evalWith config fuel e := by
  unfold runWith evalBody
  rw [List.foldlM_cons]
  simp only [List.foldlM_nil, bind_pure]

/-- With fuel enough the expression is evaluated as an operand is. -/
theorem Yields.eventually (yields : Yields config e w n u) :
    ∃ least, ∀ fuel, least ≤ fuel → evalInt (evalWith config fuel) e w = .ok n u := by
  obtain ⟨v, ⟨finished, least, run⟩, integer⟩ := yields
  refine ⟨least, fun fuel le => ?_⟩
  have more := runWith_of_le run finished le
  rw [runWith_singleton] at more
  unfold evalInt
  rw [bind_of_ok more, integer]
  rfl

/-- The operands that yield integers are passed, whatever operands follow them. -/
theorem YieldAll.eventually (yields : YieldAll config es w ns u) :
    ∃ least, ∀ fuel, least ≤ fuel → ∀ (op : ArithOp) acc r post, ns.foldlM op.step? acc = some r →
      evalOperands (evalWith config fuel) op acc (es ++ post) w
        = evalOperands (evalWith config fuel) op r post u := by
  induction yields with
  | nil =>
    refine ⟨0, fun fuel _ op acc r post folded => ?_⟩
    cases folded
    rfl
  | cons first _ ih =>
    obtain ⟨least, runs⟩ := first.eventually
    obtain ⟨least', runs'⟩ := ih
    -- fuel for the first operand and for the others
    refine ⟨max least least', fun fuel le op acc r post folded => ?_⟩
    rw [List.foldlM_cons] at folded
    obtain ⟨acc', stepped, folded⟩ := Option.bind_eq_some_iff.mp folded
    rw [List.cons_append, evalOperands, bind_of_ok (runs fuel (by omega))]
    simp only [stepped]
    exact runs' fuel (by omega) op acc' r post folded

/-- A form ends as its operands make it end. -/
theorem ends_of_evalArith {result : EStateM.Result Halt World Value} (finished : Finished result)
    (eventually : ∃ least, ∀ fuel, least ≤ fuel →
      withSpan span (evalArith (evalWith config fuel) op es) w = result) :
    Ends config [.arith op hs es span] w result := by
  obtain ⟨least, runs⟩ := eventually
  have classified : Form.classify op.symbol = some (.arith op) := by cases op <;> rfl
  -- one layer of fuel is for the form itself
  refine ⟨finished, least + 1, ?_⟩
  rw [runWith_singleton]
  change evalLayer (evalWith config least) config.loopLimit least (.arith op hs es span) w = result
  rw [Expr.arith, evalLayer_of_form classified]
  exact runs least (Nat.le_refl least)

theorem evalArith_neg (eval : Expr → EvalM Value) (e : Expr) :
    evalArith eval .sub [e] = evalInt eval e >>= fun n => pure (.int (-n)) :=
  rfl

theorem evalArith_cons (eval : Expr → EvalM Value) (op : ArithOp) (e : Expr) (nonempty : es ≠ []) :
    evalArith eval op (e :: es) =
      evalInt eval e >>= fun n => evalOperands eval op n es >>= fun r => pure (.int r) := by
  cases es with
  | nil => exact absurd rfl nonempty
  | cons e' es => rfl

/-- Two or more operands end with what the fold of the steps over their integers gives. -/
theorem YieldAll.ends_arith (yields : YieldAll config es w ns u) (two : 2 ≤ es.length) (hs span : Span) :
    ∃ a rest, ns = a :: rest ∧ ∀ (op : ArithOp) r, rest.foldlM op.step? a = some r →
      Ends config [.arith op hs es span] w (.ok (.int r) u) := by
  cases yields with
  | nil => simp at two
  | @cons e es a rest w v u first others =>
    refine ⟨a, rest, rfl, fun op r folded => ends_of_evalArith nofun ?_⟩
    -- with enough fuel for the first operand and for the others
    obtain ⟨least, runs⟩ := first.eventually
    obtain ⟨least', runs'⟩ := others.eventually
    refine ⟨max least least', fun fuel le => ?_⟩
    have nonempty : es ≠ [] := List.ne_nil_of_length_pos (Nat.le_of_succ_le_succ two)
    have passed := runs' fuel (by omega) op a r [] folded
    rw [List.append_nil] at passed
    apply withSpan_of_ok
    rw [evalArith_cons _ op e nonempty, bind_of_ok (runs fuel (by omega)), bind_of_ok passed]
    rfl

/-- A single operand of `-` is negated. -/
theorem Yields.ends_neg (yields : Yields config e w n u) :
    Ends config [.arith .sub hs [e] span] w (.ok (.int (.ofInt (-n.toInt))) u) := by
  obtain ⟨least, runs⟩ := yields.eventually
  refine ends_of_evalArith nofun ⟨least, fun fuel le => withSpan_of_ok ?_⟩
  rw [Int64.ofInt_neg, Int64.ofInt_toInt, evalArith_neg, bind_of_ok (runs fuel le)]
  rfl

/-- Behind operands that do not matter to it, a zero stops a division, before what follows it. -/
theorem ends_div_zero (nonempty : es ≠ []) (yields : YieldAll config es w ns u) (nonzero : 0 ∉ ns.tail)
    (zero : Yields config z u 0 u') : Ends config [.arith .div hs (es ++ z :: post) span] w
      (.error (.failed ⟨.divisionByZero, some z.span⟩) u') := by
  cases yields with
  | nil => exact absurd rfl nonempty
  | @cons e es a rest w v u first others =>
    obtain ⟨q, folded, -⟩ := ArithOp.foldlM_div a rest nonzero
    obtain ⟨least, runs⟩ := first.eventually
    obtain ⟨least', runs'⟩ := others.eventually
    obtain ⟨least'', runs''⟩ := zero.eventually
    refine ends_of_evalArith nofun ⟨max least (max least' least''), fun fuel le => ?_⟩
    have passed := runs' fuel (by omega) .div a q (z :: post) folded
    -- the quotient of the operands before is there, and the step that has no result ends the fold
    have stopped : evalOperands (evalWith config fuel) .div a (es ++ z :: post) v =
        .error (.failed ⟨.divisionByZero, some z.span⟩) u' := by
      rw [passed, evalOperands, bind_of_ok (runs'' fuel (by omega))]
      rfl
    have failed : evalArith (evalWith config fuel) .div (e :: es ++ z :: post) w =
        .error (.failed ⟨.divisionByZero, some z.span⟩) u' := by
      rw [List.cons_append, evalArith_cons _ .div e (by simp), bind_of_ok (runs fuel (by omega)),
        bind_of_error stopped]
    -- the error has the place of the operand by now, and the form leaves it there
    exact withSpan_of_error failed

/-! Operands without side effects. -/

/-- What an operand yields does not depend on the stamps of functions. -/
theorem Yields.twin {w' : World} (yields : Yields config e w n u) (twin : w.Twin w') :
    ∃ u', Yields config e w' n u' ∧ u.Twin u' := by
  obtain ⟨v, ⟨-, fuel, run⟩, integer⟩ := yields
  rw [runWith_singleton] at run
  obtain ⟨v', u', run', same, twin'⟩ := evalWith_twin twin run
  refine ⟨u', ⟨v', ⟨nofun, fuel, ?_⟩, ?_⟩, twin'⟩
  · rw [runWith_singleton, run']
  · rw [(Value.looksLike_of_unstamped same).toInt64_eq, integer]

/-- Where no operand has a side effect, each yields its own integer, wherever it stands. -/
theorem yieldAll_of_sideEffectFree {value : Expr → Int64} {w' : World}
    (free : ∀ e ∈ es, ∃ u, Yields config e w (value e) u ∧ w.Twin u) (twin : w.Twin w') :
    ∃ u, YieldAll config es w' (es.map value) u ∧ w.Twin u := by
  induction es generalizing w' with
  | nil => exact ⟨w', .nil, twin⟩
  | cons e es ih =>
    obtain ⟨free_e, free_es⟩ := List.forall_mem_cons.mp free
    obtain ⟨v, yields, unchanged⟩ := free_e
    -- the operand was tried at the beginning, and is now run behind those before it
    obtain ⟨v', yields', twin'⟩ := yields.twin twin
    obtain ⟨u, rest, unchanged'⟩ := ih free_es (unchanged.trans twin')
    exact ⟨u, .cons yields' rest, unchanged'⟩

/-- Sums and products of exact integers, wrapped around once. -/
theorem YieldAll.ends_sum_prod (yields : YieldAll config es w ns u) (two : 2 ≤ es.length)
    (hs span : Span) :
    Ends config [.arith .add hs es span] w (.ok (.int (.ofInt (ns.map (·.toInt)).sum)) u) ∧
      Ends config [.arith .mul hs es span] w (.ok (.int (.ofInt (ns.map (·.toInt)).prod)) u) := by
  obtain ⟨a, rest, rfl, ends⟩ := yields.ends_arith two hs span
  rw [List.map_cons, List.sum_cons, List.prod_cons]
  exact ⟨ends .add _ (ArithOp.foldlM_add a rest), ends .mul _ (ArithOp.foldlM_mul a rest)⟩

/-- Without side effects the order of the operands does not matter. -/
theorem ends_perm {es' : List Expr} (perm : es.Perm es') (two : 2 ≤ es.length)
    (free : ∀ e ∈ es, SideEffectFree config w e) (commutes : op = .add ∨ op = .mul) : ∃ r u u',
      Ends config [.arith op hs es span] w (.ok (.int r) u) ∧ w.Twin u ∧
      Ends config [.arith op hs es' span] w (.ok (.int r) u') ∧ w.Twin u' := by
  -- for `choose!`, which needs a world for expressions that are no operands
  have nonempty : Nonempty World := ⟨w⟩
  choose! value v yields unchanged using free
  have free (e : Expr) (mem : e ∈ es) : ∃ u, Yields config e w (value e) u ∧ w.Twin u :=
    ⟨v e, yields e mem, unchanged e mem⟩
  obtain ⟨u, all, twin⟩ := yieldAll_of_sideEffectFree free (.refl w)
  obtain ⟨u', all', twin'⟩ :=
    yieldAll_of_sideEffectFree (fun e mem => free e (perm.mem_iff.mpr mem)) (.refl w)
  obtain ⟨sum, prod⟩ := all.ends_sum_prod two hs span
  obtain ⟨sum', prod'⟩ := all'.ends_sum_prod (perm.length_eq ▸ two) hs span
  -- sums and products of integers do not depend on the order,
  -- and so neither do those that wrap around
  have integers := (perm.map value).map (·.toInt)
  rcases commutes with rfl | rfl
  · rw [← integers.sum_eq] at sum'
    exact ⟨_, u, u', sum, twin, sum', twin'⟩
  · rw [← integers.prod_eq] at prod'
    exact ⟨_, u, u', prod, twin, prod', twin'⟩

/-- Variadic arithmetic is exact arithmetic wrapped around once; a division stops at the first divisor
that is zero, and its steps are exact but for the one quotient that does not fit. -/
theorem arith_exact (config : Config) (hs span : Span) (w : World) :
    (∀ es a rest u, YieldAll config es w (a :: rest) u → 2 ≤ es.length →
      Ends config [.arith .add hs es span] w (.ok (.int (.ofInt ((a :: rest).map (·.toInt)).sum)) u) ∧
      Ends config [.arith .mul hs es span] w (.ok (.int (.ofInt ((a :: rest).map (·.toInt)).prod)) u) ∧
      Ends config [.arith .sub hs es span] w
        (.ok (.int (.ofInt (a.toInt - (rest.map (·.toInt)).sum))) u) ∧
      (0 ∉ rest → ∃ q, Ends config [.arith .div hs es span] w (.ok (.int q) u) ∧
        q.toInt = (rest.map (·.toInt)).foldl quotient a.toInt)) ∧
    (∀ e n u, Yields config e w n u →
      Ends config [.arith .sub hs [e] span] w (.ok (.int (.ofInt (-n.toInt))) u)) ∧
    (∀ es ns u z u' post, es ≠ [] → YieldAll config es w ns u → 0 ∉ ns.tail → Yields config z u 0 u' →
      Ends config [.arith .div hs (es ++ z :: post) span] w
        (.error (.failed ⟨.divisionByZero, some z.span⟩) u')) ∧
    (∀ es es' op, es.Perm es' → 2 ≤ es.length → (∀ e ∈ es, SideEffectFree config w e) →
      op = .add ∨ op = .mul → ∃ r u u',
        Ends config [.arith op hs es span] w (.ok (.int r) u) ∧ w.Twin u ∧
        Ends config [.arith op hs es' span] w (.ok (.int r) u') ∧ w.Twin u') := by
  refine ⟨fun es a rest u yields two => ?_, fun e n u yields => yields.ends_neg,
    fun es ns u z u' post nonempty yields nonzero zero => ends_div_zero nonempty yields nonzero zero,
    fun es es' op perm two free commutes => ends_perm perm two free commutes⟩
  obtain ⟨sum, prod⟩ := yields.ends_sum_prod two hs span
  obtain ⟨_, _, same, ends⟩ := yields.ends_arith two hs span
  cases same
  refine ⟨sum, prod, ends .sub _ (ArithOp.foldlM_sub a rest), fun nonzero => ?_⟩
  obtain ⟨q, folded, exact⟩ := ArithOp.foldlM_div a rest nonzero
  exact ⟨q, ends .div q folded, exact⟩

theorem yields_int (config : Config) (n : Int64) (span : Span) (w : World) :
    Yields config (.int n span) w n w :=
  ⟨.int n, ⟨nofun, 1, rfl⟩, rfl⟩

/-- `(+ max 1 1)` wraps around once, `(/ min -1)` is the quotient that does not fit, `(/ 1 0 (print 1))`
prints nothing, and `(* 2 3)` is `(* 3 2)`. -/
theorem arith_exact_extremes :
    let w := World.initial .buffer
    let here : Span := ⟨0, 0⟩
    let int (n : Int64) : Expr := .int n here
    let printed : Expr := .list [.ident "print" here, int 1] here
    Ends {} [.arith .add here [int .maxValue, int 1, int 1] here] w (.ok (.int (.minValue + 1)) w) ∧
    (∃ q, Ends {} [.arith .div here [int .minValue, int (-1)] here] w (.ok (.int q) w) ∧
      q.toInt = Int64.minValue.toInt) ∧
    Ends {} [.arith .sub here [int .minValue] here] w (.ok (.int .minValue) w) ∧
    Ends {} [.arith .div here [int 1, int 0, printed] here] w
      (.error (.failed ⟨.divisionByZero, some here⟩) w) ∧
    ∃ r u u', Ends {} [.arith .mul here [int 2, int 3] here] w (.ok (.int r) u) ∧ w.Twin u ∧
      Ends {} [.arith .mul here [int 3, int 2] here] w (.ok (.int r) u') ∧ w.Twin u' := by
  intro w here int printed
  have yields (n : Int64) : Yields {} (int n) w n w := yields_int {} n here w
  -- each part of the statement is the general theorem for some operands
  obtain ⟨exact, negated, stopped, permuted⟩ := arith_exact {} here here w
  have sums := exact [int .maxValue, int 1, int 1] .maxValue [1, 1] w
    (.cons (yields _) (.cons (yields _) (.cons (yields _) .nil))) (by decide)
  have quotients := exact [int .minValue, int (-1)] .minValue [-1] w
    (.cons (yields _) (.cons (yields _) .nil)) (by decide)
  refine ⟨sums.1, quotients.2.2.2 (by decide), negated _ _ _ (yields _), ?_, ?_⟩
  · exact stopped [int 1] [1] w (int 0) w [printed] (by simp) (.cons (yields _) .nil) (by decide) (yields 0)
  · refine permuted _ _ .mul (.swap _ _ []) (by decide) (fun e mem => ?_) (.inr rfl)
    simp only [List.mem_cons, List.not_mem_nil, or_false] at mem
    rcases mem with rfl | rfl
    · exact ⟨2, w, yields 2, .refl w⟩
    · exact ⟨3, w, yields 3, .refl w⟩

end Eval

end TwinLisp
