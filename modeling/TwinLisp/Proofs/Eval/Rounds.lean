import TwinLisp.Eval.Rounds
import TwinLisp.Proofs.Eval.Fuel

/-!
A loop round by round. Under a limit it goes as it goes without one, until it has completed as many
rounds as the limit allows; the limit 0 allows a round all the same, as the limit 1 does.
-/

namespace TwinLisp.Eval

variable {config : Config} {cond : Expr} {body : List Expr} {span : Span} {w u v : World}
  {done fuel fuel' : Nat}

/-! Rounds. -/

section Rounds

variable {result result' : EStateM.Result Halt World Bool}

theorem cutShort_evalRound {stop : Option Fault → Prop} {eval eval' : Expr → EvalM Value}
    (ih : ∀ e, CutShort stop (eval e) (eval' e)) (cond : Expr) (body : List Expr) :
    CutShort stop (evalRound eval cond body) (evalRound eval' cond body) := by
  unfold evalRound
  apply cutShort_bind (cutShort_evalCondition ih cond)
  intro again
  cases again with
  | true => exact cutShort_bind (cutShort_evalBody ih body) fun _ => cutShort_pure true
  | false => exact cutShort_pure false

/-- A round that has ended does so with more fuel. -/
theorem evalRound_of_le (run : evalRound (evalWith config fuel) cond body w = result)
    (finished : Finished result) (le : fuel ≤ fuel') :
    evalRound (evalWith config fuel') cond body w = result := by
  subst run
  have cut := cutShort_evalRound (cutShort_evalWith (bounds_of_le config le)) cond body
  exact cut.eq_of_finished finished

theorem RoundEnds.eventually (h : RoundEnds config cond body w result) :
    ∃ least, ∀ fuel, least ≤ fuel → evalRound (evalWith config fuel) cond body w = result := by
  obtain ⟨finished, least, run⟩ := h
  exact ⟨least, fun fuel le => evalRound_of_le run finished le⟩

/-- A round ends in at most one way. -/
theorem RoundEnds.unique (h : RoundEnds config cond body w result)
    (h' : RoundEnds config cond body w result') : result = result' := by
  obtain ⟨finished, fuel, run⟩ := h
  obtain ⟨finished', fuel', run'⟩ := h'
  have first := evalRound_of_le run finished (Nat.le_max_left fuel fuel')
  have second := evalRound_of_le run' finished' (Nat.le_max_right fuel fuel')
  exact first.symm.trans second

theorem NoErrors.here {k : Nat} (noErrors : NoErrors config cond body (k + 1) w)
    (error : EvalError) (u : World) : ¬RoundEnds config cond body w (.error (.failed error) u) :=
  noErrors 0 (Nat.succ_pos k) w .zero error u

/-- The rounds after one that was completed raise no errors either. -/
theorem NoErrors.after {k : Nat} (noErrors : NoErrors config cond body (k + 1) w)
    (first : RoundEnds config cond body w (.ok true v)) : NoErrors config cond body k v := by
  intro j lt u rest
  exact noErrors (j + 1) (Nat.succ_lt_succ lt) u (.succ first rest)

/-- Without an error no limit has been reached inside the round. -/
theorem roundEnds_unlimited {n k : Nat} (noErrors : NoErrors ⟨some n⟩ cond body (k + 1) w) :
    RoundEnds ⟨some n⟩ cond body w result ↔ RoundEnds ⟨none⟩ cond body w result := by
  let stop (reason : Option Fault) : Prop := ∃ n, reason = some (.loopLimit n)
  -- with any fuel the two runs are one, or the limited one reaches its limit
  have same (fuel : Nat) : evalRound (evalWith ⟨some n⟩ fuel) cond body w =
      evalRound (evalWith ⟨none⟩ fuel) cond body w := by
    have bounds : Bounds stop (some n) none fuel fuel :=
      ⟨trivial, .inr fun n => ⟨n, rfl⟩, Nat.le_refl fuel, .inl rfl⟩
    have each (e : Expr) : CutShort stop (evalWith ⟨some n⟩ fuel e) (evalWith ⟨none⟩ fuel e) :=
      cutShort_evalWith bounds e
    have cut := cutShort_evalRound each cond body
    rcases cut.runs w with same | ⟨halt, u, stopped, ⟨n, reason⟩, -⟩
    · exact same
    · obtain ⟨span, rfl⟩ := Halt.eq_failed_of_fault? reason
      exact absurd ⟨nofun, fuel, stopped⟩ (noErrors.here ⟨.loopLimit n, span⟩ u)
  simp only [RoundEnds, same]

/-- As long as no round raises an error, the limit has no part in what the rounds do. -/
theorem rounds_unlimited {n k : Nat} (noErrors : NoErrors ⟨some n⟩ cond body k w) :
    Rounds ⟨some n⟩ cond body k w u ↔ Rounds ⟨none⟩ cond body k w u := by
  induction k generalizing w with
  | zero =>
    constructor <;>
    · intro rounds
      cases rounds
      exact .zero
  | succ k ih =>
    -- each way, the first round is exchanged and then the others
    constructor
    · intro rounds
      obtain _ | ⟨first, rest⟩ := rounds
      exact .succ ((roundEnds_unlimited noErrors).mp first) ((ih (noErrors.after first)).mp rest)
    · intro rounds
      obtain _ | ⟨first, rest⟩ := rounds
      have limited := (roundEnds_unlimited noErrors).mpr first
      exact .succ limited ((ih (noErrors.after limited)).mpr rest)

end Rounds

/-! Loops. -/

section Loops

variable {eval : Expr → EvalM Value} {limit : Option Nat} {result : EStateM.Result Halt World Value}

/-- One more unit of fuel: a round, and then the limit or the rest of the loop. -/
theorem evalIterations_succ : evalIterations eval limit cond body (fuel + 1) done =
    evalRound eval cond body >>= fun again =>
      if again then
        match limit with
        | some n =>
          if n ≤ done + 1 then fail (.loopLimit n)
          else evalIterations eval limit cond body fuel (done + 1)
        | none => evalIterations eval limit cond body fuel (done + 1)
      else return .int 0 := by
  conv_lhs => unfold evalIterations
  unfold evalRound
  rw [bind_assoc]
  congr 1
  funext again
  cases again with
  | true =>
    cases limit with
    | none | some => simp only [if_true, bind_assoc, pure_bind]
  | false => simp only [Bool.false_eq_true, if_false, pure_bind]

/-- The same of the loop as a form, which puts errors at its span. -/
theorem withSpan_evalIterations_succ : withSpan span (evalIterations eval limit cond body (fuel + 1) done) =
    withSpan span (evalRound eval cond body) >>= fun again =>
      if again then
        match limit with
        | some n =>
          if n ≤ done + 1 then throw (.failed ⟨.loopLimit n, some span⟩)
          else withSpan span (evalIterations eval limit cond body fuel (done + 1))
        | none => withSpan span (evalIterations eval limit cond body fuel (done + 1))
      else return .int 0 := by
  rw [evalIterations_succ, withSpan_bind]
  congr 1
  funext again
  cases again with
  | false => rfl
  | true =>
    cases limit with
    | none => rfl
    | some n =>
      simp only [if_true]
      split <;> rfl

/-- By induction on the number of rounds that are left. -/
theorem loopEnds_of_evalIterations
    (run : withSpan span (evalIterations (evalWith config fuel) config.loopLimit cond body fuel' done) w
      = result) (finished : Finished result) : LoopEnds config cond body span done w result := by
  induction fuel' generalizing done w with
  | zero =>
    -- to run out of fuel is not an end
    cases run
    exact absurd rfl (finished w)
  | succ fuel' ih =>
    rw [withSpan_evalIterations_succ] at run
    cases round : evalRound (evalWith config fuel) cond body w with
    | error halt u =>
      rw [bind_of_error (withSpan_of_error round)] at run
      subst run
      -- an error of the round is one of the loop
      cases halt with
      | outOfFuel => exact absurd rfl (finished u)
      | failed error => exact .error ⟨nofun, fuel, round⟩
    | ok again v =>
      rw [bind_of_ok (withSpan_of_ok round)] at run
      cases again with
      | false =>
        cases run
        exact .exit ⟨nofun, fuel, round⟩
      | true =>
        have ended : RoundEnds config cond body w (.ok true v) := ⟨nofun, fuel, round⟩
        -- the round is over: the loop goes on unless the limit is reached with it
        cases limited : config.loopLimit with
        | none =>
          simp only [limited, if_true] at run ih
          exact .next ended (by simp [limited]) (ih run)
        | some n =>
          simp only [limited, if_true] at run ih
          split at run
          next reached =>
            cases run
            exact .limit ended limited reached
          next going =>
            have below (k : Nat) (same : config.loopLimit = some k) : done + 1 < k := by
              cases limited.symm.trans same
              omega
            exact .next ended below (ih run)

/-- With enough fuel the loop comes to its end. -/
theorem evalIterations_of_loopEnds (ends : LoopEnds config cond body span done w result) :
    ∃ least, ∀ fuel fuel', least ≤ fuel → least ≤ fuel' →
      withSpan span (evalIterations (evalWith config fuel) config.loopLimit cond body (fuel' + 1) done) w
        = result := by
  induction ends with
  | exit round =>
    -- fuel for the round is fuel for the loop here
    obtain ⟨least, runs⟩ := round.eventually
    refine ⟨least, fun fuel fuel' le _ => ?_⟩
    rw [withSpan_evalIterations_succ, bind_of_ok (withSpan_of_ok (runs fuel le))]
    rfl
  | error round =>
    obtain ⟨least, runs⟩ := round.eventually
    refine ⟨least, fun fuel fuel' le _ => ?_⟩
    rw [withSpan_evalIterations_succ, bind_of_error (withSpan_of_error (runs fuel le))]
    rfl
  | limit round limited reached =>
    obtain ⟨least, runs⟩ := round.eventually
    refine ⟨least, fun fuel fuel' le _ => ?_⟩
    rw [withSpan_evalIterations_succ, bind_of_ok (withSpan_of_ok (runs fuel le))]
    simp only [if_true, limited, if_pos reached]
    rfl
  | next round below rest ih =>
    obtain ⟨least, runs⟩ := round.eventually
    obtain ⟨least', runs'⟩ := ih
    -- one more than the rest needs, for this round
    refine ⟨max least (least' + 1), fun fuel fuel' le le' => ?_⟩
    obtain ⟨left, rfl⟩ : ∃ left, fuel' = left + 1 := Nat.exists_eq_add_of_le' (by omega)
    have going := runs' fuel left (by omega) (by omega)
    rw [withSpan_evalIterations_succ, bind_of_ok (withSpan_of_ok (runs fuel (by omega)))]
    cases limited : config.loopLimit with
    | none =>
      rw [limited] at going
      exact going
    | some n =>
      have lt := below n limited
      rw [limited] at going
      simp only [if_true, if_neg (Nat.not_le.mpr lt)]
      exact going

/-- The loop as a form of a program. -/
theorem runWith_loop (config : Config) (fuel : Nat) (head span : Span) (cond e : Expr) (es : List Expr) :
    runWith config (fuel + 1) [.list (.ident "while" head :: cond :: e :: es) span] =
      withSpan span (evalIterations (evalWith config fuel) config.loopLimit cond (e :: es) fuel 0) := by
  unfold runWith evalBody
  simp only [List.foldlM_cons, List.foldlM_nil, bind_pure]
  rfl

/-- To run out of fuel is not among the ends of a loop. -/
theorem LoopEnds.finished (ends : LoopEnds config cond body span done w result) : Finished result := by
  induction ends with
  | next _ _ _ ih => exact ih
  | _ => exact nofun

/-- A loop ends as its rounds make it end. -/
theorem ends_loop_iff {head : Span} {e : Expr} {es : List Expr} :
    Ends config [.list (.ident "while" head :: cond :: e :: es) span] w result ↔
      LoopEnds config cond (e :: es) span 0 w result := by
  constructor
  · rintro ⟨finished, fuel, run⟩
    -- one layer of fuel is for the form itself
    have more := runWith_of_le run finished (Nat.le_succ fuel)
    rw [runWith_loop] at more
    exact loopEnds_of_evalIterations more finished
  · intro ends
    obtain ⟨least, runs⟩ := evalIterations_of_loopEnds ends
    have run := runs (least + 1) least (Nat.le_succ least) (Nat.le_refl least)
    exact ⟨ends.finished, least + 2, by rw [runWith_loop, run]⟩

end Loops

/-! A loop of which `k + 1` rounds are left until the limit. -/

section Limit

variable {n k : Nat} {result : EStateM.Result Halt World Value}

/-- With `k + 1` rounds to go, the limit is reached by the next one if it is the last. -/
theorem reached_iff (left : max n 1 = done + (k + 1)) : n ≤ done + 1 ↔ k = 0 := by
  omega

/-- The limit stops the loop exactly if all the rounds that it allows are completed. -/
theorem loopEnds_limit_iff (left : max n 1 = done + (k + 1))
    (noErrors : NoErrors ⟨some n⟩ cond body (k + 1) w) :
    LoopEnds ⟨some n⟩ cond body span done w (.error (.failed ⟨.loopLimit n, some span⟩) u) ↔
      Rounds ⟨some n⟩ cond body (k + 1) w u := by
  induction k generalizing done w with
  | zero =>
    have reached : n ≤ done + 1 := (reached_iff left).mpr rfl
    constructor
    · intro ends
      generalize ended : EStateM.Result.error _ u = result at ends
      cases ends with
      | exit => cases ended
      | error round =>
        -- the same error, but raised inside the round
        exact absurd round (noErrors.here _ _)
      | limit round =>
        cases ended
        exact .succ round .zero
      | next round below => exact absurd (below n rfl) (Nat.not_lt.mpr reached)
    · intro rounds
      obtain _ | ⟨first, rest⟩ := rounds
      cases rest
      exact .limit first rfl reached
  | succ k ih =>
    -- behind this round the limit is not reached yet
    have below : done + 1 < n := by omega
    have next : max n 1 = done + 1 + (k + 1) := by omega
    constructor
    · intro ends
      generalize ended : EStateM.Result.error _ u = result at ends
      cases ends with
      | exit => cases ended
      | error round => exact absurd round (noErrors.here _ _)
      | limit round limited reached =>
        cases limited
        omega
      | next round _ rest =>
        subst ended
        exact .succ round ((ih next (noErrors.after round)).mp rest)
    · intro rounds
      obtain _ | ⟨first, rest⟩ := rounds
      apply LoopEnds.next first
      · rintro _ ⟨⟩
        exact below
      · exact (ih next (noErrors.after first)).mpr rest

/-- As long as the loop cannot complete the rounds that are left, the limit makes no difference. -/
theorem loopEnds_unlimited (left : max n 1 = done + (k + 1))
    (noErrors : NoErrors ⟨some n⟩ cond body (k + 1) w)
    (fewer : ¬∃ u, Rounds ⟨none⟩ cond body (k + 1) w u) :
    LoopEnds ⟨some n⟩ cond body span done w result ↔ LoopEnds ⟨none⟩ cond body span done w result := by
  constructor
  · intro ends
    induction ends generalizing k with
    | exit round => exact .exit ((roundEnds_unlimited noErrors).mp round)
    | error round => exact absurd round (noErrors.here _ _)
    | limit round limited reached =>
      -- this was the last round that was left, and it is completed
      cases limited
      obtain rfl := (reached_iff left).mp reached
      have completed := (roundEnds_unlimited noErrors).mp round
      exact absurd ⟨_, .succ completed .zero⟩ fewer
    | next round below rest ih =>
      have lt := below n rfl
      obtain ⟨k, rfl⟩ : ∃ j, k = j + 1 := Nat.exists_eq_add_of_le' (by omega)
      have completed := (roundEnds_unlimited noErrors).mp round
      apply LoopEnds.next completed nofun
      apply ih (by omega) (noErrors.after round)
      rintro ⟨u, rounds⟩
      exact fewer ⟨u, .succ completed rounds⟩
  · intro ends
    induction ends generalizing k with
    | exit round => exact .exit ((roundEnds_unlimited noErrors).mpr round)
    | error round =>
      -- without a limit the round would not raise an error either
      exact absurd ((roundEnds_unlimited noErrors).mpr round) (noErrors.here _ _)
    | limit _ limited => cases limited
    | next round _ rest ih =>
      cases k with
      | zero =>
        -- only the limit would stop the loop here
        exact absurd ⟨_, .succ round .zero⟩ fewer
      | succ k =>
        have completed := (roundEnds_unlimited noErrors).mpr round
        apply LoopEnds.next completed
        · rintro _ ⟨⟩
          omega
        · apply ih (by omega) (noErrors.after completed)
          rintro ⟨u, rounds⟩
          exact fewer ⟨u, .succ round rounds⟩

/-- Then the loop can only end by its condition. -/
theorem eq_zero_of_loopEnds (left : max n 1 = done + (k + 1))
    (noErrors : NoErrors ⟨some n⟩ cond body (k + 1) w)
    (fewer : ¬∃ u, Rounds ⟨some n⟩ cond body (k + 1) w u)
    (ends : LoopEnds ⟨some n⟩ cond body span done w result) : ∃ u, result = .ok (.int 0) u := by
  -- a loop ends in one of four ways, and only the first is left
  induction ends generalizing k with
  | exit => exact ⟨_, rfl⟩
  | error round => exact absurd round (noErrors.here _ _)
  | limit round limited reached =>
    cases limited
    obtain rfl := (reached_iff left).mp reached
    exact absurd ⟨_, .succ round .zero⟩ fewer
  | next round below rest ih =>
    have lt := below n rfl
    obtain ⟨k, rfl⟩ : ∃ j, k = j + 1 := Nat.exists_eq_add_of_le' (by omega)
    apply ih (by omega) (noErrors.after round)
    rintro ⟨u, rounds⟩
    exact fewer ⟨u, .succ round rounds⟩

/-- Where every round ends, the loop does. -/
theorem exists_loopEnds (left : max n 1 = done + (k + 1))
    (ended : ∀ j < k + 1, ∀ u, Rounds ⟨some n⟩ cond body j w u →
      ∃ again v, RoundEnds ⟨some n⟩ cond body u (.ok again v)) :
    ∃ result, LoopEnds ⟨some n⟩ cond body span done w result := by
  induction k generalizing done w with
  | zero =>
    obtain ⟨again, v, round⟩ := ended 0 (Nat.succ_pos 0) w .zero
    cases again with
    | false => exact ⟨_, .exit round⟩
    | true =>
      -- the last round may be followed by another one, but the limit stops the loop before it
      exact ⟨_, .limit round rfl ((reached_iff left).mpr rfl)⟩
  | succ k ih =>
    obtain ⟨again, v, round⟩ := ended 0 (Nat.succ_pos _) w .zero
    cases again with
    | false => exact ⟨_, .exit round⟩
    | true =>
      -- one round is behind, one less is left
      have rest : ∃ result, LoopEnds ⟨some n⟩ cond body span (done + 1) v result := by
        apply ih (by omega)
        intro j lt u rounds
        exact ended (j + 1) (by omega) u (.succ round rounds)
      obtain ⟨result, ends⟩ := rest
      refine ⟨result, .next round ?_ ends⟩
      rintro _ ⟨⟩
      omega

end Limit

/-! How often the body is run. -/

section Count

variable {eval : Expr → EvalM Value} {limit : Option Nat}

/-- Counting changes nothing. -/
theorem snd_countIterations (fuel done : Nat) (w : World) :
    (countIterations eval limit cond body span fuel done w).2 =
      withSpan span (evalIterations eval limit cond body fuel done) w := by
  induction fuel generalizing done w with
  | zero => rfl
  | succ fuel ih =>
    unfold countIterations evalIterations
    rw [withSpan_bind]
    -- the two run in parallel; only the count is extra
    cases condition : evalCondition eval cond w with
    | error halt u => rw [bind_of_error (withSpan_of_error condition)]
    | ok again u =>
      rw [bind_of_ok (withSpan_of_ok condition)]
      cases again with
      | false => rfl
      | true =>
        simp only [if_true, withSpan_bind]
        cases ran : evalBody eval body u with
        | error halt v => rw [bind_of_error (withSpan_of_error ran)]
        | ok _ v =>
          rw [bind_of_ok (withSpan_of_ok ran)]
          cases limit with
          | none => exact ih (done + 1) v
          | some n =>
            simp only
            split
            · rfl
            · exact ih (done + 1) v

/-- The body is run no more often than the limit says, but once in any case. -/
theorem fst_countIterations_le {n : Nat} (fuel : Nat) (w : World) (lt : done < max n 1) :
    (countIterations eval (some n) cond body span fuel done w).1 ≤ max n 1 := by
  induction fuel generalizing done w with
  | zero => exact Nat.le_of_lt lt
  | succ fuel ih =>
    unfold countIterations
    split
    · exact Nat.le_of_lt lt
    · exact Nat.le_of_lt lt
    · split
      · exact lt
      · simp only
        split
        · exact lt
        · exact ih _ (by omega)

end Count

/-- A loop under the limit `n` starts its body at most `n` times, or once if `n` is 0. Let none of these
rounds raise an error. Then the loop is stopped for its limit exactly where without any limit it completes
as many rounds, and in the world that they lead to. If it completes fewer, it ends as it does without a
limit, which is with 0. It does end if its rounds do. -/
theorem limited_loop_ends (n : Nat) (cond e : Expr) (es : List Expr) (head span : Span) (w : World)
    (noErrors : NoErrors ⟨some n⟩ cond (e :: es) (max n 1) w) :
    let body := e :: es
    let loop : Expr := .list (.ident "while" head :: cond :: body) span
    (∀ fuel, ∃ runs ≤ max n 1, countIterations (evalWith ⟨some n⟩ fuel) (some n) cond body span fuel 0 w
      = (runs, evalWith ⟨some n⟩ (fuel + 1) loop w)) ∧
    (∀ u, Ends ⟨some n⟩ [loop] w (.error (.failed ⟨.loopLimit n, some span⟩) u) ↔
      Rounds ⟨none⟩ cond body (max n 1) w u) ∧
    ((¬∃ u, Rounds ⟨none⟩ cond body (max n 1) w u) → ∀ result,
      (Ends ⟨some n⟩ [loop] w result ↔ Ends ⟨none⟩ [loop] w result) ∧
      (Ends ⟨some n⟩ [loop] w result → ∃ u, result = .ok (.int 0) u)) ∧
    ((∀ k < max n 1, ∀ u, Rounds ⟨some n⟩ cond body k w u →
        ∃ again v, RoundEnds ⟨some n⟩ cond body u (.ok again v)) →
      ∃ result, Ends ⟨some n⟩ [loop] w result) := by
  intro body loop
  have some_round : 0 < max n 1 := Nat.lt_of_lt_of_le Nat.one_pos (Nat.le_max_right n 1)
  have counted (fuel : Nat) : ∃ runs ≤ max n 1,
      countIterations (evalWith ⟨some n⟩ fuel) (some n) cond body span fuel 0 w
        = (runs, evalWith ⟨some n⟩ (fuel + 1) loop w) := by
    let count := countIterations (evalWith ⟨some n⟩ fuel) (some n) cond body span fuel 0 w
    have same : count.2 = evalWith ⟨some n⟩ (fuel + 1) loop w := snd_countIterations fuel 0 w
    exact ⟨count.1, fst_countIterations_le fuel w some_round, Prod.ext rfl same⟩
  -- from here on the first round is counted apart
  obtain ⟨k, rounds⟩ : ∃ k, max n 1 = k + 1 := Nat.exists_eq_add_of_le' some_round
  have left : max n 1 = 0 + (k + 1) := by omega
  rw [rounds] at noErrors counted ⊢
  -- with `k + 1` for `max n 1`, both loops are compared round by round
  have stopped (u : World) : Ends ⟨some n⟩ [loop] w (.error (.failed ⟨.loopLimit n, some span⟩) u) ↔
      Rounds ⟨none⟩ cond body (k + 1) w u := by
    rw [ends_loop_iff, loopEnds_limit_iff left noErrors, rounds_unlimited noErrors]
  have fewer_rounds (fewer : ¬∃ u, Rounds ⟨none⟩ cond body (k + 1) w u)
      (result : EStateM.Result Halt World Value) :
      (Ends ⟨some n⟩ [loop] w result ↔ Ends ⟨none⟩ [loop] w result) ∧
      (Ends ⟨some n⟩ [loop] w result → ∃ u, result = .ok (.int 0) u) := by
    rw [ends_loop_iff, ends_loop_iff]
    constructor
    · exact loopEnds_unlimited left noErrors fewer
    · apply eq_zero_of_loopEnds left noErrors
      rintro ⟨u, completed⟩
      exact fewer ⟨u, (rounds_unlimited noErrors).mp completed⟩
  have ended (each : ∀ j < k + 1, ∀ u, Rounds ⟨some n⟩ cond body j w u →
      ∃ again v, RoundEnds ⟨some n⟩ cond body u (.ok again v)) :
      ∃ result, Ends ⟨some n⟩ [loop] w result := by
    obtain ⟨result, ends⟩ := exists_loopEnds left each
    exact ⟨result, ends_loop_iff.mpr ends⟩
  exact ⟨counted, stopped, fewer_rounds, ended⟩

def printOne : Expr :=
  .list [.ident "print" ⟨10, 15⟩, .int 1 ⟨16, 17⟩] ⟨9, 18⟩

theorem roundEnds_printOne (limit : Option Nat) (w : World) :
    RoundEnds ⟨limit⟩ (.int 1 ⟨7, 8⟩) [printOne] w
      (.ok true { w with output := w.output.println "1" }) :=
  ⟨nofun, 3, rfl⟩

/-- `(while 1 (print 1))` goes on for ever; the limit 2 stops it after two lines. -/
theorem limited_loop_ends_printOne : ∃ u,
    NoErrors ⟨some 2⟩ (.int 1 ⟨7, 8⟩) [printOne] (max 2 1) (.initial .buffer) ∧
    Ends ⟨some 2⟩ [.list [.ident "while" ⟨1, 6⟩, .int 1 ⟨7, 8⟩, printOne] ⟨0, 19⟩] (.initial .buffer)
      (.error (.failed ⟨.loopLimit 2, some ⟨0, 19⟩⟩) u) ∧ u.lines = ["1", "1"] := by
  have noErrors : NoErrors ⟨some 2⟩ (.int 1 ⟨7, 8⟩) [printOne] (max 2 1) (.initial .buffer) := by
    intro k _ u _ error v failed
    cases (roundEnds_printOne (some 2) u).unique failed
  have twice := Rounds.succ (roundEnds_printOne none (.initial .buffer))
    (.succ (roundEnds_printOne none _) .zero)
  obtain ⟨-, stopped, -⟩ :=
    limited_loop_ends 2 (.int 1 ⟨7, 8⟩) printOne [] ⟨1, 6⟩ ⟨0, 19⟩ (.initial .buffer) noErrors
  exact ⟨_, noErrors, (stopped _).mpr twice, rfl⟩

/-- Under the limit 0 the body of the loop is run once before the loop is stopped. -/
theorem limit_zero_printOne : ∃ u,
    Ends ⟨some 0⟩ [.list [.ident "while" ⟨1, 6⟩, .int 1 ⟨7, 8⟩, printOne] ⟨0, 19⟩] (.initial .buffer)
      (.error (.failed ⟨.loopLimit 0, some ⟨0, 19⟩⟩) u) ∧ u.lines = ["1"] ∧
    (countIterations (evalWith ⟨some 0⟩ 3) (some 0) (.int 1 ⟨7, 8⟩) [printOne] ⟨0, 19⟩ 3 0
      (.initial .buffer)).1 = 1 :=
  ⟨_, ⟨nofun, 4, rfl⟩, rfl, rfl⟩

end TwinLisp.Eval
